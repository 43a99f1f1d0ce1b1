import Rurge.Lib.Chunks
import Rurge.Lib.Segments
import Rurge.Net.Addr

/-!
# The IP packets the TUN writes

`fragment.rs`: one packet around a transport payload when it fits the device's MTU, and else its
fragments.  A packet is the fields of its headers, each as wide as it is on the wire, and what
follows them; smoltcp's setters write the fields they name.  The header's checksum is left out.

A receiver puts the fragments of one identification together by their offsets (`reassemble`), in
whatever order they come.
-/

namespace Rurge.Tun

def HOP_LIMIT : UInt8 := 64
def IPV4_HEADER : ℕ := 20
def IPV6_HEADER : ℕ := 40
def IPV6_FRAGMENT_HEADER : ℕ := 8

/-- `IpProtocol::Ipv6Frag`. -/
def IPV6_FRAG : UInt8 := 44

/-- What a fragment says of where it is in its datagram, in bytes. -/
structure Fragment where
  ident : UInt32
  offset : ℕ
  more : Bool

/-! ### smoltcp's packets -/

/-- An IPv4 packet without options; the offset counts units of 8 bytes. -/
structure Ipv4Packet where
  total_len : UInt16
  ident : UInt16
  dont_frag : Bool
  more_frags : Bool
  frag_offset : BitVec 13
  hop_limit : UInt8
  next_header : UInt8
  src_addr : Ipv4Addr
  dst_addr : Ipv4Addr
  data : List UInt8

namespace Ipv4Packet

/-- `Ipv4Repr::emit`: "don't fragment", and an identification of 0. -/
def emit (src dst : Ipv4Addr) (next_header : UInt8) (payload_len : ℕ) (data : List UInt8) :
    Ipv4Packet :=
  ⟨.ofNat (IPV4_HEADER + payload_len), 0, true, false, 0, HOP_LIMIT, next_header, src, dst, data⟩

def set_ident (p : Ipv4Packet) (ident : UInt16) : Ipv4Packet := { p with ident := ident }
def set_dont_frag (p : Ipv4Packet) (value : Bool) : Ipv4Packet := { p with dont_frag := value }
def set_more_frags (p : Ipv4Packet) (value : Bool) : Ipv4Packet := { p with more_frags := value }

/-- The setter takes bytes, and writes units of 8 of them. -/
def set_frag_offset (p : Ipv4Packet) (value : UInt16) : Ipv4Packet :=
  { p with frag_offset := .ofNat 13 (value.toNat >>> 3) }

end Ipv4Packet

/-- IPv6's fragment header; the offset counts units of 8 bytes. -/
structure Ipv6Fragment where
  next_header : UInt8
  frag_offset : BitVec 13
  more_frags : Bool
  ident : UInt32

/-- An IPv6 packet, with a fragment header or none. -/
structure Ipv6Packet where
  payload_len : UInt16
  next_header : UInt8
  hop_limit : UInt8
  src_addr : Ipv6Addr
  dst_addr : Ipv6Addr
  fragment : Option Ipv6Fragment
  data : List UInt8

/-- A packet of either family. -/
inductive Packet
  | v4 (p : Ipv4Packet)
  | v6 (p : Ipv6Packet)

/-! ### Writing -/

/-- An IPv4 packet around `data`, which is the whole transport payload, or one piece of it if
`fragment` says where. -/
def ipv4 (src dst : Ipv4Addr) (protocol : UInt8) (data : List UInt8) (fragment : Option Fragment) :
    Ipv4Packet :=
  let packet := Ipv4Packet.emit src dst protocol data.length data
  match fragment with
  | none => packet
  | some f => (((packet.set_ident f.ident.toUInt16).set_dont_frag false).set_more_frags
      f.more).set_frag_offset (.ofNat f.offset)

def ipv6 (src dst : Ipv6Addr) (protocol : UInt8) (data : List UInt8) : Ipv6Packet :=
  ⟨.ofNat data.length, protocol, HOP_LIMIT, src, dst, none, data⟩

/-- An IPv6 packet whose payload is a fragment header and then a piece of the transport payload. -/
def ipv6_fragment (src dst : Ipv6Addr) (protocol : UInt8) (data : List UInt8)
    (fragment : Fragment) : Ipv6Packet :=
  ⟨.ofNat (IPV6_FRAGMENT_HEADER + data.length), IPV6_FRAG, HOP_LIMIT, src, dst,
    some ⟨protocol, .ofNat 13 (UInt16.ofNat (fragment.offset / 8)).toNat, fragment.more,
      fragment.ident⟩, data⟩

/-- The packet that carries `transport` whole; nothing for two addresses of different families. -/
def ip_packet (src dst : IpAddr) (protocol : UInt8) (transport : List UInt8) : Option Packet :=
  match src, dst with
  | .v4 src, .v4 dst => some (.v4 (ipv4 src dst protocol transport none))
  | .v6 src, .v6 dst => some (.v6 (ipv6 src dst protocol transport))
  | _, _ => none

/-- One fragment. -/
def fragment_packet (src dst : IpAddr) (protocol : UInt8) (data : List UInt8) (f : Fragment) :
    Option Packet :=
  match src, dst with
  | .v4 src, .v4 dst => some (.v4 (ipv4 src dst protocol data (some f)))
  | .v6 src, .v6 dst => some (.v6 (ipv6_fragment src dst protocol data f))
  | _, _ => none

/-- The loop over the pieces, from this offset on. -/
def fragments (src dst : IpAddr) (protocol : UInt8) (ident : UInt32) (total : ℕ) :
    ℕ → List (List UInt8) → Option (List Packet)
  | _, [] => some []
  | offset, data :: rest => do
    let packet ← fragment_packet src dst protocol data
      ⟨ident, offset, offset + data.length < total⟩
    let packets ← fragments src dst protocol ident total (offset + data.length) rest
    return packet :: packets

/-- The IP header of the family. -/
def header (src : IpAddr) : ℕ := if src.isIpv4 then IPV4_HEADER else IPV6_HEADER

/-- The data of each fragment but the last: a multiple of 8 bytes. -/
def piece (src : IpAddr) (mtu : ℕ) : ℕ :=
  let room := if src.isIpv4 then mtu - IPV4_HEADER else mtu - (IPV6_HEADER + IPV6_FRAGMENT_HEADER)
  max (room / 8 * 8) 8

/-- The IP packets that carry `transport`, and the counter of identifications after them. -/
def ip_packets (src dst : IpAddr) (protocol : UInt8) (transport : List UInt8) (mtu : ℕ)
    (ids : UInt32) : Option (List Packet × UInt32) :=
  if header src + transport.length ≤ mtu then do
    let packet ← ip_packet src dst protocol transport
    return ([packet], ids)
  else do
    let packets ← fragments src dst protocol ids transport.length 0
      (chunks (piece src mtu) transport)
    return (packets, ids + 1)

/-! ### What a receiver reads -/

/-- What a packet says of where its data is in its datagram, in bytes. -/
structure Mark where
  ident : ℕ
  offset : ℕ
  more : Bool
  deriving DecidableEq

namespace Packet

/-- The bytes of the packet. -/
def len : Packet → ℕ
  | v4 p => IPV4_HEADER + p.data.length
  | v6 p => IPV6_HEADER + (if p.fragment.isSome then IPV6_FRAGMENT_HEADER else 0) + p.data.length

/-- How long its header has it. -/
def length_field : Packet → ℕ
  | v4 p => p.total_len.toNat
  | v6 p => IPV6_HEADER + p.payload_len.toNat

def src : Packet → IpAddr
  | v4 p => .v4 p.src_addr
  | v6 p => .v6 p.src_addr

def dst : Packet → IpAddr
  | v4 p => .v4 p.dst_addr
  | v6 p => .v6 p.dst_addr

/-- What the datagram carries. -/
def protocol : Packet → UInt8
  | v4 p => p.next_header
  | v6 p => match p.fragment with
    | none => p.next_header
    | some f => f.next_header

def data : Packet → List UInt8
  | v4 p => p.data
  | v6 p => p.data

/-- The marks of a fragment, of which a whole packet has none. -/
def mark : Packet → Option Mark
  | v4 p => if p.more_frags ∨ p.frag_offset ≠ 0 then
      some ⟨p.ident.toNat, 8 * p.frag_offset.toNat, p.more_frags⟩ else none
  | v6 p => p.fragment.map fun f => ⟨f.ident.toNat, 8 * f.frag_offset.toNat, f.more_frags⟩

end Packet

/-- The fragments of one identification put together: each at its offset, as far as the one after
which nothing follows goes, when nothing is missing before that. -/
def reassemble (pieces : List (Mark × List UInt8)) : Option (List UInt8) :=
  match pieces.find? fun p => !p.1.more with
  | none => none
  | some last =>
    let held := Segments.cover (pieces.map fun p => (p.1.offset, p.2))
    let length := last.1.offset + last.2.length
    if ∀ i < length, (held i).isSome then some ((List.range length).filterMap held) else none

/-- A packet as a piece of a datagram. -/
def Packet.piece (p : Packet) : Option (Mark × List UInt8) := p.mark.map fun m => (m, p.data)

theorem filterMap_range_getElem? {α : Type*} (l : List α) :
    (List.range l.length).filterMap (l[·]?) = l := by
  induction l with
  | nil => rfl
  | cons a l ih =>
    rw [List.length_cons, List.range_succ_eq_map, List.filterMap_cons, List.filterMap_map]
    exact congrArg (a :: ·) ih

theorem filterMap_eq_map_range {α β : Type*} {l : List α} {f : α → Option β} {g : ℕ → β}
    (h : ∀ i a, l[i]? = some a → f a = some (g i)) :
    l.filterMap f = (List.range l.length).map g := by
  induction l generalizing g with
  | nil => rfl
  | cons a l ih =>
    rw [List.filterMap_cons, h 0 a rfl, List.length_cons, List.range_succ_eq_map, List.map_cons,
      List.map_map]
    exact congrArg (g 0 :: ·) (ih fun i b hb => h (i + 1) b hb)

/-- The windows of a string, in any order, are put together to it. -/
theorem reassemble_windows {payload : List UInt8} {n ident : ℕ} (hn : 0 < n)
    (hpos : 0 < payload.length) {pieces : List (Mark × List UInt8)}
    (hpieces : pieces.Perm ((List.range (divCeil payload.length n)).map fun i =>
      (⟨ident, i * n, decide ((i + 1) * n < payload.length)⟩, (payload.drop (i * n)).take n))) :
    reassemble pieces = some payload := by
  have hmem : ∀ p, p ∈ pieces ↔ ∃ i, i * n < payload.length ∧
      p = (⟨ident, i * n, decide ((i + 1) * n < payload.length)⟩,
        (payload.drop (i * n)).take n) := by
    intro p
    rw [hpieces.mem_iff, List.mem_map]
    refine exists_congr fun i => ?_
    rw [List.mem_range, lt_divCeil hn, eq_comm]
  -- every piece is part of the payload, and every position is in one
  have hcover : ∀ i < payload.length,
      Segments.cover (pieces.map fun p => (p.1.offset, p.2)) i = payload[i]? := by
    intro i hi
    refine Segments.cover_of_agree ?_ ?_
    · rintro q hq v hv
      obtain ⟨p, hp, rfl⟩ := List.mem_map.1 hq
      obtain ⟨k, -, rfl⟩ := (hmem p).1 hp
      rw [Segments.get_window] at hv
      split_ifs at hv
      exact hv
    · have hk : i / n * n ≤ i := Nat.div_mul_le_self i n
      refine ⟨_, List.mem_map_of_mem ((hmem _).2 ⟨i / n, by omega, rfl⟩), ?_⟩
      have hlt : i < i / n * n + n := by
        have := Nat.div_add_mod' i n
        have := Nat.mod_lt i hn
        omega
      rw [Segments.get_window, if_pos ⟨hk, hlt⟩]
      simpa using hi
  -- the piece after which nothing follows ends where the payload does
  have hlast : ∃ last, pieces.find? (fun p => !p.1.more) = some last ∧
      last.1.offset + last.2.length = payload.length := by
    cases h : pieces.find? fun p => !p.1.more with
    | none =>
      have hk := Nat.div_mul_le_self (payload.length - 1) n
      have hlt := Nat.div_add_mod' (payload.length - 1) n
      have hmod := Nat.mod_lt (payload.length - 1) hn
      have hin := (hmem _).2 ⟨(payload.length - 1) / n, by omega, rfl⟩
      have hmore := List.find?_eq_none.1 h _ hin
      simp only [Nat.succ_mul, Bool.not_eq_eq_eq_not, Bool.not_true, decide_eq_false_iff_not,
        not_lt, not_le] at hmore
      omega
    | some last =>
      refine ⟨last, rfl, ?_⟩
      obtain ⟨k, hk, rfl⟩ := (hmem last).1 (List.mem_of_find?_eq_some h)
      have hmore := List.find?_some h
      simp only [Nat.succ_mul, Bool.not_eq_eq_eq_not, Bool.not_true, decide_eq_false_iff_not,
        not_lt] at hmore
      rw [List.length_take, List.length_drop]
      dsimp only
      omega
  obtain ⟨last, hfind, hlength⟩ := hlast
  unfold reassemble
  rw [hfind]
  dsimp only
  rw [hlength, if_pos fun i hi => by rw [hcover i hi]; simpa using hi]
  congr 1
  rw [List.filterMap_congr fun i hi => hcover i (List.mem_range.1 hi)]
  exact filterMap_range_getElem? payload

/-! ### One packet -/

/-- The headers of a fragment. -/
def headers (src : IpAddr) : ℕ :=
  if src.isIpv4 then IPV4_HEADER else IPV6_HEADER + IPV6_FRAGMENT_HEADER

/-- The identification as wide as the family's field is. -/
def ident_field (src : IpAddr) (ident : UInt32) : ℕ :=
  if src.isIpv4 then ident.toNat % 2 ^ 16 else ident.toNat

/-- What a packet with these headers is. -/
structure Packet.Is (p : Packet) (src dst : IpAddr) (protocol : UInt8) (data : List UInt8)
    (n : ℕ) (m : Option Mark) : Prop where
  len : p.len = n
  length_field : p.length_field = n
  ends : p.src = src ∧ p.dst = dst ∧ p.protocol = protocol
  carried : p.data = data
  mark : p.mark = m

/-- The offset comes back from its field. -/
theorem frag_offset_field {offset : ℕ} (h8 : 8 ∣ offset) (hlt : offset < 2 ^ 16) :
    8 * (BitVec.ofNat 13 (offset / 8)).toNat = offset := by
  rw [BitVec.toNat_ofNat, Nat.mod_eq_of_lt (by omega)]
  exact Nat.mul_div_cancel' h8

theorem ip_packet_spec {src dst : IpAddr} (hfamily : src.isIpv4 = dst.isIpv4) (protocol : UInt8)
    {transport : List UInt8} (hlen : transport.length ≤ if src.isIpv4 then 65515 else 65535) :
    ∃ p, ip_packet src dst protocol transport = some p ∧
      p.Is src dst protocol transport (header src + transport.length) none := by
  cases src with
  | v4 src =>
    cases dst with
    | v6 dst => cases hfamily
    | v4 dst =>
      refine ⟨_, rfl, rfl, ?_, ⟨rfl, rfl, rfl⟩, rfl, rfl⟩
      change transport.length ≤ 65515 at hlen
      exact UInt16.toNat_ofNat_of_lt' (show 20 + transport.length < 65536 by omega)
  | v6 src =>
    cases dst with
    | v4 dst => cases hfamily
    | v6 dst =>
      refine ⟨_, rfl, rfl, ?_, ⟨rfl, rfl, rfl⟩, rfl, rfl⟩
      change transport.length ≤ 65535 at hlen
      exact congrArg (40 + ·) (UInt16.toNat_ofNat_of_lt' (show _ < 65536 by omega))

theorem fragment_packet_spec {src dst : IpAddr} (hfamily : src.isIpv4 = dst.isIpv4)
    (protocol : UInt8) {data : List UInt8} {f : Fragment} (h8 : 8 ∣ f.offset)
    (hoffset : f.offset < 2 ^ 16) (hmark : f.more = true ∨ 0 < f.offset)
    (hlen : headers src + data.length ≤ if src.isIpv4 then 65535 else 65575) :
    ∃ p, fragment_packet src dst protocol data f = some p ∧
      p.Is src dst protocol data (headers src + data.length)
        (some ⟨ident_field src f.ident, f.offset, f.more⟩) := by
  cases src with
  | v4 src =>
    cases dst with
    | v6 dst => cases hfamily
    | v4 dst =>
      refine ⟨_, rfl, rfl, ?_, ⟨rfl, rfl, rfl⟩, rfl, ?_⟩
      · change 20 + data.length ≤ 65535 at hlen
        exact UInt16.toNat_ofNat_of_lt' (show 20 + data.length < 65536 by omega)
      · have hshift : (UInt16.ofNat f.offset).toNat >>> 3 = f.offset / 8 := by
          rw [UInt16.toNat_ofNat_of_lt' hoffset]
          exact Nat.shiftRight_eq_div_pow _ 3
        have hfield := frag_offset_field h8 hoffset
        change (if f.more = true ∨ BitVec.ofNat 13 ((UInt16.ofNat f.offset).toNat >>> 3) ≠ 0 then
          some (⟨f.ident.toUInt16.toNat,
            8 * (BitVec.ofNat 13 ((UInt16.ofNat f.offset).toNat >>> 3)).toNat, f.more⟩ : Mark)
          else none) = _
        rw [hshift, if_pos, hfield]
        · rfl
        · refine hmark.imp id fun hpos h0 => ?_
          rw [h0] at hfield
          simp at hfield
          omega
  | v6 src =>
    cases dst with
    | v4 dst => cases hfamily
    | v6 dst =>
      refine ⟨_, rfl, rfl, ?_, ⟨rfl, rfl, rfl⟩, rfl, ?_⟩
      · change 48 + data.length ≤ 65575 at hlen
        have hfield : (UInt16.ofNat (8 + data.length)).toNat = 8 + data.length :=
          UInt16.toNat_ofNat_of_lt' (show _ < 65536 by omega)
        change 40 + (UInt16.ofNat (8 + data.length)).toNat = 48 + data.length
        omega
      · have hfield := frag_offset_field h8 hoffset
        change some (⟨f.ident.toNat,
          8 * (BitVec.ofNat 13 (UInt16.ofNat (f.offset / 8)).toNat).toNat, f.more⟩ : Mark) = _
        rw [UInt16.toNat_ofNat_of_lt' (show _ < 65536 by omega), hfield]
        rfl

/-! ### The fragments -/

/-- The fragment of each piece: its offset is the length of the pieces before it. -/
theorem fragments_spec {src dst : IpAddr} (hfamily : src.isIpv4 = dst.isIpv4) (protocol : UInt8)
    (ident : UInt32) (total offset : ℕ) (pieces : List (List UInt8)) :
    ∃ packets, fragments src dst protocol ident total offset pieces = some packets ∧
      packets.length = pieces.length ∧ ∀ i p data, packets[i]? = some p → pieces[i]? = some data →
        fragment_packet src dst protocol data ⟨ident, offset + (pieces.take i).flatten.length,
          decide (offset + (pieces.take i).flatten.length + data.length < total)⟩ = some p := by
  have hsome : ∀ data f, ∃ p, fragment_packet src dst protocol data f = some p := by
    intro data f
    cases src <;> cases dst <;> first | exact ⟨_, rfl⟩ | cases hfamily
  induction pieces generalizing offset with
  | nil => exact ⟨[], rfl, rfl, nofun⟩
  | cons data rest ih =>
    obtain ⟨packets, hpackets, hlength, hget⟩ := ih (offset + data.length)
    obtain ⟨p, hp⟩ := hsome data ⟨ident, offset, decide (offset + data.length < total)⟩
    refine ⟨p :: packets, ?_, congrArg (· + 1) hlength, fun i q d hq hd => ?_⟩
    · rw [fragments, hp, Option.bind_eq_bind, Option.bind_some, hpackets]
      rfl
    · cases i with
      | zero =>
        obtain rfl := Option.some.inj hq
        obtain rfl := Option.some.inj hd
        exact hp
      | succ i =>
        have h := hget i q d hq hd
        rw [Nat.add_assoc] at h
        rw [List.take_succ_cons, List.flatten_cons, List.length_append]
        exact h

/-- A piece is a multiple of 8 that fits the MTU with its headers. -/
theorem piece_spec {src : IpAddr} {mtu : ℕ} (hmtu : 1280 ≤ mtu) :
    8 ∣ piece src mtu ∧ 0 < piece src mtu ∧ headers src + piece src mtu ≤ mtu := by
  unfold piece headers IPV4_HEADER IPV6_HEADER IPV6_FRAGMENT_HEADER
  dsimp only
  split_ifs <;> omega

/-- What the packets of one datagram are, when there is more than one. -/
structure Fragmented (payload : List UInt8) (packets : List Packet) : Prop where
  /-- One identification; each offset is where the data stands; only the last has no more after
  it. -/
  marks : ∃ ident, ∀ (i : ℕ) (p : Packet), packets[i]? = some p → p.mark =
    some ⟨ident, ((packets.take i).map Packet.data).flatten.length, decide (i + 1 < packets.length)⟩
  /-- An offset counts units of 8 bytes. -/
  multiple : ∀ p ∈ packets, ∀ m, p.mark = some m → 8 ∣ m.offset
  /-- In whatever order they arrive, they are put together to the payload. -/
  reassembled : ∀ arrived : List Packet, arrived.Perm packets →
    reassemble (arrived.filterMap Packet.piece) = some payload

/-- What the packets that carry a payload are. -/
structure Carries (src dst : IpAddr) (protocol : UInt8) (payload : List UInt8) (mtu : ℕ)
    (packets : List Packet) : Prop where
  len : ∀ p ∈ packets, p.len ≤ mtu ∧ p.length_field = p.len
  ends : ∀ p ∈ packets, p.src = src ∧ p.dst = dst ∧ p.protocol = protocol
  carried : (∃ p, packets = [p] ∧ p.mark = none ∧ p.data = payload) ∨ Fragmented payload packets

/-- The windows of the payload, each in the packet with its marks. -/
theorem fragmented {payload : List UInt8} {n ident : ℕ} (h8 : 8 ∣ n) (hn : 0 < n)
    (hpos : 0 < payload.length) {packets : List Packet}
    (hlength : packets.length = divCeil payload.length n)
    (hdata : ∀ (i : ℕ) (p : Packet), packets[i]? = some p → p.data = (payload.drop (i * n)).take n)
    (hmark : ∀ (i : ℕ) (p : Packet), packets[i]? = some p →
      p.mark = some ⟨ident, i * n, decide ((i + 1) * n < payload.length)⟩) :
    Fragmented payload packets := by
  have hwindows : packets.map Packet.data = chunks n payload := by
    refine List.ext_getElem? fun i => ?_
    rw [List.getElem?_map]
    cases hp : packets[i]? with
    | none =>
      rw [eq_comm, Option.map_none, List.getElem?_eq_none_iff, length_chunks, ← hlength]
      exact List.getElem?_eq_none_iff.1 hp
    | some p =>
      have hi := (List.getElem?_eq_some_iff.1 hp).1
      rw [hlength, lt_divCeil hn] at hi
      rw [getElem?_chunks hn hi, Option.map_some, hdata i p hp]
  refine ⟨⟨ident, fun i p hp => ?_⟩, fun p hp m hm => ?_, fun arrived harrived => ?_⟩
  · have hi := (List.getElem?_eq_some_iff.1 hp).1
    rw [hlength, lt_divCeil hn] at hi
    rw [hmark i p hp, List.map_take, hwindows, flatten_take_chunks hn, List.length_take,
      Nat.min_eq_left hi.le, hlength]
    simp only [lt_divCeil hn]
  · obtain ⟨i, hi⟩ := List.getElem?_of_mem hp
    rw [hmark i p hi, Option.some.injEq] at hm
    rw [← hm]
    exact Dvd.dvd.mul_left h8 i
  · refine @reassemble_windows payload n ident hn hpos _ ?_
    refine (harrived.filterMap _).trans (List.Perm.of_eq ?_)
    rw [← hlength]
    refine filterMap_eq_map_range fun i p hp => ?_
    rw [Packet.piece, hmark i p hp, hdata i p hp]
    rfl

/-- **Fragmentation of what the TUN writes.** -/
theorem ip_packets_carry {src dst : IpAddr} (hfamily : src.isIpv4 = dst.isIpv4) (protocol : UInt8)
    {transport : List UInt8} (hlen : transport.length ≤ if src.isIpv4 then 65515 else 65535)
    {mtu : ℕ} (hmtu : 1280 ≤ mtu) (ids : UInt32) :
    ∃ packets ids', ip_packets src dst protocol transport mtu ids = some (packets, ids') ∧
      Carries src dst protocol transport mtu packets := by
  unfold ip_packets
  split_ifs with hfits
  · obtain ⟨p, hp, h⟩ := ip_packet_spec hfamily protocol hlen
    refine ⟨[p], ids, by rw [hp]; rfl, fun q hq => ?_, fun q hq => ?_,
      .inl ⟨p, rfl, h.mark, h.carried⟩⟩
    · obtain rfl := List.mem_singleton.1 hq
      exact ⟨h.len.trans_le hfits, h.length_field.trans h.len.symm⟩
    · obtain rfl := List.mem_singleton.1 hq
      exact h.ends
  · obtain ⟨h8, hpos, hroom⟩ := @piece_spec src mtu hmtu
    obtain ⟨packets, hpackets, hlength, hget⟩ := fragments_spec hfamily protocol ids
      transport.length 0 (chunks (piece src mtu) transport)
    rw [length_chunks] at hlength
    -- more than one piece, and headers whose fields hold their lengths
    have hbounds : piece src mtu < transport.length ∧ transport.length < 2 ^ 16 ∧
        headers src + piece src mtu ≤ if src.isIpv4 then 65535 else 65575 := by
      unfold header headers IPV4_HEADER IPV6_HEADER IPV6_FRAGMENT_HEADER at *
      split_ifs at * <;> omega
    obtain ⟨hlt, hsmall, hheaders⟩ := hbounds
    have hspec : ∀ (i : ℕ) (p : Packet), packets[i]? = some p →
        p.Is src dst protocol ((transport.drop (i * piece src mtu)).take (piece src mtu))
          (headers src + min (piece src mtu) (transport.length - i * piece src mtu))
          (some ⟨ident_field src ids, i * piece src mtu,
            decide ((i + 1) * piece src mtu < transport.length)⟩) := by
      intro i p hp
      have hi := (List.getElem?_eq_some_iff.1 hp).1
      rw [hlength, lt_divCeil hpos] at hi
      have hpacket := hget i p _ hp (getElem?_chunks hpos hi)
      have hwindow : ((transport.drop (i * piece src mtu)).take (piece src mtu)).length =
          min (piece src mtu) (transport.length - i * piece src mtu) := by
        rw [List.length_take, List.length_drop]
      have hoffset : 0 + ((chunks (piece src mtu) transport).take i).flatten.length =
          i * piece src mtu := by
        rw [flatten_take_chunks hpos, List.length_take]
        omega
      have hmore : (0 + ((chunks (piece src mtu) transport).take i).flatten.length +
            ((transport.drop (i * piece src mtu)).take (piece src mtu)).length < transport.length) ↔
          (i + 1) * piece src mtu < transport.length := by
        rw [hoffset, hwindow, Nat.succ_mul]
        omega
      simp only [hmore] at hpacket
      rw [hoffset] at hpacket
      have hnot_whole : decide ((i + 1) * piece src mtu < transport.length) = true ∨
          0 < i * piece src mtu := by
        rcases Nat.eq_zero_or_pos i with rfl | hi0
        · exact .inl (by simpa using hlt)
        · exact .inr (Nat.mul_pos hi0 hpos)
      obtain ⟨p', hp', his⟩ := @fragment_packet_spec src dst hfamily protocol
        ((transport.drop (i * piece src mtu)).take (piece src mtu))
        ⟨ids, i * piece src mtu, decide ((i + 1) * piece src mtu < transport.length)⟩
        (Dvd.dvd.mul_left h8 i) (show i * piece src mtu < 2 ^ 16 by omega) hnot_whole
        (by rw [hwindow]; split_ifs at hheaders ⊢ <;> omega)
      obtain rfl := Option.some.inj (hpacket.symm.trans hp')
      rwa [hwindow] at his
    refine ⟨packets, ids + 1, by rw [hpackets]; rfl, fun q hq => ?_, fun q hq => ?_, .inr ?_⟩
    · obtain ⟨i, hi⟩ := List.getElem?_of_mem hq
      have h := hspec i q hi
      refine ⟨?_, h.length_field.trans h.len.symm⟩
      rw [h.len]
      omega
    · obtain ⟨i, hi⟩ := List.getElem?_of_mem hq
      exact (hspec i q hi).ends
    · exact fragmented h8 hpos (by omega) hlength (fun i p hp => (hspec i p hp).carried)
        fun i p hp => (hspec i p hp).mark

/-- A datagram that takes three fragments. -/
theorem ip_packets_carry_three : ∃ packets ids',
    ip_packets (.v4 0xc6120001) (.v4 0xc6120002) 17 (List.replicate 3000 0) 1280 7 =
      some (packets, ids') ∧
    Carries (.v4 0xc6120001) (.v4 0xc6120002) 17 (List.replicate 3000 0) 1280 packets := by
  have hlen : (List.replicate 3000 (0 : UInt8)).length ≤
      if (IpAddr.v4 0xc6120001).isIpv4 then 65515 else 65535 := by
    rw [List.length_replicate]
    decide
  have hfamily : (IpAddr.v4 0xc6120001).isIpv4 = (IpAddr.v4 0xc6120002).isIpv4 := rfl
  exact @ip_packets_carry (.v4 0xc6120001) (.v4 0xc6120002) hfamily 17 (List.replicate 3000 0) hlen
    1280 (by decide) 7

end Rurge.Tun
