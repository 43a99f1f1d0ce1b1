import Rurge.Proto.StreamUdp

/-!
# What goes over the stream

The bytes a sequence of calls writes, and the datagrams a sequence of calls receives, whatever the
reads the bytes are cut into (`stream_udp_spec`).
-/

namespace Rurge

namespace StreamUdp

open BigEndian

/-! ### Reads -/

/-- Fills a buffer from bytes that are not cut. -/
def take_bytes (framing : Framing) (n : ℕ) (bytes : List UInt8) :
    Except IoError (List UInt8 × List UInt8) :=
  if n ≤ bytes.length then .ok (bytes.take n, bytes.drop n) else .error framing.closed

theorem fill_flatten (framing : Framing) (n : ℕ) (reads : Reads) :
    (fill framing n reads).map (Prod.map id List.flatten) =
      take_bytes framing n reads.flatten := by
  unfold fill take_bytes
  cases hread : read_exact n reads with
  | none =>
    have hlt := read_exact_none hread
    rw [size_left] at hlt
    rw [if_neg (by omega)]
    rfl
  | some p =>
    obtain ⟨bytes, reads'⟩ := p
    obtain ⟨hflat, hlength⟩ := read_exact_size hread
    rw [hflat, if_pos (by rw [List.length_append]; omega), List.take_left' hlength,
      List.drop_left' hlength]
    rfl

theorem recv_rest_flatten (framing : Framing) (size : ℕ) (atyp : UInt8) (second : List UInt8)
    (rest : ℕ) (reads : Reads) :
    (recv_rest (fill framing) framing size atyp second rest reads).map
        (Prod.map id List.flatten) =
      recv_rest (take_bytes framing) framing size atyp second rest reads.flatten := by
  unfold recv_rest
  have hfirst := fill_flatten framing (rest + 2 + 2 + framing.gap.length) reads
  cases hf : fill framing (rest + 2 + 2 + framing.gap.length) reads with
  | error e =>
    rw [hf] at hfirst
    rw [← hfirst]
    rfl
  | ok p =>
    obtain ⟨tail, s⟩ := p
    rw [hf] at hfirst
    rw [← hfirst]
    simp only [Except.map, Prod.map, id]
    by_cases hcrlf : framing = .Trojan ∧ tail.drop (rest + 2 + 2) ≠ [13, 10]
    · rw [if_pos hcrlf, if_pos hcrlf]
    · rw [if_neg hcrlf, if_neg hcrlf]
      generalize (from_u16 ((tail.drop (rest + 2)).take 2)).toNat = len
      have hsecond := fill_flatten framing len s
      cases hs : fill framing len s with
      | error e =>
        rw [hs] at hsecond
        rw [← hsecond]
        rfl
      | ok p =>
        obtain ⟨payload, s'⟩ := p
        rw [hs] at hsecond
        rw [← hsecond]
        simp only [Except.map, Prod.map, id]
        by_cases hlen : len > size
        · rw [if_pos hlen, if_pos hlen]
        · rw [if_neg hlen, if_neg hlen]

/-- What is received does not depend on how the bytes are cut. -/
theorem recv_one_flatten (framing : Framing) (size : ℕ) (reads : Reads) :
    (recv_one (fill framing) framing size reads).map (Prod.map id List.flatten) =
      recv_one (take_bytes framing) framing size reads.flatten := by
  unfold recv_one
  have hfirst := fill_flatten framing 2 reads
  cases hf : fill framing 2 reads with
  | error e =>
    rw [hf] at hfirst
    rw [← hfirst]
    rfl
  | ok p =>
    obtain ⟨addr, s⟩ := p
    rw [hf] at hfirst
    rw [← hfirst]
    simp only [Except.map, Prod.map, id]
    cases framing.socks_type (addr.getD 0 0) with
    | none => rfl
    | some atyp => exact recv_rest_flatten framing size atyp _ _ s

/-! ### The datagrams of a server -/

/-- Where a datagram comes from: an address, or the bytes of a name. -/
inductive Source
  | v4 (ip : Ipv4Addr)
  | v6 (ip : Ipv6Addr)
  | name (bytes : List UInt8) (le : bytes.length ≤ 255)
  deriving DecidableEq

namespace Source

def atyp : Source → UInt8
  | .v4 _ => 1
  | .v6 _ => 4
  | .name _ _ => 3

def bytes : Source → List UInt8
  | .v4 ip => toBytes 4 ip.toNat
  | .v6 ip => toBytes 16 ip.toNat
  | .name bytes _ => UInt8.ofNat bytes.length :: bytes

/-- The host a source is, if it is one. -/
def host : Source → Option HostName
  | .v4 ip => some (.ip (.v4 ip))
  | .v6 ip => some (.ip (.v6 ip))
  | .name bytes _ => (from_utf8 bytes).bind HostName.from_wire

end Source

/-- A datagram a server frames. -/
structure Datagram where
  source : Source
  port : UInt16
  payload : List UInt8
  le : payload.length ≤ 65535
  deriving DecidableEq

namespace Datagram

/-- What stands before the gap. -/
def start (framing : Framing) (d : Datagram) : List UInt8 :=
  framing.wire_type d.source.atyp :: d.source.bytes ++ u16 d.port ++
    u16 (UInt16.ofNat d.payload.length)

def frame (framing : Framing) (d : Datagram) : List UInt8 :=
  d.start framing ++ framing.gap ++ d.payload

def target (d : Datagram) : Option Target := d.source.host.map (⟨·, d.port⟩)

/-- What a buffer of `size` bytes gets of a datagram. -/
def given (size : ℕ) (d : Datagram) : Option (List UInt8 × Target) :=
  if d.payload.length ≤ size then d.target.map (d.payload, ·) else none

end Datagram

/-- What ends the carrier: the end of the stream before or inside a datagram, an unknown address
type, or a datagram of trojan's without its CRLF. -/
inductive Ends (framing : Framing) : List UInt8 → IoError → Prop
  | closed {tail} (d : Datagram) : tail <+: d.frame framing → tail ≠ d.frame framing →
      Ends framing tail framing.closed
  | alone {wire} : framing.socks_type wire = none → Ends framing [wire] framing.closed
  | unknown_type {wire second rest} : framing.socks_type wire = none →
      Ends framing (wire :: second :: rest) framing.unknown_type
  | no_crlf {gap rest : List UInt8} (d : Datagram) : framing = .Trojan → gap.length = 2 →
      gap ≠ [13, 10] → Ends framing (d.start framing ++ gap ++ rest) Framing.no_crlf

/-- The next datagram a buffer of `size` bytes gets, and those after it. -/
def next (size : ℕ) : List Datagram → Option ((List UInt8 × Target) × List Datagram)
  | [] => none
  | d :: ds =>
    match d.given size with
    | some x => some (x, ds)
    | none => next size ds

/-- The bytes of datagrams. -/
def frames (framing : Framing) (ds : List Datagram) : List UInt8 :=
  (ds.map (Datagram.frame framing)).flatten

/-! ### One datagram -/

theorem slice_middle (a b c : List UInt8) {i j : ℕ} (hi : a.length = i) (hj : i + b.length = j) :
    Quic.slice (a ++ b ++ c) i j = some b := by
  refine Quic.slice_eq_some.2 ⟨by omega, by simp only [List.length_append]; omega, ?_⟩
  rw [List.append_assoc, List.drop_left' hi, List.take_left' (by omega)]

theorem ofNat_ofBytes_toBytes {w k : ℕ} (ip : BitVec w) (h : 256 ^ k = 2 ^ w) :
    BitVec.ofNat w (ofBytes (toBytes k ip.toNat)) = ip := by
  rw [ofBytes_toBytes, h, Nat.mod_eq_of_lt ip.isLt, BitVec.ofNat_toNat, BitVec.setWidth_eq]

/-- The host of an address as SOCKS5 writes it. -/
theorem parse_socks_host_source (source : Source) (rest : List UInt8) :
    Shadowsocks.parse_socks_host (source.atyp :: source.bytes ++ rest) =
      source.host.map (·, 1 + source.bytes.length) := by
  cases source with
  | v4 ip =>
    have hslice := slice_middle [1] (toBytes 4 ip.toNat) rest (i := 1) (j := 5) rfl (by simp)
    simp only [Shadowsocks.parse_socks_host, Source.atyp, Source.bytes, Source.host,
      List.cons_append, List.head?_cons, Option.bind_eq_bind, Option.bind_some, if_pos,
      length_toBytes]
    rw [List.singleton_append] at hslice
    rw [← List.cons_append, hslice, Option.map_some, ofNat_ofBytes_toBytes ip (by norm_num)]
    rfl
  | v6 ip =>
    have hslice := slice_middle [4] (toBytes 16 ip.toNat) rest (i := 1) (j := 17) rfl (by simp)
    simp only [Shadowsocks.parse_socks_host, Source.atyp, Source.bytes, Source.host,
      List.cons_append, List.head?_cons, Option.bind_eq_bind, Option.bind_some, length_toBytes]
    rw [List.singleton_append] at hslice
    rw [if_neg (by decide), if_pos trivial, ← List.cons_append, hslice, Option.map_some,
      ofNat_ofBytes_toBytes ip (by norm_num)]
    rfl
  | name bytes le =>
    have hlen : (UInt8.ofNat bytes.length).toNat = bytes.length := by
      rw [UInt8.toNat_ofNat']
      omega
    have hslice := slice_middle [3, UInt8.ofNat bytes.length] bytes rest (i := 2)
      (j := 2 + bytes.length) rfl rfl
    simp only [Shadowsocks.parse_socks_host, Source.atyp, Source.bytes, Source.host,
      List.cons_append, List.head?_cons, Option.bind_eq_bind, Option.bind_some,
      List.getElem?_cons_succ, List.getElem?_cons_zero, hlen]
    simp only [List.cons_append, List.nil_append] at hslice
    rw [if_neg (by decide), if_neg (by decide), if_pos trivial, hslice]
    rw [Option.bind_some, Option.map_bind]
    refine Option.bind_congr fun name _ => ?_
    cases hhost : HostName.from_wire name with
    | none => simp [hhost]
    | some host => simp [hhost, Nat.add_comm, Nat.add_left_comm]

/-- The source of a datagram. -/
theorem parse_source (d : Datagram) :
    (Shadowsocks.parse_socks_addr (d.source.atyp :: d.source.bytes ++ u16 d.port)).map Prod.fst =
      d.target := by
  rw [Shadowsocks.parse_socks_addr, parse_socks_host_source, Datagram.target]
  cases d.source.host with
  | none => rfl
  | some host =>
    have hslice := slice_middle (d.source.atyp :: d.source.bytes) (u16 d.port) []
      (i := 1 + d.source.bytes.length) (j := 1 + d.source.bytes.length + 2)
      (by simp [Nat.add_comm]) (by simp)
    rw [List.append_nil, List.cons_append] at hslice
    simp [hslice]

/-- The second byte tells how much of the address is left. -/
theorem Source.bytes_cons (source : Source) : ∃ second more, source.bytes = second :: more ∧
    (if source.atyp = 1 then 4 - 1 else if source.atyp = 4 then 16 - 1 else second.toNat) =
      more.length := by
  cases source with
  | v4 ip =>
    obtain ⟨b, bs, h⟩ := List.exists_cons_of_length_eq_add_one (length_toBytes 4 ip.toNat)
    have hlength := congrArg List.length h
    simp only [length_toBytes, List.length_cons] at hlength
    exact ⟨b, bs, h, by simp [atyp]; omega⟩
  | v6 ip =>
    obtain ⟨b, bs, h⟩ := List.exists_cons_of_length_eq_add_one (length_toBytes 16 ip.toNat)
    have hlength := congrArg List.length h
    simp only [length_toBytes, List.length_cons] at hlength
    exact ⟨b, bs, h, by simp [atyp]; omega⟩
  | name bytes le =>
    refine ⟨_, _, rfl, ?_⟩
    have h1 : (Source.name bytes le).atyp ≠ 1 := by simp [atyp]
    have h4 : (Source.name bytes le).atyp ≠ 4 := by simp [atyp]
    rw [if_neg h1, if_neg h4, UInt8.toNat_ofNat']
    omega

theorem socks_type_wire_type (framing : Framing) (source : Source) :
    framing.socks_type (framing.wire_type source.atyp) = some source.atyp := by
  cases framing <;> cases source <;> rfl

/-- Bytes that begin like `a ++ b` either end within `a` or have it whole. -/
theorem take_bytes_begun (framing : Framing) {n : ℕ} {bytes a b : List UInt8}
    (hn : a.length = n) (h : bytes <+: a ++ b) :
    (take_bytes framing n bytes = .error framing.closed ∧ bytes.length < n) ∨
      ∃ c, bytes = a ++ c ∧ c <+: b ∧ take_bytes framing n bytes = .ok (a, c) := by
  unfold take_bytes
  by_cases hle : n ≤ bytes.length
  · right
    obtain ⟨rest, hrest⟩ := h
    have hpre : a <+: bytes := List.prefix_of_prefix_length_le (List.prefix_append a b)
      ⟨rest, hrest⟩ (by omega)
    obtain ⟨c, rfl⟩ := hpre
    rw [List.append_assoc] at hrest
    refine ⟨c, rfl, ⟨rest, List.append_cancel_left hrest⟩, ?_⟩
    rw [if_pos hle, List.take_left' hn, List.drop_left' hn]
  · exact .inl ⟨by rw [if_neg hle], by omega⟩

theorem take_bytes_append {framing : Framing} {n : ℕ} {a b : List UInt8} (hn : a.length = n) :
    take_bytes framing n (a ++ b) = .ok (a, b) := by
  rw [take_bytes, if_pos (by rw [List.length_append]; omega), List.take_left' hn,
    List.drop_left' hn]

section

variable {framing : Framing} {size : ℕ}

/-- What a datagram is made of as it is read: its type and the byte after it, what that byte tells
the length of up to the gap, and the payload. -/
structure Parts (framing : Framing) (d : Datagram) (second : UInt8) (more : List UInt8) : Prop where
  bytes : d.source.bytes = second :: more
  rest : (if d.source.atyp = 1 then 4 - 1 else if d.source.atyp = 4 then 16 - 1
    else second.toNat) = more.length
  start : d.start framing = [framing.wire_type d.source.atyp, second] ++
    (more ++ u16 d.port ++ u16 (UInt16.ofNat d.payload.length))

theorem exists_parts (framing : Framing) (d : Datagram) :
    ∃ second more, Parts framing d second more := by
  obtain ⟨second, more, hbytes, hrest⟩ := d.source.bytes_cons
  exact ⟨second, more, hbytes, hrest, by simp [Datagram.start, hbytes]⟩

/-- The reading of a datagram, its first two bytes being there. -/
theorem recv_one_begun {d : Datagram} {second : UInt8} {more : List UInt8}
    (h : Parts framing d second more) (bytes : List UInt8) :
    recv_one (take_bytes framing) framing size
        ([framing.wire_type d.source.atyp, second] ++ bytes) =
      recv_rest (take_bytes framing) framing size d.source.atyp [second] more.length bytes := by
  rw [recv_one, take_bytes_append (show [_, second].length = 2 from rfl)]
  simp only [List.getD_cons_zero, List.getD_cons_succ, socks_type_wire_type, h.rest,
    List.drop_succ_cons, List.drop_zero]

section

variable (d : Datagram) (more gap : List UInt8)

/-- What is read after the first two bytes. -/
def Datagram.tail : List UInt8 :=
  more ++ u16 d.port ++ u16 (UInt16.ofNat d.payload.length) ++ gap

theorem length_tail : (d.tail more gap).length = more.length + 2 + 2 + gap.length := by
  simp only [Datagram.tail, List.length_append, length_u16]

theorem tail_address : (d.tail more gap).take (more.length + 2) = more ++ u16 d.port := by
  rw [Datagram.tail, List.append_assoc]
  exact List.take_left' (by simp)

theorem tail_gap : (d.tail more gap).drop (more.length + 2 + 2) = gap :=
  List.drop_left' (by simp)

theorem tail_length :
    (from_u16 (((d.tail more gap).drop (more.length + 2)).take 2)).toNat = d.payload.length := by
  have hle := d.le
  have hdrop : (d.tail more gap).drop (more.length + 2) =
      u16 (UInt16.ofNat d.payload.length) ++ gap := by
    rw [Datagram.tail, List.append_assoc]
    exact List.drop_left' (by simp)
  rw [hdrop, List.take_left' (length_u16 _), from_u16_u16, UInt16.toNat_ofNat']
  omega

end

/-- What is made of a datagram that came whole. -/
theorem recv_one_frame (d : Datagram) (rest : List UInt8) :
    recv_one (take_bytes framing) framing size (d.frame framing ++ rest) =
      .ok (d.given size, rest) := by
  obtain ⟨second, more, h⟩ := exists_parts framing d
  have hsplit : d.frame framing ++ rest = [framing.wire_type d.source.atyp, second] ++
      (d.tail more framing.gap ++ (d.payload ++ rest)) := by
    simp [Datagram.frame, h.start, Datagram.tail]
  have hcrlf : ¬(framing = .Trojan ∧ framing.gap ≠ [13, 10]) := by
    rintro ⟨rfl, hne⟩
    exact hne rfl
  rw [hsplit, recv_one_begun h, recv_rest, take_bytes_append (length_tail d more framing.gap)]
  simp only [tail_address, tail_gap, tail_length, if_neg hcrlf]
  rw [take_bytes_append (a := d.payload) rfl, Datagram.given]
  have hparse := parse_source d
  rw [h.bytes] at hparse
  by_cases hle : d.payload.length ≤ size
  · simp only
    rw [if_neg (by omega), if_pos hle, ← hparse, Option.map_map]
    simp [Function.comp_def]
  · simp only
    rw [if_pos (by omega), if_neg hle]

/-- What is made of bytes that end the carrier. -/
theorem recv_one_ends {tail : List UInt8} {e : IoError} (h : Ends framing tail e) :
    recv_one (take_bytes framing) framing size tail = .error e := by
  cases h with
  | closed d hpre hne =>
    obtain ⟨second, more, h⟩ := exists_parts framing d
    have hsplit : d.frame framing = [framing.wire_type d.source.atyp, second] ++
        (d.tail more framing.gap ++ (d.payload ++ [])) := by
      simp [Datagram.frame, h.start, Datagram.tail]
    rw [hsplit] at hpre hne
    rcases @take_bytes_begun framing 2 _ _ _ rfl hpre with
      ⟨herr, -⟩ | ⟨c, rfl, hc, -⟩
    · rw [recv_one, herr]
    rw [recv_one_begun h, recv_rest]
    rcases take_bytes_begun framing (length_tail d more framing.gap) hc with
      ⟨herr, -⟩ | ⟨c', rfl, hc', hok⟩
    · rw [herr]
    have hcrlf : ¬(framing = .Trojan ∧ framing.gap ≠ [13, 10]) := by
      rintro ⟨rfl, hne⟩
      exact hne rfl
    simp only [hok, tail_gap, tail_length, if_neg hcrlf]
    rcases take_bytes_begun framing rfl hc' with ⟨herr, -⟩ | ⟨c'', rfl, hc'', -⟩
    · rw [herr]
    · rw [List.prefix_nil.1 hc''] at hne
      exact absurd rfl hne
  | alone => rfl
  | unknown_type hwire =>
    rw [recv_one, take_bytes, if_pos (by simp)]
    simp [hwire]
  | @no_crlf gap rest d htrojan hgap hne =>
    obtain ⟨second, more, h⟩ := exists_parts framing d
    have hsplit : d.start framing ++ gap ++ rest = [framing.wire_type d.source.atyp, second] ++
        (d.tail more gap ++ rest) := by
      simp [h.start, Datagram.tail]
    have hlength : (d.tail more gap).length = more.length + 2 + 2 + framing.gap.length := by
      rw [length_tail, hgap, htrojan]
      rfl
    rw [hsplit, recv_one_begun h, recv_rest, take_bytes_append hlength]
    simp only [tail_gap]
    rw [if_pos ⟨htrojan, hne⟩]

end

/-! ### A sequence of datagrams -/

/-- The calls of `recv_from` with the sizes of their buffers, until one fails. -/
def receive (framing : Framing) : List ℕ → Reads → List (Except IoError (List UInt8 × Target))
  | [], _ => []
  | size :: sizes, reads =>
    match recv_from framing size reads with
    | .error e => [.error e]
    | .ok (d, reads') => .ok d :: receive framing sizes reads'

/-- What the calls get of the datagrams of a server, and the end of the carrier. -/
def heard (e : IoError) : List ℕ → List Datagram → List (Except IoError (List UInt8 × Target))
  | [], _ => []
  | size :: sizes, ds =>
    match next size ds with
    | none => [.error e]
    | some (x, ds') => .ok x :: heard e sizes ds'

section

variable {framing : Framing} {size : ℕ} {tail : List UInt8} {e : IoError}

/-- One datagram of the calls: an error ends a call, what is dropped leads on. -/
theorem recv_from_eq (framing : Framing) (size : ℕ) (reads : Reads) :
    recv_from framing size reads =
      match recv_one (fill framing) framing size reads with
      | .error e => .error e
      | .ok (some d, reads') => .ok (d, reads')
      | .ok (none, reads') => recv_from framing size reads' := by
  rw [recv_from]
  split <;> rename_i heq <;> rw [heq]

/-- A call gets the next datagram that is for it, or the end of the carrier. -/
theorem recv_from_spec (hend : Ends framing tail e) (ds : List Datagram) {reads : Reads}
    (h : reads.flatten = frames framing ds ++ tail) :
    match next size ds with
    | none => recv_from framing size reads = .error e
    | some (x, ds') => ∃ reads', recv_from framing size reads = .ok (x, reads') ∧
        reads'.flatten = frames framing ds' ++ tail := by
  induction ds generalizing reads with
  | nil =>
    have hone := recv_one_flatten framing size reads
    rw [h, frames, List.map_nil, List.flatten_nil, List.nil_append, recv_one_ends hend] at hone
    cases hread : recv_one (fill framing) framing size reads with
    | error e' =>
      rw [hread] at hone
      show recv_from framing size reads = .error e
      rw [recv_from_eq, hread]
      exact congrArg Except.error (Except.error.inj hone)
    | ok p =>
      rw [hread] at hone
      cases hone
  | cons d ds ih =>
    have hone := recv_one_flatten framing size reads
    rw [h, frames, List.map_cons, List.flatten_cons, List.append_assoc, recv_one_frame] at hone
    cases hread : recv_one (fill framing) framing size reads with
    | error e' =>
      rw [hread] at hone
      cases hone
    | ok p =>
      obtain ⟨x, reads'⟩ := p
      rw [hread] at hone
      have hinj := Except.ok.inj hone
      rw [Prod.map_apply, id, Prod.mk.injEq] at hinj
      obtain ⟨rfl, hflat⟩ := hinj
      have hcall := recv_from_eq framing size reads
      rw [hread] at hcall
      cases hgiven : d.given size with
      | some x =>
        rw [hgiven] at hcall
        simp only [next, hgiven]
        exact ⟨reads', hcall, hflat⟩
      | none =>
        rw [hgiven] at hcall
        simp only [next, hgiven, hcall]
        exact ih hflat

/-- Every call gets what it is to get, as long as the carrier stands. -/
theorem receive_eq (hend : Ends framing tail e) (sizes : List ℕ) (ds : List Datagram)
    {reads : Reads} (h : reads.flatten = frames framing ds ++ tail) :
    receive framing sizes reads = heard e sizes ds := by
  induction sizes generalizing ds reads with
  | nil => rfl
  | cons size sizes ih =>
    have hcall := @recv_from_spec framing size tail e hend ds reads h
    rw [receive, heard]
    cases hnext : next size ds with
    | none =>
      rw [hnext] at hcall
      rw [hcall]
    | some p =>
      obtain ⟨x, ds'⟩ := p
      rw [hnext] at hcall
      obtain ⟨reads', hok, hflat⟩ := hcall
      simp only [hok, ih ds' hflat]

/-- With buffers of one size, the calls get every datagram that fits it and has a source. -/
theorem heard_replicate (ds : List Datagram) :
    heard e (List.replicate (ds.length + 1) size) ds =
      (ds.filterMap (Datagram.given size)).map .ok ++ [.error e] := by
  have hnext : ∀ (n : ℕ) (ds : List Datagram), ds.length ≤ n →
      heard e (List.replicate (n + 1) size) ds =
        (ds.filterMap (Datagram.given size)).map .ok ++ [.error e] := by
    intro n ds
    induction ds generalizing n with
    | nil =>
      intro _
      rfl
    | cons d ds ih =>
      intro hle
      rw [List.length_cons] at hle
      cases hgiven : d.given size with
      | none =>
        have hsame : heard e (List.replicate (n + 1) size) (d :: ds) =
            heard e (List.replicate (n + 1) size) ds := by
          simp only [List.replicate_succ, heard, next, hgiven]
        rw [hsame, List.filterMap_cons_none hgiven]
        exact ih n (by omega)
      | some x =>
        obtain ⟨m, rfl⟩ := Nat.exists_eq_add_of_le' (show 1 ≤ n by omega)
        rw [List.filterMap_cons_some hgiven, List.map_cons, List.cons_append, ← ih m (by omega),
          List.replicate_succ]
        simp only [heard, next, hgiven]
  exact hnext ds.length ds le_rfl

end

/-! ### What is written -/

section

variable (idna : Str → Option Str) (framing : Framing)

/-- How the server sees a target, if it can be sent. -/
def source (host : HostName) : Option Source :=
  match host with
  | .ip (.v4 ip) => some (.v4 ip)
  | .ip (.v6 ip) => some (.v6 ip)
  | .domain name =>
    (to_ascii idna name).bind fun ascii =>
      if h : (utf8 ascii).length ≤ 255 then some (.name (utf8 ascii) h) else none

/-- The datagram a call sends, if it can be sent. -/
def datagram (call : List UInt8 × Target) : Option Datagram :=
  if h : call.1.length ≤ 65535 then
    (source idna call.2.host).map fun source => ⟨source, call.2.port, call.1, h⟩
  else none

/-- The address of a target as SOCKS5 writes it. -/
theorem socks_addr_eq (to_ : Target) : (socks_addr idna to_).toOption =
    (source idna to_.host).map fun source => source.atyp :: source.bytes ++ u16 to_.port := by
  obtain ⟨host, port⟩ := to_
  cases host with
  | ip ip =>
    cases ip with
    | v4 ip => rfl
    | v6 ip => rfl
  | domain name =>
    simp only [socks_addr, source]
    cases to_ascii idna name with
    | none => rfl
    | some ascii =>
      simp only [Option.bind_some]
      split_ifs with hle
      · rfl
      · rfl

theorem encode_eq (call : List UInt8 × Target) : (framing.encode idna call.2 call.1).toOption =
    (datagram idna call).map (Datagram.frame framing) := by
  have haddr := socks_addr_eq idna call.2
  unfold Framing.encode datagram
  by_cases hle : call.1.length ≤ 65535
  · rw [if_pos hle, dif_pos hle]
    cases h : socks_addr idna call.2 with
    | error e =>
      rw [h] at haddr
      cases hsource : source idna call.2.host with
      | none => rfl
      | some source =>
        rw [hsource] at haddr
        cases haddr
    | ok addr =>
      rw [h] at haddr
      cases hsource : source idna call.2.host with
      | none =>
        rw [hsource] at haddr
        cases haddr
      | some source =>
        rw [hsource, Option.map_some] at haddr
        have haddr : addr = source.atyp :: source.bytes ++ u16 call.2.port :=
          Option.some.inj haddr
        simp [haddr, Except.toOption, Datagram.frame, Datagram.start]
  · rw [if_neg hle, dif_neg hle]
    rfl

/-- The writer after a sequence of calls. -/
def sends (w : Writer) (calls : List (List UInt8 × Target)) : Writer :=
  calls.foldl (fun w call => (send_to idna framing w call.1 call.2).2) w

/-- The address of the first datagram and what follows it in the head. -/
def Datagram.head_tail (d : Datagram) : List UInt8 :=
  d.source.atyp :: d.source.bytes ++ u16 d.port ++ framing.gap

/-- One call: a refused one leaves the writer as it is, another writes its datagram whole, with the
head before the first. -/
theorem send_to_eq (w : Writer) (call : List UInt8 × Target) :
    match datagram idna call with
    | none => ∃ e, send_to idna framing w call.1 call.2 = (.error e, w)
    | some d => send_to idna framing w call.1 call.2 =
        (.ok (), ⟨w.written ++ (w.head.elim [] (· ++ d.head_tail framing) ++ d.frame framing),
          none⟩) := by
  have hencode := encode_eq idna framing call
  cases hd : datagram idna call with
  | none =>
    obtain ⟨e, he⟩ : ∃ e, framing.encode idna call.2 call.1 = .error e := by
      cases h : framing.encode idna call.2 call.1 with
      | error e => exact ⟨e, rfl⟩
      | ok bytes =>
        rw [h, hd] at hencode
        cases hencode
    unfold send_to
    cases w.head with
    | none => exact ⟨e, by simp only [he]⟩
    | some head =>
      cases framing.head_tail idna call.2 with
      | error e' => exact ⟨e', rfl⟩
      | ok bytes => exact ⟨e, by simp only [Except.map, he]⟩
  | some d =>
    have hframe : framing.encode idna call.2 call.1 = .ok (d.frame framing) := by
      cases h : framing.encode idna call.2 call.1 with
      | error e =>
        rw [h, hd] at hencode
        cases hencode
      | ok bytes =>
        rw [h, hd] at hencode
        exact congrArg Except.ok (Option.some.inj hencode)
    have hhead : framing.head_tail idna call.2 = .ok (d.head_tail framing) := by
      have haddr := socks_addr_eq idna call.2
      unfold datagram at hd
      split_ifs at hd with hle
      obtain ⟨source, hsource, rfl⟩ := Option.map_eq_some_iff.1 hd
      rw [hsource, Option.map_some] at haddr
      unfold Framing.head_tail
      cases h : socks_addr idna call.2 with
      | error e =>
        rw [h] at haddr
        cases haddr
      | ok addr =>
        rw [h] at haddr
        have haddr : addr = source.atyp :: source.bytes ++ u16 call.2.port :=
          Option.some.inj haddr
        rw [haddr]
        rfl
    unfold send_to
    cases w.head with
    | none => simp [hframe]
    | some head => simp [hhead, hframe, Except.map]

/-- The writer after a datagram that can be sent, and after one that cannot. -/
theorem sends_cons (w : Writer) (call : List UInt8 × Target) (calls : List (List UInt8 × Target)) :
    sends idna framing w (call :: calls) = match datagram idna call with
      | none => sends idna framing w calls
      | some d => sends idna framing
        ⟨w.written ++ (w.head.elim [] (· ++ d.head_tail framing) ++ d.frame framing), none⟩
          calls := by
  have hsend := send_to_eq idna framing w call
  rw [show sends idna framing w (call :: calls) =
    sends idna framing (send_to idna framing w call.1 call.2).2 calls from rfl]
  cases hd : datagram idna call with
  | none =>
    obtain ⟨e, he⟩ := hd ▸ hsend
    rw [he]
  | some d =>
    simp only [hd] at hsend
    rw [hsend]

/-- After the head has gone out, every datagram that can be sent is written whole, in order. -/
theorem sends_started (written : List UInt8) (calls : List (List UInt8 × Target)) :
    sends idna framing ⟨written, none⟩ calls =
      ⟨written ++ frames framing (calls.filterMap (datagram idna)), none⟩ := by
  induction calls generalizing written with
  | nil => simp [sends, frames]
  | cons call calls ih =>
    rw [sends_cons, List.filterMap_cons]
    cases datagram idna call <;> simp [ih, frames]

/-- The head goes out once, before the first datagram that can be sent, and waits for it. -/
theorem sends_head (head : List UInt8) (calls : List (List UInt8 × Target)) :
    sends idna framing ⟨[], some head⟩ calls =
      match calls.filterMap (datagram idna) with
      | [] => ⟨[], some head⟩
      | d :: ds => ⟨head ++ d.head_tail framing ++ frames framing (d :: ds), none⟩ := by
  induction calls with
  | nil => rfl
  | cons call calls ih =>
    rw [sends_cons, List.filterMap_cons]
    cases datagram idna call <;> simp [ih, sends_started, frames]

/-- The target a receiver makes of one that was sent: an address as it is, a name as it is read in
ASCII. -/
def read_back (to_ : Target) : Option Target :=
  match to_.host with
  | .ip _ => some to_
  | .domain name =>
    ((to_ascii idna name).bind HostName.from_wire).map (⟨·, to_.port⟩)

theorem from_utf8_utf8 (s : Str) : from_utf8 (utf8 s) = some s := by
  have hbytes : (⟨(utf8 s).toArray⟩ : ByteArray) = (String.ofList s).toByteArray := by
    rw [String.toByteArray_ofList, List.utf8Encode]
    exact ByteArray.ext (by rw [List.data_toByteArray, utf8])
  rw [from_utf8, hbytes, String.fromUTF8?, dif_pos (String.ofList s).isValidUTF8]
  have hback : String.fromUTF8 (String.ofList s).toByteArray (String.ofList s).isValidUTF8 =
      String.ofList s := String.toByteArray_inj.1 rfl
  rw [hback, Option.map_some, String.toList_ofList]

/-- A datagram that was sent holds the payload, and its source reads as the target. -/
theorem datagram_reads {call : List UInt8 × Target} {d : Datagram}
    (h : datagram idna call = some d) :
    d.payload = call.1 ∧ d.target = read_back idna call.2 := by
  obtain ⟨buf, host, port⟩ := call
  unfold datagram at h
  split_ifs at h with hle
  obtain ⟨src, hsource, rfl⟩ := Option.map_eq_some_iff.1 h
  refine ⟨rfl, ?_⟩
  cases host with
  | ip ip =>
    cases ip with
    | v4 ip =>
      cases hsource
      rfl
    | v6 ip =>
      cases hsource
      rfl
  | domain name =>
    obtain ⟨ascii, hascii, hsrc⟩ := Option.bind_eq_some_iff.1 hsource
    split_ifs at hsrc with hlen
    cases hsrc
    simp [Datagram.target, Source.host, read_back, hascii, from_utf8_utf8]

/-- What a receiver with room for every datagram gets of a call. -/
def sent_back (call : List UInt8 × Target) : Option (List UInt8 × Target) :=
  (datagram idna call).bind fun _ => (read_back idna call.2).map (call.1, ·)

theorem given_datagram {size : ℕ} (hsize : 65535 ≤ size) (call : List UInt8 × Target) :
    (datagram idna call).bind (Datagram.given size) = sent_back idna call := by
  rw [sent_back]
  refine Option.bind_congr fun d hd => ?_
  obtain ⟨hpayload, htarget⟩ := datagram_reads idna hd
  rw [Datagram.given, if_pos (d.le.trans hsize), hpayload, htarget]

/-- The end of the stream between datagrams. -/
theorem ends_nil (framing : Framing) : Ends framing [] framing.closed :=
  .closed ⟨.v4 0, 0, [], by simp⟩ List.nil_prefix (by simp [Datagram.frame, Datagram.start])

/-- **Datagrams on one stream keep their bounds.**  The head goes out once, before the first
datagram that can be sent; every such datagram is written whole, in order, and a refused one leaves
not a byte; calls of `recv_from` get, in order and each once, the datagrams that fit their buffers
and have a source, however the bytes are cut, and the carrier ends with an error; and what was sent
reads back. -/
theorem stream_udp_spec :
    (∀ head calls, sends idna framing ⟨[], some head⟩ calls =
      match calls.filterMap (datagram idna) with
      | [] => ⟨[], some head⟩
      | d :: ds => ⟨head ++ d.head_tail framing ++ frames framing (d :: ds), none⟩) ∧
    (∀ w call, match datagram idna call with
      | none => ∃ e, send_to idna framing w call.1 call.2 = (.error e, w)
      | some _ => (send_to idna framing w call.1 call.2).1 = .ok ()) ∧
    (∀ ds tail e (reads : Reads), Ends framing tail e →
      reads.flatten = frames framing ds ++ tail →
      (∀ sizes, receive framing sizes reads = heard e sizes ds) ∧
      ∀ size, receive framing (List.replicate (ds.length + 1) size) reads =
        (ds.filterMap (Datagram.given size)).map .ok ++ [.error e]) ∧
    ∀ (calls : List (List UInt8 × Target)) size (reads : Reads), 65535 ≤ size →
      reads.flatten = frames framing (calls.filterMap (datagram idna)) →
      receive framing (List.replicate ((calls.filterMap (datagram idna)).length + 1) size) reads =
        (calls.filterMap (sent_back idna)).map .ok ++ [.error framing.closed] := by
  refine ⟨sends_head idna framing, fun w call => ?_, fun ds tail e reads hend hreads => ?_,
    fun calls size reads hsize hreads => ?_⟩
  · have hsend := send_to_eq idna framing w call
    cases hd : datagram idna call with
    | none =>
      rw [hd] at hsend
      exact hsend
    | some d =>
      rw [hd] at hsend
      exact congrArg Prod.fst hsend
  · refine ⟨fun sizes => receive_eq hend sizes ds hreads, fun size => ?_⟩
    rw [receive_eq hend _ ds hreads, heard_replicate]
  · rw [receive_eq (ends_nil framing) _ _ (by rw [hreads, List.append_nil]), heard_replicate,
      List.filterMap_filterMap]
    simp only [given_datagram idna hsize]

end

end StreamUdp

end Rurge
