import Rurge.Lib.Chunks
import Rurge.Tuic.Addr

/-!
# Packets of TUIC in datagrams

A packet goes whole in one datagram where it fits, else in fragments of which only the first names
the address (`datagrams`); `Message.parse` reads one back.
-/

namespace Rurge

namespace Tuic

open BigEndian
open Quic (slice slice_of_drop drop_add)

/-- The most fragments a packet goes in. -/
def MAX_FRAGMENTS : ℕ := 255

/-- The longest UDP datagram. -/
def MAX_DATAGRAM : ℕ := 65535

/-- v5's `VER ‖ TYPE ‖ ASSOC_ID ‖ PKT_ID ‖ FRAG_TOTAL ‖ FRAG_ID ‖ SIZE`. -/
def HEADER : ℕ := 10

/-- v4's `VER ‖ TYPE ‖ ASSOC_ID ‖ LEN`. -/
def HEADER_V4 : ℕ := 8

/-- The type of a Packet. -/
def PACKET : UInt8 := 0x02

/-- The protocol's version. -/
inductive Version
  | V4
  | V5

/-- The first byte of every command. -/
def Version.byte : Version → UInt8
  | V4 => 0x04
  | V5 => 0x05

def invalid (what : String) : String := "tuic: " ++ what

/-- One v5 Packet command. -/
def encode (association packet : UInt16) (fragments fragment : UInt8)
    (address payload : List UInt8) : List UInt8 :=
  [Version.V5.byte, PACKET] ++ (u16 association ++ (u16 packet ++ ([fragments, fragment] ++
    (u16 (.ofNat payload.length) ++ (address ++ payload)))))

/-- The QUIC datagrams, none longer than `max`, that carry `payload` to `address`. -/
def datagrams (association packet : UInt16) (address payload : List UInt8) (max : ℕ) :
    Except String (List (List UInt8)) :=
  if HEADER + address.length + payload.length ≤ max then
    .ok [encode association packet 1 0 address payload]
  else
    let first := max - (HEADER + address.length)
    let rest := max - (HEADER + 1)
    if first = 0 ∨ rest = 0 then .error (invalid "the address leaves no room in a datagram")
    else
      let longest := min MAX_DATAGRAM (first + (MAX_FRAGMENTS - 1) * rest)
      if longest < payload.length then
        .error (invalid s!"a datagram longer than {longest} bytes")
      else
        let chunks := payload.take first :: chunks rest (payload.drop first)
        let fragments := UInt8.ofNat chunks.length
        .ok (chunks.zipIdx.map fun (chunk, fragment) =>
          encode association packet fragments (.ofNat fragment)
            (if fragment = 0 then address else [NONE]) chunk)

/-- A Packet as it came from the server. -/
structure Message where
  association : UInt32
  packet : UInt16
  fragments : UInt8
  fragment : UInt8
  source : Option Target
  payload : List UInt8
  deriving DecidableEq

/-- What a header holds: association, packet, fragments, fragment and size. -/
def header_fields (version : Version) (header : List UInt8) :
    UInt32 × UInt16 × UInt8 × UInt8 × UInt16 :=
  let be16 := fun at_ => from_u16 ((header.drop at_).take 2)
  match version with
  | .V4 => (from_u32 ((header.drop 2).take 4), 0, 1, 0, be16 6)
  | .V5 => ((be16 2).toUInt32, be16 4, header.getD 6 0, header.getD 7 0, be16 8)

/-- A message; nothing for anything but a Packet a server of `version` writes. -/
def Message.parse (version : Version) (data : List UInt8) : Option Message := do
  let start := match version with
    | .V4 => HEADER_V4
    | .V5 => HEADER
  let header ← slice data 0 start
  if header.take 2 ≠ [version.byte, PACKET] then none
  else
    let (association, packet, fragments, fragment, size) := header_fields version header
    let (source, len) ← get (data.drop start)
    if data.length - (start + len) ≠ size.toNat then none
    else return ⟨association, packet, fragments, fragment, source, data.drop (start + len)⟩

/-! ### What is written is read back -/

theorem length_encode (association packet : UInt16) (fragments fragment : UInt8)
    (address payload : List UInt8) :
    (encode association packet fragments fragment address payload).length =
      HEADER + address.length + payload.length := by
  simp only [encode, HEADER, List.length_append, List.length_cons, List.length_nil, length_u16]
  omega

/-- **A message is read back from what is written of it.** -/
theorem parse_encode (association packet : UInt16) (fragments fragment : UInt8)
    {address payload : List UInt8} {source : Option Target}
    (haddress : get address = some (source, address.length)) (hsize : payload.length ≤ 65535) :
    Message.parse .V5 (encode association packet fragments fragment address payload) =
      some ⟨association.toUInt32, packet, fragments, fragment, source, payload⟩ := by
  let header := [Version.V5.byte, PACKET] ++ (u16 association ++ (u16 packet ++
    ([fragments, fragment] ++ u16 (.ofNat payload.length))))
  have hdata : encode association packet fragments fragment address payload =
      header ++ (address ++ payload) := by
    simp [encode, header]
  have hlength : header.length = 10 := by simp [header]
  have hslice : slice (header ++ (address ++ payload)) 0 10 = some header :=
    Quic.slice_eq_some.2 ⟨by omega, by rw [List.length_append]; omega,
      by rw [List.drop_zero, Nat.sub_zero, ← hlength, List.take_left]⟩
  have hdrop : (header ++ (address ++ payload)).drop 10 = address ++ payload := by
    rw [← hlength, List.drop_left]
  have hbehind : (header ++ (address ++ payload)).drop (10 + address.length) = payload :=
    drop_add hdrop
  have hfields : header_fields .V5 header =
      (association.toUInt32, packet, fragments, fragment, .ofNat payload.length) := by
    obtain ⟨a₁, a₂, ha⟩ : ∃ a₁ a₂, u16 association = [a₁, a₂] := ⟨_, _, rfl⟩
    obtain ⟨p₁, p₂, hp⟩ : ∃ p₁ p₂, u16 packet = [p₁, p₂] := ⟨_, _, rfl⟩
    obtain ⟨s₁, s₂, hs⟩ : ∃ s₁ s₂, u16 (.ofNat payload.length) = [s₁, s₂] := ⟨_, _, rfl⟩
    have ha' : from_u16 [a₁, a₂] = association := by rw [← ha, from_u16_u16]
    have hp' : from_u16 [p₁, p₂] = packet := by rw [← hp, from_u16_u16]
    have hs' : from_u16 [s₁, s₂] = .ofNat payload.length := by rw [← hs, from_u16_u16]
    simp [header, ha, hp, hs, header_fields, ha', hp', hs']
  have hend : (header ++ (address ++ payload)).length - (10 + address.length) =
      (UInt16.ofNat payload.length).toNat := by
    have hall : (header ++ (address ++ payload)).length = 10 + (address.length + payload.length) :=
      List.length_append.trans (by rw [hlength, List.length_append])
    rw [UInt16.toNat_ofNat_of_lt' (lt_of_le_of_lt hsize (by decide)), hall]
    omega
  rw [hdata, Message.parse]
  simp only [HEADER, Option.bind_eq_bind, hslice, Option.bind_some, hfields, hdrop,
    get_append haddress, hend, hbehind, Option.pure_def]
  rw [if_neg (by simp [header]), if_neg (by simp)]

theorem get_none : get [NONE] = some (none, 1) := rfl

/-! ### The datagrams of a packet -/

/-- The messages of a packet in pieces, the address on the first. -/
def messages (association packet : UInt16) (address : List UInt8) (pieces : List (List UInt8)) :
    List (List UInt8) :=
  pieces.zipIdx.map fun (piece, fragment) =>
    encode association packet (.ofNat pieces.length) (.ofNat fragment)
      (if fragment = 0 then address else [NONE]) piece

/-- The datagrams carry a packet: its pieces, no more than 255 and none of its messages too long. -/
structure Carry (association packet : UInt16) (address payload : List UInt8) (max : ℕ)
    (ds pieces : List (List UInt8)) : Prop where
  messages : ds = messages association packet address pieces
  flatten : pieces.flatten = payload
  pos : 0 < pieces.length
  le_fragments : pieces.length ≤ MAX_FRAGMENTS
  le_max : ∀ d ∈ ds, d.length ≤ max

/-- **When a packet is refused**: it does not fit whole, and its first fragment has no room for any
of it or 255 fragments cannot carry it. -/
theorem datagrams_refuses (association packet : UInt16) {address payload : List UInt8} (max : ℕ)
    (haddress : address ≠ []) (hsize : payload.length ≤ MAX_DATAGRAM) :
    (∃ e, datagrams association packet address payload max = .error e) ↔
      max < HEADER + address.length + payload.length ∧
        (max ≤ HEADER + address.length ∨
          max - (HEADER + address.length) + (MAX_FRAGMENTS - 1) * (max - (HEADER + 1)) <
            payload.length) := by
  have hpos := List.length_pos_iff.2 haddress
  have hheader : HEADER = 10 := rfl
  have hmost : MAX_FRAGMENTS = 255 := rfl
  have hlongest : MAX_DATAGRAM = 65535 := rfl
  cases h : datagrams association packet address payload max with
  | error e =>
    refine iff_of_true ⟨e, rfl⟩ ?_
    unfold datagrams at h
    simp only at h
    split_ifs at h with hwhole hroom hlong
    · omega
    · rw [hmost] at hlong ⊢
      omega
  | ok ds =>
    refine iff_of_false (by simp) ?_
    unfold datagrams at h
    simp only at h
    split_ifs at h with hwhole hroom hlong
    · omega
    · rw [hmost] at hlong ⊢
      omega

theorem datagrams_carry {association packet : UInt16} {address payload : List UInt8} {max : ℕ}
    {ds : List (List UInt8)} (haddress : address ≠ [])
    (h : datagrams association packet address payload max = .ok ds) :
    ∃ pieces, Carry association packet address payload max ds pieces := by
  have hpos := List.length_pos_iff.2 haddress
  unfold datagrams at h
  simp only at h
  split_ifs at h with hwhole hroom hlong
  · obtain rfl := Except.ok.inj h
    refine ⟨[payload], rfl, by simp, Nat.one_pos, Nat.le_add_left 1 254, fun d hd => ?_⟩
    obtain rfl := List.mem_singleton.1 hd
    rwa [length_encode]
  · obtain rfl := Except.ok.inj h
    push Not at hroom
    have hrest : 0 < max - (HEADER + 1) := Nat.pos_of_ne_zero hroom.2
    refine ⟨payload.take (max - (HEADER + address.length)) ::
      chunks (max - (HEADER + 1)) (payload.drop (max - (HEADER + address.length))), rfl, ?_, ?_, ?_,
      fun d hd => ?_⟩
    · rw [List.flatten_cons, flatten_chunks hrest, List.take_append_drop]
    · exact Nat.succ_pos _
    · rw [List.length_cons, length_chunks, MAX_FRAGMENTS]
      have : divCeil (payload.drop (max - (HEADER + address.length))).length (max - (HEADER + 1)) ≤
          254 := by
        rw [divCeil_le hrest, List.length_drop]
        simp only [MAX_FRAGMENTS, MAX_DATAGRAM] at hlong
        omega
      omega
    · obtain ⟨⟨piece, fragment⟩, hpiece, rfl⟩ := List.mem_map.1 hd
      rw [length_encode]
      rw [List.zipIdx_cons] at hpiece
      rcases List.mem_cons.1 hpiece with heq | hpiece
      · cases heq
        have hpiece : (payload.take (max - (HEADER + address.length))).length ≤
            max - (HEADER + address.length) := List.length_take_le _ _
        rw [if_pos rfl]
        simp only
        omega
      · have hfragment := (List.mem_zipIdx hpiece).1
        have hlength := length_of_mem_chunks hrest (List.fst_mem_of_mem_zipIdx hpiece)
        rw [if_neg (by omega), List.length_singleton]
        omega

end Tuic

end Rurge
