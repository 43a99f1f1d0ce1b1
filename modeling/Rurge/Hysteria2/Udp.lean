import Rurge.Hysteria2.Varint
import Rurge.Lib.Chunks

/-!
# Packets of Hysteria 2 in datagrams

A packet goes whole in one datagram where it fits, else in fragments that each carry the whole
header (`datagrams`); `Message.parse` reads one back.
-/

namespace Rurge

namespace Hysteria2

open BigEndian
open Quic (slice slice_of_drop drop_add)

/-- The longest address that is read. -/
def MAX_ADDRESS : ℕ := 2048

/-- The most fragments a packet goes in: their count is one byte. -/
def MAX_FRAGMENTS : ℕ := 255

/-- The longest UDP datagram. -/
def MAX_DATAGRAM : ℕ := 65535

/-- `u32 session ‖ u16 packet ‖ u8 fragment ‖ u8 fragments`. -/
def FIXED : ℕ := 8

def invalid (what : String) : String := "hysteria2: " ++ what

/-- A fragmented packet's id: 1 to 65535, and 1 without a random source. -/
def packet_id (random : Option UInt32) : UInt16 :=
  match random with
  | none => 1
  | some random => (random % 65535).toUInt16 + 1

/-- A message's header: the fixed part, and the address behind its length. -/
def header (id : UInt32) (packet : UInt16) (fragment fragments : UInt8) (address : List UInt8) :
    List UInt8 :=
  u32 id ++ (u16 packet ++ ([fragment, fragments] ++ (Varint.put address.length ++ address)))

/-- The QUIC datagrams, none longer than `max`, that carry `payload` to `address`. -/
def datagrams (random : Option UInt32) (id : UInt32) (address payload : List UInt8) (max : ℕ) :
    Except String (List (List UInt8)) :=
  let len := (header id 0 0 1 address).length
  if len + payload.length ≤ max then .ok [header id 0 0 1 address ++ payload]
  else
    let room := max - len
    if room = 0 then .error (invalid "the host name is too long for a datagram")
    else if MAX_FRAGMENTS * room < payload.length then
      .error (invalid s!"a datagram longer than {MAX_FRAGMENTS * room} bytes")
    else
      let fragments := UInt8.ofNat (divCeil payload.length room)
      let packet := packet_id random
      .ok ((chunks room payload).zipIdx.map fun (chunk, fragment) =>
        header id packet (.ofNat fragment) fragments address ++ chunk)

/-- A message as it came. -/
structure Message where
  session : UInt32
  packet : UInt16
  fragment : UInt8
  fragments : UInt8
  address : List UInt8
  payload : List UInt8
  deriving DecidableEq

/-- A message; nothing where the address is none of 1 to 2048 bytes. -/
def Message.parse (datagram : List UInt8) : Option Message := do
  let fixed ← slice datagram 0 FIXED
  let (len, n) ← Varint.get (datagram.drop FIXED)
  if ¬ (1 ≤ len ∧ len ≤ MAX_ADDRESS) then none
  else
    let start := FIXED + n
    let end_ := start + len
    if datagram.length < end_ then none
    else return ⟨from_u32 (fixed.take 4), from_u16 ((fixed.drop 4).take 2), fixed.getD 6 0,
      fixed.getD 7 0, (datagram.drop start).take len, datagram.drop end_⟩

/-! ### What is written is read back -/

/-- **A message is read back from what is written of it.** -/
theorem parse_header (id : UInt32) (packet : UInt16) (fragment fragments : UInt8)
    {address : List UInt8} (payload : List UInt8) (hpos : 1 ≤ address.length)
    (hmost : address.length ≤ MAX_ADDRESS) :
    Message.parse (header id packet fragment fragments address ++ payload) =
      some ⟨id, packet, fragment, fragments, address, payload⟩ := by
  let fixed := u32 id ++ (u16 packet ++ [fragment, fragments])
  let len := Varint.put address.length
  have hdata : header id packet fragment fragments address ++ payload =
      fixed ++ (len ++ (address ++ payload)) := by
    simp [header, fixed, len]
  have hfixed : fixed.length = 8 := by simp [fixed]
  have hslice : slice (fixed ++ (len ++ (address ++ payload))) 0 8 = some fixed :=
    Quic.slice_eq_some.2 ⟨by omega, by rw [List.length_append]; omega,
      by rw [List.drop_zero, Nat.sub_zero, ← hfixed, List.take_left]⟩
  have hdrop : (fixed ++ (len ++ (address ++ payload))).drop 8 = len ++ (address ++ payload) := by
    rw [← hfixed, List.drop_left]
  have hsmall : address.length < 2 ^ 62 := hmost.trans_lt (by decide)
  have hstart : (fixed ++ (len ++ (address ++ payload))).drop (8 + len.length) =
      address ++ payload := drop_add hdrop
  have hend : (fixed ++ (len ++ (address ++ payload))).drop (8 + len.length + address.length) =
      payload := drop_add hstart
  have hlong : 8 + len.length + address.length ≤
      (fixed ++ (len ++ (address ++ payload))).length := by
    simp only [List.length_append]
    omega
  have hfields : from_u32 (fixed.take 4) = id ∧ from_u16 ((fixed.drop 4).take 2) = packet ∧
      fixed.getD 6 0 = fragment ∧ fixed.getD 7 0 = fragments := by
    obtain ⟨a₁, a₂, a₃, a₄, ha⟩ : ∃ a₁ a₂ a₃ a₄, u32 id = [a₁, a₂, a₃, a₄] := ⟨_, _, _, _, rfl⟩
    obtain ⟨p₁, p₂, hp⟩ : ∃ p₁ p₂, u16 packet = [p₁, p₂] := ⟨_, _, rfl⟩
    have ha' : from_u32 [a₁, a₂, a₃, a₄] = id := by rw [← ha, from_u32_u32]
    have hp' : from_u16 [p₁, p₂] = packet := by rw [← hp, from_u16_u16]
    simp [fixed, ha, hp, ha', hp']
  rw [hdata, Message.parse]
  simp only [FIXED, Option.bind_eq_bind, hslice, Option.bind_some, hdrop, len,
    Varint.get_put hsmall, hfields, Option.pure_def]
  rw [if_neg (not_not.2 ⟨hpos, hmost⟩), if_neg (not_lt.2 hlong), hstart, hend, List.take_left]

/-! ### The datagrams of a packet -/

@[simp] theorem length_header (id : UInt32) (packet : UInt16) (fragment fragments : UInt8)
    (address : List UInt8) :
    (header id packet fragment fragments address).length =
      FIXED + (Varint.put address.length).length + address.length := by
  simp only [header, FIXED, List.length_append, List.length_cons, List.length_nil, length_u16,
    length_u32]
  omega

/-- The messages of a packet in pieces. -/
def messages (id : UInt32) (packet : UInt16) (address : List UInt8) (pieces : List (List UInt8)) :
    List (List UInt8) :=
  pieces.zipIdx.map fun (piece, fragment) =>
    header id packet (.ofNat fragment) (.ofNat pieces.length) address ++ piece

/-- The datagrams carry a packet: its pieces, no more than 255 and none of its messages too long. -/
structure Carry (id : UInt32) (packet : UInt16) (address payload : List UInt8) (max : ℕ)
    (ds pieces : List (List UInt8)) : Prop where
  messages : ds = messages id packet address pieces
  flatten : pieces.flatten = payload
  pos : 0 < pieces.length
  le_fragments : pieces.length ≤ MAX_FRAGMENTS
  le_max : ∀ d ∈ ds, d.length ≤ max

/-- A packet goes whole, or in two fragments at least under its id. -/
theorem datagrams_carry {random : Option UInt32} {id : UInt32} {address payload : List UInt8}
    {max : ℕ} {ds : List (List UInt8)} (h : datagrams random id address payload max = .ok ds) :
    Carry id 0 address payload max ds [payload] ∨
      ∃ pieces, 1 < pieces.length ∧ Carry id (packet_id random) address payload max ds pieces := by
  unfold datagrams at h
  simp only [length_header] at h
  split_ifs at h with hwhole hroom hlong
  · obtain rfl := Except.ok.inj h
    refine .inl ⟨rfl, by simp, Nat.one_pos, Nat.le_add_left 1 254, fun d hd => ?_⟩
    obtain rfl := List.mem_singleton.1 hd
    rwa [List.length_append, length_header]
  · obtain rfl := Except.ok.inj h
    have hroom := Nat.pos_of_ne_zero hroom
    have hcount := @length_chunks UInt8
      (max - (FIXED + (Varint.put address.length).length + address.length)) payload
    refine .inr ⟨_, ?_, ?_, flatten_chunks hroom payload, ?_, ?_, fun d hd => ?_⟩
    · rw [hcount, lt_divCeil hroom]
      omega
    · rw [messages, hcount]
    · rw [hcount, lt_divCeil hroom]
      omega
    · rw [hcount, divCeil_le hroom]
      omega
    · obtain ⟨⟨piece, fragment⟩, hpiece, rfl⟩ := List.mem_map.1 hd
      have hlength := length_of_mem_chunks hroom (List.fst_mem_of_mem_zipIdx hpiece)
      rw [List.length_append, length_header]
      omega

end Hysteria2

end Rurge
