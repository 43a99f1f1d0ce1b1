import Rurge.Quic.Crypto

/-!
# The Initial packets of a datagram

A datagram is walked packet by packet, and each Initial of the reader's version is opened with the
keys of its flow; the CRYPTO frames of what opens are read.  Opening is the business of the keys,
which are parameters here.

Indices and slices that could be out of range are `Halt.outside`, and arithmetic that could overflow
is `Halt.overflow`, so that it can be said that neither happens.
-/

namespace Rurge

namespace Quic

/-- The bytes of a header protection sample. -/
def SAMPLE : ℕ := 16

/-- The least a Length may be: a packet number of four bytes and the sample. -/
def MIN_LENGTH : ℕ := 4 + SAMPLE

/-- How reading ends early. -/
inductive Halt
  /-- The datagram does not go on, as the reader takes it. -/
  | stop
  /-- An index or a slice out of range: a panic. -/
  | outside
  /-- An overflow: a panic, or a wrong number where overflow is not checked. -/
  | overflow
  | gaveUp (why : Str)
  deriving DecidableEq

inductive Version
  | V1Draft
  | V1
  | V2
  deriving DecidableEq

/-- The Initial type in bits 4 and 5 of the first byte. -/
def initialKind : Version → UInt8
  | .V2 => 0b01
  | _ => 0b00

/-- The Retry type. -/
def retryKind : Version → UInt8
  | .V2 => 0b00
  | _ => 0b11

/-- A datagram, which like every slice holds at most `isize::MAX` bytes. -/
structure Datagram where
  bytes : List UInt8
  small : bytes.length < 2 ^ 63

/-- The client Initial keys of a flow: header protection taken off the first byte and the packet
number, in place, with the sample; and a payload opened under a packet number. -/
structure Keys where
  header : List UInt8 → UInt8 → List UInt8 → Option (UInt8 × List UInt8)
  inPlace : ∀ sample first number first' number',
    header sample first number = some (first', number') → number'.length = number.length
  packet : ℕ → List UInt8 → List UInt8 → Option (List UInt8)

/-! ### Packet numbers -/

def checkedSub (a b : ℕ) : Option ℕ := if b ≤ a then some (a - b) else none

/-- Of the numbers that end as `candidate` does, the one nearest to `expected`, `none` where a
`u64` overflows. -/
def nearest (expected candidate win : ℕ) : Option ℕ := do
  let hwin := win / 2
  let above ← checkedAdd candidate hwin
  let limit ← checkedSub (2 ^ 62) win
  if above ≤ expected ∧ candidate < limit then checkedAdd candidate win
  else
    let ahead ← checkedAdd expected hwin
    if ahead < candidate ∧ win ≤ candidate then checkedSub candidate win else some candidate

/-- The packet number a truncated one stands for, `none` where a `u64` overflows. -/
def packetNumber (largest : Option ℕ) (truncated len : ℕ) : Option ℕ := do
  let expected ← largest.elim (some 0) (checkedAdd · 1)
  let win := 1 <<< (len * 8)
  let mask ← checkedSub win 1
  -- `!mask` of a `u64`
  let candidate := (expected &&& (2 ^ 64 - 1 ^^^ mask)) ||| truncated
  nearest expected candidate win

/-! ### Opening a packet -/

/-- Opens `packet`, whose packet number starts at `pnOffset`: the number it was sealed under and
the plaintext. -/
def openPacket (packet : List UInt8) (pnOffset : ℕ) (keys : Keys) (largest : Option ℕ) :
    Except Halt (Option (ℕ × List UInt8)) :=
  match checkedAdd pnOffset MIN_LENGTH with
  | none => .ok none
  | some least =>
    if packet.length < least then .ok none
    else
      match slice packet (pnOffset + 4) (pnOffset + 4 + SAMPLE), packet[0]?,
        slice packet pnOffset (pnOffset + 4) with
      | none, _, _ => .ok none
      | _, none, _ => .error .outside
      | _, _, none => .ok none
      | some sample, some first, some number =>
        match keys.header sample first number with
        | none => .ok none
        | some (first, number) =>
          let numberLen := (first &&& 0x03).toNat + 1
          let at_ := pnOffset + numberLen
          match slice number 0 numberLen, slice packet pnOffset at_ with
          | some number, some _ =>
            let packet := first :: (packet.take pnOffset).tail ++ number ++ packet.drop at_
            let truncated := number.foldl (fun number byte => number <<< 8 ||| byte.toNat) 0
            match packetNumber largest truncated numberLen with
            | none => .error .overflow
            | some number => .ok <|
              (keys.packet number (packet.take at_) (packet.drop at_)).map (number, ·)
          | _, _ => .error .outside

/-! ### The reader -/

structure Reader where
  /-- The version as it came on the wire. -/
  wireVersion : List UInt8
  fourBytes : wireVersion.length = 4
  version : Version
  keys : Keys
  /-- The largest packet number opened so far. -/
  largest : Option ℕ
  pieces : Pieces

namespace Reader

/-- Opens a packet and reads its frames, if it opens. -/
def judge (r : Reader) (packet : List UInt8) (pnOffset : ℕ) : Except Halt Reader :=
  match openPacket packet pnOffset r.keys r.largest with
  | .error halt => .error halt
  | .ok none => .ok r
  | .ok (some (number, plaintext)) =>
    match r.pieces.readFrames plaintext 0 with
    | .error why => .error (.gaveUp why)
    | .ok pieces => .ok { r with
        largest := some (r.largest.elim number (max · number))
        pieces := pieces }

/-- Where the token ends, which only an Initial has. -/
def tokenEnd (initial : Bool) (d : List UInt8) (cursor : ℕ) : Option ℕ :=
  if initial then
    (nextVarint d cursor).bind fun (tokenLen, cursor) => checkedAdd cursor tokenLen
  else some cursor

/-- The packet that begins at `at_` with the byte `first`: whether it is an Initial, where its
packet number begins and where it ends; `none` where the datagram does not go on. -/
def packetAt (wireVersion : List UInt8) (version : Version) (d : List UInt8) (first : UInt8)
    (at_ : ℕ) : Option (Bool × ℕ × ℕ) := do
  guard (first &&& 0x80 ≠ 0)
  let wire ← (checkedAdd at_ 5).bind (slice d (at_ + 1))
  guard (wire = wireVersion)
  let kind := (first >>> 4) &&& 0b11
  guard (kind ≠ retryKind version)
  let dcidLen ← d[at_ + 5]?
  guard (dcidLen ≤ 20)
  let cursor ← checkedAdd at_ (6 + dcidLen.toNat)
  let scidLen ← d[cursor]?
  guard (scidLen ≤ 20)
  let cursor ← checkedAdd cursor (1 + scidLen.toNat)
  let initial := decide (kind = initialKind version)
  let cursor ← tokenEnd initial d cursor
  let (length, cursor) ← nextVarint d cursor
  let end_ ← checkedAdd cursor length
  guard (end_ ≤ d.length)
  return (initial, cursor, end_)

section

variable {wireVersion : List UInt8} {version : Version} {d : List UInt8} {at_ : ℕ}

theorem guard_eq_some {P : Prop} [Decidable P] {u : Unit} : guard P = some u ↔ P := by
  by_cases h : P <;> simp [guard, h, failure]

/-- What is read, step by step, where a packet is found. -/
theorem packetAt_eq_some {first : UInt8} {initial : Bool} {cursor end_ : ℕ} :
    packetAt wireVersion version d first at_ = some (initial, cursor, end_) ↔
    first &&& 0x80 ≠ 0 ∧ (checkedAdd at_ 5).bind (slice d (at_ + 1)) = some wireVersion ∧
      (first >>> 4) &&& 0b11 ≠ retryKind version ∧
      initial = decide ((first >>> 4) &&& 0b11 = initialKind version) ∧
      ∃ dcidLen, d[at_ + 5]? = some dcidLen ∧ dcidLen ≤ 20 ∧
      ∃ c₁, checkedAdd at_ (6 + dcidLen.toNat) = some c₁ ∧
      ∃ scidLen, d[c₁]? = some scidLen ∧ scidLen ≤ 20 ∧
      ∃ c₂, checkedAdd c₁ (1 + scidLen.toNat) = some c₂ ∧
      ∃ c₃, tokenEnd initial d c₂ = some c₃ ∧
      ∃ len, nextVarint d c₃ = some (len, cursor) ∧ checkedAdd cursor len = some end_ ∧
        end_ ≤ d.length := by
  unfold packetAt
  simp only [Option.bind_eq_bind, guard_eq_some, Option.bind_eq_some_iff, Option.pure_def,
    exists_const, Option.some.injEq, Prod.mk.injEq, Prod.exists]
  constructor
  · rintro ⟨h₁, wire, h₂, rfl, h₃, dl, h₄, h₅, c₁, h₆, sl, h₇, h₈, c₂, h₉, c₃, h₁₀, len, c, h₁₁, e,
      h₁₂, h₁₃, rfl, rfl, rfl⟩
    exact ⟨h₁, h₂, h₃, rfl, dl, h₄, h₅, c₁, h₆, sl, h₇, h₈, c₂, h₉, c₃, h₁₀, len, h₁₁, h₁₂, h₁₃⟩
  · rintro ⟨h₁, h₂, h₃, rfl, dl, h₄, h₅, c₁, h₆, sl, h₇, h₈, c₂, h₉, c₃, h₁₀, len, h₁₁, h₁₂, h₁₃⟩
    exact ⟨h₁, wireVersion, h₂, rfl, h₃, dl, h₄, h₅, c₁, h₆, sl, h₇, h₈, c₂, h₉, c₃, h₁₀, len,
      cursor, h₁₁, end_, h₁₂, h₁₃, rfl, rfl, rfl⟩

/-- A packet moves the walk on, within the datagram. -/
theorem packetAt_bounds {first : UInt8} {initial : Bool} {cursor end_ : ℕ}
    (h : packetAt wireVersion version d first at_ = some (initial, cursor, end_)) :
    at_ < cursor ∧ cursor ≤ end_ ∧ end_ ≤ d.length := by
  obtain ⟨-, -, -, -, dcidLen, -, -, c₁, hc₁, scidLen, -, -, c₂, hc₂, c₃, hc₃, len, hlen, hend,
    hle⟩ :=
    packetAt_eq_some.1 h
  obtain ⟨-, rfl⟩ := checkedAdd_eq_some.1 hc₁
  obtain ⟨-, rfl⟩ := checkedAdd_eq_some.1 hc₂
  obtain ⟨-, rfl⟩ := checkedAdd_eq_some.1 hend
  have hlt := (nextVarint_bounds hlen).1
  have htoken : at_ + (6 + dcidLen.toNat) + (1 + scidLen.toNat) ≤ c₃ := by
    unfold tokenEnd at hc₃
    split_ifs at hc₃
    · obtain ⟨⟨tokenLen, c⟩, hnext, hsum⟩ := Option.bind_eq_some_iff.1 hc₃
      obtain ⟨-, rfl⟩ := checkedAdd_eq_some.1 hsum
      have := (nextVarint_bounds hnext).1
      omega
    · exact (Option.some.inj hc₃).le
  omega

end

/-- Walks the datagram from `at_`: what is handed to be opened, each packet with where its packet
number begins, and the reader then, or why there is none. -/
def readPackets (r : Reader) (d : Datagram) (at_ : ℕ) :
    List (List UInt8 × ℕ) × Except Halt Reader :=
  if at_ < d.bytes.length then
    match d.bytes[at_]? with
    | none => ([], .error .outside)
    | some first =>
      match hpacket : packetAt r.wireVersion r.version d.bytes first at_ with
      | none => ([], .ok r)
      | some (initial, cursor, end_) =>
        have := packetAt_bounds hpacket
        if initial then
          match slice d.bytes at_ end_ with
          | none => ([], .error .outside)
          | some packet =>
            match r.judge packet (cursor - at_) with
            | .error halt => ([(packet, cursor - at_)], .error halt)
            | .ok r =>
              let (handed, result) := readPackets r d end_
              ((packet, cursor - at_) :: handed, result)
        else readPackets r d end_
  else ([], .ok r)
termination_by d.bytes.length - at_

end Reader

end Quic

end Rurge
