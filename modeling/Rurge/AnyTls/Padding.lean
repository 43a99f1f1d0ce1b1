import Rurge.AnyTls.Frame
import Rurge.Config.Host

/-!
# Padding schemes of AnyTLS

A scheme lists, write by write, the sizes of the records a write is cut into (`Scheme.parse`,
`Scheme.pieces`); `shape` cuts a payload to them and fills what the payload leaves of a size with
waste frames.
-/

namespace Rurge

namespace AnyTls

/-- The largest `u32`. -/
def U32_MAX : ℕ := 2 ^ 32 - 1

def MAX_TEXT : ℕ := 8192
def MAX_STOP : ℕ := 256
def MAX_ENTRIES : ℕ := 64
def MAX_SIZE : ℕ := 16384

/-- A record of `min` to `max - 1` bytes (`min` when the two are equal), or `c`: stop here when the
payload is used up. -/
inductive Entry
  | Size (min max : ℕ)
  | Check
  deriving DecidableEq

/-- One drawn size, or the check mark. -/
inductive Piece
  | Size (size : ℕ)
  | Check
  deriving DecidableEq

/-- A scheme: the packets its lines are for, the last of a packet first. -/
structure Scheme where
  md5 : Str
  stop : ℕ
  packets : List (ℕ × List Entry)
  deriving DecidableEq

def parse_entry (text : Str) : Option Entry := do
  if text = ['c'] then return .Check
  else
    let (a, b) ← Str.splitOnce '-' text
    let a ← Str.parseUnsigned U32_MAX a
    let b ← Str.parseUnsigned U32_MAX b
    if 1 ≤ min a b ∧ max a b ≤ MAX_SIZE then return .Size (min a b) (max a b) else none

/-- A line of a scheme read into the `stop` and the packets read so far: nothing when it is not
well-formed, or past the bounds. -/
def parse_line (read : Option ℕ × List (ℕ × List Entry)) (line : Str) :
    Option (Option ℕ × List (ℕ × List Entry)) :=
  match Str.splitOnce '=' line with
  | none => some read
  | some (key, value) =>
    if key = "stop".toList then do
      let stop ← Str.parseUnsigned U32_MAX value
      if stop ≤ MAX_STOP then return (some stop, read.2) else none
    else
      match Str.parseUnsigned U32_MAX key with
      | none => some read
      | some packet => do
        let entries ← (value.splitOn ',').mapM parse_entry
        if MAX_ENTRIES < entries.length then none else return (read.1, (packet, entries) :: read.2)

/-- A byte in two hexadecimal digits. -/
def hex (b : UInt8) : Str := [Nat.digitChar (b.toNat / 16), Nat.digitChar (b.toNat % 16)]

/-- A scheme's text read; `digest` is the MD5 of its bytes. -/
def Scheme.parse (digest : List UInt8 → List UInt8) (raw : List UInt8) : Option Scheme := do
  if MAX_TEXT < raw.length then none
  else
    let text ← from_utf8 raw
    let (stop, packets) ← (text.splitOn '\n').foldlM parse_line (none, [])
    return ⟨(digest raw).flatMap hex, ← stop, packets⟩

/-- What is drawn for an entry, `pick n` being drawn from `0..n`. -/
def Entry.draw (pick : ℕ → ℕ) : Entry → Piece
  | .Check => .Check
  | .Size min max => if min = max then .Size min else .Size (min + pick (max - min))

/-- The sizes for the `packet`-th write; the draw for its `i`-th entry is `pick i`. -/
def Scheme.pieces (s : Scheme) (packet : ℕ) (pick : ℕ → ℕ → ℕ) : List Piece :=
  ((s.packets.lookup packet).getD []).mapIdx fun i entry => entry.draw (pick i)

/-- A frame of padding. -/
def waste (len : ℕ) : List UInt8 := frame WASTE 0 (List.replicate len 0)

/-- What fills the rest of a size behind `len` bytes of payload: the waste frame's own header counts
towards the size. -/
def fill (size len : ℕ) : List UInt8 :=
  if len + HEADER < size then waste (size - (len + HEADER)) else []

/-- A size within the bounds. -/
def Entry.Bounded : Entry → Prop
  | .Size min max => 1 ≤ min ∧ min ≤ max ∧ max ≤ MAX_SIZE
  | .Check => True

/-- What is read of a scheme's lines is within the bounds. -/
structure Read (read : Option ℕ × List (ℕ × List Entry)) : Prop where
  stop : ∀ stop, read.1 = some stop → stop ≤ MAX_STOP
  entries : ∀ p ∈ read.2, p.2.length ≤ MAX_ENTRIES ∧ ∀ entry ∈ p.2, entry.Bounded

/-- The sizes of pieces. -/
def sizes (pieces : List Piece) : List ℕ :=
  pieces.filterMap fun
    | .Size size => some size
    | .Check => none

/-- A record of its listed size: that size, or less by what is too little for a waste frame, or a
waste frame of it. -/
def Sized (record : List UInt8) (size : ℕ) : Prop :=
  record.length = size ∨ (record.length < size ∧ size ≤ record.length + HEADER) ∨
    record = waste size

end AnyTls

end Rurge
