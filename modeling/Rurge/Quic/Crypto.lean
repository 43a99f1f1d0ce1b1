import Rurge.Lib.Segments
import Rurge.Quic.Bytes
import Rurge.Text

/-!
# The CRYPTO bytes of a flow

The bytes of the CRYPTO frames that have arrived, as the fewest pieces that hold them, and the
ClientHello once all of it is there.  Frames come in any order and may overlap; where they do, the
bytes must be the same.

An error ends the reading, so what the pieces are after one is not modelled.
-/

namespace Rurge

namespace Quic

/-- The most of a ClientHello that is kept. -/
def MAX_HELLO : ℕ := 64 * 1024

/-! ### Why a ClientHello could not be read -/

def CLOSED : Str := "the client closed the connection".toList
def NOT_ALLOWED : Str := "a frame an Initial may not carry".toList
def CUT_SHORT : Str := "a frame cut short".toList
def BEYOND : Str := "CRYPTO data beyond 64 KiB".toList
def CHANGED : Str := "CRYPTO data that changed when it came again".toList
def TOO_MANY : Str := "CRYPTO data in more than 32 pieces".toList
def NO_CLIENT_HELLO : Str := "the first handshake message is no ClientHello".toList
def TOO_LONG : Str := "a ClientHello longer than 64 KiB".toList

/-! ### Filling in -/

/-- The slots with the bytes written over them, one by one, as far as both go. -/
def overwrite : List UInt8 → List UInt8 → List UInt8
  | _ :: slots, byte :: bytes => byte :: overwrite slots bytes
  | slots, _ => slots

/-- Copies the part of `bytes`, which start at `start`, that falls in `[from_, to_)` into `into`,
which holds `[from_, to_)`. -/
def fillFrom (into : List UInt8) (from_ to_ start len : ℕ) (bytes : List UInt8) : List UInt8 :=
  let lo := max from_ start
  let hi := min to_ (start + len)
  if hi ≤ lo then into
  else
    let dst := lo - from_
    let skip := lo - start
    let take := hi - lo
    into.take dst ++ overwrite ((into.drop dst).take take) ((bytes.drop skip).take take) ++
      into.drop (dst + take)

/-! ### The pieces -/

structure Pieces where
  /-- Each piece by its start. -/
  pieces : List (ℕ × List UInt8)
  /-- The length of the ClientHello once all of it has arrived. -/
  whole : Option ℕ
  deriving DecidableEq

namespace Pieces

def new : Pieces := ⟨[], none⟩

/-- What the piece that starts at zero says: whether the bytes are a ClientHello, how long it is
and whether all of it is here. -/
def seeHead (p : Pieces) : Except Str Pieces :=
  match p.pieces with
  | (0, bytes) :: _ =>
    match bytes with
    | kind :: b₁ :: b₂ :: b₃ :: _ =>
      if kind ≠ 1 then .error NO_CLIENT_HELLO
      else
        let whole := 4 + ((b₁.toNat * 256 + b₂.toNat) * 256 + b₃.toNat)
        if MAX_HELLO < whole then .error TOO_LONG
        else if whole ≤ bytes.length then .ok { p with whole := some whole }
        else .ok p
    | _ => .ok p
  | _ => .ok p

/-- The piece and the data overlap and differ there. -/
def differs (offset : ℕ) (data : List UInt8) (piece : ℕ × List UInt8) : Bool :=
  let from_ := max offset piece.1
  let to_ := min (offset + data.length) (Segments.stop piece)
  decide (from_ < to_) && ((data.drop (from_ - offset)).take (to_ - from_) !=
    (piece.2.drop (from_ - piece.1)).take (to_ - from_))

/-- The last of the longest pieces, with those before and those behind it. -/
def splitLongest : List (ℕ × List UInt8) →
    Option (List (ℕ × List UInt8) × (ℕ × List UInt8) × List (ℕ × List UInt8))
  | [] => none
  | p :: ps =>
    match splitLongest ps with
    | none => some ([], p, ps)
    | some (before, q, after) =>
      if p.2.length ≤ q.2.length then some (p :: before, q, after) else some ([], p, ps)

/-- The pieces `met` and the data as one piece: `kept`, the longest, keeps its buffer, and what the
others and the data have before and after it is filled in. -/
def join (offset : ℕ) (data : List UInt8) (met : List (ℕ × List UInt8)) (kept : ℕ × List UInt8)
    (others : List (ℕ × List UInt8)) : ℕ × List UInt8 :=
  let start := min offset (met.head?.elim offset (·.1))
  let end_ := max (offset + data.length) (met.getLast?.elim 0 Segments.stop)
  let fill := fun (into : List UInt8) (from_ to_ : ℕ) =>
    others.foldl (fun into p => fillFrom into from_ to_ p.1 p.2.length p.2)
      (fillFrom into from_ to_ offset data.length data)
  let before := fill (List.replicate (kept.1 - start) 0) start kept.1
  let after := fill (List.replicate (end_ - Segments.stop kept) 0) (Segments.stop kept) end_
  (start, before ++ kept.2 ++ after)

/-- Adds a CRYPTO frame's bytes at `offset`, joined with the pieces they meet, or says why they
cannot be kept. -/
def add (p : Pieces) (offset : ℕ) (data : List UInt8) : Except Str Pieces :=
  match checkedAdd offset data.length with
  | none => .error BEYOND
  | some end_ =>
    if MAX_HELLO < end_ then .error BEYOND
    else if data = [] then .ok p
    else
      -- the pieces the data overlap or abut stand from `a` up to `b`
      let a := (p.pieces.takeWhile fun q => Segments.stop q < offset).length
      let b := (p.pieces.takeWhile fun q => q.1 ≤ end_).length
      let met := (p.pieces.take b).drop a
      if met.any (differs offset data) then .error CHANGED
      else if b - a = 1 ∧ met.all fun q => q.1 ≤ offset ∧ end_ ≤ Segments.stop q then .ok p
      else
        match splitLongest met with
        | none =>
          let pieces := p.pieces.take a ++ (offset, data) :: p.pieces.drop a
          if 32 < pieces.length then .error TOO_MANY else seeHead { p with pieces := pieces }
        | some (before, kept, after) =>
          seeHead { p with
            pieces := p.pieces.take a ++ join offset data met kept (before ++ after) ::
              p.pieces.drop b }

/-- The whole ClientHello, if it is here. -/
def finish (p : Pieces) : Option (List UInt8) :=
  p.whole.bind fun whole => p.pieces.head?.map fun piece => piece.2.take whole

/-! ### Frames -/

/-- `count` pairs of integers, one at a time. -/
def skipPairs (plaintext : List UInt8) : ℕ → ℕ → Except Str ℕ
  | 0, at_ => .ok at_
  | count + 1, at_ =>
    match nextVarint plaintext at_ with
    | none => .error CUT_SHORT
    | some (_, at_) =>
      match nextVarint plaintext at_ with
      | none => .error CUT_SHORT
      | some (_, at_) => skipPairs plaintext count at_

/-- `count` integers skipped. -/
def skipVarints (plaintext : List UInt8) : ℕ → ℕ → Except Str ℕ
  | 0, at_ => .ok at_
  | count + 1, at_ =>
    match nextVarint plaintext at_ with
    | none => .error CUT_SHORT
    | some (_, at_) => skipVarints plaintext count at_

/-- An ACK frame behind its type, with the ECN counts if it has them. -/
def skipAck (plaintext : List UInt8) (at_ : ℕ) (ecn : Bool) : Except Str ℕ := do
  let at_ ← skipVarints plaintext 2 at_
  match nextVarint plaintext at_ with
  | none => .error CUT_SHORT
  | some (count, at_) =>
    let at_ ← skipVarints plaintext 1 at_
    let at_ ← skipPairs plaintext count at_
    if ecn then skipVarints plaintext 3 at_ else .ok at_

/-- A CRYPTO frame behind its type: where its data begin, the data, and where it ends. -/
def cryptoFrame (plaintext : List UInt8) (at_ : ℕ) : Option (ℕ × List UInt8 × ℕ) := do
  let (offset, at_) ← nextVarint plaintext at_
  let (len, at_) ← nextVarint plaintext at_
  let end_ ← checkedAdd at_ len
  return (offset, ← slice plaintext at_ end_, end_)

/-- One frame that begins at `at_`: the pieces after it and where the next one begins. -/
def readFrame (p : Pieces) (plaintext : List UInt8) (kind : UInt8) (at_ : ℕ) :
    Except Str (Pieces × ℕ) :=
  if kind = 0x00 ∨ kind = 0x01 then .ok (p, at_ + 1)
  else if kind = 0x02 ∨ kind = 0x03 then
    (skipAck plaintext (at_ + 1) (kind = 0x03)).map fun next => (p, next)
  else if kind = 0x06 then
    match cryptoFrame plaintext (at_ + 1) with
    | none => .error CUT_SHORT
    | some (offset, data, end_) => (p.add offset data).map fun p => (p, end_)
  else if kind = 0x1c then .error CLOSED
  else .error NOT_ALLOWED

theorem skipVarints_le {plaintext : List UInt8} {count at_ next : ℕ}
    (h : skipVarints plaintext count at_ = .ok next) : at_ ≤ next := by
  induction count generalizing at_ with
  | zero => exact (Except.ok.inj h).le
  | succ count ih =>
    unfold skipVarints at h
    cases hv : nextVarint plaintext at_ with
    | none => simp [hv] at h
    | some e =>
      simp only [hv] at h
      exact (nextVarint_bounds hv).1.le.trans (ih h)

theorem skipPairs_le {plaintext : List UInt8} {count at_ next : ℕ}
    (h : skipPairs plaintext count at_ = .ok next) : at_ ≤ next := by
  induction count generalizing at_ with
  | zero => exact (Except.ok.inj h).le
  | succ count ih =>
    unfold skipPairs at h
    cases hv : nextVarint plaintext at_ with
    | none => simp [hv] at h
    | some e =>
      simp only [hv] at h
      cases hw : nextVarint plaintext e.2 with
      | none => simp [hw] at h
      | some f =>
        simp only [hw] at h
        have h₁ := (nextVarint_bounds hv).1
        have h₂ := (nextVarint_bounds hw).1
        exact (h₁.trans h₂).le.trans (ih h)

theorem skipAck_le {plaintext : List UInt8} {at_ next : ℕ} {ecn : Bool}
    (h : skipAck plaintext at_ ecn = .ok next) : at_ ≤ next := by
  unfold skipAck at h
  cases h₁ : skipVarints plaintext 2 at_ with
  | error e => simp [h₁, bind, Except.bind] at h
  | ok x =>
    simp only [h₁, bind, Except.bind] at h
    cases hv : nextVarint plaintext x with
    | none => simp [hv] at h
    | some e =>
      obtain ⟨count, y⟩ := e
      simp only [hv] at h
      cases h₂ : skipVarints plaintext 1 y with
      | error e => simp [h₂] at h
      | ok z =>
        simp only [h₂] at h
        cases h₃ : skipPairs plaintext count z with
        | error e => simp [h₃] at h
        | ok w =>
          simp only [h₃] at h
          have hle : at_ ≤ w := (skipVarints_le h₁).trans <| (nextVarint_bounds hv).1.le.trans <|
            (skipVarints_le h₂).trans (skipPairs_le h₃)
          split_ifs at h
          · exact hle.trans (skipVarints_le h)
          · exact hle.trans (Except.ok.inj h).le

/-- A frame moves the reading on. -/
theorem readFrame_lt {p p' : Pieces} {plaintext : List UInt8} {kind : UInt8} {at_ next : ℕ}
    (h : p.readFrame plaintext kind at_ = .ok (p', next)) : at_ < next := by
  unfold readFrame at h
  split_ifs at h with hpad hack hcrypto
  · cases h
    omega
  · cases hs : skipAck plaintext (at_ + 1) (kind = 0x03) with
    | error e => simp [hs, Except.map] at h
    | ok x =>
      rw [hs] at h
      cases h
      exact skipAck_le hs
  · cases hf : cryptoFrame plaintext (at_ + 1) with
    | none => simp [hf] at h
    | some f =>
      obtain ⟨offset, data, end_⟩ := f
      simp only [hf] at h
      cases ha : p.add offset data with
      | error e => simp [ha, Except.map] at h
      | ok q =>
        rw [ha] at h
        cases h
        unfold cryptoFrame at hf
        simp only [Option.bind_eq_bind, Option.bind_eq_some_iff, Option.pure_def,
          Option.some.injEq, Prod.mk.injEq] at hf
        obtain ⟨⟨o, x⟩, hx, ⟨l, y⟩, hy, e, he, d, -, -, -, rfl⟩ := hf
        obtain ⟨-, rfl⟩ := checkedAdd_eq_some.1 he
        have h₁ := (nextVarint_bounds hx).1
        have h₂ := (nextVarint_bounds hy).1
        dsimp only at h₂ ⊢
        omega

/-- Reads an opened Initial's plaintext, frame by frame: the frames an Initial may carry are
stepped over or, for CRYPTO, added. -/
def readFrames (p : Pieces) (plaintext : List UInt8) (at_ : ℕ) : Except Str Pieces :=
  match hkind : plaintext[at_]? with
  | none => .ok p
  | some kind =>
    match hframe : p.readFrame plaintext kind at_ with
    | .error why => .error why
    | .ok (p, next) =>
      have := readFrame_lt hframe
      have := (List.getElem?_eq_some_iff.1 hkind).1
      readFrames p plaintext next
termination_by plaintext.length - at_

end Pieces

end Quic

end Rurge
