import Rurge.Lib.BigEndian

/-!
# The stream ciphers

`stream.rs`: `Cfb` and `Ctr` over a block function, which stands for AES under the key, and `Rc4`.
Each takes its place in the stream from call to call.
-/

namespace Rurge.Shadowsocks

abbrev Bytes := List UInt8

def BLOCK : ℕ := 16

/-- An AES block. -/
abbrev Block := Vector UInt8 BLOCK

/-- `u128::from_be_bytes`. -/
def from_be_bytes (block : Block) : BitVec 128 := .ofNat 128 (BigEndian.ofBytes block.toList)

/-- `u128::to_be_bytes`. -/
def to_be_bytes (n : BitVec 128) : Block :=
  ⟨(BigEndian.toBytes BLOCK n.toNat).toArray, by simp⟩

/-- The byte at a place that is in the block. -/
def byte_at (block : Block) (i : ℕ) : UInt8 := block[i]?.getD 0

variable (aes : Block → Block)

/-! ### CFB -/

/-- From `pos` on the keystream of the block under way, before it the block's ciphertext. -/
structure Cfb where
  block : Block
  pos : ℕ
  le : pos ≤ BLOCK

namespace Cfb

def new (iv : Block) : Cfb := ⟨iv, BLOCK, le_rfl⟩

/-- A block that is used up is encrypted. -/
def refill (c : Cfb) : Cfb := if c.pos = BLOCK then ⟨aes c.block, 0, Nat.zero_le _⟩ else c

theorem refill_lt (c : Cfb) : (c.refill aes).pos < BLOCK := by
  rw [refill]
  split_ifs with h
  · exact Nat.zero_lt_succ 15
  · exact lt_of_le_of_ne c.le h

/-- The loop over the bytes that the block has keystream for. -/
def mix (decrypt : Bool) : Block → ℕ → Bytes → Block × Bytes
  | block, _, [] => (block, [])
  | block, at_, input :: now =>
    let byte := input ^^^ byte_at block at_
    -- the ciphertext, whichever side of the XOR it is on
    let fed := if decrypt then input else byte
    let (block, out) := mix decrypt (block.setIfInBounds at_ fed) (at_ + 1) now
    (block, byte :: out)

def apply (decrypt : Bool) (c : Cfb) (data : Bytes) : Cfb × Bytes :=
  if h : data = [] then (c, [])
  else
    let n := min data.length (BLOCK - (c.refill aes).pos)
    have hn : (c.refill aes).pos + n ≤ BLOCK := by
      have hlt := refill_lt aes c
      omega
    have hlt : (data.drop n).length < data.length := by
      have hpos := List.length_pos_iff.2 h
      have hlt := refill_lt aes c
      rw [List.length_drop]
      omega
    let (block, out) := mix decrypt (c.refill aes).block (c.refill aes).pos (data.take n)
    let (c, rest) := apply decrypt ⟨block, (c.refill aes).pos + n, hn⟩ (data.drop n)
    (c, out ++ rest)
termination_by data.length
decreasing_by exact hlt

end Cfb

/-! ### CTR -/

/-- The next block's counter, and the keystream of the block under way, used up to `pos`. -/
structure Ctr where
  counter : BitVec 128
  pad : Block
  pos : ℕ
  le : pos ≤ BLOCK

namespace Ctr

def new (iv : Block) : Ctr := ⟨from_be_bytes iv, .replicate BLOCK 0, BLOCK, le_rfl⟩

/-- Of keystream that is used up the next block is made. -/
def refill (c : Ctr) : Ctr :=
  if c.pos = BLOCK then ⟨c.counter + 1, aes (to_be_bytes c.counter), 0, Nat.zero_le _⟩ else c

theorem refill_lt (c : Ctr) : (c.refill aes).pos < BLOCK := by
  rw [refill]
  split_ifs with h
  · exact Nat.zero_lt_succ 15
  · exact lt_of_le_of_ne c.le h

def mix (pad : Block) : ℕ → Bytes → Bytes
  | _, [] => []
  | at_, byte :: now => (byte ^^^ byte_at pad at_) :: mix pad (at_ + 1) now

def apply (c : Ctr) (data : Bytes) : Ctr × Bytes :=
  if h : data = [] then (c, [])
  else
    let n := min data.length (BLOCK - (c.refill aes).pos)
    have hn : (c.refill aes).pos + n ≤ BLOCK := by
      have hlt := refill_lt aes c
      omega
    have hlt : (data.drop n).length < data.length := by
      have hpos := List.length_pos_iff.2 h
      have hlt := refill_lt aes c
      rw [List.length_drop]
      omega
    let out := mix (c.refill aes).pad (c.refill aes).pos (data.take n)
    let (c, rest) := apply ⟨(c.refill aes).counter, (c.refill aes).pad, (c.refill aes).pos + n, hn⟩
      (data.drop n)
    (c, out ++ rest)
termination_by data.length
decreasing_by exact hlt

end Ctr

/-! ### RC4 -/

structure Rc4 where
  s : Vector UInt8 256
  i : UInt8
  j : UInt8

namespace Rc4

def at_ (s : Vector UInt8 256) (i : UInt8) : UInt8 := s.get ⟨i.toNat, i.toNat_lt⟩

def swap (s : Vector UInt8 256) (i j : UInt8) : Vector UInt8 256 :=
  s.swap i.toNat j.toNat i.toNat_lt j.toNat_lt

/-- One round of `new`'s loop; the key is not empty. -/
def schedule (key : Bytes) (state : Vector UInt8 256 × UInt8) (i : ℕ) : Vector UInt8 256 × UInt8 :=
  let (s, j) := state
  let j := j + at_ s (.ofNat i) + key.getD (i % key.length) 0
  (swap s (.ofNat i) j, j)

/-- Each place holds its number. -/
def identity : Vector UInt8 256 := .ofFn fun i => .ofNat i

def new (key : Bytes) : Rc4 := ⟨((List.range 256).foldl (schedule key) (identity, 0)).1, 0, 0⟩

def apply : Rc4 → Bytes → Rc4 × Bytes
  | r, [] => (r, [])
  | r, byte :: data =>
    let i := r.i + 1
    let a := at_ r.s i
    let j := r.j + a
    let b := at_ r.s j
    let s := swap r.s i j
    let (r, out) := apply ⟨s, i, j⟩ data
    (r, (byte ^^^ at_ s (a + b)) :: out)

end Rc4

/-! ### Either direction -/

/-- `State`, of the ciphers that are written here. -/
inductive Keystream
  | Cfb (cfb : Cfb)
  | Ctr (ctr : Ctr)
  | Rc4 (rc4 : Rc4)

namespace Keystream

def apply (decrypt : Bool) : Keystream → Bytes → Keystream × Bytes
  | .Cfb cfb, data => ((cfb.apply aes decrypt data).map .Cfb id)
  | .Ctr ctr, data => ((ctr.apply aes data).map .Ctr id)
  | .Rc4 rc4, data => ((rc4.apply data).map .Rc4 id)

def encrypt : Keystream → Bytes → Keystream × Bytes := apply aes false

/-- The inverse of `encrypt`, which differs from it only for CFB. -/
def decrypt : Keystream → Bytes → Keystream × Bytes := apply aes true

end Keystream

end Rurge.Shadowsocks
