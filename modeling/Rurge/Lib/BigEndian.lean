import Mathlib

/-!
# Numbers as bytes, the highest first

A number written in a fixed count of bytes and read back, with the widths of `u16` and `u32` under
the names Rust gives them.
-/

namespace Rurge

namespace BigEndian

/-- The number the bytes hold. -/
def ofBytes (bytes : List UInt8) : ℕ := bytes.foldl (fun n b => n * 256 + b.toNat) 0

/-- The last `k` bytes of a number. -/
def toBytes : ℕ → ℕ → List UInt8
  | 0, _ => []
  | k + 1, n => toBytes k (n / 256) ++ [UInt8.ofNat n]

theorem ofBytes_concat (bytes : List UInt8) (b : UInt8) :
    ofBytes (bytes ++ [b]) = ofBytes bytes * 256 + b.toNat := by
  rw [ofBytes, List.foldl_append]
  rfl

@[simp] theorem length_toBytes (k n : ℕ) : (toBytes k n).length = k := by
  induction k generalizing n with
  | zero => rfl
  | succ k ih => rw [toBytes, List.length_append, ih, List.length_singleton]

/-- What is written is read back, as far as the bytes hold it. -/
theorem ofBytes_toBytes (k n : ℕ) : ofBytes (toBytes k n) = n % 256 ^ k := by
  induction k generalizing n with
  | zero => rw [pow_zero, Nat.mod_one]; rfl
  | succ k ih =>
    have hbyte : (UInt8.ofNat n).toNat = n % 256 := by simp
    rw [toBytes, ofBytes_concat, ih, hbyte, pow_succ', Nat.mod_mul]
    omega

/-- What is read is written back. -/
theorem toBytes_ofBytes (bytes : List UInt8) : toBytes bytes.length (ofBytes bytes) = bytes := by
  induction bytes using List.reverseRecOn with
  | nil => rfl
  | append_singleton bytes b ih =>
    have hlow : (ofBytes bytes * 256 + b.toNat) / 256 = ofBytes bytes := by
      have := b.toNat_lt
      omega
    have hbyte : UInt8.ofNat (ofBytes bytes * 256 + b.toNat) = b := by
      apply UInt8.toNat_inj.1
      have := b.toNat_lt
      rw [UInt8.toNat_ofNat']
      omega
    rw [List.length_append, List.length_singleton, ofBytes_concat, toBytes, hlow, ih, hbyte]

theorem ofBytes_lt (bytes : List UInt8) : ofBytes bytes < 256 ^ bytes.length := by
  have h := ofBytes_toBytes bytes.length (ofBytes bytes)
  rw [toBytes_ofBytes] at h
  exact h ▸ Nat.mod_lt _ (Nat.pow_pos (by norm_num))

/-! ### Sixteen and thirty-two bits -/

/-- `u16::to_be_bytes`. -/
def u16 (n : UInt16) : List UInt8 := toBytes 2 n.toNat

/-- `u16::from_be_bytes`. -/
def from_u16 (bytes : List UInt8) : UInt16 := UInt16.ofNat (ofBytes bytes)

/-- `u32::to_be_bytes`. -/
def u32 (n : UInt32) : List UInt8 := toBytes 4 n.toNat

/-- `u32::from_be_bytes`. -/
def from_u32 (bytes : List UInt8) : UInt32 := UInt32.ofNat (ofBytes bytes)

@[simp] theorem length_u16 (n : UInt16) : (u16 n).length = 2 := length_toBytes 2 _

@[simp] theorem length_u32 (n : UInt32) : (u32 n).length = 4 := length_toBytes 4 _

@[simp] theorem from_u16_u16 (n : UInt16) : from_u16 (u16 n) = n := by
  rw [from_u16, u16, ofBytes_toBytes, show 256 ^ 2 = 2 ^ 16 by norm_num,
    Nat.mod_eq_of_lt n.toNat_lt]
  exact UInt16.ofNat_toNat

@[simp] theorem from_u32_u32 (n : UInt32) : from_u32 (u32 n) = n := by
  rw [from_u32, u32, ofBytes_toBytes, show 256 ^ 4 = 2 ^ 32 by norm_num,
    Nat.mod_eq_of_lt n.toNat_lt]
  exact UInt32.ofNat_toNat

theorem u16_from_u16 {bytes : List UInt8} (h : bytes.length = 2) :
    u16 (from_u16 bytes) = bytes := by
  have hlt := ofBytes_lt bytes
  rw [h] at hlt
  rw [u16, from_u16, UInt16.toNat_ofNat_of_lt' hlt, ← h, toBytes_ofBytes]

theorem u32_from_u32 {bytes : List UInt8} (h : bytes.length = 4) :
    u32 (from_u32 bytes) = bytes := by
  have hlt := ofBytes_lt bytes
  rw [h] at hlt
  rw [u32, from_u32, UInt32.toNat_ofNat_of_lt' hlt, ← h, toBytes_ofBytes]

end BigEndian

end Rurge
