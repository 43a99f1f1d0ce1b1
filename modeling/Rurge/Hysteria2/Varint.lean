import Rurge.Lib.BigEndian
import Rurge.Quic.Bytes

/-!
# QUIC's variable-length integers, as the protocols over QUIC write them

`put` writes an integer as short as it goes, `get` reads one in any of its lengths.
-/

namespace Rurge

namespace Varint

open BigEndian
open Quic (slice IsVarint)

/-- `value` as a variable-length integer. -/
def put (value : ℕ) : List UInt8 :=
  if value < 0x40 then [.ofNat value]
  else if value < 0x4000 then toBytes 2 (0x4000 ||| value)
  else if value < 0x40000000 then toBytes 4 (0x80000000 ||| value)
  else toBytes 8 (0xc000000000000000 ||| value)

/-- How many bytes the integer that starts with `first` takes. -/
def len (first : UInt8) : ℕ := 1 <<< (first >>> 6).toNat

/-- The integer at the start of `bytes`, and how many bytes it took. -/
def get (bytes : List UInt8) : Option (ℕ × ℕ) := do
  let bytes ← slice bytes 0 (len (← bytes.head?))
  let first ← bytes.head?
  return (bytes.tail.foldl (fun value b => value <<< 8 ||| b.toNat) (first &&& 0x3f).toNat,
    bytes.length)

/-- An integer that stands at the start is read. -/
theorem get_of_isVarint {bytes : List UInt8} {n : ℕ} (h : IsVarint bytes n) (t : List UInt8) :
    get (bytes ++ t) = some (n, bytes.length) := by
  obtain ⟨first, rest, rfl, hlength, rfl⟩ := h
  have hlen : len first = (first :: rest).length := by
    rw [hlength, len, (Quic.lead_bits first).1]
  have hslice : slice (first :: rest ++ t) 0 (first :: rest).length = some (first :: rest) := by
    have := @Quic.slice_of_drop (first :: rest ++ t) (first :: rest) t 0 rfl (by simp)
    rwa [Nat.zero_add] at this
  rw [get]
  simp only [List.cons_append, List.head?_cons, Option.bind_eq_bind, Option.bind_some, hlen]
  rw [← List.cons_append, hslice]
  simp only [Option.bind_some, List.head?_cons, List.tail_cons, Quic.foldl_shift,
    (Quic.lead_bits first).2, Option.pure_def]

theorem foldl_ofBytes (bytes : List UInt8) (n : ℕ) :
    bytes.foldl (fun value b => value * 256 + b.toNat) n =
      n * 256 ^ bytes.length + ofBytes bytes := by
  induction bytes using List.reverseRecOn with
  | nil => simp [ofBytes]
  | append_singleton bytes b ih =>
    rw [List.foldl_append, ih, ofBytes_concat, List.length_append, List.length_singleton, pow_succ]
    simp only [List.foldl_cons, List.foldl_nil]
    ring

/-- A tag in the two highest bits, the value in the others. -/
theorem isVarint_toBytes {k tag value : ℕ} (hk : 2 ^ tag = k + 1) (htag : tag < 4)
    (hvalue : value < 64 * 256 ^ k) :
    IsVarint (toBytes (k + 1) (tag * (64 * 256 ^ k) + value)) value := by
  obtain ⟨first, rest, hbytes⟩ : ∃ first rest,
      toBytes (k + 1) (tag * (64 * 256 ^ k) + value) = first :: rest :=
    List.exists_cons_of_length_pos (by rw [length_toBytes]; omega)
  have hlength : rest.length = k := by
    have := congrArg List.length hbytes
    rw [length_toBytes, List.length_cons] at this
    omega
  have hrest := ofBytes_lt rest
  rw [hlength] at hrest
  have hsum : first.toNat * 256 ^ k + ofBytes rest = tag * (64 * 256 ^ k) + value := by
    have hread := ofBytes_toBytes (k + 1) (tag * (64 * 256 ^ k) + value)
    have hsmall : tag * (64 * 256 ^ k) + value < 256 ^ (k + 1) := by
      rw [pow_succ]
      have : tag * (64 * 256 ^ k) ≤ 3 * (64 * 256 ^ k) := Nat.mul_le_mul_right _ (by omega)
      omega
    have hcons : ofBytes (first :: rest) = (0 * 256 + first.toNat) * 256 ^ rest.length +
        ofBytes rest := foldl_ofBytes rest (0 * 256 + first.toNat)
    rw [Nat.mod_eq_of_lt hsmall, hbytes, hcons, hlength] at hread
    rw [← hread, Nat.zero_mul, Nat.zero_add]
  have hpow : 0 < 256 ^ k := Nat.pow_pos (by norm_num)
  have hfirst : first.toNat = tag * 64 + value / 256 ^ k := by
    have h₁ : (first.toNat * 256 ^ k + ofBytes rest) / 256 ^ k = first.toNat := by
      rw [Nat.add_comm, Nat.add_mul_div_right _ _ hpow, Nat.div_eq_of_lt hrest, Nat.zero_add]
    have h₂ : (tag * (64 * 256 ^ k) + value) / 256 ^ k = tag * 64 + value / 256 ^ k := by
      rw [← Nat.mul_assoc, Nat.add_comm, Nat.add_mul_div_right _ _ hpow, Nat.add_comm]
    rw [← h₁, hsum, h₂]
  have hhigh : value / 256 ^ k < 64 := Nat.div_lt_of_lt_mul (by rwa [Nat.mul_comm])
  have hparts : first.toNat / 64 = tag ∧ first.toNat % 64 = value / 256 ^ k := by
    rw [hfirst]
    generalize value / 256 ^ k = high at hhigh
    omega
  refine ⟨first, rest, hbytes, ?_, ?_⟩
  · rw [length_toBytes, hparts.1, hk]
  · have hlow := hparts.2
    rw [foldl_ofBytes, hlow, hlength]
    have hvalue' := Nat.div_add_mod value (256 ^ k)
    have hmod : ofBytes rest = value % 256 ^ k := by
      have hrest' : ofBytes rest = (first.toNat * 256 ^ k + ofBytes rest) % 256 ^ k := by
        rw [Nat.add_comm, Nat.add_mul_mod_self_right, Nat.mod_eq_of_lt hrest]
      rw [hrest', hsum, ← Nat.mul_assoc, Nat.add_comm, Nat.add_mul_mod_self_right]
    rw [hmod, Nat.mul_comm]
    exact hvalue'.symm

/-- **An integer is read back.** -/
theorem get_put {value : ℕ} (h : value < 2 ^ 62) (t : List UInt8) :
    get (put value ++ t) = some (value, (put value).length) := by
  apply get_of_isVarint
  have htag : ∀ {tag k : ℕ}, value < 64 * 256 ^ k →
      tag * (64 * 256 ^ k) ||| value = tag * (64 * 256 ^ k) + value := by
    intro tag k hlt
    have hpow : 64 * 256 ^ k = 2 ^ (6 + 8 * k) := by
      rw [show (64 : ℕ) = 2 ^ 6 by norm_num, show (256 : ℕ) = 2 ^ 8 by norm_num, ← pow_mul,
        ← pow_add]
    rw [hpow] at hlt ⊢
    rw [← Nat.shiftLeft_eq]
    exact (Nat.shiftLeft_add_eq_or_of_lt hlt tag).symm
  unfold put
  split_ifs with h₁ h₂ h₃
  · have := @isVarint_toBytes 0 0 value rfl (by norm_num) (by omega)
    simpa [toBytes] using this
  · have := @isVarint_toBytes 1 1 value rfl (by norm_num) (by omega)
    rwa [← htag (by omega)] at this
  · have := @isVarint_toBytes 3 2 value rfl (by norm_num) (by omega)
    rwa [← htag (by omega)] at this
  · have := @isVarint_toBytes 7 3 value rfl (by norm_num) (by omega)
    rwa [← htag (by omega)] at this

end Varint

end Rurge
