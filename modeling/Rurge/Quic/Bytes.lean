import Mathlib

/-!
# Reading the bytes of a datagram

What `usize` and slices do, and the variable-length integers of QUIC.
-/

namespace Rurge

namespace Quic

/-- `checked_add` of a `u64`, which a `usize` is too. -/
def checkedAdd (a b : ℕ) : Option ℕ := if a + b < 2 ^ 64 then some (a + b) else none

/-- `buf.get(a..b)`. -/
def slice (buf : List UInt8) (a b : ℕ) : Option (List UInt8) :=
  if a ≤ b ∧ b ≤ buf.length then some ((buf.drop a).take (b - a)) else none

/-- A variable-length integer: its value and how many bytes it took, or nothing where the datagram
ends inside it. -/
def varint (buf : List UInt8) (at_ : ℕ) : Option (ℕ × ℕ) := do
  let first ← buf[at_]?
  let len := 1 <<< (first >>> 6).toNat
  let bytes ← slice buf at_ (← checkedAdd at_ len)
  let value := bytes.tail.foldl (fun value byte => value <<< 8 ||| byte.toNat)
    (first &&& 0x3f).toNat
  return (value, len)

/-- The next variable-length integer and where the reading goes on. -/
def nextVarint (buf : List UInt8) (at_ : ℕ) : Option (ℕ × ℕ) :=
  (varint buf at_).map fun (value, used) => (value, at_ + used)

theorem checkedAdd_eq_some {a b c : ℕ} :
    checkedAdd a b = some c ↔ a + b < 2 ^ 64 ∧ a + b = c := by
  unfold checkedAdd
  split_ifs with h
  · rw [Option.some.injEq]
    exact (and_iff_right h).symm
  · exact iff_of_false (by simp) fun hc => h hc.1

theorem slice_eq_some {buf s : List UInt8} {a b : ℕ} :
    slice buf a b = some s ↔ a ≤ b ∧ b ≤ buf.length ∧ (buf.drop a).take (b - a) = s := by
  unfold slice
  split_ifs with h
  · rw [Option.some.injEq]
    exact ⟨fun hs => ⟨h.1, h.2, hs⟩, fun hs => hs.2.2⟩
  · exact iff_of_false (by simp) fun hs => h ⟨hs.1, hs.2.1⟩

theorem length_slice {buf s : List UInt8} {a b : ℕ} (h : slice buf a b = some s) :
    s.length = b - a := by
  obtain ⟨hab, hb, rfl⟩ := slice_eq_some.1 h
  rw [List.length_take, List.length_drop]
  omega

/-- A variable-length integer that is read stands within the bytes, and takes one at least. -/
theorem varint_bounds {buf : List UInt8} {at_ value used : ℕ}
    (h : varint buf at_ = some (value, used)) : 0 < used ∧ at_ + used ≤ buf.length := by
  unfold varint at h
  simp only [Option.bind_eq_bind, Option.bind_eq_some_iff, Option.some.injEq,
    Prod.mk.injEq, Option.pure_def] at h
  obtain ⟨first, -, end_, hend, bytes, hbytes, -, rfl⟩ := h
  obtain ⟨-, rfl⟩ := checkedAdd_eq_some.1 hend
  refine ⟨?_, (slice_eq_some.1 hbytes).2.1⟩
  rw [Nat.shiftLeft_eq, one_mul]
  exact Nat.two_pow_pos _

theorem nextVarint_bounds {buf : List UInt8} {at_ value next : ℕ}
    (h : nextVarint buf at_ = some (value, next)) : at_ < next ∧ next ≤ buf.length := by
  obtain ⟨⟨v, used⟩, hv, heq⟩ := Option.map_eq_some_iff.1 h
  cases heq
  obtain ⟨hpos, hle⟩ := varint_bounds hv
  exact ⟨by omega, hle⟩

/-! ### What stands at a place -/

theorem drop_add {buf s t : List UInt8} {a : ℕ} (h : buf.drop a = s ++ t) :
    buf.drop (a + s.length) = t := by
  rw [← List.drop_drop, h, List.drop_left]

theorem getElem?_of_drop {buf t : List UInt8} {a : ℕ} {b : UInt8} (h : buf.drop a = b :: t) :
    buf[a]? = some b := by
  rw [← Nat.add_zero a, ← List.getElem?_drop, h]
  rfl

theorem drop_of_getElem? {buf : List UInt8} {a : ℕ} {b : UInt8} (h : buf[a]? = some b) :
    buf.drop a = b :: buf.drop (a + 1) := by
  obtain ⟨hlt, rfl⟩ := List.getElem?_eq_some_iff.1 h
  exact List.drop_eq_getElem_cons hlt

theorem le_length_of_drop {buf s t : List UInt8} {a : ℕ} (h : buf.drop a = s ++ t) (hs : s ≠ []) :
    a + s.length ≤ buf.length := by
  have := congrArg List.length h
  rw [List.length_drop, List.length_append] at this
  have := List.length_pos_iff.2 hs
  omega

theorem slice_of_drop {buf s t : List UInt8} {a : ℕ} (h : buf.drop a = s ++ t) (hs : s ≠ []) :
    slice buf a (a + s.length) = some s := by
  refine slice_eq_some.2 ⟨Nat.le_add_right _ _, le_length_of_drop h hs, ?_⟩
  rw [h, Nat.add_sub_cancel_left, List.take_left]

theorem drop_of_slice {buf s : List UInt8} {a b : ℕ} (h : slice buf a b = some s) :
    buf.drop a = s ++ buf.drop b := by
  obtain ⟨hab, -, rfl⟩ := slice_eq_some.1 h
  conv_rhs => rw [show b = a + (b - a) by omega, ← List.drop_drop, Nat.add_sub_cancel_left]
  exact (List.take_append_drop _ _).symm

theorem slice_append {buf s t : List UInt8} {a b : ℕ} (h : slice buf a b = some s) :
    slice (buf ++ t) a b = some s := by
  obtain ⟨hab, hb, rfl⟩ := slice_eq_some.1 h
  refine slice_eq_some.2 ⟨hab, ?_, ?_⟩
  · rw [List.length_append]
    omega
  · rw [List.drop_append_of_le_length (by omega), List.take_append_of_le_length]
    rw [List.length_drop]
    omega

/-- A stretch that is there. -/
theorem exists_drop (buf : List UInt8) {a n : ℕ} (h : a + n ≤ buf.length) :
    ∃ s, s.length = n ∧ buf.drop a = s ++ buf.drop (a + n) := by
  refine ⟨(buf.drop a).take n, ?_, ?_⟩
  · rw [List.length_take, List.length_drop]
    omega
  · rw [← List.drop_drop, List.take_append_drop]

/-! ### Variable-length integers, written out -/

/-- The bytes are a variable-length integer: the first two bits say how many bytes there are, the
others hold the value, the highest first. -/
def IsVarint (bytes : List UInt8) (n : ℕ) : Prop :=
  ∃ first rest, bytes = first :: rest ∧ bytes.length = 2 ^ (first.toNat / 64) ∧
    n = rest.foldl (fun value byte => value * 256 + byte.toNat) (first.toNat % 64)

theorem foldl_shift (bytes : List UInt8) (n : ℕ) :
    bytes.foldl (fun value byte => value <<< 8 ||| byte.toNat) n =
      bytes.foldl (fun value byte => value * 256 + byte.toNat) n := by
  induction bytes generalizing n with
  | nil => rfl
  | cons b bytes ih =>
    rw [List.foldl_cons, List.foldl_cons, ← Nat.shiftLeft_add_eq_or_of_lt b.toNat_lt,
      Nat.shiftLeft_eq, ih]

theorem lead_bits (first : UInt8) :
    1 <<< (first >>> 6).toNat = 2 ^ (first.toNat / 64) ∧
      (first &&& 0x3f).toNat = first.toNat % 64 := by
  constructor
  · rw [Nat.shiftLeft_eq, one_mul, UInt8.toNat_shiftRight]
    simp [Nat.shiftRight_eq_div_pow]
  · rw [UInt8.toNat_and]
    exact Nat.and_two_pow_sub_one_eq_mod first.toNat 6

theorem IsVarint.ne_nil {bytes : List UInt8} {n : ℕ} (h : IsVarint bytes n) : bytes ≠ [] := by
  obtain ⟨first, rest, rfl, -, -⟩ := h
  simp

theorem nextVarint_of_drop {buf bytes t : List UInt8} {a n : ℕ} (hsmall : buf.length < 2 ^ 63)
    (h : buf.drop a = bytes ++ t) (hn : IsVarint bytes n) :
    nextVarint buf a = some (n, a + bytes.length) := by
  have hle := le_length_of_drop h hn.ne_nil
  have hslice := slice_of_drop h hn.ne_nil
  obtain ⟨first, rest, rfl, hlength, rfl⟩ := hn
  have hadd : checkedAdd a (first :: rest).length = some (a + (first :: rest).length) :=
    if_pos (by omega)
  unfold nextVarint varint
  rw [getElem?_of_drop h]
  simp only [Option.bind_eq_bind, Option.bind_some, (lead_bits first).1, (lead_bits first).2,
    ← hlength, hadd, hslice, List.tail_cons, foldl_shift, Option.pure_def, Option.map_some]

theorem drop_of_nextVarint {buf : List UInt8} {a n b : ℕ} (h : nextVarint buf a = some (n, b)) :
    ∃ bytes, IsVarint bytes n ∧ b = a + bytes.length ∧ buf.drop a = bytes ++ buf.drop b := by
  obtain ⟨⟨v, used⟩, hv, heq⟩ := Option.map_eq_some_iff.1 h
  cases heq
  unfold varint at hv
  simp only [Option.bind_eq_bind, Option.bind_eq_some_iff, Option.some.injEq, Prod.mk.injEq,
    Option.pure_def] at hv
  obtain ⟨first, hfirst, end_, hend, bytes, hbytes, rfl, rfl⟩ := hv
  obtain ⟨-, rfl⟩ := checkedAdd_eq_some.1 hend
  have hlength := length_slice hbytes
  have hdrop := drop_of_slice hbytes
  rw [Nat.add_sub_cancel_left] at hlength
  refine ⟨bytes, ?_, by rw [hlength], hdrop⟩
  rw [drop_of_getElem? hfirst] at hdrop
  cases bytes with
  | nil =>
    rw [(lead_bits first).1] at hlength
    exact absurd hlength (Nat.two_pow_pos _).ne
  | cons b rest =>
    obtain rfl : first = b := (List.cons.inj hdrop).1
    refine ⟨first, rest, rfl, hlength.trans (lead_bits first).1, ?_⟩
    rw [List.tail_cons, foldl_shift, (lead_bits first).2]

end Quic

end Rurge
