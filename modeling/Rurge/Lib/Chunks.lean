import Mathlib.Data.List.Basic
import Mathlib.Tactic.SplitIfs
import Mathlib.Tactic.Ring

/-!
# Windows of a list

`chunks n l` is the list in windows of `n`, the last of which may be shorter: `slice::chunks`.
-/

namespace Rurge

variable {α : Type*}

/-- How many windows of `n` there are. -/
def divCeil (a n : ℕ) : ℕ := (a + n - 1) / n

/-- The windows of `n`, in order. -/
def chunks (n : ℕ) (l : List α) : List (List α) :=
  (List.range (divCeil l.length n)).map fun i => (l.drop (i * n)).take n

@[simp] theorem length_chunks (n : ℕ) (l : List α) : (chunks n l).length = divCeil l.length n := by
  simp [chunks]

theorem lt_divCeil {a n i : ℕ} (hn : 0 < n) : i < divCeil a n ↔ i * n < a := by
  unfold divCeil
  rw [Nat.lt_iff_add_one_le, Nat.le_div_iff_mul_le hn, Nat.succ_mul]
  omega

theorem divCeil_le {a n k : ℕ} (hn : 0 < n) : divCeil a n ≤ k ↔ a ≤ k * n := by
  rw [← not_lt, ← not_lt]
  exact not_congr (lt_divCeil hn)

theorem getElem?_chunks {n i : ℕ} {l : List α} (hn : 0 < n) (hi : i * n < l.length) :
    (chunks n l)[i]? = some ((l.drop (i * n)).take n) := by
  unfold chunks
  rw [List.getElem?_map, List.getElem?_range ((lt_divCeil hn).2 hi)]
  rfl

@[simp] theorem chunks_nil (n : ℕ) : chunks n ([] : List α) = [] := by
  rcases Nat.eq_zero_or_pos n with rfl | hn
  · simp [chunks, divCeil]
  · have h : divCeil 0 n = 0 := by
      rw [← Nat.le_zero, divCeil_le hn]
      simp
    simp [chunks, h]

theorem divCeil_of_le {a n : ℕ} (hn : 0 < n) (ha : n ≤ a) :
    divCeil a n = divCeil (a - n) n + 1 := by
  unfold divCeil
  rw [← Nat.add_div_right _ hn]
  congr 1
  omega

theorem divCeil_of_lt {a n : ℕ} (ha : 0 < a) (han : a ≤ n) : divCeil a n = 1 := by
  refine le_antisymm ((divCeil_le (by omega)).2 (by omega)) ?_
  exact (lt_divCeil (by omega)).2 (by omega)

/-- The first window, and those of the rest. -/
theorem chunks_eq_cons {n : ℕ} {l : List α} (hn : 0 < n) (hl : l ≠ []) :
    chunks n l = l.take n :: chunks n (l.drop n) := by
  have hlen := List.length_pos_iff.2 hl
  have hcount : divCeil l.length n = divCeil (l.drop n).length n + 1 := by
    rw [List.length_drop]
    rcases Nat.lt_or_ge l.length n with h | h
    · rw [divCeil_of_lt hlen h.le, Nat.sub_eq_zero_of_le h.le]
      have := (divCeil_le (a := 0) (k := 0) hn).2 (by simp)
      omega
    · exact divCeil_of_le hn h
  unfold chunks
  rw [hcount, List.range_succ_eq_map, List.map_cons, List.map_map]
  simp only [Nat.zero_mul, List.drop_zero, Function.comp_def, List.drop_drop]
  congr 1
  refine List.map_congr_left fun i _ => ?_
  rw [Nat.succ_mul, Nat.add_comm]

/-- **The windows one after another are the list.** -/
theorem flatten_chunks {n : ℕ} (hn : 0 < n) (l : List α) : (chunks n l).flatten = l := by
  induction h : l.length using Nat.strong_induction_on generalizing l with
  | _ m ih =>
    rcases eq_or_ne l [] with rfl | hl
    · simp
    · have hlen := List.length_pos_iff.2 hl
      rw [chunks_eq_cons hn hl, List.flatten_cons,
        ih (l.drop n).length (by rw [List.length_drop]; omega) _ rfl, List.take_append_drop]

/-- The first windows one after another are as much of the list. -/
theorem flatten_take_chunks {n : ℕ} (hn : 0 < n) (i : ℕ) (l : List α) :
    ((chunks n l).take i).flatten = l.take (i * n) := by
  induction i generalizing l with
  | zero => simp
  | succ i ih =>
    rcases eq_or_ne l [] with rfl | hl
    · simp
    · rw [chunks_eq_cons hn hl, List.take_succ_cons, List.flatten_cons, ih, Nat.succ_mul,
        Nat.add_comm (i * n), List.take_add]

theorem length_of_mem_chunks {n : ℕ} {l c : List α} (hn : 0 < n) (hc : c ∈ chunks n l) :
    0 < c.length ∧ c.length ≤ n := by
  obtain ⟨i, hi, rfl⟩ := List.mem_map.1 hc
  have hlt := (lt_divCeil hn).1 (List.mem_range.1 hi)
  rw [List.length_take, List.length_drop]
  omega

end Rurge
