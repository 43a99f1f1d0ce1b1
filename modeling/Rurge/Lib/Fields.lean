import Mathlib

/-!
# Separated fields in reverse

A list cut at a separator is a list of fields; `reverseFields` writes the fields in reverse order.
It is its own inverse, and it turns "ends with these fields" into "starts with these fields", which
is what an index sorted by reversed names relies on.
-/

namespace Fields

variable {α : Type*} [DecidableEq α] (sep : α)

/-- The fields of `xs`, last one first. -/
def reverseFields (xs : List α) : List α := [sep].intercalate (xs.splitOn sep).reverse

/-- What stands before each separator of `xs`, shortest first. -/
def prefixes (xs : List α) : List (List α) :=
  (List.range xs.length).filterMap fun i => if xs[i]? = some sep then some (xs.take i) else none

theorem not_mem_of_mem_splitOn {xs l : List α} (h : l ∈ xs.splitOn sep) : sep ∉ l := by
  induction xs generalizing l with
  | nil => simp_all
  | cons x xs ih =>
    rw [List.splitOn_cons_eq_if_modifyHead] at h
    by_cases hx : x = sep
    · simp only [hx, beq_self_eq_true, if_true, List.mem_cons] at h
      rcases h with rfl | h
      · simp
      · exact ih h
    · simp only [beq_iff_eq, hx, if_false] at h
      obtain ⟨f, fs, hfs⟩ := List.exists_cons_of_ne_nil (List.splitOn_ne_nil sep xs)
      rw [hfs, List.modifyHead_cons, List.mem_cons] at h
      rcases h with rfl | h
      · have := ih (l := f) (by simp [hfs])
        simp [this, Ne.symm hx]
      · exact ih (by simp [hfs, h])

omit [DecidableEq α] in
theorem intercalate_append {l m : List (List α)} (hl : l ≠ []) (hm : m ≠ []) :
    [sep].intercalate (l ++ m) = [sep].intercalate l ++ sep :: [sep].intercalate m := by
  induction l with
  | nil => exact absurd rfl hl
  | cons f l ih =>
    cases l with
    | nil =>
      obtain ⟨g, m, rfl⟩ := List.exists_cons_of_ne_nil hm
      simp [List.intercalate, List.intersperse]
    | cons g l =>
      have := ih (by simp)
      simp only [List.cons_append] at this ⊢
      rw [List.intercalate_cons_of_ne_nil (by simp : g :: (l ++ m) ≠ []), this,
        List.intercalate_cons_of_ne_nil (by simp : g :: l ≠ [])]
      simp

theorem splitOn_reverseFields (xs : List α) :
    (reverseFields sep xs).splitOn sep = (xs.splitOn sep).reverse := by
  apply List.splitOn_intercalate
  · intro l hl
    exact not_mem_of_mem_splitOn sep (List.mem_reverse.1 hl)
  · simp

@[simp] theorem reverseFields_reverseFields (xs : List α) :
    reverseFields sep (reverseFields sep xs) = xs := by
  unfold reverseFields
  rw [show (List.intercalate [sep] (xs.splitOn sep).reverse) = reverseFields sep xs from rfl,
    splitOn_reverseFields]
  simp

theorem reverseFields_injective : Function.Injective (reverseFields sep) :=
  Function.LeftInverse.injective (reverseFields_reverseFields sep)

theorem reverseFields_append (xs ys : List α) :
    reverseFields sep (xs ++ sep :: ys) = reverseFields sep ys ++ sep :: reverseFields sep xs := by
  unfold reverseFields
  rw [List.splitOn_append_cons_self, List.reverse_append, intercalate_append]
  · simp
  · simp

theorem mem_prefixes {p xs : List α} : p ∈ prefixes sep xs ↔ ∃ rest, xs = p ++ sep :: rest := by
  simp only [prefixes, List.mem_filterMap, List.mem_range, Option.ite_none_right_eq_some,
    Option.some.injEq]
  constructor
  · rintro ⟨i, hi, hsep, rfl⟩
    refine ⟨xs.drop (i + 1), ?_⟩
    have hget : xs[i] = sep := by simpa [List.getElem?_eq_getElem hi] using hsep
    rw [← hget, List.cons_getElem_drop_succ, List.take_append_drop]
  · rintro ⟨rest, rfl⟩
    exact ⟨p.length, by simp, by simp, by simp⟩

/-- The reversed fields of `ys` stand before a separator in those of `xs` when `xs` ends with a
separator and `ys`. -/
theorem reverseFields_mem_prefixes {xs ys : List α} :
    reverseFields sep ys ∈ prefixes sep (reverseFields sep xs) ↔
      ∃ head, xs = head ++ sep :: ys := by
  rw [mem_prefixes]
  constructor
  · rintro ⟨rest, h⟩
    refine ⟨reverseFields sep rest, ?_⟩
    rw [← reverseFields_reverseFields sep xs, h, reverseFields_append, reverseFields_reverseFields]
  · rintro ⟨head, rfl⟩
    exact ⟨reverseFields sep head, reverseFields_append sep head ys⟩

end Fields
