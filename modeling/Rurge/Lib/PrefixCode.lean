import Mathlib

/-!
# Codes that can be read from the left

A code none of whose words begins another: a text of such words is the text of one sequence of
words only.
-/

namespace Rurge

variable {α β : Type*}

/-- No word of the code is empty, and none begins another. -/
structure PrefixFree (code : α → List β) : Prop where
  ne_nil : ∀ a, code a ≠ []
  eq_of_prefix : ∀ a b, code a <+: code b → code a = code b

namespace PrefixFree

variable {code : α → List β}

/-- Of two texts that go on the same way, the first words are the same. -/
theorem head_eq (h : PrefixFree code) {a b : α} {s t : List β}
    (heq : code a ++ s = code b ++ t) : code a = code b := by
  have ha : code a <+: code b ++ t := heq ▸ List.prefix_append _ _
  rcases List.prefix_or_prefix_of_prefix ha (List.prefix_append _ _) with hab | hba
  · exact h.eq_of_prefix _ _ hab
  · exact (h.eq_of_prefix _ _ hba).symm

/-- **A text is read as one sequence of words only.** -/
theorem map_eq (h : PrefixFree code) {l m : List α} (heq : l.flatMap code = m.flatMap code) :
    l.map code = m.map code := by
  induction l generalizing m with
  | nil =>
    cases m with
    | nil => rfl
    | cons b m =>
      rw [List.flatMap_nil, List.flatMap_cons] at heq
      exact absurd (List.append_eq_nil_iff.1 heq.symm).1 (h.ne_nil b)
  | cons a l ih =>
    cases m with
    | nil =>
      rw [List.flatMap_nil, List.flatMap_cons] at heq
      exact absurd (List.append_eq_nil_iff.1 heq).1 (h.ne_nil a)
    | cons b m =>
      rw [List.flatMap_cons, List.flatMap_cons] at heq
      have hword := h.head_eq heq
      rw [hword] at heq
      rw [List.map_cons, List.map_cons, hword, ih (List.append_cancel_left heq)]

end PrefixFree

end Rurge
