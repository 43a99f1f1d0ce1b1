import Mathlib

/-!
# Recency orders

A list of distinct keys in the order they were used, the one used longest ago first: an unbounded
LRU cache without its values.
-/

namespace Recency

variable {α : Type*} [DecidableEq α]

/-- Uses a key, which is entered if it is not there. -/
def put (l : List α) (a : α) : List α := l.erase a ++ [a]

/-- Uses a key that is there. -/
def promote (l : List α) (a : α) : List α := if a ∈ l then put l a else l

@[simp] theorem mem_put {l : List α} {a b : α} (hl : l.Nodup) : b ∈ put l a ↔ b ∈ l ∨ b = a := by
  by_cases h : b = a
  · simp [put, h]
  · simp [put, hl.mem_erase_iff, h]

theorem nodup_put {l : List α} (hl : l.Nodup) (a : α) : (put l a).Nodup := by
  unfold put
  rw [List.nodup_append]
  refine ⟨hl.erase a, List.nodup_singleton a, ?_⟩
  rintro b hb c hc rfl
  obtain rfl := List.mem_singleton.1 hc
  exact (hl.mem_erase_iff.1 hb).1 rfl

@[simp] theorem mem_promote {l : List α} {a b : α} (hl : l.Nodup) : b ∈ promote l a ↔ b ∈ l := by
  unfold promote
  split_ifs with h
  · rw [mem_put hl]
    constructor
    · rintro (hb | rfl)
      · exact hb
      · exact h
    · exact Or.inl
  · rfl

theorem nodup_promote {l : List α} (hl : l.Nodup) (a : α) : (promote l a).Nodup := by
  unfold promote
  split_ifs
  · exact nodup_put hl a
  · exact hl

/-- The key used longest ago goes to the end. -/
theorem promote_cons (a : α) (l : List α) : promote (a :: l) a = l ++ [a] := by
  simp [promote, put]

theorem put_new {l : List α} {a : α} (h : a ∉ l) : put l a = l ++ [a] := by
  rw [put, List.erase_of_not_mem h]

end Recency
