import Mathlib

/-!
# Partial maps inverse to each other

Two partial maps that hold the same pairs, each read from its own side, and what keeps them so.
-/

/-- `f` and `g` hold the same pairs. -/
def PartialInverse {α β : Type*} (f : α → Option β) (g : β → Option α) : Prop :=
  ∀ a b, f a = some b ↔ g b = some a

namespace PartialInverse

variable {α β : Type*} {f : α → Option β} {g : β → Option α}

theorem empty : PartialInverse (fun _ : α => (Option.none : Option β)) (fun _ => Option.none) := by
  intro a b
  simp

/-- Two keys that name the same key are the same. -/
theorem injective (h : PartialInverse f g) {a a' : α} {b : β} (ha : f a = some b)
    (ha' : f a' = some b) : a = a' :=
  Option.some.inj (((h a b).1 ha).symm.trans ((h a' b).1 ha'))

variable [DecidableEq α] [DecidableEq β]

/-- A pair of keys that neither map has. -/
theorem insert (h : PartialInverse f g) {a : α} {b : β} (ha : f a = Option.none)
    (hb : g b = Option.none) :
    PartialInverse (Function.update f a (some b)) (Function.update g b (some a)) := by
  intro x y
  by_cases hx : x = a
  · subst hx
    by_cases hy : y = b
    · simp [hy]
    · rw [Function.update_self, Function.update_of_ne hy, ← h x y, ha]
      simp [Ne.symm hy]
  · rw [Function.update_of_ne hx]
    by_cases hy : y = b
    · subst hy
      rw [Function.update_self, h x y, hb]
      simp [Ne.symm hx]
    · rw [Function.update_of_ne hy, h x y]

/-- A pair taken out of both maps. -/
theorem remove (h : PartialInverse f g) {a : α} {b : β} (hab : f a = some b) :
    PartialInverse (Function.update f a Option.none) (Function.update g b Option.none) := by
  intro x y
  by_cases hx : x = a
  · subst hx
    by_cases hy : y = b
    · simp [hy]
    · rw [Function.update_self, Function.update_of_ne hy, ← h x y, hab]
      simp [Ne.symm hy]
  · rw [Function.update_of_ne hx]
    by_cases hy : y = b
    · subst hy
      rw [Function.update_self, h x y, (h a y).1 hab]
      simp [Ne.symm hx]
    · rw [Function.update_of_ne hy, h x y]

end PartialInverse
