import Mathlib.Data.List.Basic
import Mathlib.Data.List.Nodup

/-!
# The most recent of a list

A queue that takes one in at the back and drops the oldest when it is full holds the `n` most recent
of what it took in (`recent`).  Where nothing it holds is taken in again, the same comes again only
after `n` others (`Spaced`).
-/

namespace Rurge

namespace Fifo

variable {α : Type*}

/-- What is somewhere in a list was there before the last came in, or is the last. -/
theorem getElem?_concat_cases {l : List α} {a b : α} {j : ℕ} (h : (l ++ [a])[j]? = some b) :
    l[j]? = some b ∨ j = l.length ∧ b = a := by
  rw [List.getElem?_append] at h
  split_ifs at h with hj
  · exact .inl h
  · obtain ⟨hlt, rfl⟩ := List.getElem?_eq_some_iff.1 h
    rw [List.length_singleton] at hlt
    exact .inr ⟨by omega, List.getElem_singleton _⟩

/-- The last `n` of a list. -/
def recent (n : ℕ) (l : List α) : List α := l.drop (l.length - n)

theorem recent_sublist (n : ℕ) (l : List α) : (recent n l).Sublist l := List.drop_sublist _ _

theorem length_recent (n : ℕ) (l : List α) : (recent n l).length = min n l.length := by
  rw [recent, List.length_drop]
  omega

/-- One taken in, where there is room. -/
theorem recent_concat_of_lt {n : ℕ} {l : List α} (h : (recent n l).length < n) (x : α) :
    recent n (l ++ [x]) = recent n l ++ [x] := by
  rw [length_recent] at h
  have hzero : l.length - n = 0 := by omega
  rw [recent, recent, List.length_append, List.length_singleton, hzero,
    show l.length + 1 - n = 0 by omega]
  rfl

/-- One taken in, and the oldest dropped. -/
theorem recent_concat_of_full {n : ℕ} {l : List α} (hn : 0 < n) (h : (recent n l).length = n)
    (x : α) : recent n (l ++ [x]) = (recent n l).tail ++ [x] := by
  rw [length_recent] at h
  rw [recent, recent, List.length_append, List.length_singleton, List.tail_drop,
    show l.length + 1 - n = l.length - n + 1 by omega, List.drop_append_of_le_length (by omega)]

/-- What has fewer than `n` behind it is one of the most recent. -/
theorem mem_recent {n : ℕ} {xs ys : List α} {x : α} (h : ys.length < n) :
    x ∈ recent n (xs ++ x :: ys) := by
  rw [recent, List.drop_append_of_le_length]
  · exact List.mem_append_right _ List.mem_cons_self
  · rw [List.length_append, List.length_cons]
    omega

/-- The same comes again only after `n` others. -/
def Spaced (n : ℕ) (l : List α) : Prop :=
  ∀ xs x ys zs, l = xs ++ x :: (ys ++ x :: zs) → n ≤ ys.length

theorem spaced_nil (n : ℕ) : Spaced n ([] : List α) := fun xs x ys zs h => by simp at h

/-- One that is none of the most recent is spaced from them. -/
theorem Spaced.concat {n : ℕ} {l : List α} (h : Spaced n l) {x : α} (hx : x ∉ recent n l) :
    Spaced n (l ++ [x]) := by
  intro xs y ys zs heq
  rcases List.eq_nil_or_concat zs with rfl | ⟨zs, z, rfl⟩
  · -- `x` is the second of the two
    have hsplit : l ++ [x] = xs ++ y :: ys ++ [y] := by
      rw [heq, List.append_assoc, List.cons_append]
    obtain ⟨rfl, hlast⟩ := List.append_inj' hsplit rfl
    obtain rfl : x = y := by simpa using hlast
    by_contra hfew
    exact hx (mem_recent (Nat.lt_of_not_le hfew))
  · have hsplit : l ++ [x] = xs ++ y :: (ys ++ y :: zs) ++ [z] := by
      rw [heq]
      simp
    exact h xs y ys zs (List.append_inj' hsplit rfl).1

/-- What comes behind one, `n` places far, is another each time. -/
theorem Spaced.behind {n : ℕ} {xs ys : List α} {x : α} (h : Spaced n (xs ++ x :: ys)) :
    x ∉ ys.take n ∧ (ys.take n).Nodup := by
  induction ys generalizing xs x with
  | nil => simp
  | cons y ys ih =>
    constructor
    · intro hx
      obtain ⟨us, vs, hsplit⟩ := List.append_of_mem hx
      have hlong := congrArg List.length hsplit
      simp only [List.length_append, List.length_cons, List.length_take] at hlong
      have hall : y :: ys = us ++ x :: (vs ++ (y :: ys).drop n) := by
        conv_lhs => rw [← List.take_append_drop n (y :: ys), hsplit]
        simp
      have := h xs x us _ (congrArg (fun l => xs ++ x :: l) hall)
      omega
    · have hrest := @ih (xs ++ [x]) y (by rwa [List.append_assoc])
      cases n with
      | zero => simp
      | succ n =>
        have hless : (ys.take n).Sublist (ys.take (n + 1)) :=
          List.take_sublist_take_left (Nat.le_succ n)
        rw [List.take_succ_cons, List.nodup_cons]
        exact ⟨fun hy => hrest.1 (hless.subset hy), hrest.2.sublist hless⟩

/-- The most recent are each another. -/
theorem Spaced.nodup_recent {n : ℕ} {l : List α} (h : Spaced n l) : (recent n l).Nodup := by
  cases hrecent : recent n l with
  | nil => exact List.nodup_nil
  | cons y ys =>
    have hlength := length_recent n l
    rw [hrecent, List.length_cons] at hlength
    have hsplit : l = l.take (l.length - n) ++ y :: ys := by
      rw [← hrecent, recent, List.take_append_drop]
    rw [hsplit] at h
    have hbehind := h.behind
    rw [List.take_of_length_le (by omega)] at hbehind
    exact List.nodup_cons.2 hbehind

end Fifo

end Rurge
