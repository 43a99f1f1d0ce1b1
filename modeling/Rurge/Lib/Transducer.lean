import Mathlib

/-!
# Machines that turn one letter into one

A machine takes a letter, goes to another state and gives a letter.  What it makes of a word that
comes in pieces is what it makes of the whole (`calls_eq_feed`), and a machine that undoes each of
its steps undoes what it makes of a word (`feed_feed`).
-/

namespace Transducer

variable {σ τ α β : Type*}

/-- The state after a word, and what the machine gave. -/
def feed (step : σ → α → σ × β) : σ → List α → σ × List β
  | s, [] => (s, [])
  | s, a :: as =>
    let (s, b) := step s a
    let (s, bs) := feed step s as
    (s, b :: bs)

/-- The calls of `apply`, one for each piece, and all that they gave. -/
def calls (apply : σ → List α → σ × List β) : σ → List (List α) → σ × List β
  | s, [] => (s, [])
  | s, piece :: pieces =>
    let (s, out) := apply s piece
    let (s, rest) := calls apply s pieces
    (s, out ++ rest)

section Feed

variable {step : σ → α → σ × β}

@[simp] theorem feed_nil (s : σ) : feed step s [] = (s, []) := rfl

@[simp] theorem feed_cons (s : σ) (a : α) (as : List α) :
    feed step s (a :: as) =
      ((feed step (step s a).1 as).1, (step s a).2 :: (feed step (step s a).1 as).2) := rfl

theorem feed_append (s : σ) (as bs : List α) :
    feed step s (as ++ bs) = ((feed step (feed step s as).1 bs).1,
      (feed step s as).2 ++ (feed step (feed step s as).1 bs).2) := by
  induction as generalizing s with
  | nil => rfl
  | cons a as ih => simp [ih]

/-- **The pieces do not matter.** -/
theorem calls_eq_feed {apply : σ → List α → σ × List β} (h : ∀ s as, apply s as = feed step s as)
    (s : σ) (pieces : List (List α)) : calls apply s pieces = feed step s pieces.flatten := by
  induction pieces generalizing s with
  | nil => rfl
  | cons piece pieces ih =>
    rw [calls, h, List.flatten_cons, feed_append]
    simp only [ih]

/-- What each letter becomes, of a machine whose state tells how many letters came. -/
theorem feed_eq_mapIdx {At : ℕ → σ → Prop} {out : ℕ → α → β}
    (hstep : ∀ k s a, At k s → At (k + 1) (step s a).1 ∧ (step s a).2 = out k a) {k : ℕ} {s : σ}
    (hs : At k s) (as : List α) : (feed step s as).2 = as.mapIdx fun i a => out (k + i) a := by
  induction as generalizing k s with
  | nil => rfl
  | cons a as ih =>
    obtain ⟨hnext, hout⟩ := hstep k s a hs
    rw [feed_cons, List.mapIdx_cons, hout, ih hnext]
    simp [Nat.add_assoc, Nat.add_comm 1]

end Feed

/-- **A machine that undoes each step undoes every word.** -/
theorem feed_feed {step : σ → α → σ × β} {back : τ → β → τ × α} {R : σ → τ → Prop}
    (h : ∀ s t a, R s t →
      R (step s a).1 (back t (step s a).2).1 ∧ (back t (step s a).2).2 = a)
    {s : σ} {t : τ} (hst : R s t) (as : List α) : (feed back t (feed step s as).2).2 = as := by
  induction as generalizing s t with
  | nil => rfl
  | cons a as ih =>
    obtain ⟨hnext, hback⟩ := h s t a hst
    rw [feed_cons, feed_cons, hback]
    exact congrArg (a :: ·) (ih hnext)

end Transducer
