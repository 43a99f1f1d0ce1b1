import Mathlib

/-!
# Readers of a text from its front

A reader takes a value off the front of a text, or fails.  It is `Stable` when it reads of a longer
text what it reads of the text, and leaves what was added; then of a text that is cut anywhere it
reads the same value, or it fails (`Stable.cut`).
-/

namespace Rurge

universe u v

/-- What takes a value off the front of a text, or fails. -/
abbrev Reader (β : Type u) (ε : Type v) (α : Type u) := StateT (List β) (Except ε) α

namespace Reader

variable {α β γ : Type u} {ε : Type v}

/-- What is read of a text is read of a longer one, and what was added is left. -/
structure Stable (r : Reader β ε α) : Prop where
  more {s : List β} {a : α} {t : List β} (q : List β) (h : r s = .ok (a, t)) :
    r (s ++ q) = .ok (a, t ++ q)

/-- The next element, or the failure `e` at the end. -/
def next (e : ε) : Reader β ε β
  | [] => .error e
  | b :: s => .ok (b, s)

/-- The next `n` elements, or the failure `e` when there are fewer. -/
def take (e : ε) (n : ℕ) : Reader β ε (List β) := fun s =>
  if s.length < n then .error e else .ok (s.take n, s.drop n)

/-! ### What a reader gives -/

theorem bind_eq_ok {r : Reader β ε α} {k : α → Reader β ε γ} {s : List β} {x : γ × List β} :
    (r >>= k) s = .ok x ↔ ∃ a t, r s = .ok (a, t) ∧ k a t = .ok x := by
  show (r s >>= fun p => k p.1 p.2) = .ok x ↔ _
  cases hr : r s with
  | error e =>
    constructor
    · intro h
      cases h
    · rintro ⟨a, t, h, -⟩
      cases h
  | ok p =>
    obtain ⟨a, t⟩ := p
    constructor
    · intro h
      exact ⟨a, t, rfl, h⟩
    · rintro ⟨a', t', heq, h⟩
      cases heq
      exact h

theorem bind_ok {r : Reader β ε α} {k : α → Reader β ε γ} {s t : List β} {a : α}
    (h : r s = .ok (a, t)) : (r >>= k) s = k a t := by
  show (r s >>= fun p => k p.1 p.2) = _
  rw [h]
  rfl

theorem bind_error {r : Reader β ε α} {k : α → Reader β ε γ} {s : List β} {e : ε}
    (h : r s = .error e) : (r >>= k) s = .error e := by
  show (r s >>= fun p => k p.1 p.2) = _
  rw [h]
  rfl

theorem lift_apply (x : Except ε α) (s : List β) :
    (liftM x : Reader β ε α) s = x.map (·, s) := by
  cases x <;> rfl

theorem ite_apply {p : Prop} [Decidable p] (r r' : Reader β ε α) (s : List β) :
    (if p then r else r') s = if p then r s else r' s := by
  split_ifs <;> rfl

/-! ### What does not fail so -/

theorem ok_ne_error (a : α) (e : ε) : (Except.ok a : Except ε α) ≠ .error e := by
  intro h
  cases h

theorem bind_ne_error {r : Reader β ε α} {k : α → Reader β ε γ} {s : List β} {e : ε}
    (hr : r s ≠ .error e) (hk : ∀ a t, r s = .ok (a, t) → k a t ≠ .error e) :
    (r >>= k) s ≠ .error e := by
  show (r s >>= fun p => k p.1 p.2) ≠ .error e
  cases hread : r s with
  | error e' =>
    intro h
    cases h
    exact hr hread
  | ok p => exact hk p.1 p.2 hread

theorem ite_ne_error {p : Prop} [Decidable p] {r r' : Reader β ε α} {s : List β} {e : ε}
    (hr : p → r s ≠ .error e) (hr' : ¬ p → r' s ≠ .error e) :
    (if p then r else r') s ≠ .error e := by
  rw [ite_apply]
  split_ifs with h
  · exact hr h
  · exact hr' h

theorem lift_ne_error {x : Except ε α} {e : ε} (h : x ≠ .error e) (s : List β) :
    (liftM x : Reader β ε α) s ≠ .error e := by
  rw [lift_apply]
  intro herror
  cases x with
  | error e' =>
    cases herror
    exact h rfl
  | ok a => cases herror

theorem pure_ne_error (a : α) (s : List β) (e : ε) : (pure a : Reader β ε α) s ≠ .error e := by
  intro h
  cases h

theorem throw_ne_error {e' e : ε} (h : e' ≠ e) (s : List β) :
    (throw e' : Reader β ε α) s ≠ .error e := by
  intro herror
  cases herror
  exact h rfl

/-! ### What is stable -/

theorem stable_lift (x : Except ε α) : Stable (liftM x : Reader β ε α) := by
  refine ⟨fun {s a t} q h => ?_⟩
  rw [lift_apply] at h ⊢
  cases x with
  | error e => cases h
  | ok b =>
    cases h
    rfl

theorem stable_pure (a : α) : Stable (pure a : Reader β ε α) := by
  refine ⟨fun {s b t} q h => ?_⟩
  cases h
  rfl

theorem stable_throw (e : ε) : Stable (throw e : Reader β ε α) := by
  refine ⟨fun {s a t} q h => ?_⟩
  cases h

theorem Stable.bind {r : Reader β ε α} {k : α → Reader β ε γ} (hr : Stable r)
    (hk : ∀ a, Stable (k a)) : Stable (r >>= k) := by
  refine ⟨fun {s c t} q h => ?_⟩
  obtain ⟨a, t', hread, hrest⟩ := bind_eq_ok.1 h
  rw [bind_ok (hr.more q hread)]
  exact (hk a).more q hrest

theorem Stable.ite {p : Prop} [Decidable p] {r r' : Reader β ε α} (hr : Stable r)
    (hr' : Stable r') : Stable (if p then r else r') := by
  split_ifs
  · exact hr
  · exact hr'

theorem next_cons (e : ε) (b : β) (s : List β) :
    (next e : Reader β ε β) (b :: s) = .ok (b, s) := rfl

theorem stable_next (e : ε) : Stable (next e : Reader β ε β) := by
  refine ⟨fun {s a t} q h => ?_⟩
  cases s with
  | nil => cases h
  | cons b s =>
    cases h
    rfl

theorem stable_take (e : ε) (n : ℕ) : Stable (take e n : Reader β ε (List β)) := by
  refine ⟨fun {s a t} q h => ?_⟩
  unfold take at h ⊢
  split_ifs at h with hlength
  cases h
  have hle : n ≤ s.length := not_lt.1 hlength
  rw [if_neg (by rw [List.length_append]; omega), List.take_append_of_le_length hle,
    List.drop_append_of_le_length hle]

/-! ### A text that is cut -/

/-- **Of a text that is cut the same value is read, or nothing.** -/
theorem Stable.cut {r : Reader β ε α} (hr : Stable r) {p q t : List β} {a : α}
    (h : r (p ++ q) = .ok (a, t)) :
    (∃ t', r p = .ok (a, t') ∧ t = t' ++ q) ∨ ∃ e, r p = .error e := by
  cases hp : r p with
  | error e => exact .inr ⟨e, rfl⟩
  | ok x =>
    obtain ⟨b, t'⟩ := x
    have heq : Except.ok (b, t' ++ q) = Except.ok (a, t) := (hr.more q hp).symm.trans h
    cases heq
    exact .inl ⟨t', rfl, rfl⟩

end Reader

end Rurge
