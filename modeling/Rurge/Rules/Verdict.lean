import Mathlib

/-!
# Verdicts

What a rule says of a session, and how the verdicts of several parts make one: `Verdict.all` for
`AND`, `Verdict.any` for `OR` and for the lines of a set.  A part that cannot decide yet leaves a
mark in `Needs`; `stillNeeds` says what a rule that none of its parts decided waits for.
-/

namespace Rurge

inductive Verdict
  | matched
  | noMatch
  /-- The rule cannot be decided before the destination is resolved. -/
  | needsResolve
  /-- The rule cannot be decided before the process that opened the session is known. -/
  | needsProcess
  /-- The rule cannot be decided before the connection exists. -/
  | needsConnection
  deriving DecidableEq, Repr

namespace Verdict

/-- `Verdict::from`. -/
def ofBool (b : Bool) : Verdict := if b then matched else noMatch

@[simp] theorem ofBool_eq_matched {b : Bool} : ofBool b = matched ↔ b = true := by
  cases b <;> simp [ofBool]

@[simp] theorem ofBool_eq_noMatch {b : Bool} : ofBool b = noMatch ↔ b = false := by
  cases b <;> simp [ofBool]

/-- The verdict of a rule that is decided. -/
def Decided (v : Verdict) : Prop := v = matched ∨ v = noMatch

instance : DecidablePred Decided := fun v => inferInstanceAs (Decidable (v = matched ∨ v = noMatch))

theorem ofBool_decided (b : Bool) : (ofBool b).Decided := by
  cases b <;> simp [ofBool, Decided]

end Verdict

/-- What the parts of a rule have been waiting for so far. -/
structure Needs where
  connection : Bool
  process : Bool
  resolve : Bool

namespace Needs

/-- Nothing yet. -/
def none : Needs := ⟨false, false, false⟩

/-- What one more part waits for. -/
def note (n : Needs) : Verdict → Needs
  | .needsConnection => { n with connection := true }
  | .needsProcess => { n with process := true }
  | .needsResolve => { n with resolve := true }
  | .matched | .noMatch => n

/-- What the parts `vs` wait for. -/
def of (vs : List Verdict) : Needs :=
  ⟨Verdict.needsConnection ∈ vs, Verdict.needsProcess ∈ vs, Verdict.needsResolve ∈ vs⟩

@[simp] theorem of_nil : of [] = none := rfl

end Needs

/-- The connection first, then the process, then the lookup. -/
def stillNeeds (n : Needs) : Option Verdict :=
  if n.connection then some .needsConnection
  else if n.process then some .needsProcess
  else if n.resolve then some .needsResolve
  else Option.none

namespace Verdict

/-- The verdict of an `AND`. -/
def all (vs : List Verdict) : Verdict :=
  if noMatch ∈ vs then noMatch else (stillNeeds (Needs.of vs)).getD matched

/-- The verdict of an `OR`. -/
def any (vs : List Verdict) : Verdict :=
  if matched ∈ vs then matched else (stillNeeds (Needs.of vs)).getD noMatch

/-- The verdict of a `NOT`: not knowing stays not knowing. -/
def not : Verdict → Verdict
  | matched => noMatch
  | noMatch => matched
  | v => v

/-! ### What a combination can be -/

theorem stillNeeds_ne_matched {n : Needs} : stillNeeds n ≠ some matched := by
  unfold stillNeeds; split_ifs <;> simp

theorem stillNeeds_ne_noMatch {n : Needs} : stillNeeds n ≠ some noMatch := by
  unfold stillNeeds; split_ifs <;> simp

theorem stillNeeds_of_eq_some {vs : List Verdict} {v : Verdict}
    (h : stillNeeds (Needs.of vs) = some v) : v ∈ vs := by
  unfold stillNeeds at h
  split_ifs at h with h₁ h₂ h₃
  · obtain rfl := Option.some.inj h; simpa [Needs.of] using h₁
  · obtain rfl := Option.some.inj h; simpa [Needs.of] using h₂
  · obtain rfl := Option.some.inj h; simpa [Needs.of] using h₃

theorem stillNeeds_of_eq_none {vs : List Verdict} :
    stillNeeds (Needs.of vs) = Option.none ↔ ∀ v ∈ vs, v.Decided := by
  constructor
  · intro h v hv
    unfold stillNeeds at h
    split_ifs at h with h₁ h₂ h₃
    simp only [Needs.of, decide_eq_true_eq] at h₁ h₂ h₃
    cases v with
    | matched => exact Or.inl rfl
    | noMatch => exact Or.inr rfl
    | needsResolve => exact absurd hv h₃
    | needsProcess => exact absurd hv h₂
    | needsConnection => exact absurd hv h₁
  · intro h
    have hno : ∀ v, ¬ v.Decided → v ∉ vs := fun v hv hmem => hv (h v hmem)
    have h₁ := hno needsConnection (by decide)
    have h₂ := hno needsProcess (by decide)
    have h₃ := hno needsResolve (by decide)
    simp [stillNeeds, Needs.of, h₁, h₂, h₃]

theorem any_eq_matched {vs : List Verdict} : any vs = matched ↔ matched ∈ vs := by
  unfold any
  split_ifs with h
  · simp [h]
  · simp only [h, iff_false]
    cases hs : stillNeeds (Needs.of vs) with
    | none => simp
    | some v =>
      rintro rfl
      exact stillNeeds_ne_matched hs

theorem any_eq_noMatch {vs : List Verdict} : any vs = noMatch ↔ ∀ v ∈ vs, v = noMatch := by
  unfold any
  split_ifs with h
  · simp only [false_iff, not_forall]
    exact ⟨matched, h, by simp⟩
  · cases hs : stillNeeds (Needs.of vs) with
    | none =>
      simp only [Option.getD_none, true_iff]
      intro v hv
      rcases stillNeeds_of_eq_none.1 hs v hv with rfl | rfl
      · exact absurd hv h
      · rfl
    | some v =>
      simp only [Option.getD_some]
      have hne : v ≠ noMatch := by rintro rfl; exact stillNeeds_ne_noMatch hs
      simp only [hne, false_iff, not_forall]
      exact ⟨v, stillNeeds_of_eq_some hs, hne⟩

theorem all_eq_noMatch {vs : List Verdict} : all vs = noMatch ↔ noMatch ∈ vs := by
  unfold all
  split_ifs with h
  · simp [h]
  · simp only [h, iff_false]
    cases hs : stillNeeds (Needs.of vs) with
    | none => simp
    | some v =>
      rintro rfl
      exact stillNeeds_ne_noMatch hs

theorem all_eq_matched {vs : List Verdict} : all vs = matched ↔ ∀ v ∈ vs, v = matched := by
  unfold all
  split_ifs with h
  · simp only [false_iff, not_forall]
    exact ⟨noMatch, h, by simp⟩
  · cases hs : stillNeeds (Needs.of vs) with
    | none =>
      simp only [Option.getD_none, true_iff]
      intro v hv
      rcases stillNeeds_of_eq_none.1 hs v hv with rfl | rfl
      · rfl
      · exact absurd hv h
    | some v =>
      simp only [Option.getD_some]
      have hne : v ≠ matched := by rintro rfl; exact stillNeeds_ne_matched hs
      simp only [hne, false_iff, not_forall]
      exact ⟨v, stillNeeds_of_eq_some hs, hne⟩

/-- What an `OR` says depends on which verdicts its parts give, misses apart. -/
theorem any_congr {vs ws : List Verdict} (h : ∀ v, v ≠ noMatch → (v ∈ vs ↔ v ∈ ws)) :
    any vs = any ws := by
  unfold any Needs.of
  simp only [h matched (by simp), h needsConnection (by simp), h needsProcess (by simp),
    h needsResolve (by simp)]

/-- A combination is decided, or it is what one of the parts says. -/
theorem all_decided_or_mem (vs : List Verdict) : (all vs).Decided ∨ all vs ∈ vs := by
  unfold all
  split_ifs with h
  · exact Or.inl (Or.inr rfl)
  · cases hs : stillNeeds (Needs.of vs) with
    | none => exact Or.inl (Or.inl rfl)
    | some v => exact Or.inr (stillNeeds_of_eq_some hs)

theorem any_decided_or_mem (vs : List Verdict) : (any vs).Decided ∨ any vs ∈ vs := by
  unfold any
  split_ifs with h
  · exact Or.inl (Or.inl rfl)
  · cases hs : stillNeeds (Needs.of vs) with
    | none => exact Or.inl (Or.inr rfl)
    | some v => exact Or.inr (stillNeeds_of_eq_some hs)

@[simp] theorem not_eq_matched {v : Verdict} : v.not = matched ↔ v = noMatch := by
  cases v <;> simp [not]

@[simp] theorem not_eq_noMatch {v : Verdict} : v.not = noMatch ↔ v = matched := by
  cases v <;> simp [not]

theorem not_decided_or_eq (v : Verdict) : v.not.Decided ∨ v.not = v := by
  cases v <;> simp [not, Decided]

end Verdict

end Rurge
