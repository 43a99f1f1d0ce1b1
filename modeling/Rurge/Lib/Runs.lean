import Mathlib

/-!
# Runs of a machine

A machine takes one action after the other, `step` saying what an action makes of a state.  What
every step keeps, a run keeps (`run_invariant`), and what every step keeps that meets a condition, a
run keeps whose steps all meet it (`Along.invariant`), in every state it comes through
(`Along.always`).
-/

namespace Runs

variable {σ α : Type*} (step : σ → α → σ)

/-- The state after the actions `as`. -/
def run (s : σ) (as : List α) : σ := as.foldl step s

@[simp] theorem run_nil (s : σ) : run step s [] = s := rfl

@[simp] theorem run_cons (s : σ) (a : α) (as : List α) :
    run step s (a :: as) = run step (step s a) as := rfl

theorem run_append (s : σ) (as bs : List α) :
    run step s (as ++ bs) = run step (run step s as) bs := List.foldl_append

/-- Every step of the run meets `C`, a condition on the action and on the state before it. -/
def Along (C : σ → α → Prop) : σ → List α → Prop
  | _, [] => True
  | s, a :: as => C s a ∧ Along C (step s a) as

variable {step} {C D : σ → α → Prop} {I : σ → Prop}

@[simp] theorem along_nil (s : σ) : Along step C s [] := trivial

@[simp] theorem along_cons {s : σ} {a : α} {as : List α} :
    Along step C s (a :: as) ↔ C s a ∧ Along step C (step s a) as := Iff.rfl

theorem along_of_forall {P : α → Prop} {s : σ} {as : List α} (h : ∀ a ∈ as, P a) :
    Along step (fun _ a => P a) s as := by
  induction as generalizing s with
  | nil => trivial
  | cons a as ih => exact ⟨h a List.mem_cons_self, ih fun b hb => h b (List.mem_cons_of_mem _ hb)⟩

/-- What every step keeps that meets the condition, the run keeps. -/
theorem Along.invariant (hstep : ∀ s a, I s → C s a → I (step s a)) {s : σ} {as : List α}
    (h : Along step C s as) (hs : I s) : I (run step s as) := by
  induction as generalizing s with
  | nil => exact hs
  | cons a as ih => exact ih h.2 (hstep s a hs h.1)

/-- A measure that every step lowers bounds the run. -/
theorem Along.length_le (m : σ → ℕ) (hstep : ∀ s a, I s → C s a → I (step s a))
    (hlower : ∀ s a, I s → C s a → m (step s a) < m s) {s : σ} {as : List α}
    (h : Along step C s as) (hs : I s) : as.length + m (run step s as) ≤ m s := by
  induction as generalizing s with
  | nil => simp
  | cons a as ih =>
    have hrest := ih h.2 (hstep s a hs h.1)
    have hfirst := hlower s a hs h.1
    rw [List.length_cons, run_cons]
    omega

/-- What every step keeps, every run keeps. -/
theorem run_invariant (hstep : ∀ s a, I s → I (step s a)) {s : σ} (hs : I s) (as : List α) :
    I (run step s as) := by
  induction as generalizing s with
  | nil => exact hs
  | cons a as ih => exact ih (hstep s a hs)

/-- A condition that the invariant and another condition imply, the invariant resting on it. -/
theorem Along.imp (hstep : ∀ s a, I s → C s a → I (step s a)) (hCD : ∀ s a, I s → C s a → D s a)
    {s : σ} {as : List α} (h : Along step C s as) (hs : I s) : Along step D s as := by
  induction as generalizing s with
  | nil => trivial
  | cons a as ih => exact ⟨hCD s a hs h.1, ih h.2 (hstep s a hs h.1)⟩

/-- A condition that the invariant and another condition imply. -/
theorem Along.mono (hstep : ∀ s a, I s → I (step s a)) (hCD : ∀ s a, I s → C s a → D s a) {s : σ}
    {as : List α} (h : Along step C s as) (hs : I s) : Along step D s as :=
  h.imp (fun s a hs _ => hstep s a hs) hCD hs

variable (step) in
/-- Every state of the run meets `P`. -/
def Always (P : σ → Prop) : σ → List α → Prop
  | s, [] => P s
  | s, a :: as => P s ∧ Always P (step s a) as

variable {P : σ → Prop}

theorem Always.head {s : σ} {as : List α} (h : Always step P s as) : P s := by
  cases as with
  | nil => exact h
  | cons => exact h.1

theorem always_iff {s : σ} {as : List α} :
    Always step P s as ↔ ∀ n, P (run step s (as.take n)) := by
  induction as generalizing s with
  | nil => simp [Always]
  | cons a as ih =>
    refine ⟨fun h n => ?_, fun h => ⟨h 0, ih.2 fun n => h (n + 1)⟩⟩
    cases n with
    | zero => exact h.1
    | succ n => exact ih.1 h.2 n

/-- What every step keeps that meets the condition holds all through the run. -/
theorem Along.always (hstep : ∀ s a, I s → C s a → I (step s a)) {s : σ} {as : List α}
    (h : Along step C s as) (hs : I s) : Always step I s as := by
  induction as generalizing s with
  | nil => exact hs
  | cons a as ih => exact ⟨hs, ih h.2 (hstep s a hs h.1)⟩

theorem Always.mono (hPI : ∀ s, P s → I s) {s : σ} {as : List α} (h : Always step P s as) :
    Always step I s as := by
  rw [always_iff] at h ⊢
  exact fun n => hPI _ (h n)

theorem Always.steps {s : σ} {as : List α} (h : Always step P s as) :
    Along step (fun s _ => P s) s as := by
  induction as generalizing s with
  | nil => trivial
  | cons a as ih => exact ⟨h.1, ih h.2⟩

/-- A step after which `P` holds meets the condition: then every step does, where `P` always holds.
-/
theorem Always.along (hstep : ∀ s a, I s → I (step s a))
    (hC : ∀ s a, I s → P (step s a) → C s a) {s : σ} {as : List α} (h : Always step P s as)
    (hs : I s) : Along step C s as := by
  induction as generalizing s with
  | nil => trivial
  | cons a as ih => exact ⟨hC s a hs h.2.head, ih h.2 (hstep s a hs)⟩

/-- Two conditions on the steps, met together. -/
theorem Along.and {s : σ} {as : List α} (hC : Along step C s as) (hD : Along step D s as) :
    Along step (fun s a => C s a ∧ D s a) s as := by
  induction as generalizing s with
  | nil => trivial
  | cons a as ih => exact ⟨⟨hC.1, hD.1⟩, ih hC.2 hD.2⟩

end Runs
