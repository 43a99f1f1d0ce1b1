import Mathlib.Logic.Relation

/-!
# Programs over operations, and the lives of a process that runs them

A `Prog` asks for one operation at a time and goes on by the answer.  What an operation may answer
and do to the state is a relation `step`, so an operation may fail, or do a part of its work.
`Runs` is a run to the end; `Holds` is the weakest precondition of a postcondition together with a
relation `G` that every single operation on the way has to satisfy, which is what is known when the
process dies between two operations.  `Asks` says which operations a program may ask for at all.

A `Process` has a program for each call and one for its start.  Its configurations are taken one
operation at a time, and it may die in any of them: `Process.sound` gets, from a condition at rest,
one that a death leaves, and `Holds` of each program, what is true in every configuration reached.
-/

namespace Rurge

/-- A program over the operations `Op`: it has ended, or asks for an operation and goes on by its
answer. -/
inductive Prog (Op : Type) (Ans : Op → Type) (α : Type)
  | done (a : α)
  | ask (o : Op) (k : Ans o → Prog Op Ans α)

namespace Prog

variable {Op : Type} {Ans : Op → Type} {α β S : Type}

/-- One program after another. -/
def bind : Prog Op Ans α → (α → Prog Op Ans β) → Prog Op Ans β
  | done a, f => f a
  | ask o k, f => ask o fun x => (k x).bind f

instance : Monad (Prog Op Ans) where
  pure := done
  bind := bind

/-- A single operation. -/
def call (o : Op) : Prog Op Ans (Ans o) := ask o done

@[simp] theorem done_bind (a : α) (f : α → Prog Op Ans β) : (done a >>= f) = f a := rfl

@[simp] theorem ask_bind (o : Op) (k : Ans o → Prog Op Ans α) (f : α → Prog Op Ans β) :
    (ask o k >>= f) = ask o fun x => k x >>= f := rfl

/-- A program that may fail, and what is done with its result when it did not. -/
def andThen {ε : Type} (p : Prog Op Ans (Except ε α)) (f : α → Prog Op Ans (Except ε β)) :
    Prog Op Ans (Except ε β) :=
  p >>= fun
    | .ok a => f a
    | .error e => done (.error e)

variable (step : (o : Op) → S → Ans o → S → Prop) {G H : S → S → Prop}

/-! ### Runs to the end -/

/-- `Runs p s a t`: the program can run from `s` to its end, answering `a` and leaving `t`. -/
inductive Runs : Prog Op Ans α → S → α → S → Prop
  | done (a : α) (s : S) : Runs (done a) s a s
  | ask {o : Op} {k : Ans o → Prog Op Ans α} {s t u : S} {x : Ans o} {a : α}
      (h : step o s x t) (rest : Runs (k x) t a u) : Runs (ask o k) s a u

/-- A run in an environment that answers every operation in one way. -/
def play (env : (o : Op) → S → Ans o × S) : Prog Op Ans α → S → α × S
  | done a, s => (a, s)
  | ask o k, s => (k (env o s).1).play env (env o s).2

theorem play_runs {env : (o : Op) → S → Ans o × S}
    (henv : ∀ o s, step o s (env o s).1 (env o s).2) (p : Prog Op Ans α) (s : S) :
    Runs step p s (p.play env s).1 (p.play env s).2 := by
  induction p generalizing s with
  | done a => exact .done a s
  | ask o k ih => exact .ask (henv o s) (ih _ _)

/-- Whether every operation of the run in an environment meets `P`. -/
def meets (env : (o : Op) → S → Ans o × S) (P : Op → S → Bool) : Prog Op Ans α → S → Bool
  | done _, _ => true
  | ask o k, s => P o s && (k (env o s).1).meets env P (env o s).2

theorem meets_runs {env : (o : Op) → S → Ans o × S} {P : Op → S → Bool}
    (henv : ∀ o s, P o s = true → step o s (env o s).1 (env o s).2) {p : Prog Op Ans α} {s : S}
    (h : p.meets env P s = true) : Runs step p s (p.play env s).1 (p.play env s).2 := by
  induction p generalizing s with
  | done a => exact .done a s
  | ask o k ih =>
    obtain ⟨ho, hk⟩ := Bool.and_eq_true_iff.1 h
    exact .ask (henv o s ho) (ih _ hk)

/-! ### What every operation and the end satisfy -/

/-- Every operation of every run of the program from `s` satisfies `G`, and the end satisfies
`Q`. -/
def Holds (G : S → S → Prop) : Prog Op Ans α → (α → S → Prop) → S → Prop
  | done a, Q, s => Q a s
  | ask o k, Q, s => ∀ x t, step o s x t → G s t ∧ (k x).Holds G Q t

variable {step} {p : Prog Op Ans α} {Q Q' : α → S → Prop} {s : S}

@[simp] theorem holds_done {a : α} : Holds step G (done a) Q s ↔ Q a s := Iff.rfl

@[simp] theorem holds_pure {a : α} : Holds step G (pure a) Q s ↔ Q a s := Iff.rfl

theorem holds_ask {o : Op} {k : Ans o → Prog Op Ans α} :
    Holds step G (ask o k) Q s ↔ ∀ x t, step o s x t → G s t ∧ Holds step G (k x) Q t := Iff.rfl

theorem holds_bind {f : α → Prog Op Ans β} {R : β → S → Prop} :
    Holds step G (p >>= f) R s ↔ Holds step G p (fun a t => Holds step G (f a) R t) s := by
  induction p generalizing s with
  | done a => rfl
  | ask o k ih => simp only [ask_bind, holds_ask, ih]

/-- Where every operation satisfies `G`, every program does. -/
theorem holds_of_step (h : ∀ o s x t, step o s x t → G s t) (p : Prog Op Ans α) (s : S) :
    Holds step G p (fun _ _ => True) s := by
  induction p generalizing s with
  | done a => trivial
  | ask o k ih => exact fun x t hxt => ⟨h o s x t hxt, ih x t⟩

/-- The rule of consequence. -/
theorem Holds.mono (h : Holds step G p Q s) (hQ : ∀ a t, Q a t → Q' a t) :
    Holds step G p Q' s := by
  induction p generalizing s with
  | done a => exact hQ a s h
  | ask o k ih => exact fun x t hxt => ⟨(h x t hxt).1, ih x (h x t hxt).2⟩

/-- The rule for one program after another. -/
theorem Holds.bind {f : α → Prog Op Ans β} {R : β → S → Prop} (h : Holds step G p Q s)
    (hf : ∀ a t, Q a t → Holds step G (f a) R t) : Holds step G (p >>= f) R s :=
  holds_bind.2 (h.mono hf)

/-- The rule for a program that may fail. -/
theorem Holds.andThen {ε : Type} {p : Prog Op Ans (Except ε α)}
    {f : α → Prog Op Ans (Except ε β)} {Q : Except ε α → S → Prop} {R : Except ε β → S → Prop}
    (h : Holds step G p Q s) (hok : ∀ a t, Q (.ok a) t → Holds step G (f a) R t)
    (herr : ∀ e t, Q (.error e) t → R (.error e) t) : Holds step G (p.andThen f) R s := by
  refine h.bind fun r t hr => ?_
  cases r with
  | ok a => exact hok a t hr
  | error e => exact herr e t hr

/-- A weaker relation may be asked of the operations. -/
theorem Holds.weaken (h : Holds step G p Q s) (hGH : ∀ s t, G s t → H s t) :
    Holds step H p Q s := by
  induction p generalizing s with
  | done a => exact h
  | ask o k ih => exact fun x t hxt => ⟨hGH s t (h x t hxt).1, ih x (h x t hxt).2⟩

/-- An environment that does less keeps what holds. -/
theorem Holds.restrict {step' : (o : Op) → S → Ans o → S → Prop} (h : Holds step G p Q s)
    (hstep : ∀ o s x t, step' o s x t → step o s x t) : Holds step' G p Q s := by
  induction p generalizing s with
  | done a => exact h
  | ask o k ih => exact fun x t hxt =>
      ⟨(h x t (hstep o s x t hxt)).1, ih x (h x t (hstep o s x t hxt)).2⟩

theorem Runs.relax {step' : (o : Op) → S → Ans o → S → Prop} {a : α} {t : S}
    (h : Runs step' p s a t) (hstep : ∀ o s x t, step' o s x t → step o s x t) :
    Runs step p s a t := by
  induction h with
  | done a s => exact .done a s
  | ask hx _ ih => exact .ask (hstep _ _ _ _ hx) ih

theorem Holds.runs (h : Holds step G p Q s) {a : α} {t : S} (hr : Runs step p s a t) : Q a t := by
  induction hr with
  | done a s => exact h
  | ask hxt _ ih => exact ih (h _ _ hxt).2

/-! ### What a program asks for -/

/-- Every operation the program may ask for satisfies `P`, and every answer it may give `Q`. -/
def Asks (P : Op → Prop) (Q : α → Prop) : Prog Op Ans α → Prop
  | done a => Q a
  | ask o k => P o ∧ ∀ x, (k x).Asks P Q

section Asks

variable {P P' : Op → Prop} {Q Q' : α → Prop} {R : β → Prop}

@[simp] theorem asks_done {a : α} : Asks P Q (done a : Prog Op Ans α) ↔ Q a := Iff.rfl

@[simp] theorem asks_pure {a : α} : Asks P Q (pure a : Prog Op Ans α) ↔ Q a := Iff.rfl

theorem asks_call {o : Op} {Q : Ans o → Prop} (hP : P o) (hQ : ∀ x, Q x) :
    Asks P Q (call o : Prog Op Ans (Ans o)) :=
  ⟨hP, hQ⟩

theorem Asks.bind {f : α → Prog Op Ans β} (h : Asks P Q p) (hf : ∀ a, Q a → Asks P R (f a)) :
    Asks P R (p >>= f) := by
  induction p with
  | done a => exact hf a h
  | ask o k ih => exact ⟨h.1, fun x => ih x (h.2 x)⟩

theorem Asks.andThen {ε : Type} {p : Prog Op Ans (Except ε α)}
    {f : α → Prog Op Ans (Except ε β)} {Q : Except ε α → Prop} {R : Except ε β → Prop}
    (h : Asks P Q p) (hf : ∀ a, Q (.ok a) → Asks P R (f a))
    (he : ∀ e, Q (.error e) → R (.error e)) : Asks P R (p.andThen f) := by
  refine h.bind fun r hr => ?_
  cases r with
  | ok a => exact hf a hr
  | error e => exact he e hr

/-- A program that asks for nothing but `P` keeps `J`, and relates where it starts to where it
ends by `R`, when every operation with `P` does. -/
theorem Asks.holds {J : S → Prop} {R : S → S → Prop} (h : Asks P Q p) (hrefl : ∀ s, R s s)
    (htrans : ∀ s t u, R s t → R t u → R s u)
    (hstep : ∀ o s x t, P o → step o s x t → J s → G s t ∧ J t ∧ R s t) (hs : J s) :
    Holds step G p (fun a t => Q a ∧ J t ∧ R s t) s := by
  induction p generalizing s with
  | done a => exact ⟨h, hs, hrefl s⟩
  | ask o k ih =>
    intro x t hx
    obtain ⟨hg, hJ, hR⟩ := hstep o s x t h.1 hx hs
    exact ⟨hg, (ih x (h.2 x) hJ).mono fun _ u hu => ⟨hu.1, hu.2.1, htrans s t u hR hu.2.2⟩⟩

end Asks

end Prog

/-! ### The lives of a process -/

/-- A process: the program of each call and the one a start runs. -/
structure Process (Op : Type) (Ans : Op → Type) (C R : Type) where
  prog : C → Prog Op Ans R
  boot : Prog Op Ans R

/-- Where a process is: not running, in the middle of a call (`none`: of its start), or at rest. -/
inductive Conf (Op : Type) (Ans : Op → Type) (C R S : Type)
  | down (s : S)
  | busy (c : Option C) (p : Prog Op Ans R) (s : S)
  | idle (s : S)

namespace Conf

variable {Op : Type} {Ans : Op → Type} {C R S : Type}

/-- The state of a configuration. -/
def state : Conf Op Ans C R S → S
  | down s => s
  | busy _ _ s => s
  | idle s => s

end Conf

namespace Process

variable {Op : Type} {Ans : Op → Type} {C R S : Type} (P : Process Op Ans C R)
  (step : (o : Op) → S → Ans o → S → Prop) (fresh : S → S → Prop)

/-- One move of a process: a start in a state that may follow the one it died in, a call, one
operation of the program that runs, its end, or a death. -/
inductive Move : Conf Op Ans C R S → Conf Op Ans C R S → Prop
  | start {s t : S} (h : fresh s t) : Move (.down s) (.busy none P.boot t)
  | call (c : C) (s : S) : Move (.idle s) (.busy (some c) (P.prog c) s)
  | op {c : Option C} {o : Op} {k : Ans o → Prog Op Ans R} {s t : S} {x : Ans o}
      (h : step o s x t) : Move (.busy c (.ask o k) s) (.busy c (k x) t)
  | ended (c : Option C) (r : R) (s : S) : Move (.busy c (.done r) s) (.idle s)
  | die (c : Conf Op Ans C R S) : Move c (.down c.state)

/-- The configurations a process gets to. -/
abbrev Reaches : Conf Op Ans C R S → Conf Op Ans C R S → Prop :=
  Relation.ReflTransGen (P.Move step fresh)

/-- What is true of a configuration when `Off` is left by a death and `Rest` by a call, and every
operation satisfies `G`. -/
def Sound (G : S → S → Prop) (Off Rest : S → Prop) : Conf Op Ans C R S → Prop
  | .down s => Off s
  | .busy _ p s => Off s ∧ p.Holds step G (fun _ => Rest) s
  | .idle s => Rest s

variable {P step fresh} {G : S → S → Prop} {Off Rest : S → Prop}

theorem Sound.off {c : Conf Op Ans C R S} (hrest : ∀ s, Rest s → Off s)
    (h : Sound step G Off Rest c) : Off c.state := by
  cases c with
  | down s => exact h
  | busy c p s => exact h.1
  | idle s => exact hrest s h

/-- One move keeps what is true of a configuration. -/
theorem Sound.move {c d : Conf Op Ans C R S} (hG : ∀ s t, G s t → Off t)
    (hrest : ∀ s, Rest s → Off s)
    (hboot : ∀ s t, Off s → fresh s t → Off t ∧ P.boot.Holds step G (fun _ => Rest) t)
    (hcall : ∀ c s, Rest s → (P.prog c).Holds step G (fun _ => Rest) s)
    (h : Sound step G Off Rest c) (hm : P.Move step fresh c d) : Sound step G Off Rest d := by
  cases hm with
  | start hf => exact hboot _ _ h hf
  | call c s => exact ⟨hrest s h, hcall c s h⟩
  | op hx => exact ⟨hG _ _ (h.2 _ _ hx).1, (h.2 _ _ hx).2⟩
  | ended c r s => exact h.2
  | die c => exact h.off hrest

/-- **What is true in every configuration reached**, from what the programs keep. -/
theorem sound {c d : Conf Op Ans C R S} (hG : ∀ s t, G s t → Off t)
    (hrest : ∀ s, Rest s → Off s)
    (hboot : ∀ s t, Off s → fresh s t → Off t ∧ P.boot.Holds step G (fun _ => Rest) t)
    (hcall : ∀ c s, Rest s → (P.prog c).Holds step G (fun _ => Rest) s)
    (h : Sound step G Off Rest c) (hr : P.Reaches step fresh c d) : Sound step G Off Rest d := by
  induction hr with
  | refl => exact h
  | tail _ hm ih => exact ih.move hG hrest hboot hcall hm

/-- Every operation of a sound configuration satisfies `G`. -/
theorem Sound.op {o : Op} {k : Ans o → Prog Op Ans R} {c : Option C} {s t : S} {x : Ans o}
    (h : Sound step G Off Rest (.busy c (.ask o k) s)) (hx : step o s x t) : G s t :=
  (h.2 x t hx).1

/-- A run of the program in progress takes the process to its end. -/
theorem reaches_of_runs {p : Prog Op Ans R} {c : Option C} {s t : S} {r : R}
    (h : Prog.Runs step p s r t) : P.Reaches step fresh (.busy c p s) (.idle t) := by
  induction h with
  | done r s => exact .single (.ended c r s)
  | ask hx _ ih => exact .head (.op hx) ih

/-- A call made at rest, run to its end. -/
theorem reaches_call {c : C} {s t : S} {r : R} (h : Prog.Runs step (P.prog c) s r t) :
    P.Reaches step fresh (.idle s) (.idle t) :=
  .head (.call c s) (reaches_of_runs h)

/-- A start, run to its end. -/
theorem reaches_start {s s' t : S} {r : R} (hf : fresh s s') (h : Prog.Runs step P.boot s' r t) :
    P.Reaches step fresh (.down s) (.idle t) :=
  .head (.start hf) (reaches_of_runs h)

end Process

end Rurge
