import Mathlib.Data.List.Basic

/-!
# Settings, the commands that change them, and a backup

A system has settings `K` with values `V`, read off its state by `value`.  A command has one
setting as its `target`: whatever comes of it, no other setting changes, and when it succeeds its
`effect` is what became of the target.  A backup holds values of some settings.

`Given` says that every setting has its first value back (as far as `back` asks), `Faithful` that a
backup holds first values alone, and `Within` that no setting but the ones it holds has been
changed: the three are what undoing from a backup rests on.
-/

namespace Rurge

/-- A state through a list of steps, each taken as `R` allows. -/
def Chain {C S : Type} (R : C → S → S → Prop) : List C → S → S → Prop
  | [], s, t => s = t
  | c :: cs, s, t => ∃ u, R c s u ∧ Chain R cs u t

namespace Chain

variable {C S : Type} {R : C → S → S → Prop}

theorem append {cs ds : List C} {s t : S} :
    Chain R (cs ++ ds) s t ↔ ∃ u, Chain R cs s u ∧ Chain R ds u t := by
  induction cs generalizing s with
  | nil => simp [Chain]
  | cons c cs ih =>
    simp only [List.cons_append, Chain, ih]
    constructor
    · rintro ⟨u, hu, v, hv, ht⟩
      exact ⟨v, ⟨u, hu, hv⟩, ht⟩
    · rintro ⟨v, ⟨u, hu, hv⟩, ht⟩
      exact ⟨u, hu, v, hv, ht⟩

theorem single {c : C} {s t : S} : Chain R [c] s t ↔ R c s t := by
  simp [Chain]

/-- What every step leaves alone, the whole leaves alone. -/
theorem unchanged {α : Type} {f : S → α} {cs : List C} {s t : S} (h : Chain R cs s t)
    (hf : ∀ c ∈ cs, ∀ s t, R c s t → f t = f s) : f t = f s := by
  induction cs generalizing s with
  | nil => exact congrArg f h.symm
  | cons c cs ih =>
    obtain ⟨u, hu, ht⟩ := h
    rw [ih ht fun d hd => hf d (.tail c hd), hf c (.head cs) s u hu]

end Chain

namespace Undo

variable {W K V C B : Type} (value : W → K → V) (target : C → K) (effect : C → V → V → Prop)
  (back : K → V → V → Prop) (holds : B → K → V → Prop)

/-- A command ran: no setting but its target changed. -/
def Touches (c : C) (w u : W) : Prop := ∀ k, k ≠ target c → value u k = value w k

/-- A command did what it is for. -/
def Did (c : C) (w u : W) : Prop :=
  Touches value target c w u ∧ effect c (value w (target c)) (value u (target c))

/-- Every setting has its first value back. -/
def Given (w₀ w : W) : Prop := ∀ k, back k (value w₀ k) (value w k)

/-- The values the backup holds are first values. -/
def Faithful (w₀ : W) (b : B) : Prop := ∀ k v, holds b k v → back k (value w₀ k) v

/-- A setting the backup does not hold has its first value. -/
def Within (w₀ : W) (b : B) (w : W) : Prop :=
  ∀ k, (∀ v, ¬ holds b k v) → back k (value w₀ k) (value w k)

variable {value target effect back holds} {w₀ w u : W} {b : B} {c : C}

/-- What no command of a list is about stays as it was. -/
theorem unchanged {cs : List C} (h : Chain (Did value target effect) cs w u) {k : K}
    (hk : ∀ c ∈ cs, target c ≠ k) : value u k = value w k :=
  h.unchanged fun c hc _ _ hd => hd.1 k fun he => hk c hc he.symm

/-- Commands about different settings have all done what they are for at the end. -/
theorem chain_did {cs : List C} (hnodup : (cs.map target).Nodup)
    (h : Chain (Did value target effect) cs w u) (hc : c ∈ cs) :
    ∃ v, effect c v (value u (target c)) := by
  induction cs generalizing w with
  | nil => cases hc
  | cons d cs ih =>
    obtain ⟨x, hx, hu⟩ := h
    obtain ⟨hd, hcs⟩ := List.nodup_cons.1 hnodup
    rcases List.mem_cons.1 hc with rfl | hc
    · have hk : value u (target c) = value x (target c) :=
        unchanged hu fun d' hd' he => hd (he ▸ List.mem_map_of_mem hd')
      exact ⟨_, hk ▸ hx.2⟩
    · exact ih hcs hu hc

theorem Given.within (h : Given value back w₀ w) : Within value back holds w₀ b w :=
  fun k _ => h k

/-- Within a faithful backup, a setting has its first value or the backup holds it. -/
theorem Within.saved (h : Within value back holds w₀ b w) (hf : Faithful value back holds w₀ b)
    (k : K) : back k (value w₀ k) (value w k) ∨ ∃ v, holds b k v ∧ back k (value w₀ k) v := by
  by_cases hk : ∃ v, holds b k v
  · obtain ⟨v, hv⟩ := hk
    exact .inr ⟨v, hv, hf k v hv⟩
  · exact .inl (h k fun v hv => hk ⟨v, hv⟩)

end Undo

end Rurge
