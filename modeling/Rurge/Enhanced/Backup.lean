import Rurge.Enhanced.Saving

/-!
# What the backup in `state.json` has of the settings that outlive the process

At every moment a setting has the value it had before anything changed it, or the backup in
`state.json` holds an undo action with that value, the services that an undo found no longer listed
apart (`Safe`).  The memory's copy of the backup holds what is still to be undone; what the file has
beside it was done (`leftover`), which is why a write that fails loses nothing.

Here is what single operations and single calls of the backend do to it: those that write nothing,
those that write what the backup holds, the undo of an action, and the writes of `state.json`.
-/

namespace Rurge.Enhanced

/-- The undo actions of a state. -/
def actions (st : State) : List Undo :=
  match st.enhanced_backup with
  | some (.undo l) => l
  | _ => []

/-- This version can read the backup. -/
def Readable (st : State) : Prop := ∀ e, st.enhanced_backup ≠ some (.unreadable e)

theorem actions_backup_value (l : List Undo) (b : Bool) : actions ⟨backup_value l, b⟩ = l := by
  unfold backup_value
  cases l <;> rfl

theorem readable_backup_value (l : List Undo) (b : Bool) : Readable ⟨backup_value l, b⟩ := by
  intro e
  unfold backup_value
  cases l <;> simp

section

variable (Owns : Setting → Prop) (v₀ : Setting → Value)

/-- What is true at every moment. -/
structure Safe (s : Sys) : Prop where
  mem : Readable s.mem
  file : Readable s.file
  sub : (actions s.mem).Sublist (actions s.file)
  nodup : ((actions s.file).map Undo.setting).Nodup
  owns : ∀ a ∈ actions s.file, Owns a.setting
  faithful : ∀ a ∈ actions s.file, ¬ Gone s.world a.setting → a.value = v₀ a.setting
  known : ∀ k, ¬ Gone s.world k → s.world.value k = v₀ k ∨ ∃ a ∈ actions s.mem, a.setting = k
  leftover : ∀ a ∈ actions s.file, a ∉ actions s.mem → a ∈ s.world.done

/-- What every operation keeps: an action leaves the file only after it was done. -/
def Kept (s t : Sys) : Prop :=
  Safe Owns v₀ t ∧ ∀ a ∈ actions s.file, a ∈ actions t.file ∨ a ∈ s.world.done

end

/-- Nothing but settings with `P` was written; the backup is as it was. -/
structure Wrote (P : Setting → Prop) (s t : Sys) : Prop where
  world : Writes P s.world t.world
  mem : t.mem = s.mem
  file : t.file = s.file
  on : t.on = s.on
  undo_failed : s.outcome.undo_failed → t.outcome.undo_failed
  unwritten : s.outcome.unwritten → t.outcome.unwritten

/-- No setting was written. -/
abbrev Calm : Sys → Sys → Prop := Wrote fun _ => False

namespace Wrote

variable {P P' : Setting → Prop} {s t u : Sys}

theorem refl (P : Setting → Prop) (s : Sys) : Wrote P s s := ⟨.refl P _, rfl, rfl, rfl, id, id⟩

theorem trans (h : Wrote P s t) (h' : Wrote P t u) : Wrote P s u :=
  ⟨h.world.trans h'.world, h'.mem.trans h.mem, h'.file.trans h.file, h'.on.trans h.on,
    fun hf => h'.undo_failed (h.undo_failed hf), fun hf => h'.unwritten (h.unwritten hf)⟩

theorem mono (h : Wrote P s t) (hP : ∀ k, P k → P' k) : Wrote P' s t :=
  ⟨h.world.mono hP, h.mem, h.file, h.on, h.undo_failed, h.unwritten⟩

end Wrote

theorem Wrote.not_failed {P : Setting → Prop} {s t : Sys} (h : Wrote P s t)
    (hf : t.outcome.undo_failed = false) : s.outcome.undo_failed = false := by
  by_contra hs
  rw [h.undo_failed (by simpa using hs)] at hf
  cases hf

theorem Wrote.not_unwritten {P : Setting → Prop} {s t : Sys} (h : Wrote P s t)
    (hw : t.outcome.unwritten = false) : s.outcome.unwritten = false := by
  by_contra hs
  rw [h.unwritten (by simpa using hs)] at hw
  cases hw

variable {Owns : Setting → Prop} {v₀ : Setting → Value} {P : Setting → Prop} {s t : Sys}

theorem Safe.sub_mem (h : Safe Owns v₀ s) {a : Undo} (ha : a ∈ actions s.mem) :
    a ∈ actions s.file :=
  h.sub.subset ha

theorem Safe.nodup_mem (h : Safe Owns v₀ s) : ((actions s.mem).map Undo.setting).Nodup :=
  h.nodup.sublist (h.sub.map _)

theorem Safe.eq_of_setting (h : Safe Owns v₀ s) {a b : Undo} (ha : a ∈ actions s.file)
    (hb : b ∈ actions s.file) (hab : a.setting = b.setting) : a = b :=
  List.inj_on_of_nodup_map h.nodup ha hb hab

/-- **Writing settings that the memory's backup holds is safe.** -/
theorem Safe.wrote (h : Safe Owns v₀ s) (hw : Wrote P s t)
    (hP : ∀ k, P k → ∃ a ∈ actions s.mem, a.setting = k) : Safe Owns v₀ t := by
  have hgone : ∀ {k}, ¬ Gone t.world k → ¬ Gone s.world k := fun hk hg => hk (hw.world.gone _ hg)
  refine ⟨hw.mem ▸ h.mem, hw.file ▸ h.file, ?_, ?_, ?_, ?_, ?_, ?_⟩
  · rw [hw.mem, hw.file]
    exact h.sub
  · rw [hw.file]
    exact h.nodup
  · rw [hw.file]
    exact h.owns
  · rw [hw.file]
    exact fun a ha hk => h.faithful a ha (hgone hk)
  · intro k hk
    rw [hw.mem]
    by_cases hp : P k
    · exact .inr (hP k hp)
    · rw [hw.world.value k hp]
      exact h.known k (hgone hk)
  · rw [hw.mem, hw.file]
    refine fun a ha hout => hw.world.done a (h.leftover a ha hout) fun hp => ?_
    obtain ⟨b, hb, hba⟩ := hP _ hp
    exact hout (h.eq_of_setting (h.sub_mem hb) ha hba ▸ hb)

theorem Safe.calm (h : Safe Owns v₀ s) (hw : Calm s t) : Safe Owns v₀ t :=
  h.wrote hw fun _ => False.elim

theorem Safe.kept (h : Safe Owns v₀ t) (hf : t.file = s.file) : Kept Owns v₀ s t :=
  ⟨h, fun _ ha => .inl (hf ▸ ha)⟩

/-! ### Operations that write nothing -/

/-- An operation that writes no setting, and no backup. -/
def Op.Harmless : Op → Prop
  | .tool t => t.Harmless
  | .update _ | .try_update _ | .set_on _ | .began | .call_ended (.undo _) _ => False
  | _ => True

theorem Op.Harmless.step {o : Op} (h : o.Harmless) {x : o.Ans} (hr : Sys.Step o s x t) :
    Calm s t := by
  cases o with
  | tool tl =>
    obtain ⟨y, w, hrun, -, rfl⟩ := hr
    exact ⟨Tool.Harmless.run h hrun, rfl, rfl, rfl, id, id⟩
  | snapshot | on =>
    obtain ⟨-, rfl⟩ := hr
    exact .refl _ t
  | update _ | try_update _ | set_on _ | began => exact h.elim
  | start | stop | system_dns_changed =>
    obtain rfl : t = s := hr
    exact .refl _ t
  | set_egress table =>
    obtain ⟨-, rfl⟩ := hr
    exact ⟨.refl _ _, rfl, rfl, rfl, id, id⟩
  | link f =>
    obtain rfl : t = { s with links := f s.links } := hr
    exact ⟨.refl _ _, rfl, rfl, rfl, id, id⟩
  | left_behind =>
    obtain rfl : t = { s with lost := s.astray } := hr
    exact ⟨.refl _ _, rfl, rfl, rfl, id, id⟩
  | call_ended c how =>
    cases c with
    | undo one => exact h.elim
    | routes recorded add remove =>
      obtain rfl : t = s.ended (.routes recorded add remove) how := hr
      exact ⟨.refl _ _, rfl, rfl, rfl, id, id⟩
    | address =>
      obtain rfl : t = s.ended .address how := hr
      exact ⟨.refl _ _, rfl, rfl, rfl, id, id⟩
    | other =>
      obtain rfl : t = s.ended .other how := hr
      exact ⟨.refl _ _, rfl, rfl, rfl, id, id⟩

/-- A program that writes nothing. -/
abbrev Mild {α : Type} (p : M α) (Q : α → Prop := fun _ => True) : Prop := p.Asks Op.Harmless Q

theorem mild_holds {α : Type} {p : M α} {Q : α → Prop} (h : Mild p Q) (hs : Safe Owns v₀ s) :
    p.Holds Sys.Step (Kept Owns v₀) (fun a t => Q a ∧ Calm s t) s := by
  refine (Prog.Asks.holds (J := Safe Owns v₀) h (Wrote.refl _) (fun _ _ _ h h' => h.trans h') ?_
    hs).mono fun a t ht => ⟨ht.1, ht.2.2⟩
  intro o s x t ho hx hs
  have hc := ho.step hx
  exact ⟨(hs.calm hc).kept hc.file, hs.calm hc, hc⟩

theorem call_mild {α : Type} {job : Job (Except Str α)}
    (h : job.Asks Tool.Harmless fun _ => True) : Mild (call job) :=
  call_asks h (fun _ ht => ht) fun _ => trivial

theorem ask_mild {c : Called} {p : Job (Except Str Bool)}
    (h : p.Asks Tool.Harmless fun _ => True) (hc : ∀ how, (Op.call_ended c how).Harmless) :
    Mild (ask c p) :=
  (blocking_asks h fun _ ht => ht).bind fun _ _ => (op_asks (hc _)).bind fun _ _ => trivial

theorem physical_subnets_mild (adapter : Str) : Mild (physical_subnets adapter) := by
  refine (call_mild (tool_asks trivial)).bind fun subnets _ => ?_
  split <;> trivial

theorem read_physical_mild (primary : Option Str) (saved : List Undo) (changed : Bool) :
    Mild (read_physical primary saved changed) := by
  refine Prog.Asks.bind (call_mild ?_) fun read _ => ?_
  · exact Prog.Asks.bind (tool_asks (t := .physical_dns primary saved changed) trivial)
      fun _ _ => trivial
  · split <;> exact op_asks trivial

/-! ### Calls of the backend that write -/

theorem blocking_keeps {α : Type} {job : Job (Except Str α)} {Q : Except Str α → World → Prop}
    (hP : ∀ k, P k → ∃ a ∈ actions s.mem, a.setting = k) (hs : Safe Owns v₀ s)
    (hp : job.Holds Tool.Run (Writes P) Q s.world) (herr : ∀ e w, Q (.error e) w) :
    (blocking job).Holds Sys.Step (Kept Owns v₀)
      (fun r t => Q r t.world ∧ ∃ u, t = { s with world := u } ∧ Writes P s.world u) s := by
  induction job generalizing s with
  | done r => exact ⟨hp, s.world, rfl, .refl _ _⟩
  | ask t k ih =>
    rw [blocking]
    rintro x s' ⟨y, w, hrun, hxy, rfl⟩
    obtain ⟨hg, hk⟩ := hp y w hrun
    have hw : Wrote P s { s with world := w } := ⟨hg, rfl, rfl, rfl, id, id⟩
    have hs' := hs.wrote hw hP
    refine ⟨hs'.kept rfl, ?_⟩
    cases x with
    | none => exact ⟨herr _ _, w, rfl, hg⟩
    | some z =>
      obtain rfl := hxy z rfl
      refine (ih z (s := { s with world := w }) hP hs' hk).mono ?_
      rintro r t ⟨hq, u, rfl, hu⟩
      exact ⟨hq, u, rfl, hg.trans hu⟩

/-- A call of the backend that writes nothing but what the memory's backup holds. -/
theorem call_keeps {α : Type} {job : Job (Except Str α)} {Q : Except Str α → World → Prop}
    (hP : ∀ k, P k → ∃ a ∈ actions s.mem, a.setting = k) (hs : Safe Owns v₀ s)
    (hp : job.Holds Tool.Run (Writes P) Q s.world) (herr : ∀ e w, Q (.error e) w) :
    (call job).Holds Sys.Step (Kept Owns v₀) (fun r t => Q r t.world ∧ Wrote P s t) s := by
  refine (blocking_keeps hP hs hp herr).bind ?_
  rintro r _ ⟨hq, u, rfl, hu⟩
  rintro _ _ rfl
  have hw : Wrote P s (Sys.ended { s with world := u } .other (.of r)) :=
    ⟨hu, rfl, rfl, rfl, id, id⟩
  exact ⟨(hs.wrote hw hP).kept rfl, hq, hw⟩

/-! ### What goes back -/

/-- An action was done, and nothing has written its setting since. -/
def Back (w : World) (a : Undo) : Prop :=
  a ∈ w.done ∧ (Gone w a.setting ∨ w.value a.setting = a.value)

theorem Back.writes {w u : World} {a : Undo} (h : Back w a) (hw : Writes P w u)
    (ha : ¬ P a.setting) : Back u a := by
  refine ⟨hw.done a h.1 ha, ?_⟩
  rw [hw.value _ ha]
  exact h.2.imp_left (hw.gone _)

/-! ### Writes of the backup -/

/-- When the memory's backup gives up what went back, nothing is lost. -/
theorem Safe.update (hs : Safe Owns v₀ s) {st : State}
    (hback : ∀ a ∈ actions s.mem, a ∉ actions st → Back s.world a) :
    (∀ k, ¬ Gone s.world k → s.world.value k = v₀ k ∨ ∃ a ∈ actions st, a.setting = k) ∧
      ∀ a ∈ actions s.file, a ∉ actions st → a ∈ s.world.done := by
  refine ⟨fun k hk => ?_, fun a ha hout => ?_⟩
  · refine (hs.known k hk).elim .inl ?_
    rintro ⟨a, ha, rfl⟩
    by_cases hin : a ∈ actions st
    · exact .inr ⟨a, hin, rfl⟩
    · have hval := (hback a ha hin).2.resolve_left hk
      exact .inl (hval.trans (hs.faithful a (hs.sub_mem ha) hk))
  · by_cases hin : a ∈ actions s.mem
    · exact (hback a hin hout).1
    · exact hs.leftover a ha hin

/-- A write of `state.json` after which the memory's backup holds what is not back yet. -/
theorem update_holds {f : State → State} (hs : Safe Owns v₀ s) (hread : Readable (f s.mem))
    (hsub : (actions (f s.mem)).Sublist (actions s.mem))
    (hback : ∀ a ∈ actions s.mem, a ∉ actions (f s.mem) → Back s.world a) :
    (op (.update f)).Holds Sys.Step (Kept Owns v₀) (fun _ t => Safe Owns v₀ t ∧
      t.on = s.on ∧ t.mem = f s.mem ∧ t.outcome.undo_failed = s.outcome.undo_failed ∧
      (t.outcome.unwritten = false → t.file = t.mem)) s := by
  obtain ⟨hknown, hleft⟩ := hs.update hback
  have hsub' := hsub.trans hs.sub
  rintro _ t (rfl | rfl)
  · have ht : Safe Owns v₀ { s with mem := f s.mem, file := f s.mem } :=
      ⟨hread, hread, .refl _, hs.nodup.sublist (hsub'.map _),
        fun a ha => hs.owns a (hsub'.subset ha), fun a ha => hs.faithful a (hsub'.subset ha),
        hknown, fun a ha hout => absurd ha hout⟩
    exact ⟨⟨ht, fun a ha => or_iff_not_imp_left.2 (hleft a ha)⟩, ht, rfl, rfl, rfl, fun _ => rfl⟩
  · have ht : Safe Owns v₀ { s with
        mem := f s.mem
        outcome := { s.outcome with unwritten := true } } :=
      ⟨hread, hs.file, hsub', hs.nodup, hs.owns, hs.faithful, hknown, hleft⟩
    exact ⟨ht.kept rfl, ht, rfl, rfl, rfl, nofun⟩

/-- The backup as the memory and the file have it after a save. -/
theorem Safe.save (hs : Safe Owns v₀ s) {taken : List Undo} {st : State} (hread : Readable st)
    (hst : actions st = actions s.mem ++ taken)
    (hnews : News Owns (actions s.mem) taken s.world) :
    Safe Owns v₀ { s with mem := st, file := st } := by
  refine ⟨hread, hread, .refl _, ?_, fun a ha => ?_, fun a ha hk => ?_, fun k hk => ?_,
    fun a ha hout => absurd ha hout⟩
  · change ((actions st).map Undo.setting).Nodup
    rw [hst, List.map_append, List.nodup_append]
    refine ⟨hs.nodup_mem, hnews.nodup, ?_⟩
    rintro _ hb _ ha rfl
    obtain ⟨b, hb, hba⟩ := List.mem_map.1 hb
    obtain ⟨a, ha, haa⟩ := List.mem_map.1 ha
    exact hnews.fresh a ha b hb (hba.trans haa.symm)
  · rcases List.mem_append.1 (hst ▸ ha) with ha | ha
    · exact hs.owns a (hs.sub_mem ha)
    · exact hnews.owns a ha
  · rcases List.mem_append.1 (hst ▸ ha) with ha | ha
    · exact hs.faithful a (hs.sub_mem ha) hk
    · have hnone : ¬ ∃ b ∈ actions s.mem, b.setting = a.setting :=
        fun ⟨b, hb, hba⟩ => hnews.fresh a ha b hb hba
      exact (hnews.value a ha).trans ((hs.known _ hk).resolve_right hnone)
  · refine (hs.known k hk).imp_right fun ⟨a, ha, hak⟩ => ⟨a, ?_, hak⟩
    exact hst ▸ List.mem_append_left _ ha

/-- What was read before anything of it is changed goes into the backup. -/
theorem save_holds {saved taken : List Undo} {c : Bool} (hc : c = false → taken = [])
    (hmem : actions s.mem = saved) (hs : Safe Owns v₀ s) (hnews : News Owns saved taken s.world) :
    (only_when c (save_undo (saved ++ taken))).Holds Sys.Step (Kept Owns v₀)
      (fun r t => Safe Owns v₀ t ∧ t.on = s.on ∧ t.world = s.world ∧
        (r = .ok () → actions t.mem = saved ++ taken)) s := by
  subst hmem
  cases c with
  | false =>
    obtain rfl := hc rfl
    exact ⟨hs, rfl, rfl, fun _ => (List.append_nil _).symm⟩
  | true =>
    simp only [only_when, if_true, save_undo]
    cases hv : backup_value (actions s.mem ++ taken) with
    | none =>
      have hnil : actions s.mem ++ taken = [] := by
        cases h : actions s.mem ++ taken with
        | nil => rfl
        | cons a l => rw [h] at hv; cases hv
      refine ⟨hs, rfl, rfl, fun _ => ?_⟩
      rw [hnil]
      exact (List.append_eq_nil_iff.1 hnil).1
    | some value =>
      have hact : ∀ b, actions ⟨some value, b⟩ = actions s.mem ++ taken :=
        fun b => hv ▸ actions_backup_value _ b
      have hread : ∀ b, Readable ⟨some value, b⟩ := fun b => hv ▸ readable_backup_value _ b
      rintro (e | u) t ht
      · obtain rfl : t = { s with outcome := { s.outcome with unwritten := true } } := ht
        have ht : Safe Owns v₀ { s with outcome := { s.outcome with unwritten := true } } :=
          ⟨hs.mem, hs.file, hs.sub, hs.nodup, hs.owns, hs.faithful, hs.known, hs.leftover⟩
        exact ⟨ht.kept rfl, ht, rfl, rfl, nofun⟩
      · obtain rfl : t = { s with
            mem := { s.mem with enhanced_backup := some value }
            file := { s.mem with enhanced_backup := some value } } := ht
        refine ⟨⟨hs.save (hread _) (hact _) hnews, fun a ha => ?_⟩,
          hs.save (hread _) (hact _) hnews,
          rfl, rfl, fun _ => hact _⟩
        by_cases hin : a ∈ actions s.mem
        · exact .inl (hact _ ▸ List.mem_append_left _ hin)
        · exact .inr (hs.leftover a ha hin)

section Undoing

variable {S : System} {Takes : World → Setting → Prop} (hS : S.Saves Owns Takes)
include hS

/-- One saved change put back. -/
theorem undo_holds {a : Undo} (ha : a ∈ actions s.mem) (hs : Safe Owns v₀ s) :
    (call (S.undo a) (.undo a)).Holds Sys.Step (Kept Owns v₀)
      (fun r t => Wrote (· = a.setting) s t ∧
        match r with
        | .ok _ => Back t.world a
        | .error _ => t.outcome.undo_failed = true) s := by
  have hP : ∀ k, k = a.setting → ∃ b ∈ actions s.mem, b.setting = k :=
    fun k hk => ⟨a, ha, hk.symm⟩
  refine (blocking_keeps hP hs (hS.undo a (hs.owns a (hs.sub_mem ha)) s.world)
    fun e w => nofun).bind ?_
  rintro r _ ⟨hq, u, rfl, hu⟩
  rintro _ _ rfl
  have hw : Wrote (· = a.setting) s (Sys.ended { s with world := u } (.undo a) (.of r)) := by
    refine ⟨⟨fun k hk => ?_, hu.gone, fun b hb hk => ?_⟩, rfl, rfl, rfl,
      fun h => by simp [Sys.ended, h], id⟩
    · rw [← hu.value k hk]
      cases k <;> rfl
    · have hin := hu.done b hb hk
      change b ∈ (if How.of r = .ok then a :: u.done else u.done)
      split_ifs
      · exact .tail _ hin
      · exact hin
  refine ⟨(hs.wrote hw hP).kept rfl, hw, ?_⟩
  cases r with
  | ok b =>
    refine ⟨.head _, (hq rfl).imp id fun hval => ?_⟩
    rw [← hval]
    cases a.setting <;> rfl
  | error e => simp [Sys.ended, How.of]

/-- What a close or a start has noted as undone went back. -/
def Put (saved : List Undo) (closing : Closing) (w : World) : Prop :=
  ∀ i ∈ closing.undone, ∀ a, saved[i]? = some a → Back w a

omit hS in
theorem Put.writes {saved : List Undo} {closing : Closing} {w u : World}
    (h : Put saved closing w) (hw : Writes P w u)
    (hP : ∀ i ∈ closing.undone, ∀ a, saved[i]? = some a → ¬ P a.setting) :
    Put saved closing u :=
  fun i hi a ha => (h i hi a ha).writes hw (hP i hi a ha)

omit hS in
theorem setting_ne {saved : List Undo} (hnodup : (saved.map Undo.setting).Nodup) {i j : ℕ}
    {a b : Undo} (ha : saved[i]? = some a) (hb : saved[j]? = some b) (hij : i ≠ j) :
    a.setting ≠ b.setting := by
  have hi : (saved.map Undo.setting)[i]? = some a.setting := by rw [List.getElem?_map, ha]; rfl
  have hj : (saved.map Undo.setting)[j]? = some b.setting := by rw [List.getElem?_map, hb]; rfl
  intro hab
  obtain ⟨hlt, -⟩ := List.getElem?_eq_some_iff.1 hi
  exact hij ((List.getElem?_inj hlt hnodup).1 (by rw [hi, hj, hab]))

/-- What putting saved changes back, each with its position, leaves. -/
structure Undone (Owns : Setting → Prop) (v₀ : Setting → Value) (saved : List Undo)
    (l : List (Undo × ℕ)) (closing : Closing) (s : Sys) (closing' : Closing) (t : Sys) : Prop where
  safe : Safe Owns v₀ t
  wrote : Wrote (fun k => ∃ e ∈ l, e.1.setting = k) s t
  put : Put saved closing' t.world
  keeps : ∀ i ∈ closing.undone, i ∈ closing'.undone
  only : ∀ i ∈ closing'.undone, i ∈ closing.undone ∨ ∃ e ∈ l, e.2 = i
  first : closing'.first = none → closing.first = none
  all : t.outcome.undo_failed = false ∨ closing'.first = none → ∀ e ∈ l, e.2 ∈ closing'.undone

/-- Saved changes put back one after another: what one of them puts back, the others leave. -/
theorem undo_each_holds {saved : List Undo} {l : List (Undo × ℕ)}
    (hl : ∀ e ∈ l, saved[e.2]? = some e.1) (hidx : (l.map (·.2)).Nodup) {closing : Closing}
    (hout : ∀ e ∈ l, e.2 ∉ closing.undone) (hmem : actions s.mem = saved) (hs : Safe Owns v₀ s)
    (hput : Put saved closing s.world) :
    (undo_each S l closing).Holds Sys.Step (Kept Owns v₀)
      (Undone Owns v₀ saved l closing s) s := by
  induction l generalizing s closing with
  | nil =>
    exact ⟨hs, .refl _ s, hput, fun _ h => h, fun _ h => .inl h, id, fun _ e he => nomatch he⟩
  | cons e rest ih =>
    obtain ⟨a, index⟩ := e
    obtain ⟨hindex, hidx⟩ := List.nodup_cons.1 hidx
    have hget : saved[index]? = some a := hl _ (.head _)
    have hnodup : (saved.map Undo.setting).Nodup := hmem ▸ hs.nodup_mem
    have ha : a ∈ actions s.mem := hmem ▸ List.mem_of_getElem? hget
    have hrest : ∀ e ∈ rest, e.2 ≠ index := fun e he h => hindex (List.mem_map.2 ⟨e, he, h⟩)
    refine (undo_holds hS ha hs).bind ?_
    rintro r t ⟨hw, hr⟩
    have ht : Safe Owns v₀ t := hs.wrote hw fun k hk => ⟨a, ha, hk.symm⟩
    have hput' : Put saved closing t.world := by
      refine hput.writes hw.world fun i hi b hb => ?_
      exact setting_ne hnodup hb hget fun h => hout _ (.head _) (h ▸ hi)
    have hmem' : actions t.mem = saved := by rw [hw.mem, hmem]
    have hwrote : Wrote (fun k => ∃ e ∈ (a, index) :: rest, e.1.setting = k) s t :=
      hw.mono fun k hk => ⟨_, .head _, hk.symm⟩
    cases r with
    | ok b =>
      have hout' : ∀ e ∈ rest, e.2 ∉ closing.undone ++ [index] := by
        intro e he hin
        rcases List.mem_append.1 hin with hin | hin
        · exact hout e (.tail _ he) hin
        · exact hrest e he (List.mem_singleton.1 hin)
      have hput'' : Put saved { closing with undone := closing.undone ++ [index] } t.world := by
        intro i hi b hb
        rcases List.mem_append.1 hi with hi | hi
        · exact hput' i hi b hb
        · obtain rfl := List.mem_singleton.1 hi
          obtain rfl := Option.some.inj (hget.symm.trans hb)
          exact hr
      refine (ih (fun e he => hl e (.tail _ he)) hidx hout' hmem' ht hput'').mono ?_
      intro c u hu
      refine ⟨hu.safe, hwrote.trans (hu.wrote.mono fun k ⟨e, he, h⟩ => ⟨e, .tail _ he, h⟩), hu.put,
        fun i hi => hu.keeps i (List.mem_append_left _ hi), fun i hi => ?_, hu.first,
        fun hf e he => ?_⟩
      · rcases hu.only i hi with hi | ⟨e, he, rfl⟩
        · rcases List.mem_append.1 hi with hi | hi
          · exact .inl hi
          · exact .inr ⟨_, .head _, (List.mem_singleton.1 hi).symm⟩
        · exact .inr ⟨e, .tail _ he, rfl⟩
      · rcases List.mem_cons.1 he with rfl | he
        · exact hu.keeps index (List.mem_append_right _ (.head _))
        · exact hu.all hf e he
    | error err =>
      have hrec : (undo_each S rest (closing.keep err)).Holds Sys.Step (Kept Owns v₀)
          (Undone Owns v₀ saved rest (closing.keep err) t) t :=
        ih (fun e he => hl e (.tail _ he)) hidx (fun e he => hout e (.tail _ he)) hmem' ht hput'
      refine hrec.mono ?_
      intro c u hu
      refine ⟨hu.safe, hwrote.trans (hu.wrote.mono fun k ⟨e, he, h⟩ => ⟨e, .tail _ he, h⟩), hu.put,
        hu.keeps, fun i hi => (hu.only i hi).imp_right fun ⟨e, he, h⟩ => ⟨e, .tail _ he, h⟩,
        fun hf => ?_, fun hf => ?_⟩
      · exact absurd (hu.first hf) (by cases h : closing.first <;> simp [Closing.keep, h])
      · rcases hf with hf | hf
        · rw [hu.wrote.undo_failed hr] at hf
          cases hf
        · exact absurd (hu.first hf) (by cases h : closing.first <;> simp [Closing.keep, h])

end Undoing

end Rurge.Enhanced
