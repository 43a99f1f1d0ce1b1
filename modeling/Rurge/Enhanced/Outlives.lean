import Rurge.Enhanced.Backup
import Rurge.Enhanced.Covered

/-!
# What outlives the process is given back

The calls of the manager keep `Safe`, and so does a start after a death: every setting that outlives
the process has the value it had, or the backup in `state.json` has it.  At rest an enhanced mode
that is on has got to every stage (`Standing`), so a close undoes both stages of the backup; what it
could not put back stays there.
-/

namespace Rurge.Enhanced

variable {Owns : Setting → Prop} {v₀ : Setting → Value} {s t : Sys}

/-! ### Closing -/

@[simp] theorem Closing.after_undone {α : Type} (closing : Closing) (r : Except Str α) :
    (closing.after r).undone = closing.undone := by
  cases r <;> rfl

theorem Closing.first_of_after {α : Type} {closing : Closing} {r : Except Str α}
    (h : (closing.after r).first = none) : closing.first = none := by
  cases r with
  | ok a => exact h
  | error e => cases hf : closing.first <;> simp [after, keep, hf] at h ⊢

theorem Closing.result_ok {closing : Closing} (h : closing.result = .ok ()) :
    closing.first = none := by
  unfold result at h
  cases hf : closing.first with
  | none => rfl
  | some e => rw [hf] at h; cases h

theorem Closing.mem_remaining {closing : Closing} {saved : List Undo} {a : Undo} :
    a ∈ closing.remaining saved ↔ ∃ i, saved[i]? = some a ∧ i ∉ closing.undone := by
  simp only [remaining, List.mem_map, List.mem_filter, List.mem_zipIdx_iff_getElem?,
    decide_eq_true_eq]
  constructor
  · rintro ⟨⟨b, i⟩, ⟨hget, hi⟩, rfl⟩
    exact ⟨i, hget, hi⟩
  · rintro ⟨i, hget, hi⟩
    exact ⟨(a, i), ⟨hget, hi⟩, rfl⟩

theorem Closing.remaining_sublist (closing : Closing) (saved : List Undo) :
    (closing.remaining saved).Sublist saved := by
  have h := (List.filter_sublist (p := fun e => decide (e.2 ∉ closing.undone))
    (l := saved.zipIdx)).map Prod.fst
  rwa [List.zipIdx_map_fst] at h

/-- The backup after a close: what is not back yet, and none when all of it is. -/
theorem rewrite_backup_keeps {saved : List Undo} {closing : Closing} (hmem : actions s.mem = saved)
    (hs : Safe Owns v₀ s) (hput : Put saved closing s.world) :
    (rewrite_backup closing saved).Holds Sys.Step (Kept Owns v₀) (fun _ t => Safe Owns v₀ t ∧
      t.on = s.on ∧ t.mem.enhanced_backup = backup_value (closing.remaining saved) ∧
      t.outcome.undo_failed = s.outcome.undo_failed ∧
      (t.outcome.unwritten = false → t.file = t.mem)) s := by
  have hact : ∀ b, actions ⟨backup_value (closing.remaining saved), b⟩ = closing.remaining saved :=
    actions_backup_value _
  refine (update_holds hs (readable_backup_value _ _) ?_ fun a ha hout => ?_).mono ?_
  · rw [hact, hmem]
    exact closing.remaining_sublist saved
  · rw [hact] at hout
    obtain ⟨i, hget⟩ := List.getElem?_of_mem (hmem ▸ ha)
    have hi : i ∈ closing.undone := by
      by_contra hi
      exact hout (Closing.mem_remaining.2 ⟨i, hget, hi⟩)
    exact hput i hi a hget
  · rintro _ t ⟨ht, hon, hm, hf, hw⟩
    exact ⟨ht, hon, congrArg State.enhanced_backup hm, hf, hw⟩

/-- In the middle of a close that has undone these stages: what of them went back is noted. -/
structure Closes (Owns : Setting → Prop) (v₀ : Setting → Value) (saved : List Undo) (on : Option On)
    (stages : List Stage) (closing : Closing) (s : Sys) : Prop where
  safe : Safe Owns v₀ s
  on : s.on = on
  mem : actions s.mem = saved
  put : Put saved closing s.world
  only : ∀ i ∈ closing.undone, ∀ a, saved[i]? = some a → a.stage ∈ stages
  all : s.outcome.undo_failed = false ∨ closing.first = none → ∀ i a, saved[i]? = some a →
    a.stage ∈ stages → i ∈ closing.undone

namespace Closes

variable {saved : List Undo} {on : Option On} {stages : List Stage} {closing closing' : Closing}

theorem calm (h : Closes Owns v₀ saved on stages closing s) (hst : Calm s t)
    (hc : closing'.undone = closing.undone)
    (hfirst : closing'.first = none → closing.first = none) :
    Closes Owns v₀ saved on stages closing' t := by
  refine ⟨h.safe.calm hst, hst.on.trans h.on, by rw [hst.mem, h.mem], fun i hi a ha => ?_, ?_, ?_⟩
  · exact (h.put i (hc ▸ hi) a ha).writes hst.world id
  · rw [hc]
    exact h.only
  · rw [hc]
    exact fun hf => h.all (hf.imp hst.not_failed hfirst)

/-- A program that writes nothing leaves a close where it is. -/
theorem mild {α : Type} {p : M α} (h : Closes Owns v₀ saved on stages closing s) (hp : Mild p) :
    p.Holds Sys.Step (Kept Owns v₀) (fun _ t => Closes Owns v₀ saved on stages closing t) s :=
  (mild_holds hp h.safe).mono fun _ _ ⟨_, ht⟩ => h.calm ht rfl id

variable {S : System} {Takes : World → Setting → Prop}

/-- One more stage. -/
theorem undo_stage (hS : S.Saves Owns Takes) {stage : Stage} (hstage : stage ∉ stages)
    (h : Closes Owns v₀ saved on stages closing s) :
    (undo_stage S stage saved closing).Holds Sys.Step (Kept Owns v₀)
      (fun closing' t => Closes Owns v₀ saved on (stage :: stages) closing' t) s := by
  have hmem : ∀ {e : Undo × ℕ}, e ∈ saved.zipIdx.filter (fun e => e.1.stage = stage) ↔
      saved[e.2]? = some e.1 ∧ e.1.stage = stage := by
    simp [List.mem_zipIdx_iff_getElem?]
  have hidx : ((saved.zipIdx.filter fun e => e.1.stage = stage).map Prod.snd).Nodup := by
    refine List.Nodup.sublist (List.filter_sublist.map _) ?_
    rw [List.zipIdx_map_snd]
    exact List.nodup_range'
  refine (undo_each_holds hS (fun e he => (hmem.1 he).1) hidx (fun e he hin => ?_) h.mem h.safe
    h.put).mono ?_
  · exact hstage ((hmem.1 he).2 ▸ h.only _ hin _ (hmem.1 he).1)
  · rintro closing' t ht
    refine ⟨ht.safe, ht.wrote.on.trans h.on, by rw [ht.wrote.mem, h.mem], ht.put, ?_, ?_⟩
    · intro i hi a ha
      rcases ht.only i hi with hi | ⟨e, he, rfl⟩
      · exact .tail _ (h.only i hi a ha)
      · obtain ⟨hget, he⟩ := hmem.1 he
        obtain rfl := Option.some.inj (hget.symm.trans ha)
        exact he ▸ .head _
    · intro hf i a ha hin
      rcases List.mem_cons.1 hin with hin | hin
      · exact ht.all hf (a, i) (hmem.2 ⟨ha, hin⟩)
      · exact ht.keeps i (h.all (hf.imp ht.wrote.not_failed ht.first) i a ha hin)

end Closes

section Programs

variable {S : System} {Takes : World → Setting → Prop} (hS : S.Saves Owns Takes)
include hS

/-- **A close keeps what the backup promises.**  One of an open that got to every stage, none of
whose calls and writes fails, leaves no backup. -/
theorem close_keeps (on : On) {saved : List Undo} (hmem : actions s.mem = saved)
    (hs : Safe Owns v₀ s) :
    (close S on saved true).Holds Sys.Step (Kept Owns v₀) (fun r t => Safe Owns v₀ t ∧
      t.on = s.on ∧ (on.dev.isSome → on.dns = true → on.adjust = true →
        t.outcome.undo_failed = false ∨ r = .ok () → t.outcome.unwritten = false →
        t.mem.enhanced_backup = none ∧ t.file.enhanced_backup = none)) s := by
  unfold close
  cases hdev : on.dev with
  | none =>
    refine (mild_holds (op_asks (by trivial)) hs).bind ?_
    rintro _ t ⟨-, ht⟩
    exact ⟨hs.calm ht, ht.on, nofun⟩
  | some dev =>
    have h₀ : Closes Owns v₀ saved s.on [] .default s :=
      ⟨hs, rfl, hmem, by simp [Put, Closing.default], by simp [Closing.default], by simp⟩
    -- the DNS, of which what outlives the device is one stage
    have hdns : (close_dns S dev on.dns saved).Holds Sys.Step (Kept Owns v₀) (fun closing t =>
        Closes Owns v₀ saved s.on (if on.dns then [.dns] else []) closing t) s := by
      unfold close_dns
      cases on.dns with
      | false => exact h₀
      | true =>
        refine (h₀.mild (call_mild (hS.give_dns_back dev))).bind ?_
        rintro given t h₁
        have h₁ : Closes Owns v₀ saved s.on [] (Closing.default.after given) t :=
          h₁.calm (.refl _ t) (by simp) Closing.first_of_after
        refine (h₁.undo_stage hS (by simp)).bind ?_
        rintro closing u h₂
        refine (h₂.mild (op_asks (by trivial))).bind ?_
        rintro _ v h₃
        exact (h₃.mild (op_asks (by trivial))).bind fun _ _ h => h
    refine hdns.bind ?_
    rintro closing t h
    -- the routes
    have hroutes : (close_routes S dev on.routes closing).Holds Sys.Step (Kept Owns v₀)
        (fun closing t =>
          Closes Owns v₀ saved s.on (if on.dns then [.dns] else []) closing t) t := by
      unfold close_routes
      cases on.routes with
      | none => exact h
      | some routes =>
        have hask : Mild (ask (.routes .empty .empty routes) (S.routes dev .empty routes)) :=
          ask_mild (hS.routes dev .empty routes) fun _ => trivial
        refine (h.mild hask).bind ?_
        rintro removed u h
        refine (h.mild (op_asks (by trivial))).bind ?_
        rintro _ u h
        exact h.calm (.refl _ u) (by simp) Closing.first_of_after
    refine hroutes.bind ?_
    clear h
    rintro closing t h
    -- the egress table and the TUN
    have hegress : Mild (only_if on.egress close_egress) := only_if_asks <|
      (op_asks (by trivial)).bind fun _ _ => (op_asks (by trivial)).bind fun _ _ =>
        op_asks (by trivial)
    refine (h.mild hegress).bind ?_
    clear h
    rintro _ t h
    refine (h.mild (only_if_asks (op_asks (by trivial)))).bind ?_
    clear h
    rintro _ t h
    -- the device
    have hdevice : (close_device closing).Holds Sys.Step (Kept Owns v₀) (fun closing t =>
        Closes Owns v₀ saved s.on (if on.dns then [.dns] else []) closing t) t := by
      have hcall : Mild (call (tool .close >>= fun _ => pure (.ok ()) : Job (Except Str Unit))) :=
        call_mild ((tool_asks (t := .close) trivial).bind fun _ _ => trivial)
      refine (h.mild hcall).bind ?_
      rintro closed u h
      exact h.calm (.refl _ u) (by simp) Closing.first_of_after
    refine hdevice.bind ?_
    clear h
    rintro closing t h
    -- the adjustments, which are the other stage
    have hadjust : (close_adjust S on.adjust saved closing).Holds Sys.Step (Kept Owns v₀)
        (fun closing t => Closes Owns v₀ saved s.on
          ((if on.adjust then [.adjust] else []) ++ if on.dns then [.dns] else [])
          closing t) t := by
      unfold close_adjust
      cases on.adjust with
      | false => exact h
      | true => exact h.undo_stage hS (by split_ifs <;> simp)
    refine hadjust.bind ?_
    clear h
    rintro closing t h
    refine (rewrite_backup_keeps h.mem h.safe h.put).bind ?_
    rintro _ u ⟨hu, hon, hm, hf, hw⟩
    refine (mild_holds (op_asks (by trivial)) hu).bind ?_
    rintro _ v ⟨-, hv⟩
    refine ⟨hu.calm hv, hv.on.trans (hon.trans h.on), fun _ hd ha hvf hvw => ?_⟩
    have hall : closing.remaining saved = [] := by
      refine List.eq_nil_iff_forall_not_mem.2 fun a ha' => ?_
      obtain ⟨i, hget, hi⟩ := Closing.mem_remaining.1 ha'
      refine hi (h.all (hvf.imp (fun hvf => hf ▸ hv.not_failed hvf) Closing.result_ok) i a hget ?_)
      rw [hd, ha]
      cases a <;> simp [Undo.stage]
    have hmem : u.mem.enhanced_backup = none := by rw [hm, hall]; rfl
    rw [hv.mem, hv.file, hw (hv.not_unwritten hvw)]
    exact ⟨hmem, hmem⟩

/-! ### Reading before writing -/

omit hS in
theorem News.untouched {saved taken : List Undo} {w u : World} (h : News Owns saved taken w)
    (hu : Untouched w u) : News Owns saved taken u :=
  ⟨h.owns, fun a ha => (h.value a ha).trans (hu.value _ id).symm, h.fresh, h.nodup⟩

/-- A call of the manager in which the memory's backup is `saved`. -/
structure Backed (Owns : Setting → Prop) (v₀ : Setting → Value) (on : Option On)
    (saved : List Undo) (s : Sys) : Prop where
  safe : Safe Owns v₀ s
  on : s.on = on
  mem : actions s.mem = saved

variable {on₀ : Option On} {saved : List Undo}

omit hS in
theorem Backed.calm (h : Backed Owns v₀ on₀ saved s) (ht : Calm s t) :
    Backed Owns v₀ on₀ saved t :=
  ⟨h.safe.calm ht, ht.on.trans h.on, by rw [ht.mem, h.mem]⟩

omit hS in
theorem Backed.mild {α : Type} {p : M α} (h : Backed Owns v₀ on₀ saved s) (hp : Mild p) :
    p.Holds Sys.Step (Kept Owns v₀) (fun _ t => Backed Owns v₀ on₀ saved t) s :=
  (mild_holds hp h.safe).mono fun _ _ ⟨_, ht⟩ => h.calm ht

omit hS in
/-- What the backup holds is read from memory. -/
theorem Backed.saved_undo (h : Backed Owns v₀ on₀ saved s) :
    saved_undo.Holds Sys.Step (Kept Owns v₀)
      (fun r t => r = .ok saved ∧ Backed Owns v₀ on₀ saved t) s := by
  rintro _ t ⟨rfl, rfl⟩
  refine ⟨h.safe.kept rfl, ?_⟩
  have hmem := h.mem
  have hread := h.safe.mem
  simp only [Prog.bind]
  cases hb : t.mem.enhanced_backup with
  | none =>
    simp only [actions, hb] at hmem
    exact ⟨congrArg _ hmem, h⟩
  | some b =>
    cases b with
    | undo l =>
      simp only [actions, hb] at hmem
      exact ⟨congrArg _ hmem, h⟩
    | unreadable e => exact absurd hb (hread e)

/-- What the DNS takeover will need was read of what it changes, and all of it is saved. -/
theorem Backed.dns_saved (h : Backed Owns v₀ on₀ saved s) (dev : Str) :
    (call (S.dns_saved dev saved)).Holds Sys.Step (Kept Owns v₀)
      (fun r t => Backed Owns v₀ on₀ saved t ∧ ∀ taken, r = .ok taken →
        News Owns saved taken t.world ∧
        ∀ k, Takes t.world k → ∃ a ∈ saved ++ taken, a.setting = k) s := by
  refine (call_keeps (P := fun _ => False) nofun h.safe (hS.dns_saved dev saved s.world)
    fun e w => nofun).mono ?_
  rintro r t ⟨hr, hw⟩
  exact ⟨h.calm hw, fun taken htaken =>
    ⟨(hr taken htaken).1.untouched hw.world, (hr taken htaken).2⟩⟩

theorem Backed.adjust_saved (h : Backed Owns v₀ on₀ saved s) (primary : Option Str) :
    (call (S.adjust_saved primary saved)).Holds Sys.Step (Kept Owns v₀)
      (fun r t => Backed Owns v₀ on₀ saved t ∧ ∀ taken, r = .ok taken →
        News Owns saved taken.toList t.world) s := by
  refine (call_keeps (P := fun _ => False) nofun h.safe (hS.adjust_saved primary saved s.world)
    fun e w => nofun).mono ?_
  rintro r t ⟨hr, hw⟩
  exact ⟨h.calm hw, fun taken htaken => (hr taken htaken).untouched hw.world⟩

omit hS in
/-- What was read goes into the backup. -/
theorem Backed.save (h : Backed Owns v₀ on₀ saved s) {taken : List Undo} {c : Bool}
    (hc : c = false → taken = []) (hnews : News Owns saved taken s.world) :
    (only_when c (save_undo (saved ++ taken))).Holds Sys.Step (Kept Owns v₀)
      (fun r t => Safe Owns v₀ t ∧ t.on = on₀ ∧ (r = .ok () →
        Backed Owns v₀ on₀ (saved ++ taken) t ∧ t.world = s.world)) s := by
  refine (save_holds hc h.mem h.safe hnews).mono ?_
  rintro r t ⟨ht, hon, hw, hr⟩
  exact ⟨ht, hon.trans h.on, fun hok => ⟨⟨ht, hon.trans h.on, hr hok⟩, hw⟩⟩

/-- The takeover writes nothing but what the backup holds. -/
theorem Backed.take_dns (h : Backed Owns v₀ on₀ saved s)
    (htakes : ∀ k, Takes s.world k → ∃ a ∈ saved, a.setting = k) (dev : Str) (ipv6 : Bool) :
    (call (S.take_dns dev ipv6)).Holds Sys.Step (Kept Owns v₀)
      (fun _ t => Backed Owns v₀ on₀ saved t) s := by
  have hP : ∀ k, Takes s.world k → ∃ a ∈ actions s.mem, a.setting = k := by
    rw [h.mem]
    exact htakes
  refine (call_keeps hP h.safe (hS.take_dns dev ipv6 s.world) fun _ _ => trivial).mono ?_
  rintro r t ⟨-, hw⟩
  exact ⟨h.safe.wrote hw hP, hw.on.trans h.on, by rw [hw.mem, h.mem]⟩

/-- So does the adjustment, which is left out unless the backup holds it. -/
theorem Backed.adjust (h : Backed Owns v₀ on₀ saved s) :
    (only_when (saved.any is_adjust) (call S.adjust)).Holds Sys.Step (Kept Owns v₀)
      (fun _ t => Backed Owns v₀ on₀ saved t) s := by
  cases hany : saved.any is_adjust with
  | false => exact h
  | true =>
    have hP : ∀ k, k = .rp_filter → ∃ a ∈ actions s.mem, a.setting = k := by
      rintro _ rfl
      obtain ⟨a, ha, hadj⟩ := List.any_eq_true.1 hany
      refine ⟨a, h.mem ▸ ha, ?_⟩
      cases a with
      | mac_dns service servers => cases hadj
      | rp_filter value => rfl
    refine (call_keeps hP h.safe (hS.adjust s.world) fun _ _ => trivial).mono ?_
    rintro r t ⟨-, hw⟩
    exact ⟨h.safe.wrote hw hP, hw.on.trans h.on, by rw [hw.mem, h.mem]⟩

/-! ### The open -/

/-- What an open that succeeds has got to, and what is true of one that fails. -/
structure Opens (Owns : Setting → Prop) (v₀ : Setting → Value) (on₀ : Option On)
    (r : On × Except Str Unit) (t : Sys) : Prop where
  safe : Safe Owns v₀ t
  on : t.on = on₀
  whole : r.2 = .ok () → r.1.dev.isSome ∧ r.1.dns = true ∧ r.1.adjust = true

omit hS in
theorem Opens.failed {on : On} {e : Str} (ht : Safe Owns v₀ t) (hon : t.on = on₀) :
    Opens Owns v₀ on₀ (on, .error e) t :=
  ⟨ht, hon, nofun⟩

theorem Backed.open_adjust (h : Backed Owns v₀ on₀ saved s) (on : On) (hdev : on.dev.isSome)
    (hdns : on.dns = true) (wanted : Wanted) :
    (open_adjust S on wanted saved).Holds Sys.Step (Kept Owns v₀) (Opens Owns v₀ on₀) s := by
  refine attempt_holds (h.adjust_saved hS wanted.primary) ?_ fun e t ht =>
    .failed ht.1.safe ht.1.on
  rintro taken t ⟨ht, hnews⟩
  refine attempt_holds (ht.save (by cases taken <;> simp) (hnews taken rfl)) ?_ fun e u hu =>
    .failed hu.1 hu.2.1
  rintro _ u ⟨-, -, hu⟩
  refine attempt_holds ((hu rfl).1.adjust hS) ?_ fun e v hv => .failed hv.safe hv.on
  rintro _ v hv
  refine (update_holds hv.safe hv.safe.mem (.refl _) fun a ha hout => absurd ha hout).bind ?_
  rintro _ w ⟨hw, hon, -⟩
  exact ⟨hw, hon.trans hv.on, fun _ => ⟨hdev, hdns, rfl⟩⟩

theorem Backed.open_dns (h : Backed Owns v₀ on₀ saved s) (on : On) (hdev : on.dev.isSome)
    (dev : Str) (wanted : Wanted) (ipv6 : Bool) :
    (open_dns S on dev wanted ipv6 saved).Holds Sys.Step (Kept Owns v₀) (Opens Owns v₀ on₀) s := by
  refine attempt_holds (h.dns_saved hS dev) ?_ fun e t ht => .failed ht.1.safe ht.1.on
  rintro taken t ⟨ht, hnews⟩
  obtain ⟨hnews, htakes⟩ := hnews taken rfl
  refine attempt_holds (ht.save (by cases taken <;> simp) hnews) ?_ fun e u hu =>
    .failed hu.1 hu.2.1
  rintro _ u ⟨-, -, hu⟩
  obtain ⟨hu, hworld⟩ := hu rfl
  refine (hu.take_dns hS (hworld ▸ htakes) dev ipv6).bind ?_
  rintro r v hv
  refine (hv.mild (read_physical_mild _ _ _)).bind ?_
  rintro _ w hw
  refine (hw.mild (op_asks (by trivial))).bind ?_
  rintro _ x hx
  cases r with
  | error e => exact .failed hx.safe hx.on
  | ok b => exact hx.open_adjust hS { on with dns := true } hdev rfl wanted

theorem Backed.open_routes (h : Backed Owns v₀ on₀ saved s) (on : On) (hdev : on.dev.isSome)
    (dev : Str) (wanted : Wanted) (ipv6 : Bool) :
    (open_routes S on dev wanted ipv6 saved).Holds Sys.Step (Kept Owns v₀)
      (Opens Owns v₀ on₀) s := by
  have hask : ∀ recorded add remove,
      Mild (ask (.routes recorded add remove) (S.routes dev add remove)) :=
    fun _ add remove => ask_mild (hS.routes dev add remove) fun _ => trivial
  refine (h.mild (hask _ _ _)).bind ?_
  rintro added t ht
  refine (ht.mild (op_asks (by trivial))).bind ?_
  rintro _ u hu
  cases added with
  | error e => exact .failed hu.safe hu.on
  | ok added =>
    refine hu.open_dns hS _ ?_ dev wanted _
    exact hdev

/-- **An open keeps what the backup promises**, wherever it stops. -/
theorem Backed.open_ (h : Backed Owns v₀ on₀ saved s) (wanted : Wanted) :
    (open_ S wanted saved).Holds Sys.Step (Kept Owns v₀) (Opens Owns v₀ on₀) s := by
  refine attempt_holds (h.mild (call_mild hS.open_device)) ?_ fun e t ht => .failed ht.safe ht.on
  rintro dev t ht
  refine (ht.mild (op_asks (by trivial))).bind ?_
  rintro _ t₁ h₁
  have hask : Mild (ask .address (S.configure dev wanted.ipv6)) :=
    ask_mild (hS.configure dev wanted.ipv6) fun _ => trivial
  refine attempt_holds (h₁.mild hask) ?_ fun e t ht => .failed ht.safe ht.on
  rintro configured t₂ h₂
  refine attempt_holds (h₂.mild (op_asks (by trivial))) ?_ fun e t ht => .failed ht.safe ht.on
  rintro _ t₃ h₃
  refine (h₃.mild (physical_subnets_mild dev)).bind ?_
  rintro subnets t₄ h₄
  refine (h₄.mild (op_asks (by trivial))).bind ?_
  rintro _ t₅ h₅
  refine (h₅.mild (op_asks (by trivial))).bind ?_
  rintro _ t₆ h₆
  refine (h₆.mild (op_asks (by trivial))).bind ?_
  rintro _ t₇ h₇
  refine h₇.open_routes hS _ ?_ dev wanted _
  rfl

/-! ### The calls -/

omit hS in
theorem Safe.same (h : Safe Owns v₀ s) (hw : t.world = s.world) (hm : t.mem = s.mem)
    (hf : t.file = s.file) : Safe Owns v₀ t := by
  refine ⟨hm ▸ h.mem, hf ▸ h.file, ?_, hf ▸ h.nodup, hf ▸ h.owns, ?_, ?_, ?_⟩
  · rw [hm, hf]
    exact h.sub
  · rw [hf, hw]
    exact h.faithful
  · rw [hm, hw]
    exact h.known
  · rw [hm, hf, hw]
    exact h.leftover

/-- At rest: an enhanced mode that is on has got to every stage. -/
structure Settled (Owns : Setting → Prop) (v₀ : Setting → Value) (s : Sys) : Prop where
  safe : Safe Owns v₀ s
  whole : ∀ on, s.on = some on → on.dev.isSome ∧ on.dns = true ∧ on.adjust = true

omit hS in
/-- The begin of a call, and what it holds. -/
theorem Settled.began {α : Type} {k : Option On → M α} {Q : α → Sys → Prop}
    (h : Settled Owns v₀ s)
    (hk : ∀ t, Backed Owns v₀ s.on (actions s.mem) t → t.outcome = .default →
      (k s.on).Holds Sys.Step (Kept Owns v₀) Q t) :
    (op .began >>= fun _ => op .on >>= k).Holds Sys.Step (Kept Owns v₀) Q s := by
  rintro _ t rfl
  have ht : Safe Owns v₀ { s with lost := s.astray, outcome := .default } := h.safe.same rfl rfl rfl
  refine ⟨ht.kept rfl, ?_⟩
  rintro _ _ ⟨rfl, rfl⟩
  exact ⟨ht.kept rfl, hk _ ⟨ht, rfl, rfl⟩ rfl⟩

omit hS in
/-- The manager's own memory. -/
theorem Backed.set_on {α : Type} {k : Unit → M α} {Q : α → Sys → Prop}
    (h : Backed Owns v₀ on₀ saved s) (on : Option On)
    (hk : ∀ t, Backed Owns v₀ on saved t → t.outcome = s.outcome →
      (k ()).Holds Sys.Step (Kept Owns v₀) Q t) :
    (op (.set_on on) >>= k).Holds Sys.Step (Kept Owns v₀) Q s := by
  rintro _ _ rfl
  have ht : Safe Owns v₀ { s with on := on } := h.safe.same rfl rfl rfl
  exact ⟨ht.kept rfl, hk _ ⟨ht, rfl, h.mem⟩ rfl⟩

/-- What an enable that fails half way has done goes back the way a close undoes it. -/
theorem enable_keeps (h : Settled Owns v₀ s) (wanted : Wanted) :
    (enable S wanted).Holds Sys.Step (Kept Owns v₀) (fun _ t => Settled Owns v₀ t) s := by
  refine h.began ?_
  rintro t ht -
  cases hon : s.on with
  | some on => exact ⟨ht.safe, ht.on ▸ h.whole⟩
  | none =>
    rw [hon] at ht
    refine ht.saved_undo.andThen ?_ fun e u hu => nomatch hu.1
    rintro saved u ⟨hsaved, hu⟩
    obtain rfl := Except.ok.inj hsaved
    refine (hu.open_ hS wanted).bind ?_
    rintro ⟨opened, r⟩ v hv
    cases r with
    | ok _ =>
      refine (mild_holds (op_asks (by trivial)) hv.safe).bind ?_
      rintro _ w ⟨-, hw⟩
      refine Backed.set_on ⟨hv.safe.calm hw, hw.on, rfl⟩ (some opened) ?_
      rintro x hx -
      refine ⟨hx.safe, fun on hs => ?_⟩
      obtain rfl := Option.some.inj (hx.on.symm.trans hs)
      exact hv.whole rfl
    | error e =>
      have hback : Backed Owns v₀ none (actions v.mem) v := ⟨hv.safe, hv.on, rfl⟩
      refine hback.saved_undo.bind ?_
      rintro r w ⟨rfl, hw⟩
      refine (close_keeps hS opened hw.mem hw.safe).bind ?_
      rintro _ x ⟨hx, hxon, -⟩
      refine ⟨hx, fun on hs => ?_⟩
      rw [hxon, hw.on] at hs
      cases hs

/-- **A disable of an enhanced mode that is on** leaves no backup when nothing of it fails. -/
theorem disable_keeps (h : Settled Owns v₀ s) :
    (disable S).Holds Sys.Step (Kept Owns v₀) (fun r t => Settled Owns v₀ t ∧
      (s.on.isSome → t.outcome.undo_failed = false ∨ r = .ok () → t.outcome.unwritten = false →
        t.mem.enhanced_backup = none ∧ t.file.enhanced_backup = none)) s := by
  refine h.began ?_
  rintro t ht -
  cases hon : s.on with
  | none => exact ⟨⟨ht.safe, ht.on ▸ h.whole⟩, nofun⟩
  | some on =>
    refine ht.set_on none ?_
    rintro u hu -
    refine hu.saved_undo.bind ?_
    rintro r v ⟨rfl, hv⟩
    refine (close_keeps hS on hv.mem hv.safe).mono ?_
    rintro _ w ⟨hw, hwon, hnone⟩
    obtain ⟨hdev, hdns, hadj⟩ := h.whole on hon
    refine ⟨⟨hw, fun on' hs => ?_⟩, fun _ => hnone hdev hdns hadj⟩
    rw [hwon, hv.on] at hs
    cases hs

omit hS in
theorem Backed.here (h : Backed Owns v₀ on₀ saved t) : Backed Owns v₀ on₀ (actions t.mem) t :=
  ⟨h.safe, h.on, rfl⟩

theorem Backed.take_the_dns_again (h : Backed Owns v₀ on₀ saved s) (dev : Str) (ipv6 : Bool)
    (primary : Option Str) (network_changed : Bool) :
    (take_the_dns_again S dev ipv6 primary network_changed).Holds Sys.Step (Kept Owns v₀)
      (fun _ t => Backed Owns v₀ on₀ (actions t.mem) t) s := by
  refine h.saved_undo.bind ?_
  rintro _ t ⟨rfl, ht⟩
  refine (ht.dns_saved hS dev).bind ?_
  rintro (e | taken) u ⟨hu, hnews⟩
  · exact hu.here
  obtain ⟨hnews, htakes⟩ := hnews taken rfl
  refine (hu.save (by cases taken <;> simp) hnews).bind ?_
  rintro (e | _) v ⟨hv, hvon, hok⟩
  · exact ⟨hv, hvon, rfl⟩
  obtain ⟨hv, hworld⟩ := hok rfl
  refine (hv.take_dns hS (hworld ▸ htakes) dev ipv6).bind ?_
  rintro _ w hw
  refine (hw.mild (only_if_asks (read_physical_mild _ _ _))).bind ?_
  rintro _ x hx
  exact (hx.mild (op_asks (by trivial))).mono fun _ _ hy => hy.here

theorem Backed.adjust_again (h : Backed Owns v₀ on₀ saved s) (primary : Option Str) :
    (adjust_again S primary).Holds Sys.Step (Kept Owns v₀)
      (fun _ t => Backed Owns v₀ on₀ (actions t.mem) t) s := by
  refine h.saved_undo.bind ?_
  rintro _ t ⟨rfl, ht⟩
  refine (ht.adjust_saved hS primary).bind ?_
  rintro (e | taken) u ⟨hu, hnews⟩
  · exact hu.here
  refine (hu.save (by cases taken <;> simp) (hnews taken rfl)).bind ?_
  rintro (e | _) v ⟨hv, hvon, hok⟩
  · exact ⟨hv, hvon, rfl⟩
  refine ((hok rfl).1.adjust hS).bind ?_
  rintro _ w hw
  exact hw.here

theorem follow_address_mild (dev : Str) (turning_on ipv6 : Bool) :
    Mild (follow_address S dev turning_on ipv6) := by
  unfold follow_address
  split_ifs
  · have hask : Mild (ask .address (S.configure_ipv6 dev)) :=
      ask_mild (hS.configure_ipv6 dev) fun _ => trivial
    refine hask.bind fun r _ => ?_
    cases r <;> trivial
  · trivial

theorem follow_routes_mild (dev : Str) (recorded : Option RouteSet) (wanted : Wanted)
    (was_ipv6 ipv6 : Bool) (subnets : List (IpNetAny × Str)) :
    Mild (follow_routes S dev recorded wanted was_ipv6 ipv6 subnets) := by
  have hask : ∀ recorded add remove,
      Mild (ask (.routes recorded add remove) (S.routes dev add remove)) :=
    fun _ add remove => ask_mild (hS.routes dev add remove) fun _ => trivial
  unfold follow_routes
  extract_lets next old add remove
  split_ifs
  · exact (op_asks (by trivial)).bind fun _ _ => trivial
  · refine (op_asks (by trivial)).bind fun changed _ => (hask _ _ _).bind fun r _ => ?_
    cases r with
    | error e => trivial
    | ok added =>
      refine (op_asks (by trivial)).bind fun _ _ => ?_
      exact (op_asks (by trivial)).bind fun _ _ => trivial

omit hS in
/-- A part of a call that may be left out. -/
theorem only_if_keeps {c : Bool} {p : M Unit} (h : Backed Owns v₀ on₀ saved s)
    (hp : p.Holds Sys.Step (Kept Owns v₀) (fun _ t => Backed Owns v₀ on₀ (actions t.mem) t) s) :
    (only_if c p).Holds Sys.Step (Kept Owns v₀)
      (fun _ t => Backed Owns v₀ on₀ (actions t.mem) t) s := by
  cases c
  · exact h.here
  · exact hp

theorem follow_keeps (h : Settled Owns v₀ s) (wanted : Wanted) (network_changed : Bool) :
    (follow S wanted network_changed).Holds Sys.Step (Kept Owns v₀)
      (fun _ t => Settled Owns v₀ t) s := by
  refine h.began ?_
  rintro t ht -
  cases hon : s.on with
  | none => exact ⟨ht.safe, ht.on ▸ h.whole⟩
  | some on =>
    obtain ⟨hdev, hdns, hadj⟩ := h.whole on hon
    cases hd : on.dev with
    | none => rw [hd] at hdev; cases hdev
    | some dev =>
      dsimp only
      rw [hd]
      refine ht.set_on none ?_
      rintro t₁ h₁ -
      refine (only_if_keeps h₁ (h₁.take_the_dns_again hS dev false _ _)).bind ?_
      rintro _ t₂ h₂
      refine (h₂.mild (follow_address_mild hS dev _ _)).bind ?_
      rintro ipv6 t₃ h₃
      refine (h₃.mild (physical_subnets_mild dev)).bind ?_
      rintro subnets t₄ h₄
      refine (h₄.mild (follow_routes_mild hS dev _ _ _ _ _)).bind ?_
      rintro routed t₅ h₅
      refine (only_if_keeps h₅ (h₅.take_the_dns_again hS dev _ _ _)).bind ?_
      rintro _ t₆ h₆
      refine (h₆.mild (only_if_asks (op_asks (by trivial)))).bind ?_
      rintro _ t₇ h₇
      refine (h₇.mild (only_when_asks (call_mild (hS.unconfigure_ipv6 dev)))).bind ?_
      rintro _ t₈ h₈
      refine (only_if_keeps h₈ (h₈.adjust_again hS _)).bind ?_
      rintro _ t₉ h₉
      refine Backed.set_on h₉ _ ?_
      rintro u hu -
      refine ⟨hu.safe, fun on' hs => ?_⟩
      obtain rfl := Option.some.inj (hu.on.symm.trans hs)
      exact ⟨rfl, hdns, hadj⟩

/-- **A start** does what is left in the backup; it leaves none when nothing of it fails. -/
theorem recover_keeps (hs : Safe Owns v₀ s) (hfile : s.file = s.mem) (hon : s.on = none) :
    (recover S).Holds Sys.Step (Kept Owns v₀) (fun r t => Settled Owns v₀ t ∧
      (t.outcome.undo_failed = false ∨ (∀ e, r ≠ some (.error e)) →
        t.outcome.unwritten = false →
        t.mem.enhanced_backup = none ∧ t.file.enhanced_backup = none)) s := by
  rintro _ t rfl
  have ht : Safe Owns v₀ { s with lost := s.astray, outcome := .default } := hs.same rfl rfl rfl
  refine ⟨ht.kept rfl, ?_⟩
  rintro _ t ⟨rfl, rfl⟩
  refine ⟨ht.kept rfl, ?_⟩
  simp only [Prog.bind]
  cases hb : s.mem.enhanced_backup with
  | none =>
    have hrests : ∀ {u : Sys}, u.on = s.on → ∀ on, u.on = some on →
        on.dev.isSome ∧ on.dns = true ∧ on.adjust = true := by
      intro u hu on hs
      rw [hu, hon] at hs
      cases hs
    dsimp only
    cases s.mem.enhanced_mode with
    | false => exact ⟨⟨ht, hrests rfl⟩, fun _ _ => ⟨hb, hfile ▸ hb⟩⟩
    | true =>
      refine (update_holds ht (fun e => hs.mem e) (.refl _) fun a ha hout => absurd ha hout).bind ?_
      rintro _ u ⟨hu, huon, hm, -, hw⟩
      have hnone : u.mem.enhanced_backup = none := by rw [hm]; exact hb
      exact ⟨⟨hu, hrests huon⟩, fun _ hwr => ⟨hnone, hw hwr ▸ hnone⟩⟩
  | some b =>
    cases b with
    | unreadable e => exact absurd hb (hs.mem e)
    | undo l =>
      have hmem : actions ({ s with lost := s.astray, outcome := .default } : Sys).mem = l := by
        rw [actions, hb]
      have hl : ∀ e ∈ l.zipIdx.reverse, l[e.2]? = some e.1 := fun e he =>
        List.mem_zipIdx_iff_getElem?.1 (List.mem_reverse.1 he)
      have hidx : (l.zipIdx.reverse.map Prod.snd).Nodup := by
        rw [List.map_reverse, List.nodup_reverse, List.zipIdx_map_snd]
        exact List.nodup_range'
      have hout : ∀ e ∈ l.zipIdx.reverse, e.2 ∉ Closing.default.undone :=
        fun _ _ => List.not_mem_nil
      have hput : Put l .default s.world := fun i hi => absurd hi List.not_mem_nil
      refine (undo_each_holds hS hl hidx hout hmem ht hput).bind ?_
      rintro closing u hu
      have hmem' : actions u.mem = l := by rw [hu.wrote.mem]; exact hmem
      refine (rewrite_backup_keeps hmem' hu.safe hu.put).bind ?_
      rintro _ v ⟨hv, hvon, hm, hf, hw⟩
      refine ⟨⟨hv, fun on hs => ?_⟩, fun hvf hvw => ?_⟩
      · rw [hvon, hu.wrote.on] at hs
        rw [show _ = none from hon] at hs
        cases hs
      · have hok : (∀ e, some closing.result ≠ some (.error e)) → closing.first = none := by
          intro hr
          cases hfirst : closing.first with
          | none => rfl
          | some e => exact absurd (by rw [Closing.result, hfirst]) (hr e)
        have hall : closing.remaining l = [] := by
          refine List.eq_nil_iff_forall_not_mem.2 fun a ha => ?_
          obtain ⟨i, hget, hi⟩ := Closing.mem_remaining.1 ha
          refine hi (hu.all (hvf.imp (fun hvf => hf ▸ hvf) hok) (a, i) ?_)
          exact List.mem_reverse.2 (List.mem_zipIdx_iff_getElem?.2 hget)
        have hnone : v.mem.enhanced_backup = none := by rw [hm, hall]; rfl
        exact ⟨hnone, hw hvw ▸ hnone⟩

end Programs

/-! ### Every run -/

/-- The enhanced mode leaves nothing of itself behind, over every sequence of calls, deaths and
starts, but for services that an undo found no longer listed. -/
structure System.GivesBack (S : System) (s₀ : Sys) : Prop where
  /-- A setting has the value it had, or the backup in the file has that value. -/
  setting {c} (hc : S.Reached s₀ c) {k : Setting} (hk : ¬ Gone c.state.world k) :
    c.state.world.value k = s₀.world.value k ∨
      ∃ a ∈ actions c.state.file, a.setting = k ∧ a.value = s₀.world.value k
  /-- No setting has two undo actions. -/
  once {c} (hc : S.Reached s₀ c) : ((actions c.state.file).map Undo.setting).Nodup
  /-- An action leaves the backup only after it was done. -/
  leaves {c d} (hc : S.Reached s₀ c) (hm : (manager S).Move Sys.Step Sys.Fresh c d) {a : Undo}
    (ha : a ∈ actions c.state.file) : a ∈ actions d.state.file ∨ a ∈ c.state.world.done
  /-- A disable of an enhanced mode that is on, whose undos succeed (or that does itself) and whose
  write does. -/
  disable {s t : Sys} {r : Except Str Unit} (hs : S.Reached s₀ (.idle s)) (hon : s.on.isSome)
    (hr : (disable S).Runs Sys.Step s r t) (hf : t.outcome.undo_failed = false ∨ r = .ok ())
    (hw : t.outcome.unwritten = false) :
    t.file.enhanced_backup = none ∧
      ∀ k, ¬ Gone t.world k → t.world.value k = s₀.world.value k
  /-- A start whose undos succeed (or that does itself) and whose write does. -/
  recover {s s' t : Sys} {r : Option (Except Str Unit)} (hs : S.Reached s₀ (.down s))
    (hs' : Sys.Fresh s s') (hr : (recover S).Runs Sys.Step s' r t)
    (hf : t.outcome.undo_failed = false ∨ ∀ e, r ≠ some (.error e))
    (hw : t.outcome.unwritten = false) :
    t.file.enhanced_backup = none ∧
      ∀ k, ¬ Gone t.world k → t.world.value k = s₀.world.value k

theorem Safe.restarted (h : Safe Owns v₀ s) : Safe Owns v₀ s.restarted := by
  refine ⟨h.file, h.file, .refl _, h.nodup, h.owns, fun a ha hk => ?_, fun k hk => ?_,
    fun a ha hout => absurd ha hout⟩
  · exact h.faithful a ha hk
  · have hval : s.restarted.world.value k = s.world.value k := by cases k <;> rfl
    rw [hval]
    exact (h.known k hk).imp_right fun ⟨a, ha, hak⟩ => ⟨a, h.sub_mem ha, hak⟩

theorem System.Saves.sound {S : System} {Takes : World → Setting → Prop} (hS : S.Saves Owns Takes)
    {s₀ : Sys} (h₀ : Safe Owns v₀ s₀) {c} (hc : S.Reached s₀ c) :
    Process.Sound Sys.Step (Kept Owns v₀) (Safe Owns v₀) (Settled Owns v₀) c := by
  refine Process.sound (fun _ _ h => h.1) (fun _ h => h.safe) ?_ (fun call s hs => ?_) ?_ hc
  · rintro s _ hs rfl
    exact ⟨hs.restarted, (recover_keeps hS hs.restarted rfl rfl).mono fun _ _ h => h.1⟩
  · cases call with
    | enable wanted => exact (enable_keeps hS hs wanted).bind fun r t ht => ht
    | disable => exact (disable_keeps hS hs).bind fun r t ht => ht.1
    | follow wanted changed => exact (follow_keeps hS hs wanted changed).bind fun r t ht => ht
  · exact h₀

/-- What `Safe` says of a setting that is in no backup. -/
theorem Safe.of_no_backup (h : Safe Owns v₀ s) (hnone : s.mem.enhanced_backup = none) {k : Setting}
    (hk : ¬ Gone s.world k) : s.world.value k = v₀ k := by
  refine (h.known k hk).resolve_right ?_
  rintro ⟨a, ha, -⟩
  rw [actions, hnone] at ha
  cases ha

theorem System.Saves.givesBack {S : System} {Takes : World → Setting → Prop}
    (hS : S.Saves Owns Takes) {s₀ : Sys} (h₀ : Safe Owns s₀.world.value s₀) : S.GivesBack s₀ where
  setting hc k hk := by
    have h := (hS.sound h₀ hc).off fun _ h => h.safe
    refine (h.known k hk).imp_right fun ⟨a, ha, hak⟩ => ⟨a, h.sub_mem ha, hak, ?_⟩
    have hkept := h.faithful a (h.sub_mem ha)
    rw [hak] at hkept
    exact hkept hk
  once hc := ((hS.sound h₀ hc).off fun _ h => h.safe).nodup
  leaves {c d} hc hm a ha := by
    have hsound := hS.sound h₀ hc
    cases hm with
    | start hf =>
      obtain rfl := hf
      exact .inl ha
    | call | ended | die => exact .inl ha
    | op hx => exact (hsound.op hx).2 a ha
  disable hs hon hr hf hw := by
    obtain ⟨ht, hnone⟩ := (disable_keeps hS (hS.sound h₀ hs)).runs hr
    obtain ⟨hm, hfile⟩ := hnone hon hf hw
    exact ⟨hfile, fun k hk => ht.safe.of_no_backup hm hk⟩
  recover hs hs' hr hf hw := by
    obtain rfl := hs'
    have hoff : Safe Owns s₀.world.value _ := hS.sound h₀ hs
    obtain ⟨ht, hnone⟩ := (recover_keeps hS hoff.restarted rfl rfl).runs hr
    obtain ⟨hm, hfile⟩ := hnone hf hw
    exact ⟨hfile, fun k hk => ht.safe.of_no_backup hm hk⟩

/-- **The enhanced mode leaves nothing of itself behind**, on macOS and on Linux. -/
theorem leaves_nothing_behind (dns : Str → Option (List IpAddr)) (rp_filter : Str → ℕ) :
    Macos.system.GivesBack (Sys.first dns rp_filter) ∧
      ∀ tools, (Linux.system tools).GivesBack (Sys.first dns rp_filter) := by
  have h₀ : ∀ Owns, Safe Owns (Sys.first dns rp_filter).world.value (Sys.first dns rp_filter) :=
    fun Owns => ⟨nofun, nofun, .refl _, List.nodup_nil, nofun, nofun, fun k _ => .inl rfl, nofun⟩
  exact ⟨Macos.saves.givesBack (h₀ _), fun tools => (Linux.saves tools).givesBack (h₀ _)⟩

/-! ### Two runs that leave something -/

/-- A machine with these network services.  Setting their servers succeeds, or always fails, having
set no others than `fails`. -/
def serving (services : List Str) (fails : Option (List IpAddr)) : (o : Op) → Sys → o.Ans × Sys
  | .tool .listallnetworkservices, s => (some (.ok (services.map fun name => (name, true))), s)
  | .tool (.setdnsservers service servers), s =>
    let set := (play [] (.tool (.setdnsservers service servers)) s).2
    match fails with
    | none => (some (.ok ()), set)
    | some only => (some (.error "networksetup failed".toList), { s with
        world := { s.world with
          dns := if servers = only then set.world.dns else s.world.dns
          done := set.world.done } })
  | o, s => play [] o s

theorem serving_step {services : List Str} (hnodup : services.Nodup) (fails : Option (List IpAddr))
    (o : Op) (s : Sys) :
    Sys.Step o s (serving services fails o s).1 (serving services fails o s).2 := by
  cases o with
  | tool t =>
    cases t with
    | listallnetworkservices =>
      refine ⟨_, _, ⟨rfl, fun l hl => ?_⟩, fun z hz => (Option.some.inj hz).symm, rfl⟩
      obtain rfl := Except.ok.inj hl
      simpa [List.map_map, Function.comp_def] using hnodup
    | setdnsservers service servers =>
      obtain ⟨hother, hset, hu⟩ := answer_run [] (.setdnsservers service servers) s.world
      cases fails with
      | none => exact ⟨_, _, ⟨hother, hset, hu⟩, fun z hz => (Option.some.inj hz).symm, rfl⟩
      | some only =>
        refine ⟨.error _, _, ⟨fun k hk => ?_, nofun, rfl⟩,
          fun z hz => (Option.some.inj hz).symm, rfl⟩
        have hk := hother k hk
        cases k with
        | rp_filter => rfl
        | dns other =>
          simp only [World.value, Value.dns.injEq] at hk ⊢
          split_ifs
          · exact hk
          · rfl
    | _ => exact play_step [] _ s
  | _ => exact play_step [] _ s

namespace Macos

def wifi : Str := "Wi-Fi".toList

/-- Every service has one server of its own. -/
def home : Sys := Sys.first (fun _ => some [.v4 0x01010101]) fun _ => 0

/-- A call of the manager on a machine with these services. -/
def having (services : List Str) (fails : Option (List IpAddr)) (c : Call) (s : Sys) : Sys :=
  (((manager system).prog c).play (serving services fails) s).2

/-- The first start. -/
def begun : Sys := ((recover system).play (serving [wifi] none) home.restarted).2

theorem reaches_begun : system.Reached home (.idle begun) :=
  Process.reaches_start rfl (Prog.play_runs Sys.Step (serving_step (by decide +kernel) _) _ _)

theorem reaches_having {s₀ s : Sys} (h : system.Reached s₀ (.idle s)) {services : List Str}
    (hnodup : services.Nodup) (fails : Option (List IpAddr)) (c : Call) :
    system.Reached s₀ (.idle (having services fails c s)) :=
  h.trans (Process.reaches_call (Prog.play_runs Sys.Step (serving_step hnodup fails) _ _))

def everything : Wanted := ⟨⟨[one], []⟩, false, none⟩

/-- The service is not listed when the disable comes. -/
def orphaned : Sys := having [] none .disable (having [wifi] none (.enable everything) begun)

/-- An enable that fails, and whose close fails too. -/
def stuck : Sys := having [wifi] (some (responders false)) (.enable everything) begun

end Macos

/-- **Two ways in which something is left behind.**  A service that is not listed when it is to be
put back keeps the responder's address, and the backup lets it go.  A disable after an enable that
failed, and whose close failed, does nothing: the next start will. -/
theorem not_leaves_nothing_behind :
    (Macos.system.Reached Macos.home (.idle Macos.orphaned) ∧
      Macos.orphaned.world.value (.dns Macos.wifi) ≠ Macos.home.world.value (.dns Macos.wifi) ∧
      actions Macos.orphaned.file = [] ∧ Macos.orphaned.outcome.failed = false ∧
      Macos.orphaned.outcome.unwritten = false) ∧
    Macos.system.Reached Macos.home (.idle Macos.stuck) ∧
      ∃ t, (disable Macos.system).Runs Sys.Step Macos.stuck (.ok ()) t ∧
        t.outcome.failed = false ∧ t.outcome.unwritten = false ∧
        t.world.value (.dns Macos.wifi) ≠ Macos.home.world.value (.dns Macos.wifi) := by
  refine ⟨⟨?_, by decide +kernel, by decide +kernel, by decide +kernel, by decide +kernel⟩, ?_, ?_⟩
  · exact Macos.reaches_having (Macos.reaches_having Macos.reaches_begun (by decide +kernel) _ _)
      List.nodup_nil _ _
  · exact Macos.reaches_having Macos.reaches_begun (by decide +kernel) _ _
  · have hrun := Prog.play_runs Sys.Step (play_step []) (disable Macos.system) Macos.stuck
    have hok : ((disable Macos.system).play (play []) Macos.stuck).1 = .ok () := by
      decide +kernel
    rw [hok] at hrun
    exact ⟨_, hrun, by decide +kernel, by decide +kernel, by decide +kernel⟩

end Rurge.Enhanced
