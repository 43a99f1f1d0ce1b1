import Rurge.SystemProxy.Manager

/-!
# The system proxy is given back

What the manager keeps on any machine whose backend reads and restores its own settings
(`Machine.Lawful`): at every moment, a setting has the value it was found at or the backup in
`state.json` holds that value (`Kept`), as long as no apply reaches past the backup.  The programs
of the manager are taken one by one (`enable_holds`, `disable_holds`, `recover_holds`), and
`Machine.sound` carries what they keep over every sequence of calls, deaths and starts.
-/

namespace Rurge.SystemProxy

namespace Machine

variable (M : Machine)

/-- Every setting has been given back. -/
abbrev Given := Undo.Given M.value M.back

/-- A backup of what was found, never of what was set. -/
abbrev Faithful := Undo.Faithful M.value M.back M.holds

/-- Only settings that the backup holds have been changed. -/
abbrev Within := Undo.Within M.value M.back M.holds

/-- What the manager relies on: a setting nobody touched is given back, another start finds the
settings as they are, a tool changes its own setting alone, a snapshot reads and a restore puts
back. -/
structure Lawful : Prop where
  back_refl (k : M.Setting) (v : M.Value) : M.back k v v
  reboot_value {w u : M.World} : M.reboot w u → ∀ k, M.value u k = M.value w k
  run_value {t : M.Tool} {w u : M.World} {x : M.Ans t} : M.run t w x u →
    ∀ k, M.sets t ≠ some k → M.value u k = M.value w k
  snapshot_holds {w₀ w : M.World} : M.Given w₀ w →
    M.snapshot.Holds M.run (fun w u => ∀ k, M.value u k = M.value w k)
      (fun r _ => ∀ b, r = .ok b → M.Faithful w₀ b) w
  restore_holds (b : M.Backup) (w : M.World) :
    (M.restore b).Holds M.run
      (fun w u => ∀ k, (∀ v, ¬ M.holds b k v) → M.value u k = M.value w k)
      (fun r u => r = .ok () → ∀ w₀, M.Faithful w₀ b → M.Within w₀ b w → M.Given w₀ u) w
  restore_ok (b : M.Backup) (w : M.World) :
    (M.restore b).Holds (fun t w x u => M.run t w x u ∧ M.succeeds t x) (fun _ _ => True)
      (fun r _ => r = .ok ()) w

/-- What is true of the settings while `state.json` has this backup. -/
def Saved (w₀ : M.World) : Option M.Backup → M.World → Prop
  | none, w => M.Given w₀ w
  | some b, w => M.Faithful w₀ b ∧ M.Within w₀ b w

/-- What is true at every moment. -/
structure Kept (w₀ : M.World) (s : Sys M) : Prop where
  saved : M.Saved w₀ s.state.system_proxy_backup s.world
  features : s.state.system_proxy = s.state.system_proxy_backup.isSome

/-- What is true between two calls. -/
structure Rests (w₀ : M.World) (s : Sys M) : Prop extends M.Kept w₀ s where
  backup : s.applied.isSome → s.state.system_proxy_backup.isSome
  applied : ∀ p, s.applied = some p → s.last_apply = some (p, true)
  flag : s.flag = s.applied.isSome

/-- What every operation keeps: a backup leaves `state.json` only after a restore of it. -/
def Guard (w₀ : M.World) (s t : Sys M) : Prop :=
  M.Kept w₀ t ∧ ∀ b, s.state.system_proxy_backup = some b →
    t.state.system_proxy_backup = some b ∨ s.restored = some b

variable {M} {w₀ : M.World} {s t : Sys M}

theorem Kept.guard (ht : M.Kept w₀ t) (h : t.state = s.state) : M.Guard w₀ s t :=
  ⟨ht, fun b hb => .inl (by rw [h]; exact hb)⟩

/-- With a backup saved, what stays within it is kept. -/
theorem Kept.within {b : M.Backup} (h : M.Kept w₀ s) (hb : s.state.system_proxy_backup = some b) :
    M.Faithful w₀ b ∧ M.Within w₀ b s.world ∧
      ∀ t : Sys M, t.state = s.state → M.Within w₀ b t.world → M.Kept w₀ t := by
  have hsaved := h.saved
  rw [hb] at hsaved
  refine ⟨hsaved.1, hsaved.2, fun t ht hw => ⟨?_, ?_⟩⟩
  · rw [ht, hb]
    exact ⟨hsaved.1, hw⟩
  · rw [ht]
    exact h.features

/-- A manager that has applied nothing is at rest. -/
theorem Kept.rests (h : M.Kept w₀ s) (happlied : s.applied = none) (hflag : s.flag = false) :
    M.Rests w₀ s := by
  refine ⟨h, fun ha => ?_, fun p hp => ?_, ?_⟩
  · rw [happlied] at ha
    cases ha
  · rw [happlied] at hp
    cases hp
  · rw [hflag, happlied]
    rfl

/-! ### Reading -/

section Reading

variable {st : (o : Op M.toBackend) → Sys M → Ans M.toBackend o → Sys M → Prop}
  (hst : ∀ o s x t, st o s x t → M.Step o s x t) {G : Sys M → Sys M → Prop} {α : Type}
  {Q : α → Sys M → Prop}
include hst

/-- Reading `state.json`. -/
theorem holds_snapshot {k : State M.Backup → Prog (Op M.toBackend) (Ans M.toBackend) α}
    (hg : G s s) (hk : (k s.state).Holds st G Q s) :
    (Prog.call .snapshot >>= k).Holds st G Q s := by
  intro x t hx
  obtain ⟨rfl, rfl⟩ : x = s.state ∧ t = s := hst _ _ _ _ hx
  exact ⟨hg, hk⟩

/-- Reading what is applied. -/
theorem holds_applied {k : Option ProxySettings → Prog (Op M.toBackend) (Ans M.toBackend) α}
    (hg : G s s) (hk : (k s.applied).Holds st G Q s) :
    (Prog.call .applied >>= k).Holds st G Q s := by
  intro x t hx
  obtain ⟨rfl, rfl⟩ : x = s.applied ∧ t = s := hst _ _ _ _ hx
  exact ⟨hg, hk⟩

end Reading

/-! ### A call of the backend -/

/-- A call of the backend keeps what its commands keep of the settings, and the rest of the system
is as it was. -/
theorem blocking_holds {α : Type} {job : Job} {p : Prog M.Tool M.Ans (Except Str α)}
    {st : (o : Op M.toBackend) → Sys M → Ans M.toBackend o → Sys M → Prop}
    {R : (t : M.Tool) → M.World → M.Ans t → M.World → Prop} {Gw : M.World → M.World → Prop}
    {Qw : Except Str α → M.World → Prop} (J : M.World → Prop) (state : State M.Backup)
    (hst : ∀ t s x s', st (.tool job t) s x s' → s.state = state → ∃ y w, R t s.world y w ∧
      (∀ z, x = some z → z = y) ∧ s' = { s with world := w, restored := none })
    (hG : ∀ w u, Gw w u → J w → J u) (herr : ∀ e w, Qw (.error e) w)
    (hkept : ∀ t : Sys M, t.state = state → J t.world → M.Kept w₀ t)
    (hp : p.Holds R Gw Qw s.world) (hs : s.state = state) (hw : J s.world) :
    (blocking job p).Holds st (M.Guard w₀)
      (fun r t => ∃ u o, Qw r u ∧ J u ∧ t = { s with world := u, restored := o }) s := by
  induction p generalizing s with
  | done r => exact ⟨s.world, s.restored, hp, hw, rfl⟩
  | ask o k ih =>
    rw [blocking]
    intro x s' hx
    obtain ⟨y, w, hrun, hxy, rfl⟩ := hst o s x s' hx hs
    obtain ⟨hg, hk⟩ := hp y w hrun
    have hJ := hG _ _ hg hw
    refine ⟨(hkept { s with world := w, restored := none } hs hJ).guard rfl, ?_⟩
    cases x with
    | none => exact ⟨w, none, herr _ _, hJ, rfl⟩
    | some z =>
      obtain rfl := hxy z rfl
      exact ih z (s := { s with world := w, restored := none }) hk hs hJ

/-- Where every command succeeds, a call of the backend ends as its program does. -/
theorem blocking_good {α : Type} {job : Job} {p : Prog M.Tool M.Ans (Except Str α)}
    {Q : Except Str α → Prop}
    (hp : p.Holds (fun t w x u => M.run t w x u ∧ M.succeeds t x) (fun _ _ => True)
      (fun r _ => Q r) s.world) :
    (blocking job p).Holds M.GoodStep (fun _ _ => True) (fun r _ => Q r) s := by
  induction p generalizing s with
  | done r => exact hp
  | ask o k ih =>
    rw [blocking]
    rintro x s' ⟨⟨y, w, hrun, hxy, rfl⟩, z, rfl, hz⟩
    obtain rfl := hxy z rfl
    exact ⟨trivial, ih z (hp z w ⟨hrun, hz⟩).2⟩

/-! ### Undoing -/

section Undoing

variable (hM : M.Lawful)
include hM

/-- A restore of the saved backup, from a state that is within it. -/
theorem restoring_holds {b : M.Backup} (h : M.Kept w₀ s)
    (hb : s.state.system_proxy_backup = some b) :
    (restoring b).Holds M.Step (M.Guard w₀)
      (fun r t => ∃ u o, t = { s with world := u, restored := o } ∧ M.Kept w₀ t ∧
        (r = .ok () → M.Given w₀ u ∧ o = some b)) s := by
  obtain ⟨hfaithful, hwithin, hkept⟩ := h.within hb
  have hrun : (blocking .restore (M.restore b)).Holds M.Step (M.Guard w₀) _ s :=
    blocking_holds (M.Within w₀ b) s.state (fun t s x s' hx _ => hx)
    (fun w u hg hw k hk => by rw [hg k hk]; exact hw k hk)
    (fun e w hok => by cases hok) hkept (hM.restore_holds b s.world) rfl hwithin
  refine hrun.bind ?_
  rintro r _ ⟨u, o, hQ, hJ, rfl⟩
  rintro x _ rfl
  have hk : ∀ o', M.Kept w₀ { s with world := u, restored := o' } := fun o' => hkept _ rfl hJ
  refine ⟨(hk _).guard rfl, u, _, rfl, hk _, fun hr => ?_⟩
  subst hr
  exact ⟨hQ rfl w₀ hfaithful hwithin, rfl⟩

omit hM in
/-- Forgetting the backup, once every setting is back. -/
theorem forget_holds (hw : M.Given w₀ s.world)
    (hb : ∀ b, s.state.system_proxy_backup = some b → s.restored = some b) :
    (forget (B := M.toBackend)).Holds M.Step (M.Guard w₀)
      (fun _ t => t = { s with
        state := { system_proxy_backup := none, system_proxy := false },
        applied := none, flag := false }) s := by
  rintro _ _ rfl
  refine ⟨⟨⟨hw, rfl⟩, fun b hb' => .inr (hb b hb')⟩, ?_⟩
  rintro _ _ rfl
  refine ⟨⟨⟨hw, rfl⟩, fun b hb' => .inl hb'⟩, ?_⟩
  rintro _ _ rfl
  exact ⟨⟨⟨hw, rfl⟩, fun b hb' => .inl hb'⟩, rfl⟩

/-- **What `disable` does**: everything is given back and forgotten, or the restore failed and
nothing but the settings changed. -/
theorem disable_holds (h : M.Kept w₀ s) :
    (disable (B := M.toBackend)).Holds M.Step (M.Guard w₀)
      (fun r t => (r = .ok () ∧ M.Given w₀ t.world ∧ ∃ u o, t = { s with
          world := u, restored := o,
          state := { system_proxy_backup := none, system_proxy := false },
          applied := none, flag := false }) ∨
        ((∃ e, r = .error e) ∧ M.Kept w₀ t ∧
          ∃ u o, t = { s with world := u, restored := o })) s := by
  refine holds_snapshot (fun _ _ _ _ h => h) (h.guard rfl) ?_
  cases hb : s.state.system_proxy_backup with
  | none =>
    dsimp only
    have hw : M.Given w₀ s.world := by
      have := h.saved
      rwa [hb] at this
    refine (forget_holds hw fun b hb' => by rw [hb] at hb'; cases hb').bind ?_
    rintro _ _ rfl
    exact .inl ⟨rfl, hw, s.world, s.restored, rfl⟩
  | some b =>
    refine (restoring_holds hM h hb).andThen ?_ ?_
    · rintro _ _ ⟨u, o, rfl, hk, hok⟩
      obtain ⟨hu, rfl⟩ := hok rfl
      refine (forget_holds hu fun b' hb' => ?_).bind ?_
      · rw [← hb', ← hb]
      · rintro _ _ rfl
        exact .inl ⟨rfl, hu, u, _, rfl⟩
    · rintro e _ ⟨u, o, rfl, hk, -⟩
      exact .inr ⟨⟨e, rfl⟩, hk, u, o, rfl⟩

/-- Where every command succeeds, `disable` does. -/
theorem disable_good :
    (disable (B := M.toBackend)).Holds M.GoodStep (fun _ _ => True)
      (fun r _ => r = .ok ()) s := by
  have hforget : ∀ s, (do forget; return .ok () : Prog (Op M.toBackend) (Ans M.toBackend)
      (Except Str Unit)).Holds M.GoodStep (fun _ _ => True) (fun r _ => r = .ok ()) s :=
    fun s _ _ _ => ⟨trivial, fun _ _ _ => ⟨trivial, fun _ _ _ => ⟨trivial, rfl⟩⟩⟩
  refine holds_snapshot (fun _ _ _ _ h => h.1) trivial ?_
  cases hb : s.state.system_proxy_backup with
  | none => exact hforget s
  | some b =>
    have hrestoring : (restoring b).Holds M.GoodStep (fun _ _ => True) (fun r _ => r = .ok ()) s :=
      (blocking_good (hM.restore_ok b s.world)).bind fun r t hr _ _ _ => ⟨trivial, hr⟩
    exact hrestoring.andThen (fun _ t _ => hforget t) fun e t he => he

/-! ### Pointing the system at the program -/

/-- **What the first part of `enable` does**: what is there is saved, or nothing is and nothing
changed. -/
theorem prepare_holds (h : M.Kept w₀ s) :
    (prepare (B := M.toBackend)).Holds M.Step (M.Guard w₀)
      (fun r t => M.Kept w₀ t ∧ (r = .ok () → t.state.system_proxy_backup.isSome) ∧
        ∃ u st o, t = { s with world := u, state := st, restored := o }) s := by
  refine holds_snapshot (fun _ _ _ _ h => h) (h.guard rfl) ?_
  cases hb : s.state.system_proxy_backup with
  | some b =>
    dsimp only
    rintro _ _ rfl
    have hk : M.Kept w₀ { s with
        state := { system_proxy_backup := s.state.system_proxy_backup, system_proxy := true } } :=
      ⟨h.saved, by rw [hb]; rfl⟩
    exact ⟨⟨hk, fun b' hb' => .inl hb'⟩, hk, fun _ => by simp [hb], s.world, _, s.restored, rfl⟩
  | none =>
    have hw : M.Given w₀ s.world := by
      have := h.saved
      rwa [hb] at this
    have hkept : ∀ t : Sys M, t.state = s.state → M.Given w₀ t.world → M.Kept w₀ t := by
      intro t ht hw
      refine ⟨?_, ?_⟩
      · rw [ht, hb]
        exact hw
      · rw [ht]
        exact h.features
    have hrun : (blocking .snapshot M.snapshot).Holds M.Step (M.Guard w₀) _ s :=
      blocking_holds (M.Given w₀) s.state (fun t s x s' hx _ => hx)
      (fun w u hg hw k => by rw [hg k]; exact hw k)
      (fun e w b hok => by cases hok) hkept (hM.snapshot_holds hw) rfl hw
    refine Prog.Holds.andThen (Q := fun r t => ∃ u o, (∀ b, r = .ok (some b) → M.Faithful w₀ b) ∧
      (r ≠ .ok none) ∧ M.Given w₀ u ∧ t = { s with world := u, restored := o }) ?_ ?_ ?_
    · refine hrun.andThen ?_ ?_
      · rintro b _ ⟨u, o, hQ, hJ, rfl⟩
        exact ⟨u, o, fun b' hb' => (by cases hb'; exact hQ b rfl), (by simp), hJ, rfl⟩
      · rintro e _ ⟨u, o, -, hJ, rfl⟩
        exact ⟨u, o, fun b' hb' => (by cases hb'), (by simp), hJ, rfl⟩
    · rintro backup _ ⟨u, o, hf, hne, hu, rfl⟩
      rintro _ _ rfl
      cases backup with
      | none => exact absurd rfl hne
      | some b =>
        have hk : M.Kept w₀ { s with
            world := u, restored := o,
            state := { system_proxy_backup := some b, system_proxy := true } } :=
          ⟨⟨hf b rfl, hu.within⟩, rfl⟩
        exact ⟨⟨hk, fun b' hb' => by rw [hb] at hb'; cases hb'⟩, hk, fun _ => rfl, u, _, o, rfl⟩
    · rintro e _ ⟨u, o, -, -, hu, rfl⟩
      exact ⟨hkept _ rfl hu, fun hr => (by cases hr), u, s.state, o, rfl⟩

/-- An apply that reaches no further than the saved backup. -/
theorem applying_holds {b : M.Backup} {wanted : ProxySettings} (h : M.Kept w₀ s)
    (hb : s.state.system_proxy_backup = some b) :
    (applying wanted).Holds M.CoveredStep (M.Guard w₀)
      (fun r t => M.Kept w₀ t ∧ ∃ u o, t = { s with
        world := u, restored := o, last_apply := some (wanted, is_ok r) }) s := by
  obtain ⟨-, hwithin, hkept⟩ := h.within hb
  have hall : (M.apply wanted).Holds
      (fun t w x u => M.run t w x u ∧ ∀ k, M.sets t = some k → ∃ v, M.holds b k v)
      (fun w u => M.Within w₀ b w → M.Within w₀ b u) (fun _ _ => True) s.world := by
    refine Prog.holds_of_step (fun t w x u hx hw k hk => ?_) _ _
    have hne : M.sets t ≠ some k := fun ht => by
      obtain ⟨v, hv⟩ := hx.2 k ht
      exact hk v hv
    rw [hM.run_value hx.1 k hne]
    exact hw k hk
  have hst : ∀ t s' x s'', M.CoveredStep (.tool .apply t) s' x s'' → s'.state = s.state →
      ∃ y w, (M.run t s'.world y w ∧ ∀ k, M.sets t = some k → ∃ v, M.holds b k v) ∧
        (∀ z, x = some z → z = y) ∧ s'' = { s' with world := w, restored := none } := by
    rintro t s' x s'' ⟨⟨y, w, hrun, hxy, rfl⟩, hc⟩ hs'
    exact ⟨y, w, ⟨hrun, fun k hk => hc t k b rfl hk (by rw [hs']; exact hb)⟩, hxy, rfl⟩
  have hrun : (blocking .apply (M.apply wanted)).Holds M.CoveredStep (M.Guard w₀) _ s :=
    blocking_holds (M.Within w₀ b) s.state hst (fun w u hg hw => hg hw) (fun e w => trivial)
      hkept hall rfl hwithin
  refine hrun.bind ?_
  rintro r _ ⟨u, o, -, hJ, rfl⟩
  rintro _ _ ⟨rfl, -⟩
  have hk : M.Kept w₀ { s with
      world := u, restored := o, last_apply := some (wanted, is_ok r) } := hkept _ rfl hJ
  exact ⟨hk.guard rfl, hk, u, o, rfl⟩

/-- What the second part of `enable` leaves. -/
theorem point_holds {settings : ProxySettings} (h : M.Kept w₀ s)
    (hb : s.state.system_proxy_backup.isSome) :
    (point (B := M.toBackend) settings).Holds M.CoveredStep (M.Guard w₀)
      (fun _ t => M.Rests w₀ t) s := by
  obtain ⟨b, hb⟩ := Option.isSome_iff_exists.1 hb
  refine (applying_holds hM h hb).bind ?_
  rintro r _ ⟨hk, u, o, rfl⟩
  cases r with
  | ok a =>
    rintro _ _ ⟨rfl, -⟩
    have hset : M.Kept w₀ { s with
        world := u, restored := o, last_apply := some (settings, true),
        applied := some settings } := ⟨hk.saved, hk.features⟩
    refine ⟨hset.guard rfl, ?_⟩
    rintro _ _ ⟨rfl, -⟩
    have hflag : M.Kept w₀ { s with
        world := u, restored := o, last_apply := some (settings, true),
        applied := some settings, flag := true } := ⟨hk.saved, hk.features⟩
    refine ⟨hflag.guard rfl, hflag, fun _ => ?_, fun p hp => ?_, rfl⟩
    · exact Option.isSome_iff_exists.2 ⟨b, hb⟩
    · cases hp
      rfl
  | error e =>
    refine ((disable_holds hM hk).restrict fun _ _ _ _ h => h.1).bind ?_
    rintro r' t (⟨rfl, hw, v, o', rfl⟩ | ⟨⟨e', rfl⟩, hk', v, o', rfl⟩)
    · exact Kept.rests ⟨hw, rfl⟩ rfl rfl
    · rintro _ _ ⟨rfl, -⟩
      have hset : M.Kept w₀ { s with
          world := v, restored := o', last_apply := some (settings, false), applied := none } :=
        ⟨hk'.saved, hk'.features⟩
      refine ⟨hset.guard rfl, ?_⟩
      rintro _ _ ⟨rfl, -⟩
      have hflag : M.Kept w₀ { s with
          world := v, restored := o', last_apply := some (settings, false), applied := none,
          flag := false } := ⟨hk'.saved, hk'.features⟩
      exact ⟨hflag.guard rfl, hflag.rests rfl rfl⟩

/-- **What `enable` keeps.** -/
theorem enable_holds {settings : ProxySettings} (h : M.Rests w₀ s) :
    (enable (B := M.toBackend) settings).Holds M.CoveredStep (M.Guard w₀)
      (fun _ t => M.Rests w₀ t) s := by
  refine holds_applied (fun _ _ _ _ h => h.1) (h.toKept.guard rfl) ?_
  dsimp only
  split_ifs with hsame hnone
  · exact h
  · refine ((prepare_holds hM h.toKept).restrict fun _ _ _ _ h => h.1).andThen ?_ ?_
    · rintro _ t ⟨hk, hb, -⟩
      exact point_holds hM hk (hb rfl)
    · rintro e _ ⟨hk, -, u, st, o, rfl⟩
      exact hk.rests hnone (by rw [h.flag, hnone]; rfl)
  · exact point_holds hM h.toKept (h.backup (Option.isSome_iff_ne_none.2 hnone))

theorem refresh_holds {settings : Option ProxySettings} (h : M.Rests w₀ s) :
    (refresh (B := M.toBackend) settings).Holds M.CoveredStep (M.Guard w₀)
      (fun _ t => M.Rests w₀ t) s := by
  refine holds_applied (fun _ _ _ _ h => h.1) (h.toKept.guard rfl) ?_
  cases settings with
  | none => exact h
  | some settings =>
    dsimp only
    split_ifs
    · exact enable_holds hM h
    · exact h

/-- **What a start does**: what was left is given back and forgotten, or the restore failed and the
backup stays. -/
theorem recover_holds (h : M.Kept w₀ s) (happlied : s.applied = none) (hflag : s.flag = false) :
    (recover (B := M.toBackend)).Holds M.Step (M.Guard w₀)
      (fun r t => M.Rests w₀ t ∧ (r = none ∨ r = some (.ok ()) →
        M.Given w₀ t.world ∧ t.state.system_proxy_backup = none)) s := by
  refine holds_snapshot (fun _ _ _ _ h => h) (h.guard rfl) ?_
  cases hb : s.state.system_proxy_backup with
  | none =>
    have hw : M.Given w₀ s.world := by
      have := h.saved
      rwa [hb] at this
    exact ⟨h.rests happlied hflag, fun _ => ⟨hw, hb⟩⟩
  | some b =>
    refine (restoring_holds hM h hb).bind ?_
    rintro r _ ⟨u, o, rfl, hk, hok⟩
    cases r with
    | ok a =>
      obtain ⟨hu, rfl⟩ := hok rfl
      refine (forget_holds hu fun b' hb' => ?_).bind ?_
      · rw [← hb', ← hb]
      · rintro _ _ rfl
        exact ⟨Kept.rests ⟨hu, rfl⟩ rfl rfl, fun _ => ⟨hu, rfl⟩⟩
    | error e =>
      refine ⟨hk.rests happlied hflag, fun hr => ?_⟩
      rcases hr with hr | hr <;> cases hr

/-- Where every command succeeds, a start gives back what there is. -/
theorem recover_good :
    (recover (B := M.toBackend)).Holds M.GoodStep (fun _ _ => True)
      (fun r _ => r = none ∨ r = some (.ok ())) s := by
  refine holds_snapshot (fun _ _ _ _ h => h.1) trivial ?_
  cases hb : s.state.system_proxy_backup with
  | none => exact .inl rfl
  | some b =>
    have hrestoring : (restoring b).Holds M.GoodStep (fun _ _ => True) (fun r _ => r = .ok ()) s :=
      (blocking_good (hM.restore_ok b s.world)).bind fun r t hr _ _ _ => ⟨trivial, hr⟩
    refine hrestoring.bind fun r t hr => ?_
    subst hr
    exact fun _ _ _ => ⟨trivial, fun _ _ _ => ⟨trivial, fun _ _ _ => ⟨trivial, .inr rfl⟩⟩⟩

end Undoing

/-! ### Every run -/

variable (M)

/-- The configurations of a run from `w₀` in which no apply reaches past the saved backup. -/
abbrev Reached (w₀ : M.World) (c : Conf (Op M.toBackend) (Ans M.toBackend) Call
    (Option (Except Str Unit)) (Sys M)) : Prop :=
  (manager M.toBackend).Reaches M.CoveredStep M.Fresh (.down (Sys.first w₀)) c

/-- The system proxy gives back what it found, over every sequence of calls, deaths and starts in
which no apply reaches past the saved backup. -/
structure GivesBack (w₀ : M.World) : Prop where
  /-- A setting is as it was found, or the backup holds what it was. -/
  settings {c} (hc : M.Reached w₀ c) (k : M.Setting) :
    M.back k (M.value w₀ k) (M.value c.state.world k) ∨
      ∃ b v, c.state.state.system_proxy_backup = some b ∧ M.holds b k v ∧
        M.back k (M.value w₀ k) v
  /-- A backup holds what was found alone. -/
  backup {c} (hc : M.Reached w₀ c) {b : M.Backup} {k : M.Setting} {v : M.Value}
    (hb : c.state.state.system_proxy_backup = some b) (hk : M.holds b k v) :
    M.back k (M.value w₀ k) v
  /-- A backup leaves `state.json` only right after a restore of it that succeeded. -/
  leaves {c d} (hc : M.Reached w₀ c)
    (hd : (manager M.toBackend).Move M.CoveredStep M.Fresh c d) {b : M.Backup}
    (hb : c.state.state.system_proxy_backup = some b) :
    d.state.state.system_proxy_backup = some b ∨ c.state.restored = some b
  /-- Between two calls, what is applied is what the last apply was of, and it succeeded. -/
  applied {s : Sys M} (hs : M.Reached w₀ (.idle s)) :
    (∀ p, s.applied = some p → s.last_apply = some (p, true)) ∧ s.flag = s.applied.isSome
  /-- A `disable` all of whose calls succeed gives every setting back. -/
  disable {s t : Sys M} {r : Except Str Unit} (hs : M.Reached w₀ (.idle s))
    (hr : (disable (B := M.toBackend)).Runs M.GoodStep s r t) :
    r = .ok () ∧ M.Given w₀ t.world ∧ t.state.system_proxy_backup = none
  /-- So does a `recover`. -/
  recover {s s' t : Sys M} {r : Option (Except Str Unit)} (hs : M.Reached w₀ (.down s))
    (hf : M.Fresh s s')
    (hr : (recover (B := M.toBackend)).Runs M.GoodStep s' r t) :
    (r = none ∨ r = some (.ok ())) ∧ M.Given w₀ t.world ∧ t.state.system_proxy_backup = none

variable {M}

theorem Kept.fresh (hM : M.Lawful) (h : M.Kept w₀ s) (hf : M.Fresh s t) : M.Kept w₀ t := by
  obtain ⟨hworld, hstate, -⟩ := hf
  have hval := hM.reboot_value hworld
  refine ⟨?_, ?_⟩
  · have hs := h.saved
    rw [hstate]
    cases hb : s.state.system_proxy_backup with
    | none =>
      rw [hb] at hs
      intro k
      rw [hval k]
      exact hs k
    | some b =>
      rw [hb] at hs
      refine ⟨hs.1, fun k hk => ?_⟩
      rw [hval k]
      exact hs.2 k hk
  · rw [hstate]
    exact h.features

/-- What is true in every configuration reached. -/
theorem sound (hM : M.Lawful) {c} (hc : M.Reached w₀ c) :
    Process.Sound M.CoveredStep (M.Guard w₀) (M.Kept w₀) (M.Rests w₀) c := by
  refine Process.sound (fun s t h => h.1) (fun s h => h.toKept) (fun s t hs hf => ?_)
    (fun call s hs => ?_) ?_ hc
  · have hk := Kept.fresh hM hs hf
    obtain ⟨-, -, happlied, hflag, -⟩ := hf
    exact ⟨hk, ((recover_holds hM hk happlied hflag).restrict fun _ _ _ _ h => h.1).mono
      fun r t h => h.1⟩
  · cases call with
    | enable settings => exact (enable_holds hM hs).bind fun r t h => h
    | disable =>
      refine ((disable_holds hM hs.toKept).restrict fun _ _ _ _ h => h.1).bind ?_
      rintro r t (⟨rfl, hw, u, o, rfl⟩ | ⟨⟨e, rfl⟩, hk, u, o, rfl⟩)
      · exact Kept.rests ⟨hw, rfl⟩ rfl rfl
      · exact ⟨hk, hs.backup, hs.applied, hs.flag⟩
    | refresh settings => exact (refresh_holds hM hs).bind fun r t h => h
  · exact ⟨fun k => hM.back_refl k _, rfl⟩

/-- Every move keeps a backup, or comes right after a restore of it. -/
theorem leaves (hM : M.Lawful) {c d} (hc : M.Reached w₀ c)
    (hd : (manager M.toBackend).Move M.CoveredStep M.Fresh c d) {b : M.Backup}
    (hb : c.state.state.system_proxy_backup = some b) :
    d.state.state.system_proxy_backup = some b ∨ c.state.restored = some b := by
  cases hd with
  | start hf =>
    obtain ⟨-, hstate, -⟩ := hf
    exact .inl (by rw [← hb]; exact congrArg _ hstate)
  | call _ _ => exact .inl hb
  | op hx => exact ((sound hM hc).op hx).2 b hb
  | ended _ _ _ => exact .inl hb
  | die _ => exact .inl hb

/-- **The manager gives back what it found**, on every lawful machine. -/
theorem givesBack (hM : M.Lawful) (w₀ : M.World) : M.GivesBack w₀ where
  settings {c} hc k := by
    have hs := ((sound hM hc).off fun s h => h.toKept).saved
    cases hb : c.state.state.system_proxy_backup with
    | none =>
      rw [hb] at hs
      exact .inl (hs k)
    | some b =>
      rw [hb] at hs
      rcases hs.2.saved hs.1 k with h | ⟨v, hv, h⟩
      · exact .inl h
      · exact .inr ⟨b, v, rfl, hv, h⟩
  backup {c} hc b k v hb hk := by
    have hs := ((sound hM hc).off fun s h => h.toKept).saved
    rw [hb] at hs
    exact hs.1 k v hk
  leaves hc hd _ hb := leaves hM hc hd hb
  applied hs := ⟨(sound hM hs).applied, (sound hM hs).flag⟩
  disable {s t r} hs hr := by
    have hk := (sound hM hs).toKept
    have hok := (disable_good hM).runs hr
    subst hok
    rcases (disable_holds hM hk).runs (hr.relax fun _ _ _ _ h => h.1) with
      ⟨-, hw, u, o, rfl⟩ | ⟨⟨e, he⟩, -⟩
    · exact ⟨rfl, hw, rfl⟩
    · cases he
  recover {s s' t r} hs hf hr := by
    have hk := Kept.fresh hM (sound hM hs) hf
    obtain ⟨-, -, happlied, hflag, -⟩ := hf
    have hok := (recover_good hM).runs hr
    exact ⟨hok, ((recover_holds hM hk happlied hflag).runs (hr.relax fun _ _ _ _ h => h.1)).2 hok⟩

end Machine

end Rurge.SystemProxy
