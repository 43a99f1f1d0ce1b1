import Rurge.Wireguard.Device

/-!
# One tunnel of a key

Whatever calls of `Device::start` go on at once, and whichever tunnels end or are dropped meanwhile,
the table never has two conflicting tunnels that run (`exclusive`), a call returns a tunnel of its
own section and carrier, and only a call as late as every user of a tunnel takes it over.
-/

namespace Rurge

namespace Tunnels

open Runs

variable {Key Rest : Type*}

/-! ### Tunnels as they go on -/

/-- The same tunnel, later on. -/
structure Device.Later (before after : Device Key Rest) : Prop where
  config : after.config = before.config
  carrier : after.carrier = before.carrier
  generation : before.generation ≤ after.generation

namespace Device

variable (device : Device Key Rest)

theorem Later.refl : device.Later device := ⟨rfl, rfl, le_rfl⟩

theorem later_share (generation : ℕ) : device.Later (device.share generation) :=
  ⟨rfl, rfl, le_max_left _ _⟩

theorem later_end_with (ending : Ending) : device.Later (device.end_with ending) :=
  ⟨rfl, rfl, le_rfl⟩

theorem later_drop : device.Later device.drop := ⟨rfl, rfl, le_rfl⟩

end Device

namespace World

/-- Every tunnel of `w` is there in `w'`, as it is later on. -/
def Later (w w' : World Key Rest) : Prop :=
  ∀ (d : ℕ) (device : Device Key Rest), w.devices[d]? = some device →
    ∃ device', w'.devices[d]? = some device' ∧ device.Later device'

/-- No tunnel is held in `w'` that is not in `w`, with the same generation. -/
def Calm (w w' : World Key Rest) : Prop :=
  ∀ (d : ℕ) (device' : Device Key Rest), w'.upgrade d = some device' →
    ∃ device, w.upgrade d = some device ∧ device'.generation = device.generation

variable {w w' : World Key Rest}

theorem later_of_devices (h : w'.devices = w.devices) : Later w w' :=
  fun _ device hd => ⟨device, h ▸ hd, .refl device⟩

theorem later_change {f : Device Key Rest → Device Key Rest}
    (hf : ∀ device : Device Key Rest, device.Later (f device)) (d : ℕ) :
    Later w (w.change d f) := by
  intro j device hj
  by_cases hd : d = j
  · exact ⟨f device, by simp [change, hd, hj], hf device⟩
  · exact ⟨device, by simp [change, hd, hj], .refl device⟩

theorem later_append {devices : List (Device Key Rest)} (h : w'.devices = w.devices ++ devices) :
    Later w w' := by
  intro d device hd
  refine ⟨device, ?_, .refl device⟩
  rw [h, List.getElem?_append_left (List.getElem?_eq_some_iff.1 hd).1, hd]

theorem calm_of_devices (h : w'.devices = w.devices) : Calm w w' :=
  fun _ device' hd => ⟨device', by rwa [upgrade, ← h], rfl⟩

theorem upgrade_eq_some {d : ℕ} {device : Device Key Rest} :
    w.upgrade d = some device ↔ w.devices[d]? = some device ∧ device.dropped = false := by
  simp [upgrade, Option.filter_eq_some_iff]

/-- A tunnel dropped or over: nothing is held that was not. -/
theorem calm_change {f : Device Key Rest → Device Key Rest} {d : ℕ}
    (hdropped : ∀ device, (f device).dropped = false → device.dropped = false)
    (hgeneration : ∀ device, (f device).generation = device.generation) :
    Calm w (w.change d f) := by
  intro j device' h
  simp only [upgrade_eq_some, change, List.getElem?_modify] at h ⊢
  obtain ⟨hj, hheld⟩ := h
  rw [Option.map_eq_map, Option.map_eq_some_iff] at hj
  obtain ⟨device, hj, rfl⟩ := hj
  refine ⟨device, ⟨hj, ?_⟩, ?_⟩
  · split_ifs at hheld with hd
    · exact hdropped device hheld
    · exact hheld
  · split_ifs
    · exact hgeneration device
    · rfl

end World

variable [DecidableEq Key]

theorem conflict_comm (a b : WireGuardSection Key Rest) : conflict a b = conflict b a := by
  rw [Bool.eq_iff_iff]
  simp only [conflict, Bool.and_eq_true, beq_iff_eq, List.any_eq_true]
  constructor
  · rintro ⟨hkey, p, hp, q, hq, hpq⟩
    exact ⟨hkey.symm, q, hq, p, hp, hpq.symm⟩
  · rintro ⟨hkey, p, hp, q, hq, hpq⟩
    exact ⟨hkey.symm, q, hq, p, hp, hpq.symm⟩

/-- Nothing at the entry refuses the call. -/
def World.Passes (w : World Key Rest) (call : Call Key Rest) (entry : Entry Key Rest) : Prop :=
  ∀ device, w.upgrade entry.device = some device → conflict entry.config call.config = true →
    device.generation ≤ call.generation

theorem World.Passes.stays {w w' : World Key Rest} {call : Call Key Rest} {entry : Entry Key Rest}
    (h : w.Passes call entry) (hcalm : Calm w w') : w'.Passes call entry := by
  intro device' hd hconflict
  obtain ⟨device, hheld, hgeneration⟩ := hcalm _ _ hd
  exact hgeneration ▸ h device hheld hconflict

variable [DecidableEq Rest]

theorem Entry.is_of_iff {entry : Entry Key Rest} {call : Call Key Rest} :
    entry.is_of call = true ↔ entry.config = call.config ∧ entry.carrier = call.carrier := by
  simp [Entry.is_of]

namespace World

variable {w w' : World Key Rest} {k : ℕ} {call : Call Key Rest}

/-! ### What a call knows -/

/-- What a call knows where it stands. -/
def Stands (w : World Key Rest) (k : ℕ) (call : Call Key Rest) : Prop :=
  match call.stage with
  | .Retaining _ | .Finding | .RetainingAgain _ => w.lock = some k
  | .Found d =>
    w.lock = some k ∧ ∃ entry ∈ w.tunnels, entry.device = d ∧ entry.is_of call = true
  | .Deciding i =>
    w.lock = some k ∧ ∀ j < i, ∀ entry, w.tunnels[j]? = some entry → w.Passes call entry
  | .Replacing i =>
    w.lock = some k ∧ (∀ entry ∈ w.tunnels, w.Passes call entry) ∧
      ∀ j < i, ∀ entry, w.tunnels[j]? = some entry → conflict entry.config call.config = false
  | .Over (.Ok d) => ∃ device, w.devices[d]? = some device ∧ call.generation ≤ device.generation
  | _ => True

/-- What a call knows it goes on to know, as long as nothing but endings happen while it has the
lock. -/
theorem Stands.stays (h : w.Stands k call) (hlater : Later w w')
    (hlock : w.lock = some k → w'.lock = some k ∧ w'.tunnels = w.tunnels ∧ Calm w w') :
    w'.Stands k call := by
  unfold Stands at h ⊢
  split at h
  case h_1 => exact (hlock h).1
  case h_2 => exact (hlock h).1
  case h_3 => exact (hlock h).1
  case h_4 =>
    obtain ⟨hk, htunnels, -⟩ := hlock h.1
    exact ⟨hk, htunnels ▸ h.2⟩
  case h_5 =>
    obtain ⟨hk, htunnels, hcalm⟩ := hlock h.1
    exact ⟨hk, fun j hj entry he => (h.2 j hj entry (htunnels ▸ he)).stays hcalm⟩
  case h_6 =>
    obtain ⟨hk, htunnels, hcalm⟩ := hlock h.1
    exact ⟨hk, fun entry he => (h.2.1 entry (htunnels ▸ he)).stays hcalm, htunnels ▸ h.2.2⟩
  case h_7 =>
    obtain ⟨device, hd, hle⟩ := h
    obtain ⟨device', hd', hlater'⟩ := hlater _ _ hd
    exact ⟨device', hd', hle.trans hlater'.generation⟩
  case h_8 => trivial

/-- The invariant: no two entries of the table conflict, each is of the section and the carrier that
its tunnel was built of, and each call knows what it should. -/
structure Sound (w : World Key Rest) : Prop where
  disjoint : w.tunnels.Pairwise fun entry other => conflict entry.config other.config = false
  entries : ∀ entry ∈ w.tunnels, ∃ device, w.devices[entry.device]? = some device ∧
    device.config = entry.config ∧ device.carrier = entry.carrier
  stands : ∀ k call, w.calls[k]? = some call → w.Stands k call

theorem sound_new : (new : World Key Rest).Sound :=
  ⟨.nil, by simp [new], by simp [new]⟩

/-! ### The steps of a call -/

/-- What a step of call `k` can do. -/
inductive Moves (w : World Key Rest) (k : ℕ) (call : Call Key Rest) : World Key Rest → Prop
  /-- It waits. -/
  | stays : Moves w k call w
  /-- It takes the lock. -/
  | takes (stage : Stage) (hlock : w.lock = none)
      (hstage : stage = .Retaining 0 ∨ stage = .RetainingAgain 0) :
      Moves w k call { w.go k stage with lock := some k }
  /-- It goes on, the table untouched. -/
  | goes (stage : Stage) (hlock : w.lock = some k) (hover : ∀ outcome, stage ≠ .Over outcome)
      (hstands : w.Stands k { call with stage := stage }) : Moves w k call (w.go k stage)
  /-- It takes a dead entry out. -/
  | retains (i : ℕ) (hlock : w.lock = some k)
      (hstage : call.stage = .Retaining i ∨ call.stage = .RetainingAgain i) :
      Moves w k call (w.remove i)
  /-- It leaves the table for the dials. -/
  | dials (hlock : w.lock = some k) : Moves w k call (w.leave k .Dialling)
  /-- It shares the tunnel of an entry. -/
  | shares (entry : Entry Key Rest) (device : Device Key Rest) (hlock : w.lock = some k)
      (hentry : entry ∈ w.tunnels) (hof : entry.is_of call = true)
      (hheld : w.upgrade entry.device = some device) : Moves w k call (w.shares k call entry.device)
  /-- It is refused. -/
  | refused (entry : Entry Key Rest) (device : Device Key Rest) (hlock : w.lock = some k)
      (hentry : entry ∈ w.tunnels) (hheld : w.upgrade entry.device = some device)
      (hconflict : conflict entry.config call.config = true)
      (hlater : call.generation < device.generation) :
      Moves w k call (w.leave k (.Over .Superseded))
  /-- It takes an entry out that its tunnel replaces, the tunnel of which nobody holds. -/
  | replaces (i : ℕ) (entry : Entry Key Rest) (hstage : call.stage = .Replacing i)
      (hentry : w.tunnels[i]? = some entry) : Moves w k call (w.remove i)
  /-- It takes an entry out that its tunnel replaces, and closes the tunnel. -/
  | closes (i : ℕ) (entry : Entry Key Rest) (device : Device Key Rest)
      (hstage : call.stage = .Replacing i) (hentry : w.tunnels[i]? = some entry)
      (hheld : w.upgrade entry.device = some device)
      (hconflict : conflict entry.config call.config = true) :
      Moves w k call ((w.change entry.device Device.close).remove i)
  /-- It registers its own tunnel. -/
  | registers (hlock : w.lock = some k)
      (hfree : ∀ entry ∈ w.tunnels, conflict entry.config call.config = false) :
      Moves w k call (w.register k call)

theorem moves_retain {i : ℕ} {at_ : ℕ → Stage} {next : Stage} (hlock : w.lock = some k)
    (hstage : call.stage = .Retaining i ∨ call.stage = .RetainingAgain i)
    (hnext : w.Moves k call (w.go k next)) (hat : w.Moves k call (w.go k (at_ (i + 1)))) :
    w.Moves k call (w.retain k i at_ next) := by
  unfold retain
  split
  case h_1 => exact hnext
  case h_2 entry hentry =>
    split
    case h_1 device hheld =>
      split_ifs
      · exact .retains i hlock hstage
      · exact hat
    case h_2 => exact .retains i hlock hstage

theorem moves_find (hlock : w.lock = some k) : w.Moves k call (w.find k call) := by
  unfold find
  split
  case h_1 entry hentry =>
    have hof : entry.is_of call = true := by simpa using List.find?_some hentry
    exact .goes _ hlock (by simp) ⟨hlock, entry, List.mem_of_find?_eq_some hentry, rfl, hof⟩
  case h_2 => exact .dials hlock

theorem moves_found {d : ℕ} (hstage : call.stage = .Found d) (h : w.Stands k call) :
    w.Moves k call (w.found k call d) := by
  unfold Stands at h
  rw [hstage] at h
  obtain ⟨hlock, entry, hentry, rfl, hof⟩ := h
  unfold found
  split
  case h_1 device hheld => exact .shares entry device hlock hentry hof hheld
  case h_2 => exact .dials hlock

theorem moves_decide_at {i : ℕ} (hstage : call.stage = .Deciding i) (h : w.Stands k call) :
    w.Moves k call (w.decide_at k call i) := by
  unfold Stands at h
  rw [hstage] at h
  obtain ⟨hlock, hpassed⟩ := h
  -- the entry at `i`, once nothing at it refuses the call
  have hpasses : ∀ entry, w.tunnels[i]? = some entry → w.Passes call entry →
      w.Moves k call (w.go k (.Deciding (i + 1))) := by
    intro entry hentry hpass
    refine .goes _ hlock (by simp) ⟨hlock, fun j hj other hother => ?_⟩
    rcases Nat.lt_succ_iff_lt_or_eq.1 hj with hj | rfl
    · exact hpassed j hj other hother
    · rw [hentry, Option.some.injEq] at hother
      exact hother ▸ hpass
  unfold decide_at
  split
  case h_1 hnone =>
    refine .goes _ hlock (by simp) ⟨hlock, fun entry hentry => ?_, by simp⟩
    obtain ⟨j, hj, rfl⟩ := List.getElem_of_mem hentry
    have hlt : j < i := hj.trans_le (List.getElem?_eq_none_iff.1 hnone)
    exact hpassed j hlt _ (List.getElem?_eq_getElem hj)
  case h_2 entry hentry =>
    have hmem := List.mem_of_getElem? hentry
    split
    case h_1 hdropped =>
      exact hpasses entry hentry fun device hheld => by simp [hdropped] at hheld
    case h_2 device hheld =>
      split_ifs with hof hrefuse
      · exact .shares entry device hlock hmem hof hheld
      · rw [Bool.and_eq_true, decide_eq_true_iff] at hrefuse
        exact .refused entry device hlock hmem hheld hrefuse.1 hrefuse.2
      · refine hpasses entry hentry fun device' hheld' hconflict => ?_
        rw [hheld, Option.some.injEq] at hheld'
        subst hheld'
        simpa [hconflict] using hrefuse

theorem moves_replace {i : ℕ} (hstage : call.stage = .Replacing i) (h : w.Stands k call) :
    w.Moves k call (w.replace k call i) := by
  unfold Stands at h
  rw [hstage] at h
  obtain ⟨hlock, hpasses, hfree⟩ := h
  unfold replace
  split
  case h_1 hnone =>
    refine .registers hlock fun entry hentry => ?_
    obtain ⟨j, hj, rfl⟩ := List.getElem_of_mem hentry
    have hlt : j < i := hj.trans_le (List.getElem?_eq_none_iff.1 hnone)
    exact hfree j hlt _ (List.getElem?_eq_getElem hj)
  case h_2 entry hentry =>
    split_ifs with hconflict
    · split
      case h_1 device hheld => exact .closes i entry device hstage hentry hheld hconflict
      case h_2 => exact .replaces i entry hstage hentry
    · refine .goes _ hlock (by simp) ⟨hlock, hpasses, fun j hj other hother => ?_⟩
      rcases Nat.lt_succ_iff_lt_or_eq.1 hj with hj | rfl
      · exact hfree j hj other hother
      · rw [hentry, Option.some.injEq] at hother
        simpa [hother] using hconflict

theorem moves_advance (h : w.Stands k call) : w.Moves k call (w.advance k call) := by
  have hgoes : ∀ stage : Stage, w.lock = some k → (∀ outcome, stage ≠ .Over outcome) →
      w.Stands k { call with stage := stage } → w.Moves k call (w.go k stage) :=
    fun stage => .goes stage
  have htakes : ∀ stage : Stage, stage = .Retaining 0 ∨ stage = .RetainingAgain 0 →
      w.Moves k call (w.take k stage) := by
    intro stage hstage
    unfold take
    split_ifs with hlock
    · exact .takes stage hlock hstage
    · exact .stays
  unfold advance
  split
  case h_1 => exact htakes _ (.inl rfl)
  case h_2 i hstage =>
    have hlock : w.lock = some k := by simpa [Stands, hstage] using h
    exact moves_retain hlock (.inl hstage) (hgoes _ hlock (by simp) hlock)
      (hgoes _ hlock (by simp) hlock)
  case h_3 hstage => exact moves_find (by simpa [Stands, hstage] using h)
  case h_4 d hstage => exact moves_found hstage h
  case h_5 => exact .stays
  case h_6 => exact htakes _ (.inr rfl)
  case h_7 i hstage =>
    have hlock : w.lock = some k := by simpa [Stands, hstage] using h
    exact moves_retain hlock (.inr hstage) (hgoes _ hlock (by simp) ⟨hlock, by simp⟩)
      (hgoes _ hlock (by simp) hlock)
  case h_8 i hstage => exact moves_decide_at hstage h
  case h_9 i hstage => exact moves_replace hstage h
  case h_10 => exact .stays

/-! ### The invariant, kept -/

omit [DecidableEq Key] [DecidableEq Rest] in
theorem calls_go {stage : Stage} {j : ℕ} {other : Call Key Rest} (hc : w.calls[k]? = some call)
    (h : (w.go k stage).calls[j]? = some other) :
    j = k ∧ other = { call with stage := stage } ∨ j ≠ k ∧ w.calls[j]? = some other := by
  by_cases hj : j = k
  · subst hj
    simp only [go, List.getElem?_modify, hc, if_true, Option.map_eq_map, Option.map_some,
      Option.some.injEq] at h
    exact .inl ⟨rfl, h.symm⟩
  · refine .inr ⟨hj, ?_⟩
    simpa [go, List.getElem?_modify, Ne.symm hj] using h

omit [DecidableEq Key] [DecidableEq Rest] in
/-- The tunnel that a call registers. -/
theorem devices_register : (w.register k call).devices[w.devices.length]? =
    some ⟨call.config, call.carrier, call.generation, none, false⟩ := by
  simp [register, leave, go]

/-- The invariant is kept by a step with the lock: the table's own part, and what the call that
takes the step knows, are left to show. -/
theorem Sound.next (h : w.Sound) (hlock : w.lock = none ∨ w.lock = some k) (hlater : Later w w')
    (hdisjoint : w'.tunnels.Pairwise fun entry other => conflict entry.config other.config = false)
    (hentries : ∀ entry ∈ w'.tunnels, ∃ device, w'.devices[entry.device]? = some device ∧
      device.config = entry.config ∧ device.carrier = entry.carrier)
    (hcalls : ∀ j other, w'.calls[j]? = some other →
      w'.Stands j other ∨ j ≠ k ∧ w.calls[j]? = some other) : w'.Sound := by
  refine ⟨hdisjoint, hentries, fun j other hj => ?_⟩
  rcases hcalls j other hj with hown | ⟨hne, hother⟩
  · exact hown
  · refine (h.stands j other hother).stays hlater fun hheld => ?_
    rcases hlock with hlock | hlock
    · simp [hlock] at hheld
    · rw [hlock, Option.some.injEq] at hheld
      exact absurd hheld.symm hne

/-- What the entries say of their tunnels stays true, of those that are kept. -/
theorem Sound.entries_stay (h : w.Sound) (hlater : Later w w') {entry : Entry Key Rest}
    (hentry : entry ∈ w.tunnels) : ∃ device, w'.devices[entry.device]? = some device ∧
      device.config = entry.config ∧ device.carrier = entry.carrier := by
  obtain ⟨device, hd, hconfig, hcarrier⟩ := h.entries entry hentry
  obtain ⟨device', hd', hlater'⟩ := hlater _ _ hd
  exact ⟨device', hd', hlater'.config.trans hconfig, hlater'.carrier.trans hcarrier⟩

/-- A step of the call that leaves the table's lines as they are, but for those it takes out. -/
theorem Sound.thins (h : w.Sound) (hlock : w.lock = none ∨ w.lock = some k) (hlater : Later w w')
    (htunnels : w'.tunnels.Sublist w.tunnels)
    (hcalls : ∀ j other, w'.calls[j]? = some other →
      w'.Stands j other ∨ j ≠ k ∧ w.calls[j]? = some other) : w'.Sound :=
  h.next hlock hlater (h.disjoint.sublist htunnels)
    (fun _ hentry => h.entries_stay hlater (htunnels.subset hentry)) hcalls

theorem Sound.moves (h : w.Sound) (hc : w.calls[k]? = some call) (hmoves : w.Moves k call w') :
    w'.Sound := by
  have hstands := h.stands k call hc
  -- a step to a stage of the call
  have hgoes : ∀ (u : World Key Rest) (stage : Stage), u.calls = (w.go k stage).calls →
      u.Stands k { call with stage := stage } → ∀ j other, u.calls[j]? = some other →
        u.Stands j other ∨ j ≠ k ∧ w.calls[j]? = some other := by
    intro u stage hu hown j other hj
    rw [hu] at hj
    rcases calls_go hc hj with ⟨rfl, rfl⟩ | hother
    · exact .inl hown
    · exact .inr hother
  -- a step that leaves the call where it is
  have hstays : ∀ u : World Key Rest, u.calls = w.calls → u.Stands k call →
      ∀ j other, u.calls[j]? = some other →
        u.Stands j other ∨ j ≠ k ∧ w.calls[j]? = some other := by
    intro u hu hown j other hj
    rw [hu] at hj
    by_cases hne : j = k
    · subst hne
      rw [hc, Option.some.injEq] at hj
      exact .inl (hj ▸ hown)
    · exact .inr ⟨hne, hj⟩
  -- what a call in the midst of the replacement knows, an entry taken out that it replaces
  have hreplaces : ∀ (u : World Key Rest) (i : ℕ), call.stage = .Replacing i → u.lock = w.lock →
      u.tunnels = w.tunnels.eraseIdx i → Calm w u → u.Stands k call := by
    intro u i hstage hlock htunnels hcalm
    unfold Stands at hstands ⊢
    rw [hstage] at hstands ⊢
    refine ⟨hlock ▸ hstands.1, fun entry hentry => ?_, fun j hj entry hentry => ?_⟩
    · rw [htunnels] at hentry
      exact (hstands.2.1 entry (List.mem_of_mem_eraseIdx hentry)).stays hcalm
    · rw [htunnels, List.getElem?_eraseIdx_of_lt hj] at hentry
      exact hstands.2.2 j hj entry hentry
  cases hmoves with
  | stays => exact h
  | takes stage hlock hstage =>
    refine h.thins (.inl hlock) (later_of_devices rfl) (.refl _) (hgoes _ stage rfl ?_)
    rcases hstage with rfl | rfl
    · rfl
    · rfl
  | goes stage hlock _ hown =>
    refine h.thins (.inr hlock) (later_of_devices rfl) (.refl _) (hgoes _ stage rfl ?_)
    exact hown.stays (later_of_devices rfl) fun hlock => ⟨hlock, rfl, calm_of_devices rfl⟩
  | retains i hlock hstage =>
    refine h.thins (.inr hlock) (later_of_devices rfl) (List.eraseIdx_sublist ..) (hstays _ rfl ?_)
    unfold Stands
    rcases hstage with hstage | hstage
    · rw [hstage]
      exact hlock
    · rw [hstage]
      exact hlock
  | dials hlock =>
    exact h.thins (.inr hlock) (later_of_devices rfl) (.refl _) (hgoes _ _ rfl trivial)
  | shares entry device hlock hentry hof hheld =>
    refine h.thins (.inr hlock) (later_change (·.later_share _) _) (.refl _) (hgoes _ _ rfl ?_)
    refine ⟨device.share call.generation, ?_, le_max_right _ _⟩
    simp [World.shares, change, leave, go, (upgrade_eq_some.1 hheld).1]
  | refused entry device hlock hentry hheld hconflict hlater =>
    exact h.thins (.inr hlock) (later_of_devices rfl) (.refl _) (hgoes _ _ rfl trivial)
  | replaces i entry hstage hentry =>
    have hlock : w.lock = some k := by
      unfold Stands at hstands
      rw [hstage] at hstands
      exact hstands.1
    refine h.thins (.inr hlock) (later_of_devices rfl) (List.eraseIdx_sublist ..) (hstays _ rfl ?_)
    exact hreplaces _ i hstage rfl rfl (calm_of_devices rfl)
  | closes i entry device hstage hentry hheld hconflict =>
    have hlock : w.lock = some k := by
      unfold Stands at hstands
      rw [hstage] at hstands
      exact hstands.1
    refine h.thins (.inr hlock) (later_change (·.later_end_with _) _) (List.eraseIdx_sublist ..)
      (hstays _ rfl ?_)
    exact hreplaces _ i hstage rfl rfl (calm_change (fun _ => id) fun _ => rfl)
  | registers hlock hfree =>
    have hlater : Later w (w.register k call) := later_append rfl
    refine h.next (.inr hlock) hlater ?_ ?_ (hgoes _ _ rfl ?_)
    · refine List.pairwise_append.2 ⟨h.disjoint, List.pairwise_singleton _ _, ?_⟩
      rintro entry hentry other hother
      rw [List.mem_singleton.1 hother]
      exact hfree entry hentry
    · intro entry hentry
      rcases List.mem_append.1 hentry with hentry | hentry
      · exact h.entries_stay hlater hentry
      · rw [List.mem_singleton.1 hentry]
        exact ⟨_, devices_register, rfl, rfl⟩
    · exact ⟨_, devices_register, le_rfl⟩

/-- A step that neither moves a call nor touches the table. -/
theorem Sound.rests (h : w.Sound) (hlater : Later w w') (htunnels : w'.tunnels = w.tunnels)
    (hlock : w'.lock = w.lock) (hcalm : Calm w w')
    (hcalls : ∀ j other, w'.calls[j]? = some other →
      w'.Stands j other ∨ w.calls[j]? = some other) : w'.Sound := by
  refine ⟨htunnels ▸ h.disjoint, fun entry hentry => ?_, fun j other hj => ?_⟩
  · exact h.entries_stay hlater (htunnels ▸ hentry)
  · rcases hcalls j other hj with hown | hother
    · exact hown
    · exact (h.stands j other hother).stays hlater fun hheld => ⟨hlock ▸ hheld, htunnels, hcalm⟩

/-- A call at its dials goes on without the table. -/
theorem Sound.goes (h : w.Sound) (hc : w.calls[k]? = some call) {stage : Stage}
    (hstage : stage = .Dialled ∨ stage = .Over .Unreachable ∨ stage = .Over .Cancelled) :
    (w.go k stage).Sound := by
  refine h.rests (later_of_devices rfl) rfl rfl (calm_of_devices rfl) fun j other hj => ?_
  rcases calls_go hc hj with ⟨rfl, rfl⟩ | ⟨-, hother⟩
  · refine .inl ?_
    rcases hstage with rfl | rfl | rfl
    · trivial
    · trivial
    · trivial
  · exact .inr hother

theorem Sound.step (h : w.Sound) (a : Action Key Rest) : (w.step a).Sound := by
  cases a with
  | start config carrier generation =>
    refine h.rests (later_of_devices rfl) rfl rfl (calm_of_devices rfl) fun j other hj => ?_
    simp only [World.step, List.getElem?_append] at hj
    split_ifs at hj with hlt
    · exact .inr hj
    · rw [List.getElem?_singleton] at hj
      split_ifs at hj
      · rw [Option.some.injEq] at hj
        exact .inl (hj ▸ trivial)
  | advance k =>
    simp only [World.step]
    split
    case h_1 call hc => exact h.moves hc (moves_advance (h.stands k call hc))
    case h_2 => exact h
  | dialled k reached =>
    simp only [World.step]
    split
    case h_1 call hc =>
      split_ifs
      · unfold dials
        split_ifs
        · exact h.goes hc (.inl rfl)
        · exact h.goes hc (.inr (.inl rfl))
      · exact h
    case h_2 => exact h
  | cancel k =>
    simp only [World.step]
    split
    case h_1 call hc =>
      split_ifs
      · exact h.goes hc (.inr (.inr rfl))
      · exact h
    case h_2 => exact h
  | drop d =>
    exact h.rests (later_change Device.later_drop d) rfl rfl
      (calm_change (fun _ hd => absurd hd (by simp [Device.drop])) fun _ => rfl) fun _ _ => .inr
  | ends d =>
    exact h.rests (later_change (·.later_end_with _) d) rfl rfl
      (calm_change (fun _ => id) fun _ => rfl) fun _ _ => .inr

/-! ### What holds at every moment and of every step -/

/-- Two tunnels of the table that run do not conflict. -/
def Exclusive (w : World Key Rest) : Prop :=
  ∀ (i j : ℕ) (entry other : Entry Key Rest) (device device' : Device Key Rest), i ≠ j →
    w.tunnels[i]? = some entry → w.tunnels[j]? = some other →
    w.devices[entry.device]? = some device → w.devices[other.device]? = some device' →
    device.running = true → device'.running = true → conflict device.config device'.config = false

/-- A call that succeeds in the step returns a tunnel of its own section and carrier, which is in
the table, and at least as late as the call. -/
def Returns (w : World Key Rest) (a : Action Key Rest) : Prop :=
  ∀ (k : ℕ) (call : Call Key Rest) (d : ℕ), w.calls[k]? ≠ some call →
    (w.step a).calls[k]? = some call → call.stage = .Over (.Ok d) →
    (∃ entry ∈ (w.step a).tunnels, entry.device = d ∧ entry.config = call.config ∧
      entry.carrier = call.carrier) ∧
    ∃ device, (w.step a).upgrade d = some device ∧ device.config = call.config ∧
      device.carrier = call.carrier ∧ call.generation ≤ device.generation

/-- A tunnel superseded in the step is so by a call that conflicts with it, as late as every call
that the tunnel was returned to. -/
def Supersedes (w : World Key Rest) (a : Action Key Rest) : Prop :=
  ∀ (d : ℕ) (device device' : Device Key Rest), w.devices[d]? = some device →
    (w.step a).devices[d]? = some device' → device.ending = none →
    device'.ending = some .Superseded →
    ∃ k call, a = .advance k ∧ w.calls[k]? = some call ∧
      conflict device.config call.config = true ∧
      ∀ user ∈ w.calls, user.stage = .Over (.Ok d) → user.generation ≤ call.generation

/-- A call refused in the step has a conflicting tunnel of a later generation in the table. -/
def Refuses (w : World Key Rest) (a : Action Key Rest) : Prop :=
  ∀ (k : ℕ) (call : Call Key Rest), w.calls[k]? ≠ some call →
    (w.step a).calls[k]? = some call → call.stage = .Over .Superseded →
    ∃ entry ∈ (w.step a).tunnels, ∃ device, (w.step a).upgrade entry.device = some device ∧
      conflict entry.config call.config = true ∧ call.generation < device.generation

theorem Sound.exclusive (h : w.Sound) : w.Exclusive := by
  intro i j entry other device device' hne hi hj hd hd' _ _
  obtain ⟨_, hd₂, hconfig, -⟩ := h.entries entry (List.mem_of_getElem? hi)
  obtain ⟨_, hd₂', hconfig', -⟩ := h.entries other (List.mem_of_getElem? hj)
  rw [hd, Option.some.injEq] at hd₂
  rw [hd', Option.some.injEq] at hd₂'
  subst hd₂ hd₂'
  rw [hconfig, hconfig']
  obtain ⟨hli, rfl⟩ := List.getElem?_eq_some_iff.1 hi
  obtain ⟨hlj, rfl⟩ := List.getElem?_eq_some_iff.1 hj
  rcases Nat.lt_or_gt_of_ne hne with hlt | hlt
  · exact List.pairwise_iff_getElem.1 h.disjoint i j hli hlj hlt
  · rw [conflict_comm]
    exact List.pairwise_iff_getElem.1 h.disjoint j i hlj hli hlt

/-- A step of call `k` leaves the other calls alone. -/
theorem Moves.calls (hmoves : w.Moves k call w') (hc : w.calls[k]? = some call) {j : ℕ}
    {other : Call Key Rest} (hj : w'.calls[j]? = some other) :
    j = k ∨ w.calls[j]? = some other := by
  have hgoes : ∀ stage : Stage, (w.go k stage).calls[j]? = some other →
      j = k ∨ w.calls[j]? = some other := by
    intro stage hj
    rcases calls_go hc hj with ⟨rfl, -⟩ | ⟨-, hother⟩
    · exact .inl rfl
    · exact .inr hother
  cases hmoves with
  | stays => exact .inr hj
  | takes stage => exact hgoes stage hj
  | goes stage => exact hgoes stage hj
  | retains => exact .inr hj
  | dials => exact hgoes _ hj
  | shares entry => exact hgoes _ hj
  | refused => exact hgoes _ hj
  | replaces => exact .inr hj
  | closes => exact .inr hj
  | registers => exact hgoes _ hj

/-- A call that comes to its answer in a step takes the step itself, with the lock. -/
theorem Sound.answered (h : w.Sound) {a : Action Key Rest} {j : ℕ} {other : Call Key Rest}
    (hnew : w.calls[j]? ≠ some other) (hj : (w.step a).calls[j]? = some other)
    (hover : other.stage = .Over .Superseded ∨ ∃ d, other.stage = .Over (.Ok d)) :
    ∃ call, w.calls[j]? = some call ∧ w.Moves j call (w.step a) := by
  have hgoes : ∀ k call (stage : Stage), w.calls[k]? = some call →
      stage = .Dialled ∨ stage = .Over .Unreachable ∨ stage = .Over .Cancelled →
      (w.go k stage).calls[j]? ≠ some other := by
    intro k call stage hc hstage hgone
    rcases calls_go hc hgone with ⟨-, rfl⟩ | ⟨-, hother⟩
    · rcases hstage with rfl | rfl | rfl
      · simp at hover
      · simp at hover
      · simp at hover
    · exact hnew hother
  cases a with
  | start config carrier generation =>
    simp only [World.step, List.getElem?_append] at hj
    split_ifs at hj with hlt
    · exact absurd hj hnew
    · rw [List.getElem?_singleton] at hj
      split_ifs at hj
      · rw [Option.some.injEq] at hj
        simp [← hj] at hover
  | advance k =>
    simp only [World.step] at hj ⊢
    split at hj
    case h_1 call hc =>
      have hmoves := moves_advance (h.stands k call hc)
      rcases hmoves.calls hc hj with rfl | hother
      · exact ⟨call, hc, by simpa only [hc] using hmoves⟩
      · exact absurd hother hnew
    case h_2 => exact absurd hj hnew
  | dialled k reached =>
    simp only [World.step] at hj
    split at hj
    case h_1 call hc =>
      split_ifs at hj
      · unfold dials at hj
        split_ifs at hj
        · exact absurd hj (hgoes k call _ hc (.inl rfl))
        · exact absurd hj (hgoes k call _ hc (.inr (.inl rfl)))
      · exact absurd hj hnew
    case h_2 => exact absurd hj hnew
  | cancel k =>
    simp only [World.step] at hj
    split at hj
    case h_1 call hc =>
      split_ifs at hj
      · exact absurd hj (hgoes k call _ hc (.inr (.inr rfl)))
      · exact absurd hj hnew
    case h_2 => exact absurd hj hnew
  | drop d => exact absurd hj hnew
  | ends d => exact absurd hj hnew

/-- The three answers: a tunnel shared, the call's own, or a refusal. -/
theorem Moves.answers (hmoves : w.Moves k call w') (hc : w.calls[k]? = some call)
    {call' : Call Key Rest} (hnew : w.calls[k]? ≠ some call') (hk : w'.calls[k]? = some call')
    (hover : call'.stage = .Over .Superseded ∨ ∃ d, call'.stage = .Over (.Ok d)) :
    (∃ entry device, w' = w.shares k call entry.device ∧
      call' = { call with stage := .Over (.Ok entry.device) } ∧ entry ∈ w.tunnels ∧
      entry.is_of call = true ∧ w.upgrade entry.device = some device) ∨
    (w' = w.register k call ∧ call' = { call with stage := .Over (.Ok w.devices.length) }) ∨
    ∃ entry device, w' = w.leave k (.Over .Superseded) ∧
      call' = { call with stage := .Over .Superseded } ∧ entry ∈ w.tunnels ∧
      w.upgrade entry.device = some device ∧ conflict entry.config call.config = true ∧
      call.generation < device.generation := by
  -- what the call is after a step to `stage`
  have hgone : ∀ stage : Stage, (w.go k stage).calls[k]? = some call' →
      call' = { call with stage := stage } := by
    intro stage hk
    rcases calls_go hc hk with ⟨-, h⟩ | ⟨h, -⟩
    · exact h
    · exact absurd rfl h
  cases hmoves with
  | stays => exact absurd hk hnew
  | takes stage _ hstage =>
    rw [hgone stage hk] at hover
    rcases hstage with rfl | rfl
    · simp at hover
    · simp at hover
  | goes stage _ hnot =>
    rw [hgone stage hk] at hover
    rcases hover with hover | ⟨d, hover⟩
    · exact absurd hover (hnot _)
    · exact absurd hover (hnot _)
  | retains => exact absurd hk hnew
  | dials =>
    rw [hgone _ hk] at hover
    simp at hover
  | shares entry device hlock hentry hof hheld =>
    exact .inl ⟨entry, device, rfl, hgone _ hk, hentry, hof, hheld⟩
  | refused entry device hlock hentry hheld hconflict hlater =>
    exact .inr (.inr ⟨entry, device, rfl, hgone _ hk, hentry, hheld, hconflict, hlater⟩)
  | replaces => exact absurd hk hnew
  | closes => exact absurd hk hnew
  | registers => exact .inr (.inl ⟨rfl, hgone _ hk⟩)

theorem Sound.returns (h : w.Sound) (a : Action Key Rest) : w.Returns a := by
  intro k call' d hnew hk hover
  obtain ⟨call, hc, hmoves⟩ := h.answered hnew hk (.inr ⟨d, hover⟩)
  rcases hmoves.answers hc hnew hk (.inr ⟨d, hover⟩) with
    ⟨entry, device, hstep, rfl, hentry, hof, hheld⟩ | ⟨hstep, rfl⟩ | ⟨_, _, _, rfl, _⟩
  · obtain rfl : entry.device = d := by simpa using hover
    obtain ⟨hconfig, hcarrier⟩ := Entry.is_of_iff.1 hof
    obtain ⟨hd, hdropped⟩ := upgrade_eq_some.1 hheld
    obtain ⟨_, hd', hconfig', hcarrier'⟩ := h.entries entry hentry
    rw [hd, Option.some.injEq] at hd'
    subst hd'
    rw [hstep]
    refine ⟨⟨entry, hentry, rfl, hconfig, hcarrier⟩, device.share call.generation, ?_, ?_, ?_, ?_⟩
    · rw [upgrade_eq_some]
      exact ⟨by simp [World.shares, change, leave, go, hd], hdropped⟩
    · exact hconfig'.trans hconfig
    · exact hcarrier'.trans hcarrier
    · exact le_max_right _ _
  · obtain rfl : w.devices.length = d := by simpa using hover
    rw [hstep]
    refine ⟨⟨⟨call.config, call.carrier, w.devices.length⟩, ?_, rfl, rfl, rfl⟩, _,
      upgrade_eq_some.2 ⟨devices_register, rfl⟩, rfl, rfl, le_rfl⟩
    simp [register, leave, go]
  · simp at hover

theorem Sound.refuses (h : w.Sound) (a : Action Key Rest) : w.Refuses a := by
  intro k call' hnew hk hover
  obtain ⟨call, hc, hmoves⟩ := h.answered hnew hk (.inl hover)
  rcases hmoves.answers hc hnew hk (.inl hover) with
    ⟨_, _, _, rfl, _⟩ | ⟨_, rfl⟩ | ⟨entry, device, hstep, rfl, hentry, hheld, hconflict, hlater⟩
  · simp at hover
  · simp at hover
  · rw [hstep]
    exact ⟨entry, hentry, device, hheld, hconflict, hlater⟩

theorem Sound.supersedes (h : w.Sound) (a : Action Key Rest) : w.Supersedes a := by
  intro d device device' hd hd' hrunning hover
  -- a step that ends no tunnel, or for another reason
  have hchange : ∀ (j : ℕ) (f : Device Key Rest → Device Key Rest),
      (∀ device : Device Key Rest, device.ending = none →
        (f device).ending ≠ some .Superseded) → (w.change j f).devices[d]? ≠ some device' := by
    intro j f hf hd'
    by_cases hj : j = d
    · subst hj
      simp only [change, List.getElem?_modify, hd, if_true, Option.map_eq_map, Option.map_some,
        Option.some.injEq] at hd'
      exact hf device hrunning (hd' ▸ hover)
    · simp only [change, List.getElem?_modify, if_neg hj, hd, Option.map_eq_map, Option.map_some,
        Option.some.injEq] at hd'
      rw [← hd', hrunning] at hover
      simp at hover
  have hsame : w.devices[d]? ≠ some device' := by
    intro hd'
    rw [hd, Option.some.injEq] at hd'
    rw [← hd', hrunning] at hover
    simp at hover
  cases a with
  | start => exact absurd hd' hsame
  | advance k =>
    simp only [World.step] at hd'
    split at hd'
    case h_1 call hc =>
      have hstands := h.stands k call hc
      have hmoves := moves_advance hstands
      generalize w.advance k call = w' at hmoves hd'
      cases hmoves with
      | stays => exact absurd hd' hsame
      | takes => exact absurd hd' hsame
      | goes => exact absurd hd' hsame
      | retains => exact absurd hd' hsame
      | dials => exact absurd hd' hsame
      | shares entry =>
        exact absurd hd' (hchange _ _ fun device hnone => by simp [Device.share, hnone])
      | refused => exact absurd hd' hsame
      | replaces => exact absurd hd' hsame
      | closes i entry held hstage hentry hheld hconflict =>
        have hmem := List.mem_of_getElem? hentry
        by_cases hentry_d : entry.device = d
        · subst hentry_d
          obtain ⟨hd₂, hdropped⟩ := upgrade_eq_some.1 hheld
          obtain ⟨_, hd₃, hconfig, -⟩ := h.entries entry hmem
          rw [hd, Option.some.injEq] at hd₂ hd₃
          subst hd₂ hd₃
          refine ⟨k, call, rfl, hc, hconfig ▸ hconflict, fun user huser hreturned => ?_⟩
          obtain ⟨j, hj, rfl⟩ := List.getElem_of_mem huser
          have huses := h.stands j _ (List.getElem?_eq_getElem hj)
          unfold Stands at huses hstands
          rw [hreturned] at huses
          rw [hstage] at hstands
          obtain ⟨_, hd₄, hle⟩ := huses
          rw [hd, Option.some.injEq] at hd₄
          subst hd₄
          exact hle.trans (hstands.2.1 entry hmem device hheld hconflict)
        · have hother : (w.change entry.device Device.close).devices[d]? = some device := by
            simp [change, hentry_d, hd]
          have : device = device' := by
            simpa [remove, hother] using hd'
          rw [← this, hrunning] at hover
          simp at hover
      | registers =>
        simp only [register, leave, go] at hd'
        rw [List.getElem?_append_left (List.getElem?_eq_some_iff.1 hd).1] at hd'
        exact absurd hd' hsame
    case h_2 => exact absurd hd' hsame
  | dialled k reached =>
    have hdevices : (w.step (.dialled k reached)).devices = w.devices := by
      simp only [World.step]
      split
      · split_ifs
        · unfold dials
          split_ifs <;> rfl
        · rfl
      · rfl
    exact absurd (hdevices ▸ hd') hsame
  | cancel k =>
    have hdevices : (w.step (.cancel k)).devices = w.devices := by
      simp only [World.step]
      split
      · split_ifs <;> rfl
      · rfl
    exact absurd (hdevices ▸ hd') hsame
  | drop j =>
    exact absurd hd' (hchange j _ fun device hnone => by simp [Device.drop, hnone])
  | ends j =>
    exact absurd hd' (hchange j _ fun device hnone => by simp [Device.end_with, hnone])

/-- **The latest configuration wins.**  Whatever goes on at once, no two tunnels of the table that
run conflict; a call that succeeds returns a tunnel of its section and carrier from the table, as
late as itself; a tunnel is superseded only by a call as late as every call it was returned to; and
a call is refused only for a conflicting tunnel of a later generation in the table. -/
theorem device_spec (as : List (Action Key Rest)) :
    Always World.step Exclusive (new : World Key Rest) as ∧
      Along World.step (fun w a => w.Returns a ∧ w.Supersedes a ∧ w.Refuses a)
        (new : World Key Rest) as := by
  have hall : Along World.step (fun _ _ => True) (new : World Key Rest) as :=
    along_of_forall (P := fun _ => True) fun _ _ => trivial
  constructor
  · exact (hall.always (I := Sound) (fun _ a h _ => h.step a) sound_new).mono
      fun _ h => h.exclusive
  · exact hall.imp (I := Sound) (fun _ a h _ => h.step a)
      (fun _ a h _ => ⟨h.returns a, h.supersedes a, h.refuses a⟩) sound_new

/-- A later section with the key of a running tunnel takes it over. -/
example :
    let a : WireGuardSection ℕ ℕ := ⟨1, [⟨2, 0⟩], 0⟩
    let b : WireGuardSection ℕ ℕ := ⟨1, [⟨2, 0⟩, ⟨3, 0⟩], 0⟩
    let start := fun k config => [Action.start config [] k] ++ List.replicate 4 (.advance k) ++
      [.dialled k fun _ => true] ++ List.replicate 8 (.advance k)
    (run World.step new (start 0 a ++ start 1 b)).devices.map Device.ending =
      [some .Superseded, none] := by decide

end World

end Tunnels

end Rurge
