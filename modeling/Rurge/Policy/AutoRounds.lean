import Rurge.Policy.AutoGroups

/-!
# Rounds of an old network

A group that picks by its tests is to have no last round but one that began on the network the
machine is on now.  The record that keeps a round of an old network out goes with the group in a
reload, and a network change makes it for the groups of its generation alone; so the property holds
of the runs in which neither comes into play (`fresh_iff`).  A request for a round is never lost.
-/

namespace Rurge

namespace AutoGroups

open Runs

namespace State

variable {state : State}

/-! ### What ends and changes do to the tables -/

theorem epoch_round_ended (now : ℕ) (groups : List Str) (began : ℕ) :
    (state.round_ended now groups began).epoch = state.epoch := by
  unfold round_ended
  induction groups generalizing state with
  | nil => rfl
  | cons g groups ih => exact ih

theorem lookup_rounds_ended (now : ℕ) (groups : List Str) (began : ℕ) (name : Str) :
    (state.round_ended now groups began).rounds.lookup name =
      if name ∈ groups ∧ (state.cleared.lookup name).all (· ≤ began) then some ⟨now, began⟩
      else state.rounds.lookup name := by
  unfold round_ended
  induction groups generalizing state with
  | nil => simp
  | cons g groups ih =>
    have hround : (state.round_over now began g).rounds.lookup name =
        if name = g ∧ (state.cleared.lookup name).all (· ≤ began) then some ⟨now, began⟩
        else state.rounds.lookup name := by
      unfold round_over
      by_cases hname : name = g
      · subst hname
        by_cases hcleared : (state.cleared.lookup name).all (· ≤ began)
        · simp [hcleared]
        · simp [hcleared]
      · simp only [hname, false_and, if_false]
        split
        · exact AList.lookup_insert_ne hname
        · rfl
    rw [List.foldl_cons, ih, hround]
    change (if name ∈ groups ∧ (state.cleared.lookup name).all (· ≤ began) then _ else _) = _
    by_cases hcleared : (state.cleared.lookup name).all (· ≤ began)
    · by_cases hg : name = g <;> simp [hcleared, hg]
    · simp [hcleared]

theorem lookup_requested_ended (now : ℕ) (groups : List Str) (began : ℕ) (name : Str) :
    (state.round_ended now groups began).requested.lookup name =
      if name ∈ groups then none else state.requested.lookup name := by
  unfold round_ended
  induction groups generalizing state with
  | nil => simp
  | cons g groups ih =>
    rw [List.foldl_cons, ih]
    by_cases hg : name = g
    · subst hg
      simp [round_over]
    · simp [round_over, hg, AList.lookup_erase_ne hg]

/-- A network change, group by group. -/
theorem network_changed_spec (groups : List GroupSpec) :
    (state.network_changed groups).epoch = state.epoch + 1 ∧
    (state.network_changed groups).requested = state.requested ∧
    ∀ name, (state.network_changed groups).rounds.lookup name =
      if ∃ spec ∈ groups, spec.kind.automatic = true ∧ spec.name = name then none
      else state.rounds.lookup name := by
  have hfold : ∀ s : State, (groups.foldl change_group s).epoch = s.epoch ∧
      (groups.foldl change_group s).requested = s.requested ∧
      ∀ name, (groups.foldl change_group s).rounds.lookup name =
        if ∃ spec ∈ groups, spec.kind.automatic = true ∧ spec.name = name then none
        else s.rounds.lookup name := by
    induction groups with
    | nil => simp
    | cons g groups ih =>
      intro s
      have hone : (s.change_group g).epoch = s.epoch ∧ (s.change_group g).requested = s.requested ∧
          ∀ name, (s.change_group g).rounds.lookup name =
            if g.kind.automatic = true ∧ g.name = name then none else s.rounds.lookup name := by
        unfold change_group
        rcases g with ⟨gname, kind, rest⟩
        cases kind <;> refine ⟨rfl, rfl, fun name => ?_⟩ <;>
          simp [GroupKind.automatic, Assoc.lookup_erase_apply, eq_comm]
      obtain ⟨hepoch, hrequested, hrounds⟩ := ih (s.change_group g)
      refine ⟨hepoch.trans hone.1, hrequested.trans hone.2.1, fun name => ?_⟩
      rw [List.foldl_cons, hrounds, hone.2.2]
      simp only [List.exists_mem_cons_iff]
      by_cases hg : g.kind.automatic = true ∧ g.name = name <;> simp [hg]
  exact hfold { state with epoch := state.epoch + 1 }

theorem override_of_kept (group : Str) (members : List Str) :
    (state.override_of group members).2.rounds = state.rounds ∧
    (state.override_of group members).2.requested = state.requested ∧
    (state.override_of group members).2.epoch = state.epoch := by
  unfold override_of
  split
  · exact ⟨rfl, rfl, rfl⟩
  · split_ifs <;> exact ⟨rfl, rfl, rfl⟩

theorem set_pick_kept (group member : Str) :
    (state.set_pick group member).rounds = state.rounds ∧
    (state.set_pick group member).requested = state.requested ∧
    (state.set_pick group member).epoch = state.epoch := by
  unfold set_pick
  split_ifs <;> exact ⟨rfl, rfl, rfl⟩

theorem by_name_isSome {groups : List GroupSpec} {spec : GroupSpec} (h : spec ∈ groups) :
    (by_name groups spec.name).isSome = true := by
  rw [by_name, List.find?_isSome]
  exact ⟨spec, List.mem_reverse.2 h, by simp⟩

theorem lookup_rounds_retain (groups : List GroupSpec) (name : Str) :
    (state.retain groups).rounds.lookup name =
      if (by_name groups name).isSome then state.rounds.lookup name else none := by
  have h : (state.retain groups).rounds.lookup name =
      (state.rounds.lookup name).filter fun _ => (by_name groups name).isSome :=
    Assoc.lookup_retain ..
  rw [h]
  cases state.rounds.lookup name <;> simp [Option.filter]

end State

namespace World

variable {w : World}

/-! ### What holds in every run -/

/-- A request and the scheduler: it was sent since it was made, or the one who made it is about to
send it. -/
def Delivered (w : World) : Prop :=
  ∀ (group : Str) (asked : ℕ), w.state.requested.lookup group = some asked →
    ∀ sent, w.wake = some sent →
      (∃ at_, asked ≤ at_ ∧ (group, at_) ∈ sent) ∨ (group, asked) ∈ w.waking

/-- What holds whatever happens: nothing is of a later epoch or of a later time than there is, and
no request is lost. -/
structure Ok (w : World) : Prop where
  running : ∀ {groups : List Str} {began : ℕ}, (groups, began) ∈ w.running → began ≤ w.state.epoch
  rounds : ∀ {group : Str} {round : Round}, w.state.rounds.lookup group = some round →
    round.began ≤ w.state.epoch
  asked : ∀ {group : Str} {asked : ℕ}, w.state.requested.lookup group = some asked → asked ≤ w.now
  delivered : w.Delivered

theorem ok_new : new.Ok where
  running h := by cases h
  rounds h := by cases h
  asked h := by cases h
  delivered _ _ h := by cases h

/-- A step that leaves the rounds, the requests and the scheduler alone. -/
theorem Ok.of_same (h : w.Ok) {w' : World} (hrunning : w'.running = w.running)
    (hrounds : ∀ {group round}, w'.state.rounds.lookup group = some round →
      w.state.rounds.lookup group = some round)
    (hrequested : w'.state.requested = w.state.requested) (hepoch : w.state.epoch ≤ w'.state.epoch)
    (hwake : w'.wake = w.wake) (hwaking : w'.waking = w.waking) (hnow : w.now ≤ w'.now) :
    w'.Ok where
  running hmem := (h.running (hrunning ▸ hmem)).trans hepoch
  rounds hlookup := (h.rounds (hrounds hlookup)).trans hepoch
  asked hlookup := (h.asked (hrequested ▸ hlookup)).trans hnow
  delivered group asked hasked sent hsent := by
    rw [hwaking]
    exact h.delivered group asked (hrequested ▸ hasked) sent (hwake ▸ hsent)

theorem Ok.ends (h : w.Ok) (i : ℕ) : ({ w.ends i with now := w.now + 1 } : World).Ok := by
  unfold World.ends
  split
  case h_1 groups began hround =>
    have hbegan : began ≤ w.state.epoch := h.running (List.mem_of_getElem? hround)
    constructor
    · intro groups' began' hmem
      rw [State.epoch_round_ended]
      exact h.running (List.mem_of_mem_eraseIdx hmem)
    · intro group round hlookup
      rw [State.lookup_rounds_ended] at hlookup
      rw [State.epoch_round_ended]
      split at hlookup
      case isTrue =>
        cases hlookup
        exact hbegan
      case isFalse => exact h.rounds hlookup
    · intro group asked hasked
      rw [State.lookup_requested_ended] at hasked
      split at hasked
      case isTrue => cases hasked
      case isFalse => exact (h.asked hasked).trans (Nat.le_succ _)
    · intro group asked hasked sent hsent
      rw [State.lookup_requested_ended] at hasked
      split at hasked
      case isTrue => cases hasked
      case isFalse => exact h.delivered group asked hasked sent hsent
  case h_2 =>
    exact h.of_same rfl (fun hlookup => hlookup) rfl le_rfl rfl rfl (Nat.le_succ _)

theorem Ok.asks (h : w.Ok) (group : Str) : ({ w.asks group with now := w.now + 1 } : World).Ok := by
  unfold World.asks
  split
  case isTrue =>
    exact h.of_same rfl (fun hlookup => hlookup) rfl le_rfl rfl rfl (Nat.le_succ _)
  case isFalse =>
    have hcases : ∀ {g : Str} {asked : ℕ},
        (w.state.requested.insert group w.now).lookup g = some asked →
        g = group ∧ asked = w.now ∨ w.state.requested.lookup g = some asked := by
      intro g asked hasked
      rw [Assoc.lookup_insert_apply] at hasked
      split at hasked
      case isTrue hg => exact .inl ⟨hg, (Option.some_inj.1 hasked).symm⟩
      case isFalse => exact .inr hasked
    refine ⟨h.running, h.rounds, ?_, ?_⟩
    · intro g asked hasked
      rcases hcases hasked with ⟨-, rfl⟩ | hold
      · exact Nat.le_succ _
      · exact (h.asked hold).trans (Nat.le_succ _)
    · intro g asked hasked sent hsent
      rcases hcases hasked with ⟨rfl, rfl⟩ | hold
      · exact .inr (List.mem_append_right _ (List.mem_singleton_self _))
      · exact (h.delivered g asked hold sent hsent).imp_right (List.mem_append_left _)

theorem Ok.sends (h : w.Ok) (i : ℕ) : ({ w.sends i with now := w.now + 1 } : World).Ok := by
  unfold World.sends
  split
  case h_1 group at_ hwaking =>
    refine ⟨h.running, h.rounds, fun hasked => (h.asked hasked).trans (Nat.le_succ _), ?_⟩
    intro g asked hasked sent hsent
    obtain ⟨sent, hold, rfl⟩ := Option.map_eq_some_iff.1 hsent
    rcases h.delivered g asked hasked sent hold with ⟨at', hle, hmem⟩ | hmem
    · exact .inl ⟨at', hle, List.mem_append_left _ hmem⟩
    · obtain ⟨j, hj⟩ := List.mem_iff_getElem?.1 hmem
      by_cases hij : j = i
      · subst hij
        cases hwaking.symm.trans hj
        exact .inl ⟨w.now, h.asked hasked, List.mem_append_right _ (List.mem_singleton_self _)⟩
      · refine .inr (List.mem_eraseIdx_iff_getElem?.2 ⟨j, hij, hj⟩)
  case h_2 =>
    exact h.of_same rfl (fun hlookup => hlookup) rfl le_rfl rfl rfl (Nat.le_succ _)

theorem Ok.connect (h : w.Ok) : ({ w.connect with now := w.now + 1 } : World).Ok := by
  refine ⟨h.running, h.rounds, fun hasked => (h.asked hasked).trans (Nat.le_succ _), ?_⟩
  intro g asked hasked sent hsent
  cases hsent
  refine .inl ⟨w.now, h.asked hasked, List.mem_map_of_mem ?_⟩
  exact AList.mem_keys.1 (AList.lookup_isSome.1 (Option.isSome_iff_exists.2 ⟨asked, hasked⟩))

theorem Ok.begins (h : w.Ok) (group : Str) (groups : List Str) :
    ({ w.begins group groups with now := w.now + 1 } : World).Ok := by
  refine ⟨?_, h.rounds, fun hasked => (h.asked hasked).trans (Nat.le_succ _), h.delivered⟩
  intro groups' began hmem
  rcases List.mem_append.1 hmem with hmem | hmem
  · exact h.running hmem
  · cases List.mem_singleton.1 hmem
    exact le_rfl

theorem Ok.step (h : w.Ok) (a : Action) : (w.step a).Ok := by
  cases a with
  | begins group groups => exact h.begins group groups
  | ends round => exact h.ends round
  | network_changed =>
    obtain ⟨hepoch, hrequested, hrounds⟩ := @State.network_changed_spec w.state w.groups
    refine h.of_same rfl (fun hlookup => ?_) hrequested (hepoch ▸ Nat.le_succ _) rfl rfl
      (Nat.le_succ _)
    rw [World.step, World.act, hrounds] at hlookup
    split at hlookup
    case isTrue => cases hlookup
    case isFalse => exact hlookup
  | retain groups =>
    refine h.of_same rfl (fun hlookup => ?_) rfl le_rfl rfl rfl (Nat.le_succ _)
    rw [World.step, World.act, State.lookup_rounds_retain] at hlookup
    split at hlookup
    case isTrue => exact hlookup
    case isFalse => cases hlookup
  | asks group => exact h.asks group
  | sends waking => exact h.sends waking
  | connect => exact h.connect
  | set_override spec member =>
    exact h.of_same rfl (fun hlookup => hlookup) rfl le_rfl rfl rfl (Nat.le_succ _)
  | clear_override group =>
    exact h.of_same rfl (fun hlookup => hlookup) rfl le_rfl rfl rfl (Nat.le_succ _)
  | override_of group members =>
    obtain ⟨hrounds, hrequested, hepoch⟩ := @State.override_of_kept w.state group members
    exact h.of_same rfl (fun hlookup => hrounds ▸ hlookup) hrequested hepoch.ge rfl rfl
      (Nat.le_succ _)
  | set_pick group member =>
    obtain ⟨hrounds, hrequested, hepoch⟩ := @State.set_pick_kept w.state group member
    exact h.of_same rfl (fun hlookup => hrounds ▸ hlookup) hrequested hepoch.ge rfl rfl
      (Nat.le_succ _)

theorem ok_run (actions : List Action) : (run step new actions).Ok :=
  run_invariant (I := Ok) (fun _ a h => h.step a) ok_new actions

/-- A request leaves the table when a round that covers its group ends, and not before. -/
theorem requested_leaves {a : Action} {group : Str}
    (h : (w.state.requested.lookup group).isSome = true)
    (hgone : (w.step a).state.requested.lookup group = none) :
    ∃ (i : ℕ) (groups : List Str) (began : ℕ), a = .ends i ∧
      w.running[i]? = some (groups, began) ∧ group ∈ groups := by
  have hsame : (w.step a).state.requested = w.state.requested → False := fun hsame => by
    rw [hsame] at hgone
    simp [hgone] at h
  cases a with
  | begins | retain | sends | connect | set_override | clear_override =>
    refine absurd ?_ hsame
    first
      | rfl
      | simp only [step, act, sends]; split <;> rfl
  | ends i =>
    cases hround : w.running[i]? with
    | none =>
      refine absurd ?_ hsame
      simp only [step, act, World.ends, hround]
    | some round =>
      obtain ⟨groups, began⟩ := round
      simp only [step, act, World.ends, hround, State.lookup_requested_ended] at hgone
      split at hgone
      case isTrue hmem => exact ⟨i, groups, began, rfl, hround, hmem⟩
      case isFalse => simp [hgone] at h
  | network_changed => exact absurd (State.network_changed_spec w.groups).2.1 hsame
  | asks g =>
    simp only [step, act, World.asks] at hgone
    split at hgone
    case isTrue => simp [hgone] at h
    case isFalse =>
      simp only [Assoc.lookup_insert_apply] at hgone
      split at hgone
      case isTrue => cases hgone
      case isFalse => simp [hgone] at h
  | override_of group members =>
    exact absurd (State.override_of_kept group members).2.1 hsame
  | set_pick group member => exact absurd (State.set_pick_kept group member).2.1 hsame

/-! ### Whose last round is fresh -/

/-- The group picks by its tests in the generation in force. -/
def Automatic (groups : List GroupSpec) (name : Str) : Prop :=
  ∃ spec ∈ groups, spec.kind.automatic = true ∧ spec.name = name

/-- The last round of every group that picks by its tests began after the last network change, in
the epoch there is now. -/
def Fresh (w : World) : Prop :=
  ∀ name, Automatic w.groups name → ∀ round, w.state.rounds.lookup name = some round →
    round.began = w.state.epoch

/-- A round that ends and began before the last network change covers no automatic group but those
with the record of a change since it began; and a reload makes no group automatic under whose name
the last round kept began before the last network change. -/
def Guarded (w : World) (a : Action) : Prop :=
  (∀ (i : ℕ) (groups : List Str) (began : ℕ), a = .ends i → w.running[i]? = some (groups, began) →
    began < w.state.epoch → ∀ name ∈ groups, Automatic w.groups name →
    ∃ cleared, w.state.cleared.lookup name = some cleared ∧ began < cleared) ∧
  ∀ groups, a = .retain groups → ∀ name, Automatic groups name → ¬ Automatic w.groups name →
    ∀ round, w.state.rounds.lookup name = some round → round.began = w.state.epoch

/-- A step that leaves the generation, the rounds and the epoch alone. -/
theorem Fresh.of_same (h : w.Fresh) {w' : World} (hgroups : w'.groups = w.groups)
    (hrounds : w'.state.rounds = w.state.rounds) (hepoch : w'.state.epoch = w.state.epoch) :
    w'.Fresh := by
  intro name hauto round hround
  rw [hepoch]
  exact h name (hgroups ▸ hauto) round (hrounds ▸ hround)

theorem Fresh.step (h : w.Fresh) (hok : w.Ok) {a : Action} (hguarded : Guarded w a) :
    (w.step a).Fresh := by
  cases a with
  | begins group groups => exact h.of_same rfl rfl rfl
  | ends i =>
    cases hround : w.running[i]? with
    | none =>
      refine h.of_same ?_ ?_ ?_ <;> simp only [World.step, act, World.ends, hround]
    | some round =>
      obtain ⟨groups, began⟩ := round
      have hbegan : began ≤ w.state.epoch := hok.running (List.mem_of_getElem? hround)
      intro name hauto round' hround'
      simp only [World.step, act, World.ends, hround] at hauto hround' ⊢
      rw [State.lookup_rounds_ended] at hround'
      rw [State.epoch_round_ended]
      split at hround'
      case isTrue hcovered =>
        cases hround'
        refine hbegan.antisymm (not_lt.1 fun hlt => ?_)
        obtain ⟨cleared, hcleared, hafter⟩ :=
          hguarded.1 i groups began rfl hround hlt name hcovered.1 hauto
        have hle : cleared ≤ began := by simpa [hcleared] using hcovered.2
        omega
      case isFalse => exact h name hauto round' hround'
  | network_changed =>
    intro name hauto round hround
    have hgone : (w.step .network_changed).state.rounds.lookup name = none :=
      ((State.network_changed_spec w.groups).2.2 name).trans (if_pos hauto)
    cases hgone.symm.trans hround
  | retain groups =>
    intro name hauto round hround
    rw [World.step, act, State.lookup_rounds_retain] at hround
    split at hround
    case isTrue =>
      by_cases hold : Automatic w.groups name
      · exact h name hold round hround
      · exact hguarded.2 groups rfl name hauto hold round hround
    case isFalse => cases hround
  | asks group =>
    refine h.of_same ?_ ?_ ?_ <;> · simp only [World.step, act, World.asks]; split <;> rfl
  | sends i =>
    refine h.of_same ?_ ?_ ?_ <;> · simp only [World.step, act, World.sends]; split <;> rfl
  | connect => exact h.of_same rfl rfl rfl
  | set_override spec member => exact h.of_same rfl rfl rfl
  | clear_override group => exact h.of_same rfl rfl rfl
  | override_of group members =>
    obtain ⟨hrounds, -, hepoch⟩ := @State.override_of_kept w.state group members
    exact h.of_same rfl hrounds hepoch
  | set_pick group member =>
    obtain ⟨hrounds, -, hepoch⟩ := @State.set_pick_kept w.state group member
    exact h.of_same rfl hrounds hepoch

/-- A step after which every last round is fresh was guarded. -/
theorem guarded_of_fresh {a : Action} (h : (w.step a).Fresh) : Guarded w a := by
  constructor
  · rintro i groups began rfl hround hlt name hmem hauto
    by_contra hcleared
    have hall : (w.state.cleared.lookup name).all (· ≤ began) = true := by
      cases hlookup : w.state.cleared.lookup name with
      | none => rfl
      | some cleared =>
        have hle : ¬ began < cleared := fun hafter => hcleared ⟨cleared, hlookup, hafter⟩
        simpa using not_lt.1 hle
    have hfresh := h name (by simpa only [step, act, World.ends, hround] using hauto) ⟨w.now, began⟩
    simp only [step, act, World.ends, hround, State.lookup_rounds_ended, State.epoch_round_ended,
      if_pos (And.intro hmem hall)] at hfresh
    exact hlt.ne (hfresh trivial)
  · rintro groups rfl name hauto - round hround
    obtain ⟨spec, hspec, -, rfl⟩ := id hauto
    have hkept : (w.step (.retain groups)).state.rounds.lookup spec.name = some round := by
      rw [step, act, State.lookup_rounds_retain, if_pos (State.by_name_isSome hspec), hround]
    exact h spec.name hauto round hkept

/-- Every last round is fresh all through a run, if and only if every step of it is guarded. -/
theorem fresh_iff (actions : List Action) :
    Always step Fresh new actions ↔ Along step Guarded new actions := by
  constructor
  · exact fun h => h.along (I := Ok) (fun _ a hok => hok.step a)
      (fun _ _ _ => guarded_of_fresh) ok_new
  · intro h
    have hstep : ∀ (w : World) (a : Action), w.Ok ∧ w.Fresh → Guarded w a →
        (w.step a).Ok ∧ (w.step a).Fresh :=
      fun w a hw hguarded => ⟨hw.1.step a, hw.2.step hw.1 hguarded⟩
    have hnew : new.Fresh := fun name hauto round hround => by cases hround
    exact (h.always hstep ⟨ok_new, hnew⟩).mono fun _ hw => hw.2

/-- **Rounds and requests of the automatic groups.**  No request for a round is lost, and it is over
when a round that covers its group ends; and the last round of every group that picks by its tests
is one of the network there is now, all through a run, if and only if no round of an old network
ends for such a group that lacks the record of the change, and no reload makes a group automatic
under whose name such a round is kept. -/
theorem auto_groups_spec (actions : List Action) :
    (run step new actions).Delivered ∧
    (∀ (a : Action) (group : Str),
      ((run step new actions).state.requested.lookup group).isSome = true →
      ((run step new actions).step a).state.requested.lookup group = none →
      ∃ (i : ℕ) (groups : List Str) (began : ℕ), a = .ends i ∧
        (run step new actions).running[i]? = some (groups, began) ∧ group ∈ groups) ∧
    (Always step Fresh new actions ↔ Along step Guarded new actions) :=
  ⟨(ok_run actions).delivered, fun _ _ => requested_leaves, fresh_iff actions⟩

/-- A `url-test` group. -/
def proxies : GroupSpec := ⟨"U".toList, .UrlTest, []⟩

/-- A round of the group begins, the network changes, a reload drops the group, the round ends, and
another reload adds the group back. -/
def dropped_and_back : List Action :=
  [.retain [proxies], .begins proxies.name [proxies.name], .network_changed, .retain [], .ends 0,
    .retain [proxies]]

/-- The group's last round is one of the old network. -/
theorem stale_round : ¬ Always step Fresh new dropped_and_back := by
  intro h
  have hlast : Fresh (run step new dropped_and_back) := (always_iff.1 h) 6
  have hround := hlast proxies.name ⟨proxies, by decide, rfl, rfl⟩ ⟨4, 0⟩ (by decide)
  exact absurd hround (by decide)

end World

end AutoGroups

end Rurge
