import Rurge.Dns.CoalesceRuns

/-!
# One query of a key at a time

No caller waits for ever, and a result is told apart by whose query it was, whatever the order of
the callers' steps.  That at most one fan-out of a key is under way is another matter: it holds of
exactly the runs in which a caller that puts in its entry finds none in the table.  Where no caller
of the key is dropped or goes round the cache, that fails only by a race: two callers of the key
looked, and neither has put in its entry.
-/

namespace Rurge

namespace Coalesce

open Runs

/-! ### The key -/

/-- The name has no `#`, and the upstreams have names without a comma. -/
structure Question.Plain (q : Question) : Prop where
  name : '#' ∉ q.name
  upstreams : ∀ u ∈ q.upstreams, u ≠ [] ∧ ',' ∉ u

theorem split_at_mark {s s' t t' : Str} (hs : '#' ∉ s) (hs' : '#' ∉ s')
    (h : s ++ '#' :: t = s' ++ '#' :: t') : s = s' ∧ t = t' := by
  have hwhole : ∀ s t : Str, '#' ∉ s → (s ++ '#' :: t).takeWhile (· != '#') = s := by
    intro s t hs
    have hkept : ∀ c ∈ s, (c != '#') = true := by
      intro c hc
      rw [bne_iff_ne]
      rintro rfl
      exact hs hc
    rw [List.takeWhile_append_of_pos hkept]
    simp
  obtain rfl : s = s' := by rw [← hwhole s t hs, h, hwhole s' t' hs']
  exact ⟨rfl, List.cons_inj_right _ |>.1 (List.append_cancel_left h)⟩

theorem upstreams_eq {us vs : List Str} (hu : ∀ u ∈ us, u ≠ [] ∧ ',' ∉ u)
    (hv : ∀ v ∈ vs, v ≠ [] ∧ ',' ∉ v) (h : [','].intercalate us = [','].intercalate vs) :
    us = vs := by
  have hnil : ∀ us : List Str, (∀ u ∈ us, u ≠ [] ∧ ',' ∉ u) → [','].intercalate us = [] →
      us = [] := by
    intro us hu hnil
    rcases us with _ | ⟨u, _ | ⟨v, us⟩⟩
    · rfl
    · exact absurd (by simpa [List.intercalate] using hnil) (hu u List.mem_cons_self).1
    · simp [List.intercalate, List.intersperse] at hnil
  have hsplit : ∀ us : List Str, (∀ u ∈ us, u ≠ [] ∧ ',' ∉ u) → us ≠ [] →
      ([','].intercalate us).splitOn ',' = us := fun us hu hne =>
    List.splitOn_intercalate ',' (fun u hmem => (hu u hmem).2) hne
  by_cases hus : us = []
  · subst hus
    exact (hnil vs hv (h.symm.trans (by simp [List.intercalate]))).symm
  by_cases hvs : vs = []
  · subst hvs
    exact absurd (hnil us hu (h.trans (by simp [List.intercalate]))) hus
  rw [← hsplit us hu hus, h, hsplit vs hv hvs]

/-- Plain questions of one key are the same. -/
theorem key_injective {q q' : Question} (hq : q.Plain) (hq' : q'.Plain) (h : q.key = q'.key) :
    q = q' := by
  have hbool : ∀ b : Bool, '#' ∉ (if b then "true" else "false").toList := by decide
  obtain ⟨hname, hrest⟩ := split_at_mark hq.name hq'.name
    (by simpa [Question.key, List.append_assoc] using h)
  obtain ⟨hfamily, hups⟩ := split_at_mark (hbool q.want_v6) (hbool q'.want_v6) hrest
  have hfamily : q.want_v6 = q'.want_v6 := by
    cases hv : q.want_v6 <;> cases hv' : q'.want_v6 <;> simp_all
  cases q
  cases q'
  cases hname
  cases hfamily
  cases upstreams_eq hq.upstreams hq'.upstreams hups
  rfl

namespace World

variable {Shared : Type*} {w : World Shared} {c : ℕ} {caller : Caller Shared}

/-! ### What every caller is given -/

/-- How a caller comes by a result: its own fan-out ended with it, or its wait did. -/
def Told (a : Action Shared) (c : ℕ) (caller : Caller Shared) (result : Shared) : Query → Prop
  | .Own => a = .ends c result ∧ ∃ i, caller.phase = .Asking i
  | .Another => a = .wait c ∧ ∃ i, caller.phase = .Waiting i

/-- What callers are promised, whatever the order of their steps. -/
structure Faithful (w : World Shared) : Prop where
  /-- A caller waits on a channel of its key: its sender is there, and then it is in the table, put
  in by a caller in the middle of its fan-out; or it sent the result of a fan-out of the key, which
  the waiter takes; or it is gone, and the waiter asks itself. -/
  waits : ∀ (c i : ℕ) (caller : Caller Shared), w.callers[c]? = some caller →
    caller.phase = .Waiting i → ∃ (c' : ℕ) (sender : Sender Shared),
      w.channels[i]? = some ⟨caller.key, c', sender⟩ ∧ match sender with
      | .There => w.inflight.lookup caller.key = some i ∧ ∃ caller' : Caller Shared,
          w.callers[c']? = some caller' ∧ caller'.key = caller.key ∧ caller'.phase = .Asking i
      | .Sent result c'' => (∃ caller'' : Caller Shared, w.callers[c'']? = some caller'' ∧
          caller''.key = caller.key ∧ caller''.phase = .Done result .Own) ∧
          (w.step (.wait c)).callers[c]? = some { caller with phase := .Done result .Another }
      | .Gone => (w.step (.wait c)).callers[c]? = some { caller with phase := .Inserting }
  /-- The fan-out of the entry's caller that ends hands its result to whoever waits on the entry,
  and when that caller is dropped its sender is gone. -/
  freed : ∀ (c i : ℕ) (key : Str), w.channels[i]? = some ⟨key, c, .There⟩ →
    (∀ result : Shared,
      (w.step (.ends c result)).channels[i]? = some ⟨key, c, .Sent result c⟩) ∧
    (w.step (.drop c)).channels[i]? = some ⟨key, c, .Gone⟩
  /-- A caller that is about to put in its entry can, and its fan-out then gives it its result. -/
  asks : ∀ (c : ℕ) (caller : Caller Shared), w.callers[c]? = some caller →
    (caller.phase = .Inserting → ∃ i,
      (w.step (.insert c)).callers[c]? = some { caller with phase := .Asking i }) ∧
    (∀ i, caller.phase = .Asking i → ∀ result,
      (w.step (.ends c result)).callers[c]? = some { caller with phase := .Done result .Own })
  /-- A caller is told the result its own fan-out ended with, and that it is its own; or a result
  that another caller of its key was told is its own, and that it is another's. -/
  told : ∀ (a : Action Shared) (c : ℕ) (caller' : Caller Shared) (result : Shared) (query : Query),
    (w.step a).callers[c]? = some caller' → caller'.phase = .Done result query →
    w.callers[c]? = some caller' ∨
      ∃ caller, w.callers[c]? = some caller ∧ Told a c caller result query
  /-- Another's result is that of another caller of the key. -/
  another : ∀ (c : ℕ) (caller : Caller Shared) (result : Shared), w.callers[c]? = some caller →
    caller.phase = .Done result .Another → ∃ (c' : ℕ) (caller' : Caller Shared), c' ≠ c ∧
      w.callers[c']? = some caller' ∧ caller'.phase = .Done result .Own ∧
      caller'.key = caller.key ∧
      (caller.question.Plain → caller'.question.Plain → caller'.question = caller.question)

/-- What a caller's own step makes of it. -/
theorem wait_sent {i c' c'' : ℕ} {key : Str} {result : Shared}
    (hcaller : w.callers[c]? = some caller) (hphase : caller.phase = .Waiting i)
    (hchannel : w.channels[i]? = some ⟨key, c', .Sent result c''⟩) :
    (w.step (.wait c)).callers[c]? = some { caller with phase := .Done result .Another } := by
  simp only [step, hcaller, hphase, wait, hchannel, Option.map_some]
  exact callers_go_self hcaller

theorem wait_gone {i c' : ℕ} {key : Str} (hcaller : w.callers[c]? = some caller)
    (hphase : caller.phase = .Waiting i) (hchannel : w.channels[i]? = some ⟨key, c', .Gone⟩) :
    (w.step (.wait c)).callers[c]? = some { caller with phase := .Inserting } := by
  simp only [step, hcaller, hphase, wait, hchannel, Option.map_some]
  exact callers_go_self hcaller

theorem step_insert (hcaller : w.callers[c]? = some caller) (hphase : caller.phase = .Inserting) :
    w.step (.insert c) = w.insert c caller := by
  simp only [step, hcaller, hphase]

theorem step_ends {i : ℕ} (hcaller : w.callers[c]? = some caller)
    (hphase : caller.phase = .Asking i) (result : Shared) :
    w.step (.ends c result) = (w.remove caller.key (.Sent result c)).go c (.Done result .Own) := by
  simp only [step, hcaller, hphase]
  rfl

theorem step_drop {i : ℕ} (hcaller : w.callers[c]? = some caller)
    (hphase : caller.phase = .Asking i) :
    w.step (.drop c) = (w.remove caller.key .Gone).go c .Dropped := by
  simp only [step, hcaller, drop, hphase]

/-- A result is told by the step that gives it. -/
theorem told_step {a : Action Shared} {caller' : Caller Shared} {result : Shared} {query : Query}
    (hcaller' : (w.step a).callers[c]? = some caller')
    (hphase' : caller'.phase = .Done result query) :
    w.callers[c]? = some caller' ∨
      ∃ caller, w.callers[c]? = some caller ∧ Told a c caller result query := by
  have hmoves := moves w a
  generalize w.step a = w' at hmoves hcaller'
  cases hmoves with
  | stays => exact .inl hcaller'
  | call question bypass_cache =>
    change (w.callers ++ [_])[c]? = some caller' at hcaller'
    rw [List.getElem?_append, List.getElem?_singleton] at hcaller'
    split at hcaller'
    case isTrue => exact .inl hcaller'
    case isFalse =>
      split at hcaller'
      case isTrue =>
        cases hcaller'
        cases hphase'
      case isFalse => cases hcaller'
  | finds hcaller =>
    rcases callers_go_cases hcaller hcaller' with ⟨-, rfl⟩ | ⟨-, hold⟩
    · cases hphase'
    · exact .inl hold
  | misses hcaller =>
    rcases callers_go_cases hcaller hcaller' with ⟨-, rfl⟩ | ⟨-, hold⟩
    · cases hphase'
    · exact .inl hold
  | @hears c₀ i _ caller _ _ hcaller hphase =>
    rcases callers_go_cases hcaller hcaller' with ⟨rfl, rfl⟩ | ⟨-, hold⟩
    · cases hphase'
      exact .inr ⟨caller, hcaller, rfl, i, hphase⟩
    · exact .inl hold
  | alone hcaller =>
    rcases callers_go_cases hcaller hcaller' with ⟨-, rfl⟩ | ⟨-, hold⟩
    · cases hphase'
    · exact .inl hold
  | inserts hcaller =>
    rw [callers_insert] at hcaller'
    rcases callers_go_cases hcaller hcaller' with ⟨-, rfl⟩ | ⟨-, hold⟩
    · cases hphase'
    · exact .inl hold
  | @publishes c₀ i caller hcaller hphase result' =>
    have hremoved : (w.remove caller.key (.Sent result' c₀)).callers[c₀]? = some caller := by
      rwa [callers_remove]
    rcases callers_go_cases hremoved hcaller' with ⟨rfl, rfl⟩ | ⟨-, hold⟩
    · cases hphase'
      exact .inr ⟨caller, hcaller, rfl, i, hphase⟩
    · rw [callers_remove] at hold
      exact .inl hold
  | @leaves c₀ i caller hcaller hphase =>
    have hremoved : (w.remove caller.key .Gone).callers[c₀]? = some caller := by
      rwa [callers_remove]
    rcases callers_go_cases hremoved hcaller' with ⟨-, rfl⟩ | ⟨-, hold⟩
    · cases hphase'
    · rw [callers_remove] at hold
      exact .inl hold
  | drops hcaller =>
    rcases callers_go_cases hcaller hcaller' with ⟨-, rfl⟩ | ⟨-, hold⟩
    · cases hphase'
    · exact .inl hold

theorem Ok.faithful (h : w.Ok) : w.Faithful where
  waits c i caller hcaller hphase := by
    obtain ⟨c', sender, hchannel⟩ := h.waiting hcaller hphase
    refine ⟨c', sender, hchannel, ?_⟩
    cases sender with
    | There =>
      have hlookup := h.there hchannel
      obtain ⟨c₀, caller', hchannel', hcaller', hkey, hasking⟩ := h.entry hlookup
      rw [hchannel] at hchannel'
      cases hchannel'
      exact ⟨hlookup, caller', hcaller', hkey, hasking⟩
    | Sent result c'' => exact ⟨h.sent hchannel, wait_sent hcaller hphase hchannel⟩
    | Gone => exact wait_gone hcaller hphase hchannel
  freed c i key hchannel := by
    have hlookup := h.there hchannel
    obtain ⟨c₀, caller, hchannel', hcaller, hkey, hphase⟩ := h.entry hlookup
    rw [hchannel] at hchannel'
    cases hchannel'
    have hgone : ∀ sender : Sender Shared,
        (w.remove caller.key sender).channels[i]? = some ⟨key, c, sender⟩ := by
      intro sender
      rw [getElem?_remove, hchannel, Option.map_some, hkey, if_pos hlookup]
    refine ⟨fun result => ?_, ?_⟩
    · rw [step_ends hcaller hphase]
      exact hgone _
    · rw [step_drop hcaller hphase]
      exact hgone _
  asks c caller hcaller := by
    refine ⟨fun hphase => ⟨w.channels.length, ?_⟩, fun i hphase result => ?_⟩
    · rw [step_insert hcaller hphase, callers_insert]
      exact callers_go_self hcaller
    · rw [step_ends hcaller hphase]
      exact callers_go_self (by rwa [callers_remove])
  told _ _ _ _ _ hcaller' hphase' := told_step hcaller' hphase'
  another c caller result hcaller hphase := by
    obtain ⟨c', caller', hne, hcaller', hkey, hown⟩ := h.another hcaller hphase
    exact ⟨c', caller', hne, hcaller', hown, hkey, fun hq hq' => key_injective hq' hq hkey⟩

/-! ### One fan-out of a key at a time -/

/-- At most one fan-out of the key is under way. -/
def Single (key : Str) (w : World Shared) : Prop :=
  ∀ (c c' i i' : ℕ) (caller caller' : Caller Shared), w.callers[c]? = some caller →
    w.callers[c']? = some caller' → caller.key = key → caller'.key = key →
    caller.phase = .Asking i → caller'.phase = .Asking i' → c = c'

/-- A caller that puts in an entry of the key finds none in the table. -/
def Clear (key : Str) (w : World Shared) (a : Action Shared) : Prop :=
  ∀ (c : ℕ) (caller : Caller Shared), a = .insert c → w.callers[c]? = some caller →
    caller.key = key → caller.phase = .Inserting → w.inflight.lookup key = none

/-- No caller of the key is dropped or goes round the cache. -/
def Undisturbed (key : Str) (w : World Shared) (a : Action Shared) : Prop :=
  (∀ question bypass_cache, a = .call question bypass_cache → question.key = key →
    bypass_cache = false) ∧
  ∀ (c : ℕ) (caller : Caller Shared), a = .drop c → w.callers[c]? = some caller → caller.key ≠ key

/-- No two callers of the key are between their look and their insertion. -/
def Alone (key : Str) (w : World Shared) : Prop :=
  ∀ (c c' : ℕ) (caller caller' : Caller Shared), w.callers[c]? = some caller →
    w.callers[c']? = some caller' → caller.key = key → caller'.key = key →
    caller.phase = .Inserting → caller'.phase = .Inserting → c = c'

/-- Every fan-out of the key has its entry in the table. -/
def Entered (key : Str) (w : World Shared) : Prop :=
  ∀ (c i : ℕ) (caller : Caller Shared), w.callers[c]? = some caller → caller.key = key →
    caller.phase = .Asking i → w.inflight.lookup key = some i

variable {key : Str}

theorem Ok.single (h : w.Ok) (hentered : w.Entered key) : w.Single key := by
  intro c c' i i' caller caller' hcaller hcaller' hkey hkey' hphase hphase'
  have hlookup := hentered c i caller hcaller hkey hphase
  rw [hentered c' i' caller' hcaller' hkey' hphase'] at hlookup
  cases hlookup
  obtain ⟨sender, hchannel⟩ := h.asking hcaller hphase
  obtain ⟨sender', hchannel'⟩ := h.asking hcaller' hphase'
  rw [hchannel] at hchannel'
  exact (Channel.mk.inj (Option.some_inj.1 hchannel')).2.1

/-- A caller that does not run a fan-out goes on, and the others' entries stay. -/
theorem Entered.go {phase : Phase Shared} (h : w.Entered key)
    (hcaller : w.callers[c]? = some caller) (hphase : ∀ i, phase ≠ .Asking i) :
    (w.go c phase).Entered key := by
  intro c' i caller' hcaller' hkey hasking
  rcases callers_go_cases hcaller hcaller' with ⟨-, rfl⟩ | ⟨-, hold⟩
  · exact absurd hasking (hphase i)
  · exact h c' i caller' hold hkey hasking

/-- A caller that leaves takes out its own entry, so the other keys' and callers' stay. -/
theorem Entered.leave {phase : Phase Shared} {sender : Sender Shared} {i : ℕ} (h : w.Entered key)
    (hok : w.Ok) (hcaller : w.callers[c]? = some caller) (hasking : caller.phase = .Asking i)
    (hphase : ∀ i, phase ≠ .Asking i) : ((w.remove caller.key sender).go c phase).Entered key := by
  intro c' i' caller' hcaller' hkey hasking'
  have hremoved : (w.remove caller.key sender).callers[c]? = some caller := by
    rwa [callers_remove]
  rcases callers_go_cases hremoved hcaller' with ⟨-, rfl⟩ | ⟨hne, hold⟩
  · exact absurd hasking' (hphase i')
  · rw [callers_remove] at hold
    have hlookup := h c' i' caller' hold hkey hasking'
    refine (lookup_remove caller.key sender key).trans ((if_neg fun hsame => ?_).trans hlookup)
    exact hne (hok.single h c' c i' i caller' caller hold hcaller hkey hsame.symm hasking' hasking)

theorem Entered.step (h : w.Entered key) (hok : w.Ok) {a : Action Shared} (hclear : Clear key w a) :
    (w.step a).Entered key := by
  have hmoves := moves w a
  generalize w.step a = w' at hmoves
  cases hmoves with
  | stays => exact h
  | call question bypass_cache =>
    intro c i caller hcaller hkey hphase
    change (w.callers ++ [_])[c]? = some caller at hcaller
    rw [List.getElem?_append, List.getElem?_singleton] at hcaller
    split at hcaller
    case isTrue => exact h c i caller hcaller hkey hphase
    case isFalse =>
      split at hcaller
      case isTrue =>
        cases hcaller
        cases hphase
      case isFalse => cases hcaller
  | finds hcaller => exact h.go hcaller nofun
  | misses hcaller => exact h.go hcaller nofun
  | hears hcaller => exact h.go hcaller nofun
  | alone hcaller => exact h.go hcaller nofun
  | @inserts c caller hcaller hphase =>
    intro c' i caller' hcaller' hkey hasking
    rw [callers_insert] at hcaller'
    rw [lookup_insert]
    rcases callers_go_cases hcaller hcaller' with ⟨-, rfl⟩ | ⟨-, hold⟩
    · cases hasking
      exact if_pos hkey.symm
    · have hlookup := h c' i caller' hold hkey hasking
      refine (if_neg fun hsame => ?_).trans hlookup
      rw [hclear c caller rfl hcaller hsame.symm hphase] at hlookup
      cases hlookup
  | publishes hcaller hphase result => exact h.leave hok hcaller hphase nofun
  | leaves hcaller hphase => exact h.leave hok hcaller hphase nofun
  | drops hcaller => exact h.go hcaller nofun

/-- Two fan-outs of a key are under way once a caller puts in its entry over another's. -/
theorem Ok.clear (h : w.Ok) {a : Action Shared} (hsingle : (w.step a).Single key) :
    Clear key w a := by
  rintro c caller rfl hcaller hkey hphase
  refine Option.eq_none_iff_forall_ne_some.2 fun i hlookup => ?_
  obtain ⟨c', caller', -, hcaller', hkey', hasking⟩ := h.entry hlookup
  have hne : c' ≠ c := by
    rintro rfl
    obtain rfl := Option.some_inj.1 (hcaller.symm.trans hcaller')
    cases hphase.symm.trans hasking
  rw [step_insert hcaller hphase] at hsingle
  refine hne (hsingle c' c i w.channels.length caller'
    { caller with phase := .Asking w.channels.length } ?_ ?_ hkey' hkey hasking rfl)
  · rw [callers_insert, callers_go_of_ne hne, hcaller']
  · rw [callers_insert, callers_go_self hcaller]

/-- At most one fan-out of the key is under way in every state of a run, if and only if every caller
that puts in an entry of the key finds none. -/
theorem single_iff (actions : List (Action Shared)) :
    Always step (Single key) new actions ↔ Along step (Clear key) new actions := by
  constructor
  · exact fun h => h.along (I := Ok) (fun _ a hok => hok.step a) (fun _ _ hok => hok.clear) ok_new
  · intro h
    have hstep : ∀ (w : World Shared) (a : Action Shared), w.Ok ∧ w.Entered key → Clear key w a →
        (w.step a).Ok ∧ (w.step a).Entered key :=
      fun w a hw hclear => ⟨hw.1.step a, hw.2.step hw.1 hclear⟩
    have hnew : (new : World Shared).Entered key := by
      intro c i caller hcaller
      cases hcaller
    exact (h.always hstep ⟨ok_new, hnew⟩).mono fun w hw => hw.1.single hw.2

/-! ### Where it fails -/

/-- While no caller of the key was dropped or went round the cache: a caller that is about to put in
an entry of the key found none, and there is none. -/
structure Unbroken (key : Str) (w : World Shared) : Prop where
  asks : ∀ (c : ℕ) (caller : Caller Shared), w.callers[c]? = some caller → caller.key = key →
    caller.bypass_cache = false
  there : ∀ c i : ℕ, w.channels[i]? ≠ some ⟨key, c, .Gone⟩
  misses : ∀ (c : ℕ) (caller : Caller Shared), w.callers[c]? = some caller → caller.key = key →
    caller.phase = .Inserting → w.inflight.lookup key = none

/-- A caller goes on, the table being left alone. -/
theorem Unbroken.go {phase : Phase Shared} (h : w.Unbroken key)
    (hcaller : w.callers[c]? = some caller)
    (hphase : caller.key = key → phase = .Inserting → w.inflight.lookup key = none) :
    (w.go c phase).Unbroken key where
  asks c' caller' hcaller' hkey := by
    rcases callers_go_cases hcaller hcaller' with ⟨-, rfl⟩ | ⟨-, hold⟩
    · exact h.asks c caller hcaller hkey
    · exact h.asks c' caller' hold hkey
  there := h.there
  misses c' caller' hcaller' hkey hinserting := by
    rcases callers_go_cases hcaller hcaller' with ⟨-, rfl⟩ | ⟨-, hold⟩
    · exact hphase hkey hinserting
    · exact h.misses c' caller' hold hkey hinserting

/-- An entry is taken out, its sender not just gone if it is one of the key. -/
theorem Unbroken.remove {key' : Str} {sender : Sender Shared} (h : w.Unbroken key) (hok : w.Ok)
    (hsender : key' = key → sender ≠ .Gone ∨ w.inflight.lookup key = none) :
    (w.remove key' sender).Unbroken key where
  asks c caller hcaller hkey := h.asks c caller (by rwa [callers_remove] at hcaller) hkey
  there c i hchannel := by
    rcases channels_remove_cases hchannel with ⟨hlookup, old, hold, heq⟩ | ⟨-, hold⟩
    · obtain ⟨c', caller, hthere, -⟩ := hok.entry hlookup
      rw [hold] at hthere
      cases hthere
      cases heq
      rcases hsender rfl with hgone | hnone
      · exact hgone rfl
      · cases hlookup.symm.trans hnone
    · exact h.there c i hold
  misses c caller hcaller hkey hinserting := by
    rw [callers_remove] at hcaller
    rw [lookup_remove, h.misses c caller hcaller hkey hinserting]
    split <;> rfl

theorem Unbroken.step (h : w.Unbroken key) (hok : w.Ok) {a : Action Shared}
    (hundisturbed : Undisturbed key w a) (halone : w.Alone key) : (w.step a).Unbroken key := by
  have hmoves := moves w a
  generalize w.step a = w' at hmoves
  cases hmoves with
  | stays => exact h
  | call question bypass_cache =>
    have hnew : ∀ {c : ℕ} {caller : Caller Shared},
        (w.callers ++ [⟨question, bypass_cache, .Looking⟩])[c]? = some caller →
        w.callers[c]? = some caller ∨ caller = ⟨question, bypass_cache, .Looking⟩ := by
      intro c caller hcaller
      rw [List.getElem?_append, List.getElem?_singleton] at hcaller
      split at hcaller
      case isTrue => exact .inl hcaller
      case isFalse =>
        split at hcaller
        case isTrue => exact .inr (Option.some_inj.1 hcaller).symm
        case isFalse => cases hcaller
    constructor
    · intro c caller hcaller hkey
      rcases hnew hcaller with hold | rfl
      · exact h.asks c caller hold hkey
      · exact hundisturbed.1 question bypass_cache rfl hkey
    · exact h.there
    · intro c caller hcaller hkey hphase
      rcases hnew hcaller with hold | rfl
      · exact h.misses c caller hold hkey hphase
      · cases hphase
  | finds hcaller => exact h.go hcaller nofun
  | @misses c caller hcaller hphase hlookup =>
    refine h.go hcaller fun hkey _ => ?_
    rcases hlookup with hbypass | hnone
    · cases hbypass.symm.trans (h.asks c caller hcaller hkey)
    · exact hkey ▸ hnone
  | hears hcaller => exact h.go hcaller nofun
  | @alone c i caller channel hcaller hphase hchannel hgone =>
    refine h.go hcaller fun hkey _ => ?_
    obtain ⟨c', sender, hchannel'⟩ := hok.waiting hcaller hphase
    obtain rfl := Option.some_inj.1 (hchannel.symm.trans hchannel')
    obtain rfl : sender = .Gone := hgone
    exact absurd (hkey ▸ hchannel') (h.there c' i)
  | @inserts c caller hcaller hphase =>
    have hremoved : (w.remove caller.key .Gone).Unbroken key := h.remove hok fun hkey =>
      .inr (h.misses c caller hcaller hkey hphase)
    constructor
    · intro c' caller' hcaller' hkey
      rw [callers_insert] at hcaller'
      rcases callers_go_cases hcaller hcaller' with ⟨-, rfl⟩ | ⟨-, hold⟩
      · exact h.asks c caller hcaller hkey
      · exact h.asks c' caller' hold hkey
    · intro c' i hchannel
      rcases channels_insert_cases hchannel with ⟨-, heq⟩ | ⟨-, hold⟩
      · cases heq
      · exact hremoved.there c' i hold
    · intro c' caller' hcaller' hkey hinserting
      rw [callers_insert] at hcaller'
      rcases callers_go_cases hcaller hcaller' with ⟨-, rfl⟩ | ⟨hne, hold⟩
      · cases hinserting
      · rw [lookup_insert]
        refine (if_neg fun hsame => ?_).trans (h.misses c' caller' hold hkey hinserting)
        exact hne (halone c' c caller' caller hold hcaller hkey hsame.symm hinserting hphase)
  | @publishes c i caller hcaller hphase result =>
    have hremoved : (w.remove caller.key (.Sent result c)).Unbroken key :=
      h.remove hok fun _ => .inl nofun
    have hcaller' : (w.remove caller.key (.Sent result c)).callers[c]? = some caller := by
      rwa [callers_remove]
    exact hremoved.go hcaller' nofun
  | @leaves c i caller hcaller hphase =>
    have hremoved : (w.remove caller.key .Gone).Unbroken key := h.remove hok fun hkey =>
      absurd hkey (hundisturbed.2 c caller rfl hcaller)
    have hcaller' : (w.remove caller.key .Gone).callers[c]? = some caller := by
      rwa [callers_remove]
    exact hremoved.go hcaller' nofun
  | drops hcaller => exact h.go hcaller nofun

/-- Where no caller of the key is dropped or goes round the cache, only a race between two of them
puts an entry over another's. -/
theorem clear_of_alone {actions : List (Action Shared)}
    (hundisturbed : Along step (Undisturbed key) new actions)
    (halone : Always step (Alone key) new actions) : Along step (Clear key) new actions := by
  refine (hundisturbed.and halone.steps).imp (I := fun w => w.Ok ∧ w.Unbroken key) ?_ ?_
    ⟨ok_new, ?_⟩
  · exact fun w a hw hc => ⟨hw.1.step a, hw.2.step hw.1 hc.1 hc.2⟩
  · rintro w a hw - c caller - hcaller hkey hphase
    exact hw.2.misses c caller hcaller hkey hphase
  · constructor
    · intro c caller hcaller
      cases hcaller
    · intro c i hchannel
      cases hchannel
    · intro c caller hcaller
      cases hcaller

/-- **Coalescing of queries.**  Whatever the order of the callers' steps, no caller waits for ever,
a result is of the caller's key, and it is told as the caller's own exactly when its own fan-out
ended with it.  At most one fan-out of a key is under way all through a run if and only if every
caller that puts in an entry of the key finds none; and where no caller of the key is dropped or
goes round the cache, that is so unless two of them are between their look and their insertion. -/
theorem coalescing_spec (actions : List (Action Shared)) :
    (run step new actions).Faithful ∧ ∀ key : Str,
      (Always step (Single key) new actions ↔ Along step (Clear key) new actions) ∧
      (Along step (Undisturbed key) new actions → Always step (Alone key) new actions →
        Along step (Clear key) new actions) :=
  ⟨(ok_run actions).faithful, fun _ => ⟨single_iff actions, clear_of_alone⟩⟩

/-- A question that two callers ask. -/
def asked : Question := ⟨"a".toList, false, ["udp://1.1.1.1:53".toList]⟩

/-- Two callers look for an entry of the same question, and then both put one in. -/
def race : List (Action Unit) :=
  [.call asked false, .call asked false, .look 0, .look 1, .insert 0, .insert 1]

/-- No caller is dropped or goes round the cache, and two fan-outs of the key are under way. -/
theorem two_fan_outs : Along step (Undisturbed asked.key) new race ∧
    ¬ Always step (Single asked.key) new race := by
  refine ⟨by simp [race, Along, Undisturbed], fun h => ?_⟩
  have hcallers : (run step new race).callers =
      [⟨asked, false, .Asking 0⟩, ⟨asked, false, .Asking 1⟩] := by
    simp [race, step, look, callers_insert, length_insert, go, new, Caller.key]
  have hlast : Single asked.key (run step new race) := (always_iff.1 h) 6
  have hsame := hlast 0 1 0 1 ⟨asked, false, .Asking 0⟩ ⟨asked, false, .Asking 1⟩
    (congrArg (·[0]?) hcallers) (congrArg (·[1]?) hcallers) rfl rfl rfl rfl
  cases hsame

end World

end Coalesce

end Rurge
