import Rurge.Dns.Coalesce

/-!
# Every interleaving of queries

An entry of the table is that of a caller in the middle of its fan-out, and a sender that is there
is in the table; a caller waits for nothing else.  That no two fan-outs of a key are under way needs
more: between a caller's look for an entry and its insertion, another may have put one in.
-/

namespace Rurge

namespace Coalesce

/-- The phase is one of a caller that has no entry and no result. -/
def Phase.Idle {Shared : Type*} : Phase Shared → Prop
  | .Looking | .Waiting _ | .Inserting => True
  | _ => False

namespace World

variable {Shared : Type*} {w : World Shared}

/-! ### What a step does to the tables -/

theorem getElem?_go (c : ℕ) (phase : Phase Shared) (i : ℕ) :
    (w.go c phase).callers[i]? =
      if i = c then w.callers[i]?.map fun caller => { caller with phase := phase }
      else w.callers[i]? := by
  simp only [go, List.getElem?_modify]
  split
  case isTrue h =>
    rw [if_pos h.symm]
    rfl
  case isFalse h =>
    rw [if_neg (Ne.symm h)]
    simp

theorem lookup_remove (key : Str) (sender : Sender Shared) (κ : Str) :
    (w.remove key sender).inflight.lookup κ =
      if κ = key then none else w.inflight.lookup κ := by
  unfold remove
  split
  case h_1 i hi =>
    split
    case isTrue h => rw [h, AList.lookup_erase]
    case isFalse h => rw [AList.lookup_erase_ne h]
  case h_2 hnone =>
    split
    case isTrue h => rw [h, hnone]
    case isFalse => rfl

theorem getElem?_remove (key : Str) (sender : Sender Shared) (i : ℕ) :
    (w.remove key sender).channels[i]? = w.channels[i]?.map fun channel =>
      if w.inflight.lookup key = some i then { channel with sender := sender } else channel := by
  unfold remove
  split
  case h_1 j hj =>
    rw [List.getElem?_modify, hj]
    simp only [Option.some_inj]
    rfl
  case h_2 hnone => simp [hnone]

@[simp] theorem callers_remove (key : Str) (sender : Sender Shared) :
    (w.remove key sender).callers = w.callers := by
  unfold remove
  split <;> rfl

@[simp] theorem length_remove (key : Str) (sender : Sender Shared) :
    (w.remove key sender).channels.length = w.channels.length := by
  unfold remove
  split
  case h_1 => exact List.length_modify ..
  case h_2 => rfl

/-- What an action makes of the world, case by case. -/
inductive Moves (w : World Shared) : Action Shared → World Shared → Prop
  | stays (a : Action Shared) : Moves w a w
  | call (question : Question) (bypass_cache : Bool) : Moves w (.call question bypass_cache)
      { w with callers := w.callers ++ [⟨question, bypass_cache, .Looking⟩] }
  | finds {c i : ℕ} {caller : Caller Shared} (hcaller : w.callers[c]? = some caller)
      (hphase : caller.phase = .Looking) (hbypass : caller.bypass_cache = false)
      (hlookup : w.inflight.lookup caller.key = some i) : Moves w (.look c) (w.go c (.Waiting i))
  | misses {c : ℕ} {caller : Caller Shared} (hcaller : w.callers[c]? = some caller)
      (hphase : caller.phase = .Looking)
      (hlookup : caller.bypass_cache = true ∨ w.inflight.lookup caller.key = none) :
      Moves w (.look c) (w.go c .Inserting)
  | hears {c i c' : ℕ} {caller : Caller Shared} {channel : Channel Shared} {result : Shared}
      (hcaller : w.callers[c]? = some caller) (hphase : caller.phase = .Waiting i)
      (hchannel : w.channels[i]? = some channel) (hsent : channel.sender = .Sent result c') :
      Moves w (.wait c) (w.go c (.Done result .Another))
  | alone {c i : ℕ} {caller : Caller Shared} {channel : Channel Shared}
      (hcaller : w.callers[c]? = some caller) (hphase : caller.phase = .Waiting i)
      (hchannel : w.channels[i]? = some channel) (hgone : channel.sender = .Gone) :
      Moves w (.wait c) (w.go c .Inserting)
  | inserts {c : ℕ} {caller : Caller Shared} (hcaller : w.callers[c]? = some caller)
      (hphase : caller.phase = .Inserting) : Moves w (.insert c) (w.insert c caller)
  | publishes {c i : ℕ} {caller : Caller Shared} (hcaller : w.callers[c]? = some caller)
      (hphase : caller.phase = .Asking i) (result : Shared) :
      Moves w (.ends c result) (w.publish c caller result)
  | leaves {c i : ℕ} {caller : Caller Shared} (hcaller : w.callers[c]? = some caller)
      (hphase : caller.phase = .Asking i) :
      Moves w (.drop c) ((w.remove caller.key .Gone).go c .Dropped)
  | drops {c : ℕ} {caller : Caller Shared} (hcaller : w.callers[c]? = some caller)
      (hphase : caller.phase.Idle ∨ caller.phase = .Dropped) : Moves w (.drop c) (w.go c .Dropped)

theorem moves (w : World Shared) (a : Action Shared) : w.Moves a (w.step a) := by
  cases a with
  | call question bypass_cache => exact .call question bypass_cache
  | look c =>
    simp only [step]
    split
    case h_1 caller hcaller =>
      split
      case h_1 hphase =>
        unfold look
        split
        case h_1 i hlookup hbypass => exact .finds hcaller hphase hbypass hlookup
        case h_2 hnot =>
          refine .misses hcaller hphase ?_
          rcases hbypass : caller.bypass_cache with _ | _
          · refine .inr (Option.eq_none_iff_forall_ne_some.2 fun i hlookup => ?_)
            exact hnot i hlookup hbypass
          · exact .inl rfl
      case h_2 => exact .stays _
    case h_2 => exact .stays _
  | wait c =>
    simp only [step]
    split
    case h_1 caller hcaller =>
      split
      case h_1 i hphase =>
        unfold wait
        split
        case h_1 result c' hsent =>
          obtain ⟨channel, hchannel, hsent⟩ := Option.map_eq_some_iff.1 hsent
          exact .hears hcaller hphase hchannel hsent
        case h_2 hgone =>
          obtain ⟨channel, hchannel, hgone⟩ := Option.map_eq_some_iff.1 hgone
          exact .alone hcaller hphase hchannel hgone
        case h_3 => exact .stays _
      case h_2 => exact .stays _
    case h_2 => exact .stays _
  | insert c =>
    simp only [step]
    split
    case h_1 caller hcaller =>
      split
      case h_1 hphase => exact .inserts hcaller hphase
      case h_2 => exact .stays _
    case h_2 => exact .stays _
  | ends c result =>
    simp only [step]
    split
    case h_1 caller hcaller =>
      split
      case h_1 i hphase => exact .publishes hcaller hphase result
      case h_2 => exact .stays _
    case h_2 => exact .stays _
  | drop c =>
    simp only [step]
    split
    case h_1 caller hcaller =>
      unfold drop
      split
      case h_1 i hphase => exact .leaves hcaller hphase
      case h_2 => exact .stays _
      case h_3 hasking hdone =>
        refine .drops hcaller ?_
        cases hphase : caller.phase with
        | Looking => exact .inl trivial
        | Waiting => exact .inl trivial
        | Inserting => exact .inl trivial
        | Asking i => exact absurd hphase (hasking i)
        | Done result query => exact absurd hphase (hdone result query)
        | Dropped => exact .inr rfl
    case h_2 => exact .stays _

/-! ### The table and its callers -/

/-- What holds of the table, the channels and the callers after any steps. -/
structure Ok (w : World Shared) : Prop where
  /-- An entry is that of a caller of its key in the middle of its fan-out. -/
  entry : ∀ {key : Str} {i : ℕ}, w.inflight.lookup key = some i →
    ∃ (c : ℕ) (caller : Caller Shared), w.channels[i]? = some ⟨key, c, .There⟩ ∧
      w.callers[c]? = some caller ∧ caller.key = key ∧ caller.phase = .Asking i
  /-- A sender that is there is in the table. -/
  there : ∀ {key : Str} {c i : ℕ}, w.channels[i]? = some ⟨key, c, .There⟩ →
    w.inflight.lookup key = some i
  /-- A result was sent by a caller of the key that ran its fan-out. -/
  sent : ∀ {key : Str} {c i c' : ℕ} {result : Shared},
    w.channels[i]? = some ⟨key, c, .Sent result c'⟩ → ∃ caller : Caller Shared,
      w.callers[c']? = some caller ∧ caller.key = key ∧ caller.phase = .Done result .Own
  /-- Who runs a fan-out does so with a channel of its own. -/
  asking : ∀ {c i : ℕ} {caller : Caller Shared}, w.callers[c]? = some caller →
    caller.phase = .Asking i → ∃ sender, w.channels[i]? = some ⟨caller.key, c, sender⟩
  /-- Who waits does so on a channel of its key. -/
  waiting : ∀ {c i : ℕ} {caller : Caller Shared}, w.callers[c]? = some caller →
    caller.phase = .Waiting i → ∃ c' sender, w.channels[i]? = some ⟨caller.key, c', sender⟩
  /-- Another's result is that of another caller of the key. -/
  another : ∀ {c : ℕ} {caller : Caller Shared} {result : Shared}, w.callers[c]? = some caller →
    caller.phase = .Done result .Another → ∃ (c' : ℕ) (caller' : Caller Shared), c' ≠ c ∧
      w.callers[c']? = some caller' ∧ caller'.key = caller.key ∧ caller'.phase = .Done result .Own

theorem ok_new : (new : World Shared).Ok where
  entry h := by cases h
  there h := by cases h
  sent h := by cases h
  asking h := by cases h
  waiting h := by cases h
  another h := by cases h

/-! ### The steps -/

variable {c : ℕ} {caller : Caller Shared} {phase : Phase Shared}

/-- Other callers are where they were. -/
theorem callers_go_of_ne {i : ℕ} (hne : i ≠ c) : (w.go c phase).callers[i]? = w.callers[i]? :=
  (getElem?_go c phase i).trans (if_neg hne)

theorem callers_go_self (hcaller : w.callers[c]? = some caller) :
    (w.go c phase).callers[c]? = some { caller with phase := phase } := by
  rw [getElem?_go, if_pos rfl, hcaller]
  rfl

/-- A caller in another phase than `phase` is not the one that went there. -/
theorem callers_go_cases {i : ℕ} {caller' : Caller Shared} (hcaller : w.callers[c]? = some caller)
    (h : (w.go c phase).callers[i]? = some caller') :
    i = c ∧ caller' = { caller with phase := phase } ∨ i ≠ c ∧ w.callers[i]? = some caller' := by
  by_cases hi : i = c
  · subst hi
    rw [callers_go_self hcaller] at h
    exact .inl ⟨rfl, (Option.some_inj.1 h).symm⟩
  · exact .inr ⟨hi, (callers_go_of_ne hi).symm.trans h⟩

/-- A caller without an entry goes on without one. -/
theorem Ok.go (h : w.Ok) (hcaller : w.callers[c]? = some caller) (hidle : caller.phase.Idle)
    (hasking : ∀ i, phase ≠ .Asking i)
    (hwaiting : ∀ i, phase = .Waiting i → ∃ c' sender,
      w.channels[i]? = some ⟨caller.key, c', sender⟩)
    (hdone : ∀ result query, phase = .Done result query → query = .Another ∧
      ∃ (c' : ℕ) (caller' : Caller Shared), w.callers[c']? = some caller' ∧
        caller'.key = caller.key ∧ caller'.phase = .Done result .Own) :
    (w.go c phase).Ok := by
  have hkept : ∀ {i : ℕ} {caller' : Caller Shared}, w.callers[i]? = some caller' →
      ¬ caller'.phase.Idle → i ≠ c ∧ (w.go c phase).callers[i]? = some caller' := by
    intro i caller' hcaller' hbusy
    have hi : i ≠ c := by
      rintro rfl
      obtain rfl := Option.some_inj.1 (hcaller.symm.trans hcaller')
      exact hbusy hidle
    exact ⟨hi, (callers_go_of_ne hi).trans hcaller'⟩
  constructor
  case entry =>
    intro key i hlookup
    obtain ⟨c', caller', hchannel, hcaller', hkey, hphase⟩ := h.entry hlookup
    exact ⟨c', caller', hchannel, (hkept hcaller' (by simp [hphase, Phase.Idle])).2, hkey, hphase⟩
  case there => exact h.there
  case sent =>
    intro key c₀ i c' result hchannel
    obtain ⟨caller', hcaller', hkey, hphase⟩ := h.sent hchannel
    exact ⟨caller', (hkept hcaller' (by simp [hphase, Phase.Idle])).2, hkey, hphase⟩
  case asking =>
    intro i j caller' hcaller' hphase
    rcases callers_go_cases hcaller hcaller' with ⟨rfl, rfl⟩ | ⟨-, hcaller'⟩
    · exact absurd hphase (hasking j)
    · exact h.asking hcaller' hphase
  case waiting =>
    intro i j caller' hcaller' hphase
    rcases callers_go_cases hcaller hcaller' with ⟨rfl, rfl⟩ | ⟨-, hcaller'⟩
    · exact hwaiting j hphase
    · exact h.waiting hcaller' hphase
  case another =>
    intro i caller' result hcaller' hphase
    rcases callers_go_cases hcaller hcaller' with ⟨rfl, rfl⟩ | ⟨-, hcaller'⟩
    · obtain ⟨-, c', caller'', hcaller'', hkey, hown⟩ := hdone result _ hphase
      obtain ⟨hne, hkept⟩ := hkept hcaller'' (by simp [hown, Phase.Idle])
      exact ⟨c', caller'', hne, hkept, hkey, hown⟩
    · obtain ⟨c', caller'', hne, hcaller'', hkey, hown⟩ := h.another hcaller' hphase
      exact ⟨c', caller'', hne, (hkept hcaller'' (by simp [hown, Phase.Idle])).2, hkey, hown⟩

/-- A channel after an entry was taken out: what it was, or the entry's. -/
theorem channels_remove_cases {key : Str} {sender : Sender Shared} {i : ℕ}
    {channel : Channel Shared} (h : (w.remove key sender).channels[i]? = some channel) :
    w.inflight.lookup key = some i ∧ (∃ old, w.channels[i]? = some old ∧
      channel = { old with sender := sender }) ∨
    w.inflight.lookup key ≠ some i ∧ w.channels[i]? = some channel := by
  rw [getElem?_remove] at h
  obtain ⟨old, hold, heq⟩ := Option.map_eq_some_iff.1 h
  by_cases hi : w.inflight.lookup key = some i
  · rw [if_pos hi] at heq
    exact .inl ⟨hi, old, hold, heq.symm⟩
  · rw [if_neg hi] at heq
    exact .inr ⟨hi, heq ▸ hold⟩

/-- A channel keeps its key and its caller. -/
theorem channels_remove_kept {key κ : Str} {sender sender' : Sender Shared} {i : ℕ}
    (h : w.channels[i]? = some ⟨κ, c, sender'⟩) :
    ∃ sender'', (w.remove key sender).channels[i]? = some ⟨κ, c, sender''⟩ := by
  rw [getElem?_remove, h, Option.map_some]
  split
  · exact ⟨sender, rfl⟩
  · exact ⟨sender', rfl⟩

/-- The table and the channels after an entry of a key was taken out. -/
structure Removed (w : World Shared) (key : Str) : Prop where
  entry : ∀ {κ : Str} {i : ℕ}, w.inflight.lookup κ = some i → κ ≠ key ∧
    ∃ (c : ℕ) (caller : Caller Shared), w.channels[i]? = some ⟨κ, c, .There⟩ ∧
      w.callers[c]? = some caller ∧ caller.key = κ ∧ caller.phase = .Asking i
  there : ∀ {κ : Str} {c i : ℕ}, w.channels[i]? = some ⟨κ, c, .There⟩ →
    w.inflight.lookup κ = some i

theorem Ok.remove (h : w.Ok) (key : Str) {sender : Sender Shared} (hsender : sender ≠ .There) :
    (w.remove key sender).Removed key where
  entry {κ i} hlookup := by
    rw [lookup_remove] at hlookup
    split at hlookup
    case isTrue => cases hlookup
    case isFalse hne =>
      obtain ⟨c, caller, hchannel, hcaller, hkey, hphase⟩ := h.entry hlookup
      refine ⟨hne, c, caller, ?_, by rwa [callers_remove], hkey, hphase⟩
      rw [getElem?_remove, hchannel, Option.map_some]
      split
      case isTrue hsame =>
        obtain ⟨c', -, hchannel', -⟩ := h.entry hsame
        rw [hchannel] at hchannel'
        cases hchannel'
        exact absurd rfl hne
      case isFalse => rfl
  there {κ c i} hchannel := by
    rcases channels_remove_cases hchannel with ⟨-, old, -, heq⟩ | ⟨hne, hold⟩
    · cases heq
      exact absurd rfl hsender
    · have hlookup := h.there hold
      rw [lookup_remove]
      split
      case isTrue hκ => exact absurd (hκ ▸ hlookup) hne
      case isFalse => exact hlookup

/-- A caller ends its fan-out, or is dropped in the middle of it: the entry of its key is gone. -/
theorem Ok.leave (h : w.Ok) {i : ℕ} (hcaller : w.callers[c]? = some caller)
    (hphase : caller.phase = .Asking i) {sender : Sender Shared}
    (hleft : sender = .Gone ∧ phase = .Dropped ∨
      ∃ result, sender = .Sent result c ∧ phase = .Done result .Own) :
    ((w.remove caller.key sender).go c phase).Ok := by
  have hsender : sender ≠ .There := by
    rcases hleft with ⟨rfl, -⟩ | ⟨result, rfl, -⟩ <;> nofun
  have hremoved := h.remove caller.key hsender
  have hcaller' : (w.remove caller.key sender).callers[c]? = some caller := by
    rwa [callers_remove]
  have hother : ∀ {j : ℕ} {other : Caller Shared}, w.callers[j]? = some other →
      (∀ k, other.phase ≠ .Asking k) →
      j ≠ c ∧ ((w.remove caller.key sender).go c phase).callers[j]? = some other := by
    intro j other hother hnot
    have hj : j ≠ c := by
      rintro rfl
      obtain rfl := Option.some_inj.1 (hcaller.symm.trans hother)
      exact hnot i hphase
    exact ⟨hj, (callers_go_of_ne hj).trans (by rwa [callers_remove])⟩
  constructor
  case entry =>
    intro κ j hlookup
    obtain ⟨hne, c', other, hchannel, hcallers, hkey, hasking⟩ := hremoved.entry hlookup
    refine ⟨c', other, hchannel, (callers_go_of_ne ?_).trans hcallers, hkey, hasking⟩
    rintro rfl
    obtain rfl := Option.some_inj.1 (hcaller'.symm.trans hcallers)
    exact hne hkey.symm
  case there => exact hremoved.there
  case sent =>
    intro κ c₀ j c' result hchannel
    rcases channels_remove_cases hchannel with ⟨hlookup, old, hold, heq⟩ | ⟨-, hold⟩
    · obtain ⟨_, _, hthere, -⟩ := h.entry hlookup
      rw [hthere] at hold
      cases hold
      rcases hleft with ⟨rfl, -⟩ | ⟨result', rfl, rfl⟩
      · cases heq
      · cases heq
        exact ⟨_, callers_go_self hcaller', rfl, rfl⟩
    · obtain ⟨other, hother', hkey, hown⟩ := h.sent hold
      exact ⟨other, (hother hother' (by simp [hown])).2, hkey, hown⟩
  case asking =>
    intro j k other hcallers hasking
    rcases callers_go_cases hcaller' hcallers with ⟨rfl, rfl⟩ | ⟨-, hcallers⟩
    · rcases hleft with ⟨-, rfl⟩ | ⟨result, -, rfl⟩ <;> cases hasking
    · rw [callers_remove] at hcallers
      obtain ⟨sender', hchannel⟩ := h.asking hcallers hasking
      exact channels_remove_kept hchannel
  case waiting =>
    intro j k other hcallers hwaiting
    rcases callers_go_cases hcaller' hcallers with ⟨rfl, rfl⟩ | ⟨-, hcallers⟩
    · rcases hleft with ⟨-, rfl⟩ | ⟨result, -, rfl⟩ <;> cases hwaiting
    · rw [callers_remove] at hcallers
      obtain ⟨c', sender', hchannel⟩ := h.waiting hcallers hwaiting
      exact ⟨c', channels_remove_kept hchannel⟩
  case another =>
    intro j other result hcallers hdone
    rcases callers_go_cases hcaller' hcallers with ⟨rfl, rfl⟩ | ⟨-, hcallers⟩
    · rcases hleft with ⟨-, rfl⟩ | ⟨result, -, rfl⟩ <;> cases hdone
    · rw [callers_remove] at hcallers
      obtain ⟨c', other', hne, hother', hkey, hown⟩ := h.another hcallers hdone
      exact ⟨c', other', hne, (hother hother' (by simp [hown])).2, hkey, hown⟩

/-- The channels once a caller put in its entry. -/
theorem channels_insert_cases {i : ℕ} {channel : Channel Shared}
    (h : (w.insert c caller).channels[i]? = some channel) :
    i = w.channels.length ∧ channel = ⟨caller.key, c, .There⟩ ∨
    i < w.channels.length ∧ (w.remove caller.key .Gone).channels[i]? = some channel := by
  simp only [World.insert, World.go, List.getElem?_append, length_remove] at h
  split at h
  case isTrue hlt => exact .inr ⟨hlt, h⟩
  case isFalse hge =>
    rw [List.getElem?_singleton] at h
    split at h
    case isTrue hzero => exact .inl ⟨by omega, (Option.some_inj.1 h).symm⟩
    case isFalse => cases h

theorem channels_insert_kept {i : ℕ} {channel : Channel Shared}
    (h : (w.remove caller.key .Gone).channels[i]? = some channel) :
    (w.insert c caller).channels[i]? = some channel := by
  simp only [World.insert, World.go, List.getElem?_append]
  rw [if_pos (List.getElem?_eq_some_iff.1 h).1, h]

theorem channels_insert_new (w : World Shared) (c : ℕ) (caller : Caller Shared) :
    (w.insert c caller).channels[w.channels.length]? = some ⟨caller.key, c, .There⟩ := by
  simp [World.insert, World.go]

theorem lookup_insert (w : World Shared) (c : ℕ) (caller : Caller Shared) (κ : Str) :
    (w.insert c caller).inflight.lookup κ =
      if κ = caller.key then some w.channels.length else w.inflight.lookup κ := by
  have h : (w.insert c caller).inflight.lookup κ =
      if κ = caller.key then some (w.remove caller.key (.Gone : Sender Shared)).channels.length
      else (w.remove caller.key (.Gone : Sender Shared)).inflight.lookup κ :=
    Assoc.lookup_insert_apply ..
  rw [h, length_remove, lookup_remove]
  split <;> rfl

theorem length_insert (w : World Shared) (c : ℕ) (caller : Caller Shared) :
    (w.insert c caller).channels.length = w.channels.length + 1 := by
  simp [World.insert, World.go]

theorem callers_insert (w : World Shared) (c : ℕ) (caller : Caller Shared) :
    (w.insert c caller).callers = (w.go c (.Asking w.channels.length)).callers := by
  simp [World.insert, World.go]

/-- A caller puts in its entry, in the place of one that is there. -/
theorem Ok.insert (h : w.Ok) (hcaller : w.callers[c]? = some caller)
    (hphase : caller.phase = .Inserting) : (w.insert c caller).Ok := by
  have hremoved : (w.remove caller.key .Gone).Removed caller.key := h.remove caller.key nofun
  have hother : ∀ {j : ℕ} {other : Caller Shared}, w.callers[j]? = some other →
      other.phase ≠ .Inserting → (w.insert c caller).callers[j]? = some other := by
    intro j other hother hnot
    rw [callers_insert, callers_go_of_ne, hother]
    rintro rfl
    obtain rfl := Option.some_inj.1 (hcaller.symm.trans hother)
    exact hnot hphase
  have hcases : ∀ {j : ℕ} {other : Caller Shared}, (w.insert c caller).callers[j]? = some other →
      j = c ∧ other = { caller with phase := .Asking w.channels.length } ∨
      j ≠ c ∧ w.callers[j]? = some other := by
    intro j other hother
    rw [callers_insert] at hother
    exact callers_go_cases hcaller hother
  have hkept : ∀ {j c' : ℕ} {κ : Str} {sender : Sender Shared},
      w.channels[j]? = some ⟨κ, c', sender⟩ →
      ∃ sender', (w.insert c caller).channels[j]? = some ⟨κ, c', sender'⟩ := by
    intro j c' κ sender hchannel
    obtain ⟨sender', hkept⟩ : ∃ sender',
        (w.remove caller.key .Gone).channels[j]? = some ⟨κ, c', sender'⟩ :=
      channels_remove_kept hchannel
    exact ⟨sender', channels_insert_kept hkept⟩
  constructor
  case entry =>
    intro κ j hlookup
    rw [lookup_insert] at hlookup
    split at hlookup
    case isTrue hκ =>
      cases hlookup
      refine ⟨c, { caller with phase := .Asking w.channels.length },
        hκ ▸ channels_insert_new w c caller, ?_, hκ.symm, rfl⟩
      rw [callers_insert]
      exact callers_go_self hcaller
    case isFalse hne =>
      obtain ⟨-, c', other, hchannel, hother', hkey, hasking⟩ :=
        hremoved.entry ((lookup_remove caller.key .Gone κ).trans ((if_neg hne).trans hlookup))
      rw [callers_remove] at hother'
      exact ⟨c', other, channels_insert_kept hchannel, hother hother' (by simp [hasking]), hkey,
        hasking⟩
  case there =>
    intro κ c' j hchannel
    rw [lookup_insert]
    rcases channels_insert_cases hchannel with ⟨rfl, heq⟩ | ⟨-, hold⟩
    · cases heq
      exact if_pos rfl
    · have hlookup := hremoved.there hold
      rw [lookup_remove] at hlookup
      split at hlookup
      case isTrue => cases hlookup
      case isFalse hne => exact (if_neg hne).trans hlookup
  case sent =>
    intro κ c₀ j c' result hchannel
    rcases channels_insert_cases hchannel with ⟨-, heq⟩ | ⟨-, hold⟩
    · cases heq
    · rcases channels_remove_cases hold with ⟨-, old, -, heq⟩ | ⟨-, hold⟩
      · cases heq
      · obtain ⟨other, hother', hkey, hown⟩ := h.sent hold
        exact ⟨other, hother hother' (by simp [hown]), hkey, hown⟩
  case asking =>
    intro j k other hcallers hasking
    rcases hcases hcallers with ⟨rfl, rfl⟩ | ⟨-, hcallers⟩
    · cases hasking
      exact ⟨.There, channels_insert_new w j caller⟩
    · obtain ⟨sender, hchannel⟩ := h.asking hcallers hasking
      exact hkept hchannel
  case waiting =>
    intro j k other hcallers hwaiting
    rcases hcases hcallers with ⟨rfl, rfl⟩ | ⟨-, hcallers⟩
    · cases hwaiting
    · obtain ⟨c', sender, hchannel⟩ := h.waiting hcallers hwaiting
      exact ⟨c', hkept hchannel⟩
  case another =>
    intro j other result hcallers hdone
    rcases hcases hcallers with ⟨rfl, rfl⟩ | ⟨-, hcallers⟩
    · cases hdone
    · obtain ⟨c', other', hne, hother', hkey, hown⟩ := h.another hcallers hdone
      exact ⟨c', other', hne, hother hother' (by simp [hown]), hkey, hown⟩

theorem Ok.call (h : w.Ok) (question : Question) (bypass_cache : Bool) :
    { w with callers := w.callers ++ [⟨question, bypass_cache, .Looking⟩] : World Shared }.Ok := by
  have hkept : ∀ {j : ℕ} {other : Caller Shared}, w.callers[j]? = some other →
      (w.callers ++ [⟨question, bypass_cache, .Looking⟩])[j]? = some other := fun hother =>
    (List.getElem?_append_left (List.getElem?_eq_some_iff.1 hother).1).trans hother
  have hcases : ∀ {j : ℕ} {other : Caller Shared},
      (w.callers ++ [⟨question, bypass_cache, .Looking⟩])[j]? = some other →
      other.phase = .Looking ∨ w.callers[j]? = some other := by
    intro j other hother
    rw [List.getElem?_append, List.getElem?_singleton] at hother
    split at hother
    case isTrue => exact .inr hother
    case isFalse =>
      split at hother
      case isTrue => exact .inl (Option.some_inj.1 hother ▸ rfl)
      case isFalse => cases hother
  constructor
  case entry =>
    intro key i hlookup
    obtain ⟨c, caller, hchannel, hcaller, hrest⟩ := h.entry hlookup
    exact ⟨c, caller, hchannel, hkept hcaller, hrest⟩
  case there => exact h.there
  case sent =>
    intro key c i c' result hchannel
    obtain ⟨caller, hcaller, hrest⟩ := h.sent hchannel
    exact ⟨caller, hkept hcaller, hrest⟩
  case asking =>
    intro c i caller hcaller hphase
    rcases hcases hcaller with hlooking | hcaller
    · cases hlooking.symm.trans hphase
    · exact h.asking hcaller hphase
  case waiting =>
    intro c i caller hcaller hphase
    rcases hcases hcaller with hlooking | hcaller
    · cases hlooking.symm.trans hphase
    · exact h.waiting hcaller hphase
  case another =>
    intro c caller result hcaller hphase
    rcases hcases hcaller with hlooking | hcaller
    · cases hlooking.symm.trans hphase
    · obtain ⟨c', caller', hne, hcaller', hrest⟩ := h.another hcaller hphase
      exact ⟨c', caller', hne, hkept hcaller', hrest⟩

theorem go_dropped (hcaller : w.callers[c]? = some caller) (hphase : caller.phase = .Dropped) :
    w.go c .Dropped = w := by
  have hsame : (w.go c .Dropped).callers = w.callers := by
    refine List.ext_getElem? fun i => ?_
    rw [getElem?_go]
    split
    case isTrue hi =>
      rw [hi, hcaller, Option.map_some, ← hphase]
    case isFalse => rfl
  exact congrArg (World.mk w.inflight w.channels) hsame

/-- **Whatever the callers do, the table stands.** -/
theorem Ok.step (h : w.Ok) (a : Action Shared) : (w.step a).Ok := by
  have hmoves := moves w a
  generalize w.step a = w' at hmoves
  cases hmoves with
  | stays => exact h
  | call question bypass_cache => exact h.call question bypass_cache
  | finds hcaller hphase hbypass hlookup =>
    refine h.go hcaller (by simp [hphase, Phase.Idle]) nofun (fun i hi => ?_) nofun
    cases hi
    obtain ⟨c', -, hchannel, -⟩ := h.entry hlookup
    exact ⟨c', .There, hchannel⟩
  | misses hcaller hphase hlookup =>
    exact h.go hcaller (by simp [hphase, Phase.Idle]) nofun nofun nofun
  | @hears c i c' caller channel result hcaller hphase hchannel hsent =>
    refine h.go hcaller (by simp [hphase, Phase.Idle]) nofun nofun fun result' query hdone => ?_
    cases hdone
    obtain ⟨c₀, sender, hchannel'⟩ := h.waiting hcaller hphase
    obtain rfl := Option.some_inj.1 (hchannel.symm.trans hchannel')
    obtain rfl : sender = .Sent result c' := hsent
    obtain ⟨caller', hcaller', hkey, hown⟩ := h.sent hchannel'
    exact ⟨rfl, c', caller', hcaller', hkey, hown⟩
  | alone hcaller hphase hchannel hgone =>
    exact h.go hcaller (by simp [hphase, Phase.Idle]) nofun nofun nofun
  | inserts hcaller hphase => exact h.insert hcaller hphase
  | publishes hcaller hphase result => exact h.leave hcaller hphase (.inr ⟨result, rfl, rfl⟩)
  | leaves hcaller hphase => exact h.leave hcaller hphase (.inl ⟨rfl, rfl⟩)
  | drops hcaller hphase =>
    rcases hphase with hidle | hdropped
    · exact h.go hcaller hidle nofun nofun nofun
    · rw [go_dropped hcaller hdropped]
      exact h

theorem ok_run (actions : List (Action Shared)) : (Runs.run step new actions).Ok :=
  Runs.run_invariant (I := Ok) (fun _ a h => h.step a) ok_new actions

end World

end Coalesce

end Rurge
