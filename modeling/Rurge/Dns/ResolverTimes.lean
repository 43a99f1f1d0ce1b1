import Rurge.Dns.Resolver
import Rurge.Dns.CoalesceRuns

/-!
# When a result is from

A result is handed to those who asked before its fan-out ended: whoever waits on a channel was there
when the result was sent.  A result of one's own is that of a fan-out one began.
-/

namespace Rurge

namespace Resolver

open Coalesce (Phase Channel Caller)

/-! ### What callers and channels keep -/

section

variable {Shared : Type*} {co : Coalesce.World Shared}

/-- A channel keeps its key and its caller. -/
theorem channels_kept (a : Coalesce.Action Shared) {i c : ℕ} {key : Str}
    {sender : Coalesce.Sender Shared} (h : co.channels[i]? = some ⟨key, c, sender⟩) :
    ∃ sender', (co.step a).channels[i]? = some ⟨key, c, sender'⟩ := by
  have hmoves := co.moves a
  generalize co.step a = co' at hmoves
  cases hmoves with
  | inserts hcaller hphase =>
    obtain ⟨sender', hkept⟩ := Coalesce.World.channels_remove_kept h
    exact ⟨sender', Coalesce.World.channels_insert_kept hkept⟩
  | publishes hcaller hphase result => exact Coalesce.World.channels_remove_kept h
  | leaves hcaller hphase => exact Coalesce.World.channels_remove_kept h
  | _ => exact ⟨sender, h⟩

/-- A caller keeps its question, and is dropped by nothing but its drop. -/
theorem callers_kept (a : Coalesce.Action Shared) {c : ℕ} {caller : Caller Shared}
    (h : co.callers[c]? = some caller) : ∃ caller', (co.step a).callers[c]? = some caller' ∧
      caller'.question = caller.question ∧
      (caller'.phase = .Dropped → caller.phase = .Dropped ∨ a = .drop c) := by
  have hmoves := co.moves a
  have hgo : ∀ {co₁ : Coalesce.World Shared} {c₁ : ℕ} {phase : Phase Shared},
      co₁.callers = co.callers → (phase = .Dropped → a = .drop c₁) →
      ∃ caller', (co₁.go c₁ phase).callers[c]? = some caller' ∧
        caller'.question = caller.question ∧
        (caller'.phase = .Dropped → caller.phase = .Dropped ∨ a = .drop c) := by
    intro co₁ c₁ phase hsame hdrop
    rw [← hsame] at h
    by_cases hc : c = c₁
    · subst hc
      exact ⟨_, Coalesce.World.callers_go_self h, rfl, fun hphase => .inr (hdrop hphase)⟩
    · exact ⟨caller, (Coalesce.World.callers_go_of_ne hc).trans h, rfl, .inl⟩
  generalize co.step a = co' at hmoves
  cases hmoves with
  | stays => exact ⟨caller, h, rfl, .inl⟩
  | call question bypass_cache =>
    refine ⟨caller, ?_, rfl, .inl⟩
    exact (List.getElem?_append_left (List.getElem?_eq_some_iff.1 h).1).trans h
  | finds => exact hgo rfl nofun
  | misses => exact hgo rfl nofun
  | hears => exact hgo rfl nofun
  | alone => exact hgo rfl nofun
  | inserts =>
    rw [Coalesce.World.callers_insert]
    exact hgo rfl nofun
  | publishes => exact hgo (Coalesce.World.callers_remove ..) nofun
  | leaves => exact hgo (Coalesce.World.callers_remove ..) fun _ => rfl
  | drops => exact hgo rfl fun _ => rfl

end

/-! ### Callers and fan-outs in time -/

/-- The fan-out ended, and before `clock`. -/
def Stamp.Past (r : Stamp) (clock : ℕ) : Prop := r.began ≤ r.ended ∧ r.ended < clock

/-- The queries in flight, with when each fan-out began and each caller asked. -/
structure Timed (co : Coalesce.World Stamp) (begun asked : List ℕ) (clock : ℕ) : Prop where
  tasks : asked.length = co.callers.length
  channels : begun.length = co.channels.length
  begun_lt : ∀ t ∈ begun, t < clock
  asked_lt : ∀ t ∈ asked, t < clock
  asking : ∀ {c i t : ℕ} {caller : Caller Stamp}, co.callers[c]? = some caller →
    asked[c]? = some t → caller.phase = .Asking i → ∃ b, begun[i]? = some b ∧ t ≤ b
  sent : ∀ {i c c' : ℕ} {key : Str} {r : Stamp},
    co.channels[i]? = some ⟨key, c, .Sent r c'⟩ → r.Past clock
  waiting : ∀ {c i t c₀ c' : ℕ} {key : Str} {r : Stamp} {caller : Caller Stamp},
    co.callers[c]? = some caller → asked[c]? = some t → caller.phase = .Waiting i →
    co.channels[i]? = some ⟨key, c₀, .Sent r c'⟩ → t ≤ r.ended
  done : ∀ {c t : ℕ} {r : Stamp} {query : Coalesce.Query} {caller : Caller Stamp},
    co.callers[c]? = some caller → asked[c]? = some t → caller.phase = .Done r query →
    t ≤ r.ended ∧ r.Past clock ∧
      (query = .Own → ∃ key sender, co.channels[r.fanout]? = some ⟨key, c, sender⟩)

theorem Stamp.Past.mono {r : Stamp} {clock clock' : ℕ} (h : r.Past clock) (hle : clock ≤ clock') :
    r.Past clock' := ⟨h.1, h.2.trans_le hle⟩

namespace Timed

variable {co : Coalesce.World Stamp} {begun asked : List ℕ} {clock : ℕ}

theorem new : Timed .new [] [] 1 := by
  constructor <;> simp [Coalesce.World.new]

/-- Time goes on. -/
theorem later (h : Timed co begun asked clock) : Timed co begun asked (clock + 1) where
  tasks := h.tasks
  channels := h.channels
  begun_lt t ht := (h.begun_lt t ht).trans (Nat.lt_succ_self _)
  asked_lt t ht := (h.asked_lt t ht).trans (Nat.lt_succ_self _)
  asking := h.asking
  sent hchannel := (h.sent hchannel).mono (Nat.le_succ _)
  waiting := h.waiting
  done hcaller ht hphase :=
    let ⟨hasked, hpast, hown⟩ := h.done hcaller ht hphase
    ⟨hasked, hpast.mono (Nat.le_succ _), hown⟩

/-- A caller comes to a phase. -/
theorem go (h : Timed co begun asked clock) {c : ℕ} {caller : Caller Stamp} {phase : Phase Stamp}
    (hcaller : co.callers[c]? = some caller)
    (hasking : ∀ {i t}, asked[c]? = some t → phase = .Asking i → ∃ b, begun[i]? = some b ∧ t ≤ b)
    (hwaiting : ∀ {i t c₀ c' key r}, asked[c]? = some t → phase = .Waiting i →
      co.channels[i]? = some ⟨key, c₀, .Sent r c'⟩ → t ≤ r.ended)
    (hdone : ∀ {t r query}, asked[c]? = some t → phase = .Done r query →
      t ≤ r.ended ∧ r.Past clock ∧
        (query = .Own → ∃ key sender, co.channels[r.fanout]? = some ⟨key, c, sender⟩)) :
    Timed (co.go c phase) begun asked clock where
  tasks := by simpa [Coalesce.World.go] using h.tasks
  channels := h.channels
  begun_lt := h.begun_lt
  asked_lt := h.asked_lt
  asking hc ht hphase := by
    rcases Coalesce.World.callers_go_cases hcaller hc with ⟨rfl, rfl⟩ | ⟨-, hc⟩
    · exact hasking ht hphase
    · exact h.asking hc ht hphase
  sent := h.sent
  waiting hc ht hphase hchannel := by
    rcases Coalesce.World.callers_go_cases hcaller hc with ⟨rfl, rfl⟩ | ⟨-, hc⟩
    · exact hwaiting ht hphase hchannel
    · exact h.waiting hc ht hphase hchannel
  done hc ht hphase := by
    rcases Coalesce.World.callers_go_cases hcaller hc with ⟨rfl, rfl⟩ | ⟨-, hc⟩
    · exact hdone ht hphase
    · exact h.done hc ht hphase

/-- A caller goes to where it neither waits, nor asks, nor has its answer. -/
theorem rests (h : Timed co begun asked clock) {c : ℕ} {caller : Caller Stamp}
    {phase : Phase Stamp} (hcaller : co.callers[c]? = some caller)
    (hphase : phase = .Inserting ∨ phase = .Dropped) :
    Timed (co.go c phase) begun asked clock := by
  rcases hphase with rfl | rfl
  · exact h.go hcaller (fun _ hp => by cases hp) (fun _ hp => by cases hp) fun _ hp => by cases hp
  · exact h.go hcaller (fun _ hp => by cases hp) (fun _ hp => by cases hp) fun _ hp => by cases hp

/-- An entry is taken out, and its sender goes, with a result or without. -/
theorem remove (h : Timed co begun asked clock) (key : Str) {sender : Coalesce.Sender Stamp}
    (hsent : ∀ {r c'}, sender = .Sent r c' → r.Past clock ∧ ∀ t ∈ asked, t ≤ r.ended) :
    Timed (co.remove key sender) begun asked clock where
  tasks := by simpa using h.tasks
  channels := by simpa using h.channels
  begun_lt := h.begun_lt
  asked_lt := h.asked_lt
  asking hc ht hphase := by
    rw [Coalesce.World.callers_remove] at hc
    exact h.asking hc ht hphase
  sent hchannel := by
    rcases Coalesce.World.channels_remove_cases hchannel with ⟨-, old, -, heq⟩ | ⟨-, hold⟩
    · cases heq
      exact (hsent rfl).1
    · exact h.sent hold
  waiting hc ht hphase hchannel := by
    rw [Coalesce.World.callers_remove] at hc
    rcases Coalesce.World.channels_remove_cases hchannel with ⟨-, old, -, heq⟩ | ⟨-, hold⟩
    · cases heq
      exact (hsent rfl).2 _ (List.mem_of_getElem? ht)
    · exact h.waiting hc ht hphase hold
  done hc ht hphase := by
    rw [Coalesce.World.callers_remove] at hc
    obtain ⟨hasked, hpast, hown⟩ := h.done hc ht hphase
    refine ⟨hasked, hpast, fun hquery => ?_⟩
    obtain ⟨key', sender', hchannel⟩ := hown hquery
    exact ⟨key', Coalesce.World.channels_remove_kept hchannel⟩

/-- A caller comes. -/
theorem call (h : Timed co begun asked clock) (question : Coalesce.Question) (bypass_cache : Bool)
    {now : ℕ} (hnow : now < clock) :
    Timed (co.step (.call question bypass_cache)) begun (asked ++ [now]) clock := by
  have hcases : ∀ {c t : ℕ} {caller : Caller Stamp},
      (co.callers ++ [⟨question, bypass_cache, .Looking⟩])[c]? = some caller →
      (asked ++ [now])[c]? = some t →
      caller.phase = .Looking ∨ co.callers[c]? = some caller ∧ asked[c]? = some t := by
    intro c t caller hc ht
    rw [List.getElem?_append] at hc ht
    rw [h.tasks] at ht
    split at hc
    case isTrue hlt =>
      rw [if_pos hlt] at ht
      exact .inr ⟨hc, ht⟩
    case isFalse =>
      rw [List.getElem?_singleton] at hc
      split at hc
      case isTrue =>
        obtain rfl := Option.some_inj.1 hc
        exact .inl rfl
      case isFalse => cases hc
  constructor
  case tasks => simpa [Coalesce.World.step] using h.tasks
  case channels => exact h.channels
  case begun_lt => exact h.begun_lt
  case asked_lt =>
    intro t ht
    rcases List.mem_append.1 ht with ht | ht
    · exact h.asked_lt t ht
    · obtain rfl := List.mem_singleton.1 ht
      exact hnow
  case asking =>
    intro c i t caller hc ht hphase
    rcases hcases hc ht with hlooking | ⟨hc, ht⟩
    · cases hlooking.symm.trans hphase
    · exact h.asking hc ht hphase
  case sent => exact h.sent
  case waiting =>
    intro c i t c₀ c' key r caller hc ht hphase hchannel
    rcases hcases hc ht with hlooking | ⟨hc, ht⟩
    · cases hlooking.symm.trans hphase
    · exact h.waiting hc ht hphase hchannel
  case done =>
    intro c t r query caller hc ht hphase
    rcases hcases hc ht with hlooking | ⟨hc, ht⟩
    · cases hlooking.symm.trans hphase
    · exact h.done hc ht hphase

/-- A channel is made. -/
theorem channel (h : Timed co begun asked clock) (inflight : Assoc Str ℕ) (key : Str) (c₁ : ℕ) :
    Timed ⟨inflight, co.channels ++ [⟨key, c₁, .There⟩], co.callers⟩ (begun ++ [clock]) asked
      (clock + 1) := by
  have hcases : ∀ {i c c' : ℕ} {κ : Str} {r : Stamp},
      (co.channels ++ [⟨key, c₁, .There⟩])[i]? = some ⟨κ, c, .Sent r c'⟩ →
      co.channels[i]? = some ⟨κ, c, .Sent r c'⟩ := by
    intro i c c' κ r hchannel
    rw [List.getElem?_append, List.getElem?_singleton] at hchannel
    split at hchannel
    case isTrue => exact hchannel
    case isFalse =>
      split at hchannel
      case isTrue => cases hchannel
      case isFalse => cases hchannel
  have hlater := h.later
  constructor
  case tasks => exact h.tasks
  case channels => simpa using h.channels
  case begun_lt =>
    intro t ht
    rcases List.mem_append.1 ht with ht | ht
    · exact hlater.begun_lt t ht
    · obtain rfl := List.mem_singleton.1 ht
      exact Nat.lt_succ_self _
  case asked_lt => exact hlater.asked_lt
  case asking =>
    intro c i t caller hc ht hphase
    obtain ⟨b, hb, hle⟩ := h.asking hc ht hphase
    exact ⟨b, by rw [List.getElem?_append_left (List.getElem?_eq_some_iff.1 hb).1, hb], hle⟩
  case sent => exact fun hchannel => hlater.sent (hcases hchannel)
  case waiting => exact fun hc ht hphase hchannel => hlater.waiting hc ht hphase (hcases hchannel)
  case done =>
    intro c t r query caller hc ht hphase
    obtain ⟨hasked, hpast, hown⟩ := hlater.done hc ht hphase
    refine ⟨hasked, hpast, fun hquery => ?_⟩
    obtain ⟨κ, sender, hchannel⟩ := hown hquery
    refine ⟨κ, sender, ?_⟩
    rw [List.getElem?_append_left (List.getElem?_eq_some_iff.1 hchannel).1, hchannel]

/-- When the fan-outs began, once the action is taken: an insertion makes a channel, and its fan-out
begins. -/
def begun_after (co : Coalesce.World Stamp) (begun : List ℕ) (clock : ℕ)
    (a : Coalesce.Action Stamp) : List ℕ :=
  if begun.length < (co.step a).channels.length then begun ++ [clock] else begun

/-- Only an insertion makes a channel. -/
theorem begun_after_of_ne (h : begun.length = co.channels.length) {a : Coalesce.Action Stamp}
    (hinsert : ∀ c, a ≠ .insert c) : begun_after co begun clock a = begun := by
  have hlength : (co.step a).channels.length = co.channels.length := by
    have hmoves := co.moves a
    generalize co.step a = co' at hmoves
    cases hmoves with
    | inserts => exact absurd rfl (hinsert _)
    | publishes => exact Coalesce.World.length_remove ..
    | leaves => exact Coalesce.World.length_remove ..
    | _ => rfl
  unfold begun_after
  rw [if_neg (by omega)]

/-- What a fan-out ends with is stamped with its channel, when that began, and now. -/
def Stamps (co : Coalesce.World Stamp) (begun : List ℕ) (clock : ℕ) (c : ℕ) (r : Stamp) : Prop :=
  ∀ caller i, co.callers[c]? = some caller → caller.phase = .Asking i →
    r.fanout = i ∧ r.began = begun.getD i 0 ∧ r.ended = clock

/-- A step of the callers but their coming. -/
theorem step (h : Timed co begun asked clock) (hok : co.Ok) {a : Coalesce.Action Stamp}
    (hcall : ∀ question bypass_cache, a ≠ .call question bypass_cache)
    (hends : ∀ c r, a = .ends c r → Stamps co begun clock c r) :
    Timed (co.step a) (begun_after co begun clock a) asked (clock + 1) := by
  have hmoves := co.moves a
  have hlater := h.later
  have hsame : ∀ {co' : Coalesce.World Stamp}, co.step a = co' →
      co'.channels.length = co.channels.length → Timed co' begun asked (clock + 1) →
      Timed co' (begun_after co begun clock a) asked (clock + 1) := by
    intro co' heq hlength hco'
    unfold begun_after
    rwa [if_neg (by rw [heq, hlength, h.channels]; exact lt_irrefl _)]
  generalize hco' : co.step a = co' at hmoves
  cases hmoves with
  | stays => exact hsame hco' rfl hlater
  | call question bypass_cache => exact absurd rfl (hcall question bypass_cache)
  | @finds c i caller hcaller hphase hbypass hlookup =>
    refine hsame hco' rfl (hlater.go hcaller (fun _ hp => by cases hp)
      (fun _ hi hchannel => ?_) fun _ hp => by cases hp)
    cases hi
    obtain ⟨c', -, hthere, -⟩ := hok.entry hlookup
    rw [hthere] at hchannel
    cases hchannel
  | misses hcaller hphase hlookup => exact hsame hco' rfl (hlater.rests hcaller (.inl rfl))
  | @hears c i c' caller channel result hcaller hphase hchannel hsent =>
    refine hsame hco' rfl (hlater.go hcaller (fun _ hp => by cases hp)
      (fun _ hp => by cases hp) fun ht hdone => ?_)
    cases hdone
    obtain ⟨key, c₀, sender⟩ := channel
    obtain rfl : sender = .Sent result c' := hsent
    exact ⟨h.waiting hcaller ht hphase hchannel, hlater.sent hchannel, fun hown => by cases hown⟩
  | alone hcaller hphase hchannel hgone => exact hsame hco' rfl (hlater.rests hcaller (.inl rfl))
  | @inserts c caller hcaller hphase =>
    have hbegun : begun_after co begun clock (.insert c) = begun ++ [clock] := by
      unfold begun_after
      rw [hco', Coalesce.World.length_insert, h.channels, if_pos (Nat.lt_succ_self _)]
    rw [hbegun]
    have hremoved : Timed (co.remove caller.key .Gone) begun asked clock :=
      h.remove _ (fun hsent => by cases hsent)
    have hchannel := hremoved.channel
      ((co.remove caller.key .Gone).inflight.insert caller.key
        (co.remove caller.key .Gone).channels.length) caller.key c
    refine hchannel.go (by simpa using hcaller) (fun ht hi => ?_)
      (fun _ hp => by cases hp) fun _ hp => by cases hp
    cases hi
    refine ⟨clock, ?_, (h.asked_lt _ (List.mem_of_getElem? ht)).le⟩
    rw [Coalesce.World.length_remove, ← h.channels]
    simp
  | @publishes c i caller hcaller hphase result =>
    obtain ⟨hfanout, hbegan, hended⟩ := hends c result rfl caller i hcaller hphase
    obtain ⟨sender, hchannel⟩ := hok.asking hcaller hphase
    have hpast : result.Past (clock + 1) := by
      refine ⟨?_, hended ▸ Nat.lt_succ_self _⟩
      have hi : i < begun.length := h.channels ▸ (List.getElem?_eq_some_iff.1 hchannel).1
      rw [hbegan, hended, List.getD_eq_getElem _ _ hi]
      exact (h.begun_lt _ (List.getElem_mem hi)).le
    have hasked : ∀ t ∈ asked, t ≤ result.ended := fun t ht => hended ▸ (h.asked_lt t ht).le
    have hremoved : Timed (co.remove caller.key (.Sent result c)) begun asked (clock + 1) :=
      hlater.remove _ fun hsent => by
        cases hsent
        exact ⟨hpast, hasked⟩
    refine hsame hco' (by simp [Coalesce.World.publish, Coalesce.World.go])
      (hremoved.go (by simpa using hcaller) (fun _ hp => by cases hp) (fun _ hp => by cases hp)
        fun ht hdone => ?_)
    cases hdone
    refine ⟨hasked _ (List.mem_of_getElem? ht), hpast, fun _ => ⟨caller.key, ?_⟩⟩
    rw [hfanout]
    exact Coalesce.World.channels_remove_kept hchannel
  | @leaves c i caller hcaller hphase =>
    have hremoved : Timed (co.remove caller.key .Gone) begun asked (clock + 1) :=
      hlater.remove _ (fun hsent => by cases hsent)
    exact hsame hco' (by simp [Coalesce.World.go])
      (hremoved.rests (by simpa using hcaller) (.inr rfl))
  | drops hcaller hphase => exact hsame hco' rfl (hlater.rests hcaller (.inr rfl))

end Timed

end Resolver

end Rurge
