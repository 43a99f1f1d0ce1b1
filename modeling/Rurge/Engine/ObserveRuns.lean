import Rurge.Engine.Observe
import Rurge.Lib.Fifo

/-!
# Sessions through every interleaving

A session's outcome is that of the first call of `finish`, and its two latches are sound.  A session
that was recorded is finished, so its bytes stay what they were when they were added up; and as long
as nobody marks a session active that is finished, a session is in the sums or in the index, and
never in both.
-/

namespace Rurge

namespace Observe

open Capture (SessionOutcome)

/-! ### One session -/

namespace SessionHandle

variable {s s' : SessionHandle}

/-- What a session is counted for. -/
def kind (s : SessionHandle) : ListenerKind × Option Str := (s.listener, s.policy)

/-- What holds of a session at all times. -/
structure Ok (s : SessionHandle) : Prop where
  last : s.last.Sound
  first : s.first.Sound
  /-- the observers' hook is registered once -/
  observed : s.last.registered.count .Record = 1
  finished : s.finished = s.calls.head?.isSome
  /-- the outcome is that of the first call, about to be written or written -/
  phase : s.ending = s.calls.head? ∧ s.outcome = none ∨
    s.ending = none ∧ s.outcome = s.calls.head?
  /-- nobody drops a session with something left to do -/
  gone : s.alive = false → s.last.tasks = [] ∧ s.first.tasks = [] ∧ s.outcome.isSome = true

/-- The session comes to be another. -/
structure Follows (s s' : SessionHandle) : Prop where
  kind : s'.kind = s.kind
  chain : s'.policy_chain = s.policy_chain
  finished : s.finished = true → s'.finished = true
  outcome : ∀ o, s.outcome = some o → s'.outcome = some o
  bytes_le : s.bytes ≤ s'.bytes
  bytes_eq : s.finished = true → s'.bytes = s.bytes

theorem ok_new (listener : ListenerKind) (policy_chain : List Str) :
    (new listener policy_chain).Ok where
  last := Latch.sound_new _
  first := Latch.sound_new _
  observed := rfl
  finished := rfl
  phase := .inl ⟨rfl, rfl⟩
  gone := nofun

/-- What changes neither the bytes nor the kind. -/
theorem Follows.of_eq (hlistener : s'.listener = s.listener)
    (hchain : s'.policy_chain = s.policy_chain) (hfinished : s.finished = true → s'.finished = true)
    (houtcome : ∀ o, s.outcome = some o → s'.outcome = some o) (hbytes : s'.bytes = s.bytes) :
    s.Follows s' where
  kind := by simp only [SessionHandle.kind, policy, hlistener, hchain]
  chain := hchain
  finished := hfinished
  outcome := houtcome
  bytes_le := hbytes.ge
  bytes_eq := fun _ => hbytes

theorem Follows.refl (s : SessionHandle) : s.Follows s := .of_eq rfl rfl id (fun _ h => h) rfl

/-- How often the observers' hook was begun. -/
def recordings (s : SessionHandle) : ℕ := s.last.begun .Record

/-- How often it was begun and has not come back. -/
def recording (s : SessionHandle) : ℕ := s.last.inside .Record

variable {a : Action}

theorem Ok.outcome_eq (h : s.Ok) {o : SessionOutcome} (ho : s.outcome = some o) :
    s.calls.head? = some o ∧ s.ending = none ∧ s.finished = true := by
  rcases h.phase with ⟨-, hnone⟩ | ⟨hending, houtcome⟩
  · rw [hnone] at ho
    cases ho
  · have hhead : s.calls.head? = some o := houtcome.symm.trans ho
    exact ⟨hhead, hending, by rw [h.finished, hhead]; rfl⟩

theorem Ok.outcome_none (h : s.Ok) (hfinished : s.finished = false) : s.outcome = none := by
  refine Option.eq_none_iff_forall_ne_some.2 fun o ho => ?_
  have := (h.outcome_eq ho).2.2
  rw [hfinished] at this
  cases this

theorem Ok.finish (h : s.Ok) (o : SessionOutcome) : (s.finish o).Ok := by
  unfold SessionHandle.finish
  split_ifs with hfinished
  · obtain ⟨o', ho'⟩ := Option.isSome_iff_exists.1 (h.finished.symm.trans hfinished)
    have hhead : (s.calls ++ [o]).head? = s.calls.head? := by
      rw [List.head?_append, ho', Option.some_or]
    refine ⟨h.last, h.first, h.observed, ?_, ?_, h.gone⟩
    · rw [hhead]
      exact h.finished
    · rw [hhead]
      exact h.phase
  · have hfinished := Bool.eq_false_iff.2 hfinished
    have hcalls : s.calls = [] := by
      have := h.finished
      rw [hfinished] at this
      cases hc : s.calls with
      | nil => rfl
      | cons => simp [hc] at this
    refine ⟨h.last, h.first, h.observed, ?_, ?_, h.gone⟩
    · simp [hcalls]
    · exact .inl ⟨by simp [hcalls], h.outcome_none hfinished⟩

theorem Ok.write (h : s.Ok) (halive : s.alive = true) : s.write.Ok := by
  unfold SessionHandle.write
  split
  case h_1 o hending =>
    have hnone : s.outcome = none := by
      rcases h.phase with ⟨-, hnone⟩ | ⟨hending', -⟩
      · exact hnone
      · rw [hending] at hending'
        cases hending'
    have hhead : s.calls.head? = some o := by
      rcases h.phase with ⟨hhead, -⟩ | ⟨hending', -⟩
      · exact hhead.symm.trans hending
      · rw [hending] at hending'
        cases hending'
    refine ⟨h.last.fire o, h.first, ?_, h.finished, .inr ⟨rfl, ?_⟩, fun hgone => ?_⟩
    · rw [Latch.fire_of_none hnone]
      exact h.observed
    · rw [SessionHandle.outcome, Latch.fire_of_none hnone]
      exact hhead.symm
    · rw [halive] at hgone
      cases hgone
  case h_2 => exact h

theorem Ok.step (h : s.Ok) (halive : s.alive = true) (a : Action) : (s.step a).Ok := by
  have hthere : ∀ {P : Prop}, s.alive = false → P := fun hgone => by
    rw [halive] at hgone
    cases hgone
  cases a with
  | add_up n =>
    simp only [SessionHandle.step]
    split_ifs
    · exact h
    · exact ⟨h.last, h.first, h.observed, h.finished, h.phase, h.gone⟩
  | add_down n =>
    simp only [SessionHandle.step]
    split_ifs
    · exact h
    · exact ⟨h.last, h.first, h.observed, h.finished, h.phase, h.gone⟩
  | finish o => exact h.finish o
  | write => exact h.write halive
  | on_finish n =>
    simp only [SessionHandle.step]
    split_ifs with hfinished
    · exact h
    · have hnone := h.outcome_none (Bool.eq_false_iff.2 hfinished)
      refine ⟨h.last.push hnone _, h.first, ?_, h.finished, ?_, hthere⟩
      · have hne : FinishHook.Other n ≠ .Record := nofun
        exact (Latch.count_registered_push hne _).trans h.observed
      · have hevent : (s.last.push (.Other n)).event = s.outcome := Latch.event_push ..
        exact h.phase.imp (And.imp_right hevent.trans) (And.imp_right hevent.trans)
  | when_finished n =>
    refine ⟨h.last.ask _, h.first, ?_, h.finished, h.phase, hthere⟩
    simpa [SessionHandle.step, Latch.ask] using h.observed
  | mark_first_byte elapsed =>
    exact ⟨h.last, h.first.fire elapsed, h.observed, h.finished, h.phase, hthere⟩
  | on_first_byte n =>
    exact ⟨h.last, h.first.ask n, h.observed, h.finished, h.phase, hthere⟩
  | lastTask k =>
    simp only [SessionHandle.step]
    split
    case h_1 last hlast =>
      refine ⟨h.last.step hlast, h.first, ?_, h.finished, ?_, hthere⟩
      · rw [Latch.step_registered hlast]
        exact h.observed
      · have hevent : last.event = s.outcome := Latch.step_event hlast
        exact h.phase.imp (And.imp_right hevent.trans) (And.imp_right hevent.trans)
    case h_2 => exact h
  | firstTask k =>
    simp only [SessionHandle.step]
    split
    case h_1 first hfirst =>
      exact ⟨h.last, h.first.step hfirst, h.observed, h.finished, h.phase, hthere⟩
    case h_2 => exact h
  | drop =>
    simp only [SessionHandle.step]
    split_ifs with hdone
    · simp only [Bool.and_eq_true, List.isEmpty_iff] at hdone
      exact ⟨h.last, h.first, h.observed, h.finished, h.phase,
        fun _ => ⟨hdone.1.2, hdone.2, hdone.1.1⟩⟩
    · exact h

theorem Ok.follows (h : s.Ok) (a : Action) : s.Follows (s.step a) := by
  cases a with
  | add_up n =>
    simp only [SessionHandle.step]
    split_ifs with hfinished
    · exact .refl s
    · exact ⟨rfl, rfl, id, fun _ ho => ho, ⟨Nat.le_add_right .., le_rfl⟩,
        fun hf => absurd hf hfinished⟩
  | add_down n =>
    simp only [SessionHandle.step]
    split_ifs with hfinished
    · exact .refl s
    · exact ⟨rfl, rfl, id, fun _ ho => ho, ⟨le_rfl, Nat.le_add_right ..⟩,
        fun hf => absurd hf hfinished⟩
  | finish o =>
    simp only [SessionHandle.step, SessionHandle.finish]
    split_ifs
    · exact .of_eq rfl rfl id (fun _ ho => ho) rfl
    · exact .of_eq rfl rfl (fun _ => rfl) (fun _ ho => ho) rfl
  | write =>
    simp only [SessionHandle.step, SessionHandle.write]
    split
    case h_1 o hending =>
      refine .of_eq rfl rfl id (fun o' ho' => ?_) rfl
      have := (h.outcome_eq ho').2.1
      rw [hending] at this
      cases this
    case h_2 => exact .refl s
  | on_finish n =>
    simp only [SessionHandle.step]
    split_ifs
    · exact .refl s
    · refine .of_eq rfl rfl id (fun o ho => ?_) rfl
      exact (Latch.event_push ..).trans ho
  | when_finished n => exact .of_eq rfl rfl id (fun _ ho => ho) rfl
  | mark_first_byte elapsed => exact .of_eq rfl rfl id (fun _ ho => ho) rfl
  | on_first_byte n => exact .of_eq rfl rfl id (fun _ ho => ho) rfl
  | lastTask k =>
    simp only [SessionHandle.step]
    split
    case h_1 last hlast =>
      refine .of_eq rfl rfl id (fun o ho => ?_) rfl
      exact (Latch.step_event hlast).trans ho
    case h_2 => exact .refl s
  | firstTask k =>
    simp only [SessionHandle.step]
    split
    case h_1 => exact .of_eq rfl rfl id (fun _ ho => ho) rfl
    case h_2 => exact .refl s
  | drop =>
    simp only [SessionHandle.step]
    split_ifs
    · exact .of_eq rfl rfl id (fun _ ho => ho) rfl
    · exact .refl s

/-- The observers' hook is begun and comes back in the steps of a task of the end only. -/
theorem recordings_step (h : s.Ok) (ha : ∀ k, a ≠ .lastTask k) :
    (s.step a).recordings = s.recordings ∧ (s.step a).recording = s.recording := by
  cases a with
  | add_up n =>
    simp only [SessionHandle.step]
    split_ifs <;> exact ⟨rfl, rfl⟩
  | add_down n =>
    simp only [SessionHandle.step]
    split_ifs <;> exact ⟨rfl, rfl⟩
  | finish o =>
    simp only [SessionHandle.step, SessionHandle.finish]
    split_ifs <;> exact ⟨rfl, rfl⟩
  | write =>
    simp only [SessionHandle.step, SessionHandle.write]
    split
    case h_1 o hending =>
      have hnone : s.last.event = none := by
        rcases h.phase with ⟨-, hnone⟩ | ⟨hending', -⟩
        · exact hnone
        · rw [hending] at hending'
          cases hending'
      simp [recordings, recording, Latch.fire_of_none hnone, Latch.begun, Latch.inside,
        Latch.Task.current]
    case h_2 => exact ⟨rfl, rfl⟩
  | on_finish n =>
    simp only [SessionHandle.step]
    split_ifs
    · exact ⟨rfl, rfl⟩
    · simp [recordings, recording, Latch.begun, Latch.inside]
  | when_finished n =>
    simp [SessionHandle.step, recordings, recording, Latch.ask, Latch.begun, Latch.inside,
      Latch.Task.current]
  | mark_first_byte elapsed => exact ⟨rfl, rfl⟩
  | on_first_byte n => exact ⟨rfl, rfl⟩
  | lastTask k => exact absurd rfl (ha k)
  | firstTask k =>
    simp only [SessionHandle.step]
    split <;> exact ⟨rfl, rfl⟩
  | drop =>
    simp only [SessionHandle.step]
    split_ifs <;> exact ⟨rfl, rfl⟩

/-- A session whose hook was begun is finished, with its outcome written. -/
theorem Ok.recorded (h : s.Ok) (hrec : s.recordings ≠ 0) :
    ∃ o, s.outcome = some o ∧ s.finished = true := by
  have hin : .Record ∈ s.last.ran.map Prod.snd := by
    refine List.count_pos_iff.1 (Nat.pos_of_ne_zero ?_)
    exact hrec
  obtain ⟨r, hr, -⟩ := List.mem_map.1 hin
  have ho := h.last.told r hr
  exact ⟨r.1, ho, (h.outcome_eq ho).2.2⟩

theorem Ok.recordings_le (h : s.Ok) : s.recordings ≤ 1 := by
  rw [← h.observed]
  exact h.last.subperm.count_le _

/-- Once it is over with nothing left to do, it was recorded. -/
theorem Ok.recordings_eq (h : s.Ok) (htasks : s.last.tasks = []) (ho : s.outcome.isSome = true) :
    s.recordings = 1 := by
  have hall := h.last.settled htasks
  rw [if_pos (show s.last.event.isSome = true from ho)] at hall
  rw [← h.observed]
  exact hall.count_eq _

end SessionHandle

end Observe

end Rurge
