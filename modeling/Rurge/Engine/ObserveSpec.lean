import Rurge.Engine.ObserveCounts

/-!
# Every session is ended once, and its bytes are counted once

Whatever is under way comes to its end, so every hook runs; and a session that is over is in the
sums exactly once.
-/

namespace Rurge

namespace Observe

open Capture (SessionOutcome)

/-! ### What is under way comes to its end -/

namespace SessionHandle

variable {s : SessionHandle}

/-- Nothing of a session is under way. -/
def Settled (s : SessionHandle) : Prop :=
  s.ending = none ∧ s.last.tasks = [] ∧ s.first.tasks = []

/-- How much is left to do of a session. -/
def work (s : SessionHandle) : ℕ :=
  s.last.work + s.first.work + if s.ending.isSome then 3 else 0

/-- The steps of what is under way. -/
def Action.settles : Action → Bool
  | .write | .lastTask _ | .firstTask _ => true
  | _ => false

theorem Ok.exists_step (h : s.Ok) (hnot : ¬ s.Settled) :
    ∃ a : Action, a.settles = true ∧ (s.step a).work < s.work := by
  cases hending : s.ending with
  | some o =>
    have hnone : s.last.event = none := by
      rcases h.phase with ⟨-, hnone⟩ | ⟨hending', -⟩
      · exact hnone
      · rw [hending] at hending'
        cases hending'
    refine ⟨.write, rfl, ?_⟩
    simp only [SessionHandle.step, SessionHandle.write, hending, work,
      Latch.fire_of_none hnone, Latch.work, List.map_append, List.sum_append, List.map_singleton,
      List.sum_singleton, Latch.Task.work]
    simp only [Option.isSome_some, Option.isSome_none, if_true, Bool.false_eq_true, if_false]
    omega
  | none =>
    by_cases hlast : s.last.tasks = []
    · have hfirst : s.first.tasks ≠ [] := fun hfirst => hnot ⟨hending, hlast, hfirst⟩
      obtain ⟨k, first, hstep⟩ := Latch.exists_step hfirst
      refine ⟨.firstTask k, rfl, ?_⟩
      have := Latch.work_step hstep
      simp only [SessionHandle.step, hstep, work]
      omega
    · obtain ⟨k, last, hstep⟩ := Latch.exists_step hlast
      refine ⟨.lastTask k, rfl, ?_⟩
      have := Latch.work_step hstep
      simp only [SessionHandle.step, hstep, work]
      omega

end SessionHandle

/-- The steps of what is under way: of a session's tasks, and of a snapshot being taken. -/
def Action.settles : Action → Bool
  | .session _ a => a.settles
  | .snapshot => true
  | _ => false

def Shot.work (shot : Shot) : ℕ :=
  2 * shot.rest.length + (if shot.up.isNone then 1 else 0) + 1

namespace World

variable {w : World} {id : ℕ} {s : SessionHandle}

/-- Nothing is under way. -/
def Quiet (w : World) : Prop := w.shot = none ∧ ∀ s ∈ w.sessions, s.Settled

def work (w : World) : ℕ :=
  (w.sessions.map SessionHandle.work).sum + (w.shot.map Shot.work).getD 0

theorem act_free (id : ℕ) (s : SessionHandle) (hshot : w.shot = none)
    (a : SessionHandle.Action) :
    (w.act id s a).sessions = w.sessions.set id (s.step a) ∧ (w.act id s a).shot = none := by
  unfold act
  split
  case h_1 k =>
    split
    case h_1 => exact ⟨by rw [hshot]; rfl, by rw [hshot]; exact hshot⟩
    case h_2 => exact ⟨rfl, hshot⟩
    case h_3 => exact ⟨rfl, hshot⟩
  case h_2 => exact ⟨rfl, hshot⟩

theorem sum_work_set {sessions : List SessionHandle} (hs : sessions[id]? = some s)
    (s' : SessionHandle) :
    ((sessions.set id s').map SessionHandle.work).sum + s.work =
      (sessions.map SessionHandle.work).sum + s'.work := by
  obtain ⟨hlt, hget⟩ := List.getElem?_eq_some_iff.1 hs
  have hold := ((List.getElem_cons_eraseIdx_perm hlt).map SessionHandle.work).sum_eq
  have hnew := ((List.set_perm_cons_eraseIdx hlt s').map SessionHandle.work).sum_eq
  rw [List.map_cons, List.sum_cons] at hold hnew
  rw [← hold, hnew, hget]
  omega

/-- Something that is under way has a step to make. -/
theorem Inv.exists_step (h : w.Inv) (hnot : ¬ w.Quiet) :
    ∃ a : Action, a.settles = true ∧ w.Careful a ∧ (w.step a).work < w.work := by
  cases hshot : w.shot with
  | some shot =>
    refine ⟨.snapshot, rfl, trivial, ?_⟩
    simp only [World.step, hshot, readSnapshot]
    split
    case h_1 hrest hup => simp [work, hshot, Shot.work, hup]
    case h_2 hrest hup =>
      simp only [work, hshot, Shot.work, hup, hrest, List.length_cons, Option.map_some,
        Option.getD_some, Option.isNone_none, Option.isNone_some, if_true]
      simp
      omega
    case h_3 hrest => simp [work, hshot, Shot.work]
  | none =>
    have hopen : ∃ s ∈ w.sessions, ¬ s.Settled := by
      by_contra hall
      exact hnot ⟨hshot, fun s hs => not_not.1 fun hopen => hall ⟨s, hs, hopen⟩⟩
    obtain ⟨s, hmem, hopen⟩ := hopen
    obtain ⟨id, hs⟩ := List.getElem?_of_mem hmem
    have hok := h.ok id s hs
    have halive : s.alive = true := by
      by_contra hgone
      obtain ⟨hlast, hfirst, ho⟩ := hok.gone (Bool.eq_false_iff.2 hgone)
      obtain ⟨o, ho⟩ := Option.isSome_iff_exists.1 ho
      exact hopen ⟨(hok.outcome_eq ho).2.1, hlast, hfirst⟩
    obtain ⟨a, ha, hless⟩ := hok.exists_step hopen
    refine ⟨.session id a, ha, trivial, ?_⟩
    obtain ⟨hsessions, hfree⟩ := act_free id s hshot a
    have hsum := sum_work_set hs (s.step a)
    simp only [World.step, hs, halive, if_true, work, hsessions, hfree, hshot]
    omega

/-- **From every state, the steps of what is under way lead to one in which nothing is.** -/
theorem Inv.settles (h : w.Inv) :
    ∃ as : List Action, (∀ a ∈ as, a.settles = true) ∧ (Runs.run World.step w as).Quiet := by
  induction hn : w.work using Nat.strong_induction_on generalizing w with
  | _ n ih =>
    by_cases hquiet : w.Quiet
    · exact ⟨[], fun a ha => absurd ha List.not_mem_nil, hquiet⟩
    · obtain ⟨a, ha, hcareful, hless⟩ := h.exists_step hquiet
      obtain ⟨as, has, hdone⟩ := ih _ (hn ▸ hless) (h.step hcareful) rfl
      refine ⟨a :: as, fun b hb => ?_, hdone⟩
      rcases List.mem_cons.1 hb with rfl | hb
      · exact ha
      · exact has b hb

end World

/-! ### What is said of the sessions -/

/-- A session is ended once, and its hooks run once. -/
structure SessionHandle.Once (s : SessionHandle) : Prop where
  /-- the outcome that stands is that of the first call of `finish` -/
  outcome : ∀ o, s.outcome = some o → s.calls.head? = some o
  stands : s.Settled → s.outcome = s.calls.head?
  /-- no hook runs more often than it was registered, and none before the end -/
  last : (s.last.ran.map Prod.snd).Subperm s.last.registered
  told : ∀ r ∈ s.last.ran, s.outcome = some r.1
  /-- once nothing is under way, each ran if the session is over -/
  over_ : s.Settled → s.outcome.isSome = true →
    (s.last.ran.map Prod.snd).Perm s.last.registered
  first : (s.first.ran.map Prod.snd).Subperm s.first.registered
  seen : ∀ r ∈ s.first.ran, s.first.event = some r.1
  back : s.Settled → s.first.event.isSome = true →
    (s.first.ran.map Prod.snd).Perm s.first.registered

theorem SessionHandle.Ok.once {s : SessionHandle} (h : s.Ok) : s.Once where
  outcome := fun o ho => (h.outcome_eq ho).1
  stands := fun hsettled => by
    rcases h.phase with ⟨hending, hnone⟩ | ⟨-, ho⟩
    · rw [hnone, ← hending, hsettled.1]
    · exact ho
  last := h.last.subperm
  told := h.last.told
  over_ := fun hsettled ho => by
    have := h.last.settled hsettled.2.1
    rwa [if_pos (show s.last.event.isSome = true from ho)] at this
  first := h.first.subperm
  seen := h.first.told
  back := fun hsettled ho => by
    have := h.first.settled hsettled.2.2
    rwa [if_pos ho] at this

/-- What is said of the sessions in every state: each is ended once, and its bytes are counted
once. -/
structure Accounted (w : World) : Prop where
  once : ∀ s ∈ w.sessions, s.Once
  /-- what is under way comes to its end -/
  settles : ∃ as : List Action, (∀ a ∈ as, a.settles = true) ∧ (Runs.run World.step w as).Quiet
  /-- a session is added to the sums once, when it is finished -/
  recorded : w.recorded.Nodup
  finished : ∀ id ∈ w.recorded, ∃ s : SessionHandle,
    w.sessions[id]? = some s ∧ s.finished = true
  added : ∀ (id : ℕ) (s : SessionHandle), w.sessions[id]? = some s → s.Settled →
    s.finished = true → id ∈ w.recorded
  summed : w.Summed
  /-- a session that was marked active is in the sums or in the index, and not in both -/
  apart : (w.recorded ++ w.log.active).Nodup
  marked : ∀ id, id ∈ w.recorded ++ w.log.active ↔ id ∈ w.recorded ∨ id ∈ w.marked
  listed : w.active.map RequestRecord.id = w.log.active.reverse
  /-- a snapshot counted each of them once -/
  taken : ∀ shown ∈ w.shown, w.Taken shown
  rising : (w.shown.map Shown.value).Pairwise (· ≤ ·)
  /-- once all are finished, it shows what they come to -/
  all : w.Quiet → (∀ s ∈ w.sessions, s.finished = true) →
    (Runs.run World.step w [.snapshot, .snapshot]).shown.map Shown.value =
      w.shown.map Shown.value ++ [(w.sessions.map SessionHandle.bytes).sum]
  /-- the ring holds the records that were put into it last, each of another session -/
  ring : w.log.finished = Fifo.recent w.log.capacity w.pushed
  records : ∀ rec ∈ w.pushed, ∃ (s : SessionHandle) (o : SessionOutcome),
    w.sessions[rec.id]? = some s ∧ s.outcome = some o ∧ rec = record_of rec.id s (some o)
  pushed : (w.pushed.map RequestRecord.id).Nodup
  kept : ∀ (id : ℕ) (s : SessionHandle), w.sessions[id]? = some s → s.Settled →
    s.finished = true → id ∈ w.pushed.map RequestRecord.id

namespace World

variable {w : World} {id : ℕ} {s : SessionHandle}

theorem Inv.recordings_settled (h : w.Inv) (hs : w.sessions[id]? = some s) (hsettled : s.Settled)
    (hfinished : s.finished = true) : s.recordings = 1 ∧ s.recording = 0 := by
  have hok := h.ok id s hs
  have ho : s.outcome.isSome = true := by
    rw [hok.once.stands hsettled, ← hok.finished]
    exact hfinished
  refine ⟨hok.recordings_eq hsettled.2.1 ho, ?_⟩
  rw [SessionHandle.recording, Latch.inside, hsettled.2.1]
  rfl

theorem Inv.added (h : w.Inv) (hs : w.sessions[id]? = some s) (hsettled : s.Settled)
    (hfinished : s.finished = true) : id ∈ w.recorded := by
  have hcount := h.recorded id s hs
  rw [(h.recordings_settled hs hsettled hfinished).1] at hcount
  exact List.count_pos_iff.1 (by omega)

/-- Once all are finished, nothing is in the index, and all are in the sums. -/
theorem Inv.all (h : w.Inv) (hquiet : w.Quiet) (hall : ∀ s ∈ w.sessions, s.finished = true) :
    w.log.active = [] ∧ w.traffic.totals = (w.sessions.map SessionHandle.bytes).sum := by
  have hin : ∀ id, id < w.sessions.length → id ∈ w.recorded := fun id hlt =>
    h.added (List.getElem?_eq_getElem hlt) (hquiet.2 _ (List.getElem_mem hlt))
      (hall _ (List.getElem_mem hlt))
  constructor
  · refine List.eq_nil_iff_forall_not_mem.2 fun id hid => ?_
    have hlt := h.known id (List.mem_append_right _ hid)
    exact List.disjoint_of_nodup_append h.nodup (hin id hlt) hid
  · have hperm : w.recorded.Perm (List.range w.sessions.length) := by
      refine (List.perm_ext_iff_of_nodup (List.nodup_append.1 h.nodup).1 List.nodup_range).2
        fun id => ⟨fun hid => ?_, fun hid => hin id (List.mem_range.1 hid)⟩
      exact List.mem_range.2 (h.known id (List.mem_append_left _ hid))
    rw [h.summed.totals, total, (hperm.map _).sum_eq]
    refine congrArg List.sum (List.ext_getElem? fun i => ?_)
    rw [List.getElem?_map, List.getElem?_map]
    by_cases hi : i < w.sessions.length
    · rw [List.getElem?_range hi, List.getElem?_eq_getElem hi]
      simp [List.getElem?_eq_getElem hi]
    · rw [List.getElem?_eq_none (by simpa using hi), List.getElem?_eq_none (by simpa using hi)]
      rfl

theorem Inv.accounted (h : w.Inv) : Accounted w where
  once := fun s hs => by
    obtain ⟨id, hid⟩ := List.getElem?_of_mem hs
    exact (h.ok id s hid).once
  settles := h.settles
  recorded := (List.nodup_append.1 h.nodup).1
  finished := fun id hid => by
    have hlt := h.known id (List.mem_append_left _ hid)
    have hs := List.getElem?_eq_getElem hlt
    exact ⟨_, hs, h.finished_of_recorded hs hid⟩
  added := fun id s hs hsettled hfinished => h.added hs hsettled hfinished
  summed := h.summed
  apart := h.nodup
  marked := fun id => by
    constructor
    · intro hid
      exact (List.mem_append.1 hid).imp (fun hid => hid) (h.active id)
    · rintro (hid | hid)
      · exact List.mem_append_left _ hid
      · exact h.marked id hid
  listed := by
    rw [World.active, h.prune_eq]
    have hall : ∀ ids : List ℕ, (∀ id ∈ ids, id < w.sessions.length) →
        (ids.filterMap fun id => w.sessions[id]?.map fun h => record_of id h none).map
          RequestRecord.id = ids := by
      intro ids hids
      induction ids with
      | nil => rfl
      | cons id ids ih =>
        have hlt := hids id List.mem_cons_self
        rw [List.filterMap_cons, List.getElem?_eq_getElem hlt, Option.map_some, List.map_cons,
          ih fun j hj => hids j (List.mem_cons_of_mem _ hj)]
        rfl
    refine hall _ fun id hid => h.known id (List.mem_append_right _ ?_)
    exact List.mem_reverse.1 hid
  taken := h.taken
  rising := h.rising
  all := fun hquiet hall => by
    obtain ⟨hactive, htotals⟩ := h.all hquiet hall
    rw [Runs.run_cons, Runs.run_cons, Runs.run_nil]
    simp only [World.step, hquiet.1, h.prune_eq, beginSnapshot, readSnapshot, hactive,
      List.map_append, List.map_singleton, htotals, add_zero]
  ring := h.ring
  records := h.records
  pushed := by
    refine List.nodup_iff_count_le_one.2 fun id => ?_
    by_cases hlt : id < w.sessions.length
    · have hs := List.getElem?_eq_getElem hlt
      have hcount := h.pushed id _ hs
      have hle := (h.ok id _ hs).recordings_le
      omega
    · rw [List.count_eq_zero.2 fun hid => ?_]
      · exact Nat.zero_le _
      · obtain ⟨rec, hrec, rfl⟩ := List.mem_map.1 hid
        obtain ⟨s, o, hs, -⟩ := h.records rec hrec
        exact hlt (List.getElem?_eq_some_iff.1 hs).1
  kept := fun id s hs hsettled hfinished => by
    obtain ⟨hbegun, hinside⟩ := h.recordings_settled hs hsettled hfinished
    have hcount := h.pushed id s hs
    rw [hbegun, hinside] at hcount
    exact List.count_pos_iff.1 (by omega)

end World

/-- **Every session is ended once and its bytes are counted once, however its end, its hooks, the
marks and the snapshots are interleaved, where none is marked active that is finished.** -/
theorem sessions_accounted (capacity : ℕ) (as : List Action)
    (h : Runs.Along World.step World.Careful (World.new capacity) as) :
    Accounted (Runs.run World.step (World.new capacity) as) := by
  refine World.Inv.accounted ?_
  exact h.invariant (fun w a hw hcareful => hw.step hcareful) (World.inv_new capacity)

/-- A session on which each kind of step is made, a snapshot that its end comes between, and one
after it is recorded. -/
def sampleRun : List Action :=
  [.begin_ .Http ["P".toList], .mark_active 0, .session 0 (.add_up 5),
    .session 0 (.mark_first_byte 1), .session 0 (.when_finished 7), .session 0 (.lastTask 0),
    .session 0 (.lastTask 0), .session 0 (.finish .Completed), .session 0 .write, .snapshot,
    .session 0 (.lastTask 0), .session 0 (.lastTask 0), .session 0 (.finish (.Failed [])),
    .snapshot, .snapshot, .snapshot, .session 0 (.lastTask 0), .session 0 (.lastTask 0),
    .snapshot, .snapshot]

theorem sessions_accounted_sample :
    (Runs.run World.step (World.new 1) sampleRun).recorded = [0] ∧
      (Runs.run World.step (World.new 1) sampleRun).pushed.map RequestRecord.id = [0] ∧
      (Runs.run World.step (World.new 1) sampleRun).shown.map Shown.value = [(5, 0), (5, 0)] ∧
      Accounted (Runs.run World.step (World.new 1) sampleRun) := by
  refine ⟨by decide, by decide, by decide, sessions_accounted 1 sampleRun ?_⟩
  refine ⟨trivial, fun s hs => ?_, trivial, trivial, trivial, trivial, trivial, trivial, trivial,
    trivial, trivial, trivial, trivial, trivial, trivial, trivial, trivial, trivial, trivial,
    trivial, trivial⟩
  cases hs
  rfl

/-- A session that is marked active once it was recorded is counted twice, until its handle is
dropped; then the bytes shown fall. -/
theorem marked_late : ∃ acts : List Action,
    acts = [.begin_ .Http ["P".toList], .session 0 (.add_up 5), .session 0 (.finish .Completed),
      .session 0 .write, .session 0 (.lastTask 0), .session 0 (.lastTask 0),
      .session 0 (.lastTask 0), .session 0 (.lastTask 0), .mark_active 0, .snapshot, .snapshot,
      .snapshot, .snapshot, .session 0 .drop, .snapshot, .snapshot] ∧
    (Runs.run World.step (World.new 1) acts).bytes 0 = (5, 0) ∧
    (Runs.run World.step (World.new 1) acts).shown =
      [⟨(10, 0), [(0, (5, 0)), (0, (5, 0))], [0]⟩, ⟨(5, 0), [(0, (5, 0))], [0]⟩] :=
  ⟨_, rfl, by decide, by decide⟩

end Observe

end Rurge
