import Rurge.Net.Resource

/-!
# What an answer confirms

An answer that nothing is new confirms the body held when it is recorded, whichever that is by then.
So it confirms what it was about as long as nobody adopts another body in between: after the
validators were taken, where the answer is that nothing was modified, and after the comparison,
where it is the body held.
-/

namespace Rurge

namespace Resource

open Runs

variable {opts : Options} {digest_of : Body → Str} {w : World}

/-- No other body is adopted between what an answer is about and its recording. -/
def Unmoved (w : World) : Action → Prop
  | .adopted => ∀ data now number validators, w.adopting = some (data, now) →
      w.task = .answered number (.Same validators) → w.held = some data
  | .answer (.ok .NotModified) => ∀ number, w.task = .asking number → w.held ≠ none →
      w.held = w.sent
  | _ => True

/-- The body that an outcome is about is known, and what was recorded was what it was about. -/
structure Right (w : World) : Prop where
  same : ∀ number validators, w.task = .answered number (.Same validators) →
    w.held = w.stands_for
  checking : ∀ number data etag last_modified, w.task = .checking number data etag last_modified →
    w.stands_for = some data
  new : ∀ number data etag last_modified,
    w.task = .answered number (.New data etag last_modified) → w.stands_for = some data
  recorded : ∀ r ∈ w.recorded, r.held = r.stands_for

/-- The task has no answer. -/
def Task.unanswered : Task → Prop
  | .checking _ _ _ _ | .answered _ _ => False
  | _ => True

theorem Right.of_unanswered (h : ∀ r ∈ w.recorded, r.held = r.stands_for)
    (htask : w.task.unanswered) : Right w := by
  refine ⟨?_, ?_, ?_, h⟩ <;> intros <;> simp_all [Task.unanswered]

/-- What a step must leave alone for nothing to change. -/
theorem Right.kept {w' : World} (h : Right w) (htask : w'.task = w.task)
    (hheld : w'.held = w.held) (hstands : w'.stands_for = w.stands_for)
    (hrecorded : w'.recorded = w.recorded) : Right w' := by
  obtain ⟨hsame, hchecking, hnew, hr⟩ := h
  refine ⟨?_, ?_, ?_, ?_⟩
  · rw [htask, hheld, hstands]
    exact hsame
  · rw [htask, hstands]
    exact hchecking
  · rw [htask, hstands]
    exact hnew
  · rw [hrecorded]
    exact hr

/-! ### What is recorded -/

/-- A success confirms the body that is held. -/
theorem record_same_ok {e e' : Entry} {now : ℕ} {validators : Option (Option Str × Option Str)}
    {intact : Bool} {written : Option Str}
    (h : record_same digest_of e now validators intact written = (e', .ok ())) :
    e'.state.data.map Prod.fst = e.state.data.map Prod.fst := by
  unfold record_same at h
  split at h
  case h_1 hnone => cases h
  case h_2 data version hdata =>
    dsimp only at h
    split at h
    case h_1 => cases h
    case h_2 =>
      cases h
      rw [hdata]
      rfl

/-- A success takes in the body that is new. -/
theorem record_new_ok {e e' : Entry} {now : ℕ} {data : Body}
    {etag last_modified written : Option Str}
    (h : record_new digest_of e now data etag last_modified written = (e', .ok ())) :
    e'.state.data.map Prod.fst = some data := by
  unfold record_new at h
  dsimp only at h
  split at h
  case h_1 => cases h
  case h_2 =>
    cases h
    rfl

theorem holds_iff {e : Entry} {data : Body} :
    holds e data = true ↔ e.state.data.map Prod.fst = some data := by
  unfold holds
  cases e.state.data <;> simp

/-- **What a success leaves the entry with.** -/
theorem record_attempt_ok {e e' : Entry} {now : ℕ} {intact : Bool} {written : Option Str}
    {outcome : Outcome} (h : record_attempt digest_of e now intact written outcome = (e', .ok ())) :
    match outcome with
    | .Failed _ => False
    | .Same _ => e'.state.data.map Prod.fst = e.state.data.map Prod.fst
    | .New data _ _ => e'.state.data.map Prod.fst = some data := by
  cases outcome with
  | Same validators => exact record_same_ok h
  | New data etag last_modified =>
    unfold record_attempt at h
    dsimp only at h ⊢
    split at h
    case isTrue hholds => exact (record_same_ok h).trans (holds_iff.1 hholds)
    case isFalse => exact record_new_ok h
  | Failed reason => cases h

/-! ### Step by step -/

theorem Right.adopted (h : Right w) (hu : Unmoved w .adopted) : Right w.adopted := by
  unfold World.adopted
  split
  case h_1 => exact h
  case h_2 data now hadopting =>
    obtain ⟨hsame, hchecking, hnew, hr⟩ := h
    refine ⟨fun number validators htask => ?_, hchecking, hnew, hr⟩
    have hheld := hu data now number validators hadopting htask
    exact hheld.symm.trans (hsame number validators htask)

theorem Right.answer (h : Right w) {fetched : Except Str Fetched}
    (hu : Unmoved w (.answer fetched)) : Right (w.answer fetched) := by
  unfold World.answer
  split
  case h_2 => exact h
  case h_1 number htask =>
    obtain ⟨-, -, -, hr⟩ := h
    cases fetched with
    | error e => exact ⟨by simp, by simp, by simp, hr⟩
    | ok fetched =>
      cases fetched with
      | NotModified =>
        dsimp only
        split
        case isTrue => exact ⟨by simp, by simp, by simp, hr⟩
        case isFalse hsome =>
          have hheld : w.held ≠ none := by simpa [World.held] using hsome
          exact ⟨fun _ _ _ => hu number htask hheld, by simp, by simp, hr⟩
      | New data etag last_modified =>
        dsimp only
        split_ifs with hholds hcheck
        · exact ⟨fun _ _ _ => holds_iff.1 hholds, by simp, by simp, hr⟩
        · exact ⟨by simp, by rintro _ _ _ _ ⟨⟩; rfl, by simp, hr⟩
        · exact ⟨by simp, by simp, by rintro _ _ _ _ ⟨⟩; rfl, hr⟩

theorem Right.check (h : Right w) (verdict : Option (Except Str Unit)) :
    Right (w.check verdict) := by
  unfold World.check
  split
  case h_2 => exact h
  case h_1 number data etag last_modified htask =>
    have hstands := h.checking number data etag last_modified htask
    split
    · exact ⟨by simp, by simp, by rintro _ _ _ _ ⟨⟩; exact hstands, h.recorded⟩
    · exact ⟨by simp, by simp, by simp, h.recorded⟩
    · exact ⟨by simp, by simp, by simp, h.recorded⟩

/-- A success recorded confirms what the answer was about. -/
theorem Right.record (h : Right w) (intact : Bool) (written : Option Str) :
    Right (w.record opts digest_of intact written) := by
  unfold World.record
  split
  case h_2 => exact h
  case h_1 number outcome htask =>
    split_ifs with hlock hretired
    · exact h
    · exact .of_unanswered h.recorded trivial
    · generalize hrecord : record_attempt digest_of w.entry w.now intact written outcome = recorded
      obtain ⟨e, result⟩ := recorded
      cases result with
      | error reason => exact .of_unanswered h.recorded trivial
      | ok =>
        refine .of_unanswered (fun r hr => ?_) trivial
        rcases List.mem_append.1 hr with hr | hr
        · exact h.recorded r hr
        · obtain rfl := List.mem_singleton.1 hr
          have hheld := record_attempt_ok hrecord
          cases outcome with
          | Same validators => exact hheld.trans (h.same number validators htask)
          | New data etag last_modified =>
            exact hheld.trans (h.new number data etag last_modified htask).symm
          | Failed reason => exact hheld.elim

/-- **A step that moves nothing keeps the answers right.** -/
theorem Right.step (h : Right w) {a : Action} (hu : Unmoved w a) :
    Right (w.step opts digest_of a) := by
  cases a with
  | tick d => exact h.kept rfl rfl rfl rfl
  | register interval check => exact h.kept rfl rfl rfl rfl
  | ask =>
    simp only [World.step, World.ask]
    split <;> exact h.kept rfl rfl rfl rfl
  | adopt data ago written =>
    simp only [World.step, World.adopt]
    split_ifs <;> exact h.kept rfl rfl rfl rfl
  | adopted => exact h.adopted hu
  | retire =>
    simp only [World.step, World.retire]
    split <;> exact h.kept rfl rfl rfl rfl
  | go => exact h.kept rfl rfl rfl rfl
  | start loaded =>
    simp only [World.step, World.start]
    split
    · by_cases hlock : w.adopting.isSome = true
      · rwa [if_pos hlock]
      · rw [if_neg hlock]
        refine .of_unanswered h.recorded ?_
        cases opts.offline <;> exact trivial
    · exact h
  | look =>
    simp only [World.step, World.look]
    split
    · split_ifs <;> exact .of_unanswered h.recorded trivial
    · exact h
  | sleep seed =>
    simp only [World.step, World.sleep]
    split
    · exact .of_unanswered h.recorded trivial
    · exact h
  | wake =>
    simp only [World.step, World.wake]
    split
    · split_ifs <;> first | exact h | exact .of_unanswered h.recorded trivial
    · exact h
  | begin_ =>
    simp only [World.step, World.begin_]
    split
    · split_ifs <;> exact .of_unanswered h.recorded trivial
    · exact h
  | answer fetched => exact h.answer hu
  | check verdict => exact h.check verdict
  | record intact written => exact h.record intact written
  | stop =>
    simp only [World.step, World.cut]
    split
    · split_ifs
      · exact .of_unanswered h.recorded trivial
      · exact h
    · split_ifs
      · exact .of_unanswered h.recorded trivial
      · exact h
    · exact h

/-- **A success confirms the body that its answer stands for, as long as no other is adopted between
the one and the other.** -/
theorem answers_stand (opts : Options) (digest_of : Body → Str) (interval : Option ℤ)
    (check : Bool) (as : List Action)
    (h : Along (World.step opts digest_of) Unmoved (World.new interval check) as) :
    ∀ r ∈ (run (World.step opts digest_of) (World.new interval check) as).recorded,
      r.held = r.stands_for :=
  (h.invariant (I := Right) (fun _ _ hw hu => hw.step hu)
    (.of_unanswered (by simp [World.new]) trivial)).recorded

/-- No one checks, none is offline, and every digest is the same. -/
def plain : Options := ⟨false, 0, 0, false⟩

theorem answers_stand_once :
    let w := run (World.step plain fun _ => []) (World.new none false)
      [.start none, .look, .sleep 0, .wake, .begin_, .answer (.ok (.New [1] none none)),
        .record true none]
    w.recorded.length = 1 ∧ w.recorded.map Recorded.held = w.recorded.map Recorded.stands_for :=
  ⟨rfl, List.map_congr_left (answers_stand plain _ none false _ (by simp [Unmoved]))⟩

/-- A body adopted while an answer is under way is confirmed by it: by a "not modified" to the
validators of the body before, and by the very body before. -/
theorem adopted_confirmed :
    let fetch : List Action := [.start none, .look, .sleep 0, .wake, .begin_,
      .answer (.ok (.New [1] (some ['a']) none)), .record true none, .ask, .look, .sleep 0, .wake,
      .begin_]
    let adopt : List Action := [.adopt [2] 0 true, .adopted]
    let after (as : List Action) :=
      (run (World.step plain fun _ => []) (World.new none false) (fetch ++ as)).recorded
    (∃ r ∈ after (adopt ++ [.answer (.ok .NotModified), .record true none]),
      r.held = some [2] ∧ r.stands_for = some [1]) ∧
    ∃ r ∈ after (.answer (.ok (.New [1] (some ['b']) none)) :: adopt ++ [.record true none]),
      r.held = some [2] ∧ r.stands_for = some [1] := by
  refine ⟨⟨⟨some [2], some [1]⟩, ?_, rfl, rfl⟩, ⟨⟨some [2], some [1]⟩, ?_, rfl, rfl⟩⟩
  · exact List.mem_of_getElem? (i := 1) rfl
  · exact List.mem_of_getElem? (i := 1) rfl

end Resource

end Rurge
