import Rurge.Capture.Slot

/-!
# A captured request is stored once

What every run of one request keeps: while its entry is not stored, the slot's state says of the
record and of the answer what happened to them, and nothing is due; and once it is, nothing more is
stored.
-/

namespace Rurge

namespace Capture

/-! ### What the store does for one body -/

theorem watch_begin (limits : Limits) (w : Watched) :
    watch limits w .begin = some ⟨⟨w.system.inner, w.system.pendings ++ [some .new]⟩,
      w.given ++ [([], [])], w.log⟩ := by
  simp [watch, step, gives]

theorem watch_given {limits : Limits} {w w' : Watched} {a : Action}
    (h : watch limits w a = some w') : w'.given = gives w.given a := by
  unfold watch at h
  obtain ⟨system, -, h⟩ := Option.bind_eq_some_iff.1 h
  cases h
  rfl

/-- A body a chunk came for is still there. -/
theorem watch_chunk {limits : Limits} {w w' : Watched} {i : ℕ} {axis : Axis} {data : List UInt8}
    {p : Pending} (h : watch limits w (.chunk i axis data) = some w')
    (hp : w.system.pendings[i]? = some (some p)) :
    ∃ p', w'.system.pendings[i]? = some (some p') := by
  unfold watch at h
  obtain ⟨system, hstep, h⟩ := Option.bind_eq_some_iff.1 h
  cases h
  simp only [step, hp] at hstep
  obtain ⟨⟨p', inner⟩, -, hstep⟩ := Option.bind_eq_some_iff.1 hstep
  cases hstep
  exact ⟨p', List.getElem?_set_self (List.getElem?_eq_some_iff.1 hp).1⟩

/-- What others do gives a body nothing. -/
theorem gives_other {given : List (List UInt8 × List UInt8)} {g : List UInt8 × List UInt8} {i : ℕ}
    {a : Action} (hother : a.body ≠ some i) (h : given[i]? = some g) :
    (gives given a)[i]? = some g := by
  cases a with
  | begin => exact (List.getElem?_append_left (List.getElem?_eq_some_iff.1 h).1).trans h
  | chunk j axis data =>
    have hne : j ≠ i := fun hij => hother (congrArg some hij)
    exact (List.getElem?_modify_ne _ _ hne).trans h
  | commit => exact h
  | drop => exact h
  | put => exact h
  | clear => exact h

/-- The copies an entry is stored with are the entry. -/
theorem Entry.owned_eq (entry : Entry) : entry.owned = entry := by
  have howned : ∀ headers : HeaderMap, Capture.owned headers = headers := fun headers =>
    List.map_id headers
  unfold Entry.owned
  rcases entry with ⟨_, _, _, _, _, _ | response⟩ <;> simp [howned]

/-! ### What is due -/

/-- The answer is over: it never comes, or its body is done. -/
def World.answer_over (w : World) : Prop := w.slot = false ∧ ∀ body ∈ w.body, body.done = true

/-- The entry is to be stored: the record has ended and the answer is over; or an upgrade was
answered, refused or let go; or the record ended as dropped while the answer was awaited. -/
def World.Due (w : World) : Prop :=
  (w.outcome.isSome ∧ w.answer_over) ∨ (w.marked = true ∧ w.slot = false) ∨ w.hasty = true

/-- What the slot holds of the answer, as it came about. -/
inductive AnswerOf (w : World) : Answer → Prop
  | waiting (slot : w.slot = true) (body : w.body = none) (told : w.told = none)
      (hasty : w.hasty = false) : AnswerOf w .Waiting
  | hasty (slot : w.slot = true) (body : w.body = none) (told : w.told = none)
      (hasty : w.hasty = true) : AnswerOf w .Nothing
  | nothing (slot : w.slot = false) (body : w.body = none) (told : w.told = none) :
      AnswerOf w .Nothing
  | given (head : ResponseHead) (slot : w.slot = false) (body : w.body = some ⟨true, false⟩)
      (told : w.told = some head) (marked : w.marked = false) (hasty : w.hasty = false) :
      AnswerOf w (.Given head none)
  | done (head : ResponseHead) (done : ℕ) (slot : w.slot = false)
      (body : w.body = some ⟨true, true⟩) (told : w.told = some head) :
      AnswerOf w (.Given head (some done))
  | upgrade (head : ResponseHead) (done : ℕ) (slot : w.slot = false)
      (told : w.told = some head) (marked : w.marked = true) : AnswerOf w (.Given head (some done))

theorem AnswerOf.congr {w w' : World} {answer : Answer} (h : AnswerOf w answer)
    (hslot : w'.slot = w.slot) (hbody : w'.body = w.body) (htold : w'.told = w.told)
    (hmarked : w'.marked = w.marked) (hhasty : w'.hasty = w.hasty) : AnswerOf w' answer := by
  cases h with
  | waiting slot body told hasty =>
    exact .waiting (hslot.trans slot) (hbody.trans body) (htold.trans told) (hhasty.trans hasty)
  | hasty slot body told hasty =>
    exact .hasty (hslot.trans slot) (hbody.trans body) (htold.trans told) (hhasty.trans hasty)
  | nothing slot body told =>
    exact .nothing (hslot.trans slot) (hbody.trans body) (htold.trans told)
  | given head slot body told marked hasty =>
    exact .given head (hslot.trans slot) (hbody.trans body) (htold.trans told)
      (hmarked.trans marked) (hhasty.trans hasty)
  | done head done slot body told =>
    exact .done head done (hslot.trans slot) (hbody.trans body) (htold.trans told)
  | upgrade head done slot told marked =>
    exact .upgrade head done (hslot.trans slot) (htold.trans told) (hmarked.trans marked)

/-- An armed slot whose entry is not stored yet. -/
structure Live (w : World) (armed : Armed) (i : ℕ) : Prop where
  pending : armed.pending = some i
  coming : ∃ (p : Pending) (g : List UInt8 × List UInt8),
    w.store.system.pendings[i]? = some (some p) ∧ w.store.given[i]? = some g ∧ g.2 = w.handed
  request : ∃ head, armed.request = some head ∧ w.left = some head
  upgrading : armed.upgrading = w.marked
  finished : armed.finished.map Prod.snd = w.outcome
  hasty : w.hasty = true → w.outcome.isSome
  answer : AnswerOf w armed.answer
  committed : w.committed = []

/-- An armed slot whose entry is stored. -/
structure Stored (w : World) (armed : Armed) : Prop where
  pending : armed.pending = none
  answer : armed.answer = .Nothing
  due : w.Due
  committed : ∃ entry, w.committed = [entry]

/-- What every run keeps. -/
structure Inv (limits : Limits) (w : World) : Prop where
  accounts : Accounts limits w.store
  unarmed : w.armed = none → w.committed = [] ∧ w.hasty = false ∧ w.marked = false ∧
    (w.slot = true → w.body = none ∧ w.told = none ∧ w.handed = [])
  armed : ∀ armed, w.armed = some armed → (∃ i, Live w armed i ∧ ¬ w.Due) ∨ Stored w armed
  hook : w.armed.isSome → w.outcome = none → w.hook = true

/-- What an entry says, at the moment it is committed. -/
structure EntryOf (limits : Limits) (w : World) (entry : Entry) : Prop where
  request : w.left = some entry.request
  response : entry.response = w.told
  response_body : BodyOf limits.body w.handed entry.response_body
  upgraded : w.marked = true → entry.outcome = .Upgraded
  outcome : w.marked = false → w.outcome.map SessionOutcome.outcome = some entry.outcome

/-- One event after another: what is committed stays, and what comes is an entry of what was seen,
which the store takes or drops. -/
structure Next (limits : Limits) (w w' : World) : Prop where
  inv : Inv limits w'
  kept : w.committed ≠ [] → w'.committed = w.committed
  entry : ∀ entry, w.committed = [] → w'.committed = [entry] → EntryOf limits w' entry ∧
    (w'.store.log = w.store.log ∨ w'.store.log = w.store.log ++ [entry])

variable {limits : Limits} {w : World} {armed : Armed} {i : ℕ}

/-- The slot finds its entry due exactly when it is. -/
theorem Live.due_iff (h : Live w armed i) (handle : Record) :
    ((armed.ended_at handle).bind armed.over_at).isSome ↔ w.Due := by
  have hended : (armed.ended_at handle).isSome ↔ w.outcome.isSome ∨ w.marked = true := by
    rw [← h.finished, ← h.upgrading]
    unfold Armed.ended_at
    cases armed.finished <;> simp
  have hbind : ((armed.ended_at handle).bind armed.over_at).isSome ↔
      (armed.ended_at handle).isSome ∧ (armed.over_at 0).isSome := by
    cases armed.ended_at handle with
    | none => simp
    | some ended =>
      simp only [Option.bind_some, Option.isSome_some, true_and, Armed.over_at]
      rcases armed.answer with _ | _ | ⟨head, _ | done⟩ <;> rfl
  rw [hbind, hended]
  have hanswer := h.answer
  unfold World.Due World.answer_over Armed.over_at
  generalize armed.answer = answer at hanswer
  cases hanswer with
  | waiting slot body told hasty => simp [slot, hasty]
  | hasty slot body told hasty => simp [hasty, h.hasty hasty]
  | nothing slot body told =>
    have hhasty := h.hasty
    simp only [slot, body, Option.isSome_some, and_true, Option.not_mem_none, false_implies,
      implies_true]
    tauto
  | given head slot body told marked hasty => simp [slot, body, marked, hasty]
  | done head done slot body told =>
    have hhasty := h.hasty
    simp only [slot, body, Option.isSome_some, and_true, Option.mem_some_iff, forall_eq']
    tauto
  | upgrade head done slot told marked => simp [slot, marked]

/-- **What is due is stored**, and nothing else is. -/
theorem Live.commits (h : Live w armed i) (hacc : Accounts limits w.store)
    (hhook : w.outcome = none → w.hook = true) (handle : Record) :
    ∃ w', w.commits limits armed handle = some w' ∧ Inv limits w' ∧
      ∀ entry, w'.committed = [entry] → EntryOf limits w' entry ∧
        (w'.store.log = w.store.log ∨ w'.store.log = w.store.log ++ [entry]) := by
  obtain ⟨p, g, hp, hg, hhanded⟩ := h.coming
  obtain ⟨head, hrequest, hleft⟩ := h.request
  cases hover : (armed.ended_at handle).bind armed.over_at with
  | none =>
    have hdue : ¬ w.Due := by rw [← h.due_iff handle, hover]; simp
    refine ⟨{ w with armed := some armed }, ?_, ⟨hacc, by simp, ?_, fun _ => hhook⟩, ?_⟩
    · simp only [World.commits, Armed.try_commit, h.pending, hover, Option.bind_eq_bind,
        Option.bind_some, Option.pure_def, List.append_nil]
    · rintro armed' ⟨rfl⟩
      exact .inl ⟨i, ⟨h.pending, h.coming, h.request, h.upgrading, h.finished, h.hasty,
        h.answer.congr rfl rfl rfl rfl rfl, h.committed⟩, hdue⟩
    · intro entry hentry
      rw [h.committed] at hentry
      cases hentry
  | some ended =>
    have hdue : w.Due := by rw [← h.due_iff handle, hover]; rfl
    obtain ⟨outcome, houtcome⟩ : ∃ outcome, armed.outcome = some outcome := by
      unfold Armed.outcome
      unfold Armed.ended_at at hover
      by_cases hupgrading : armed.upgrading
      · exact ⟨_, if_pos hupgrading⟩
      · rw [if_neg hupgrading] at hover ⊢
        cases hfinished : armed.finished with
        | none => rw [hfinished] at hover; cases hover
        | some finished => exact ⟨_, rfl⟩
    obtain ⟨store', hwatch, hacc', horderly⟩ :=
      hacc.step (.commit i (armed.entry handle ended head outcome))
    set entry := armed.entry handle ended head outcome p.request.finish p.response.finish
      with hentry
    refine ⟨{ w with
      armed := some { armed with pending := none, answer := .Nothing, request := none }
      store := store'
      committed := [entry] }, ?_, ⟨hacc', by simp, ?_, fun _ => hhook⟩, ?_⟩
    · simp only [World.commits, Armed.try_commit, h.pending, hover, hrequest, hp, houtcome, hwatch,
        Option.join_some, Option.bind_eq_bind, Option.bind_some, Option.pure_def, h.committed,
        List.nil_append, hentry]
    · rintro armed' ⟨rfl⟩
      exact .inr ⟨rfl, rfl, hdue, _, rfl⟩
    · rintro entry' ⟨rfl⟩
      refine ⟨⟨hleft, ?_, ?_, fun hmarked => ?_, fun hmarked => ?_⟩, ?_⟩
      · have hanswer := h.answer
        change armed.response = w.told
        unfold Armed.response
        generalize armed.answer = answer at hanswer
        cases hanswer <;> simp only [*]
      · obtain ⟨g', hg', -, hresponse⟩ := hacc.bodies i p hp
        obtain rfl : g' = g := Option.some_inj.1 (hg'.symm.trans hg)
        rw [← hhanded]
        exact hresponse.bodyOf
      · unfold Armed.outcome at houtcome
        rw [h.upgrading, hmarked] at houtcome
        exact (Option.some_inj.1 houtcome).symm
      · unfold Armed.outcome at houtcome
        rw [h.upgrading, hmarked] at houtcome
        rw [← h.finished, Option.map_map]
        exact houtcome
      · have hlog := horderly.committed i _ p rfl hp
        rwa [Entry.owned_eq] at hlog

/-- Nothing more is stored. -/
theorem World.commits_none (hnone : armed.pending = none) (handle : Record) :
    w.commits limits armed handle = some { w with armed := some armed } := by
  simp only [World.commits, Armed.try_commit, hnone, Option.bind_eq_bind, Option.bind_some,
    Option.pure_def, List.append_nil]

/-! ### One event -/

/-- What came of an event: it succeeded, and what every run keeps is kept. -/
def Follows (limits : Limits) (w : World) (event : Event) : Prop :=
  ∃ w', w.step limits event = some w' ∧ Next limits w w'

theorem Inv.next_self (h : Inv limits w) : Next limits w w where
  inv := h
  kept _ := rfl
  entry entry hnone hentry := by rw [hnone] at hentry; cases hentry

/-- An event that is nothing. -/
theorem Inv.nothing (h : Inv limits w) {event : Event} (hstep : w.step limits event = some w) :
    Follows limits w event := ⟨w, hstep, h.next_self⟩

/-- An event that leaves the store and what is committed as they are. -/
theorem Next.quiet {w' : World} (hinv : Inv limits w') (hcommitted : w'.committed = w.committed) :
    Next limits w w' where
  inv := hinv
  kept _ := hcommitted
  entry entry hnone hentry := by rw [hcommitted, hnone] at hentry; cases hentry

/-- An event that ends in storing what is due, of an entry that is not stored yet. -/
theorem Live.next {v : World} (h : Live v armed i) (hacc : Accounts limits v.store)
    (hhook : v.outcome = none → v.hook = true) (handle : Record) (hlog : v.store.log = w.store.log)
    (hnone : w.committed = []) :
    ∃ w', v.commits limits armed handle = some w' ∧ Next limits w w' := by
  obtain ⟨w', hcommits, hinv, hentry⟩ := h.commits hacc hhook handle
  rw [hlog] at hentry
  exact ⟨w', hcommits, hinv, fun hne => absurd hnone hne, fun entry _ => hentry entry⟩

/-- An event that ends in storing what is due, where the entry is stored. -/
theorem Stored.next {v : World} (h : Stored v armed) (hacc : Accounts limits v.store)
    (hhook : v.outcome = none → v.hook = true) (handle : Record)
    (hcommitted : v.committed = w.committed) :
    ∃ w', v.commits limits armed handle = some w' ∧ Next limits w w' := by
  refine ⟨_, World.commits_none h.pending handle, .quiet ⟨hacc, by simp, ?_, fun _ => hhook⟩
    hcommitted⟩
  rintro armed' ⟨rfl⟩
  exact .inr ⟨h.pending, h.answer, h.due, h.committed⟩

/-- The callback, of an entry that is not stored yet. -/
theorem World.finished_next (v : World) (armed : Armed) {outcome : SessionOutcome}
    (hpending : armed.pending = some i)
    (hcoming : ∃ (p : Pending) (g : List UInt8 × List UInt8),
      v.store.system.pendings[i]? = some (some p) ∧ v.store.given[i]? = some g ∧ g.2 = v.handed)
    (hrequest : ∃ head, armed.request = some head ∧ v.left = some head)
    (hupgrading : armed.upgrading = v.marked) (houtcome : v.outcome = some outcome)
    (hanswer : AnswerOf v armed.answer) (hhasty : v.hasty = false) (hcommitted : v.committed = [])
    (hacc : Accounts limits v.store) (handle : Record) (hlog : v.store.log = w.store.log)
    (hnone : w.committed = []) :
    ∃ w', v.finished limits armed outcome handle = some w' ∧ Next limits w w' := by
  have hlive : Live
      { v with hasty := v.hasty || decide (outcome = .Rejected .Drop ∧ armed.answer = .Waiting) }
      { armed with
        finished := some (handle.elapsed, outcome)
        answer := if outcome = .Rejected .Drop ∧ armed.answer = .Waiting then .Nothing
          else armed.answer } i := by
    refine ⟨hpending, hcoming, hrequest, hupgrading, houtcome.symm, ?_, ?_, hcommitted⟩
    · intro _
      change v.outcome.isSome
      rw [houtcome]
      rfl
    by_cases hearly : outcome = .Rejected .Drop ∧ armed.answer = .Waiting
    · simp only [hearly, hhasty, and_self, if_true, decide_true, Bool.or_true]
      rw [hearly.2] at hanswer
      cases hanswer with
      | waiting slot body told hasty => exact .hasty slot body told rfl
    · simp only [hearly, if_false, decide_false, Bool.or_false]
      exact hanswer
  refine hlive.next hacc (fun hnone => ?_) handle hlog hnone
  exact absurd (houtcome.symm.trans hnone) (by simp)

theorem World.not_due_hasty (h : ¬ w.Due) : w.hasty = false := by
  by_contra hhasty
  exact h (.inr (.inr (Bool.not_eq_false _ |>.mp hhasty)))

theorem Inv.finish (h : Inv limits w) (outcome : SessionOutcome) (handle : Record) :
    Follows limits w (.finish outcome handle) := by
  by_cases houtcome : w.outcome.isSome
  · exact h.nothing (if_pos houtcome)
  have hnone : w.outcome = none := Option.not_isSome_iff_eq_none.1 houtcome
  cases harmed : w.armed with
  | none =>
    refine ⟨{ w with outcome := some outcome }, ?_, .quiet ⟨h.accounts, h.unarmed, ?_, ?_⟩ rfl⟩
    · simp only [World.step, World.finish, hnone, harmed]
      simp
    · intro armed harmed'
      exact absurd (harmed'.symm.trans harmed) (by simp)
    · intro hsome
      exact absurd hsome (by simp [harmed])
  | some armed =>
    have hhook := h.hook (by simp [harmed]) hnone
    have hstep : w.step limits (.finish outcome handle) =
        World.finished limits { w with outcome := some outcome, hook := false } armed outcome
          handle := by
      simp only [World.step, World.finish, hnone, harmed, hhook]
      simp
    rw [Follows, hstep]
    rcases h.armed armed harmed with ⟨i, hlive, hdue⟩ | hstored
    · exact World.finished_next { w with outcome := some outcome, hook := false } armed
        hlive.pending hlive.coming hlive.request hlive.upgrading rfl
        (hlive.answer.congr rfl rfl rfl rfl rfl) (show w.hasty = false from
          World.not_due_hasty hdue) hlive.committed
        h.accounts handle rfl hlive.committed
    · have hstored' : Stored
          { w with
            outcome := some outcome
            hook := false
            hasty := w.hasty || decide (outcome = .Rejected .Drop ∧ armed.answer = .Waiting) }
          { armed with
            finished := some (handle.elapsed, outcome)
            answer := if outcome = .Rejected .Drop ∧ armed.answer = .Waiting then .Nothing
              else armed.answer } := by
        refine ⟨hstored.pending, by simp [hstored.answer], ?_, hstored.committed⟩
        rcases hstored.due with ⟨-, hover⟩ | hmarked | hhasty
        · exact .inl ⟨rfl, hover⟩
        · exact .inr (.inl hmarked)
        · exact .inr (.inr (by simp [hhasty]))
      exact hstored'.next h.accounts (by simp) handle rfl

theorem Inv.arm (h : Inv limits w) (session : Option Str) (started : ℤ) (head : Head)
    (handle : Record) : Follows limits w (.arm session started head handle) := by
  by_cases hslot : w.slot = true
  swap
  · exact h.nothing (if_neg hslot)
  have hstep : w.step limits (.arm session started head handle) =
      w.arm limits session started head handle := if_pos hslot
  cases session with
  | none => exact h.nothing hstep
  | some session =>
    cases harmed : w.armed with
    | some armed =>
      refine h.nothing (hstep.trans ?_)
      simp only [World.arm, harmed]
    | none =>
      obtain ⟨hcommitted, hhasty, hmarked, hbody⟩ := h.unarmed harmed
      obtain ⟨hbody, htold, hhanded⟩ := hbody hslot
      obtain ⟨store, hwatch, hacc, -⟩ := h.accounts.step .begin
      rw [watch_begin] at hwatch
      obtain rfl := Option.some_inj.1 hwatch
      have hcoming : ∃ (p : Pending) (g : List UInt8 × List UInt8),
          (w.store.system.pendings ++ [some .new])[w.store.system.pendings.length]? =
            some (some p) ∧
          (w.store.given ++ [([], [])])[w.store.system.pendings.length]? = some g ∧
          g.2 = w.handed := by
        refine ⟨.new, ([], []), List.getElem?_concat_length, ?_, hhanded.symm⟩
        rw [← h.accounts.length]
        exact List.getElem?_concat_length
      rw [Follows, hstep]
      simp only [World.arm, harmed, watch_begin, Option.bind_eq_bind, Option.bind_some]
      cases houtcome : w.outcome with
      | some outcome =>
        exact World.finished_next
          { w with
            store := ⟨⟨w.store.system.inner, w.store.system.pendings ++ [some .new]⟩,
              w.store.given ++ [([], [])], w.store.log⟩
            outcome := some outcome
            armed := some (.new session started head w.store.system.pendings.length)
            left := some head }
          (.new session started head w.store.system.pendings.length) rfl hcoming ⟨head, rfl, rfl⟩
          hmarked.symm rfl (.waiting hslot hbody htold hhasty) hhasty
          hcommitted hacc handle rfl hcommitted
      | none =>
        refine ⟨_, rfl, .quiet ⟨hacc, by simp, ?_, fun _ _ => rfl⟩ rfl⟩
        rintro armed ⟨rfl⟩
        refine .inl ⟨_, ⟨rfl, hcoming, ⟨head, rfl, rfl⟩, hmarked.symm, rfl, ?_,
          .waiting hslot hbody htold hhasty, hcommitted⟩, ?_⟩
        · intro hhasty'
          exact absurd (hhasty'.symm.trans hhasty) (by simp)
        · rintro (⟨hended, -⟩ | ⟨-, hgone⟩ | hhasty')
          · exact absurd hended (by simp)
          · exact absurd (hgone.symm.trans hslot) (by simp)
          · exact absurd (hhasty'.symm.trans hhasty) (by simp)

/-- While the slot is there, an entry that is due was due at the end of its record. -/
theorem World.Due.hasty_of_slot (h : w.Due) (hslot : w.slot = true) : w.hasty = true := by
  rcases h with ⟨-, hgone, -⟩ | ⟨-, hgone⟩ | hhasty
  · exact absurd (hgone.symm.trans hslot) (by simp)
  · exact absurd (hgone.symm.trans hslot) (by simp)
  · exact hhasty

/-- While the slot is there and nothing is due, the answer is awaited. -/
theorem Live.waiting (h : Live w armed i) (hslot : w.slot = true) (hdue : ¬ w.Due) :
    armed.answer = .Waiting ∧ w.body = none ∧ w.told = none := by
  have hanswer := h.answer
  generalize armed.answer = answer at hanswer
  cases hanswer with
  | waiting slot body told hasty => exact ⟨rfl, body, told⟩
  | hasty slot body told hasty => exact absurd (.inr (.inr hasty)) hdue
  | nothing slot body told => exact absurd (slot.symm.trans hslot) (by simp)
  | given head slot body told marked hasty => exact absurd (slot.symm.trans hslot) (by simp)
  | done head done slot body told => exact absurd (slot.symm.trans hslot) (by simp)
  | upgrade head done slot told marked => exact absurd (slot.symm.trans hslot) (by simp)

theorem Inv.leaving (h : Inv limits w) (head : Head) (reused : Bool) :
    Follows limits w (.leaving head reused) := by
  by_cases hslot : w.slot = true
  swap
  · exact h.nothing (congrArg some (if_neg hslot))
  refine ⟨w.leaving head reused, congrArg some (if_pos hslot), ?_⟩
  cases harmed : w.armed with
  | none =>
    simp only [World.leaving, harmed]
    exact h.next_self
  | some armed =>
    simp only [World.leaving, harmed]
    refine .quiet ⟨h.accounts, by simp, ?_, fun _ => h.hook (by simp [harmed])⟩ rfl
    rintro armed' ⟨rfl⟩
    rcases h.armed armed harmed with ⟨i, hlive, hdue⟩ | hstored
    · exact .inl ⟨i, ⟨hlive.pending, hlive.coming, ⟨head, rfl, rfl⟩, hlive.upgrading,
        hlive.finished, hlive.hasty, hlive.answer.congr rfl rfl rfl rfl rfl, hlive.committed⟩, hdue⟩
    · exact .inr ⟨hstored.pending, hstored.answer, hstored.due, hstored.committed⟩

theorem Inv.upgrading (h : Inv limits w) : Follows limits w .upgrading := by
  by_cases hslot : w.slot = true
  swap
  · exact h.nothing (congrArg some (if_neg hslot))
  refine ⟨w.upgrading, congrArg some (if_pos hslot), ?_⟩
  cases harmed : w.armed with
  | none =>
    simp only [World.upgrading, harmed]
    exact h.next_self
  | some armed =>
    simp only [World.upgrading, harmed]
    refine .quiet ⟨h.accounts, by simp, ?_, fun _ => h.hook (by simp [harmed])⟩ rfl
    rintro armed' ⟨rfl⟩
    rcases h.armed armed harmed with ⟨i, hlive, hdue⟩ | hstored
    · obtain ⟨hanswer, hbody, htold⟩ := hlive.waiting hslot hdue
      have hhasty := World.not_due_hasty hdue
      refine .inl ⟨i, ⟨hlive.pending, hlive.coming, hlive.request, rfl, hlive.finished,
        hlive.hasty, ?_, hlive.committed⟩, fun hdue' => ?_⟩
      · rw [hanswer]
        exact .waiting hslot hbody htold hhasty
      · exact absurd ((World.Due.hasty_of_slot hdue' hslot).symm.trans hhasty) (by simp)
    · exact .inr ⟨hstored.pending, hstored.answer,
        .inr (.inr (hstored.due.hasty_of_slot hslot)), hstored.committed⟩

/-- What one side was given, once `data` came for it. -/
theorem Live.chunk (h : Live w armed i) (hacc : Accounts limits w.store) (axis : Axis)
    (data : List UInt8) :
    ∃ store, watch limits w.store (.chunk i axis data) = some store ∧ Accounts limits store ∧
      ∃ (p : Pending) (g : List UInt8 × List UInt8), store.system.pendings[i]? = some (some p) ∧
        store.given[i]? = some g ∧
        g.2 = match axis with
          | .Request => w.handed
          | .Response => w.handed ++ data := by
  obtain ⟨p, g, hp, hg, hhanded⟩ := h.coming
  obtain ⟨store, hwatch, hacc', -⟩ := hacc.step (.chunk i axis data)
  obtain ⟨p', hp'⟩ := watch_chunk hwatch hp
  refine ⟨store, hwatch, hacc', p', give axis data g, hp', ?_, ?_⟩
  · rw [watch_given hwatch, gives, List.getElem?_modify_eq, hg]
    rfl
  · rw [← hhanded]
    cases axis <;> rfl

theorem Inv.request_chunk (h : Inv limits w) (data : List UInt8) :
    Follows limits w (.request_chunk data) := by
  cases hpending : w.armed.bind Armed.pending with
  | none =>
    refine h.nothing ?_
    simp only [World.step, World.chunk, hpending]
  | some i =>
    obtain ⟨armed, harmed, hi⟩ := Option.bind_eq_some_iff.1 hpending
    rcases h.armed armed harmed with ⟨j, hlive, hdue⟩ | hstored
    · obtain rfl : i = j := Option.some_inj.1 (hi.symm.trans hlive.pending)
      obtain ⟨store, hwatch, hacc, hcoming⟩ := hlive.chunk h.accounts .Request data
      refine ⟨{ w with store }, ?_, .quiet ⟨hacc, h.unarmed, ?_, h.hook⟩ rfl⟩
      · simp only [World.step, World.chunk, hpending, hwatch, Option.bind_eq_bind,
          Option.bind_some, Option.pure_def]
      · intro armed' harmed'
        obtain rfl : armed = armed' := Option.some_inj.1 (harmed.symm.trans harmed')
        exact .inl ⟨i, ⟨hlive.pending, hcoming, hlive.request, hlive.upgrading, hlive.finished,
          hlive.hasty, hlive.answer.congr rfl rfl rfl rfl rfl, hlive.committed⟩, hdue⟩
    · rw [hstored.pending] at hi
      cases hi

/-- While something is to come of the answer, its body is wrapped. -/
theorem Live.given (h : Live w armed i) (hdue : ¬ w.Due) {tapped : Bool}
    (hbody : w.body = some ⟨tapped, false⟩) :
    tapped = true ∧ w.slot = false ∧ ∃ head, armed.answer = .Given head none ∧
      w.told = some head ∧ w.marked = false := by
  have hanswer := h.answer
  generalize armed.answer = answer at hanswer
  cases hanswer with
  | waiting slot body told hasty => rw [body] at hbody; cases hbody
  | hasty slot body told hasty => rw [body] at hbody; cases hbody
  | nothing slot body told => rw [body] at hbody; cases hbody
  | given head slot body told marked hasty =>
    rw [body] at hbody
    cases hbody
    exact ⟨rfl, slot, head, rfl, told, marked⟩
  | done head done slot body told => rw [body] at hbody; cases hbody
  | upgrade head done slot told marked => exact absurd (.inr (.inl ⟨marked, slot⟩)) hdue

theorem Inv.frame (h : Inv limits w) (data : Option (List UInt8)) :
    Follows limits w (.frame data) := by
  rcases hbody : w.body with _ | ⟨tapped, _ | _⟩
  · exact h.nothing (by simp only [World.step, World.frame, hbody])
  swap
  · exact h.nothing (by simp only [World.step, World.frame, hbody])
  have hunarmed : w.armed = none → w.committed = [] ∧ w.hasty = false ∧ w.marked = false ∧
      (w.slot = true → w.body = none ∧ w.told = none ∧ w.handed ++ data.getD [] = []) := by
    intro harmed
    obtain ⟨hcommitted, hhasty, hmarked, hslot⟩ := h.unarmed harmed
    refine ⟨hcommitted, hhasty, hmarked, fun htrue => ?_⟩
    rw [(hslot htrue).1] at hbody
    cases hbody
  by_cases hlive : ∃ armed i, w.armed = some armed ∧ Live w armed i ∧ ¬ w.Due
  · obtain ⟨armed, i, harmed, hlive, hdue⟩ := hlive
    obtain ⟨rfl, hslot, head, hanswer, htold, hmarked⟩ := hlive.given hdue hbody
    cases data with
    | none =>
      refine ⟨w, ?_, h.next_self⟩
      simp only [World.step, World.frame, hbody, Option.getD_none, List.append_nil]
      rw [← hbody]
    | some data =>
      obtain ⟨store, hwatch, hacc, hcoming⟩ := hlive.chunk h.accounts .Response data
      refine ⟨{ w with store, handed := w.handed ++ data }, ?_,
        .quiet ⟨hacc, hunarmed, ?_, h.hook⟩ rfl⟩
      · simp only [World.step, World.frame, hbody, World.chunk, harmed, Option.bind_some,
          hlive.pending, hwatch, Option.bind_eq_bind, Option.pure_def, Option.getD_some]
      · intro armed' harmed'
        obtain rfl : armed = armed' := Option.some_inj.1 (harmed.symm.trans harmed')
        exact .inl ⟨i, ⟨hlive.pending, hcoming, hlive.request, hlive.upgrading, hlive.finished,
          hlive.hasty, hlive.answer.congr rfl rfl rfl rfl rfl, hlive.committed⟩, hdue⟩
  · refine ⟨{ w with handed := w.handed ++ data.getD [] }, ?_,
      .quiet ⟨h.accounts, hunarmed, fun armed harmed => ?_, h.hook⟩ rfl⟩
    · have hnone : w.armed.bind Armed.pending = none := by
        cases harmed : w.armed with
        | none => rfl
        | some armed =>
          rcases h.armed armed harmed with ⟨i, hl, hdue⟩ | hstored
          · exact absurd ⟨armed, i, harmed, hl, hdue⟩ hlive
          · exact hstored.pending
      cases tapped <;> cases data <;>
        simp only [World.step, World.frame, hbody, World.chunk, hnone]
    · rcases h.armed armed harmed with ⟨i, hl, hdue⟩ | hstored
      · exact absurd ⟨armed, i, harmed, hl, hdue⟩ hlive
      · exact .inr ⟨hstored.pending, hstored.answer, hstored.due, hstored.committed⟩

theorem Inv.done (h : Inv limits w) (handle : Record) : Follows limits w (.done handle) := by
  rcases hbody : w.body with _ | ⟨tapped, _ | _⟩
  · exact h.nothing (by simp only [World.step, World.done, hbody])
  swap
  · exact h.nothing (by simp only [World.step, World.done, hbody])
  cases harmed : w.armed with
  | none =>
    obtain ⟨hcommitted, hhasty, hmarked, hslot⟩ := h.unarmed harmed
    refine ⟨{ w with body := some ⟨tapped, true⟩ }, ?_,
      .quiet ⟨h.accounts, fun _ => ?_, ?_, ?_⟩ rfl⟩
    · cases tapped <;> simp only [World.step, World.done, hbody, harmed]
    · refine ⟨hcommitted, hhasty, hmarked, fun htrue => ?_⟩
      rw [(hslot htrue).1] at hbody
      cases hbody
    · intro armed harmed'
      exact absurd (harmed'.symm.trans harmed) (by simp)
    · intro hsome
      exact absurd hsome (by simp [harmed])
  | some armed =>
    have hhook := h.hook (by simp [harmed])
    rcases h.armed armed harmed with ⟨i, hlive, hdue⟩ | hstored
    · obtain ⟨rfl, hslot, head, hanswer, htold, hmarked⟩ := hlive.given hdue hbody
      have hlive' : Live { w with body := some ⟨true, true⟩ }
          { armed with answer := .Given head (some handle.elapsed) } i :=
        ⟨hlive.pending, hlive.coming, hlive.request, hlive.upgrading, hlive.finished, hlive.hasty,
          .done head _ hslot rfl htold, hlive.committed⟩
      obtain ⟨w', hcommits, hnext⟩ :=
        hlive'.next (w := w) h.accounts hhook handle rfl hlive.committed
      refine ⟨w', ?_, hnext⟩
      simp only [World.step, World.done, hbody, harmed, hanswer]
      exact hcommits
    · have hdue : World.Due { w with body := some ⟨tapped, true⟩ } := by
        rcases hstored.due with ⟨hended, hgone, -⟩ | hmarked | hhasty
        · refine .inl ⟨hended, hgone, ?_⟩
          rintro body ⟨rfl⟩
          rfl
        · exact .inr (.inl hmarked)
        · exact .inr (.inr hhasty)
      have hstored' : Stored { w with body := some ⟨tapped, true⟩ } armed :=
        ⟨hstored.pending, hstored.answer, hdue, hstored.committed⟩
      cases tapped with
      | false =>
        refine ⟨{ w with body := some ⟨false, true⟩ }, ?_,
          .quiet ⟨h.accounts, ?_, fun armed' harmed' => ?_, h.hook⟩ rfl⟩
        · simp only [World.step, World.done, hbody]
        · intro hnone
          exact absurd (hnone.symm.trans harmed) (by simp)
        · obtain rfl : armed = armed' := Option.some_inj.1 (harmed.symm.trans harmed')
          exact .inr hstored'
      | true =>
        obtain ⟨w', hcommits, hnext⟩ := hstored'.next (w := w) h.accounts hhook handle rfl
        refine ⟨w', ?_, hnext⟩
        simp only [World.step, World.done, hbody, harmed, hstored.answer]
        rw [← hstored.answer]
        exact hcommits

theorem Inv.other (h : Inv limits w) (a : Action) : Follows limits w (.other a) := by
  by_cases hown : a.body.isSome ∧ a.body = w.armed.bind Armed.pending
  · exact h.nothing (if_pos hown)
  obtain ⟨store, hwatch, hacc, horderly⟩ := h.accounts.step a
  refine ⟨{ w with store }, ?_, .quiet ⟨hacc, h.unarmed, fun armed harmed => ?_, h.hook⟩ rfl⟩
  · simp only [World.step, World.other, if_neg hown, hwatch, Option.bind_eq_bind,
      Option.bind_some, Option.pure_def]
  · rcases h.armed armed harmed with ⟨i, hlive, hdue⟩ | hstored
    · obtain ⟨p, g, hp, hg, hhanded⟩ := hlive.coming
      have hother : a.body ≠ some i := by
        intro hbody
        refine hown ⟨by rw [hbody]; rfl, ?_⟩
        rw [hbody, harmed]
        exact hlive.pending.symm
      refine .inl ⟨i, ⟨hlive.pending, ⟨p, g, horderly.others i p hother hp, ?_, hhanded⟩,
        hlive.request, hlive.upgrading, hlive.finished, hlive.hasty,
        hlive.answer.congr rfl rfl rfl rfl rfl, hlive.committed⟩, hdue⟩
      change store.given[i]? = some g
      rw [watch_given hwatch]
      exact gives_other hother hg
    · exact .inr ⟨hstored.pending, hstored.answer, hstored.due, hstored.committed⟩

/-- A slot that went already goes for nothing. -/
theorem Inv.drop_settled (h : Inv limits w) (hslot : w.slot = false) (handle : Record) :
    w.drop limits handle = some w := by
  have hself : { w with slot := false } = w := by rw [← hslot]
  unfold World.drop
  rw [hself]
  cases harmed : w.armed with
  | none => simp only [harmed]
  | some armed =>
    have hanswer : armed.answer ≠ .Waiting := by
      rcases h.armed armed harmed with ⟨i, hlive, -⟩ | hstored
      · have hanswer := hlive.answer
        rintro heq
        rw [heq] at hanswer
        cases hanswer with
        | waiting slot body told hasty => exact absurd (slot.symm.trans hslot) (by simp)
      · rw [hstored.answer]
        simp
    simp only [harmed, if_neg hanswer]
    change w.commits limits armed handle = some w
    have hsame : { w with armed := some armed } = w := by rw [← harmed]
    rcases h.armed armed harmed with ⟨i, hlive, hdue⟩ | hstored
    · have hnone : (armed.ended_at handle).bind armed.over_at = none := by
        rw [← Option.not_isSome_iff_eq_none, hlive.due_iff handle]
        exact hdue
      simp only [World.commits, Armed.try_commit, hlive.pending, hnone, Option.bind_eq_bind,
        Option.bind_some, Option.pure_def, List.append_nil, hsame]
    · rw [World.commits_none hstored.pending, hsame]

theorem World.commits_slot {w' : World} {handle : Record}
    (h : w.commits limits armed handle = some w') : w'.slot = w.slot := by
  unfold World.commits at h
  obtain ⟨_, -, h⟩ := Option.bind_eq_some_iff.1 h
  cases h
  rfl

/-- What the slot does with the answer before it goes. -/
theorem Inv.answer (h : Inv limits w) (hslot : w.slot = true) (result : Option ResponseHead)
    (h2 : Bool) (handle : Record) :
    ∃ w', World.answer limits { w with slot := false } result h2 handle = some w' ∧
      w'.slot = false ∧ Next limits w w' := by
  cases harmed : w.armed with
  | none =>
    obtain ⟨hcommitted, hhasty, hmarked, -⟩ := h.unarmed harmed
    have hnext : ∀ body told, Next limits w { w with slot := false, body, told } := by
      refine fun body told => .quiet ⟨h.accounts, fun _ => ?_, ?_, h.hook⟩ rfl
      · exact ⟨hcommitted, hhasty, hmarked, by simp⟩
      · intro armed harmed'
        exact absurd (harmed'.symm.trans harmed) (by simp)
    cases result with
    | none => exact ⟨_, by simp only [World.answer, harmed], rfl, hnext w.body w.told⟩
    | some resp =>
      exact ⟨_, by simp only [World.answer, harmed], rfl, hnext (some ⟨false, false⟩) (some resp)⟩
  | some armed =>
    have hhook := h.hook (by simp [harmed])
    rcases h.armed armed harmed with ⟨i, hlive, hdue⟩ | hstored
    · obtain ⟨hanswer, hbody, htold⟩ := hlive.waiting hslot hdue
      have hhasty := World.not_due_hasty hdue
      cases result with
      | none =>
        have hlive' : Live { w with slot := false } { armed with answer := .Nothing } i :=
          ⟨hlive.pending, hlive.coming, hlive.request, hlive.upgrading, hlive.finished,
            hlive.hasty, .nothing rfl hbody htold, hlive.committed⟩
        obtain ⟨w', hcommits, hnext⟩ :=
          hlive'.next (w := w) h.accounts hhook handle rfl hlive.committed
        refine ⟨w', ?_, World.commits_slot hcommits, hnext⟩
        simp only [World.answer]
        exact hcommits
      | some resp =>
        have hpending : armed.pending ≠ none := by simp [hlive.pending]
        by_cases hupgrading : armed.upgrading = true
        · have hlive' : Live
              { w with
                slot := false
                told := some { resp with version := if h2 then .HTTP_2 else resp.version }
                body := some ⟨false, false⟩ }
              { armed with
                answer := .Given { resp with version := if h2 then .HTTP_2 else resp.version }
                  (some handle.elapsed) } i :=
            ⟨hlive.pending, hlive.coming, hlive.request, hlive.upgrading, hlive.finished,
              hlive.hasty, .upgrade _ _ rfl rfl (hlive.upgrading.symm.trans hupgrading),
              hlive.committed⟩
          obtain ⟨w', hcommits, hnext⟩ :=
            hlive'.next (w := w) h.accounts hhook handle rfl hlive.committed
          refine ⟨w', ?_, World.commits_slot hcommits, hnext⟩
          simp only [World.answer]
          rw [if_neg hpending, if_pos hupgrading]
          exact hcommits
        · have hmarked : w.marked = false := by
            rw [← hlive.upgrading]
            exact Bool.not_eq_true _ |>.mp hupgrading
          refine ⟨{ w with
            slot := false
            told := some { resp with version := if h2 then .HTTP_2 else resp.version }
            body := some ⟨true, false⟩
            armed := some { armed with
              answer := .Given { resp with version := if h2 then .HTTP_2 else resp.version }
                none } }, ?_, rfl, .quiet ⟨h.accounts, by simp, ?_, fun _ => hhook⟩ rfl⟩
          · simp only [World.answer]
            rw [if_neg hpending, if_neg hupgrading]
          · rintro armed' ⟨rfl⟩
            refine .inl ⟨i, ⟨hlive.pending, hlive.coming, hlive.request, hlive.upgrading,
              hlive.finished, hlive.hasty, .given _ rfl rfl rfl hmarked hhasty,
              hlive.committed⟩, ?_⟩
            rintro (⟨-, -, hdone⟩ | ⟨hmarked', -⟩ | hhasty')
            · exact absurd (hdone _ rfl) (by simp)
            · exact absurd (hmarked'.symm.trans hmarked) (by simp)
            · exact absurd (hhasty'.symm.trans hhasty) (by simp)
    · have hhasty := hstored.due.hasty_of_slot hslot
      cases result with
      | none =>
        have hstored' : Stored { w with slot := false } { armed with answer := .Nothing } :=
          ⟨hstored.pending, rfl, .inr (.inr hhasty), hstored.committed⟩
        obtain ⟨w', hcommits, hnext⟩ := hstored'.next (w := w) h.accounts hhook handle rfl
        refine ⟨w', ?_, World.commits_slot hcommits, hnext⟩
        simp only [World.answer]
        exact hcommits
      | some resp =>
        refine ⟨{ w with
          slot := false
          told := some { resp with version := if h2 then .HTTP_2 else resp.version }
          body := some ⟨false, false⟩ }, ?_, rfl, .quiet ⟨h.accounts, fun hnone => ?_,
            fun armed' harmed' => ?_, h.hook⟩ rfl⟩
        · simp only [World.answer, harmed, hstored.pending, if_true]
        · exact absurd (hnone.symm.trans harmed) (by simp)
        · obtain rfl : armed = armed' := Option.some_inj.1 (harmed.symm.trans harmed')
          exact .inr ⟨hstored.pending, hstored.answer, .inr (.inr hhasty), hstored.committed⟩

theorem Inv.answered (h : Inv limits w) (result : Option ResponseHead) (h2 : Bool)
    (handle : Record) : Follows limits w (.answered result h2 handle) := by
  by_cases hslot : w.slot = true
  swap
  · exact h.nothing (if_neg hslot)
  obtain ⟨w', hanswer, hgone, hnext⟩ := h.answer hslot result h2 handle
  refine ⟨w', ?_, hnext⟩
  simp only [World.step, hslot, if_true, hanswer, Option.bind_eq_bind, Option.bind_some]
  exact hnext.inv.drop_settled hgone handle

theorem Inv.dropped (h : Inv limits w) (handle : Record) : Follows limits w (.dropped handle) := by
  by_cases hslot : w.slot = true
  swap
  · exact h.nothing (if_neg hslot)
  have hstep : w.step limits (.dropped handle) = w.drop limits handle := if_pos hslot
  rw [Follows, hstep]
  cases harmed : w.armed with
  | none =>
    obtain ⟨hcommitted, hhasty, hmarked, -⟩ := h.unarmed harmed
    refine ⟨{ w with slot := false }, by simp only [World.drop, harmed],
      .quiet ⟨h.accounts, fun _ => ⟨hcommitted, hhasty, hmarked, by simp⟩, ?_, h.hook⟩ rfl⟩
    intro armed harmed'
    exact absurd (harmed'.symm.trans harmed) (by simp)
  | some armed =>
    have hhook := h.hook (by simp [harmed])
    simp only [World.drop, harmed]
    rcases h.armed armed harmed with ⟨i, hlive, hdue⟩ | hstored
    · obtain ⟨hanswer, hbody, htold⟩ := hlive.waiting hslot hdue
      simp only [hanswer, if_true]
      have hlive' : Live { w with slot := false } { armed with answer := .Nothing } i :=
        ⟨hlive.pending, hlive.coming, hlive.request, hlive.upgrading, hlive.finished,
          hlive.hasty, .nothing rfl hbody htold, hlive.committed⟩
      exact hlive'.next h.accounts hhook handle rfl hlive.committed
    · have hstored' : Stored { w with slot := false } { armed with answer := .Nothing } :=
        ⟨hstored.pending, rfl, .inr (.inr (hstored.due.hasty_of_slot hslot)), hstored.committed⟩
      simp only [hstored.answer, reduceCtorEq, if_false]
      exact hstored'.next h.accounts hhook handle rfl

/-! ### Whole runs -/

theorem inv_new (limits : Limits) : Inv limits .new where
  accounts := accounts_empty limits
  unarmed _ := ⟨rfl, rfl, rfl, fun _ => ⟨rfl, rfl, rfl⟩⟩
  armed armed h := by cases h
  hook h := by cases h

/-- **One event** keeps what every run keeps. -/
theorem Inv.step (h : Inv limits w) (event : Event) : Follows limits w event := by
  cases event with
  | finish outcome handle => exact h.finish outcome handle
  | arm session started head handle => exact h.arm session started head handle
  | leaving head reused => exact h.leaving head reused
  | request_chunk data => exact h.request_chunk data
  | upgrading => exact h.upgrading
  | answered result h2 handle => exact h.answered result h2 handle
  | dropped handle => exact h.dropped handle
  | frame data => exact h.frame data
  | done handle => exact h.done handle
  | other a => exact h.other a

theorem World.run_concat (limits : Limits) (events : List Event) (event : Event) :
    run limits (events ++ [event]) = (run limits events).bind fun w => w.step limits event := by
  unfold run
  rw [List.foldlM_append]
  cases events.foldlM (World.step limits) .new <;> simp

theorem inv_run (limits : Limits) (events : List Event) :
    ∃ w, World.run limits events = some w ∧ Inv limits w := by
  induction events using List.reverseRecOn with
  | nil => exact ⟨.new, rfl, inv_new limits⟩
  | append_singleton events event ih =>
    obtain ⟨w, hrun, hinv⟩ := ih
    obtain ⟨w', hstep, hnext⟩ := hinv.step event
    exact ⟨w', by rw [World.run_concat, hrun, Option.bind_some, hstep], hnext.inv⟩

/-- An armed request's entry is stored exactly when it is due. -/
theorem Inv.committed_iff (h : Inv limits w) (harmed : w.armed.isSome) :
    w.committed ≠ [] ↔ w.Due := by
  obtain ⟨armed, harmed⟩ := Option.isSome_iff_exists.1 harmed
  rcases h.armed armed harmed with ⟨i, hlive, hdue⟩ | hstored
  · exact iff_of_false (fun hne => hne hlive.committed) hdue
  · obtain ⟨entry, hentry⟩ := hstored.committed
    exact iff_of_true (by simp [hentry]) hstored.due

theorem Inv.committed_le (h : Inv limits w) : w.committed.length ≤ 1 := by
  cases harmed : w.armed with
  | none => simp [(h.unarmed harmed).1]
  | some armed =>
    rcases h.armed armed harmed with ⟨i, hlive, -⟩ | hstored
    · simp [hlive.committed]
    · obtain ⟨entry, hentry⟩ := hstored.committed
      simp [hentry]

/-- **A captured request is stored once.** Whatever order things happen in, an armed request's entry
is committed once at most, and it is exactly when the record has ended and the answer is over, or an
upgrade was answered, refused or let go, or the record ended as dropped while the answer was
awaited; and as it is committed, its head is the one the request last left with, its answer what the
client was told, and its response body the frames handed on. -/
theorem stored_once (limits : Limits) (events : List Event) :
    ∃ w, World.run limits events = some w ∧ w.committed.length ≤ 1 ∧
      (w.armed.isSome → (w.committed ≠ [] ↔ w.Due)) ∧
      ∀ event, ∃ w', World.run limits (events ++ [event]) = some w' ∧
        (w.committed ≠ [] → w'.committed = w.committed) ∧
        ∀ entry, w.committed = [] → w'.committed = [entry] → EntryOf limits w' entry ∧
          (w'.store.log = w.store.log ∨ w'.store.log = w.store.log ++ [entry]) := by
  obtain ⟨w, hrun, hinv⟩ := inv_run limits events
  refine ⟨w, hrun, hinv.committed_le, hinv.committed_iff, fun event => ?_⟩
  obtain ⟨w', hstep, hnext⟩ := hinv.step event
  refine ⟨w', ?_, hnext.kept, hnext.entry⟩
  rw [World.run_concat, hrun, Option.bind_some, hstep]

/-- A request dropped by a rule, whose record ends while the answer is held back: its entry is
stored then, although the answer comes later and its body is not over. -/
theorem stored_before_answered :
    let record : Record := ⟨5, none, none, none, none, 1, none, none, [], []⟩
    let dropped : List Event := [
      .arm (some ['t']) 0 ⟨['G', 'E', 'T'], ['h', ':', '/'], .HTTP_11, []⟩ record,
      .finish (.Rejected .Drop) record]
    ∃ w w', World.run ⟨100000, 1000⟩ dropped = some w ∧
      World.run ⟨100000, 1000⟩ (dropped ++ [.answered (some ⟨200, .HTTP_11, []⟩) false record]) =
        some w' ∧
      (w.committed.length = 1 ∧ w.slot = true ∧ w.marked = false) ∧
      w'.committed.map Entry.response = [none] ∧ w'.told.isSome = true ∧
      w'.body = some ⟨false, false⟩ :=
  ⟨_, _, rfl, rfl, ⟨rfl, rfl, rfl⟩, rfl, rfl, rfl⟩

end Capture

end Rurge
