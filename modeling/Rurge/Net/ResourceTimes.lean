import Rurge.Net.Resource
import Mathlib

/-!
# When a resource is refreshed

The interval is the least positive one asked for.  The task sleeps by the interval and the copy that
it saw as it fell asleep, and nothing wakes it for another of either.  So it sleeps no longer than
the interval then in force as long as none shorter is asked for meanwhile, and begins no attempt
early as long as none longer is asked for and no copy adopted meanwhile.
-/

namespace Rurge

namespace Resource

open Runs

variable {opts : Options} {digest_of : Body → Str} {w : World}

/-! ### The interval -/

/-- The interval is the one asked for by all. -/
structure Follows (asked : List ℤ) (i : ℤ) : Prop where
  unwritten : asked = [] → i = DEFAULT_UPDATE_INTERVAL
  least : ∀ n ∈ asked, 0 < n → 0 < i ∧ i ≤ n ∧ i ∈ asked
  off : asked ≠ [] → (∀ n ∈ asked, n < 0) → i < 0

/-- What the intervals asked for are merged into. -/
structure Merged (asked : List ℤ) (interval : Option ℤ) : Prop where
  written : ∀ n ∈ asked, n ≠ 0
  none : interval = none ↔ asked = []
  mem : ∀ c, interval = some c → c ∈ asked
  least : ∀ c, interval = some c → ∀ n ∈ asked, 0 < n → 0 < c ∧ c ≤ n

theorem Merged.follows {asked : List ℤ} {interval : Option ℤ} (h : Merged asked interval) :
    Follows asked (interval.getD DEFAULT_UPDATE_INTERVAL) := by
  cases interval with
  | none =>
    have hnil := h.none.1 rfl
    exact ⟨fun _ => rfl, by simp [hnil], fun hne => absurd hnil hne⟩
  | some c =>
    have hne : asked ≠ [] := fun hnil => by simpa using h.none.2 hnil
    refine ⟨fun hnil => absurd hnil hne, fun n hn hpos => ?_, fun _ hoff => hoff c (h.mem c rfl)⟩
    obtain ⟨hc, hle⟩ := h.least c rfl n hn hpos
    exact ⟨hc, hle, h.mem c rfl⟩

/-- One more who asks. -/
theorem Merged.merge {asked : List ℤ} {interval : Option ℤ} (h : Merged asked interval)
    {new : Option ℤ} (hnew : ∀ n, new = some n → n ≠ 0) :
    Merged (asked ++ new.toList) (merge_interval interval new) := by
  cases new with
  | none => cases interval <;> simpa [merge_interval] using h
  | some n =>
    have hn := hnew n rfl
    have hwritten : ∀ m ∈ asked ++ [n], m ≠ 0 := by
      intro m hm
      rcases List.mem_append.1 hm with hm | hm
      · exact h.written m hm
      · exact List.mem_singleton.1 hm ▸ hn
    cases interval with
    | none =>
      have hnil := h.none.1 rfl
      subst hnil
      exact ⟨hwritten, by simp [merge_interval], by simp [merge_interval],
        by simp [merge_interval]⟩
    | some c =>
      have hc := h.mem c rfl
      have hc0 := h.written c hc
      have hless := h.least c rfl
      refine ⟨hwritten, by simp [merge_interval], fun m hm => ?_, fun m hm k hk hpos => ?_⟩
      · simp only [merge_interval, Option.some.injEq] at hm
        rw [List.mem_append]
        simp only [Option.toList_some, List.mem_singleton]
        split_ifs at hm with h1 h2
        · exact .inr hm.symm
        · exact .inl (hm ▸ hc)
        · rcases min_choice c n with heq | heq
          · exact .inl (by rwa [← hm, heq])
          · exact .inr (hm.symm.trans heq)
      · simp only [merge_interval, Option.some.injEq] at hm
        have hcases : (0 < k → 0 < c ∧ c ≤ k) ∨ k = n := by
          rcases List.mem_append.1 hk with hk | hk
          · exact .inl (hless k hk)
          · exact .inr (by simpa using hk)
        split_ifs at hm with h1 h2
        · rcases hcases with hcases | hcases
          · have := hcases hpos
            omega
          · omega
        · rcases hcases with hcases | hcases
          · have := hcases hpos
            omega
          · omega
        · rcases hcases with hcases | hcases
          · have := hcases hpos
            omega
          · omega

/-! ### What the steps leave alone -/

theorem interval_record_attempt (e : Entry) (now : ℕ) (intact : Bool) (written : Option Str)
    (outcome : Outcome) :
    (record_attempt digest_of e now intact written outcome).1.interval = e.interval := by
  have hsame : ∀ validators,
      (record_same digest_of e now validators intact written).1.interval = e.interval := by
    intro validators
    unfold record_same
    cases e.state.data with
    | none => rfl
    | some held =>
      obtain ⟨data, version⟩ := held
      cases written with
      | none => rfl
      | some error => cases hcheck : e.check <;> simp [wrote, hcheck, failed_attempt]
  cases outcome with
  | Same validators => exact hsame validators
  | New data etag last_modified =>
    unfold record_attempt
    dsimp only
    split
    · exact hsame _
    · unfold record_new
      cases written with
      | none => rfl
      | some error => cases hcheck : e.check <;> simp [wrote, hcheck, failed_attempt]
  | Failed reason => rfl

/-- Only a registration says anything of the interval. -/
theorem interval_step {a : Action} (ha : ∀ interval check, a ≠ .register interval check) :
    (w.step opts digest_of a).entry.interval = w.entry.interval ∧
      (w.step opts digest_of a).asked_for = w.asked_for := by
  cases a with
  | tick d => exact ⟨rfl, rfl⟩
  | register interval check => exact absurd rfl (ha interval check)
  | ask =>
    simp only [World.step, World.ask]
    split <;> exact ⟨rfl, rfl⟩
  | adopt data ago written =>
    simp only [World.step, World.adopt]
    split_ifs <;> exact ⟨rfl, rfl⟩
  | adopted =>
    simp only [World.step, World.adopted]
    split <;> exact ⟨rfl, rfl⟩
  | retire =>
    simp only [World.step, World.retire]
    split <;> exact ⟨rfl, rfl⟩
  | go => exact ⟨rfl, rfl⟩
  | start loaded =>
    have hload : (w.entry.load w.now loaded).interval = w.entry.interval := by
      unfold Entry.load
      split <;> rfl
    have hunreached : ((w.entry.load w.now loaded).unreached opts w.now).interval =
        (w.entry.load w.now loaded).interval := by
      unfold Entry.unreached
      split <;> rfl
    simp only [World.step, World.start]
    split
    · by_cases hlock : w.adopting.isSome = true
      · rw [if_pos hlock]
        exact ⟨rfl, rfl⟩
      · rw [if_neg hlock]
        exact ⟨hunreached.trans hload, rfl⟩
    · exact ⟨rfl, rfl⟩
  | look =>
    simp only [World.step, World.look]
    split
    · split <;> exact ⟨rfl, rfl⟩
    · exact ⟨rfl, rfl⟩
  | sleep seed =>
    simp only [World.step, World.sleep]
    split <;> exact ⟨rfl, rfl⟩
  | wake =>
    simp only [World.step, World.wake]
    split
    · split_ifs <;> exact ⟨rfl, rfl⟩
    · exact ⟨rfl, rfl⟩
  | begin_ =>
    simp only [World.step, World.begin_]
    split
    · split_ifs <;> exact ⟨rfl, rfl⟩
    · exact ⟨rfl, rfl⟩
  | answer fetched =>
    simp only [World.step, World.answer]
    split
    · split
      · exact ⟨rfl, rfl⟩
      · split_ifs <;> exact ⟨rfl, rfl⟩
      · split_ifs <;> exact ⟨rfl, rfl⟩
    · exact ⟨rfl, rfl⟩
  | check verdict =>
    simp only [World.step, World.check]
    split
    · split <;> exact ⟨rfl, rfl⟩
    · exact ⟨rfl, rfl⟩
  | record intact written =>
    simp only [World.step, World.record]
    split
    case h_1 number outcome htask =>
      split_ifs
      · exact ⟨rfl, rfl⟩
      · exact ⟨rfl, rfl⟩
      · have hrecord := @interval_record_attempt digest_of w.entry w.now intact
          written outcome
        generalize record_attempt digest_of w.entry w.now intact written outcome = recorded at *
        obtain ⟨e, result⟩ := recorded
        cases result <;> exact ⟨hrecord, rfl⟩
    · exact ⟨rfl, rfl⟩
  | stop =>
    simp only [World.step, World.cut]
    split
    · split_ifs <;> exact ⟨rfl, rfl⟩
    · split_ifs <;> exact ⟨rfl, rfl⟩
    · exact ⟨rfl, rfl⟩

/-- **The interval is the least positive one asked for.** -/
theorem merged_run (interval : Option ℤ) (check : Bool) (as : List Action) :
    Merged (run (World.step opts digest_of) (World.new interval check) as).asked_for
      (run (World.step opts digest_of) (World.new interval check) as).entry.interval := by
  have hnonzero : ∀ (interval : Option ℤ) n,
      interval.filter (fun n => decide (n ≠ 0)) = some n → n ≠ 0 := by
    intro interval n hn
    simpa using (Option.filter_eq_some_iff.1 hn).2
  refine run_invariant (I := fun w : World => Merged w.asked_for w.entry.interval) ?_ ?_ as
  · intro w a h
    by_cases ha : ∃ interval check, a = .register interval check
    · obtain ⟨interval, check, rfl⟩ := ha
      exact h.merge (hnonzero interval)
    · obtain ⟨hinterval, hasked⟩ := @interval_step opts digest_of w a fun interval check heq =>
        ha ⟨interval, check, heq⟩
      rw [hinterval, hasked]
      exact h
  · change Merged (interval.filter _).toList (interval.filter _)
    cases hinterval : interval.filter (fun n => decide (n ≠ 0)) with
    | none => exact ⟨by simp, by simp, by simp, by simp⟩
    | some n => exact ⟨by simpa using hnonzero interval n hinterval, by simp, by simp, by simp⟩

/-! ### The times -/

theorem jitter_le (d seed : ℕ) (never_early : Bool) : 10 * jitter d seed never_early ≤ 11 * d := by
  have hshare : seed % 21 ≤ 20 := Nat.le_of_lt_succ (Nat.mod_lt _ (by decide))
  have hpercent := Nat.mul_div_le d 100
  unfold jitter
  dsimp only
  split_ifs with hearly hlate
  · have hle : d / 100 * (seed % 21 / 2) ≤ d / 100 * 10 := Nat.mul_le_mul_left _ (by omega)
    omega
  · have hle : d / 100 * (seed % 21 - 10) ≤ d / 100 * 10 := Nat.mul_le_mul_left _ (by omega)
    omega
  · omega

theorem le_jitter (d seed : ℕ) : d ≤ jitter d seed true := Nat.le_add_right _ _

/-! ### What the steps do -/

/-- The copy held is as fresh as it was when it was taken. -/
def State.settled : State → Option ℕ
  | .Available _ _ fetched_at false => some fetched_at
  | _ => none

namespace World

/-- The last attempt succeeded. -/
def succeeded (w : World) : Prop :=
  1 ≤ w.entry.progress.finished ∧ w.entry.progress.last = .ok ()

/-- The next attempt does not wait for the interval. -/
def retries (w : World) : Prop := w.backoff ≠ none ∨ w.entry.state.settled = none

/-- The copy held is as old as an interval. -/
def aged (w : World) (interval : ℤ) : Prop :=
  ∀ t, w.checked = some t → 0 ≤ interval → t + seconds interval.natAbs ≤ w.now

/-- Recording fails: the attempt failed, there is nothing it confirms, or the cache was not
written. -/
def fails (w : World) (written : Option Str) (outcome : Outcome) : Prop :=
  (∃ reason, outcome = .Failed reason) ∨
    w.held = none ∧ (∃ validators, outcome = .Same validators) ∨
    written ≠ none ∧ w.entry.check = true

end World

/-- A write to the cache fails only where the readers go by the disk. -/
theorem wrote_cases (e : Entry) (written : Option Str) :
    (∃ e', wrote e written = (e', none)) ∨
      (∃ e' error, wrote e written = (e', some error)) ∧ written ≠ none ∧ e.check = true := by
  cases written with
  | none => exact .inl ⟨_, rfl⟩
  | some error =>
    cases hcheck : e.check
    · exact .inl ⟨{ e with behind := true }, by simp [wrote, hcheck]⟩
    · exact .inr ⟨⟨{ e with behind := true }, error, by simp [wrote, hcheck]⟩, by simp, rfl⟩

/-- What recording leaves behind: a copy checked now, or a failure for some reason. -/
def Leaves (now : ℕ) (r : Entry × Except Str Unit) (why : Prop) : Prop :=
  (r.2 = .ok () ∧ r.1.state.settled = some now) ∨
    (∃ reason, r.2 = .error reason) ∧ (∃ e since cached, r.1.state = .Failed e since cached) ∧ why

theorem leaves_same (e : Entry) (now : ℕ) (validators : Option (Option Str × Option Str))
    (intact : Bool) (written : Option Str) :
    Leaves now (record_same digest_of e now validators intact written)
      (e.state.data = none ∨ written ≠ none ∧ e.check = true) := by
  unfold record_same
  cases hdata : e.state.data with
  | none => exact .inr ⟨⟨_, rfl⟩, ⟨_, _, _, rfl⟩, .inl rfl⟩
  | some held =>
    rcases wrote_cases e written with ⟨e', hwrote⟩ | ⟨⟨e', error, hwrote⟩, hwhy⟩
    · simp only [hwrote]
      exact .inl ⟨rfl, rfl⟩
    · simp only [hwrote]
      exact .inr ⟨⟨_, rfl⟩, ⟨_, _, _, rfl⟩, .inr hwhy⟩

theorem leaves_new (e : Entry) (now : ℕ) (data : Body) (etag last_modified written : Option Str) :
    Leaves now (record_new digest_of e now data etag last_modified written)
      (written ≠ none ∧ e.check = true) := by
  unfold record_new
  rcases wrote_cases e written with ⟨e', hwrote⟩ | ⟨⟨e', error, hwrote⟩, hwhy⟩
  · simp only [hwrote]
    exact .inl ⟨rfl, rfl⟩
  · simp only [hwrote]
    exact .inr ⟨⟨_, rfl⟩, ⟨_, _, _, rfl⟩, hwhy⟩

/-- **What recording leaves behind.** -/
theorem leaves_attempt (w : World) (intact : Bool) (written : Option Str) (outcome : Outcome) :
    Leaves w.now (record_attempt digest_of w.entry w.now intact written outcome)
      (w.fails written outcome) := by
  have himp : ∀ {r : Entry × Except Str Unit} {p q : Prop}, (p → q) → Leaves w.now r p →
      Leaves w.now r q := fun hpq h =>
    h.imp id fun ⟨hresult, hfailed, hwhy⟩ => ⟨hresult, hfailed, hpq hwhy⟩
  cases outcome with
  | Failed reason => exact .inr ⟨⟨_, rfl⟩, ⟨_, _, _, rfl⟩, .inl ⟨_, rfl⟩⟩
  | Same validators =>
    refine himp (fun hwhy => .inr (hwhy.imp (fun hnone => ⟨?_, validators, rfl⟩) id))
      (leaves_same w.entry w.now validators intact written)
    simp [World.held, hnone]
  | New data etag last_modified =>
    unfold record_attempt
    dsimp only
    split
    case isTrue hholds =>
      refine himp (fun hwhy => .inr (.inr (hwhy.resolve_left fun hnone => ?_)))
        (leaves_same w.entry w.now _ intact written)
      simp [holds, hnone] at hholds
    case isFalse =>
      exact himp (fun hwhy => .inr (.inr hwhy))
        (leaves_new w.entry w.now data etag last_modified written)

/-! ### What holds in every state -/

namespace World

/-- The next attempt was fixed by the interval and the copy as they were. -/
def timed (w : World) : Prop :=
  match w.task with
  | .looked _ | .asleep (some _) _ _ => True
  | _ => False

/-- The next attempt is yet to be fixed, by the interval as it is then. -/
def reads_interval (w : World) : Prop :=
  match w.task with
  | .top => ¬w.retries
  | .looked interval => interval < 0 ∧ ¬w.retries
  | .asleep (some _) _ _ | .awake (some _) false => False
  | _ => True

/-- The next attempt is yet to be fixed, by the copy as it is then. -/
def reads_copy (w : World) : Prop :=
  match w.task with
  | .top | .looked _ => w.backoff = none
  | .asleep (some _) _ _ | .awake (some _) false => False
  | _ => True

end World

/-- No shorter interval is asked for while the task sleeps by the one before; and where it is never
to be early, no longer one and no adoption either, no attempt fails on a copy that is younger than
the interval, and the copy it starts from is none of the future. -/
def Heeded (opts : Options) (w : World) : Action → Prop
  | .register interval check =>
    let before := w.entry.effective_interval
    let after := (w.register interval check).entry.effective_interval
    (w.succeeded → w.timed → 0 ≤ before → before ≤ after) ∧
      (opts.never_early = true → 0 ≤ after → before < after → w.reads_interval)
  | .adopted => opts.never_early = true → w.adopting ≠ none → w.reads_copy
  | .start loaded => opts.never_early = true → ∀ data info, loaded = some (data, info) →
      info.fetched_at ≤ w.now
  | .record _ written => opts.never_early = true → ∀ number outcome,
      w.task = .answered number outcome → w.fails written outcome →
      w.aged w.entry.effective_interval
  | _ => True

/-- The task does not sleep past its time. -/
def Prompt (w : World) : Task → Prop
  | .looked interval => 0 ≤ interval → interval ≤ w.entry.effective_interval
  | .asleep due wakes fell => fell ≤ w.now ∧ (due = none → wakes = fell + seconds 60) ∧
      (due ≠ none → wakes ≤ fell ∨ 0 ≤ w.entry.effective_interval ∧ ∃ f ∈ w.checks,
        10 * wakes ≤ 10 * f + 11 * seconds w.entry.effective_interval.natAbs)
  | _ => True

/-- The task does not begin before its time. -/
def Patient (w : World) : Task → Prop
  | .unborn => w.backoff = none ∧ (w.entry.state = .Missing ∨ w.entry.state.settled ≠ none)
  | .top => w.retries → w.aged w.entry.effective_interval
  | .looked interval => (w.retries → w.aged w.entry.effective_interval) ∧
      (0 ≤ interval → 0 ≤ w.entry.effective_interval → w.entry.effective_interval ≤ interval)
  | .asleep none _ _ | .awake none false => ¬w.retries
  | .asleep (some _) wakes _ => ∀ t, w.checked = some t → 0 ≤ w.entry.effective_interval →
      t + seconds w.entry.effective_interval.natAbs ≤ wakes
  | .awake (some _) false => w.aged w.entry.effective_interval
  | _ => True

/-- An attempt that nobody asked for began on a copy as old as the interval. -/
def Begun.late (b : Begun) : Prop := b.asked = false → ∀ t, b.checked = some t →
  0 ≤ b.interval → t + seconds b.interval.natAbs ≤ b.now

/-- What holds in every state. -/
structure Ok (opts : Options) (w : World) : Prop where
  settled : ∀ f, w.entry.state.settled = some f → w.checked = some f ∧ f ∈ w.checks
  missing : w.entry.state = .Missing → w.checked = none
  past : opts.never_early = true → ∀ t, w.checked = some t → t ≤ w.now
  adopting : ∀ data t, w.adopting = some (data, t) → t ≤ w.now
  copy : w.succeeded → w.backoff = none ∧ w.entry.state.settled ≠ none
  prompt : w.succeeded → Prompt w w.task
  patient : opts.never_early = true → Patient w w.task
  begun : opts.never_early = true → ∀ b ∈ w.begun, b.late

/-- Nothing happens to the copy or the interval. -/
structure Calm (w w' : World) : Prop where
  state : w'.entry.state = w.entry.state
  interval : w'.entry.effective_interval = w.entry.effective_interval
  finished : w'.entry.progress.finished = w.entry.progress.finished
  last : w'.entry.progress.last = w.entry.progress.last
  backoff : w'.backoff = w.backoff
  checked : w'.checked = w.checked
  checks : w'.checks = w.checks
  now : w.now ≤ w'.now

namespace Calm

variable {w' : World} (h : Calm w w')
include h

theorem succeeded : w'.succeeded ↔ w.succeeded := by
  rw [World.succeeded, World.succeeded, h.finished, h.last]

theorem retries : w'.retries ↔ w.retries := by
  rw [World.retries, World.retries, h.backoff, h.state]

theorem aged {interval : ℤ} (ha : w.aged interval) : w'.aged interval := by
  intro t ht hpos
  exact (ha t (h.checked ▸ ht) hpos).trans h.now

theorem prompt {task : Task} (hp : Prompt w task) : Prompt w' task := by
  cases task with
  | looked interval =>
    rw [Prompt, h.interval]
    exact hp
  | asleep due wakes fell =>
    rw [Prompt, h.interval, h.checks]
    exact ⟨hp.1.trans h.now, hp.2⟩
  | _ => trivial

theorem patient {task : Task} (hp : Patient w task) : Patient w' task := by
  cases task with
  | unborn =>
    rw [Patient, h.backoff, h.state]
    exact hp
  | top =>
    rw [Patient, h.retries, h.interval]
    exact fun hretries => h.aged (hp hretries)
  | looked interval =>
    rw [Patient, h.retries, h.interval]
    exact ⟨fun hretries => h.aged (hp.1 hretries), hp.2⟩
  | asleep due wakes fell =>
    cases due with
    | none => exact fun hretries => hp (h.retries.1 hretries)
    | some d =>
      rw [Patient, h.interval, h.checked]
      exact hp
  | awake due asked =>
    cases asked with
    | true => cases due <;> trivial
    | false =>
      cases due with
      | none => exact fun hretries => hp (h.retries.1 hretries)
      | some d =>
        rw [Patient, h.interval]
        exact h.aged hp
  | _ => trivial

/-- What is left to see to, where nothing happens to the copy or the interval. -/
theorem ok (hok : Ok opts w) (hadopting : ∀ data t, w'.adopting = some (data, t) → t ≤ w'.now)
    (hprompt : w.succeeded → Prompt w w'.task)
    (hpatient : opts.never_early = true → Patient w w'.task)
    (hbegun : opts.never_early = true → ∀ b ∈ w'.begun, b.late) : Ok opts w' where
  settled f hf := by
    rw [h.checked, h.checks]
    exact hok.settled f (h.state ▸ hf)
  missing hm := h.checked.trans (hok.missing (h.state ▸ hm))
  past hearly t ht := (hok.past hearly t (h.checked ▸ ht)).trans h.now
  adopting := hadopting
  copy hs := by
    rw [h.backoff, h.state]
    exact hok.copy (h.succeeded.1 hs)
  prompt hs := h.prompt (hprompt (h.succeeded.1 hs))
  patient hearly := h.patient (hpatient hearly)
  begun := hbegun

/-- A step of the task alone. -/
theorem goes (hok : Ok opts w) (hadopting : w'.adopting = w.adopting) (hbegun : w'.begun = w.begun)
    (hprompt : w.succeeded → Prompt w w'.task)
    (hpatient : opts.never_early = true → Patient w w'.task) : Ok opts w' :=
  h.ok hok (fun data t ht => (hok.adopting data t (hadopting ▸ ht)).trans h.now) hprompt hpatient
    fun hearly b hb => hok.begun hearly b (hbegun ▸ hb)

/-- A step that is none of the task's. -/
theorem stays (hok : Ok opts w) (hadopting : w'.adopting = w.adopting) (hbegun : w'.begun = w.begun)
    (htask : w'.task = w.task) : Ok opts w' :=
  h.goes hok hadopting hbegun (fun hs => htask ▸ hok.prompt hs)
    fun hearly => htask ▸ hok.patient hearly

end Calm

/-! ### Step by step -/

theorem is_stale_spec {now fetched_at : ℕ} {interval : ℤ} (h : is_stale now fetched_at interval) :
    0 ≤ interval ∧ fetched_at + seconds interval.natAbs ≤ now := by
  simp only [is_stale, Bool.and_eq_true, decide_eq_true_eq] at h
  obtain ⟨⟨hpos, hpast⟩, hold⟩ := h
  have := Nat.mul_le_of_le_div _ _ _ hold
  exact ⟨hpos, by unfold seconds; omega⟩

/-- What the entry starts from: what it has, what the cache holds, or nothing, offline. -/
theorem start_cases (w : World) (opts : Options) (loaded : Option (Body × Meta)) :
    ((w.entry.load w.now loaded).unreached opts w.now).interval = w.entry.interval ∧
    ((w.entry.load w.now loaded).unreached opts w.now).progress = w.entry.progress ∧
    ((((w.entry.load w.now loaded).unreached opts w.now).state = w.entry.state ∧
        w.loads loaded = w.checked) ∨
      (∃ data info, w.entry.state = .Missing ∧ loaded = some (data, info) ∧
        ((w.entry.load w.now loaded).unreached opts w.now).state = .Available data 1 info.fetched_at
          (is_stale w.now info.fetched_at w.entry.effective_interval) ∧
        w.loads loaded = some info.fetched_at) ∨
      opts.offline = true ∧ w.entry.state = .Missing ∧ w.loads loaded = w.checked ∧
        ∃ e since,
          ((w.entry.load w.now loaded).unreached opts w.now).state = .Failed e since none) := by
  cases hstate : w.entry.state with
  | Missing =>
    cases loaded with
    | none =>
      cases hoff : opts.offline with
      | true =>
        refine ⟨?_, ?_, .inr (.inr ⟨rfl, rfl, ?_, "offline mode: no cached copy".toList, w.now,
          ?_⟩)⟩ <;> simp [Entry.load, Entry.unreached, World.loads, hstate, hoff]
      | false =>
        refine ⟨?_, ?_, .inl ⟨?_, ?_⟩⟩ <;>
          simp [Entry.load, Entry.unreached, World.loads, hstate, hoff]
    | some copy =>
      obtain ⟨data, info⟩ := copy
      refine ⟨?_, ?_, .inr (.inl ⟨data, info, rfl, rfl, ?_, ?_⟩)⟩ <;>
        simp [Entry.load, Entry.unreached, World.loads, hstate]
  | Available data version fetched_at stale =>
    refine ⟨?_, ?_, .inl ⟨?_, ?_⟩⟩ <;>
      simp [Entry.load, Entry.unreached, World.loads, hstate]
  | Failed error since cached =>
    refine ⟨?_, ?_, .inl ⟨?_, ?_⟩⟩ <;>
      simp [Entry.load, Entry.unreached, World.loads, hstate]

namespace Ok

variable (h : Ok opts w)
include h

/-- The interval of one more who asks. -/
theorem register {interval : Option ℤ} {check : Bool}
    (hc : Heeded opts w (.register interval check)) : Ok opts (w.register interval check) := by
  obtain ⟨hlower, hraise⟩ := hc
  have hok := h
  obtain ⟨hsettled, hmissing, hpast, hadopting, hcopy, hprompt, hpatient, hbegun⟩ := hok
  refine ⟨hsettled, hmissing, hpast, hadopting, hcopy, fun hs => ?_, fun hearly => ?_, hbegun⟩
  · have hprompt := hprompt hs
    have hlower := hlower hs
    change Prompt _ w.task
    generalize hafter : (w.register interval check).entry.effective_interval = after at *
    unfold World.timed at hlower
    cases htask : w.task with
    | looked i =>
      rw [htask] at hprompt hlower
      rw [Prompt, hafter]
      intro hi
      have := hprompt hi
      have := hlower trivial (by omega)
      omega
    | asleep due wakes fell =>
      rw [htask] at hprompt hlower
      refine ⟨hprompt.1, hprompt.2.1, fun hdue => (hprompt.2.2 hdue).imp id ?_⟩
      rintro ⟨hpos, f, hf, hle⟩
      obtain ⟨d, rfl⟩ := Option.ne_none_iff_exists'.1 hdue
      have hle' := hlower trivial hpos
      rw [hafter]
      refine ⟨by omega, f, hf, hle.trans ?_⟩
      have habs : w.entry.effective_interval.natAbs ≤ after.natAbs := by omega
      have := Nat.mul_le_mul_right (10 ^ 9) habs
      unfold seconds
      omega
    | _ => trivial
  · have hpatient := hpatient hearly
    have hraise := hraise hearly
    change Patient _ w.task
    generalize hafter : (w.register interval check).entry.effective_interval = after at *
    -- An interval that is not raised asks for no more than before.
    have hsec : 0 ≤ after → ¬w.entry.effective_interval < after →
        0 ≤ w.entry.effective_interval ∧
          seconds after.natAbs ≤ seconds w.entry.effective_interval.natAbs := by
      intro hpos hle
      exact ⟨by omega, Nat.mul_le_mul_right _ (by omega)⟩
    have haged : (0 ≤ after → w.entry.effective_interval < after → False) →
        w.aged w.entry.effective_interval → (w.register interval check).aged after := by
      intro hnot ha t ht hpos
      obtain ⟨hpos', hle⟩ := hsec hpos fun hlt => hnot hpos hlt
      exact (Nat.add_le_add_left hle t).trans (ha t ht hpos')
    unfold World.reads_interval at hraise
    cases htask : w.task with
    | unborn =>
      rw [htask] at hpatient
      exact hpatient
    | top =>
      rw [htask] at hpatient hraise
      rw [Patient, hafter]
      intro hretries
      exact haged (fun hpos hlt => hraise hpos hlt hretries) (hpatient hretries)
    | looked i =>
      rw [htask] at hpatient hraise
      rw [Patient, hafter]
      refine ⟨fun hretries => haged (fun hpos hlt => (hraise hpos hlt).2 hretries)
        (hpatient.1 hretries), fun hi hpos => ?_⟩
      by_cases hlt : w.entry.effective_interval < after
      · have := (hraise hpos hlt).1
        omega
      · have := hpatient.2 hi (hsec hpos hlt).1
        omega
    | asleep due wakes fell =>
      rw [htask] at hpatient hraise
      cases due with
      | none => exact hpatient
      | some d =>
        rw [Patient, hafter]
        intro t ht hpos
        obtain ⟨hpos', hle⟩ := hsec hpos fun hlt => hraise hpos hlt
        exact (Nat.add_le_add_left hle t).trans (hpatient t ht hpos')
    | awake due asked =>
      rw [htask] at hpatient hraise
      cases asked with
      | true => cases due <;> trivial
      | false =>
        cases due with
        | none => exact hpatient
        | some d =>
          rw [Patient, hafter]
          exact haged (fun hpos hlt => hraise hpos hlt) hpatient
    | _ => trivial

/-- A copy was adopted. -/
theorem adopted (hc : Heeded opts w .adopted) : Ok opts w.adopted := by
  unfold World.adopted
  split
  case h_1 => exact h
  case h_2 data t hadopting =>
    have ht := h.adopting data t hadopting
    have hc : opts.never_early = true → w.reads_copy := fun hearly =>
      hc hearly (by simp [hadopting])
    refine ⟨?_, fun hm => ?_, fun _ t' ht' => ?_, by simp, fun hs => ?_, fun hs => ?_,
      fun hearly => ?_, h.begun⟩
    · intro f hf
      obtain rfl : t = f := by simpa [State.settled] using hf
      exact ⟨rfl, by simp⟩
    · cases hm
    · obtain rfl : t = t' := by simpa using ht'
      exact ht
    · exact ⟨(h.copy hs).1, by simp [State.settled]⟩
    · have hprompt := h.prompt hs
      change Prompt _ w.task
      cases htask : w.task with
      | looked i =>
        rw [htask] at hprompt
        exact hprompt
      | asleep due wakes fell =>
        rw [htask] at hprompt
        refine ⟨hprompt.1, hprompt.2.1, fun hdue => (hprompt.2.2 hdue).imp id ?_⟩
        rintro ⟨hpos, f, hf, hle⟩
        exact ⟨hpos, f, List.mem_append_left _ hf, hle⟩
      | _ => trivial
    · have hpatient := h.patient hearly
      have hc := hc hearly
      have hcalm : w.backoff = none → ¬(w.backoff ≠ none ∨
          (State.Available data 0 t false).settled = none) := by
        intro hnone
        simp [hnone, State.settled]
      change Patient _ w.task
      unfold World.reads_copy at hc
      cases htask : w.task with
      | unborn =>
        rw [htask] at hpatient
        exact ⟨hpatient.1, .inr (by simp [State.settled])⟩
      | top =>
        rw [htask] at hc
        exact fun hretries => absurd hretries (hcalm hc)
      | looked i =>
        rw [htask] at hpatient hc
        exact ⟨fun hretries => absurd hretries (hcalm hc), hpatient.2⟩
      | asleep due wakes fell =>
        rw [htask] at hpatient hc
        cases due with
        | none => exact hcalm (not_not.1 fun hne => hpatient (.inl hne))
        | some d => exact hc.elim
      | awake due asked =>
        rw [htask] at hpatient hc
        cases asked with
        | true => cases due <;> trivial
        | false =>
          cases due with
          | none => exact hcalm (not_not.1 fun hne => hpatient (.inl hne))
          | some d => exact hc.elim
      | _ => trivial

/-- A recording: the copy is checked now, or the attempt failed. -/
theorem record {intact : Bool} {written : Option Str}
    (hc : Heeded opts w (.record intact written)) :
    Ok opts (w.record opts digest_of intact written) := by
  unfold World.record
  split
  case h_2 => exact h
  case h_1 number outcome htask =>
    split_ifs with hlock hretired
    · exact h
    · have hcalm : Calm w w.stop := ⟨rfl, rfl, rfl, rfl, rfl, rfl, rfl, le_rfl⟩
      exact hcalm.goes h rfl rfl (fun _ => trivial) fun _ => trivial
    · have hleaves := @leaves_attempt digest_of w intact written outcome
      have hinterval := @interval_record_attempt digest_of w.entry w.now intact
        written outcome
      have hnone : w.adopting = none := by simpa using hlock
      generalize record_attempt digest_of w.entry w.now intact written outcome = recorded at *
      obtain ⟨e, result⟩ := recorded
      have heff : e.effective_interval = w.entry.effective_interval := by
        unfold Entry.effective_interval
        rw [hinterval]
      rcases hleaves with ⟨hresult, hsettled⟩ |
        ⟨⟨reason, hresult⟩, ⟨error, since, cached, hfailed⟩, hwhy⟩
      · obtain rfl : result = .ok () := hresult
        dsimp only at hsettled ⊢
        refine ⟨fun f hf => ?_, fun hm => ?_, fun _ t ht => ?_, by simp [hnone], fun _ => ?_,
          fun _ => trivial, fun _ hretries => ?_, h.begun⟩
        · obtain rfl : w.now = f := by simpa [hsettled] using hf
          exact ⟨rfl, by simp⟩
        · dsimp only at hm
          rw [hm] at hsettled
          cases hsettled
        · obtain rfl : w.now = t := by simpa using ht
          exact le_rfl
        · exact ⟨rfl, by simp [hsettled]⟩
        · simp [World.retries, hsettled] at hretries
      · obtain rfl : result = .error reason := hresult
        dsimp only at hfailed ⊢
        refine ⟨fun f hf => ?_, fun hm => ?_, h.past, by simp [hnone], fun hs => ?_,
          fun _ => trivial, fun hearly _ => ?_, h.begun⟩
        · simp [hfailed, State.settled] at hf
        · simp [hfailed] at hm
        · cases hs.2
        · intro t ht hpos
          have haged := hc hearly number outcome htask hwhy t ht
          rw [← heff] at haged
          exact haged hpos

/-- The task falls asleep by what it sees. -/
theorem sleep (seed : ℕ) : Ok opts (w.sleep opts seed) := by
  unfold World.sleep
  split
  case h_2 => exact h
  case h_1 interval htask =>
    have hdue : ∀ fetched_at, w.entry.state.settled = some fetched_at → w.backoff = none →
        next_due w.entry interval w.now w.backoff seed opts.never_early = if interval < 0 then none
          else some (jitter (seconds interval.natAbs - (w.now - fetched_at)) seed
            opts.never_early) := by
      intro fetched_at hsettled hbackoff
      unfold next_due
      rw [hbackoff]
      dsimp only
      cases hstate : w.entry.state with
      | Available data version f stale =>
        rw [hstate] at hsettled
        cases stale with
        | false =>
          obtain rfl : f = fetched_at := by simpa [State.settled] using hsettled
          simp
        | true => cases hsettled
      | _ => rw [hstate] at hsettled; cases hsettled
    have hretry : w.retries →
        next_due w.entry interval w.now w.backoff seed opts.never_early ≠ none := by
      intro hretries
      unfold next_due
      cases hbackoff : w.backoff with
      | some b => simp
      | none =>
        have hsettled := hretries.resolve_left (not_not.2 hbackoff)
        dsimp only
        cases hstate : w.entry.state with
        | Available data version f stale =>
          rw [hstate] at hsettled
          cases stale with
          | false => cases hsettled
          | true => simp
        | _ => simp
    generalize next_due w.entry interval w.now w.backoff seed opts.never_early = due at hdue hretry
    refine Calm.goes (w := w) ⟨rfl, rfl, rfl, rfl, rfl, rfl, rfl, le_rfl⟩ h rfl rfl (fun hs => ?_)
      fun hearly => ?_
    · obtain ⟨hbackoff, hfresh⟩ := h.copy hs
      have hprompt := h.prompt hs
      rw [htask] at hprompt
      obtain ⟨f, hf⟩ := Option.ne_none_iff_exists'.1 hfresh
      obtain ⟨-, hmem⟩ := h.settled f hf
      have hdue := hdue f hf hbackoff
      refine ⟨le_rfl, fun hnone => by rw [hnone]; rfl, fun hne => ?_⟩
      by_cases hoff : interval < 0
      · rw [if_pos hoff] at hdue
        exact absurd hdue hne
      · rw [if_neg hoff] at hdue
        have hle := hprompt (not_lt.1 hoff)
        have hjitter := jitter_le (seconds interval.natAbs - (w.now - f)) seed opts.never_early
        have hseconds : seconds interval.natAbs ≤ seconds w.entry.effective_interval.natAbs :=
          Nat.mul_le_mul_right _ (by omega)
        rw [hdue, Option.getD_some]
        rcases Nat.eq_zero_or_pos (seconds interval.natAbs - (w.now - f)) with hzero | hpos
        · rw [hzero] at hjitter ⊢
          exact .inl (by omega)
        · exact .inr ⟨by omega, f, hmem, by omega⟩
    · have hpatient := h.patient hearly
      rw [htask] at hpatient
      by_cases hretries : w.retries
      · obtain ⟨d, rfl⟩ := Option.ne_none_iff_exists'.1 (hretry hretries)
        intro t ht hpos
        exact (hpatient.1 hretries t ht hpos).trans (Nat.le_add_right _ _)
      · rw [World.retries, not_or, not_not] at hretries
        obtain ⟨f, hf⟩ := Option.ne_none_iff_exists'.1 hretries.2
        rw [hdue f hf hretries.1]
        split
        case isTrue => exact fun hr => hr.elim (fun hne => hne hretries.1) hretries.2
        case isFalse hon =>
          intro t ht hpos
          obtain rfl : f = t := by simpa [(h.settled f hf).1] using ht
          have hpast := h.past hearly f ht
          have hle := hpatient.2 (not_lt.1 hon) hpos
          have hseconds : seconds w.entry.effective_interval.natAbs ≤ seconds interval.natAbs :=
            Nat.mul_le_mul_right _ (by omega)
          have hjitter := le_jitter (seconds interval.natAbs - (w.now - f)) seed
          rw [hearly, Option.getD_some]
          omega

/-- The task wakes for one who asked, or at its time. -/
theorem wake : Ok opts w.wake := by
  unfold World.wake
  split
  case h_2 => exact h
  case h_1 due wakes fell htask =>
    dsimp only
    split_ifs with hretired hasked hgone htime
    · exact Calm.goes (w := w) ⟨rfl, rfl, rfl, rfl, rfl, rfl, rfl, le_rfl⟩ h rfl rfl
        (fun _ => trivial) fun _ => trivial
    · refine Calm.goes (w := w) ⟨rfl, rfl, rfl, rfl, rfl, rfl, rfl, le_rfl⟩ h rfl rfl
        (fun _ => trivial) fun _ => ?_
      cases due <;> trivial
    · exact Calm.goes (w := w) ⟨rfl, rfl, rfl, rfl, rfl, rfl, rfl, le_rfl⟩ h rfl rfl
        (fun _ => trivial) fun _ => trivial
    · refine Calm.goes (w := w) ⟨rfl, rfl, rfl, rfl, rfl, rfl, rfl, le_rfl⟩ h rfl rfl
        (fun _ => trivial) fun hearly => ?_
      have hpatient := h.patient hearly
      rw [htask] at hpatient
      cases due with
      | none => exact hpatient
      | some d => exact fun t ht hpos => (hpatient t ht hpos).trans htime
    · exact h

/-- An attempt begins. -/
theorem begin_ : Ok opts w.begin_ := by
  unfold World.begin_
  split
  case h_2 => exact h
  case h_1 due asked htask =>
    split_ifs with hgone hidle
    · exact Calm.goes (w := w) ⟨rfl, rfl, rfl, rfl, rfl, rfl, rfl, le_rfl⟩ h rfl rfl
        (fun _ => trivial) fun _ => trivial
    · obtain ⟨rfl, rfl⟩ := hidle
      refine Calm.goes (w := w) ⟨rfl, rfl, rfl, rfl, rfl, rfl, rfl, le_rfl⟩ h rfl rfl
        (fun _ => trivial) fun hearly hretries => ?_
      have hpatient := h.patient hearly
      rw [htask] at hpatient
      exact absurd hretries hpatient
    · refine Calm.ok (w := w) ⟨rfl, rfl, rfl, rfl, rfl, rfl, rfl, le_rfl⟩ h h.adopting
        (fun _ => trivial) (fun _ => trivial) fun hearly b hb => ?_
      rcases List.mem_append.1 hb with hb | hb
      · exact h.begun hearly b hb
      · obtain rfl := List.mem_singleton.1 hb
        intro hasked
        obtain rfl : asked = false := hasked
        have hpatient := h.patient hearly
        rw [htask] at hpatient
        cases due with
        | none => exact absurd ⟨rfl, rfl⟩ hidle
        | some d => exact hpatient

/-- The entry starts from what the cache holds. -/
theorem start {loaded : Option (Body × Meta)} (hc : Heeded opts w (.start loaded)) :
    Ok opts (w.start opts loaded) := by
  unfold World.start
  split
  case h_2 => exact h
  case h_1 htask =>
    by_cases hlock : w.adopting.isSome = true
    · rwa [if_pos hlock]
    · rw [if_neg hlock]
      have hnone : w.adopting = none := by simpa using hlock
      obtain ⟨hinterval, hprogress, hcases⟩ := start_cases w opts loaded
      generalize (w.entry.load w.now loaded).unreached opts w.now = e at *
      have heff : e.effective_interval = w.entry.effective_interval := by
        unfold Entry.effective_interval
        rw [hinterval]
      have hpatient := h.patient
      rw [htask] at hpatient
      rcases hcases with ⟨hstate, hloads⟩ | ⟨data, info, hmissing, rfl, hstate, hloads⟩ |
        ⟨hoff, hmissing, hloads, error, since, hstate⟩
      · rw [hloads]
        refine ⟨fun f hf => ?_, fun hm => h.missing (hstate ▸ hm), h.past, by simp [hnone],
          fun hs => ?_, fun hs => ?_, fun hearly => ?_, h.begun⟩
        · obtain ⟨hchecked, hmem⟩ := h.settled f (hstate ▸ hf)
          exact ⟨hchecked, List.mem_append_left _ hmem⟩
        · dsimp only
          rw [hstate]
          exact h.copy (by simpa only [World.succeeded, hprogress] using hs)
        · dsimp only
          split <;> exact trivial
        · dsimp only
          split
          · exact trivial
          · obtain ⟨hbackoff, hfresh⟩ := hpatient hearly
            intro hretries t ht
            have hsettled : w.entry.state.settled = none :=
              hstate ▸ hretries.resolve_left (not_not.2 hbackoff)
            have hchecked := h.missing (hfresh.resolve_right (not_not.2 hsettled))
            cases hchecked.symm.trans ht
      · rw [hloads]
        have hnot : ¬w.succeeded := fun hs => (h.copy hs).2 (by rw [hmissing]; rfl)
        refine ⟨fun f hf => ?_, fun hm => ?_, fun hearly t ht => ?_, by simp [hnone],
          fun hs => ?_, fun hs => ?_, fun hearly => ?_, h.begun⟩
        · have hf : e.state.settled = some f := hf
          rw [hstate] at hf
          cases hstale : is_stale w.now info.fetched_at w.entry.effective_interval with
          | true => rw [hstale] at hf; cases hf
          | false =>
            rw [hstale] at hf
            obtain rfl : info.fetched_at = f := by simpa [State.settled] using hf
            exact ⟨rfl, by simp⟩
        · cases hstate.symm.trans hm
        · obtain rfl : info.fetched_at = t := by simpa using ht
          exact hc hearly data info rfl
        · exact absurd (by simpa only [World.succeeded, hprogress] using hs) hnot
        · dsimp only
          split <;> exact trivial
        · dsimp only
          split
          · exact trivial
          · obtain ⟨hbackoff, -⟩ := hpatient hearly
            intro hretries t ht hpos
            obtain rfl : info.fetched_at = t := by simpa using ht
            have hsettled : e.state.settled = none :=
              hretries.resolve_left (not_not.2 hbackoff)
            rw [hstate] at hsettled
            cases hstale : is_stale w.now info.fetched_at w.entry.effective_interval with
            | true =>
              change _ + seconds e.effective_interval.natAbs ≤ _
              rw [heff]
              exact (is_stale_spec hstale).2
            | false => rw [hstale] at hsettled; cases hsettled
      · rw [hloads]
        have hnot : ¬w.succeeded := fun hs => (h.copy hs).2 (by rw [hmissing]; rfl)
        refine ⟨fun f hf => ?_, fun hm => ?_, h.past, by simp [hnone], fun hs => ?_, fun hs => ?_,
          fun hearly => ?_, h.begun⟩
        · have hf : e.state.settled = some f := hf
          rw [hstate] at hf
          cases hf
        · cases hstate.symm.trans hm
        · exact absurd (by simpa only [World.succeeded, hprogress] using hs) hnot
        · dsimp only
          split <;> exact trivial
        · dsimp only
          rw [if_pos hoff]
          exact trivial

/-- **A step that heeds the times keeps what holds.** -/
theorem step {a : Action} (hc : Heeded opts w a) : Ok opts (w.step opts digest_of a) := by
  cases a with
  | tick d =>
    have hcalm : Calm w { w with now := w.now + d } :=
      ⟨rfl, rfl, rfl, rfl, rfl, rfl, rfl, Nat.le_add_right _ _⟩
    exact hcalm.stays h rfl rfl rfl
  | register interval check => exact h.register hc
  | ask =>
    simp only [World.step, World.ask]
    split
    · exact h
    · exact Calm.stays (w := w) ⟨rfl, rfl, rfl, rfl, rfl, rfl, rfl, le_rfl⟩ h rfl rfl rfl
  | adopt data ago written =>
    simp only [World.step, World.adopt]
    split_ifs
    · exact h
    · refine Calm.ok (w := w) ⟨rfl, rfl, rfl, rfl, rfl, rfl, rfl, le_rfl⟩ h (fun d t ht => ?_)
        h.prompt h.patient h.begun
      obtain ⟨-, rfl⟩ : data = d ∧ w.now - ago = t := by simpa using ht
      exact Nat.sub_le _ _
    · exact Calm.stays (w := w) ⟨rfl, rfl, rfl, rfl, rfl, rfl, rfl, le_rfl⟩ h rfl rfl rfl
  | adopted => exact h.adopted hc
  | retire =>
    simp only [World.step, World.retire]
    split
    · exact h
    · exact Calm.stays (w := w) ⟨rfl, rfl, rfl, rfl, rfl, rfl, rfl, le_rfl⟩ h rfl rfl rfl
  | go => exact Calm.stays (w := w) ⟨rfl, rfl, rfl, rfl, rfl, rfl, rfl, le_rfl⟩ h rfl rfl rfl
  | start loaded => exact h.start hc
  | look =>
    simp only [World.step, World.look]
    split
    case h_2 => exact h
    case h_1 htask =>
      split_ifs
      · exact Calm.goes (w := w) ⟨rfl, rfl, rfl, rfl, rfl, rfl, rfl, le_rfl⟩ h rfl rfl
          (fun _ => trivial) fun _ => trivial
      · refine Calm.goes (w := w) ⟨rfl, rfl, rfl, rfl, rfl, rfl, rfl, le_rfl⟩ h rfl rfl
          (fun _ _ => le_rfl) fun hearly => ⟨?_, fun _ _ => le_rfl⟩
        have hpatient := h.patient hearly
        rwa [htask] at hpatient
  | sleep seed => exact h.sleep seed
  | wake => exact h.wake
  | begin_ => exact h.begin_
  | answer fetched =>
    simp only [World.step, World.answer]
    split
    case h_2 => exact h
    case h_1 =>
      split
      · exact Calm.goes (w := w) ⟨rfl, rfl, rfl, rfl, rfl, rfl, rfl, le_rfl⟩ h rfl rfl
          (fun _ => trivial) fun _ => trivial
      · split_ifs <;>
        exact Calm.goes (w := w) ⟨rfl, rfl, rfl, rfl, rfl, rfl, rfl, le_rfl⟩ h rfl rfl
          (fun _ => trivial) fun _ => trivial
      · split_ifs <;>
        exact Calm.goes (w := w) ⟨rfl, rfl, rfl, rfl, rfl, rfl, rfl, le_rfl⟩ h rfl rfl
          (fun _ => trivial) fun _ => trivial
  | check verdict =>
    simp only [World.step, World.check]
    split
    case h_2 => exact h
    case h_1 =>
      split <;>
      exact Calm.goes (w := w) ⟨rfl, rfl, rfl, rfl, rfl, rfl, rfl, le_rfl⟩ h rfl rfl
        (fun _ => trivial) fun _ => trivial
  | record intact written => exact h.record hc
  | stop =>
    simp only [World.step, World.cut]
    have hstop : Ok opts w.stop :=
      Calm.goes (w := w) ⟨rfl, rfl, rfl, rfl, rfl, rfl, rfl, le_rfl⟩ h rfl rfl
        (fun _ => trivial) fun _ => trivial
    split
    · split_ifs <;> assumption
    · split_ifs <;> assumption
    · exact h

end Ok

theorem ok_new (interval : Option ℤ) (check : Bool) : Ok opts (World.new interval check) := by
  refine ⟨?_, fun _ => rfl, ?_, ?_, ?_, ?_, fun _ => ⟨rfl, .inl rfl⟩, ?_⟩ <;>
    simp [World.new, State.settled, World.succeeded, Prompt]

/-! ### Every run -/

/-- The refresh follows the interval: it is the least positive one asked for; the task, its last
attempt a success, is not asleep until later than a tenth past the interval since the copy was
checked, or for more than the minute after which it looks at an interval that is off; and, never to
be early, it began no attempt unasked on a copy younger than the interval. -/
structure Punctual (opts : Options) (w : World) : Prop where
  follows : Follows w.asked_for w.entry.effective_interval
  asleep : w.succeeded → ∀ due wakes fell, w.task = .asleep due wakes fell → w.now < wakes →
    due = none ∧ wakes = fell + seconds 60 ∨
    0 ≤ w.entry.effective_interval ∧ ∃ f ∈ w.checks,
      10 * wakes ≤ 10 * f + 11 * seconds w.entry.effective_interval.natAbs
  begun : opts.never_early = true → ∀ b ∈ w.begun, b.late

theorem Ok.punctual (h : Ok opts w) (hfollows : Follows w.asked_for w.entry.effective_interval) :
    Punctual opts w := by
  refine ⟨hfollows, fun hs due wakes fell htask hasleep => ?_, h.begun⟩
  have hprompt := h.prompt hs
  rw [htask] at hprompt
  obtain ⟨hfell, hoff, hon⟩ := hprompt
  by_cases hdue : due = none
  · exact .inl ⟨hdue, hoff hdue⟩
  · refine .inr ((hon hdue).resolve_left fun hle => ?_)
    omega

/-- **The refresh follows the shortest interval, as long as none shorter is asked for while the task
sleeps, and, never to be early, no longer one nor an adoption comes meanwhile.** -/
theorem refresh_spec (opts : Options) (digest_of : Body → Str) (interval : Option ℤ)
    (check : Bool) (as : List Action)
    (h : Along (World.step opts digest_of) (Heeded opts) (World.new interval check) as) :
    Punctual opts (run (World.step opts digest_of) (World.new interval check) as) :=
  (h.invariant (I := Ok opts) (fun _ _ hw hc => hw.step hc) (ok_new interval check)).punctual
    (merged_run interval check as).follows

/-- One that is never early. -/
def late : Options := ⟨false, 0, 0, true⟩

/-- A copy is fetched and recorded, and a longer interval asked for before the task sleeps again. -/
theorem refresh_spec_once :
    let actions : List Action := [.start none, .look, .sleep 10, .wake, .begin_,
      .answer (.ok (.New [1] none none)), .record true none, .register (some 172800) false, .look,
      .sleep 0]
    (run (World.step late fun _ => []) (World.new none false) actions).recorded.length = 1 ∧
      Punctual late (run (World.step late fun _ => []) (World.new none false) actions) := by
  refine ⟨rfl, refresh_spec late _ none false _ ⟨fun _ _ _ h => ?_, trivial, trivial, trivial,
    trivial, trivial, fun _ number outcome htask hfails => ?_, ⟨fun _ h => ?_, fun _ _ _ => ?_⟩,
    trivial, trivial, trivial⟩⟩
  · cases h
  · cases htask
    rcases hfails with ⟨_, h⟩ | ⟨-, _, h⟩ | ⟨h, -⟩
    · cases h
    · cases h
    · exact absurd rfl h
  · exact h.elim
  · rintro (h | h)
    · exact h rfl
    · cases h

/-- A shorter interval asked for while the task is asleep does not wake it; and, never to be early,
it wakes for the copy before though another was adopted meanwhile. -/
theorem slept_through :
    let fetch : List Action := [.start none, .look, .sleep 10, .wake, .begin_,
      .answer (.ok (.New [1] none none)), .record true none, .look, .sleep 0]
    let shortened := run (World.step late fun _ => []) (World.new none false)
      (fetch ++ [.register (some 60) false])
    let adopted := run (World.step late fun _ => []) (World.new none false)
      (fetch ++ [.tick (seconds 86399), .adopt [2] 0 true, .adopted, .tick (seconds 1), .wake,
        .begin_])
    (shortened.succeeded ∧ shortened.entry.effective_interval = 60 ∧ shortened.checks = [0] ∧
      shortened.task = .asleep (some (seconds 86400)) (seconds 86400) 0 ∧ shortened.now = 0) ∧
    adopted.begun.getLast? = some ⟨seconds 86400, false, some (seconds 86399), 86400⟩ :=
  ⟨⟨⟨by decide, rfl⟩, rfl, rfl, rfl, rfl⟩, by decide +kernel⟩

end Resource

end Rurge
