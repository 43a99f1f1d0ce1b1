import Rurge.Lib.Runs
import Rurge.Capture.Slot

/-!
# The relay

The two directions of `pump`, the watchdog and the token they stop at, in any interleaving.  A
direction waits for one answer at a time, of its reader, of its writer or of the token; a poll that
is pending answers nothing.  Times are in nanoseconds since the start.
-/

namespace Rurge

namespace Relay

open Runs
open Capture (SessionOutcome)

abbrev Bytes := List UInt8

/-- What a direction waits for; `over` has the error that it gave, if any. -/
inductive Wait
  | reading
  | writing
  | flushing
  | closing
  | over (failed : Option Str)
  deriving DecidableEq

/-- What a direction's wait comes to. -/
inductive Answer
  | read (bytes : Bytes)
  | wrote (n : ℕ)
  | flushed
  | shut (failed : Option Str)
  | failed (error : Str)
  | cancelled

/-- What a direction does to the handle of its session. -/
inductive Effect
  | first (chunk : Bytes)
  | reader_done
  | count (n : ℕ)

/-- A direction: `first` says whether the hook of the first chunk is still to run, `chunk` is what
was read and `left` what `write_all` has not handed over of it.  `given` is all that the reader
gave, `taken` all that the writer took and `pushed` how much of it was flushed. -/
structure Half where
  wait : Wait
  first : Bool
  chunk : Bytes
  left : Bytes
  given : Bytes
  taken : Bytes
  pushed : ℕ
  counted : ℕ
  eof : Bool

namespace Half

def new : Half := ⟨.reading, true, [], [], [], [], 0, 0, false⟩

/-- `copy_half` from one wait to the next, with a buffer of `buf_size` bytes. -/
def copy_half (buf_size : ℕ) (h : Half) : Answer → Half × Option Effect
  | .cancelled =>
    match h.wait with
    | .over _ => (h, none)
    | _ => ({ h with wait := .over none }, none)
  | .read bytes =>
    match h.wait with
    | .reading =>
      let chunk := bytes.take buf_size
      if chunk = [] then ({ h with wait := .closing, eof := true }, some .reader_done)
      else
        ({ h with
            wait := .writing
            first := false
            chunk := chunk
            left := chunk
            given := h.given ++ chunk },
          if h.first then some (.first chunk) else none)
    | _ => (h, none)
  | .wrote n =>
    match h.wait with
    | .writing =>
      if n = 0 then ({ h with wait := .over (some "write zero".toList) }, none)
      else
        let left := h.left.drop n
        ({ h with
            wait := if left = [] then .flushing else .writing
            left := left
            taken := h.taken ++ h.left.take n }, none)
    | _ => (h, none)
  | .flushed =>
    match h.wait with
    | .flushing =>
      ({ h with
          wait := .reading
          chunk := []
          pushed := h.taken.length
          counted := h.counted + h.chunk.length }, some (.count h.chunk.length))
    | _ => (h, none)
  | .shut _ =>
    match h.wait with
    -- what the half-close comes to is not looked at
    | .closing => ({ h with wait := .over none }, none)
    | _ => (h, none)
  | .failed error =>
    match h.wait with
    | .reading => ({ h with wait := .over (some error) }, some .reader_done)
    | .writing | .flushing => ({ h with wait := .over (some error) }, none)
    | _ => (h, none)

def failed (h : Half) : Option Str :=
  match h.wait with
  | .over failed => failed
  | _ => none

def is_over (h : Half) : Bool :=
  match h.wait with
  | .over _ => true
  | _ => false

end Half

inductive Side
  | up
  | down
  deriving DecidableEq

/-- A session in `pump`: `stop` is the child of the session's `token`, `idle_fired` what the
watchdog gave and `was_killed` what the handle said once both were over. -/
structure Pump where
  half : Side → Half
  stop : Bool
  token : Bool
  killed : Bool
  now : ℕ
  activity : ℕ
  idle_fired : Option Bool
  was_killed : Option Bool
  sniffed : Option Bytes
  first_byte_seen : Bool
  client_gone : Bool
  upstream_failed : Bool
  outcome : Option SessionOutcome

/-- What happens to a session: `kill` and `cancel` are the two steps of a kill, and a shutdown is a
`cancel` alone.  The watchdog has either `slept`, and looks at the time whatever came meanwhile, or
is still asleep. -/
inductive Action
  | half (side : Side) (answer : Answer)
  | watchdog (slept : Bool)
  | tick (elapsed : ℕ)
  | kill
  | cancel
  | ask
  | finish

namespace Pump

def new (idle : ℕ) : Pump where
  half := fun _ => .new
  stop := idle = 0
  token := false
  killed := false
  now := 0
  activity := 0
  idle_fired := if idle = 0 then some true else none
  was_killed := none
  sniffed := none
  first_byte_seen := false
  client_gone := false
  upstream_failed := false
  outcome := none

variable (p : Pump)

def both_over : Bool := (p.half .up).is_over && (p.half .down).is_over

/-- A direction that fails stops the other, and the watchdog goes once both are over. -/
def halves (half : Side → Half) : Pump :=
  { p with
    half := half
    stop := p.stop || (half .up).failed.isSome || (half .down).failed.isSome ||
      ((half .up).is_over && (half .down).is_over) }

def effect : Side → Option Effect → Pump
  | .up, some (.first chunk) => { p with sniffed := some chunk }
  | .down, some (.first _) => { p with first_byte_seen := true }
  | .up, some .reader_done => { p with client_gone := true }
  | .down, some .reader_done =>
    { p with upstream_failed := p.upstream_failed || (!p.client_gone && !p.first_byte_seen) }
  | _, some (.count _) => { p with activity := p.now / 1000000 }
  | _, none => p

/-- `cancelled` is ready only once the token is. -/
def heard : Answer → Bool
  | .cancelled => p.stop
  | _ => true

def finish : Pump :=
  match p.was_killed, p.outcome with
  | some was_killed, none =>
    { p with
      outcome := some <|
        if p.idle_fired = some true then .Completed
        else if was_killed then .Failed "killed".toList
        else if p.token then .Completed
        else
          match (p.half .up).failed.or (p.half .down).failed with
          | some error => .Failed error
          | none => .Completed }
  | _, _ => p

def step (buf_size idle : ℕ) (p : Pump) : Action → Pump
  | .half side answer =>
    if p.heard answer then
      let (half, effect) := (p.half side).copy_half buf_size answer
      (p.halves (Function.update p.half side half)).effect side effect
    else p
  | .watchdog slept =>
    if p.idle_fired.isSome then p
    else if p.stop && !slept then { p with idle_fired := some false }
    else if p.activity * 1000000 + idle ≤ p.now then
      { p with stop := true, idle_fired := some true }
    else p
  | .tick elapsed => { p with now := p.now + elapsed }
  | .kill => { p with killed := true }
  | .cancel => { p with token := true, stop := true }
  | .ask =>
    if p.both_over && p.idle_fired.isSome && p.was_killed.isNone then
      { p with was_killed := some p.killed }
    else p
  | .finish => p.finish

end Pump

/-! ### One direction -/

namespace Half

/-- What a direction keeps: the writer took what the reader gave, in order, but for what is left of
one chunk, and what is counted was flushed. -/
structure Sound (buf_size : ℕ) (h : Half) : Prop where
  given : h.given = h.taken ++ h.left
  counted : h.counted + h.chunk.length = h.given.length
  pushed : h.pushed = h.counted
  left : h.left.length ≤ h.chunk.length
  chunk : h.chunk.length ≤ buf_size
  between : h.wait = .reading ∨ h.eof = true → h.chunk = []
  written : h.wait = .flushing → h.left = []
  eof : match h.wait with
    | .closing => h.eof = true
    | .over _ => True
    | _ => h.eof = false

theorem sound_new (buf_size : ℕ) : new.Sound buf_size := by
  constructor <;> simp [new]

variable {buf_size : ℕ} {h : Half}

theorem Sound.ends (hs : h.Sound buf_size) (failed : Option Str) :
    Half.Sound buf_size { h with wait := .over failed } :=
  ⟨hs.given, hs.counted, hs.pushed, hs.left, hs.chunk, fun h => hs.between (h.imp_left nofun),
    nofun, trivial⟩

theorem Sound.read (hs : h.Sound buf_size) (hwait : h.wait = .reading) (bytes : Bytes) :
    (h.copy_half buf_size (.read bytes)).1.Sound buf_size := by
  have hchunk := hs.between (.inl hwait)
  have heof := hs.eof
  have hleft := hs.left
  have hcounted := hs.counted
  rw [hwait] at heof
  rw [hchunk] at hleft hcounted
  simp only [Half.copy_half, hwait]
  by_cases hend : bytes.take buf_size = []
  · rw [if_pos hend]
    exact ⟨hs.given, hs.counted, hs.pushed, hs.left, hs.chunk, fun _ => hchunk, nofun, rfl⟩
  · rw [if_neg hend]
    have hnil : h.left = [] := List.eq_nil_of_length_eq_zero (Nat.le_zero.1 hleft)
    refine ⟨by simp [hs.given, hnil], ?_, hs.pushed, le_rfl, by simp, ?_, nofun, heof⟩
    · simpa using hcounted
    · simp [heof]

theorem Sound.wrote (hs : h.Sound buf_size) (hwait : h.wait = .writing) (n : ℕ) :
    (h.copy_half buf_size (.wrote n)).1.Sound buf_size := by
  have heof := hs.eof
  rw [hwait] at heof
  simp only [Half.copy_half, hwait]
  by_cases hn : n = 0
  · rw [if_pos hn]
    exact hs.ends _
  · rw [if_neg hn]
    have hgiven : h.given = (h.taken ++ h.left.take n) ++ h.left.drop n := by simp [hs.given]
    have hleft : (h.left.drop n).length ≤ h.chunk.length :=
      (List.length_drop.trans_le (Nat.sub_le ..)).trans hs.left
    by_cases hrest : h.left.drop n = []
    · simp only [if_pos hrest]
      exact ⟨hgiven, hs.counted, hs.pushed, hleft, hs.chunk, by simp [heof], fun _ => hrest, heof⟩
    · simp only [if_neg hrest]
      exact ⟨hgiven, hs.counted, hs.pushed, hleft, hs.chunk, by simp [heof], nofun, heof⟩

theorem Sound.flushed (hs : h.Sound buf_size) (hwait : h.wait = .flushing) :
    (h.copy_half buf_size .flushed).1.Sound buf_size := by
  have hleft := hs.written hwait
  have hgiven := hs.given
  have hcounted := hs.counted
  have heof := hs.eof
  rw [hwait] at heof
  rw [hleft, List.append_nil] at hgiven
  simp only [Half.copy_half, hwait]
  refine ⟨hs.given, hcounted, ?_, by simp [hleft], by simp, fun _ => rfl, nofun, heof⟩
  exact (congrArg List.length hgiven).symm.trans hcounted.symm

/-- Between two chunks, and at the end, all that was read is passed on. -/
theorem Sound.whole (hs : h.Sound buf_size) (hbetween : h.wait = .reading ∨ h.eof = true) :
    h.taken = h.given ∧ h.counted = h.given.length := by
  have hleft := hs.left
  have hcounted := hs.counted
  rw [hs.between hbetween] at hleft hcounted
  rw [hs.given, List.eq_nil_of_length_eq_zero (Nat.le_zero.1 hleft), List.append_nil] at hcounted ⊢
  exact ⟨rfl, hcounted⟩

/-- One answer keeps what a direction keeps. -/
theorem Sound.copy_half (hs : h.Sound buf_size) (a : Answer) :
    (h.copy_half buf_size a).1.Sound buf_size := by
  have hends := hs.ends
  cases hwait : h.wait with
  | reading =>
    cases a with
    | read bytes => exact hs.read hwait bytes
    | _ => simp only [Half.copy_half, hwait]; first | exact hends _ | exact hs
  | writing =>
    cases a with
    | wrote n => exact hs.wrote hwait n
    | _ => simp only [Half.copy_half, hwait]; first | exact hends _ | exact hs
  | flushing =>
    cases a with
    | flushed => exact hs.flushed hwait
    | _ => simp only [Half.copy_half, hwait]; first | exact hends _ | exact hs
  | _ => cases a <;> simp only [Half.copy_half, hwait] <;> first | exact hends _ | exact hs

theorem is_over_of_failed (hfailed : h.failed.isSome = true) : h.is_over = true := by
  unfold failed at hfailed
  unfold is_over
  cases hwait : h.wait <;> simp_all

theorem copy_half_of_over (hover : h.is_over = true) (a : Answer) :
    h.copy_half buf_size a = (h, none) := by
  unfold is_over at hover
  cases hwait : h.wait <;> rw [hwait] at hover <;> cases a <;> simp_all [Half.copy_half]

/-- A direction ends well at the end of its reader, or because it was stopped. -/
theorem Sound.eof_or_cancelled (hs : h.Sound buf_size) {a : Answer} (hover : h.is_over = false)
    (hwait : (h.copy_half buf_size a).1.wait = .over none) :
    (h.copy_half buf_size a).1.eof = true ∨ a = .cancelled := by
  have heof := hs.eof
  cases a <;> cases hwait' : h.wait <;>
    simp_all [Half.copy_half, is_over, apply_ite Prod.fst, apply_ite Half.wait]
  -- a read and a write go on to another wait, or fail
  all_goals split_ifs at hwait <;> cases hwait

end Half

/-! ### The two directions -/

namespace Pump

open Half

/-- Somebody stopped the directions, or one of them failed. -/
def Stopped (p : Pump) : Prop :=
  p.token = true ∨ p.idle_fired = some true ∨ ∃ side, (p.half side).failed.isSome = true

/-- What an outcome says of the session. -/
def Tells (p : Pump) : SessionOutcome → Prop
  | .Completed => p.idle_fired = some true ∨ p.token = true ∨ ∀ side, (p.half side).eof = true
  | .Failed text =>
    p.killed = true ∧ text = "killed".toList ∨ ∃ side, (p.half side).failed = some text
  | .Rejected _ => False

/-- What the steps of a session keep. -/
structure Sound (buf_size : ℕ) (p : Pump) : Prop where
  half : ∀ side, (p.half side).Sound buf_size
  token : p.token = true → p.stop = true
  failed : ∀ side, (p.half side).failed.isSome = true → p.stop = true
  cause : p.stop = true → p.Stopped ∨ p.both_over = true
  ends : ∀ side, (p.half side).wait = .over none → (p.half side).eof = true ∨ p.Stopped
  asked : ∀ b, p.was_killed = some b →
    p.both_over = true ∧ p.idle_fired.isSome = true ∧ (b = true → p.killed = true)
  tells : ∀ o, p.outcome = some o → p.was_killed.isSome = true ∧ p.Tells o

variable {buf_size idle : ℕ} {p : Pump}

theorem Sound.effect (hs : p.Sound buf_size) (side : Side) (e : Option Effect) :
    (p.effect side e).Sound buf_size := by
  rcases side with _ | _ <;> rcases e with _ | _ | _ | _ <;>
    exact ⟨hs.half, hs.token, hs.failed, hs.cause, hs.ends, hs.asked, hs.tells⟩

/-- The directions after an answer to one of them. -/
theorem Sound.answered (hs : p.Sound buf_size) {side : Side} {a : Answer} (ha : p.heard a = true)
    {half' : Side → Half} (hself : half' side = ((p.half side).copy_half buf_size a).1)
    (hne : ∀ s ≠ side, half' s = p.half s) : (p.halves half').Sound buf_size := by
  have hkeep : ∀ s, (p.half s).is_over = true → half' s = p.half s := by
    intro s hover
    by_cases hside : s = side
    · subst hside
      rw [hself, copy_half_of_over hover]
    · exact hne s hside
  have hstopped : p.Stopped → (p.halves half').Stopped := by
    rintro (h | h | ⟨s, h⟩)
    · exact .inl h
    · exact .inr (.inl h)
    · exact .inr (.inr ⟨s, (congrArg (·.failed.isSome) (hkeep s (is_over_of_failed h))).trans h⟩)
  have hover : p.both_over = true → half' = p.half := by
    intro h
    rw [both_over, Bool.and_eq_true] at h
    funext s
    cases s
    · exact hkeep _ h.1
    · exact hkeep _ h.2
  constructor
  case half =>
    intro s
    show (half' s).Sound buf_size
    by_cases hside : s = side
    · subst hside
      rw [hself]
      exact (hs.half s).copy_half a
    · rw [hne s hside]
      exact hs.half s
  case token => intro h; simp [halves, hs.token h]
  case failed =>
    intro s h
    cases s <;> simp_all [halves]
  case cause =>
    intro h
    simp only [halves, Bool.or_eq_true] at h
    rcases h with ((h | h) | h) | h
    · exact (hs.cause h).imp hstopped fun h' => by rw [both_over, halves, hover h']; exact h'
    · exact .inl (.inr (.inr ⟨.up, h⟩))
    · exact .inl (.inr (.inr ⟨.down, h⟩))
    · exact .inr h
  case ends =>
    intro s h
    change (half' s).wait = .over none at h
    show (half' s).eof = true ∨ _
    by_cases hold : (p.half s).is_over = true
    · rw [hkeep s hold] at h ⊢
      exact (hs.ends s h).imp_right hstopped
    · have hside : s = side := by
        by_contra hside
        rw [hne s hside] at h
        exact hold (by rw [is_over, h])
      subst hside
      rw [hself] at h ⊢
      refine ((hs.half s).eof_or_cancelled (by simpa using hold) h).imp_right fun hcancel => ?_
      -- a direction is stopped only while one of the two is not over
      subst hcancel
      rcases hs.cause ha with hcause | hboth
      · exact hstopped hcause
      · rw [both_over, Bool.and_eq_true] at hboth
        cases s
        · exact absurd hboth.1 hold
        · exact absurd hboth.2 hold
  case asked =>
    intro b hb
    obtain ⟨h1, h2⟩ := hs.asked b hb
    exact ⟨by rw [both_over, halves, hover h1]; exact h1, h2⟩
  case tells =>
    intro o ho
    obtain ⟨hasked, htells⟩ := hs.tells o ho
    obtain ⟨b, hb⟩ := Option.isSome_iff_exists.1 hasked
    refine ⟨hasked, ?_⟩
    cases hover (hs.asked b hb).1
    cases o <;> exact htells

theorem over_none_of_failed {h : Half} (hover : h.is_over = true) (hfailed : h.failed = none) :
    h.wait = .over none := by
  unfold is_over at hover
  unfold Half.failed at hfailed
  cases hwait : h.wait <;> simp_all

theorem Sound.finish (hs : p.Sound buf_size) : p.finish.Sound buf_size := by
  unfold Pump.finish
  split
  case h_2 => exact hs
  case h_1 was_killed hasked _ =>
    obtain ⟨hover, -, hkilled⟩ := hs.asked _ hasked
    rw [both_over, Bool.and_eq_true] at hover
    refine { hs with tells := fun o ho => ⟨by simp [hasked], ?_⟩ }
    cases ho
    by_cases hidle : p.idle_fired = some true
    · rw [if_pos hidle]
      exact .inl hidle
    rw [if_neg hidle]
    by_cases hkill : was_killed = true
    · rw [if_pos hkill]
      exact .inl ⟨hkilled hkill, rfl⟩
    rw [if_neg hkill]
    by_cases htoken : p.token = true
    · rw [if_pos htoken]
      exact .inr (.inl htoken)
    rw [if_neg htoken]
    cases hup : (p.half .up).failed with
    | some error => exact .inr ⟨.up, hup⟩
    | none =>
      cases hdown : (p.half .down).failed with
      | some error => exact .inr ⟨.down, hdown⟩
      | none =>
        -- nobody stopped a direction, and so each came to the end of its reader
        have hfree : ¬ p.Stopped := by
          rintro (h | h | ⟨s, h⟩)
          · exact htoken h
          · exact hidle h
          · cases s <;> simp_all
        refine .inr (.inr fun s => ?_)
        cases s
        · exact (hs.ends _ (over_none_of_failed hover.1 hup)).resolve_right hfree
        · exact (hs.ends _ (over_none_of_failed hover.2 hdown)).resolve_right hfree

/-- The flags of a session are set and never taken back, and `stop` not without a cause. -/
theorem Sound.flags (hs : p.Sound buf_size) {stop token killed : Bool} {fired : Option Bool}
    (htoken : p.token = true → token = true) (hkilled : p.killed = true → killed = true)
    (hfired : p.idle_fired = some true → fired = some true)
    (hsome : p.idle_fired.isSome = true → fired.isSome = true) (hstop : p.stop = true → stop = true)
    (hcause : stop = true → p.stop = true ∨ token = true ∨ fired = some true)
    (hchild : token = true → stop = true) :
    Pump.Sound buf_size
      { p with stop := stop, token := token, killed := killed, idle_fired := fired } := by
  have hstopped : p.Stopped → token = true ∨ fired = some true ∨ ∃ side,
      (p.half side).failed.isSome = true := Or.imp htoken (Or.imp_left hfired)
  refine ⟨hs.half, hchild, fun s h => hstop (hs.failed s h), fun h => ?_,
    fun s h => (hs.ends s h).imp_right hstopped, fun b hb => ?_, fun o ho => ?_⟩
  · rcases hcause h with h | h | h
    · exact (hs.cause h).imp_left hstopped
    · exact .inl (.inl h)
    · exact .inl (.inr (.inl h))
  · obtain ⟨h1, h2, h3⟩ := hs.asked b hb
    exact ⟨h1, hsome h2, fun h => hkilled (h3 h)⟩
  · obtain ⟨hasked, htells⟩ := hs.tells o ho
    refine ⟨hasked, ?_⟩
    cases o with
    | Completed => exact htells.imp hfired (Or.imp_left htoken)
    | Failed => exact htells.imp_left (And.imp_left hkilled)
    | Rejected => exact htells

theorem Sound.ask (hs : p.Sound buf_size) : (p.step buf_size idle .ask).Sound buf_size := by
  dsimp only [Pump.step]
  split
  case isFalse => exact hs
  case isTrue h =>
    simp only [Bool.and_eq_true, Option.isNone_iff_eq_none] at h
    refine { hs with
      asked := fun b hb => ⟨h.1.1, h.1.2, fun hb' => ?_⟩
      tells := fun o ho => ?_ }
    · rw [← hb', ← Option.some.inj hb]
    · exact absurd (hs.tells o ho).1 (by simp [h.2])

/-- Whatever happens to a session keeps what it keeps. -/
theorem Sound.step (hs : p.Sound buf_size) (a : Action) :
    (p.step buf_size idle a).Sound buf_size := by
  cases a with
  | half side answer =>
    dsimp only [Pump.step]
    by_cases ha : p.heard answer = true
    · rw [if_pos ha]
      exact (hs.answered ha (Function.update_self ..) fun s hne =>
        Function.update_of_ne hne ..).effect side _
    · rw [if_neg ha]
      exact hs
  | watchdog slept =>
    dsimp only [Pump.step]
    split_ifs with hfired hstop hidle
    · exact hs
    · exact hs.flags id id (fun h => by simp [h] at hfired) (fun _ => rfl) id .inl hs.token
    · exact hs.flags id id (fun _ => rfl) (fun _ => rfl) (fun _ => rfl) (fun _ => .inr (.inr rfl))
        fun _ => rfl
    · exact hs
  | tick => exact { hs with }
  | kill => exact hs.flags id (fun _ => rfl) id id id .inl hs.token
  | cancel =>
    exact hs.flags (fun _ => rfl) id id id (fun _ => rfl) (fun _ => .inr (.inl rfl)) fun _ => rfl
  | ask => exact hs.ask
  | finish => exact hs.finish

theorem sound_new (buf_size idle : ℕ) : (new idle).Sound buf_size := by
  refine ⟨fun _ => Half.sound_new buf_size, ?_, ?_, fun h => .inl (.inr (.inl ?_)), ?_, ?_, ?_⟩
  all_goals simp_all [new, Half.new, Half.failed]

theorem sound_run (buf_size idle : ℕ) (as : List Action) :
    (run (step buf_size idle) (new idle) as).Sound buf_size :=
  run_invariant (fun _ a h => h.step a) (sound_new buf_size idle) as

end Pump

open Pump Half

/-- In each direction, whatever the interleaving: the writer took what the reader gave, in order and
each byte once; what was flushed, and it alone, is counted; there is no next read before all that
was read is flushed; and a direction that came to its reader's end has passed on everything. -/
theorem relay_in_order (buf_size idle : ℕ) (as : List Action) (side : Side) :
    let h := (run (step buf_size idle) (new idle) as).half side
    h.taken <+: h.given ∧ h.pushed = h.counted ∧ h.counted ≤ h.taken.length ∧
      h.given.length ≤ h.counted + buf_size ∧
      (h.wait = .reading ∨ h.eof = true → h.taken = h.given ∧ h.counted = h.given.length) := by
  have hs := (sound_run buf_size idle as).half side
  have hlen := congrArg List.length hs.given
  have hcounted := hs.counted
  have hleft := hs.left
  have hchunk := hs.chunk
  rw [List.length_append] at hlen
  exact ⟨⟨_, hs.given.symm⟩, hs.pushed, by omega, by omega, hs.whole⟩

/-- What the outcome of a session tells: a completed one that nobody stopped came to both readers'
ends and has lost no byte either way, and a failed one was killed or has the text of a direction's
error.  Such an error, as a cancel does, stops both directions, and the outcome comes once both and
the watchdog are over. -/
theorem outcome_tells (buf_size idle : ℕ) (as : List Action) :
    let p := run (step buf_size idle) (new idle) as
    (p.outcome = some .Completed → p.idle_fired = some true ∨ p.token = true ∨
      ∀ side, (p.half side).eof = true ∧ (p.half side).taken = (p.half side).given ∧
        (p.half side).counted = (p.half side).given.length) ∧
    (∀ text, p.outcome = some (.Failed text) → p.killed = true ∧ text = "killed".toList ∨
      ∃ side, (p.half side).failed = some text) ∧
    (p.token = true ∨ (∃ side, (p.half side).failed.isSome = true) → p.stop = true) ∧
    (p.outcome.isSome = true → p.both_over = true ∧ p.idle_fired.isSome = true) := by
  have hs := sound_run buf_size idle as
  refine ⟨fun h => ?_, fun text h => (hs.tells _ h).2, fun h => ?_, fun h => ?_⟩
  · exact (hs.tells _ h).2.imp_right
      (Or.imp_right fun heof side => ⟨heof side, (hs.half side).whole (.inr (heof side))⟩)
  · exact h.elim hs.token fun ⟨side, h⟩ => hs.failed side h
  · obtain ⟨o, ho⟩ := Option.isSome_iff_exists.1 h
    obtain ⟨b, hb⟩ := Option.isSome_iff_exists.1 (hs.tells o ho).1
    exact ⟨(hs.asked b hb).1, (hs.asked b hb).2.1⟩

end Relay

end Rurge
