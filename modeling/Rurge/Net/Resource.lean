import Rurge.Text
import Rurge.Lib.Runs

/-!
# A resource that is downloaded

The entry of a URL with the copy it holds, the task that refreshes it, and whoever registers, asks
for an update, adopts a body or retires the entry meanwhile.  The lock of the cache's files is taken
by the halves of an adoption and held between them; everything else is done under it at once, or
without it.  Times are nanoseconds of one clock; what is read of the disk, written to it and
answered by the server is the surroundings' to say.
-/

namespace Rurge

namespace Resource

def DEFAULT_UPDATE_INTERVAL : ℤ := 86400

def NOT_MODIFIED_NOTHING_CACHED : Str :=
  "the server answered \"not modified\" but nothing is cached".toList

def CHECK_DID_NOT_FINISH : Str := "the check of the downloaded copy did not finish".toList

/-- The nanoseconds of so many seconds. -/
def seconds (n : ℕ) : ℕ := n * 10 ^ 9

/-- The latest time there is. -/
def TIME_MAX : ℕ := 2 ^ 63 * 10 ^ 9 - 1

abbrev Body := List UInt8

/-- What the cache keeps beside the body. -/
structure Meta where
  etag : Option Str
  last_modified : Option Str
  fetched_at : ℕ
  sha256 : Option Str

inductive State
  | Missing
  | Available (data : Body) (version fetched_at : ℕ) (stale : Bool)
  | Failed (last_error : Str) (since : ℕ) (cached : Option (Body × ℕ))

/-- The body that is held, with its version. -/
def State.data : State → Option (Body × ℕ)
  | Missing => none
  | Available data version _ _ => some (data, version)
  | Failed _ _ cached => cached

structure Options where
  offline : Bool
  min_backoff : ℕ
  max_backoff : ℕ
  never_early : Bool

/-- How far the attempts have come. -/
structure Progress where
  started : ℕ
  finished : ℕ
  last : Except Str Unit
  wanted : ℕ
  due_at_start : Bool
  retired : Bool
  ended : Bool

/-- An entry; of its check only whether there is one, and of its disk whether it may not hold what
the entry holds. -/
structure Entry where
  state : State
  info : Option Meta
  interval : Option ℤ
  next_refresh : Option ℕ
  updating : Bool
  version : ℕ
  check : Bool
  behind : Bool
  progress : Progress

/-! ### The times -/

def is_stale (now fetched_at : ℕ) (interval : ℤ) : Bool :=
  decide (0 ≤ interval) && decide (fetched_at ≤ now) &&
    decide (interval.natAbs ≤ (now - fetched_at) / 10 ^ 9)

/-- The interval of one more who asks. -/
def merge_interval (cur new : Option ℤ) : Option ℤ :=
  match cur, new with
  | cur, none => cur
  | none, some n => some n
  | some c, some n =>
    some (if c < 0 ∧ ¬n < 0 then n else if ¬c < 0 ∧ n < 0 then c else min c n)

/-- A time spread by a tenth, or only later. -/
def jitter (d seed : ℕ) (never_early : Bool) : ℕ :=
  let share := seed % 21
  let one_percent := d / 100
  if never_early then d + one_percent * (share / 2)
  else if 10 ≤ share then d + one_percent * (share - 10)
  else d - one_percent * (10 - share)

def Entry.effective_interval (e : Entry) : ℤ := e.interval.getD DEFAULT_UPDATE_INTERVAL

def next_refresh_at (now : ℕ) (due : Option ℕ) : Option ℕ :=
  due.bind fun d => if now + d ≤ TIME_MAX then some (now + d) else none

/-- How long until the next attempt, by an interval that was read. -/
def next_due (e : Entry) (interval : ℤ) (now : ℕ) (backoff : Option ℕ) (seed : ℕ)
    (never_early : Bool) : Option ℕ :=
  match backoff with
  | some b => some b
  | none =>
    match e.state with
    | .Missing | .Failed _ _ _ => some 0
    | .Available _ _ fetched_at stale =>
      if stale then some 0
      else if interval < 0 then none
      else some (jitter (seconds interval.natAbs - (now - fetched_at)) seed never_early)

/-- The copy that the cache holds, unless one was adopted first. -/
def Entry.load (e : Entry) (now : ℕ) (loaded : Option (Body × Meta)) : Entry :=
  match e.state, loaded with
  | .Missing, some (data, info) =>
    { e with
      info := some info
      state := .Available data 1 info.fetched_at (is_stale now info.fetched_at e.effective_interval)
      version := 1 }
  | _, _ => e

/-- Nothing is downloaded in offline mode. -/
def Entry.unreached (e : Entry) (opts : Options) (now : ℕ) : Entry :=
  match opts.offline, e.state with
  | true, .Missing => { e with state := .Failed "offline mode: no cached copy".toList now none }
  | _, _ => e

/-- An attempt is due: there is no copy, or a stale one. -/
def Entry.due (e : Entry) : Bool :=
  match e.state with
  | .Available _ _ _ false => false
  | _ => true

/-! ### What an attempt comes to -/

inductive Fetched
  | New (data : Body) (etag last_modified : Option Str)
  | NotModified

inductive Outcome
  | Same (validators : Option (Option Str × Option Str))
  | New (data : Body) (etag last_modified : Option Str)
  | Failed (reason : Str)

/-- The body is what the entry holds. -/
def holds (e : Entry) (body : Body) : Bool := e.state.data.any fun held => held.1 == body

/-- A failed attempt: the entry keeps the copy it had. -/
def failed_attempt (e : Entry) (now : ℕ) (last_error : Str) : Entry × Except Str Unit :=
  ({ e with updating := false, state := .Failed last_error now e.state.data }, .error last_error)

/-- What a write to the cache comes to: an error where the readers go by the disk. -/
def wrote (e : Entry) (written : Option Str) : Entry × Option Str :=
  match written with
  | none => ({ e with behind := false }, none)
  | some error => ({ e with behind := true }, if e.check then some error else none)

def cannot_write (error : Str) : Str := "cannot write the cache: ".toList ++ error

/-- The answer that nothing is new, recorded. -/
def record_same (digest_of : Body → Str) (e : Entry) (now : ℕ)
    (validators : Option (Option Str × Option Str)) (intact : Bool) (written : Option Str) :
    Entry × Except Str Unit :=
  match e.state.data with
  | none => failed_attempt e now NOT_MODIFIED_NOTHING_CACHED
  | some (data, version) =>
    let whole := e.behind || !((e.info.bind Meta.sha256).isSome && intact)
    let info := e.info.getD ⟨none, none, 0, none⟩
    let info := { info with fetched_at := now }
    let info := match validators with
      | some (etag, last_modified) => { info with etag := etag, last_modified := last_modified }
      | none => info
    let info := if whole then { info with sha256 := some (digest_of data) } else info
    match wrote e written with
    | (e, some error) => failed_attempt e now (cannot_write error)
    | (e, none) =>
      ({ e with
          updating := false
          info := some info
          state := .Available data version now false }, .ok ())

/-- A new body, recorded. -/
def record_new (digest_of : Body → Str) (e : Entry) (now : ℕ) (data : Body)
    (etag last_modified : Option Str) (written : Option Str) : Entry × Except Str Unit :=
  let version := (e.state.data.map Prod.snd).getD 0 + 1
  match wrote e written with
  | (e, some error) => failed_attempt e now (cannot_write error)
  | (e, none) =>
    ({ e with
        updating := false
        info := some ⟨etag, last_modified, now, some (digest_of data)⟩
        state := .Available data version now false
        version := version }, .ok ())

/-- Records what an attempt came to; an adoption may have put the very body in meanwhile. -/
def record_attempt (digest_of : Body → Str) (e : Entry) (now : ℕ) (intact : Bool)
    (written : Option Str) : Outcome → Entry × Except Str Unit
  | .Failed reason => failed_attempt e now reason
  | .Same validators => record_same digest_of e now validators intact written
  | .New data etag last_modified =>
    if holds e data then record_same digest_of e now (some (etag, last_modified)) intact written
    else record_new digest_of e now data etag last_modified written

/-! ### The task -/

/-- Where the task of an entry is: at the top of its loop, with the interval read, asleep until a
time, awake, in a request, in the check of what it brought, with an outcome to record. -/
inductive Task
  | unborn
  | top
  | looked (interval : ℤ)
  | asleep (due : Option ℕ) (wakes fell : ℕ)
  | awake (due : Option ℕ) (asked : Bool)
  | asking (number : ℕ)
  | checking (number : ℕ) (data : Body) (etag last_modified : Option Str)
  | answered (number : ℕ) (outcome : Outcome)
  | over

/-- An attempt begun: when, whether it was asked for, when the copy held was last checked, and the
interval. -/
structure Begun where
  now : ℕ
  asked : Bool
  checked : Option ℕ
  interval : ℤ
  deriving DecidableEq

/-- A successful check: the body then held, and the one that the answer stands for. -/
structure Recorded where
  held : Option Body
  stands_for : Option Body

/-- The entry with the adoption that holds its lock, its task and the clock; and what is noted
besides: the intervals asked for, when the copy held was last checked, every such check, the body
held when the validators were taken, the one the answer stands for, and the attempts begun and those
recorded with success. -/
structure World where
  entry : Entry
  adopting : Option (Body × ℕ)
  task : Task
  backoff : Option ℕ
  gone : Bool
  now : ℕ
  asked_for : List ℤ
  checked : Option ℕ
  checks : List ℕ
  sent : Option Body
  stands_for : Option Body
  begun : List Begun
  recorded : List Recorded

/-- What may happen. -/
inductive Action
  | tick (d : ℕ)
  | register (interval : Option ℤ) (check : Bool)
  | ask
  | adopt (data : Body) (ago : ℕ) (written : Bool)
  | adopted
  | retire
  | go
  | start (loaded : Option (Body × Meta))
  | look
  | sleep (seed : ℕ)
  | wake
  | begin_
  | answer (fetched : Except Str Fetched)
  | check (verdict : Option (Except Str Unit))
  | record (intact : Bool) (written : Option Str)
  | stop

namespace World

variable (opts : Options) (digest_of : Body → Str)

/-- The first registration of a source. -/
def new (interval : Option ℤ) (check : Bool) : World where
  entry :=
    { state := .Missing
      info := none
      interval := interval.filter fun n => decide (n ≠ 0)
      next_refresh := none
      updating := false
      version := 0
      check := check
      behind := false
      progress := ⟨0, 0, .ok (), 0, true, false, false⟩ }
  adopting := none
  task := .unborn
  backoff := none
  gone := false
  now := 0
  asked_for := (interval.filter fun n => decide (n ≠ 0)).toList
  checked := none
  checks := []
  sent := none
  stands_for := none
  begun := []
  recorded := []

/-- The body that is held. -/
def held (w : World) : Option Body := w.entry.state.data.map Prod.fst

/-- When the copy that the entry starts from was checked. -/
def loads (w : World) (loaded : Option (Body × Meta)) : Option ℕ :=
  match w.entry.state, loaded with
  | .Missing, some (_, info) => some info.fetched_at
  | _, _ => w.checked

/-- A registration of a source that has its entry. -/
def register (w : World) (interval : Option ℤ) (check : Bool) : World :=
  let interval := interval.filter fun n => decide (n ≠ 0)
  { w with
    entry := { w.entry with
      interval := merge_interval w.entry.interval interval
      check := w.entry.check || check }
    asked_for := w.asked_for ++ interval.toList }

/-- An attempt is asked for, unless the task is over. -/
def ask (w : World) : World :=
  let p := w.entry.progress
  if p.ended then w
  else
    { w with
      entry := { w.entry with progress := { p with wanted := max p.wanted (p.started + 1) } } }

/-- The first half of an adoption, up to the new metadata: the time was read some time ago, the lock
is taken and the cache written. -/
def adopt (w : World) (data : Body) (ago : ℕ) (written : Bool) : World :=
  if w.adopting.isSome || w.entry.progress.retired then w
  else if written then
    { w with
      entry := { w.entry with
        behind := false
        info := some ⟨none, none, w.now - ago, some (digest_of data)⟩ }
      adopting := some (data, w.now - ago) }
  else { w with entry := { w.entry with behind := true } }

/-- The second half: the body is the content of the entry, and the lock is let go. -/
def adopted (w : World) : World :=
  match w.adopting with
  | none => w
  | some (data, now) =>
    let (version, new) := match w.entry.state.data with
      | some (held, version) => if held = data then (version, false) else (version + 1, true)
      | none => (1, true)
    { w with
      entry := { w.entry with
        state := .Available data version now false
        version := if new then version else w.entry.version }
      adopting := none
      checked := some now
      checks := w.checks ++ [now] }

def retire (w : World) : World :=
  if w.adopting.isSome then w
  else { w with entry := { w.entry with progress := { w.entry.progress with retired := true } } }

/-- The entry starts from what the cache holds, and its task is spawned. -/
def start (w : World) (loaded : Option (Body × Meta)) : World :=
  match w.task with
  | .unborn =>
    if w.adopting.isSome then w
    else
      let e := (w.entry.load w.now loaded).unreached opts w.now
      let p := e.progress
      { w with
        entry := { e with progress := { p with
          due_at_start := p.due_at_start && e.due
          ended := p.ended || opts.offline } }
        checked := w.loads loaded
        checks := w.checks ++ (w.loads loaded).toList
        task := if opts.offline then .over else .top }
  | _ => w

/-- The task ends. -/
def stop (w : World) : World :=
  { w with
    entry := { w.entry with
      updating := false
      progress := { w.entry.progress with ended := true } }
    task := .over }

/-- The interval is read. -/
def look (w : World) : World :=
  match w.task with
  | .top => if w.gone then w.stop else { w with task := .looked w.entry.effective_interval }
  | _ => w

/-- The task falls asleep. -/
def sleep (w : World) (seed : ℕ) : World :=
  match w.task with
  | .looked interval =>
    let due := next_due w.entry interval w.now w.backoff seed opts.never_early
    { w with
      entry := { w.entry with next_refresh := next_refresh_at w.now due }
      task := .asleep due (w.now + due.getD (seconds 60)) w.now }
  | _ => w

/-- The task wakes: it is retired, an attempt was asked for, the manager is gone, or it is time. -/
def wake (w : World) : World :=
  match w.task with
  | .asleep due wakes _ =>
    let p := w.entry.progress
    if p.retired then w.stop
    else if p.started < p.wanted then { w with task := .awake due true }
    else if w.gone then w.stop
    else if wakes ≤ w.now then { w with task := .awake due false }
    else w
  | _ => w

/-- An attempt begins with the validators taken, unless there was only the interval to look at
again. -/
def begin_ (w : World) : World :=
  match w.task with
  | .awake due asked =>
    if w.gone then w.stop
    else if due = none ∧ asked = false then { w with task := .top }
    else
      let p := w.entry.progress
      { w with
        entry := { w.entry with updating := true, progress := { p with started := p.started + 1 } }
        task := .asking (p.started + 1)
        sent := w.held
        begun := w.begun ++ [⟨w.now, asked, w.checked, w.entry.effective_interval⟩] }
  | _ => w

/-- The request is answered. -/
def answer (w : World) (fetched : Except Str Fetched) : World :=
  match w.task with
  | .asking number =>
    match fetched with
    | .error e => { w with task := .answered number (.Failed e) }
    | .ok .NotModified =>
      if w.entry.state.data.isNone then
        { w with task := .answered number (.Failed NOT_MODIFIED_NOTHING_CACHED) }
      else { w with task := .answered number (.Same none), stands_for := w.sent }
    | .ok (.New data etag last_modified) =>
      let w := { w with stands_for := some data }
      if holds w.entry data then
        { w with task := .answered number (.Same (some (etag, last_modified))) }
      else if w.entry.check then { w with task := .checking number data etag last_modified }
      else { w with task := .answered number (.New data etag last_modified) }
  | _ => w

/-- The check of a body is over; without a verdict it panicked. -/
def check (w : World) (verdict : Option (Except Str Unit)) : World :=
  match w.task with
  | .checking number data etag last_modified =>
    match verdict with
    | some (.ok ()) => { w with task := .answered number (.New data etag last_modified) }
    | some (.error reason) => { w with task := .answered number (.Failed reason) }
    | none => { w with task := .answered number (.Failed CHECK_DID_NOT_FINISH) }
  | _ => w

/-- The wait after one more failure. -/
def back_off (backoff : Option ℕ) : ℕ :=
  match backoff with
  | none => opts.min_backoff
  | some b => min (b * 2) opts.max_backoff

/-- The outcome is recorded, once the lock is free. -/
def record (w : World) (intact : Bool) (written : Option Str) : World :=
  match w.task with
  | .answered number outcome =>
    if w.adopting.isSome then w
    else if w.entry.progress.retired then w.stop
    else
      let (e, result) := record_attempt digest_of w.entry w.now intact written outcome
      let w := { w with
        entry := { e with progress := { e.progress with finished := number, last := result } }
        task := .top }
      match result with
      | .ok () =>
        { w with
          backoff := none
          checked := some w.now
          checks := w.checks ++ [w.now]
          recorded := w.recorded ++ [⟨w.held, w.stands_for⟩] }
      | .error _ => { w with backoff := some (back_off opts w.backoff) }
  | _ => w

/-- The task of a retired entry ends in its request or its check. -/
def cut (w : World) : World :=
  match w.task with
  | .asking _ | .checking _ _ _ _ => if w.entry.progress.retired then w.stop else w
  | _ => w

def step (w : World) : Action → World
  | .tick d => { w with now := w.now + d }
  | .register interval check => w.register interval check
  | .ask => w.ask
  | .adopt data ago written => w.adopt digest_of data ago written
  | .adopted => w.adopted
  | .retire => w.retire
  | .go => { w with gone := true }
  | .start loaded => w.start opts loaded
  | .look => w.look
  | .sleep seed => w.sleep opts seed
  | .wake => w.wake
  | .begin_ => w.begin_
  | .answer fetched => w.answer fetched
  | .check verdict => w.check verdict
  | .record intact written => w.record opts digest_of intact written
  | .stop => w.cut

end World

end Resource

end Rurge
