import Rurge.Text
import Rurge.Lib.Assoc
import Rurge.Lib.Latch
import Rurge.Lib.Runs
import Rurge.Capture.Slot

/-!
# Sessions, and what is kept of them

The handle of a session, the log of the requests and the sums of their bytes.  `finish` takes the
mark, writes the outcome and takes the hooks, each a step of its own; the hooks of the end and of
the first byte are those of a `Latch`.  The hook that records a session moves it from the active
index into the sums under the lock of the index, and then puts its record into the ring under the
ring's.  Whoever takes a snapshot keeps the lock of the index while it reads the sums and then the
active sessions' counters, one after another.  The counters are natural numbers, as the
source's `AtomicU64`s are below 2^64 bytes.
-/

namespace Rurge

namespace Observe

open Capture (SessionOutcome)

inductive ListenerKind
  | Http
  | Socks5
  | Tun
  | Internal
  | Forward
  deriving DecidableEq

/-- Bytes up and down. -/
abbrev Bytes := ℕ × ℕ

/-- A hook of a session's end: that of the observers, or another. -/
inductive FinishHook
  | Record
  | Other (n : ℕ)
  deriving DecidableEq

/-- A session. `ending` is the outcome that the call of `finish` that came first is about to write,
`last` has the outcome and its hooks, `first` the time of the first byte and its hooks; `calls` says
what `finish` was called with, and `alive` whether somebody has the handle. -/
structure SessionHandle where
  listener : ListenerKind
  policy_chain : List Str
  up : ℕ
  down : ℕ
  finished : Bool
  ending : Option SessionOutcome
  last : Latch SessionOutcome FinishHook
  first : Latch ℕ ℕ
  killed : Bool
  alive : Bool
  calls : List SessionOutcome

/-- What is done with a session: `lastTask` and `firstTask` are the next step of a task at its end
and at its first byte. -/
inductive SessionHandle.Action
  | add_up (n : ℕ)
  | add_down (n : ℕ)
  | finish (outcome : SessionOutcome)
  | write
  | on_finish (n : ℕ)
  | when_finished (n : ℕ)
  | mark_first_byte (elapsed : ℕ)
  | on_first_byte (n : ℕ)
  | lastTask (k : ℕ)
  | firstTask (k : ℕ)
  | drop
  deriving DecidableEq

namespace SessionHandle

/-- A session with its observers attached. -/
def new (listener : ListenerKind) (policy_chain : List Str) : SessionHandle :=
  ⟨listener, policy_chain, 0, 0, false, none, Latch.new [.Record], Latch.new [], false, true, []⟩

variable (s : SessionHandle)

def bytes : Bytes := (s.up, s.down)

/-- The outcome, once it is written. -/
def outcome : Option SessionOutcome := s.last.event

def kill : SessionHandle := { s with killed := true }

/-- The policy that a session's bytes are counted for. -/
def policy : Option Str := s.policy_chain.reverse.find? fun p => p.head? != some '!'

/-- The call of `finish` that comes first goes on to write its outcome. -/
def finish (outcome : SessionOutcome) : SessionHandle :=
  if s.finished then { s with calls := s.calls ++ [outcome] }
  else { s with finished := true, ending := some outcome, calls := s.calls ++ [outcome] }

/-- The outcome is written; its hooks are still to be taken. -/
def write : SessionHandle :=
  match s.ending with
  | some outcome => { s with ending := none, last := s.last.fire outcome }
  | none => s

/-- Whatever is done with a session, byte counting and `on_finish` before its end only, and its
handle dropped only after it. -/
def step : Action → SessionHandle
  | .add_up n => if s.finished then s else { s with up := s.up + n }
  | .add_down n => if s.finished then s else { s with down := s.down + n }
  | .finish outcome => s.finish outcome
  | .write => s.write
  | .on_finish n => if s.finished then s else { s with last := s.last.push (.Other n) }
  | .when_finished n => { s with last := s.last.ask (.Other n) }
  | .mark_first_byte elapsed => { s with first := s.first.fire elapsed }
  | .on_first_byte n => { s with first := s.first.ask n }
  | .lastTask k =>
    match s.last.step k with
    | some last => { s with last := last }
    | none => s
  | .firstTask k =>
    match s.first.step k with
    | some first => { s with first := first }
    | none => s
  | .drop =>
    if s.outcome.isSome && s.last.tasks.isEmpty && s.first.tasks.isEmpty then
      { s with alive := false }
    else s

end SessionHandle

/-- The record of a request, as far as it is read here. -/
structure RequestRecord where
  id : ℕ
  listener : ListenerKind
  policy : List Str
  up : ℕ
  down : ℕ
  outcome : Option SessionOutcome
  deriving DecidableEq

def record_of (id : ℕ) (h : SessionHandle) (outcome : Option SessionOutcome) : RequestRecord :=
  ⟨id, h.listener, h.policy_chain, h.up, h.down, outcome⟩

/-- The sums of the finished sessions' bytes. -/
structure TrafficStats where
  totals : Bytes
  http : Bytes
  socks : Bytes
  tun : Bytes
  per_policy : Assoc Str Bytes

namespace TrafficStats

def new : TrafficStats := ⟨0, 0, 0, 0, ∅⟩

variable (t : TrafficStats)

/-- The bytes counted for the kind of listener. -/
def recordListener (h : SessionHandle) : TrafficStats :=
  match h.listener with
  | .Http => { t with http := t.http + h.bytes }
  | .Socks5 => { t with socks := t.socks + h.bytes }
  | .Tun => { t with tun := t.tun + h.bytes }
  | .Internal | .Forward => t

/-- The bytes counted for the policy. -/
def recordPolicy (h : SessionHandle) : TrafficStats :=
  match h.policy with
  | some policy =>
    { t with
      per_policy := t.per_policy.insert policy ((t.per_policy.lookup policy).getD 0 + h.bytes) }
  | none => t

/-- Adds a finished session's bytes. -/
def record (h : SessionHandle) : TrafficStats :=
  ({ t with totals := t.totals + h.bytes }.recordListener h).recordPolicy h

def by_listener : List (ListenerKind × Bytes) :=
  [(.Http, t.http), (.Socks5, t.socks), (.Tun, t.tun)]

end TrafficStats

/-- The ring of the finished requests and the index of the active ones, by their ids. -/
structure RequestLog where
  capacity : ℕ
  active : List ℕ
  finished : List RequestRecord
  pos : 0 < capacity

namespace RequestLog

def new (capacity : ℕ) : RequestLog :=
  ⟨max capacity 1, [], [], lt_max_of_lt_right Nat.one_pos⟩

variable (log : RequestLog)

/-- Indexes a session; one that is there already stays where it is. -/
def mark_active (id : ℕ) : RequestLog :=
  if id ∈ log.active then log
  else { log with active := log.active.orderedInsert (· ≤ ·) id }

/-- A record put into the ring, the oldest dropped when it is full. -/
def push (rec : RequestRecord) : RequestLog :=
  if log.finished.length = log.capacity then
    { log with finished := log.finished.tail ++ [rec] }
  else { log with finished := log.finished ++ [rec] }

end RequestLog

/-- A snapshot being taken: the totals, what was added up of the active sessions, the counter read
of the next of them, and those left.  `parts` says what was counted for whom. -/
structure Shot where
  totals : Bytes
  sum : Bytes
  up : Option ℕ
  rest : List ℕ
  parts : List (ℕ × Bytes)

/-- A snapshot that was taken: what it shows, what it counted for whom, and who was marked then. -/
structure Shown where
  value : Bytes
  parts : List (ℕ × Bytes)
  marked : List ℕ
  deriving DecidableEq

/-- The sessions there ever were, the log, the sums, and who has the lock of the index to take a
snapshot.  The last four fields say which sessions were marked active, which were recorded, whose
records were put into the ring, and what the snapshots showed. -/
structure World where
  sessions : List SessionHandle
  log : RequestLog
  traffic : TrafficStats
  shot : Option Shot
  marked : List ℕ
  recorded : List ℕ
  pushed : List RequestRecord
  shown : List Shown

inductive Action
  | begin_ (listener : ListenerKind) (policy_chain : List Str)
  | session (id : ℕ) (action : SessionHandle.Action)
  | mark_active (id : ℕ)
  | active
  | kill (id : ℕ)
  | snapshot
  deriving DecidableEq

namespace World

def new (capacity : ℕ) : World := ⟨[], .new capacity, .new, none, [], [], [], []⟩

variable (w : World)

/-- The bytes of a session. -/
def bytes (id : ℕ) : Bytes := (w.sessions[id]?.map SessionHandle.bytes).getD 0

def alive (id : ℕ) : Bool := (w.sessions[id]?.map SessionHandle.alive).getD false

/-- The session `id` in another state. -/
def put (id : ℕ) (s : SessionHandle) : World := { w with sessions := w.sessions.set id s }

/-- Drops the entries whose handle was dropped. -/
def prune : World := { w with log := { w.log with active := w.log.active.filter w.alive } }

/-- The session moves out of the active index and into the sums, under the lock of the index. -/
def count (id : ℕ) (h : SessionHandle) : World :=
  { w with
    traffic := w.traffic.record h
    log := { w.log with active := w.log.active.erase id }
    recorded := w.recorded ++ [id] }

/-- The record goes into the ring. -/
def ring (rec : RequestRecord) : World :=
  { w with log := w.log.push rec, pushed := w.pushed ++ [rec] }

/-- The lock of the index is taken, the index pruned and the totals read. -/
def beginSnapshot : World :=
  { w with
    shot := some ⟨w.traffic.totals, 0, none, w.log.active,
      w.recorded.map fun id => (id, w.bytes id)⟩ }

/-- The snapshot's next step: a counter is read, or it is done. -/
def readSnapshot (shot : Shot) : World :=
  match shot.rest, shot.up with
  | id :: _, none => { w with shot := some { shot with up := some (w.bytes id).1 } }
  | id :: rest, some up =>
    let read : Bytes := (up, (w.bytes id).2)
    { w with
      shot := some { shot with
        sum := shot.sum + read, up := none, rest := rest, parts := shot.parts ++ [(id, read)] } }
  | [], _ =>
    { w with shot := none, shown := w.shown ++ [⟨shot.totals + shot.sum, shot.parts, w.marked⟩] }

/-- In-flight requests, newest first. -/
def active : List RequestRecord :=
  w.prune.log.active.reverse.filterMap fun id => w.sessions[id]?.map fun h => record_of id h none

/-- What is done with a session that is there; the hook of the observers waits for the lock of the
index, moves the session, and then puts its record into the ring. -/
def act (id : ℕ) (s : SessionHandle) (action : SessionHandle.Action) : World :=
  match action with
  | .lastTask k =>
    match s.last.tasks[k]? with
    | some (.Runs _ (.Record :: _)) =>
      if w.shot.isSome then w else (w.put id (s.step action)).count id s
    | some (.Inside outcome .Record _) =>
      (w.put id (s.step action)).ring (record_of id s (some outcome))
    | _ => w.put id (s.step action)
  | _ => w.put id (s.step action)

def step : Action → World
  | .begin_ listener policy_chain =>
    { w with sessions := w.sessions ++ [.new listener policy_chain] }
  | .session id action =>
    match w.sessions[id]? with
    | some s => if s.alive then w.act id s action else w
    | none => w
  | .mark_active id =>
    if w.shot.isNone && w.alive id then
      { w with log := w.log.mark_active id, marked := w.marked ++ [id] }
    else w
  | .active => if w.shot.isSome then w else w.prune
  | .kill id =>
    if w.shot.isSome then w
    else match w.sessions[id]? with
      | some s => if id ∈ w.prune.log.active then w.prune.put id s.kill else w.prune
      | none => w.prune
  | .snapshot =>
    match w.shot with
    | none => w.prune.beginSnapshot
    | some shot => w.readSnapshot shot

end World

end Observe

end Rurge
