import Rurge.Dns.Fanout
import Rurge.Lib.Runs

/-!
# The QUIC connection of a DNS server

The slot that a server's queries share, the dial that fills it, and the watchers of connections that
close.  What a task does while it holds the lock is one step, and so is each of the two things that
the end of a dial does, leaving the slot and waking the queries.  A connection is named by the dial
that made it; connections are made, close and go away as the surroundings will have it, and time
goes by only while no query is past its deadline.
-/

namespace Rurge

namespace QuicSession

open Fanout (UpstreamError)

/-- A failure of QUIC, or of what runs over it, by the layer its text names. -/
def transport_error (text : Str) : UpstreamError :=
  match Str.stripPrefix "tls: ".toList text with
  | some tls => .Tls tls
  | none =>
    if (Str.stripPrefix "h3: ".toList text).isSome then .Http text else .Io text

/-- How a query on a connection failed: the connection ended under it, or the failure is final. -/
inductive Failure
  | Lost (e : UpstreamError)
  | Failed (e : UpstreamError)

def Failure.into_error : Failure → UpstreamError
  | .Lost e => e
  | .Failed e => e

def Failure.is_lost : Failure → Bool
  | .Lost _ => true
  | .Failed _ => false

/-- The connection's end, met by a query. -/
def Failure.lost (how : Str) : Failure := .Lost (transport_error how)

/-- The session's connection and its dial, the number of the dials that have ended, and what the
queries that waited for the latest share if it left them no connection. -/
structure Slot where
  current : Option ℕ
  dialing : Option ℕ
  dials : ℕ
  failure : Option (ℕ × UpstreamError)

namespace Slot

def new : Slot := ⟨none, none, 0, none⟩

/-- The slot lets go of a connection that has closed; how it ended is the failure of the queries
that waited for it to be made. -/
def let_go_if_closed (closed : ℕ → Option Str) (slot : Slot) : Slot :=
  match slot.current.bind closed with
  | some how =>
    { slot with failure := some (slot.dials, (Failure.lost how).into_error), current := none }
  | none => slot

/-- `conn` takes no new query, unless it is not the session's connection any more. -/
def forget (conn : ℕ) (slot : Slot) : Slot :=
  if slot.current = some conn then { slot with current := none } else slot

/-- What watches `conn` found it closed. -/
def let_go_when_closed (closed : ℕ → Option Str) (conn : ℕ) (slot : Slot) : Slot :=
  if slot.current = some conn then slot.let_go_if_closed closed else slot

/-- The dial that makes `conn` has ended, with it or with a failure. -/
def dialed (conn : ℕ) (result : Option UpstreamError) (slot : Slot) : Slot :=
  let slot := { slot with dials := slot.dials + 1 }
  match result with
  | none => { slot with current := some conn, failure := none }
  | some e => { slot with failure := some (slot.dials, e) }

end Slot

/-- What a query that asks for a connection finds: one, with whether it took it at once; the failure
of the dial that it waited for; no time left for a dial; a dial to wait for. -/
inductive Look
  | Given (conn : ℕ) (taken : Bool)
  | Failed (e : UpstreamError)
  | OutOfTime
  | Wait

/-- The look without a connection to give: the failure of the dial waited for, or a dial, `next`
begun here when none is in flight. -/
def look_further (next now deadline : ℕ) (waited_since : Option ℕ) (slot : Slot) : Slot × Look :=
  let shared := slot.failure.filter fun f => decide (slot.dialing = none) &&
    waited_since.any fun since => decide (since < f.1)
  match shared with
  | some f => (slot, .Failed f.2)
  | none =>
    if slot.dialing.isSome then (slot, .Wait)
    else if deadline ≤ now then (slot, .OutOfTime)
    else ({ slot with dialing := some next }, .Wait)

/-- One look of `take`, the slot locked. -/
def look (closed : ℕ → Option Str) (away : ℕ → Bool) (next now deadline : ℕ)
    (waited_since : Option ℕ) (slot : Slot) : Slot × Look :=
  let slot := slot.let_go_if_closed closed
  match slot.current with
  | some conn =>
    let made_for_it := waited_since.any fun since => decide (since < slot.dials)
    if made_for_it || !away conn then (slot, .Given conn waited_since.isNone)
    else look_further next now deadline waited_since { slot with current := none }
  | none => look_further next now deadline waited_since slot

/-- How far a dial has got: spawned; at the server; at the slot with what it came to; about to leave
the slot; about to wake the queries; over. -/
inductive Stage
  | Spawned
  | Connecting
  | Connected (result : Option UpstreamError)
  | Leaving
  | Waking
  | Over

structure Dial where
  deadline : ℕ
  stage : Stage

/-- What a query came to: an answer, an error, or it was dropped. -/
inductive Outcome
  | Answered
  | Failed (e : UpstreamError)
  | Dropped

/-- How far a query has got: it asks for a connection; it is registered for the end of a dial, and
looks; it waits for that end; it is attempted on a connection; its attempt failed; it is over. -/
inductive Phase
  | Asking
  | Looking (notified : Bool)
  | Waiting (notified : Bool)
  | Attempting (conn : ℕ) (taken : Bool)
  | Unanswered (conn : ℕ) (taken : Bool) (failure : Failure)
  | Over (outcome : Outcome)

def Phase.is_over : Phase → Bool
  | .Over _ => true
  | _ => false

/-- An attempt of a query: on which connection, whether it took it at once, and whether it lost
it. -/
structure Attempt where
  conn : ℕ
  taken : Bool
  lost : Bool

/-- A query, `again` on its second connection, with the attempts that were made of it.
`waited_since` are the dials that had ended when it began to wait. -/
structure Query where
  begun : ℕ
  deadline : ℕ
  again : Bool
  waited_since : Option ℕ
  phase : Phase
  attempts : List Attempt

/-- A query that is registered is woken. -/
def Query.notify (q : Query) : Query :=
  match q.phase with
  | .Looking _ => { q with phase := .Looking true }
  | .Waiting _ => { q with phase := .Waiting true }
  | _ => q

/-- The session, its dials and queries, and what has become of its connections: the dials that
ended, in order, those that closed, are going away, are watched, and were forgotten. -/
structure World where
  slot : Slot
  dials : List Dial
  queries : List Query
  dropped : Bool
  now : ℕ
  ended : List (ℕ × Option UpstreamError)
  made : List ℕ
  closings : List (ℕ × Str)
  going_away : List ℕ
  watched : List ℕ
  forgotten : List ℕ

namespace World

def new : World := ⟨.new, [], [], false, 0, [], [], [], [], [], []⟩

def closed (w : World) (conn : ℕ) : Option Str := w.closings.lookup conn

def away (w : World) (conn : ℕ) : Bool := w.going_away.contains conn

/-- The query `k` changed. -/
def change (w : World) (k : ℕ) (f : Query → Query) : World :=
  { w with queries := w.queries.modify k f }

/-- The dial `d` at `stage`. -/
def go (w : World) (d : ℕ) (stage : Stage) : World :=
  { w with dials := w.dials.modify d fun dial => { dial with stage := stage } }

/-- What the query `q` finds. -/
def sees (w : World) (q : Query) : Slot × Look :=
  look w.closed w.away w.dials.length w.now q.deadline q.waited_since w.slot

/-- The look of the query `k`; a dial that it begins is spawned. -/
def look (w : World) (k : ℕ) (q : Query) (notified : Bool) : World :=
  let slot := (w.sees q).1
  let dials := if slot.dialing = some w.dials.length then w.dials ++ [⟨q.deadline, .Spawned⟩]
    else w.dials
  let w' := { w with slot := slot, dials := dials }
  match (w.sees q).2 with
  | .Given conn taken => w'.change k fun q =>
    { q with phase := .Attempting conn taken, attempts := q.attempts ++ [⟨conn, taken, false⟩] }
  | .Failed e => w'.change k fun q => { q with phase := .Over (.Failed e) }
  | .OutOfTime => w'.change k fun q => { q with phase := .Over (.Failed .Timeout) }
  | .Wait => w'.change k fun q =>
    { q with waited_since := some slot.dials, phase := .Waiting notified }

/-- `conn` is forgotten. -/
def forget (w : World) (conn : ℕ) : World :=
  { w with slot := w.slot.forget conn, forgotten := conn :: w.forgotten }

/-- An attempt on `conn` ends without an answer: found `quiet`, the connection is forgotten. -/
def unanswered (w : World) (conn : ℕ) (quiet : Bool) : World :=
  if quiet then w.forget conn else w

/-- What the query `k` makes of the failure of its attempt: one that lost a connection it took at
once is attempted again, once. -/
def settle (w : World) (k : ℕ) (q : Query) (conn : ℕ) (taken : Bool) : Failure → World
  | .Failed e => w.change k fun q => { q with phase := .Over (.Failed e) }
  | .Lost e =>
    (w.forget conn).change k fun q' =>
      { q' with
        again := true
        waited_since := none
        phase := if taken && !q.again then .Asking else .Over (.Failed e)
        attempts := q.attempts.modify (q.attempts.length - 1) fun a => { a with lost := true } }

/-- The query `k` ends where it awaits something. -/
def cut (w : World) (k : ℕ) (q : Query) (quiet : Bool) (outcome : Outcome) : World :=
  match q.phase with
  | .Waiting _ => w.change k fun q => { q with phase := .Over outcome }
  | .Attempting conn _ =>
    (w.unanswered conn quiet).change k fun q => { q with phase := .Over outcome }
  | _ => w

/-- The queries registered are woken. -/
def notify_waiters (w : World) : World := { w with queries := w.queries.map Query.notify }

end World

/-- What happens: a query comes, registers, looks, is woken, has its attempt end and goes on from
there, runs out of time, is dropped; a dial begins, comes to a connection or an error, runs out of
time, is at the slot, leaves it, and wakes the queries; a connection closes, goes away, is let go of
by what watches it; time goes by; the session is dropped. -/
inductive Action
  | query (deadline : ℕ)
  | register (query : ℕ)
  | look (query : ℕ)
  | woken (query : ℕ)
  | answered (query : ℕ)
  | failed (query : ℕ) (failure : Failure) (quiet : Bool)
  | settle (query : ℕ)
  | time_out (query : ℕ) (quiet : Bool)
  | drop (query : ℕ) (quiet : Bool)
  | begin_dial (dial : ℕ)
  | connected (dial : ℕ) (result : Option UpstreamError)
  | out_of_time (dial : ℕ)
  | dialed (dial : ℕ)
  | leave (dial : ℕ)
  | wake (dial : ℕ)
  | close (conn : ℕ) (how : Str)
  | go_away (conn : ℕ)
  | let_go (conn : ℕ)
  | tick
  | drop_session

namespace World

/-- A step of the query `k`. -/
def query_step (w : World) (k : ℕ) (f : Query → World) : World :=
  match w.queries[k]? with
  | some q => f q
  | none => w

/-- A step of the dial `d`. -/
def dial_step (w : World) (d : ℕ) (f : Dial → World) : World :=
  match w.dials[d]? with
  | some dial => f dial
  | none => w

/-- The session is dropped, and its dial aborted: one that was not begun is nothing yet. -/
def drop_session (w : World) : World :=
  let w' := { w with dropped := true, slot := { w.slot with dialing := none } }
  match w.slot.dialing with
  | none => w'
  | some d => w'.dial_step d fun dial =>
    match dial.stage with
    | .Spawned => w'.go d .Over
    | .Connecting => w'.go d .Leaving
    | _ => w'

def step (w : World) : Action → World
  | .query deadline =>
    if w.dropped then w
    else { w with queries := w.queries ++ [⟨w.now, deadline, false, none, .Asking, []⟩] }
  | .register k => w.query_step k fun q =>
    match q.phase with
    | .Asking => w.change k fun q => { q with phase := .Looking false }
    | _ => w
  | .look k => w.query_step k fun q =>
    match q.phase with
    | .Looking notified => w.look k q notified
    | _ => w
  | .woken k => w.query_step k fun q =>
    match q.phase with
    | .Waiting true => w.change k fun q => { q with phase := .Asking }
    | _ => w
  | .answered k => w.query_step k fun q =>
    match q.phase with
    | .Attempting _ _ => w.change k fun q => { q with phase := .Over .Answered }
    | _ => w
  | .failed k failure quiet => w.query_step k fun q =>
    match q.phase with
    | .Attempting conn taken => (w.unanswered conn quiet).change k fun q =>
      { q with phase := .Unanswered conn taken failure }
    | _ => w
  | .settle k => w.query_step k fun q =>
    match q.phase with
    | .Unanswered conn taken failure => w.settle k q conn taken failure
    | _ => w
  | .time_out k quiet => w.query_step k fun q =>
    if q.deadline ≤ w.now then w.cut k q quiet (.Failed .Timeout) else w
  | .drop k quiet => w.query_step k fun q => w.cut k q quiet .Dropped
  | .begin_dial d => w.dial_step d fun dial =>
    match dial.stage with
    | .Spawned => w.go d .Connecting
    | _ => w
  | .connected d result => w.dial_step d fun dial =>
    match dial.stage with
    | .Connecting =>
      { w.go d (.Connected result) with made := if result.isNone then d :: w.made else w.made }
    | _ => w
  | .out_of_time d => w.dial_step d fun dial =>
    match dial.stage with
    | .Connecting => if dial.deadline ≤ w.now then w.go d .Leaving else w
    | _ => w
  | .dialed d => w.dial_step d fun dial =>
    match dial.stage with
    | .Connected result =>
      { w.go d .Leaving with
        slot := w.slot.dialed d result
        ended := w.ended ++ [(d, result)]
        watched := if result.isNone then d :: w.watched else w.watched }
    | _ => w
  | .leave d => w.dial_step d fun dial =>
    match dial.stage with
    | .Leaving => { w.go d .Waking with slot := { w.slot with dialing := none } }
    | _ => w
  | .wake d => w.dial_step d fun dial =>
    match dial.stage with
    | .Waking => (w.go d .Over).notify_waiters
    | _ => w
  | .close conn how =>
    if w.made.contains conn && (w.closed conn).isNone then
      { w with closings := (conn, how) :: w.closings }
    else w
  | .go_away conn =>
    if w.made.contains conn then { w with going_away := conn :: w.going_away } else w
  | .let_go conn =>
    if w.watched.contains conn && (w.closed conn).isSome then
      { w with
        slot := w.slot.let_go_when_closed w.closed conn
        watched := w.watched.erase conn }
    else w
  | .tick =>
    if w.queries.all fun q => q.phase.is_over || decide (w.now < q.deadline) then
      { w with now := w.now + 1 }
    else w
  | .drop_session =>
    if !w.dropped && w.queries.all fun q => q.phase.is_over then w.drop_session else w

end World

end QuicSession

end Rurge
