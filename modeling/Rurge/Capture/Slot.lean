import Rurge.Capture.Accounts

/-!
# One captured request

The slot of a request while it is served: armed when the rules are worked out, told how the request
leaves, how it is answered and when its record ends, and handed on to the answer's body.  It stores
one entry, at the first moment the record has ended and the answer is over.
-/

namespace Rurge

namespace Capture

/-- How a record ends. -/
inductive SessionOutcome
  | Completed
  | Rejected (kind : RejectKind)
  | Failed (message : Str)
  deriving DecidableEq

def SessionOutcome.outcome : SessionOutcome → Outcome
  | Completed => .Completed
  | Rejected kind => .Rejected kind
  | Failed _ => .Failed

/-- What the record says of a request at one moment. -/
structure Record where
  elapsed : ℕ
  connect_time : Option ℕ
  first_byte_time : Option ℕ
  dns : Option ℕ
  peer : Option (IpAddr × UInt16)
  id : ℕ
  error : Option Str
  rule : Option Str
  policy_chain : List Str
  notes : List Str
  deriving DecidableEq

/-- What came back for the request; a given answer's body is over at `done`. -/
inductive Answer
  | Waiting
  | Nothing
  | Given (head : ResponseHead) (done : Option ℕ)
  deriving DecidableEq

/-- What is known of one captured request so far. `pending` is where its bodies are among those on
their way into the store. -/
structure Armed where
  session : Str
  started : ℤ
  pending : Option ℕ
  request : Option Head
  reused : Bool
  upgrading : Bool
  finished : Option (ℕ × SessionOutcome)
  answer : Answer
  deriving DecidableEq

namespace Armed

/-- The state as the request is armed, with its bodies at `i`. -/
def new (session : Str) (started : ℤ) (head : Head) (i : ℕ) : Armed where
  session := session
  started := started
  pending := some i
  request := some head
  reused := false
  upgrading := false
  finished := none
  answer := .Waiting

/-- When the record ended; an upgrade does not wait for it. -/
def ended_at (armed : Armed) (handle : Record) : Option ℕ :=
  match armed.finished with
  | some (finished, _) => some finished
  | none => if armed.upgrading then some handle.elapsed else none

/-- When all was over, once the answer is. -/
def over_at (armed : Armed) (ended : ℕ) : Option ℕ :=
  match armed.answer with
  | .Waiting => none
  | .Given _ none => none
  | .Nothing => some ended
  | .Given _ (some done) => some (max ended done)

/-- The head of the answer, when there is one. -/
def response (armed : Armed) : Option ResponseHead :=
  match armed.answer with
  | .Given head _ => some head
  | _ => none

def outcome (armed : Armed) : Option Outcome :=
  if armed.upgrading then some .Upgraded
  else armed.finished.map fun (_, outcome) => outcome.outcome

def error (armed : Armed) (handle : Record) : Option Str :=
  handle.error <|> match armed.finished with
    | some (_, .Failed message) => some message
    | _ => none

/-- The entry of a request that was over at `ended`, with its two bodies. -/
def entry (armed : Armed) (handle : Record) (ended : ℕ) (request : Head) (outcome : Outcome)
    (request_body response_body : Body) : Entry where
  id := handle.id
  session := armed.session
  started := armed.started
  request := request
  request_body := request_body
  response := armed.response
  response_body := response_body
  timings := {
    connect := handle.connect_time
    dns := handle.dns
    wait := handle.first_byte_time
    receive := match handle.connect_time, handle.first_byte_time with
      | some connect, some wait => some (ended - (connect + wait))
      | _, _ => none
    total := ended
    reused := armed.reused }
  remote := handle.peer
  outcome := outcome
  error := armed.error handle
  rule := handle.rule
  policy := handle.policy_chain
  notes := handle.notes

/-- The entry stored once both halves are over: the state left, the store, and what was committed to
it.  Without a head to store it with it fails. -/
def try_commit (limits : Limits) (armed : Armed) (handle : Record) (store : Watched) :
    Option (Armed × Watched × List Entry) :=
  match armed.pending with
  | none => some (armed, store, [])
  | some i =>
    match (armed.ended_at handle).bind armed.over_at with
    | none => some (armed, store, [])
    | some ended => do
      let request ← armed.request
      let p ← store.system.pendings[i]?.join
      let taken := { armed with pending := none, answer := .Nothing, request := none }
      match armed.outcome with
      | none => do
        let store ← watch limits store (.drop i)
        return (taken, store, [])
      | some outcome => do
        let make := armed.entry handle ended request outcome
        let store ← watch limits store (.commit i make)
        return (taken, store, [make p.request.finish p.response.finish])

end Armed

/-- The answer's body on its way down: whether it is wrapped to be captured, and whether it is over,
which is after its last frame, its end, an error, or its drop. -/
structure Down where
  tapped : Bool
  done : Bool
  deriving DecidableEq

/-- One request with its record, its slot, the answer's body and the store.  The last six fields are
the history, which nothing reads but the results: the bytes of the frames handed on, the head the
request last left with, the head the client was told, whether an upgrade was marked, whether the
record ended as dropped while the answer was awaited, and what was committed. -/
structure World where
  store : Watched
  outcome : Option SessionOutcome
  hook : Bool
  slot : Bool
  armed : Option Armed
  body : Option Down
  handed : List UInt8
  left : Option Head
  told : Option ResponseHead
  marked : Bool
  hasty : Bool
  committed : List Entry

def World.new : World := ⟨.empty, none, false, true, none, none, [], none, none, false, false, []⟩

/-- What happens to a request.  The callback's turn under the lock is the moment the record ends;
a frame is handed on before its body is over. -/
inductive Event
  | finish (outcome : SessionOutcome) (handle : Record)
  | arm (session : Option Str) (started : ℤ) (head : Head) (handle : Record)
  | leaving (head : Head) (reused : Bool)
  | request_chunk (data : List UInt8)
  | upgrading
  | answered (result : Option ResponseHead) (h2 : Bool) (handle : Record)
  | dropped (handle : Record)
  | frame (data : Option (List UInt8))
  | done (handle : Record)
  | other (a : Action)

namespace World

/-- `try_commit` on the state `armed`. -/
def commits (limits : Limits) (w : World) (armed : Armed) (handle : Record) : Option World := do
  let (armed, store, entries) ← armed.try_commit limits handle w.store
  return { w with armed := some armed, store, committed := w.committed ++ entries }

/-- The callback `arm` registers: a record that ends as dropped before any answer is stored now. -/
def finished (limits : Limits) (w : World) (armed : Armed) (outcome : SessionOutcome)
    (handle : Record) : Option World :=
  let early := outcome = .Rejected .Drop ∧ armed.answer = .Waiting
  let armed := { armed with
    finished := some (handle.elapsed, outcome)
    answer := if early then .Nothing else armed.answer }
  commits limits { w with hasty := w.hasty || decide early } armed handle

/-- The record ends, once; the callback it has runs. -/
def finish (limits : Limits) (w : World) (outcome : SessionOutcome) (handle : Record) :
    Option World :=
  if w.outcome.isSome then some w
  else
    let w := { w with outcome := some outcome }
    match w.hook, w.armed with
    | true, some armed => finished limits { w with hook := false } armed outcome handle
    | _, _ => some w

/-- The slot armed, once; where the record ended already the callback runs at once. -/
def arm (limits : Limits) (w : World) (session : Option Str) (started : ℤ) (head : Head)
    (handle : Record) : Option World :=
  match session, w.armed with
  | some session, none => do
    let armed := Armed.new session started head w.store.system.pendings.length
    let store ← watch limits w.store .begin
    let w := { w with store, armed := some armed, left := some head }
    match w.outcome with
    | some outcome => finished limits w armed outcome handle
    | none => return { w with hook := true }
  | _, _ => some w

def leaving (w : World) (head : Head) (reused : Bool) : World :=
  match w.armed with
  | none => w
  | some armed =>
    { w with armed := some { armed with request := some head, reused }, left := some head }

/-- A chunk of one of the two bodies, while they are on their way. -/
def chunk (limits : Limits) (w : World) (axis : Axis) (data : List UInt8) : Option World :=
  match w.armed.bind Armed.pending with
  | none => some w
  | some i => do
    let store ← watch limits w.store (.chunk i axis data)
    return { w with store }

def upgrading (w : World) : World :=
  match w.armed with
  | none => w
  | some armed => { w with armed := some { armed with upgrading := true }, marked := true }

/-- The slot goes: an answer still awaited never comes. -/
def drop (limits : Limits) (w : World) (handle : Record) : Option World :=
  let w := { w with slot := false }
  match w.armed with
  | none => some w
  | some armed =>
    commits limits w
      { armed with answer := if armed.answer = .Waiting then .Nothing else armed.answer } handle

/-- The answer, or that there is none: what the slot does before it goes. -/
def answer (limits : Limits) (w : World) (result : Option ResponseHead) (h2 : Bool)
    (handle : Record) : Option World :=
  match result, w.armed with
  | none, none => some w
  | none, some armed => commits limits w { armed with answer := .Nothing } handle
  | some resp, none => some { w with body := some ⟨false, false⟩, told := some resp }
  | some resp, some armed =>
    let head := { resp with version := if h2 then .HTTP_2 else resp.version }
    let w := { w with told := some head }
    if armed.pending = none then some { w with body := some ⟨false, false⟩ }
    else if armed.upgrading then
      commits limits { w with body := some ⟨false, false⟩ }
        { armed with answer := .Given head (some handle.elapsed) } handle
    else
      some { w with
        body := some ⟨true, false⟩
        armed := some { armed with answer := .Given head none } }

/-- A frame is handed on to the client. -/
def frame (limits : Limits) (w : World) (data : Option (List UInt8)) : Option World :=
  match w.body with
  | some ⟨tapped, false⟩ =>
    let w := { w with handed := w.handed ++ data.getD [] }
    match tapped, data with
    | true, some data => chunk limits w .Response data
    | _, _ => some w
  | _ => some w

/-- The answer's body is over: its last frame was handed on, it ended or failed, or it went. -/
def done (limits : Limits) (w : World) (handle : Record) : Option World :=
  match w.body with
  | some ⟨tapped, false⟩ =>
    let w := { w with body := some ⟨tapped, true⟩ }
    match tapped, w.armed with
    | true, some armed =>
      let answer := match armed.answer with
        | .Given head none => .Given head (some handle.elapsed)
        | answer => answer
      commits limits w { armed with answer } handle
    | _, _ => some w
  | _ => some w

/-- What others do to the store: not to the bodies of this request. -/
def other (limits : Limits) (w : World) (a : Action) : Option World :=
  if a.body.isSome ∧ a.body = w.armed.bind Armed.pending then some w
  else do
    let store ← watch limits w.store a
    return { w with store }

/-- One event.  What the slot is told once it is gone changes nothing. -/
def step (limits : Limits) (w : World) : Event → Option World
  | .finish outcome handle => w.finish limits outcome handle
  | .arm session started head handle =>
    if w.slot then w.arm limits session started head handle else some w
  | .leaving head reused => some (if w.slot then w.leaving head reused else w)
  | .request_chunk data => w.chunk limits .Request data
  | .upgrading => some (if w.slot then w.upgrading else w)
  | .answered result h2 handle =>
    if w.slot then do
      let w ← answer limits { w with slot := false } result h2 handle
      w.drop limits handle
    else some w
  | .dropped handle => if w.slot then w.drop limits handle else some w
  | .frame data => w.frame limits data
  | .done handle => w.done limits handle
  | .other a => w.other limits a

def run (limits : Limits) (events : List Event) : Option World :=
  events.foldlM (step limits) .new

end World

end Capture

end Rurge
