import Rurge.Dns.Answer
import Rurge.Dns.Names
import Rurge.Dns.Fanout

/-!
# Forwarding a query as it came

A query of any type goes to every upstream at once, and again at every resend to those that gave no
reply, each time under an ID of its own; a reply is taken when it answers the send it came for, and
goes back under the client's ID.  What the upstreams send back, when, and which IDs are drawn, is
left to the run, and so is how late the loop gets to run.
-/

namespace Rurge

namespace Forward

open BigEndian
open Dns (Rcode Hickory QR wire_is_response wire_question)
open Fanout (FanoutOpts UpstreamError)

abbrev Bytes := List UInt8

/-! ### What the wire says -/

/-- The message's ID; not for fewer than 12 bytes. -/
def wire_id (bytes : Bytes) : Option UInt16 :=
  if h : 12 ≤ bytes.length then some (from_u16 [bytes[0], bytes[1]]) else none

/-- Writes `id` over the message's ID. -/
def set_wire_id (bytes : Bytes) (id : UInt16) : Bytes :=
  if 2 ≤ bytes.length then u16 id ++ bytes.drop 2 else bytes

section

variable {ResponseCode : Type} [DecidableEq ResponseCode] (hickory : Hickory ResponseCode)

def from_hickory (rc : ResponseCode) : Rcode :=
  if rc = hickory.NoError then .NoError
  else if rc = hickory.NXDomain then .NxDomain
  else if rc = hickory.ServFail then .ServFail
  else if rc = hickory.Refused then .Refused
  else if rc = hickory.FormErr then .FormErr
  else if rc = hickory.NotImp then .NotImp
  else .Other (hickory.low rc)

/-- The header's response code. -/
def wire_rcode (bytes : Bytes) : Option Rcode :=
  if h : 12 ≤ bytes.length then some (from_hickory hickory (hickory.from_low bytes[3])) else none

/-- A reply that settles the matter: NOERROR or NXDOMAIN. -/
def settles (reply : Bytes) : Bool :=
  wire_rcode hickory reply = some .NoError || wire_rcode hickory reply = some .NxDomain

end

/-- A question: its name as text, its type, its class. -/
abbrev Asked := Str × UInt16 × UInt16

/-- Whether `reply` answers the question `asked` of the send under `id`. -/
def is_reply_to (reply : Bytes) (id : UInt16) (asked : Asked) : Bool :=
  wire_is_response reply && wire_id reply = some id && wire_question reply = some asked

/-! ### The job -/

inductive ErrorKind
  | InvalidInput
  | NotFound
  | TimedOut
  deriving DecidableEq

structure IoError where
  kind : ErrorKind
  text : Str
  deriving DecidableEq

def not_a_query : IoError := ⟨.InvalidInput, "not a DNS query".toList⟩
def no_upstream : IoError := ⟨.NotFound, "no upstream to forward to".toList⟩
def no_answer : IoError := ⟨.TimedOut, "no upstream answered".toList⟩

/-- A query to forward, and to how many upstreams: it has an ID and a question. -/
structure Job where
  wire : Bytes
  client_id : UInt16
  asked : Asked
  upstreams : ℕ
  opts : FanoutOpts
  start : ℕ
  has_id : wire_id wire = some client_id
  has_question : wire_question wire = some asked
  has_upstream : 0 < upstreams

namespace Job

/-- What `forward_raw` looks at before it sends anything. -/
def new (wire : Bytes) (upstreams : ℕ) (opts : FanoutOpts) (start : ℕ) : Except IoError Job :=
  match hid : wire_id wire, hasked : wire_question wire with
  | some client_id, some asked =>
    if h : 0 < upstreams then
      .ok ⟨wire, client_id, asked, upstreams, opts, start, hid, hasked, h⟩
    else .error no_upstream
  | _, _ => .error not_a_query

variable (job : Job)

/-- How many rounds of sends there are. -/
def attempts : ℕ := max job.opts.attempts 1

def deadline : ℕ := job.start + job.opts.resend * job.attempts

end Job

/-! ### The loop -/

/-- One send: to which upstream, under which ID, and the message. -/
structure Sending where
  upstream : ℕ
  id : UInt16
  wire : Bytes
  deriving DecidableEq

/-- What a send came back with. -/
structure Sent where
  sending : Sending
  result : Except UpstreamError Bytes

/-- The loop as it waits: the IDs used, which upstreams gave a reply of another code and the first
such reply, the sends that are not over, every send, everything they came back with, and the result
once there is one. A loop that is `stuck` is still drawing an ID that is none of those used. -/
structure Loop where
  now : ℕ
  round : ℕ
  next_send : ℕ
  used : List UInt16
  replied : List Bool
  kept : Option Bytes
  set : List Sending
  sent : List Sending
  heard : List Sent
  stuck : Bool
  result : Option (Except IoError Bytes)

/-- An ID that is none of `used`, of those drawn, and the draws after it. -/
def fresh_id (used : List UInt16) : List UInt16 → Option (UInt16 × List UInt16)
  | [] => none
  | id :: draws => if id ∈ used then fresh_id used draws else some (id, draws)

namespace Loop

/-- A send to `upstream` under `id`. -/
def sends (job : Job) (s : Loop) (upstream : ℕ) (id : UInt16) : Loop :=
  let sending : Sending := ⟨upstream, id, set_wire_id job.wire id⟩
  { s with
    used := s.used ++ [id]
    set := s.set ++ [sending]
    sent := s.sent ++ [sending] }

/-- A send to each of `upstreams` that has not replied. -/
def send_all (job : Job) : List ℕ → List UInt16 → Loop → Loop
  | [], _, s => s
  | upstream :: rest, draws, s =>
    if s.replied.getD upstream false then send_all job rest draws s
    else match fresh_id s.used draws with
      | none => { s with stuck := true }
      | some (id, draws) => send_all job rest draws (s.sends job upstream id)

/-- A turn of the loop up to its wait: a round is sent when it is time for one. -/
def turn (job : Job) (draws : List UInt16) (s : Loop) : Loop :=
  if s.round < job.attempts ∧ s.next_send ≤ s.now ∧ s.now < job.deadline then
    let s := send_all job (List.range job.upstreams) draws s
    if s.stuck then s
    else { s with round := s.round + 1, next_send := job.start + job.opts.resend * (s.round + 1) }
  else s

/-- The loop as it begins. -/
def begin_ (job : Job) (draws : List UInt16) : Loop :=
  turn job draws ⟨job.start, 0, job.start, [job.client_id], List.replicate job.upstreams false,
    none, [], [], [], false, none⟩

/-- What the loop's timer is set to. -/
def tick (job : Job) (s : Loop) : ℕ :=
  if s.round < job.attempts then s.next_send else job.deadline

/-- The loop ends with the reply that was kept. -/
def finish (s : Loop) : Loop :=
  { s with result := some (match s.kept with
    | some reply => .ok reply
    | none => .error no_answer) }

section

variable {ResponseCode : Type} [DecidableEq ResponseCode] (hickory : Hickory ResponseCode)

/-- A reply to the send, under the client's ID again, is taken. -/
def takes (job : Job) (draws : List UInt16) (s : Loop) (upstream : ℕ) (reply : Bytes) : Loop :=
  if settles hickory reply then { s with result := some (.ok reply) }
  else
    let s : Loop := { s with
      replied := s.replied.set upstream true
      kept := some (s.kept.getD reply) }
    if s.replied.all fun done => done then s.finish else turn job draws s

/-- The timer has fired. -/
def ticks (job : Job) (draws : List UInt16) (s : Loop) : Loop :=
  if job.attempts ≤ s.round ∨ job.deadline ≤ s.now then s.finish else turn job draws s

end

end Loop

/-- What the loop is woken by, and when: a send that came back, one whose task is gone, the timer;
and the IDs drawn in the turn after. -/
inductive Event
  | joins (send : ℕ) (result : Except UpstreamError Bytes) (at_ : ℕ) (draws : List UInt16)
  | dies (send : ℕ) (at_ : ℕ) (draws : List UInt16)
  | ticks (at_ : ℕ) (draws : List UInt16)

def Event.at_ : Event → ℕ
  | .joins _ _ at_ _ => at_
  | .dies _ at_ _ => at_
  | .ticks at_ _ => at_

namespace Loop

variable {ResponseCode : Type} [DecidableEq ResponseCode] (hickory : Hickory ResponseCode)

/-- What an event makes of the loop. -/
def step (job : Job) (s : Loop) : Event → Loop
  | .joins i result at_ draws =>
    match s.set[i]? with
    | none => s
    | some sending =>
      let s : Loop := { s with
        now := at_
        set := s.set.eraseIdx i
        heard := s.heard ++ [⟨sending, result⟩] }
      match result with
      | .ok reply =>
        if is_reply_to reply sending.id job.asked then
          takes hickory job draws s sending.upstream (set_wire_id reply job.client_id)
        else turn job draws s
      | .error _ => turn job draws s
  | .dies i at_ draws => turn job draws { s with now := at_, set := s.set.eraseIdx i }
  | .ticks at_ draws => ticks job draws { s with now := at_ }

/-- An ID that is not used is drawn in the end, if there is one. -/
def Fair (s : Loop) : Prop := s.stuck = true → ∀ id, id ∈ s.used

/-- The event can come: the loop waits, no time has gone back, and a send is one that was sent; the
timer fires no earlier than it was set to. -/
def Awaits (job : Job) (s : Loop) (e : Event) : Prop :=
  s.result = none ∧ s.stuck = false ∧ s.now ≤ e.at_ ∧ (s.step hickory job e).Fair ∧ match e with
  | .joins i _ _ _ => i < s.set.length
  | .dies i _ _ => i < s.set.length
  | .ticks at_ _ => s.tick job ≤ at_

end Loop

end Forward

end Rurge
