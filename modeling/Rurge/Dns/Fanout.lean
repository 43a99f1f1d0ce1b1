import Rurge.Net.Addr
import Rurge.Dns.Answer
import Rurge.Lib.Runs

/-!
# The fan-out of a name

Every upstream is asked at once for each family wanted, again at every resend, and the first valid
answer of a family decides it.  The loop waits for the next outcome or for its timer, whichever
comes first; when an outcome comes, and what it is, is left to the run, and so is how late the loop
gets to run.
-/

namespace Rurge

namespace Fanout

open Dns (Rcode)

deriving instance DecidableEq for Dns.Rcode

/-! ### Answers -/

inductive Qtype
  | A
  | Aaaa
  deriving DecidableEq

structure Question where
  name : Str
  qtype : Qtype
  deriving DecidableEq

/-- How a response code is written. -/
def rcode_text : Rcode → Str
  | .NoError => "NOERROR".toList
  | .NxDomain => "NXDOMAIN".toList
  | .ServFail => "SERVFAIL".toList
  | .Refused => "REFUSED".toList
  | .FormErr => "FORMERR".toList
  | .NotImp => "NOTIMP".toList
  | .Other n => "RCODE".toList ++ Str.decimal n.toNat

/-- A response, as far as the fan-out reads it. -/
structure Answer where
  rcode : Rcode
  question : Option Question
  v4 : List (Ipv4Addr × UInt32)
  v6 : List (Ipv6Addr × UInt32)

namespace Answer

def has_records (a : Answer) : Qtype → Bool
  | .A => !a.v4.isEmpty
  | .Aaaa => !a.v6.isEmpty

/-- NOERROR, the question we asked, and at least one record of that type. -/
def is_valid_for (a : Answer) (q : Question) : Bool :=
  a.rcode = .NoError && a.question = some q && a.has_records q.qtype

/-- NOERROR or NXDOMAIN without records of the asked type. -/
def is_empty_for (a : Answer) (q : Question) : Bool :=
  (a.rcode = .NoError || a.rcode = .NxDomain) && a.question.all (· = q) && !a.has_records q.qtype

end Answer

inductive UpstreamError
  | Timeout
  | Io (e : Str)
  | Tls (e : Str)
  | Http (e : Str)
  | Bootstrap (e : Str)
  | BadResponse (e : Str)

def UpstreamError.text : UpstreamError → Str
  | .Timeout => "timeout".toList
  | .Io e => "io: ".toList ++ e
  | .Tls e => "tls: ".toList ++ e
  | .Http e => "http: ".toList ++ e
  | .Bootstrap e => "bootstrap: ".toList ++ e
  | .BadResponse e => "bad response: ".toList ++ e

/-- What a query came to. -/
abbrev Reply := Except UpstreamError Answer

/-! ### Tracks -/

/-- What is known of a family. -/
inductive State
  | Pending
  | Valid (answer : Answer) (upstream : Str)
  | Empty

/-- A family that is asked for: who answered it empty, and who failed with what. -/
structure Track where
  question : Question
  state : State
  empties : List Str
  failures : List (Str × Str)

namespace Track

def new (name : Str) (qtype : Qtype) : Track := ⟨⟨name, qtype⟩, .Pending, [], []⟩

def decided (t : Track) : Bool :=
  match t.state with
  | .Pending => false
  | _ => true

def valid (t : Track) : Bool :=
  match t.state with
  | .Valid _ _ => true
  | _ => false

/-- The reply of `upstream` to the family's question; a timeout is no answer. -/
def apply (t : Track) (upstream : Str) (reply : Reply) (total_upstreams : ℕ) : Track :=
  if t.decided then t
  else match reply with
    | .ok answer =>
      if answer.is_valid_for t.question then { t with state := .Valid answer upstream }
      else if answer.is_empty_for t.question then
        let empties := t.empties.insert upstream
        { t with
          empties := empties
          state := if total_upstreams ≤ empties.length then .Empty else t.state }
      else
        { t with
          failures := t.failures ++ [(upstream, "rcode ".toList ++ rcode_text answer.rcode)] }
    | .error .Timeout => t
    | .error e => { t with failures := t.failures ++ [(upstream, e.text)] }

/-- At the end: some upstreams answered empty and the rest never answered. -/
def settle_empty (t : Track) : Track :=
  if !t.decided && !t.empties.isEmpty && t.failures.isEmpty then { t with state := .Empty } else t

end Track

/-! ### The end -/

/-- What a fan-out found. -/
structure Answers where
  v4 : List (Ipv4Addr × UInt32)
  v6 : List (Ipv6Addr × UInt32)
  upstream : Str
  partial_ : Bool
  aaaa_timed_out : Bool

inductive FanoutError
  | EmptyAnswer
  | Timeout
  | AllFailed (list : List (Str × Str))

/-- What is gathered from the tracks at the end. -/
structure Gathered where
  answers : Answers
  any_valid : Bool
  any_empty : Bool
  failures : List (Str × Str)

def gather (g : Gathered) (t : Track) : Gathered :=
  match t.state with
  | .Valid answer upstream =>
    let named := if g.answers.upstream = [] ∨ t.question.qtype = .A then
        { g.answers with upstream := upstream }
      else g.answers
    { g with
      any_valid := true
      answers := match t.question.qtype with
        | .A => { named with v4 := answer.v4 }
        | .Aaaa => { named with v6 := answer.v6 } }
  | .Empty => { g with any_empty := true }
  | .Pending =>
    { g with
      answers := { g.answers with
        partial_ := true
        aaaa_timed_out := if t.question.qtype = .Aaaa then true else g.answers.aaaa_timed_out }
      failures := g.failures ++ t.failures }

/-- The order of the failures: by the upstream's name, then by its text. -/
def before (f g : Str × Str) : Bool :=
  decide (f.1 < g.1) || (f.1 == g.1 && decide (f.2 ≤ g.2))

/-- The result of the tracks as they stand at the end. -/
def conclude (partial_ : Bool) (tracks : List Track) : Except FanoutError Answers :=
  let g := (tracks.map Track.settle_empty).foldl gather
    ⟨⟨[], [], [], partial_, false⟩, false, false, []⟩
  if g.any_valid then .ok g.answers
  else if g.any_empty then .error .EmptyAnswer
  else if g.failures ≠ [] then .error (.AllFailed (g.failures.mergeSort before).eraseReps)
  else .error .Timeout

/-! ### The loop -/

structure FanoutOpts where
  resend : ℕ
  attempts : ℕ

/-- What is asked of whom, and from when on. -/
structure Job where
  upstreams : List Str
  name : Str
  want_v6 : Bool
  opts : FanoutOpts
  start : ℕ

namespace Job

variable (job : Job)

/-- How many rounds of queries there are. -/
def attempts : ℕ := max job.opts.attempts 1

def deadline : ℕ := job.start + job.opts.resend * job.attempts

/-- The families asked for. -/
def families : List Qtype := [Qtype.A, Qtype.Aaaa].filter fun q => q = .A || job.want_v6

def tracks : List Track := job.families.map (Track.new job.name)

end Job

/-- The outcome of a query that ended. -/
structure Outcome where
  upstream : Str
  qtype : Qtype
  reply : Reply

/-- The loop as it waits: the queries sent and not over, by the place of the upstream and the
family, every query sent, every outcome heard, and the result once there is one. -/
structure Loop where
  now : ℕ
  round : ℕ
  next_send : ℕ
  partial_ : Bool
  tracks : List Track
  set : List (ℕ × Qtype)
  sent : List (ℕ × Qtype)
  heard : List Outcome
  result : Option (Except FanoutError Answers)

namespace Loop

/-- The queries of one round: to every upstream, for every family not decided. -/
def queries (job : Job) (tracks : List Track) : List (ℕ × Qtype) :=
  (List.range job.upstreams.length).flatMap fun i =>
    (tracks.filter fun t => !t.decided).map fun t => (i, t.question.qtype)

/-- The loop ends. -/
def finish (s : Loop) : Loop := { s with result := some (conclude s.partial_ s.tracks) }

/-- A round of queries is sent when it is time for one. -/
def send (job : Job) (s : Loop) : Loop :=
  if s.round < job.attempts ∧ s.next_send ≤ s.now ∧ s.now < job.deadline then
    { s with
      set := s.set ++ queries job s.tracks
      sent := s.sent ++ queries job s.tracks
      round := s.round + 1
      next_send := job.start + job.opts.resend * (s.round + 1) }
  else s

/-- One turn of the loop, up to its wait or its end. -/
def turn (job : Job) (s : Loop) : Loop :=
  let s := send job s
  if s.tracks.all Track.decided then s.finish else s

/-- The loop as it begins. Without an upstream there is nothing to begin. -/
def begin (job : Job) : Loop :=
  let s : Loop := ⟨job.start, 0, job.start, false, job.tracks, [], [], [], none⟩
  if job.upstreams = [] then { s with result := some (.error (.AllFailed [])) }
  else turn job s

/-- What the loop's timer is set to. -/
def tick (job : Job) (s : Loop) : ℕ :=
  if s.round < job.attempts then s.next_send else job.deadline

/-- An outcome goes to the first track of its family. -/
def apply (job : Job) (o : Outcome) : List Track → List Track
  | [] => []
  | t :: tracks =>
    if t.question.qtype = o.qtype then t.apply o.upstream o.reply job.upstreams.length :: tracks
    else t :: apply job o tracks

/-- The timer has fired. -/
def ticks (job : Job) (s : Loop) : Loop :=
  if job.attempts ≤ s.round ∨ job.deadline ≤ s.now then s.finish
  else if s.tracks.any Track.valid ∧ s.tracks.any (fun t => !t.decided) then
    { s with partial_ := true }.finish
  else turn job s

end Loop

/-- What the loop is woken by, and when: a query that ended, one whose task is gone, the timer. -/
inductive Event
  | joins (query : ℕ) (reply : Reply) (at_ : ℕ)
  | dies (query : ℕ) (at_ : ℕ)
  | ticks (at_ : ℕ)

def Event.at_ : Event → ℕ
  | .joins _ _ at_ => at_
  | .dies _ at_ => at_
  | .ticks at_ => at_

/-- The event can come: the loop waits, no time has gone back, and a query is one that was sent; the
timer fires no earlier than it was set to. -/
def Loop.Awaits (job : Job) (s : Loop) (e : Event) : Prop :=
  s.result = none ∧ s.now ≤ e.at_ ∧ match e with
  | .joins i _ _ => i < s.set.length
  | .dies i _ => i < s.set.length
  | .ticks at_ => s.tick job ≤ at_

/-- What an event makes of the loop. -/
def Loop.step (job : Job) (s : Loop) : Event → Loop
  | .joins i reply at_ =>
    match s.set[i]? with
    | none => s
    | some (u, q) =>
      let o : Outcome := ⟨job.upstreams.getD u [], q, reply⟩
      turn job { s with
        now := at_
        set := s.set.eraseIdx i
        tracks := apply job o s.tracks
        heard := s.heard ++ [o] }
  | .dies i at_ => turn job { s with now := at_, set := s.set.eraseIdx i }
  | .ticks at_ => ticks job { s with now := at_ }

end Fanout

end Rurge
