import Rurge.Text
import Rurge.Lib.Assoc
import Rurge.Lib.Runs

/-!
# Queries in flight

The callers of `query_coalesced` and the table of the queries under way.  The look for an entry and
its insertion are two steps, between which others go on; an entry is taken out by its key, whoever
put it in.  What a fan-out gives is left to the run.
-/

namespace Rurge

namespace Coalesce

/-- What is asked of whom: the name, whether AAAA records are wanted, and the upstreams' names. -/
structure Question where
  name : Str
  want_v6 : Bool
  upstreams : List Str
  deriving DecidableEq

/-- The key of a query in flight. -/
def Question.key (q : Question) : Str :=
  q.name ++ '#' :: (if q.want_v6 then "true" else "false").toList ++
    '#' :: [','].intercalate q.upstreams

/-- Whose query a result came from. -/
inductive Query
  | Own
  | Another
  deriving DecidableEq

/-- A channel: its sender is there, sent a result and is gone, or is gone. `caller` is whose fan-out
the result was of. -/
inductive Sender (Shared : Type*)
  | There
  | Sent (result : Shared) (caller : ℕ)
  | Gone

/-- The channel that `caller` made for an entry of `key`. -/
structure Channel (Shared : Type*) where
  key : Str
  caller : ℕ
  sender : Sender Shared

/-- How far a caller has got: it is about to look, waits on a channel, is about to insert an entry,
runs a fan-out with its entry's channel, has a result, or was dropped. -/
inductive Phase (Shared : Type*)
  | Looking
  | Waiting (channel : ℕ)
  | Inserting
  | Asking (channel : ℕ)
  | Done (result : Shared) (query : Query)
  | Dropped

structure Caller (Shared : Type*) where
  question : Question
  bypass_cache : Bool
  phase : Phase Shared

def Caller.key {Shared : Type*} (caller : Caller Shared) : Str := caller.question.key

/-- The table of the queries in flight, with every channel and caller there ever was. -/
structure World (Shared : Type*) where
  inflight : Assoc Str ℕ
  channels : List (Channel Shared)
  callers : List (Caller Shared)

namespace World

variable {Shared : Type*}

def new : World Shared := ⟨∅, [], []⟩

/-- The phase of caller `c` set. -/
def go (w : World Shared) (c : ℕ) (phase : Phase Shared) : World Shared :=
  { w with callers := w.callers.modify c fun caller => { caller with phase := phase } }

/-- The entry of `key` taken out, whoever put it in, its sender left as `sender`. -/
def remove (w : World Shared) (key : Str) (sender : Sender Shared) : World Shared :=
  match w.inflight.lookup key with
  | some i =>
    { w with
      inflight := w.inflight.erase key
      channels := w.channels.modify i fun channel => { channel with sender := sender } }
  | none => w

/-- The look for an entry of the key: a caller that does not go round the cache waits on one that is
there. -/
def look (w : World Shared) (c : ℕ) (caller : Caller Shared) : World Shared :=
  match w.inflight.lookup caller.key, caller.bypass_cache with
  | some i, false => w.go c (.Waiting i)
  | _, _ => w.go c .Inserting

/-- What a waiter makes of its channel: it has the result, or asks itself once the sender is gone,
or waits on. -/
def wait (w : World Shared) (c : ℕ) (i : ℕ) : World Shared :=
  match w.channels[i]?.map Channel.sender with
  | some (.Sent result _) => w.go c (.Done result .Another)
  | some .Gone => w.go c .Inserting
  | _ => w

/-- The entry is put in, in the place of one that is there, whose sender goes. -/
def insert (w : World Shared) (c : ℕ) (caller : Caller Shared) : World Shared :=
  let w := w.remove caller.key .Gone
  let w' : World Shared :=
    { w with
      inflight := w.inflight.insert caller.key w.channels.length
      channels := w.channels ++ [⟨caller.key, c, .There⟩] }
  w'.go c (.Asking w.channels.length)

/-- The fan-out has ended: its result goes to whoever waits on the entry of the key. -/
def publish (w : World Shared) (c : ℕ) (caller : Caller Shared) (result : Shared) : World Shared :=
  (w.remove caller.key (.Sent result c)).go c (.Done result .Own)

/-- A caller is dropped; in the middle of its fan-out it takes the entry of its key with it. -/
def drop (w : World Shared) (c : ℕ) (caller : Caller Shared) : World Shared :=
  match caller.phase with
  | .Asking _ => (w.remove caller.key .Gone).go c .Dropped
  | .Done _ _ => w
  | _ => w.go c .Dropped

end World

/-- A caller comes, goes on by one step, or is dropped; a fan-out ends. -/
inductive Action (Shared : Type*)
  | call (question : Question) (bypass_cache : Bool)
  | look (caller : ℕ)
  | wait (caller : ℕ)
  | insert (caller : ℕ)
  | ends (caller : ℕ) (result : Shared)
  | drop (caller : ℕ)

namespace World

variable {Shared : Type*}

def step (w : World Shared) : Action Shared → World Shared
  | .call question bypass_cache =>
    { w with callers := w.callers ++ [⟨question, bypass_cache, .Looking⟩] }
  | .look c =>
    match w.callers[c]? with
    | some caller =>
      match caller.phase with
      | .Looking => w.look c caller
      | _ => w
    | none => w
  | .wait c =>
    match w.callers[c]? with
    | some caller =>
      match caller.phase with
      | .Waiting i => w.wait c i
      | _ => w
    | none => w
  | .insert c =>
    match w.callers[c]? with
    | some caller =>
      match caller.phase with
      | .Inserting => w.insert c caller
      | _ => w
    | none => w
  | .ends c result =>
    match w.callers[c]? with
    | some caller =>
      match caller.phase with
      | .Asking _ => w.publish c caller result
      | _ => w
    | none => w
  | .drop c =>
    match w.callers[c]? with
    | some caller => w.drop c caller
    | none => w

end World

end Coalesce

end Rurge
