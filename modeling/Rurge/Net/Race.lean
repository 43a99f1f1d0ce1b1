import Rurge.Lib.Runs
import Rurge.Net.Addr

/-!
# The connection race

Which of the resolved addresses are tried, in what order, and the race between the attempts.  The
race is a machine whose loop stands at its `select!` between two actions: time goes by, an attempt
ends, or the loop takes one of its branches.  A `JoinSet` gives its tasks in the order in which they
end.
-/

namespace Rurge

/-! ### The plan -/

namespace Race

/-- Delay between the starts of two connection attempts, in nanoseconds. -/
def STAGGER : ℕ := 250 * 1000000

/-- When the other address family joins the race. -/
def OTHER_FAMILY_AFTER : ℕ := 3 * 1000000000

/-- `io::ErrorKind`: the two that the race gives itself, and those of the attempts. -/
inductive ErrorKind
  | NotFound
  | Other
  | Connect (code : ℕ)
  deriving DecidableEq

structure IoError where
  kind : ErrorKind
  message : Str
  deriving DecidableEq

def NO_ADDRESSES : IoError := ⟨.NotFound, "no addresses to connect to".toList⟩

/-- How an attempt ends: with a connection, with an error, or with a panic, given by the text of its
`JoinError`. -/
inductive Joined (T : Type)
  | Ok (value : T)
  | Err (e : IoError)
  | Panicked (e : Str)

/-- What the race makes of it. -/
def Joined.result {T : Type} : Joined T → Except IoError T
  | .Ok value => .ok value
  | .Err e => .error e
  | .Panicked e => .error ⟨.Other, "connection attempt failed: ".toList ++ e⟩

/-- What happened in a race, for what is said of it: attempts are named by the order of their
starts, and `Failed` is where the race hears of a failure. -/
inductive Happened (A T : Type)
  | Started (addr : A) (time : ℕ)
  | Ended (attempt : ℕ) (joined : Joined T)
  | Failed (attempt : ℕ) (e : IoError)
  | SecondaryJoined (time : ℕ)

/-- The race, and what happened in it: `attempts` is the set of tasks, those that run and those that
have ended and wait to be joined. -/
structure State (A T : Type) where
  now : ℕ
  started : ℕ
  queue : List A
  secondary : Option (List A)
  running : List ℕ
  finished : List (ℕ × Joined T)
  next_launch : ℕ
  last : IoError
  returned : Option (Except IoError T)
  history : List (Happened A T)

variable {A T : Type}

/-- The addresses that were tried. -/
def starts (history : List (Happened A T)) : List A :=
  history.filterMap fun
    | .Started addr _ => some addr
    | _ => none

/-- The attempts that ended, in order. -/
def ends (history : List (Happened A T)) : List (ℕ × Joined T) :=
  history.filterMap fun
    | .Ended attempt joined => some (attempt, joined)
    | _ => none

namespace State

/-- The set of attempts is not empty. -/
def under_way (s : State A T) : Bool := s.running ≠ [] || s.finished ≠ []

/-- The secondary addresses join. -/
def join_secondary (s : State A T) (more : List A) : State A T :=
  { s with
    queue := more
    secondary := none
    next_launch := s.now
    history := s.history ++ [.SecondaryJoined s.now] }

/-- The top of the loop. -/
def turn (s : State A T) : State A T :=
  if s.queue = [] ∧ s.under_way = false then
    match s.secondary with
    | some more => s.join_secondary more
    | none => { s with returned := some (.error s.last) }
  else s

/-- The race at its first `select!`. -/
def start (primary secondary : List A) (now : ℕ) : State A T :=
  turn
    { now := now
      started := now
      queue := primary
      secondary := (some secondary).filter (· ≠ [])
      running := []
      finished := []
      next_launch := now
      last := NO_ADDRESSES
      returned := none
      history := [] }

/-- The branch of `next_launch`. -/
def launch (s : State A T) : State A T :=
  match s.queue with
  | [] => s
  | addr :: queue =>
    { s with
      queue := queue
      running := s.running ++ [(starts s.history).length]
      next_launch := s.now + STAGGER
      history := s.history ++ [.Started addr s.now] }

/-- The branch of an attempt that has ended. -/
def join_next (s : State A T) : State A T :=
  match s.finished with
  | [] => s
  | (attempt, joined) :: finished =>
    match joined.result with
    | .ok value => { s with returned := some (.ok value) }
    | .error e =>
      { s with
        finished := finished
        last := e
        next_launch := s.now
        history := s.history ++ [.Failed attempt e] }

/-- The branch of `OTHER_FAMILY_AFTER`. -/
def join_late (s : State A T) : State A T :=
  match s.secondary with
  | some more => s.join_secondary more
  | none => s

/-- The `k`-th of the attempts that run ends. -/
def attempt_ends (s : State A T) (k : ℕ) (joined : Joined T) : State A T :=
  match s.running[k]? with
  | none => s
  | some attempt =>
    { s with
      running := s.running.eraseIdx k
      finished := s.finished ++ [(attempt, joined)]
      history := s.history ++ [.Ended attempt joined] }

end State

/-- Time goes by, an attempt ends, or the loop takes a branch. -/
inductive Action (T : Type)
  | Pass (time : ℕ)
  | Ends (k : ℕ) (joined : Joined T)
  | Launch
  | JoinNext
  | JoinLate

/-- The guards of the branches. -/
def State.guard (s : State A T) : Action T → Bool
  | .Launch => s.queue ≠ []
  | .JoinNext => s.under_way
  | .JoinLate => s.secondary.isSome && s.queue = []
  | .Pass _ | .Ends _ _ => true

/-- What a branch waits for is there. -/
def State.ready (s : State A T) : Action T → Bool
  | .Launch => s.next_launch ≤ s.now
  | .JoinNext => s.finished ≠ []
  | .JoinLate => s.started + OTHER_FAMILY_AFTER ≤ s.now
  | .Pass _ | .Ends _ _ => true

/-- One action; a race that has returned is over. -/
def State.step (s : State A T) (action : Action T) : State A T :=
  if s.returned.isNone && s.guard action && s.ready action then
    match action with
    | .Pass time => { s with now := s.now + time }
    | .Ends k joined => s.attempt_ends k joined
    | .Launch => s.launch.turn
    | .JoinNext => s.join_next.turn
    | .JoinLate => s.join_late.turn
  else s

end Race

end Rurge
