import Rurge.Text
import Rurge.Lib.Assoc
import Rurge.Lib.Runs

/-!
# What the automatic groups keep

The overrides, the members held on to, the last rounds of tests and the rounds asked for, which
outlive the config generations, with the scheduler that is told of what is asked for.  A round reads
the network epoch as it begins and hands it back as it ends; in between anything may happen.  A
`wake` takes two locks one after the other, and a `connect` takes both at once.
-/

namespace Rurge

namespace AutoGroups

inductive GroupKind
  | Select
  | UrlTest
  | Fallback
  | LoadBalance
  | Smart
  | Subnet
  deriving DecidableEq

/-- The group picks by its tests. -/
def GroupKind.automatic : GroupKind → Bool
  | .UrlTest | .Fallback | .LoadBalance => true
  | _ => false

/-- A group as its generation defines it, its place in the profile left out; `rest` stands for what
nothing here looks into. -/
structure GroupSpec where
  name : Str
  kind : GroupKind
  rest : List Str
  deriving DecidableEq

structure Override where
  member : Str
  spec : GroupSpec
  warned : Bool

/-- A round of tests that is a group's last: when it ended, and in which network epoch it began. -/
structure Round where
  ended : ℕ
  began : ℕ
  deriving DecidableEq

/-- What is kept under the state lock. Of a round asked for, it is also noted when it was. -/
structure State where
  overrides : Assoc Str Override
  picks : Assoc Str Str
  rounds : Assoc Str Round
  requested : Assoc Str ℕ
  epoch : ℕ
  cleared : Assoc Str ℕ

namespace State

def new : State := ⟨∅, ∅, ∅, ∅, 0, ∅⟩

/-- A round of `group` is over: it is the last one unless a network change has taken the last round
from the group since it began. -/
def round_over (now began : ℕ) (state : State) (group : Str) : State :=
  { state with
    rounds := if (state.cleared.lookup group).all (· ≤ began) then
        state.rounds.insert group ⟨now, began⟩
      else state.rounds
    requested := state.requested.erase group }

/-- A round of tests of `groups` that began in network epoch `began` has ended. -/
def round_ended (state : State) (now : ℕ) (groups : List Str) (began : ℕ) : State :=
  groups.foldl (round_over now began) state

/-- When the last round of tests of `group` ended. -/
def last_round (state : State) (group : Str) : Option ℕ :=
  (state.rounds.lookup group).map Round.ended

def set_override (state : State) (spec : GroupSpec) (member : Str) : State :=
  { state with overrides := state.overrides.insert spec.name ⟨member, spec, false⟩ }

def clear_override (state : State) (group : Str) : State :=
  { state with overrides := state.overrides.erase group }

/-- The override of `group`, while it names one of `members`; one that no longer does is said
once. -/
def override_of (state : State) (group : Str) (members : List Str) : Option Str × State :=
  match state.overrides.lookup group with
  | none => (none, state)
  | some o =>
    if o.member ∈ members then (some o.member, state)
    else if o.warned then (none, state)
    else (none, { state with overrides := state.overrides.insert group { o with warned := true } })

def set_pick (state : State) (group member : Str) : State :=
  if state.picks.lookup group = some member then state
  else { state with picks := state.picks.insert group member }

/-- The group of a name in a generation. -/
def by_name (groups : List GroupSpec) (name : Str) : Option GroupSpec :=
  groups.reverse.find? fun spec => spec.name = name

/-- A new generation of the profile. -/
def retain (state : State) (groups : List GroupSpec) : State :=
  { state with
    overrides := state.overrides.retain fun group o => by_name groups group = some o.spec
    picks := state.picks.retain fun group _ => (by_name groups group).isSome
    rounds := state.rounds.retain fun group _ => (by_name groups group).isSome
    cleared := state.cleared.retain fun group _ => (by_name groups group).isSome }

/-- What a network change takes from one group, at the epoch it began. -/
def change_group (state : State) (group : GroupSpec) : State :=
  match group.kind with
  | .UrlTest | .Fallback | .LoadBalance =>
    { state with
      rounds := state.rounds.erase group.name
      cleared := state.cleared.insert group.name state.epoch }
  | .Subnet => { state with overrides := state.overrides.erase group.name }
  | .Select | .Smart => state

/-- The network has changed. -/
def network_changed (state : State) (groups : List GroupSpec) : State :=
  groups.foldl change_group { state with epoch := state.epoch + 1 }

end State

/-- The state, the connected scheduler's channel with what was sent on it and when, how many rounds
have ended, the groups of the generation in force, the wakes that are between their two locks, and
the rounds under way with the groups they cover and the epoch they began in. -/
structure World where
  state : State
  wake : Option (List (Str × ℕ))
  rounds : ℕ
  groups : List GroupSpec
  waking : List (Str × ℕ)
  running : List (List Str × ℕ)
  now : ℕ

namespace World

/-- Nothing kept, nothing under way. -/
def new : World := ⟨.new, none, 0, [], [], [], 0⟩

/-- A round of tests begins: it covers `groups`, or `group` alone when a reload took it away. -/
def begins (w : World) (group : Str) (groups : List Str) : World :=
  { w with running := w.running ++ [(if groups = [] then [group] else groups, w.state.epoch)] }

/-- A round under way ends. -/
def ends (w : World) (i : ℕ) : World :=
  match w.running[i]? with
  | some (groups, began) =>
    { w with
      state := w.state.round_ended w.now groups began
      rounds := w.rounds + 1
      running := w.running.eraseIdx i }
  | none => w

/-- The first half of a `wake`: the request is noted, unless there is one. -/
def asks (w : World) (group : Str) : World :=
  if (w.state.requested.lookup group).isSome then w
  else
    { w with
      state := { w.state with requested := w.state.requested.insert group w.now }
      waking := w.waking ++ [(group, w.now)] }

/-- The second half of a `wake`: the scheduler is told, if there is one. -/
def sends (w : World) (i : ℕ) : World :=
  match w.waking[i]? with
  | some (group, _) =>
    { w with
      wake := w.wake.map fun sent => sent ++ [(group, w.now)]
      waking := w.waking.eraseIdx i }
  | none => w

/-- A scheduler connects: it is sent every request there is. -/
def connect (w : World) : World :=
  { w with wake := some (w.state.requested.keys.map fun group => (group, w.now)) }

end World

/-- What may happen, each under the locks it takes. -/
inductive Action
  | begins (group : Str) (groups : List Str)
  | ends (round : ℕ)
  | network_changed
  | retain (groups : List GroupSpec)
  | asks (group : Str)
  | sends (waking : ℕ)
  | connect
  | set_override (spec : GroupSpec) (member : Str)
  | clear_override (group : Str)
  | override_of (group : Str) (members : List Str)
  | set_pick (group member : Str)

namespace World

def act (w : World) : Action → World
  | .begins group groups => w.begins group groups
  | .ends round => w.ends round
  | .network_changed => { w with state := w.state.network_changed w.groups }
  | .retain groups => { w with state := w.state.retain groups, groups := groups }
  | .asks group => w.asks group
  | .sends waking => w.sends waking
  | .connect => w.connect
  | .set_override spec member => { w with state := w.state.set_override spec member }
  | .clear_override group => { w with state := w.state.clear_override group }
  | .override_of group members => { w with state := (w.state.override_of group members).2 }
  | .set_pick group member => { w with state := w.state.set_pick group member }

def step (w : World) (a : Action) : World := { w.act a with now := w.now + 1 }

end World

end AutoGroups

end Rurge
