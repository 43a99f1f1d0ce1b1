import Rurge.Text
import Rurge.Lib.Runs

/-!
# The tunnels of a process

The table of tunnels and the calls of `Device::start` upon it.  A call goes through the table with
the lock held, leaves it for the dials, and takes it again; tunnels end and are dropped at any step,
those of a call with the lock held among them.  What a section says besides its keys is only
compared, and is left to a type of its own.
-/

namespace Rurge

namespace Tunnels

/-- A peer of a section: its public key, and what else it says. -/
structure WireGuardPeer (Key Rest : Type*) where
  public_key : Key
  rest : Rest
  deriving DecidableEq

/-- A section: its private key, its peers, and what else it says. -/
structure WireGuardSection (Key Rest : Type*) where
  private_key : Key
  peers : List (WireGuardPeer Key Rest)
  rest : Rest
  deriving DecidableEq

/-- Why a tunnel is over. -/
inductive Ending
  | Superseded
  | Closed
  deriving DecidableEq

/-- A tunnel: the section and the carrier it was built of, the latest configuration that uses it,
why it is over, and whether nobody holds it any more. -/
structure Device (Key Rest : Type*) where
  config : WireGuardSection Key Rest
  carrier : Str
  generation : ℕ
  ending : Option Ending
  dropped : Bool
  deriving DecidableEq

/-- A line of the table: a section, a carrier's key, and a tunnel that it does not hold. -/
structure Entry (Key Rest : Type*) where
  config : WireGuardSection Key Rest
  carrier : Str
  device : ℕ
  deriving DecidableEq

/-- What `Device::start` gives. -/
inductive Outcome
  | Ok (device : ℕ)
  | Superseded
  | Unreachable
  | Cancelled
  deriving DecidableEq

/-- How far a call of `Device::start` has got: it waits for the lock, is at an entry of the table in
`retain`, looks for a tunnel to share and has found one; it dials; it waits for the lock again, is
at an entry in `retain`, at one it decides upon, at one it may replace; it is over. -/
inductive Stage
  | Called
  | Retaining (entry : ℕ)
  | Finding
  | Found (device : ℕ)
  | Dialling
  | Dialled
  | RetainingAgain (entry : ℕ)
  | Deciding (entry : ℕ)
  | Replacing (entry : ℕ)
  | Over (outcome : Outcome)
  deriving DecidableEq

/-- A call of `Device::start`. -/
structure Call (Key Rest : Type*) where
  config : WireGuardSection Key Rest
  carrier : Str
  generation : ℕ
  stage : Stage
  deriving DecidableEq

/-- The table, every tunnel and every call there ever was, and which call has the table's lock. -/
structure World (Key Rest : Type*) where
  tunnels : List (Entry Key Rest)
  devices : List (Device Key Rest)
  calls : List (Call Key Rest)
  lock : Option ℕ
  deriving DecidableEq

variable {Key Rest : Type*}

namespace Device

/-- The configuration of `generation` uses the tunnel too. -/
def share (device : Device Key Rest) (generation : ℕ) : Device Key Rest :=
  { device with generation := max device.generation generation }

/-- The tunnel is over, for `ending` unless something ended it before. -/
def end_with (device : Device Key Rest) (ending : Ending) : Device Key Rest :=
  { device with ending := device.ending <|> some ending }

/-- A tunnel of a later configuration took over. -/
def close (device : Device Key Rest) : Device Key Rest := device.end_with .Superseded

def is_closed (device : Device Key Rest) : Bool := device.ending.isSome

/-- Nobody holds the tunnel any more. -/
def drop (device : Device Key Rest) : Device Key Rest := { device with dropped := true }

/-- Neither dropped nor over. -/
def running (device : Device Key Rest) : Bool := !device.dropped && !device.is_closed

end Device

namespace World

/-- The tunnels there are when the process starts. -/
def new : World Key Rest := ⟨[], [], [], none⟩

/-- The tunnel of an entry, when somebody still holds it. -/
def upgrade (w : World Key Rest) (d : ℕ) : Option (Device Key Rest) :=
  w.devices[d]?.filter fun device => !device.dropped

/-- Call `k` goes on to `stage`. -/
def go (w : World Key Rest) (k : ℕ) (stage : Stage) : World Key Rest :=
  { w with calls := w.calls.modify k fun call => { call with stage := stage } }

/-- Call `k` goes on to `stage`, and the lock is free. -/
def leave (w : World Key Rest) (k : ℕ) (stage : Stage) : World Key Rest :=
  { w.go k stage with lock := none }

/-- Call `k` takes the lock if it is free, and goes on to `stage`. -/
def take (w : World Key Rest) (k : ℕ) (stage : Stage) : World Key Rest :=
  if w.lock = none then { w.go k stage with lock := some k } else w

def change (w : World Key Rest) (d : ℕ) (f : Device Key Rest → Device Key Rest) : World Key Rest :=
  { w with devices := w.devices.modify d f }

/-- The entry at `i` is taken out of the table. -/
def remove (w : World Key Rest) (i : ℕ) : World Key Rest :=
  { w with tunnels := w.tunnels.eraseIdx i }

/-- Call `k` in `retain`, at entry `i`: one whose tunnel is dropped or over goes, and after the last
entry the call goes on to `next`. -/
def retain (w : World Key Rest) (k i : ℕ) (at_ : ℕ → Stage) (next : Stage) : World Key Rest :=
  match w.tunnels[i]? with
  | none => w.go k next
  | some entry =>
    match w.upgrade entry.device with
    | some device => if device.is_closed then w.remove i else w.go k (at_ (i + 1))
    | none => w.remove i

/-- Call `k` shares tunnel `d` and returns it. -/
def shares (w : World Key Rest) (k : ℕ) (call : Call Key Rest) (d : ℕ) : World Key Rest :=
  (w.change d (·.share call.generation)).leave k (.Over (.Ok d))

end World

section Steps

variable [DecidableEq Key] [DecidableEq Rest]

/-- Whether a tunnel of `a` and one of `b` would take each other's packets. -/
def conflict (a b : WireGuardSection Key Rest) : Bool :=
  a.private_key == b.private_key &&
    a.peers.any fun p => b.peers.any fun q => q.public_key == p.public_key

/-- The entry is of the section and the carrier that the call names. -/
def Entry.is_of (entry : Entry Key Rest) (call : Call Key Rest) : Bool :=
  entry.config == call.config && entry.carrier == call.carrier

namespace World

/-- `shared_tunnel`, once the dead entries are gone: the first entry of the call's section and
carrier is looked for. -/
def find (w : World Key Rest) (k : ℕ) (call : Call Key Rest) : World Key Rest :=
  match w.tunnels.find? fun entry => entry.is_of call with
  | some entry => w.go k (.Found entry.device)
  | none => w.leave k .Dialling

/-- The tunnel found is shared, if somebody still holds it. -/
def found (w : World Key Rest) (k : ℕ) (call : Call Key Rest) (d : ℕ) : World Key Rest :=
  match w.upgrade d with
  | some _ => w.shares k call d
  | none => w.leave k .Dialling

/-- The decision at entry `i`: its tunnel is shared, or is of a later configuration and refuses the
call, or the call goes on to the next. -/
def decide_at (w : World Key Rest) (k : ℕ) (call : Call Key Rest) (i : ℕ) : World Key Rest :=
  match w.tunnels[i]? with
  | none => w.go k (.Replacing 0)
  | some entry =>
    match w.upgrade entry.device with
    | none => w.go k (.Deciding (i + 1))
    | some device =>
      if entry.is_of call then w.shares k call entry.device
      else if conflict entry.config call.config && decide (call.generation < device.generation) then
        w.leave k (.Over .Superseded)
      else w.go k (.Deciding (i + 1))

/-- The tunnel of the call, registered. -/
def register (w : World Key Rest) (k : ℕ) (call : Call Key Rest) : World Key Rest :=
  let d := w.devices.length
  let registered : World Key Rest :=
    { w with
      tunnels := w.tunnels ++ [⟨call.config, call.carrier, d⟩]
      devices := w.devices ++ [⟨call.config, call.carrier, call.generation, none, false⟩] }
  registered.leave k (.Over (.Ok d))

/-- Entry `i` goes if the call's tunnel replaces it, and its tunnel is closed if it is still held;
after the last entry the call's own tunnel is registered. -/
def replace (w : World Key Rest) (k : ℕ) (call : Call Key Rest) (i : ℕ) : World Key Rest :=
  match w.tunnels[i]? with
  | none => w.register k call
  | some entry =>
    if conflict entry.config call.config then
      match w.upgrade entry.device with
      | some _ => (w.change entry.device Device.close).remove i
      | none => w.remove i
    else w.go k (.Replacing (i + 1))

/-- The next step of call `k`, which waits while it dials. -/
def advance (w : World Key Rest) (k : ℕ) (call : Call Key Rest) : World Key Rest :=
  match call.stage with
  | .Called => w.take k (.Retaining 0)
  | .Retaining i => w.retain k i .Retaining .Finding
  | .Finding => w.find k call
  | .Found d => w.found k call d
  | .Dialling => w
  | .Dialled => w.take k (.RetainingAgain 0)
  | .RetainingAgain i => w.retain k i .RetainingAgain (.Deciding 0)
  | .Deciding i => w.decide_at k call i
  | .Replacing i => w.replace k call i
  | .Over _ => w

/-- The dials have come in, `reached` saying which peers a carrier leads to. -/
def dials (w : World Key Rest) (k : ℕ) (call : Call Key Rest) (reached : ℕ → Bool) :
    World Key Rest :=
  if (List.range call.config.peers.length).any reached then w.go k .Dialled
  else w.go k (.Over .Unreachable)

end World

end Steps

/-- `Device::start` is called, a call takes its next step, its dials come in, or it is dropped while
it dials; a tunnel is dropped, or ends. -/
inductive Action (Key Rest : Type*)
  | start (config : WireGuardSection Key Rest) (carrier : Str) (generation : ℕ)
  | advance (call : ℕ)
  | dialled (call : ℕ) (reached : ℕ → Bool)
  | cancel (call : ℕ)
  | drop (device : ℕ)
  | ends (device : ℕ)

namespace World

variable [DecidableEq Key] [DecidableEq Rest]

def step (w : World Key Rest) : Action Key Rest → World Key Rest
  | .start config carrier generation =>
    { w with calls := w.calls ++ [⟨config, carrier, generation, .Called⟩] }
  | .advance k =>
    match w.calls[k]? with
    | some call => w.advance k call
    | none => w
  | .dialled k reached =>
    match w.calls[k]? with
    | some call => if call.stage = .Dialling then w.dials k call reached else w
    | none => w
  | .cancel k =>
    match w.calls[k]? with
    | some call => if call.stage = .Dialling then w.go k (.Over .Cancelled) else w
    | none => w
  | .drop d => w.change d Device.drop
  | .ends d => w.change d (·.end_with .Closed)

end World

end Tunnels

end Rurge
