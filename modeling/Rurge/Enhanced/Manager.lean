import Rurge.Enhanced.System

/-!
# The enhanced mode's manager

`EnhancedMode` (`cli/enhanced/mod.rs`): `enable`, `disable` and `follow` are its calls, `recover` is
what a start runs.  They are programs over the platform's tools, `state.json`, the egress table's
slot and the manager's own memory; the job of a backend call may fail after any of its tools.

`Sys` has beside these the history that the results are about: on which networks a call of `routes`
that failed left the adapter and the manager's record apart, and how the calls of the backend ended.
-/

namespace Rurge.Enhanced

/-- What the enhanced mode should be now. -/
structure Wanted where
  routes : RouteSet
  ipv6 : Bool
  primary : Option Str

/-- What the enhanced mode did and holds while it is on; while it opens, the part of that it has got
to. -/
structure On where
  dev : Option Str
  tun : Bool
  /-- The routes installed into the adapter. -/
  routes : Option RouteSet
  ipv6 : Bool
  /-- The egress table is in the slot. -/
  egress : Bool
  /-- The system's DNS is taken over, or its takeover was attempted. -/
  dns : Bool
  /-- The system's own adjustments are made or attempted. -/
  adjust : Bool

def On.default : On := ⟨none, false, none, false, false, false, false⟩

/-- `state.json`'s `enhanced_backup`: undo actions, or what this version cannot read and why. -/
inductive Backup
  | undo (actions : List Undo)
  | unreadable (e : Str)

/-- What `state.json` has of the enhanced mode. -/
structure State where
  enhanced_backup : Option Backup
  /-- `features.enhanced_mode`. -/
  enhanced_mode : Bool

/-- What the manager tells the rest of the program. -/
structure Links where
  exclude : List Str
  enhanced : Bool
  physical : Option (List SocketAddr)
  enabled : Bool

/-- What a call of the backend was about, as far as its end is history. -/
inductive Called
  /-- `routes`, and the routes the manager has on record when it fails. -/
  | routes (recorded add remove : RouteSet)
  | undo (one : Undo)
  /-- `configure` and `configure_ipv6`. -/
  | address
  | other

/-- How a call of the backend ended; `no` is `Ok(false)`. -/
inductive How
  | ok
  | no
  | failed
  deriving DecidableEq

/-- What the manager's programs ask for.  The last three are history: a call of the manager began,
a call of the backend ended, and what is astray may be out of the table from here. -/
inductive Op
  | tool (t : Tool)
  | snapshot
  | update (f : State → State)
  | try_update (f : State → State)
  | on
  | set_on (on : Option On)
  | start
  | stop
  | set_egress (table : Option EgressTable)
  | link (f : Links → Links)
  | system_dns_changed
  | began
  | call_ended (c : Called) (how : How)
  | left_behind

/-- What an operation answers; `none` for a tool in which the job's task failed. -/
@[reducible] def Op.Ans : Op → Type
  | tool t => Option t.Ans
  | snapshot => State
  | try_update _ => Except Str Unit
  | on => Option On
  | start => Except Str Unit
  | set_egress _ => Bool
  | update _ | set_on _ | stop | link _ | system_dns_changed | began | call_ended _ _ |
    left_behind => Unit

abbrev M (α : Type) := Prog Op Op.Ans α

/-- An operation on its own. -/
def op (o : Op) : M o.Ans := Prog.call o

/-- A backend call on a blocking thread: its result, or the error of its task. -/
def blocking {α : Type} : Job (Except Str α) → M (Except Str α)
  | .done r => .done r
  | .ask t k => .ask (.tool t) fun
    | none => .done (.error "the enhanced mode's backend task failed".toList)
    | some x => blocking (k x)

def How.of {α : Type} : Except Str α → How
  | .ok _ => .ok
  | .error _ => .failed

/-- `Ok(false)` is an answer of its own. -/
def How.ofBool : Except Str Bool → How
  | .ok true => .ok
  | .ok false => .no
  | .error _ => .failed

/-- One backend call. -/
def call {α : Type} (job : Job (Except Str α)) (c : Called := .other) : M (Except Str α) := do
  let r ← blocking job
  op (.call_ended c (.of r))
  return r

/-- One backend call that may answer that IPv6 cannot be had. -/
def ask (c : Called) (job : Job (Except Str Bool)) : M (Except Str Bool) := do
  let r ← blocking job
  op (.call_ended c (.ofBool r))
  return r

/-- A part of a program that is left out unless `c`. -/
def only_if (c : Bool) (p : M Unit) : M Unit := if c then p else pure ()

/-- A fallible part of a program that is left out unless `c`. -/
def only_when (c : Bool) (p : M (Except Str Unit)) : M (Except Str Unit) :=
  if c then p else pure (.ok ())

def table (routes : RouteSet) (wanted : Wanted) (subnets : List (IpNetAny × Str)) : EgressTable :=
  ⟨routes, wanted.primary, subnets⟩

/-! ### The backup -/

/-- `state.json`'s `enhanced_backup` for these undo actions: none when there are none. -/
def backup_value (undo : List Undo) : Option Backup :=
  if undo.isEmpty then none else some (.undo undo)

def cannot_be_read (e : Str) : Str :=
  "state.json's enhanced backup cannot be read: ".toList ++ e

/-- The undo actions `state.json` holds, in the order the changes were made. -/
def saved_undo : M (Except Str (List Undo)) := do
  let state ← op .snapshot
  match state.enhanced_backup with
  | none => return .ok []
  | some (.undo actions) => return .ok actions
  | some (.unreadable e) => return .error (cannot_be_read e)

/-- Writes the backup as these undo actions. A backup that cannot be written stops the step it is
for. -/
def save_undo (undo : List Undo) : M (Except Str Unit) :=
  match backup_value undo with
  | none => pure (.ok ())
  | some value => do
    let written ← op (.try_update fun s => { s with enhanced_backup := some value })
    match written with
    | .ok _ => return .ok ()
    | .error e => return .error ("cannot write state.json: ".toList ++ e)

/-- What a close met: the first error, and where in the backup what did go back is. -/
structure Closing where
  first : Option Str
  undone : List ℕ

def Closing.default : Closing := ⟨none, []⟩

def Closing.keep (closing : Closing) (error : Str) : Closing :=
  { closing with first := closing.first.or (some error) }

/-- What is left of `saved`, in its order. -/
def Closing.remaining (closing : Closing) (saved : List Undo) : List Undo :=
  (saved.zipIdx.filter fun e => e.2 ∉ closing.undone).map (·.1)

/-- `closing.first` as the result. -/
def Closing.result (closing : Closing) : Except Str Unit :=
  match closing.first with
  | none => .ok ()
  | some e => .error e

/-- Writes what did not go back. -/
def rewrite_backup (closing : Closing) (saved : List Undo) : M Unit :=
  let remaining := closing.remaining saved
  op (.update fun s => {
    enhanced_backup := backup_value remaining
    enhanced_mode := if remaining.isEmpty then false else s.enhanced_mode })

section Programs

variable (S : System)

/-- Saved changes put back, each with its position: one that goes back is noted, and one that fails
keeps its place in the backup. -/
def undo_each : List (Undo × ℕ) → Closing → M Closing
  | [], closing => .done closing
  | (undo, index) :: rest, closing => call (S.undo undo) (.undo undo) >>= fun
    | .ok _ => undo_each rest { closing with undone := closing.undone ++ [index] }
    | .error e => undo_each rest (closing.keep e)

/-- The saved changes of one stage. -/
def undo_stage (stage : Stage) (saved : List Undo) (closing : Closing) : M Closing :=
  undo_each S (saved.zipIdx.filter fun e => e.1.stage = stage) closing

/-! ### Startup -/

/-- The undo actions a run that died left in `state.json` are done, last first; each that is done
leaves the backup. -/
def recover : M (Option (Except Str Unit)) := do
  op .began
  let state ← op .snapshot
  match state.enhanced_backup with
  | none =>
    only_if state.enhanced_mode (op (.update fun s => { s with enhanced_mode := false }))
    return none
  | some (.unreadable e) => return some (.error (cannot_be_read e))
  | some (.undo actions) =>
    let closing ← undo_each S actions.zipIdx.reverse .default
    rewrite_backup closing actions
    return some closing.result

/-! ### The open -/

/-- `?` in the open: what it has got to, and the error. -/
def attempt {α : Type} (on : On) (p : M (Except Str α)) (f : α → M (On × Except Str Unit)) :
    M (On × Except Str Unit) :=
  p >>= fun
    | .ok a => f a
    | .error e => .done (on, .error e)

/-- The directly connected subnets of the physical interfaces; a read that fails is an empty
list. -/
def physical_subnets (adapter : Str) : M (List (IpNetAny × Str)) := do
  let subnets ← call (tool (.subnets [adapter]))
  match subnets with
  | .ok subnets => return subnets
  | .error _ => return []

/-- The DNS servers of the network outside the enhanced mode into their slot. -/
def read_physical (primary : Option Str) (saved : List Undo) (network_changed : Bool) :
    M Unit := do
  let read ← call ((tool (.physical_dns primary saved network_changed)) >>= fun servers =>
    pure (.ok servers))
  match read with
  | .ok servers => op (.link fun l => { l with physical := servers })
  | .error _ => op (.link fun l => { l with physical := some [] })

/-- Whether an action is undone after the device is gone. -/
def is_adjust (undo : Undo) : Bool := undo.stage = .adjust

/-- Steps 8 and 9 of the open: the system's own adjustments, and the flag. -/
def open_adjust (on : On) (wanted : Wanted) (undo : List Undo) : M (On × Except Str Unit) :=
  attempt on (call (S.adjust_saved wanted.primary undo)) fun saved_adjust =>
  let undo := undo ++ saved_adjust.toList
  attempt on (only_when saved_adjust.isSome (save_undo undo)) fun _ =>
  -- the stage was reached whether or not it wrote anything
  let on := { on with adjust := true }
  attempt on (only_when (undo.any is_adjust) (call S.adjust)) fun _ => do
    op (.update fun s => { s with enhanced_mode := true })
    return (on, .ok ())

/-- Steps 6 and 7: what taking the DNS over will need goes into the backup before it is done. -/
def open_dns (on : On) (dev : Str) (wanted : Wanted) (ipv6 : Bool) (undo : List Undo) :
    M (On × Except Str Unit) :=
  attempt on (call (S.dns_saved dev undo)) fun saved_dns =>
  let undo := undo ++ saved_dns
  attempt on (only_when (!saved_dns.isEmpty) (save_undo undo)) fun _ => do
    -- a takeover that fails may have changed half of it
    let on := { on with dns := true }
    let taken ← call (S.take_dns dev ipv6)
    read_physical wanted.primary undo false
    op .system_dns_changed
    attempt on (pure taken) fun _ => open_adjust S on wanted undo

/-- Step 5: the routes. A set that loses its IPv6 half takes the open on as if IPv6 were off. -/
def open_routes (on : On) (dev : Str) (wanted : Wanted) (ipv6 : Bool) (undo : List Undo) :
    M (On × Except Str Unit) := do
  let routes : RouteSet := if ipv6 then wanted.routes else ⟨wanted.routes.v4, []⟩
  let added ← ask (.routes .empty routes .empty) (S.routes dev routes .empty)
  op .left_behind
  attempt on (pure added) fun added =>
    let routes : RouteSet := if added then routes else ⟨routes.v4, []⟩
    let ipv6 := ipv6 && added
    open_dns S { on with routes := some routes, ipv6 := ipv6 } dev wanted ipv6 undo

/-- The open: the device, the adapter, the TUN, the egress table, the routes, then the two things
that outlive the process, each of them after its undo action is in the backup. -/
def open_ (wanted : Wanted) (saved : List Undo) : M (On × Except Str Unit) :=
  attempt .default (call S.open_device) fun dev => do
    let on := { On.default with dev := some dev }
    op (.link fun l => { l with exclude := [dev] })
    attempt on (ask .address (S.configure dev wanted.ipv6)) fun configured =>
    let ipv6 := wanted.ipv6 && configured
    let on := { on with ipv6 := ipv6 }
    attempt on (op .start) fun _ => do
      let on := { on with tun := true }
      -- the egress table, before the routes
      let subnets ← physical_subnets dev
      let _ ← op (.set_egress (some (table wanted.routes wanted subnets)))
      op (.link fun l => { l with enhanced := true })
      op .system_dns_changed
      open_routes S { on with egress := true } dev wanted ipv6 saved

/-! ### The close -/

/-- An error is kept, and the close goes on. -/
def Closing.after {α : Type} (closing : Closing) : Except Str α → Closing
  | .ok _ => closing
  | .error e => closing.keep e

/-- The DNS: what goes away with the device, then what outlives it. -/
def close_dns (dev : Str) (dns : Bool) (saved : List Undo) : M Closing :=
  if dns then do
    let given ← call (S.give_dns_back dev)
    let closing ← undo_stage S .dns saved (Closing.default.after given)
    op (.link fun l => { l with physical := none })
    op .system_dns_changed
    return closing
  else pure .default

/-- The routes: the traffic goes back to the physical adapter first. -/
def close_routes (dev : Str) (routes : Option RouteSet) (closing : Closing) : M Closing :=
  match routes with
  | some routes => do
    let removed ← ask (.routes .empty .empty routes) (S.routes dev .empty routes)
    op .left_behind
    return closing.after removed
  | none => pure closing

/-- The device. -/
def close_device (closing : Closing) : M Closing := do
  let closed ← call (tool .close >>= fun _ => pure (.ok ()))
  return closing.after closed

/-- The system's own adjustments go back after the device is gone. -/
def close_adjust (adjust : Bool) (saved : List Undo) (closing : Closing) : M Closing :=
  if adjust then undo_stage S .adjust saved closing else pure closing

/-- The table is gone, so the machine's DNS is its own again. -/
def close_egress : M Unit := do
  let _ ← op (.set_egress none)
  op (.link fun l => { l with enhanced := false })
  op .system_dns_changed

/-- Undoes what `on` did. Each step that fails is logged and the rest still happens; the first error
is what comes back. -/
def close (on : On) (saved : List Undo) (rewrite : Bool) : M (Except Str Unit) :=
  match on.dev with
  | none => do
    -- nothing was done
    op (.link fun l => { l with enabled := false })
    return .ok ()
  | some dev => do
    let closing ← close_dns S dev on.dns saved
    let closing ← close_routes S dev on.routes closing
    only_if on.egress close_egress
    only_if on.tun (op .stop)
    let closing ← close_device closing
    let closing ← close_adjust S on.adjust saved closing
    only_if rewrite (rewrite_backup closing saved)
    op (.link fun l => { l with exclude := [], enabled := false })
    return closing.result

/-! ### The calls -/

/-- Already on: `Ok` at once. -/
def enable (wanted : Wanted) : M (Except Str Unit) := do
  op .began
  let on ← op .on
  if on.isSome then return .ok ()
  saved_undo.andThen fun saved => do
    let opened ← open_ S wanted saved
    match opened.2 with
    | .ok _ =>
      op (.link fun l => { l with enabled := true })
      op (.set_on (some opened.1))
      return .ok ()
    | .error e =>
      -- what the open did goes back the way a close undoes it
      let current ← saved_undo
      let _ ← match current with
        | .ok current => close S opened.1 current true
        | .error _ => close S opened.1 saved false
      return .error e

/-- Never stops halfway; the first error is what comes back. -/
def disable : M (Except Str Unit) := do
  op .began
  let on ← op .on
  match on with
  | none => return .ok ()
  | some on =>
    op (.set_on none)
    let saved ← saved_undo
    match saved with
    | .ok saved => close S on saved true
    -- what a close cannot read it does not guess at
    | .error _ => close S on [] false

/-- Takes the system's DNS over again: what taking it over will need goes into the backup first. -/
def take_the_dns_again (dev : Str) (ipv6 : Bool) (primary : Option Str) (network_changed : Bool) :
    M Unit := do
  let saved ← saved_undo
  match saved with
  | .error _ => return ()
  | .ok saved =>
    let save ← call (S.dns_saved dev saved)
    match save with
    | .error _ => return ()
    | .ok save =>
      let saved := saved ++ save
      let written ← only_when (!save.isEmpty) (save_undo saved)
      match written with
      | .error _ => return ()
      | .ok _ =>
        let _ ← call (S.take_dns dev ipv6)
        only_if network_changed (read_physical primary saved true)
        op .system_dns_changed

/-- The system's own adjustments once more, after a change of network. -/
def adjust_again (primary : Option Str) : M Unit := do
  let saved ← saved_undo
  match saved with
  | .error _ => return ()
  | .ok saved =>
    let save ← call (S.adjust_saved primary saved)
    match save with
    | .error _ => return ()
    | .ok save =>
      let saved := saved ++ save.toList
      let written ← only_when save.isSome (save_undo saved)
      match written with
      | .error _ => return ()
      | .ok _ =>
        let _ ← only_when (saved.any is_adjust) (call S.adjust)
        return ()

/-- IPv6 coming: the adapter's address. One that cannot be had, or of which nothing is known, counts
as off. -/
def follow_address (dev : Str) (turning_on ipv6 : Bool) : M Bool :=
  if turning_on then do
    let configured ← ask .address (S.configure_ipv6 dev)
    match configured with
    | .ok had => return had
    | .error _ => return false
  else pure ipv6

/-- The routes of a follow: only what differs. Answers the routes on record, whether IPv6 is on, and
whether another table went in. -/
def follow_routes (dev : Str) (recorded : Option RouteSet) (wanted : Wanted)
    (was_ipv6 ipv6 : Bool) (subnets : List (IpNetAny × Str)) :
    M (Option RouteSet × Bool × Bool) := do
  let next : RouteSet := if ipv6 then wanted.routes else ⟨wanted.routes.v4, []⟩
  let old := recorded.getD .empty
  let add := (old.diff next).1
  let remove := (old.diff next).2
  if add.is_empty && remove.is_empty then
    let changed ← op (.set_egress (some (table next wanted subnets)))
    return (some next, ipv6, changed)
  else
    let changed ← op (.set_egress (some (table (union old next) wanted subnets)))
    -- what the adapter still has of the old IPv6 routes if the new half cannot go in
    let kept_v6 := old.v6.filter (· ∉ remove.v6)
    let added ← ask (.routes old add remove) (S.routes dev add remove)
    match added with
    | .ok added =>
      op .left_behind
      let next : RouteSet := if added then next else ⟨next.v4, kept_v6⟩
      let ipv6 := if added || was_ipv6 then ipv6 else false
      let changed' ← op (.set_egress (some (table next wanted subnets)))
      return (some next, ipv6, changed || changed')
    -- what went in is unknown: the table keeps the union until the next call
    | .error _ => return (recorded, ipv6, changed)

/-- What a reload or a change of network asks of an enhanced mode that is on. A step that fails is
logged, and the rest still goes on. -/
def follow (wanted : Wanted) (network_changed : Bool) : M Unit := do
  op .began
  let on ← op .on
  match on with
  | none => return ()
  | some on =>
    match on.dev with
    | none => return ()
    | some dev =>
      op (.set_on none)
      let was_ipv6 := on.ipv6
      let turning_off := was_ipv6 && !wanted.ipv6
      let turning_on := !was_ipv6 && wanted.ipv6
      -- IPv6 going: the DNS first, while the address it points at is still there
      only_if turning_off (take_the_dns_again S dev false wanted.primary network_changed)
      -- IPv6 coming: the adapter's address first
      let ipv6 ← follow_address S dev turning_on wanted.ipv6
      let subnets ← physical_subnets dev
      let routed ← follow_routes S dev on.routes wanted was_ipv6 ipv6 subnets
      let ipv6 := routed.2.1
      let taking_the_dns := !turning_off && (ipv6 != was_ipv6 || network_changed)
      only_if taking_the_dns (take_the_dns_again S dev ipv6 wanted.primary network_changed)
      only_if (!taking_the_dns && routed.2.2) (op .system_dns_changed)
      -- IPv6 going: the address last, after its routes
      let _ ← only_when turning_off (call (S.unconfigure_ipv6 dev))
      only_if network_changed (adjust_again S wanted.primary)
      op (.set_on (some { on with routes := routed.1, ipv6 := ipv6 }))

/-- The calls of the manager. -/
inductive Call
  | enable (wanted : Wanted)
  | disable
  | follow (wanted : Wanted) (network_changed : Bool)

/-- The manager: its calls, and `recover` at a start. -/
def manager : Process Op Op.Ans Call (Option (Except Str Unit)) where
  prog
    | .enable wanted => do return some (← enable S wanted)
    | .disable => do return some (← disable S)
    | .follow wanted network_changed => do
      let _ ← follow S wanted network_changed
      return none
  boot := recover S

end Programs

/-! ### The system -/

/-- How the calls of the backend have ended since the last call of the manager began: whether one
failed, whether IPv6 was refused to the adapter or its routes left out, whether an undo failed, and
whether a write of `state.json` failed. -/
structure Outcome where
  failed : Bool
  refused : Bool
  left_out : Bool
  undo_failed : Bool
  unwritten : Bool

def Outcome.default : Outcome := ⟨false, false, false, false, false⟩

/-- Everything the manager works on, and the history: the networks on which a `routes` that failed
left the adapter and the record apart, and those of them that the table may be without. -/
structure Sys where
  world : World
  mem : State
  file : State
  on : Option On
  slot : Option EgressTable
  links : Links
  astray : List IpNetAny
  lost : List IpNetAny
  outcome : Outcome

def Links.first : Links := ⟨[], false, none, false⟩

namespace Sys

/-- The networks a call of `routes` leaves astray: those a removal of its left in; or, when it
failed, those where the adapter is not as the record has it. -/
def strays (s : Sys) (recorded add remove : RouteSet) : How → List IpNetAny
  | .ok => s.world.undeleted.filter (· ∈ remove.nets)
  | .no => s.world.undeleted.filter fun n =>
      n ∈ remove.nets ∨ n ∈ (⟨[], add.v6⟩ : RouteSet).nets
  | .failed => (add.nets ++ remove.nets).filter fun n =>
      ¬ (n ∈ s.world.installed ↔ n ∈ recorded.nets)

/-- The history after a call of the backend. -/
def ended (s : Sys) : Called → How → Sys
  | .routes recorded add remove, how => { s with
      astray := s.astray.filter (fun n => n ∉ add.nets ∧ n ∉ remove.nets) ++
        s.strays recorded add remove how
      outcome := { s.outcome with
        failed := s.outcome.failed || how = .failed
        left_out := s.outcome.left_out || how = .no } }
  | .undo one, how => { s with
      world := { s.world with done := if how = .ok then one :: s.world.done else s.world.done }
      outcome := { s.outcome with
        failed := s.outcome.failed || how = .failed
        undo_failed := s.outcome.undo_failed || how = .failed } }
  | .address, how => { s with
      outcome := { s.outcome with
        failed := s.outcome.failed || how = .failed
        refused := s.outcome.refused || how = .no } }
  | .other, how => { s with
      outcome := { s.outcome with failed := s.outcome.failed || how = .failed } }

/-- What an operation answers and does. -/
def Step : (o : Op) → Sys → o.Ans → Sys → Prop
  | .tool t, s, x, s' => ∃ y w, t.Run s.world y w ∧ (∀ z, x = some z → z = y) ∧
      s' = { s with world := w }
  | .snapshot, s, x, s' => x = s.mem ∧ s' = s
  -- the memory always, the file when the write succeeds
  | .update f, s, _, s' => s' = { s with mem := f s.mem, file := f s.mem } ∨
      s' = { s with mem := f s.mem, outcome := { s.outcome with unwritten := true } }
  -- both or neither
  | .try_update f, s, x, s' => match x with
    | .ok _ => s' = { s with mem := f s.mem, file := f s.mem }
    | .error _ => s' = { s with outcome := { s.outcome with unwritten := true } }
  | .on, s, x, s' => x = s.on ∧ s' = s
  | .set_on on, s, _, s' => s' = { s with on := on }
  | .start, s, _, s' => s' = s
  | .stop, s, _, s' => s' = s
  | .set_egress table, s, x, s' => (x ↔ s.slot ≠ table) ∧ s' = { s with slot := table }
  | .link f, s, _, s' => s' = { s with links := f s.links }
  | .system_dns_changed, s, _, s' => s' = s
  | .began, s, _, s' => s' = { s with lost := s.astray, outcome := .default }
  | .call_ended c how, s, _, s' => s' = s.ended c how
  | .left_behind, s, _, s' => s' = { s with lost := s.astray }

/-- A start after a death: the settings that outlive the process and `state.json` are as they were;
the adapter went with the process, and so did its memory. -/
def restarted (s : Sys) : Sys := { s with
  world := { s.world with installed := [], undeleted := [], to_take := [], took_dns := false }
  mem := s.file
  on := none
  slot := none
  links := Links.first
  astray := []
  lost := []
  outcome := .default }

def Fresh (s s' : Sys) : Prop := s' = s.restarted

/-- Nothing has been changed, and nothing is saved. -/
def first (dns : Str → Option (List IpAddr)) (rp_filter : Str → ℕ) : Sys where
  world := ⟨[], dns, rp_filter, [], false, [], [], []⟩
  mem := ⟨none, false⟩
  file := ⟨none, false⟩
  on := none
  slot := none
  links := Links.first
  astray := []
  lost := []
  outcome := .default

end Sys

end Rurge.Enhanced
