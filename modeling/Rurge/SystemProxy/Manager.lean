import Rurge.SystemProxy.Settings

/-!
# The system proxy's manager

`SystemProxyManager` (`cli/sysproxy.rs`) points the operating system at the program and gives it
back: `enable`, `disable` and `refresh` are its calls, `recover` is what a start runs.  They are
programs over a `Backend`'s commands, the manager's own memory and `state.json`; the job of a
backend call may fail after any of its commands (`blocking`).

A `Machine` is a backend with the system it works on: the settings, what a command may do to them,
and what the next start may find different.
-/

namespace Rurge.SystemProxy

/-- `SystemProxy`: what reads the system's settings, points them at the program and puts them back,
as programs over the system's tools. -/
structure Backend where
  Tool : Type
  Ans : Tool → Type
  Backup : Type
  snapshot : Prog Tool Ans (Except Str Backup)
  apply : ProxySettings → Prog Tool Ans (Except Str Unit)
  restore : Backup → Prog Tool Ans (Except Str Unit)

/-- What `state.json` has of the system proxy. -/
structure State (Backup : Type) where
  system_proxy_backup : Option Backup
  /-- `features.system_proxy`. -/
  system_proxy : Bool

/-- The call of the backend a command belongs to. -/
inductive Job
  | snapshot
  | apply
  | restore
  deriving DecidableEq

/-- What the manager's programs ask for: a command of a backend call, `state.json`, the manager's
own memory.  The last two are history: how a call of the backend ended. -/
inductive Op (B : Backend)
  | tool (job : Job) (t : B.Tool)
  | snapshot
  | update (f : State B.Backup → State B.Backup)
  | applied
  | set_applied (applied : Option ProxySettings)
  | set_flag (flag : Bool)
  | apply_ended (settings : ProxySettings) (ok : Bool)
  | restore_ended (backup : B.Backup) (ok : Bool)

/-- What an operation answers; `none` for a command in which the job's task failed. -/
@[reducible] def Ans (B : Backend) : Op B → Type
  | .tool _ t => Option (B.Ans t)
  | .snapshot => State B.Backup
  | .applied => Option ProxySettings
  | .update _ | .set_applied _ | .set_flag _ | .apply_ended _ _ | .restore_ended _ _ => Unit

section Programs

variable {B : Backend}

/-- A backend call on a blocking thread: its result, or the error of its task. -/
def blocking {α : Type} (job : Job) :
    Prog B.Tool B.Ans (Except Str α) → Prog (Op B) (Ans B) (Except Str α)
  | .done r => .done r
  | .ask t k => .ask (.tool job t) fun
    | none => .done (.error "system proxy task failed".toList)
    | some x => blocking job (k x)

/-- `Result::is_ok`. -/
def is_ok : Except Str Unit → Bool
  | .ok _ => true
  | .error _ => false

/-- `backend.restore` of the saved settings. -/
def restoring (saved : B.Backup) : Prog (Op B) (Ans B) (Except Str Unit) := do
  let restored ← blocking .restore (B.restore saved)
  let _ ← Prog.call (.restore_ended saved (is_ok restored))
  return restored

/-- `backend.apply` of the wanted settings. -/
def applying (wanted : ProxySettings) : Prog (Op B) (Ans B) (Except Str Unit) := do
  let applied ← blocking .apply (B.apply wanted)
  let _ ← Prog.call (.apply_ended wanted (is_ok applied))
  return applied

def forget : Prog (Op B) (Ans B) Unit := do
  let _ ← Prog.call (.update fun _ => { system_proxy_backup := none, system_proxy := false })
  let _ ← Prog.call (.set_applied none)
  let _ ← Prog.call (.set_flag false)
  return ()

/-- Startup: a backup still in `state.json` means the last run died with the system proxy pointing
at it. -/
def recover : Prog (Op B) (Ans B) (Option (Except Str Unit)) := do
  let state ← Prog.call .snapshot
  match state.system_proxy_backup with
  | none => return none
  | some saved =>
    let restored ← restoring saved
    match restored with
    | .ok () => forget
    | .error _ => pure ()
    return some restored

/-- Restores the saved settings. When the restore fails the backup stays in `state.json`, so the
next start tries again. -/
def disable : Prog (Op B) (Ans B) (Except Str Unit) := do
  let state ← Prog.call .snapshot
  let given : Prog (Op B) (Ans B) (Except Str Unit) := match state.system_proxy_backup with
    | some saved => restoring saved
    | none => pure (.ok ())
  given.andThen fun _ => do
    forget
    return .ok ()

/-- The first part of `enable`, while nothing is applied: the backup is saved before anything
changes.  A backup that is already saved is the real original (an earlier restore failed). -/
def prepare : Prog (Op B) (Ans B) (Except Str Unit) := do
  let state ← Prog.call .snapshot
  let backup : Prog (Op B) (Ans B) (Except Str (Option B.Backup)) :=
    match state.system_proxy_backup with
    | some _ => pure (.ok none)
    | none => (blocking .snapshot B.snapshot).andThen fun backup => pure (.ok (some backup))
  backup.andThen fun backup => do
    let _ ← Prog.call (.update fun s =>
      { system_proxy_backup := backup.or s.system_proxy_backup, system_proxy := true })
    return .ok ()

/-- The second part of `enable`: the apply, undone when it fails. -/
def point (settings : ProxySettings) : Prog (Op B) (Ans B) (Except Str Unit) := do
  match ← applying settings with
  | .ok () =>
    let _ ← Prog.call (.set_applied (some settings))
    let _ ← Prog.call (.set_flag true)
    return .ok ()
  | .error e =>
    -- a partial apply may have changed something: put the original back
    match ← disable with
    | .ok () => pure ()
    | .error _ =>
      let _ ← Prog.call (.set_applied none)
      let _ ← Prog.call (.set_flag false)
    return .error e

def enable (settings : ProxySettings) : Prog (Op B) (Ans B) (Except Str Unit) := do
  let applied ← Prog.call .applied
  if applied = some settings then return .ok ()
  let ready : Prog (Op B) (Ans B) (Except Str Unit) :=
    if applied = none then prepare else pure (.ok ())
  ready.andThen fun _ => point settings

/-- After a reload: follow the listeners and `skip-proxy` when they changed. -/
def refresh (settings : Option ProxySettings) : Prog (Op B) (Ans B) (Except Str Unit) := do
  let applied : Option ProxySettings ← Prog.call (Op.applied (B := B))
  match settings with
  | some settings => if applied.isSome then enable settings else return .ok ()
  | none => return .ok ()

/-- The calls of the manager. -/
inductive Call
  | enable (settings : ProxySettings)
  | disable
  | refresh (settings : Option ProxySettings)

/-- The manager: its calls, and `recover` at a start. -/
def manager (B : Backend) : Process (Op B) (Ans B) Call (Option (Except Str Unit)) where
  prog
    | .enable settings => do return some (← enable settings)
    | .disable => do return some (← disable)
    | .refresh settings => do return some (← refresh settings)
  boot := recover

end Programs

/-! ### The machine -/

/-- A backend and the system it works on.  `run` is what a tool may answer and do; `sets` the
setting a command changes; `back k v u` that the setting `k`, found at `v`, has been given back
when it is at `u`; `reboot` what another start may find different. -/
structure Machine extends Backend where
  World : Type
  Setting : Type
  Value : Type
  value : World → Setting → Value
  back : Setting → Value → Value → Prop
  holds : Backup → Setting → Value → Prop
  run : (t : Tool) → World → Ans t → World → Prop
  succeeds : (t : Tool) → Ans t → Prop
  sets : Tool → Option Setting
  reboot : World → World → Prop

/-- The machine, `state.json`, the manager's memory, and the history: the last apply that ended
and how, and the backup a restore of which has succeeded with no command run since. -/
structure Sys (M : Machine) where
  world : M.World
  state : State M.Backup
  applied : Option ProxySettings
  flag : Bool
  last_apply : Option (ProxySettings × Bool)
  restored : Option M.Backup

namespace Machine

variable (M : Machine)

/-- What an operation answers and does. -/
def Step : (o : Op M.toBackend) → Sys M → Ans M.toBackend o → Sys M → Prop
  | .tool _ t, s, x, s' => ∃ y w, M.run t s.world y w ∧ (∀ z, x = some z → z = y) ∧
      s' = { s with world := w, restored := none }
  | .snapshot, s, x, s' => x = s.state ∧ s' = s
  | .update f, s, _, s' => s' = { s with state := f s.state }
  | .applied, s, x, s' => x = s.applied ∧ s' = s
  | .set_applied a, s, _, s' => s' = { s with applied := a }
  | .set_flag b, s, _, s' => s' = { s with flag := b }
  | .apply_ended p ok, s, _, s' => s' = { s with last_apply := some (p, ok) }
  | .restore_ended b ok, s, _, s' => s' = { s with restored := if ok then some b else none }

/-- A command of an apply is about a setting that the saved backup holds. -/
def Covered (o : Op M.toBackend) (s : Sys M) : Prop :=
  ∀ t k b, o = .tool .apply t → M.sets t = some k → s.state.system_proxy_backup = some b →
    ∃ v, M.holds b k v

/-- The steps in which an apply reaches no further than the saved backup. -/
def CoveredStep (o : Op M.toBackend) (s : Sys M) (x : Ans M.toBackend o) (s' : Sys M) : Prop :=
  M.Step o s x s' ∧ M.Covered o s

/-- The steps in which no call of the backend fails. -/
def GoodStep (o : Op M.toBackend) (s : Sys M) (x : Ans M.toBackend o) (s' : Sys M) : Prop :=
  M.Step o s x s' ∧ match o, x with
    | .tool _ t, x => ∃ z, x = some z ∧ M.succeeds t z
    | _, _ => True

/-- A start after a death: `state.json` is as it was, the memory is new. -/
def Fresh (s s' : Sys M) : Prop :=
  M.reboot s.world s'.world ∧ s'.state = s.state ∧ s'.applied = none ∧ s'.flag = false ∧
    s'.restored = none

end Machine

/-- Nothing has been changed, and nothing is saved. -/
def Sys.first {M : Machine} (w : M.World) : Sys M :=
  { world := w, state := { system_proxy_backup := none, system_proxy := false }, applied := none,
    flag := false, last_apply := none, restored := none }

end Rurge.SystemProxy
