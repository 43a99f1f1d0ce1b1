import Rurge.Enhanced.Routes

/-!
# The system half of the enhanced mode

`System` is what the manager asks of the platform (`enhanced/mod.rs`), as programs over the tools
of the machine; `Linux.system` and `Macos.system` are the two that change one.  Two settings outlive
the process: the DNS servers of a macOS network service, and Linux's `rp_filter`.

A tool may fail after any part of its work (`Tool.Run`): routes may be in or out in part, and the
setting it writes may be anything.
-/

namespace Rurge.Enhanced

/-- What undoing a change that outlives the process takes: the platform's `Saved`, and the manager's
`Undo` without the file backend's own kind. -/
inductive Undo
  /-- A network service's DNS servers before the takeover (empty: none were set). -/
  | mac_dns (service : Str) (servers : List IpAddr)
  /-- `net.ipv4.conf.all.rp_filter` before it was loosened. -/
  | rp_filter (value : ℕ)
  deriving DecidableEq

/-- When a close undoes it: with the DNS or after the device. -/
inductive Stage
  | dns
  | adjust
  deriving DecidableEq

def Undo.stage : Undo → Stage
  | mac_dns _ _ => .dns
  | rp_filter _ => .adjust

/-- The settings that outlive the process. -/
inductive Setting
  | dns (service : Str)
  | rp_filter
  deriving DecidableEq

def Undo.setting : Undo → Setting
  | mac_dns service _ => .dns service
  | rp_filter _ => .rp_filter

/-- The value of a setting: a list of servers that is no list of addresses is `none`. -/
inductive Value
  | dns (servers : Option (List IpAddr))
  | rp_filter (value : ℕ)
  deriving DecidableEq

def Undo.value : Undo → Value
  | mac_dns _ servers => .dns (some servers)
  | rp_filter value => .rp_filter value

/-- The service an undo action is about, when it is one of macOS's. -/
def Undo.mac_service : Undo → Option Str
  | mac_dns service _ => some service
  | rp_filter _ => none

/-! ### Tools -/

/-- What the platforms' programs do to the machine and read of it. -/
inductive Tool
  | open_device
  | step (a : Action)
  | subnets (exclude : List Str)
  | listallnetworkservices
  | getdnsservers (service : Str)
  | setdnsservers (service : Str) (servers : List IpAddr)
  | to_take
  | set_to_take (services : List Str)
  /-- The log's line that a service the enhanced mode changed is gone. -/
  | gone (service : Str)
  | behind_the_stub
  | took_dns
  | set_took_dns (took : Bool)
  | read_rp_filter (name : Str)
  | write_rp_filter (name : Str) (value : ℕ)
  | physical_dns (primary : Option Str) (saved : List Undo) (network_changed : Bool)
  | close

/-- What a tool answers. -/
@[reducible] def Tool.Ans : Tool → Type
  | open_device => Except Str Str
  | step _ => Except Str Unit
  | subnets _ => Except Str (List (IpNetAny × Str))
  | listallnetworkservices => Except Str (List (Str × Bool))
  | getdnsservers _ => Except Str (Option (List IpAddr))
  | setdnsservers _ _ => Except Str Unit
  | to_take => List Str
  | behind_the_stub => Bool
  | took_dns => Bool
  | read_rp_filter _ => Except Str ℕ
  | write_rp_filter _ _ => Except Str Unit
  | physical_dns _ _ _ => Option (List SocketAddr)
  | set_to_take _ | gone _ | set_took_dns _ | close => Unit

/-- The setting a tool writes. -/
def Tool.writes : Tool → Option Setting
  | setdnsservers service _ => some (.dns service)
  | write_rp_filter name _ => if name = "all".toList then some .rp_filter else none
  | _ => none

/-- The machine, and what the platform's half holds in memory.  The last three are history: the
routes that a removal left in, the services that an undo found no longer listed, and the undo
actions that were done and whose setting nothing has written since. -/
structure World where
  installed : List IpNetAny
  dns : Str → Option (List IpAddr)
  rp_filter : Str → ℕ
  to_take : List Str
  took_dns : Bool
  undeleted : List IpNetAny
  gone : List Str
  done : List Undo

def World.value (w : World) : Setting → Value
  | .dns service => .dns (w.dns service)
  | .rp_filter => .rp_filter (w.rp_filter "all".toList)

/-- A step that adds routes adds all of them, or fails having added any of them. -/
structure Added (R : RouteSet) (ok : Prop) (w u : World) : Prop where
  keeps : ∀ n ∈ w.installed, n ∈ u.installed
  only : ∀ n ∈ u.installed, n ∈ w.installed ∨ n ∈ R.nets
  all : ok → ∀ n ∈ R.nets, n ∈ u.installed

/-- A step that removes routes removes all of them, or fails having removed any of them. -/
structure Removed (R : RouteSet) (ok : Prop) (w u : World) : Prop where
  keeps : ∀ n ∈ w.installed, n ∉ R.nets → n ∈ u.installed
  only : ∀ n ∈ u.installed, n ∈ w.installed
  all : ok → ∀ n ∈ R.nets, n ∉ u.installed

/-- The undo actions of `done` whose setting a tool does not write. -/
def Tool.unwritten (t : Tool) (done : List Undo) : List Undo :=
  done.filter fun a => t.writes ≠ some a.setting

/-- What a tool may answer and do. -/
def Tool.Run : (t : Tool) → World → t.Ans → World → Prop
  | .step (.add_routes _ R), w, x, u => Added R (x = .ok ()) w u ∧ u = { w with
      installed := u.installed
      undeleted := w.undeleted.filter fun n => n ∉ R.nets ∨ x ≠ .ok () }
  | .step (.remove_routes _ R), w, x, u => Removed R (x = .ok ()) w u ∧ u = { w with
      installed := u.installed
      undeleted := w.undeleted.filter (· ∉ R.nets) ++ R.nets.filter (· ∈ u.installed) }
  | .listallnetworkservices, w, x, u => u = w ∧ ∀ l, x = .ok l → (l.map (·.1)).Nodup
  | .getdnsservers service, w, x, u => u = w ∧ ∀ v, x = .ok v → v = w.dns service
  | .setdnsservers service servers, w, x, u =>
      (∀ k, k ≠ .dns service → u.value k = w.value k) ∧
      (x = .ok () → u.dns service = some servers) ∧
      u = { w with
        dns := u.dns
        done := (Tool.setdnsservers service servers).unwritten w.done }
  | .to_take, w, x, u => u = w ∧ x = w.to_take
  | .set_to_take services, w, _, u => u = { w with to_take := services }
  | .gone service, w, _, u => u = { w with gone := service :: w.gone }
  | .took_dns, w, x, u => u = w ∧ x = w.took_dns
  | .set_took_dns took, w, _, u => u = { w with took_dns := took }
  | .read_rp_filter name, w, x, u => u = w ∧ ∀ v, x = .ok v → v = w.rp_filter name
  | .write_rp_filter name value, w, x, u =>
      (∀ other, other ≠ name → u.rp_filter other = w.rp_filter other) ∧
      (x = .ok () → u.rp_filter name = value) ∧
      u = { w with
        rp_filter := u.rp_filter
        done := (Tool.write_rp_filter name value).unwritten w.done }
  | .close, w, _, u => (∀ n ∈ u.installed, n ∈ w.installed) ∧
      u = { w with installed := u.installed }
  | _, w, _, u => u = w

abbrev Job (α : Type) := Prog Tool Tool.Ans α

/-- A tool on its own. -/
def tool (t : Tool) : Job t.Ans := Prog.call t

/-- One step's program. -/
def run_step (a : Action) : Job (Except Str Unit) := tool (.step a)

/-! ### What the manager asks of the platform -/

/-- `System`. -/
structure System where
  open_device : Job (Except Str Str)
  configure : Str → Bool → Job (Except Str Bool)
  configure_ipv6 : Str → Job (Except Str Bool)
  unconfigure_ipv6 : Str → Job (Except Str Unit)
  routes : Str → RouteSet → RouteSet → Job (Except Str Bool)
  dns_saved : Str → List Undo → Job (Except Str (List Undo))
  take_dns : Str → Bool → Job (Except Str Bool)
  give_dns_back : Str → Job (Except Str Unit)
  adjust_saved : Option Str → List Undo → Job (Except Str (Option Undo))
  adjust : Job (Except Str Unit)
  undo : Undo → Job (Except Str Unit)

/-- `Result::map(drop)`. -/
def dropped (p : Job (Except Str Bool)) : Job (Except Str Unit) :=
  p.andThen fun _ => .done (.ok ())

def RESPONDER_V4 : IpAddr := .v4 0xc6120002
def RESPONDER_V6 : IpAddr := .v6 0xfd006152000000000000000000000002

/-- The address the DNS responder listens on, in each family the adapter has. -/
def responders (ipv6 : Bool) : List IpAddr :=
  RESPONDER_V4 :: if ipv6 then [RESPONDER_V6] else []

namespace Macos

/-- The network services, enabled ones alone or all of them. -/
def list_services (disabled : Bool) : Job (Except Str (List Str)) :=
  (tool .listallnetworkservices).andThen fun l =>
    .done (.ok ((l.filter fun e => disabled || e.2).map (·.1)))

/-- The servers of the services that are not saved already; one whose servers cannot be read is
left alone. -/
def read_services (taken : List Undo) : List Str → Job (List Undo)
  | [] => .done taken
  | service :: rest => tool (.getdnsservers service) >>= fun
    | .ok (some servers) => read_services (taken ++ [.mac_dns service servers]) rest
    | .ok none | .error _ => read_services taken rest

/-- Every enabled service's servers, read before any of them is changed. -/
def dns_saved (saved : List Undo) : Job (Except Str (List Undo)) :=
  (list_services false).andThen fun enabled => do
    let already := saved.filterMap Undo.mac_service
    let taken ← read_services [] (enabled.filter (· ∉ already))
    -- what this open changes: the enabled services the backup knows, and the ones just read
    let _ ← tool (.set_to_take
      (enabled.filter (· ∈ already) ++ taken.filterMap Undo.mac_service))
    return .ok taken

/-- What a takeover that failed says. -/
def cannot_point : Str :=
  "cannot point a network service's DNS at the enhanced mode ".toList ++
    "(the debug log has the details)".toList

/-- What an undo that failed says. -/
def cannot_put_back : Str :=
  "cannot put back the DNS servers of a network service ".toList ++
    "(the debug log has the details)".toList

/-- Points every service at the responder, up to the first failure. -/
def point_services (responders : List IpAddr) : List Str → Job (Except Str Unit)
  | [] => .done (.ok ())
  | service :: rest => tool (.setdnsservers service responders) >>= fun
    | .ok _ => point_services responders rest
    | .error _ => .done (.error cannot_point)

def flush_dns : List Step :=
  [⟨.flush_dns "/usr/bin/dscacheutil".toList, .ignore⟩,
    ⟨.flush_dns "/usr/bin/killall".toList, .ignore⟩]

def take_dns (ipv6 : Bool) : Job (Except Str Bool) := do
  let to_take ← tool .to_take
  if to_take.isEmpty then return .ok false
  (point_services (responders ipv6) to_take).andThen fun _ =>
  (run run_step flush_dns).andThen fun _ => pure (.ok true)

def undo : Undo → Job (Except Str Unit)
  | .mac_dns service servers =>
    -- every service, disabled ones too: one the user deleted has nowhere to be written back
    (list_services true).andThen fun all =>
    if service ∉ all then do
      let _ ← tool (.gone service)
      return .ok ()
    else tool (.setdnsservers service servers) >>= fun
      | .ok _ => dropped (run run_step flush_dns)
      | .error _ => pure (.error cannot_put_back)
  -- another platform's backup
  | .rp_filter _ => .done (.ok ())

/-- `MacSystem`. -/
def system : System where
  open_device := tool .open_device
  configure dev ipv6 := run run_step
    (⟨.configure dev, .fail⟩ :: if ipv6 then [⟨.configure_ipv6 dev, .ipv6_off⟩] else [])
  configure_ipv6 dev := run run_step [⟨.configure_ipv6 dev, .ipv6_off⟩]
  unconfigure_ipv6 dev := dropped (run run_step [⟨.unconfigure_ipv6 dev, .ignore⟩])
  routes dev add remove := run_routes run_step add remove (add_routes dev) (remove_routes dev)
  dns_saved _ saved := dns_saved saved
  take_dns _ ipv6 := take_dns ipv6
  give_dns_back _ := .done (.ok ())
  adjust_saved _ _ := .done (.ok none)
  adjust := .done (.ok ())
  undo := undo

end Macos

namespace Linux

/-- The programs that were found. -/
structure LinuxTools where
  resolvectl : Bool

/-- `self.tools()?`. -/
def withTools {α : Type} (tools : Except Str LinuxTools) (f : LinuxTools → Job (Except Str α)) :
    Job (Except Str α) :=
  match tools with
  | .ok t => f t
  | .error e => .done (.error e)

def resolvectl_step (on_failure : OnFailure) (args : List Str) : Step :=
  ⟨.resolvectl args, on_failure⟩

/-- The resolver's own settings for this link off first, then the servers. -/
def take_dns_steps (t : LinuxTools) (dev : Str) (ipv6 : Bool) : List Step :=
  if t.resolvectl then
    (["llmnr", "mdns", "dnssec", "dnsovertls"].map fun what =>
      resolvectl_step .ignore [what.toList, dev, "no".toList]) ++
    [resolvectl_step .fail ("dns".toList :: dev :: (responders ipv6).map IpAddr.toText),
      resolvectl_step .fail ["domain".toList, dev, "~.".toList],
      resolvectl_step .ignore ["default-route".toList, dev, "yes".toList],
      resolvectl_step .ignore ["flush-caches".toList]]
  else []

def give_dns_back_steps (t : LinuxTools) (dev : Str) : List Step :=
  if t.resolvectl then [resolvectl_step .ignore ["revert".toList, dev]] else []

def take_dns (tools : Except Str LinuxTools) (dev : Str) (ipv6 : Bool) :
    Job (Except Str Bool) := do
  let stub ← tool .behind_the_stub
  match tools with
  | .ok t =>
    if stub && t.resolvectl then
      -- a takeover that fails partway is undone as if it had happened
      let _ ← tool (.set_took_dns true)
      (run run_step (take_dns_steps t dev ipv6)).andThen fun _ => pure (.ok true)
    else return .ok false
  | .error _ => return .ok false

def give_dns_back (tools : Except Str LinuxTools) (dev : Str) : Job (Except Str Unit) := do
  let took ← tool .took_dns
  let _ ← tool (.set_took_dns false)
  if took then withTools tools fun t => dropped (run run_step (give_dns_back_steps t dev))
  else return .ok ()

/-- `all`'s `rp_filter` and the main interface's, both read. -/
def read_rp_filter (primary : Str) : Job (Except Str (ℕ × ℕ)) :=
  -- the name is a path component
  if primary = [] ∨ primary = ['.'] ∨ primary = ['.', '.'] ∨ '/' ∈ primary then
    .done (.error "cannot read rp_filter: not an interface name".toList)
  else
    (tool (.read_rp_filter "all".toList)).andThen fun all =>
    (tool (.read_rp_filter primary)).andThen fun interface =>
    .done (.ok (all, interface))

/-- Whether an undo action is `rp_filter`'s. -/
def is_rp_filter : Undo → Bool
  | .rp_filter _ => true
  | .mac_dns _ _ => false

def adjust_saved (primary : Option Str) (saved : List Undo) : Job (Except Str (Option Undo)) :=
  -- what is saved already is not read again
  if saved.any is_rp_filter then .done (.ok none)
  else match primary with
    | none => .done (.ok none)
    | some primary => (read_rp_filter primary).andThen fun v =>
      -- the effective value is the larger of the two
      .done (.ok (if max v.1 v.2 ≠ 1 then none else some (.rp_filter v.1)))

def undo : Undo → Job (Except Str Unit)
  | .rp_filter value => tool (.write_rp_filter "all".toList value)
  -- another platform's backup
  | .mac_dns _ _ => .done (.ok ())

/-- `LinuxSystem`. -/
def system (tools : Except Str LinuxTools) : System where
  open_device := withTools tools fun _ => tool .open_device
  configure dev ipv6 := withTools tools fun _ => run run_step
    (⟨.configure dev, .fail⟩ :: if ipv6 then [⟨.configure_ipv6 dev, .ipv6_off⟩] else [])
  configure_ipv6 dev := withTools tools fun _ => run run_step [⟨.configure_ipv6 dev, .ipv6_off⟩]
  unconfigure_ipv6 dev := withTools tools fun _ =>
    dropped (run run_step [⟨.unconfigure_ipv6 dev, .ignore⟩])
  routes dev add remove := withTools tools fun _ =>
    run_routes run_step add remove (add_routes dev) (remove_routes dev)
  dns_saved _ _ := .done (.ok [])
  take_dns := take_dns tools
  give_dns_back := give_dns_back tools
  adjust_saved := adjust_saved
  adjust := tool (.write_rp_filter "all".toList 2)
  undo := undo

end Linux

end Rurge.Enhanced
