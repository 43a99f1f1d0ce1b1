import Rurge.Enhanced.Asking
import Rurge.Enhanced.Installing

/-!
# What leaves the routes alone

Most of what the manager does has nothing to do with the routes: its tools and operations (`Quiet`)
leave the adapter's routes, the table and their history as they were (`Still`), and so do the
programs made of them.
-/

namespace Rurge.Enhanced

/-! ### What leaves the routes alone -/

/-- A tool that changes no route. -/
def Tool.Quiet : Tool → Prop
  | .step (.add_routes _ _) | .step (.remove_routes _ _) | .close => False
  | _ => True

/-- An operation that changes no route, nor what the manager keeps of them. -/
def Op.Quiet : Op → Prop
  | .tool t => t.Quiet
  | .call_ended (.routes _ _ _) _ | .call_ended .address _ => False
  | .set_on _ | .set_egress _ | .began | .left_behind => False
  | _ => True

/-- The routes, the table, what is on and the history of the routes are as they were. -/
structure Still (s t : Sys) : Prop where
  installed : t.world.installed = s.world.installed
  undeleted : t.world.undeleted = s.world.undeleted
  on : t.on = s.on
  slot : t.slot = s.slot
  astray : t.astray = s.astray
  lost : t.lost = s.lost
  refused : t.outcome.refused = s.outcome.refused
  left_out : t.outcome.left_out = s.outcome.left_out
  failed : s.outcome.failed → t.outcome.failed

theorem Still.refl (s : Sys) : Still s s := ⟨rfl, rfl, rfl, rfl, rfl, rfl, rfl, rfl, id⟩

theorem Still.trans (s t u : Sys) (h : Still s t) (h' : Still t u) : Still s u :=
  ⟨h'.installed.trans h.installed, h'.undeleted.trans h.undeleted, h'.on.trans h.on,
    h'.slot.trans h.slot, h'.astray.trans h.astray, h'.lost.trans h.lost,
    h'.refused.trans h.refused, h'.left_out.trans h.left_out, fun h₀ => h'.failed (h.failed h₀)⟩

theorem Tool.Quiet.run {t : Tool} (h : t.Quiet) {w u : World} {x : t.Ans} (hr : t.Run w x u) :
    u.installed = w.installed ∧ u.undeleted = w.undeleted := by
  cases t with
  | step a =>
    cases a with
    | add_routes dev R => exact h.elim
    | remove_routes dev R => exact h.elim
    | _ =>
      obtain rfl : u = w := hr
      exact ⟨rfl, rfl⟩
  | close => exact h.elim
  | setdnsservers _ _ | write_rp_filter _ _ =>
    rw [hr.2.2]
    exact ⟨rfl, rfl⟩
  | set_to_take services =>
    obtain rfl : u = { w with to_take := services } := hr
    exact ⟨rfl, rfl⟩
  | gone service =>
    obtain rfl : u = { w with gone := service :: w.gone } := hr
    exact ⟨rfl, rfl⟩
  | set_took_dns took =>
    obtain rfl : u = { w with took_dns := took } := hr
    exact ⟨rfl, rfl⟩
  | open_device | subnets _ | behind_the_stub | physical_dns _ _ _ =>
    obtain rfl : u = w := hr
    exact ⟨rfl, rfl⟩
  | _ =>
    obtain ⟨rfl, -⟩ := hr
    exact ⟨rfl, rfl⟩

theorem Op.Quiet.step {o : Op} (h : o.Quiet) {s t : Sys} {x : o.Ans} (hr : Sys.Step o s x t) :
    Still s t := by
  cases o with
  | tool tl =>
    obtain ⟨y, w, hrun, -, rfl⟩ := hr
    obtain ⟨hi, hu⟩ := Tool.Quiet.run h hrun
    exact ⟨hi, hu, rfl, rfl, rfl, rfl, rfl, rfl, id⟩
  | snapshot =>
    obtain ⟨-, rfl⟩ := hr
    exact .refl t
  | update f =>
    rcases hr with rfl | rfl
    · exact ⟨rfl, rfl, rfl, rfl, rfl, rfl, rfl, rfl, id⟩
    · exact ⟨rfl, rfl, rfl, rfl, rfl, rfl, rfl, rfl, id⟩
  | try_update f =>
    cases x with
    | ok a =>
      obtain rfl : t = { s with mem := f s.mem, file := f s.mem } := hr
      exact ⟨rfl, rfl, rfl, rfl, rfl, rfl, rfl, rfl, id⟩
    | error e =>
      obtain rfl : t = { s with outcome := { s.outcome with unwritten := true } } := hr
      exact ⟨rfl, rfl, rfl, rfl, rfl, rfl, rfl, rfl, id⟩
  | on =>
    obtain ⟨-, rfl⟩ := hr
    exact .refl t
  | set_on on => exact h.elim
  | start | stop | system_dns_changed =>
    obtain rfl : t = s := hr
    exact .refl t
  | set_egress table => exact h.elim
  | link f =>
    obtain rfl : t = { s with links := f s.links } := hr
    exact ⟨rfl, rfl, rfl, rfl, rfl, rfl, rfl, rfl, id⟩
  | began => exact h.elim
  | call_ended c how =>
    cases c with
    | routes recorded add remove => exact h.elim
    | address => exact h.elim
    | undo one =>
      obtain rfl : t = s.ended (.undo one) how := hr
      exact ⟨rfl, rfl, rfl, rfl, rfl, rfl, rfl, rfl, fun h => by simp [Sys.ended, h]⟩
    | other =>
      obtain rfl : t = s.ended .other how := hr
      exact ⟨rfl, rfl, rfl, rfl, rfl, rfl, rfl, rfl, fun h => by simp [Sys.ended, h]⟩
  | left_behind => exact h.elim

/-- What the manager relies on for the routes: `routes` does what it is for, and nothing else
changes them. -/
structure System.Routing (S : System) : Prop where
  routes (dev : Str) (add remove : RouteSet) (w : World) :
    (S.routes dev add remove).Holds Tool.Run (Moves add remove)
      (fun r u => RoutesDone add remove r u) w
  open_device : S.open_device.Asks Tool.Quiet fun _ => True
  configure (dev : Str) (ipv6 : Bool) : (S.configure dev ipv6).Asks Tool.Quiet fun _ => True
  configure_ipv6 (dev : Str) : (S.configure_ipv6 dev).Asks Tool.Quiet fun _ => True
  unconfigure_ipv6 (dev : Str) : (S.unconfigure_ipv6 dev).Asks Tool.Quiet fun _ => True
  dns_saved (dev : Str) (saved : List Undo) :
    (S.dns_saved dev saved).Asks Tool.Quiet fun _ => True
  take_dns (dev : Str) (ipv6 : Bool) : (S.take_dns dev ipv6).Asks Tool.Quiet fun _ => True
  give_dns_back (dev : Str) : (S.give_dns_back dev).Asks Tool.Quiet fun _ => True
  adjust_saved (primary : Option Str) (saved : List Undo) :
    (S.adjust_saved primary saved).Asks Tool.Quiet fun _ => True
  adjust : S.adjust.Asks Tool.Quiet fun _ => True
  undo (one : Undo) : (S.undo one).Asks Tool.Quiet fun _ => True

/-- macOS. -/
theorem Macos.routing : Macos.system.Routing where
  routes dev add remove w := run_routes_hold (Macos.addSteps dev) (Macos.removeSteps dev) w
  open_device := tool_asks trivial
  configure dev ipv6 := configure_asks trivial trivial
  configure_ipv6 dev := run_asks (by simp [Tool.Quiet])
  unconfigure_ipv6 dev := dropped_asks (run_asks (by simp [Tool.Quiet]))
  dns_saved dev saved := Macos.dns_saved_asks trivial (fun _ => trivial) fun _ => trivial
  take_dns dev ipv6 := Macos.take_dns_asks trivial (fun _ _ => trivial) fun _ => trivial
  give_dns_back dev := trivial
  adjust_saved primary saved := trivial
  adjust := trivial
  undo one := Macos.undo_asks trivial (fun _ _ => trivial) (fun _ => trivial) fun _ => trivial

/-- Linux, whichever programs were found. -/
theorem Linux.routing (tools : Except Str Linux.LinuxTools) :
    (Linux.system tools).Routing where
  routes dev add remove w := by
    cases tools with
    | ok t => exact run_routes_hold (Linux.addSteps dev) (Linux.removeSteps dev) w
    | error e => exact .error
  open_device := Linux.withTools_asks fun _ => tool_asks trivial
  configure dev ipv6 := Linux.withTools_asks fun _ => configure_asks trivial trivial
  configure_ipv6 dev := Linux.withTools_asks fun _ => run_asks (by simp [Tool.Quiet])
  unconfigure_ipv6 dev :=
    Linux.withTools_asks fun _ => dropped_asks (run_asks (by simp [Tool.Quiet]))
  dns_saved dev saved := trivial
  take_dns dev ipv6 := Linux.take_dns_asks trivial trivial fun _ => trivial
  give_dns_back dev := Linux.give_dns_back_asks trivial trivial fun _ => trivial
  adjust_saved primary saved := Linux.adjust_saved_asks fun _ => trivial
  adjust := tool_asks trivial
  undo one := by
    cases one with
    | mac_dns service servers => trivial
    | rp_filter value => exact tool_asks trivial

/-! ### The programs that leave the routes alone -/

/-- A program that leaves the routes alone. -/
abbrev Quiet {α : Type} (p : M α) (Q : α → Prop := fun _ => True) : Prop := p.Asks Op.Quiet Q

theorem call_quiet {α : Type} {job : Job (Except Str α)} (h : job.Asks Tool.Quiet fun _ => True) :
    Quiet (call job) :=
  call_asks h (fun _ ht => ht) fun _ => trivial

theorem saved_undo_quiet : Quiet saved_undo := by
  refine (op_asks trivial).bind fun state _ => ?_
  split <;> trivial

theorem save_undo_quiet (undo : List Undo) : Quiet (save_undo undo) := by
  unfold save_undo
  split
  · trivial
  · refine (op_asks trivial).bind fun written _ => ?_
    split <;> trivial

theorem rewrite_backup_quiet (closing : Closing) (saved : List Undo) :
    Quiet (rewrite_backup closing saved) :=
  op_asks trivial

theorem physical_subnets_quiet (adapter : Str) : Quiet (physical_subnets adapter) := by
  refine (call_quiet (tool_asks trivial)).bind fun subnets _ => ?_
  split <;> trivial

theorem read_physical_quiet (primary : Option Str) (saved : List Undo) (changed : Bool) :
    Quiet (read_physical primary saved changed) := by
  refine Prog.Asks.bind (call_quiet ?_) fun read _ => ?_
  · exact Prog.Asks.bind (tool_asks (t := .physical_dns primary saved changed) trivial)
      fun _ _ => trivial
  · split <;> exact op_asks trivial

section Quiet

variable {S : System} (hS : S.Routing)
include hS

theorem undo_each_quiet (actions : List (Undo × ℕ)) (closing : Closing) :
    Quiet (undo_each S actions closing) := by
  induction actions generalizing closing with
  | nil => trivial
  | cons a rest ih =>
    refine (call_asks (hS.undo a.1) (fun _ ht => ht) fun _ => trivial).bind ?_
    rintro (e | a) -
    · exact ih _
    · exact ih _

theorem take_the_dns_again_quiet (dev : Str) (ipv6 : Bool) (primary : Option Str)
    (changed : Bool) : Quiet (take_the_dns_again S dev ipv6 primary changed) := by
  refine saved_undo_quiet.bind ?_
  rintro (e | saved) -
  · trivial
  refine (call_quiet (hS.dns_saved dev saved)).bind ?_
  rintro (e | save) -
  · trivial
  refine (only_when_asks (save_undo_quiet _)).bind ?_
  rintro (e | written) -
  · trivial
  refine (call_quiet (hS.take_dns dev ipv6)).bind fun _ _ => ?_
  exact (only_if_asks (read_physical_quiet _ _ _)).bind fun _ _ => op_asks trivial

theorem adjust_again_quiet (primary : Option Str) : Quiet (adjust_again S primary) := by
  refine saved_undo_quiet.bind ?_
  rintro (e | saved) -
  · trivial
  refine (call_quiet (hS.adjust_saved primary saved)).bind ?_
  rintro (e | save) -
  · trivial
  refine (only_when_asks (save_undo_quiet _)).bind ?_
  rintro (e | written) -
  · trivial
  exact (only_when_asks (call_quiet hS.adjust)).bind fun _ _ => trivial

/-- What of `on` the later steps of an open keep. -/
def SameRoutes (on : On) (r : On × Except Str Unit) : Prop :=
  r.1.dev = on.dev ∧ r.1.routes = on.routes ∧ r.1.egress = on.egress ∧ r.1.ipv6 = on.ipv6

omit hS in
theorem attempt_quiet {α : Type} {on : On} {p : M (Except Str α)}
    {f : α → M (On × Except Str Unit)} {R : On × Except Str Unit → Prop} (h : Quiet p)
    (hf : ∀ a, Quiet (f a) R) (he : ∀ e, R (on, .error e)) : Quiet (attempt on p f) R := by
  refine h.bind ?_
  rintro (e | a) -
  · exact he e
  · exact hf a

theorem open_adjust_quiet (on : On) (wanted : Wanted) (undo : List Undo) :
    Quiet (open_adjust S on wanted undo) (SameRoutes on) := by
  have hsame : ∀ e, SameRoutes on (on, e) := fun e => ⟨rfl, rfl, rfl, rfl⟩
  have hadjust : ∀ e, SameRoutes on ({ on with adjust := true }, e) :=
    fun e => ⟨rfl, rfl, rfl, rfl⟩
  refine attempt_quiet (call_quiet (hS.adjust_saved _ _)) (fun saved => ?_) fun e => hsame _
  refine attempt_quiet (only_when_asks (save_undo_quiet _)) (fun _ => ?_) fun e => hsame _
  refine attempt_quiet (only_when_asks (call_quiet hS.adjust)) (fun _ => ?_) fun e => hadjust _
  exact (op_asks trivial).bind fun _ _ => hadjust _

theorem open_dns_quiet (on : On) (dev : Str) (wanted : Wanted) (ipv6 : Bool) (undo : List Undo) :
    Quiet (open_dns S on dev wanted ipv6 undo) (SameRoutes on) := by
  have hsame : ∀ e, SameRoutes on (on, e) := fun e => ⟨rfl, rfl, rfl, rfl⟩
  refine attempt_quiet (call_quiet (hS.dns_saved _ _)) (fun saved => ?_) fun e => hsame _
  refine attempt_quiet (only_when_asks (save_undo_quiet _)) (fun _ => ?_) fun e => hsame _
  refine (call_quiet (hS.take_dns _ _)).bind fun taken _ => ?_
  refine (read_physical_quiet _ _ _).bind fun _ _ => (op_asks trivial).bind fun _ _ => ?_
  exact attempt_quiet trivial (fun _ => open_adjust_quiet hS _ _ _) fun e => ⟨rfl, rfl, rfl, rfl⟩

theorem close_dns_quiet (dev : Str) (dns : Bool) (saved : List Undo) :
    Quiet (close_dns S dev dns saved) := by
  unfold close_dns
  split_ifs
  swap
  · trivial
  refine (call_quiet (hS.give_dns_back dev)).bind fun given _ => ?_
  refine (undo_each_quiet hS _ _).bind fun closing _ => ?_
  exact (op_asks trivial).bind fun _ _ => (op_asks trivial).bind fun _ _ => trivial

end Quiet

end Rurge.Enhanced
