import Mathlib.Data.List.Sort
import Rurge.SystemProxy.Settings

/-!
# The routes into the virtual adapter, and the steps that install them

`RouteSet` and its difference (`route/set.rs`), the egress table that keeps the program's own
connections out of the adapter (`socket/egress.rs`), the steps each platform's translation makes of
a set (`route/linux.rs`, `route/macos.rs`), and how steps are run (`route/exec.rs`, `run_routes`).
-/

namespace Rurge.Enhanced

/-- The routes into the adapter. -/
structure RouteSet where
  v4 : List Ipv4Net
  v6 : List Ipv6Net
  deriving DecidableEq

/-- `Ord` of `ipnet`'s networks: the address, then the prefix length. -/
def netLe {w : ℕ} (a b : IpNet w) : Bool :=
  a.addr.toNat < b.addr.toNat ∨ a.addr = b.addr ∧ a.prefixLen ≤ b.prefixLen

/-- The prefixes sorted like a `RouteSet`. -/
def sorted {w : ℕ} (nets : List (IpNet w)) : List (IpNet w) :=
  nets.insertionSort fun a b => netLe a b

@[simp] theorem mem_sorted {w : ℕ} {n : IpNet w} {nets : List (IpNet w)} :
    n ∈ sorted nets ↔ n ∈ nets := by
  simp [sorted]

theorem space_v4_le : 15 ≤ 32 := by decide
theorem space_v6_le : 64 ≤ 128 := by decide

/-- The program's own space: the adapter, the responder, the stack and the fake addresses. -/
def SPACE_V4 : Ipv4Net := ⟨0xc6120000, 15, space_v4_le⟩
def SPACE_V6 : Ipv6Net := ⟨0xfd006152000000000000000000000000, 64, space_v6_le⟩

namespace RouteSet

/-- `RouteSet::default`. -/
def empty : RouteSet := ⟨[], []⟩

def is_empty (R : RouteSet) : Bool := R.v4.isEmpty && R.v6.isEmpty

/-- The networks of both families. -/
def nets (R : RouteSet) : List IpNetAny := R.v4.map .v4 ++ R.v6.map .v6

/-- Whether traffic to `ip` goes into the adapter: one of the routes, or the program's space, which
only the adapter can take anywhere. -/
def contains (R : RouteSet) : IpAddr → Bool
  | .v4 ip => SPACE_V4.contains ip || R.v4.any (·.contains ip)
  | .v6 ip => SPACE_V6.contains ip || R.v6.any (·.contains ip)

/-- What to add and what to remove to go from `old` to `new`. -/
def diff (old new : RouteSet) : RouteSet × RouteSet :=
  (⟨sorted (new.v4.filter (· ∉ old.v4)), sorted (new.v6.filter (· ∉ old.v6))⟩,
    ⟨sorted (old.v4.filter (· ∉ new.v4)), sorted (old.v6.filter (· ∉ new.v6))⟩)

@[simp] theorem mem_nets_v4 {R : RouteSet} {n : Ipv4Net} : .v4 n ∈ R.nets ↔ n ∈ R.v4 := by
  simp [nets]

@[simp] theorem mem_nets_v6 {R : RouteSet} {n : Ipv6Net} : .v6 n ∈ R.nets ↔ n ∈ R.v6 := by
  simp [nets]

@[simp] theorem nets_empty : empty.nets = [] := rfl

/-- The networks of the one family are the networks without the other's. -/
theorem mem_nets_v6_only {R : RouteSet} {n : IpNetAny} :
    n ∈ (⟨[], R.v6⟩ : RouteSet).nets ↔ ∃ m ∈ R.v6, n = .v6 m := by
  simp [nets, eq_comm]

theorem mem_diff_add {old new : RouteSet} {n : IpNetAny} :
    n ∈ (diff old new).1.nets ↔ n ∈ new.nets ∧ n ∉ old.nets := by
  cases n <;> simp [diff]

theorem mem_diff_remove {old new : RouteSet} {n : IpNetAny} :
    n ∈ (diff old new).2.nets ↔ n ∈ old.nets ∧ n ∉ new.nets := by
  cases n <;> simp [diff]

theorem nets_of_is_empty {R : RouteSet} (h : R.is_empty) : R.nets = [] := by
  simp only [is_empty, Bool.and_eq_true, List.isEmpty_iff] at h
  simp [nets, h.1, h.2]

/-- A network of the set is covered by it. -/
theorem contains_of_mem {R : RouteSet} {n : IpNetAny} (h : n ∈ R.nets) {ip : IpAddr}
    (hip : n.contains ip) : R.contains ip := by
  cases n <;> cases ip <;> simp [IpNetAny.contains] at hip
  · exact Bool.or_eq_true_iff.2 (.inr (List.any_eq_true.2 ⟨_, mem_nets_v4.1 h, hip⟩))
  · exact Bool.or_eq_true_iff.2 (.inr (List.any_eq_true.2 ⟨_, mem_nets_v6.1 h, hip⟩))

end RouteSet

/-- The routes of `a` and `b` together, each once, sorted. -/
def union (a b : RouteSet) : RouteSet :=
  ⟨sorted (a.v4 ++ b.v4.filter (· ∉ a.v4)), sorted (a.v6 ++ b.v6.filter (· ∉ a.v6))⟩

theorem mem_union {a b : RouteSet} {n : IpNetAny} :
    n ∈ (union a b).nets ↔ n ∈ a.nets ∨ n ∈ b.nets := by
  cases n with
  | v4 n => by_cases h : n ∈ a.v4 <;> simp [union, h]
  | v6 n => by_cases h : n ∈ a.v6 <;> simp [union, h]

/-- What decides where the program's own sockets go while the enhanced mode is on. -/
structure EgressTable where
  routes : RouteSet
  primary : Option Str
  subnets : List (IpNetAny × Str)
  deriving DecidableEq

/-- The table in the slot covers a network: a connection to any address in it is seen as one the
adapter would take. -/
def Covers (slot : Option EgressTable) (n : IpNetAny) : Prop :=
  ∃ table, slot = some table ∧ ∀ ip, n.contains ip → table.routes.contains ip

/-- The networks of the table in the slot. -/
def slotNets (slot : Option EgressTable) : List IpNetAny :=
  (slot.map (·.routes.nets)).getD []

theorem covers_of_mem {slot : Option EgressTable} {n : IpNetAny} (h : n ∈ slotNets slot) :
    Covers slot n := by
  cases slot with
  | none => cases h
  | some table => exact ⟨table, rfl, fun ip hip => RouteSet.contains_of_mem h hip⟩

/-! ### Steps -/

/-- What a step that fails does to the run. -/
inductive OnFailure
  | fail
  | ipv6_off
  | ignore
  deriving DecidableEq

/-- What a step's program is run for. -/
inductive Action
  | configure (dev : Str)
  | configure_ipv6 (dev : Str)
  | unconfigure_ipv6 (dev : Str)
  | add_routes (dev : Str) (nets : RouteSet)
  | remove_routes (dev : Str) (nets : RouteSet)
  | resolvectl (args : List Str)
  | flush_dns (program : Str)

structure Step where
  action : Action
  on_failure : OnFailure

section Running

variable {Op : Type} {Ans : Op → Type} (run_step : Action → Prog Op Ans (Except Str Unit))

/-- The steps left of a run in which the IPv6 half is `ipv6` so far. -/
def run_steps (ipv6 : Bool) : List Step → Prog Op Ans (Except Str Bool)
  | [] => .done (.ok ipv6)
  | step :: steps =>
    if ¬ ipv6 ∧ step.on_failure = .ipv6_off then run_steps ipv6 steps
    else run_step step.action >>= fun
      | .ok _ => run_steps ipv6 steps
      | .error error => match step.on_failure with
        | .fail => .done (.error error)
        | .ipv6_off => run_steps false steps
        | .ignore => run_steps ipv6 steps

/-- Runs the steps in order; `Ok(false)` when an `ipv6_off` step failed. -/
def run (steps : List Step) : Prog Op Ans (Except Str Bool) := run_steps run_step true steps

/-- The order of `System::routes`: add, and when the IPv6 half of that failed, take that half out
again and go on without it; then remove. -/
def run_routes (add remove : RouteSet) (add_steps remove_steps : RouteSet → List Step) :
    Prog Op Ans (Except Str Bool) :=
  (run run_step (add_steps add)).andThen fun added =>
  let taken_out : Prog Op Ans (Except Str Bool) :=
    if added then .done (.ok true)
    -- what of the IPv6 half did go in goes out again
    else run run_step (remove_steps ⟨[], add.v6⟩)
  taken_out.andThen fun _ =>
  (run run_step (remove_steps remove)).andThen fun _ => .done (.ok added)

end Running

/-! ### The platforms' translations -/

namespace Linux

/-- One batch for each family. -/
def add_routes (dev : Str) (set : RouteSet) : List Step :=
  (if set.v4.isEmpty then [] else [⟨.add_routes dev ⟨set.v4, []⟩, .fail⟩]) ++
    if set.v6.isEmpty then [] else [⟨.add_routes dev ⟨[], set.v6⟩, .ipv6_off⟩]

/-- Every route gone in one batch. -/
def remove_routes (dev : Str) (set : RouteSet) : List Step :=
  if set.is_empty then [] else [⟨.remove_routes dev set, .ignore⟩]

end Linux

namespace Macos

/-- A process for each route. -/
def add_routes (dev : Str) (set : RouteSet) : List Step :=
  set.v4.map (fun net => ⟨.add_routes dev ⟨[net], []⟩, .fail⟩) ++
    set.v6.map fun net => ⟨.add_routes dev ⟨[], [net]⟩, .ipv6_off⟩

/-- Every route gone, one at a time. -/
def remove_routes (dev : Str) (set : RouteSet) : List Step :=
  set.v4.map (fun net => ⟨.remove_routes dev ⟨[net], []⟩, .ignore⟩) ++
    set.v6.map fun net => ⟨.remove_routes dev ⟨[], [net]⟩, .ignore⟩

end Macos

/-- The networks an action is about. -/
def Action.nets : Action → List IpNetAny
  | .add_routes _ R => R.nets
  | .remove_routes _ R => R.nets
  | _ => []

/-- The steps add these networks, the IPv4 ones in steps that may not fail. -/
structure AddSteps (set : RouteSet) (steps : List Step) : Prop where
  adds : ∀ st ∈ steps, (∃ dev R, st.action = .add_routes dev R) ∧ st.on_failure ≠ .ignore
  only : ∀ st ∈ steps, ∀ n ∈ st.action.nets, n ∈ set.nets
  v4 : ∀ n ∈ set.v4, ∃ st ∈ steps, st.on_failure = .fail ∧ .v4 n ∈ st.action.nets
  v6 : ∀ n ∈ set.v6, ∃ st ∈ steps, .v6 n ∈ st.action.nets

/-- The steps remove these networks, and a failure of one is ignored. -/
structure RemoveSteps (set : RouteSet) (steps : List Step) : Prop where
  removes : ∀ st ∈ steps, (∃ dev R, st.action = .remove_routes dev R) ∧ st.on_failure = .ignore
  only : ∀ st ∈ steps, ∀ n ∈ st.action.nets, n ∈ set.nets
  all : ∀ n ∈ set.nets, ∃ st ∈ steps, n ∈ st.action.nets

theorem Linux.addSteps (dev : Str) (set : RouteSet) : AddSteps set (Linux.add_routes dev set) := by
  obtain ⟨v4, v6⟩ := set
  refine ⟨?_, ?_, ?_, ?_⟩
  · intro st hst
    cases v4 <;> cases v6 <;> simp [Linux.add_routes] at hst
    · simp [hst]
    · simp [hst]
    · rcases hst with rfl | rfl <;> simp
  · intro st hst n hn
    cases v4 <;> cases v6 <;> simp [Linux.add_routes] at hst
    · simpa [hst, Action.nets] using hn
    · simpa [hst, Action.nets] using hn
    · rcases hst with rfl | rfl <;> cases n <;> simp_all [Action.nets]
  · intro n hn
    exact ⟨⟨.add_routes dev ⟨v4, []⟩, .fail⟩, by cases v4 <;> simp_all [Linux.add_routes], rfl,
      RouteSet.mem_nets_v4.2 hn⟩
  · intro n hn
    exact ⟨⟨.add_routes dev ⟨[], v6⟩, .ipv6_off⟩, by cases v6 <;> simp_all [Linux.add_routes],
      RouteSet.mem_nets_v6.2 hn⟩

theorem Linux.removeSteps (dev : Str) (set : RouteSet) :
    RemoveSteps set (Linux.remove_routes dev set) := by
  unfold Linux.remove_routes
  split_ifs with h
  · refine ⟨by simp, by simp, fun n hn => ?_⟩
    rw [RouteSet.nets_of_is_empty h] at hn
    cases hn
  · exact ⟨by simp, by simp [Action.nets], fun n hn => ⟨_, .head _, hn⟩⟩

theorem Macos.addSteps (dev : Str) (set : RouteSet) : AddSteps set (Macos.add_routes dev set) := by
  have hsteps : ∀ st ∈ Macos.add_routes dev set, ((∃ dev R, st.action = .add_routes dev R) ∧
      st.on_failure ≠ .ignore) ∧ ∀ n ∈ st.action.nets, n ∈ set.nets := by
    intro st hst
    rcases List.mem_append.1 hst with hst | hst <;> obtain ⟨m, hm, rfl⟩ := List.mem_map.1 hst <;>
      exact ⟨⟨⟨dev, _, rfl⟩, by simp⟩, fun n hn => by cases n <;> simp_all [Action.nets]⟩
  refine ⟨fun st hst => (hsteps st hst).1, fun st hst => (hsteps st hst).2, ?_, ?_⟩
  · intro n hn
    exact ⟨_, List.mem_append_left _ (List.mem_map_of_mem hn), rfl, by simp [Action.nets]⟩
  · intro n hn
    exact ⟨_, List.mem_append_right _ (List.mem_map_of_mem hn), by simp [Action.nets]⟩

theorem Macos.removeSteps (dev : Str) (set : RouteSet) :
    RemoveSteps set (Macos.remove_routes dev set) := by
  have hsteps : ∀ st ∈ Macos.remove_routes dev set, ((∃ dev R, st.action = .remove_routes dev R) ∧
      st.on_failure = .ignore) ∧ ∀ n ∈ st.action.nets, n ∈ set.nets := by
    intro st hst
    rcases List.mem_append.1 hst with hst | hst <;> obtain ⟨m, hm, rfl⟩ := List.mem_map.1 hst <;>
      exact ⟨⟨⟨dev, _, rfl⟩, rfl⟩, fun n hn => by cases n <;> simp_all [Action.nets]⟩
  refine ⟨fun st hst => (hsteps st hst).1, fun st hst => (hsteps st hst).2, ?_⟩
  · intro n hn
    cases n with
    | v4 n =>
      exact ⟨_, List.mem_append_left _ (List.mem_map_of_mem (RouteSet.mem_nets_v4.1 hn)),
        by simp [Action.nets]⟩
    | v6 n =>
      exact ⟨_, List.mem_append_right _ (List.mem_map_of_mem (RouteSet.mem_nets_v6.1 hn)),
        by simp [Action.nets]⟩

end Rurge.Enhanced
