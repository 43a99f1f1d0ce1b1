import Rurge.Text
import Rurge.Lib.Assoc
import Mathlib.Data.List.MinMax

/-!
# Groups that lead back to themselves

Which groups lie on a cycle of members and `include-other-group` (Tarjan's algorithm, with a list of
work in the place of the recursion), a shortest cycle through each (breadth first), and the cycles
as they are reported and as the registry marks its groups.  A vector over the nodes is a function
here; the top of a stack comes first.
-/

namespace Rurge

namespace Cycles

/-- Where the edges of a node lead. -/
def edges (adj : List (List ℕ)) (v : ℕ) : List ℕ := adj.getD v []

/-! ### The nodes on cycles -/

/-- The numbers of the nodes in the order of their discovery (`none` for `NEW`), their low links,
the stack and who is on it, the result, the next number, and the work: each node with how many of
its edges have been followed. -/
structure Tarjan where
  index : ℕ → Option ℕ
  low : ℕ → ℕ
  on_stack : ℕ → Bool
  stack : List ℕ
  cyclic : ℕ → Bool
  next : ℕ
  work : List (ℕ × ℕ)

namespace Tarjan

def new : Tarjan where
  index _ := none
  low _ := 0
  on_stack _ := false
  stack := []
  cyclic _ := false
  next := 0
  work := []

/-- A node is numbered and put on the stack, and its edges are the next work. -/
def visit (s : Tarjan) (w : ℕ) : Tarjan :=
  { s with
    index := Function.update s.index w (some s.next)
    low := Function.update s.low w s.next
    next := s.next + 1
    stack := w :: s.stack
    on_stack := Function.update s.on_stack w true
    work := (w, 0) :: s.work }

/-- The low link of a node lowered. -/
def lower (s : Tarjan) (v i : ℕ) : Tarjan :=
  { s with low := Function.update s.low v (min (s.low v) i) }

/-- What is popped down to `v`, `v` included, and what is left of the stack. -/
def pop_to (v : ℕ) : List ℕ → List ℕ × List ℕ
  | [] => ([], [])
  | w :: stack => if w = v then ([w], stack) else (w :: (pop_to v stack).1, (pop_to v stack).2)

/-- The component of `v` leaves the stack. -/
def emit (adj : List (List ℕ)) (s : Tarjan) (v : ℕ) : Tarjan :=
  let component := (pop_to v s.stack).1
  let round := decide (1 < component.length) || decide (v ∈ edges adj v)
  { s with
    stack := (pop_to v s.stack).2
    on_stack := fun w => s.on_stack w && decide (w ∉ component)
    cyclic := fun w => if w ∈ component then round else s.cyclic w }

/-- One round of the inner loop: the next edge of the node on top is followed, or, all of them
followed, the node is done. -/
def step (adj : List (List ℕ)) (s : Tarjan) : Tarjan :=
  match s.work with
  | [] => s
  | (v, followed) :: work =>
    match (edges adj v)[followed]? with
    | some w =>
      let s : Tarjan := { s with work := (v, followed + 1) :: work }
      match s.index w with
      | none => s.visit w
      | some i => if s.on_stack w then s.lower v i else s
    | none =>
      let s : Tarjan := { s with work := work }
      let s : Tarjan := match work with
        | (u, _) :: _ => s.lower u (s.low v)
        | [] => s
      if s.index v = some (s.low v) then s.emit adj v else s

/-- More rounds than the inner loop can take. -/
def rounds (adj : List (List ℕ)) : ℕ := (adj.map fun es => es.length + 1).sum

/-- The search from one root, unless it was visited. -/
def search (adj : List (List ℕ)) (s : Tarjan) (root : ℕ) : Tarjan :=
  match s.index root with
  | some _ => s
  | none => (step adj)^[rounds adj] (s.visit root)

end Tarjan

/-- Which of the nodes `0..adj.len()` lie on a cycle along `adj`. -/
def on_cycles (adj : List (List ℕ)) : List Bool :=
  let s := (List.range adj.length).foldl (Tarjan.search adj) .new
  (List.range adj.length).map s.cyclic

/-! ### A shortest cycle -/

/-- The parents of the nodes found, and the nodes to go on from. -/
structure Bfs where
  parent : ℕ → Option ℕ
  queue : List ℕ

namespace Bfs

/-- The way from `v` back to the start along the parents. -/
def back (parent : ℕ → Option ℕ) (start : ℕ) : ℕ → ℕ → List ℕ
  | 0, v => [v]
  | fuel + 1, v =>
    if v = start then [v]
    else match parent v with
      | some p => v :: back parent start fuel p
      | none => [v]

/-- The edges of `v`: the way there, where one leads to the start, and otherwise what they find. -/
def scan (start fuel v : ℕ) : List ℕ → Bfs → Except (List ℕ) Bfs
  | [], s => .ok s
  | w :: ws, s =>
    if w = start then .error (back s.parent start fuel v).reverse
    else if s.parent w = none then
      scan start fuel v ws ⟨Function.update s.parent w (some v), s.queue ++ [w]⟩
    else scan start fuel v ws s

def run (adj : List (List ℕ)) (start : ℕ) : ℕ → Bfs → List ℕ
  | 0, _ => [start]
  | fuel + 1, s =>
    match s.queue with
    | [] => [start]
    | v :: queue =>
      match scan start adj.length v (edges adj v) { s with queue := queue } with
      | .error path => path
      | .ok s => run adj start fuel s

end Bfs

/-- A shortest way from `start` back to itself, as the nodes along it, `start` first and not
repeated. -/
def shortest_cycle (adj : List (List ℕ)) (start : ℕ) : List ℕ :=
  Bfs.run adj start (adj.length + 1) ⟨fun _ => none, [start]⟩

/-! ### The groups -/

/-- A group, with the groups whose members it includes. -/
structure GroupSpec where
  name : Str
  include_other_groups : List Str

/-- The groups in declaration order; a second one of a name is an error of the profile. -/
structure Groups where
  specs : List GroupSpec
  distinct : (specs.map GroupSpec.name).Nodup

/-- The place of the group of a name. -/
def Groups.index (cfg : Groups) (name : Str) : Option ℕ :=
  (cfg.specs.map GroupSpec.name).zipIdx.reverse.lookup name

def Groups.name (cfg : Groups) (i : ℕ) : Str := (cfg.specs.map GroupSpec.name).getD i []

/-- The groups as nodes, each with its edges along `next`; names that are no groups are left out. -/
def group_graph (cfg : Groups) (next : GroupSpec → List Str) : List (List ℕ) :=
  cfg.specs.map fun g => (next g).filterMap cfg.index

/-- The cycle written from its smallest node. -/
def rotated (path : List ℕ) : List ℕ :=
  match (List.range path.length).argmin fun p => path.getD p 0 with
  | some min_pos => path.drop min_pos ++ path.take min_pos
  | none => path

/-- Where a group leads: to its members, as assembled, and to the groups it includes. -/
def leads (members : Str → Option (List Str)) (g : GroupSpec) : List Str :=
  (members g.name).getD [] ++ g.include_other_groups

/-- The cycles found so far, as nodes; each is taken once. -/
def found (adj : List (List ℕ)) (seen : List (List ℕ)) (i : ℕ) : List (List ℕ) :=
  if (on_cycles adj).getD i false then
    let path := rotated (shortest_cycle adj i)
    if path ∈ seen then seen else seen ++ [path]
  else seen

/-- A cycle written with the names of its groups, the first one again at the end. -/
def written (cfg : Groups) (path : List ℕ) : List Str :=
  path.map cfg.name ++ (path.map cfg.name).take 1

/-- Group cycles through members and `include-other-group`. -/
def group_cycles (cfg : Groups) (members : Str → Option (List Str)) : List (List Str) :=
  let adj := group_graph cfg (leads members)
  ((List.range adj.length).foldl (found adj) []).map (written cfg)

/-- What the registry is told of the groups on cycles: the cycle, written out. -/
def on_cycle (cycles : List (List Str)) : Assoc Str Str :=
  cycles.foldl (fun out cycle =>
    cycle.dropLast.foldl (fun out group => match out.lookup group with
      | some _ => out
      | none => out.insert group (" → ".toList.intercalate cycle)) out) ∅

end Cycles

end Rurge
