import Rurge.Policy.Cycles
import Rurge.Lib.Digraph
import Mathlib

/-!
# The nodes on cycles are the ones found

The stack falls into parts, one to each node at work, from the top: the nodes that are done and lead
back to it, and the node itself.  No edge followed from a part leads below the low link of its node.
A node whose low link is its own number is the last of its component, which is all of its part, and
what has left the stack leads nowhere else.
-/

namespace Rurge

namespace Cycles

open Digraph

variable {adj : List (List ℕ)}

/-- An edge of the graph. -/
def Edge (adj : List (List ℕ)) (v w : ℕ) : Prop := w ∈ edges adj v

/-- The edges lead to nodes. -/
def Fits (adj : List (List ℕ)) : Prop := ∀ v w, Edge adj v w → w < adj.length

namespace Tarjan

variable {s s' : Tarjan} {v w k : ℕ} {work : List (ℕ × ℕ)} {stack done rest : List ℕ}

/-- The number of a node that was visited. -/
def number (s : Tarjan) (v : ℕ) : ℕ := (s.index v).getD 0

def Visited (s : Tarjan) (v : ℕ) : Prop := s.index v ≠ none

/-- An edge followed on behalf of `v`: it leads to a node that was visited, and on the stack no
lower than the low link of `v`. -/
def Followed (s : Tarjan) (v y : ℕ) : Prop :=
  s.Visited y ∧ (y ∈ s.stack → s.low v ≤ s.number y)

/-- The part of the stack of a node at work. -/
structure Owns (adj : List (List ℕ)) (s : Tarjan) (v k : ℕ) (done : List ℕ) : Prop where
  joined : ∀ x ∈ done, Relation.ReflTransGen (Edge adj) v x ∧ Relation.ReflTransGen (Edge adj) x v
  done : ∀ x ∈ done, ∀ y ∈ edges adj x, s.Followed v y
  followed : ∀ y ∈ (edges adj v).take k, s.Followed v y
  low_le : s.low v ≤ s.number v
  low : ∃ z ∈ s.stack, s.number z = s.low v ∧ Relation.ReflTransGen (Edge adj) v z

/-- The stack in its parts; a node at work was come to by an edge from the one below. -/
inductive Parts (adj : List (List ℕ)) (s : Tarjan) : List (ℕ × ℕ) → List ℕ → Prop
  | nil : Parts adj s [] []
  | cons {v k : ℕ} {work : List (ℕ × ℕ)} {done rest : List ℕ} (howns : Owns adj s v k done)
      (hedge : ∀ u followed, work.head? = some (u, followed) → Edge adj u v)
      (hrest : Parts adj s work rest) : Parts adj s ((v, k) :: work) (done ++ v :: rest)

/-- What holds before every round, but for the parts of the stack. -/
structure Base (adj : List (List ℕ)) (s : Tarjan) : Prop where
  bound : ∀ v, s.Visited v → v < adj.length
  numbers : ∀ v, s.Visited v → s.number v < s.next
  on_stack : ∀ v, s.on_stack v = true ↔ v ∈ s.stack
  visited : ∀ v ∈ s.stack, s.Visited v
  sorted : s.stack.Pairwise fun v w => s.number w < s.number v
  closed : ∀ v, s.Visited v → v ∉ s.stack → ∀ w ∈ edges adj v, s.Visited w ∧ w ∉ s.stack
  right : ∀ v, s.Visited v → v ∉ s.stack → (s.cyclic v = true ↔ OnCycle (Edge adj) v)

/-- What holds before every round. -/
structure Inv (adj : List (List ℕ)) (s : Tarjan) : Prop extends Base adj s where
  parts : Parts adj s s.work s.stack

/-! ### What a part keeps -/

theorem Followed.mono {y : ℕ} (h : s.Followed v y) (hlow : s'.low v ≤ s.low v)
    (hvisited : s'.Visited y) (hnumber : s'.number y = s.number y)
    (hstack : y ∈ s'.stack → y ∈ s.stack) : s'.Followed v y :=
  ⟨hvisited, fun hy => hnumber ▸ hlow.trans (h.2 (hstack hy))⟩

/-- A state that knows of the nodes visited what another knows, and has no more of them on its
stack. -/
structure Keeps (s s' : Tarjan) : Prop where
  visited : ∀ y, s.Visited y → s'.Visited y
  number : ∀ y, s.Visited y → s'.number y = s.number y
  stack : ∀ y, s.Visited y → y ∈ s'.stack → y ∈ s.stack

theorem Owns.keeps (h : Owns adj s v k done) (hkeeps : Keeps s s') (hlow : s'.low v = s.low v)
    (hv : s.Visited v) (hz : ∀ z ∈ s.stack, s.Visited z)
    (hkept : ∀ z ∈ s.stack, s.number z ≤ s.number v → z ∈ s'.stack) : Owns adj s' v k done := by
  have hfollowed : ∀ {y}, s.Followed v y → s'.Followed v y := fun hy =>
    hy.mono hlow.le (hkeeps.visited _ hy.1) (hkeeps.number _ hy.1) (hkeeps.stack _ hy.1)
  refine ⟨h.joined, fun x hx y hy => hfollowed (h.done x hx y hy),
    fun y hy => hfollowed (h.followed y hy), ?_, ?_⟩
  · rw [hlow, hkeeps.number v hv]
    exact h.low_le
  · obtain ⟨z, hzs, hnumber, hreach⟩ := h.low
    refine ⟨z, hkept z hzs (hnumber ▸ h.low_le), ?_, hreach⟩
    rw [hlow, hkeeps.number z (hz z hzs), hnumber]

theorem Parts.keeps (h : Parts adj s work stack) (hkeeps : Keeps s s')
    (hlow : ∀ p ∈ work, s'.low p.1 = s.low p.1) (hv : ∀ x ∈ stack, s.Visited x)
    (hz : ∀ z ∈ s.stack, s.Visited z)
    (hkept : ∀ p ∈ work, ∀ z ∈ s.stack, s.number z ≤ s.number p.1 → z ∈ s'.stack) :
    Parts adj s' work stack := by
  induction h with
  | nil => exact .nil
  | @cons v k work done rest howns hedge hrest ih =>
    refine .cons ?_ hedge ?_
    · exact howns.keeps hkeeps (hlow (v, k) List.mem_cons_self) (hv v (by simp)) hz
        (hkept (v, k) List.mem_cons_self)
    · exact ih (fun p hp => hlow p (List.mem_cons_of_mem _ hp))
        (fun x hx => hv x (by simp [hx])) fun p hp => hkept p (List.mem_cons_of_mem _ hp)

/-- Every node of the stack leads to the node at work on top. -/
theorem Parts.reach (h : Parts adj s work stack) {u : ℕ} (hu : (work.head?).map Prod.fst = some u) :
    ∀ z ∈ stack, Relation.ReflTransGen (Edge adj) z u := by
  induction h generalizing u with
  | nil => simp at hu
  | @cons v k work done rest howns hedge hrest ih =>
    obtain rfl : v = u := by simpa using hu
    intro z hz
    rcases List.mem_append.1 hz with hz | hz
    · exact (howns.joined z hz).2
    · rcases List.mem_cons.1 hz with rfl | hz
      · exact .refl
      · cases hwork : work with
        | nil =>
          rw [hwork] at hrest
          cases hrest
          simp at hz
        | cons p work' =>
          have hp : work.head?.map Prod.fst = some p.1 := by simp [hwork]
          exact (ih hp z hz).tail (hedge p.1 p.2 (by simp [hwork]))

/-- The nodes at work are on the stack. -/
theorem Parts.mem (h : Parts adj s work stack) : ∀ p ∈ work, p.1 ∈ stack := by
  induction h with
  | nil => simp
  | cons howns hedge hrest ih =>
    intro p hp
    rcases List.mem_cons.1 hp with rfl | hp
    · simp
    · simp [ih p hp]

/-! ### A node is visited -/

@[simp] theorem index_visit : (s.visit w).index = Function.update s.index w (some s.next) := rfl

@[simp] theorem stack_visit : (s.visit w).stack = w :: s.stack := rfl

theorem number_visit_self : (s.visit w).number w = s.next := by simp [number]

theorem visited_visit {y : ℕ} : (s.visit w).Visited y ↔ y = w ∨ s.Visited y := by
  by_cases h : y = w
  · simp [Visited, h]
  · simp [Visited, h]

theorem number_visit_of_ne {y : ℕ} (h : y ≠ w) : (s.visit w).number y = s.number y := by
  simp [number, h]

theorem ne_of_visited {y : ℕ} (hw : s.index w = none) (hy : s.Visited y) : y ≠ w := by
  rintro rfl
  exact hy hw

theorem keeps_visit (hw : s.index w = none) : Keeps s (s.visit w) where
  visited y hy := visited_visit.2 (.inr hy)
  number y hy := number_visit_of_ne (ne_of_visited hw hy)
  stack y hy hmem := by
    rcases List.mem_cons.1 hmem with rfl | hmem
    · exact absurd hw hy
    · exact hmem

theorem Base.visit (h : Base adj s) (hw : s.index w = none) (hlt : w < adj.length) :
    Base adj (s.visit w) where
  bound v hv := by
    rcases visited_visit.1 hv with rfl | hv
    · exact hlt
    · exact h.bound v hv
  numbers v hv := by
    rcases visited_visit.1 hv with rfl | hv
    · rw [number_visit_self]
      exact Nat.lt_succ_self _
    · rw [number_visit_of_ne (ne_of_visited hw hv)]
      exact (h.numbers v hv).trans (Nat.lt_succ_self _)
  on_stack v := by
    by_cases hv : v = w
    · simp [Tarjan.visit, hv]
    · simp [Tarjan.visit, hv, h.on_stack]
  visited v hv := by
    rcases List.mem_cons.1 hv with rfl | hv
    · exact visited_visit.2 (.inl rfl)
    · exact visited_visit.2 (.inr (h.visited v hv))
  sorted := by
    refine List.pairwise_cons.2 ⟨fun v hv => ?_, h.sorted.imp_of_mem fun {a b} ha hb hab => ?_⟩
    · rw [number_visit_self, number_visit_of_ne (ne_of_visited hw (h.visited v hv))]
      exact h.numbers v (h.visited v hv)
    · rwa [number_visit_of_ne (ne_of_visited hw (h.visited a ha)),
        number_visit_of_ne (ne_of_visited hw (h.visited b hb))]
  closed v hv hnot x hx := by
    rw [stack_visit, List.mem_cons, not_or] at hnot
    have hv := (visited_visit.1 hv).resolve_left hnot.1
    obtain ⟨hvisited, hoff⟩ := h.closed v hv hnot.2 x hx
    refine ⟨visited_visit.2 (.inr hvisited), ?_⟩
    rw [stack_visit, List.mem_cons, not_or]
    exact ⟨ne_of_visited hw hvisited, hoff⟩
  right v hv hnot := by
    rw [stack_visit, List.mem_cons, not_or] at hnot
    exact h.right v ((visited_visit.1 hv).resolve_left hnot.1) hnot.2

/-- A node that was just visited has a part of its own. -/
theorem owns_visit : Owns adj (s.visit w) w 0 [] where
  joined := by simp
  done := by simp
  followed := by simp
  low_le := by simp [number, Tarjan.visit]
  low := ⟨w, by simp, by simp [number, Tarjan.visit], .refl⟩

theorem Parts.visit (h : Parts adj s work stack) (hbase : Base adj s)
    (hstack : ∀ x ∈ stack, s.Visited x) (hw : s.index w = none) :
    Parts adj (s.visit w) work stack := by
  refine h.keeps (keeps_visit hw) (fun p hp => ?_) hstack hbase.visited fun p _ z hz _ => ?_
  · have hne := ne_of_visited hw (hstack p.1 (h.mem p hp))
    simp [Tarjan.visit, hne]
  · exact List.mem_cons_of_mem _ hz

/-- The part of a node at work when another is visited. -/
theorem Owns.visit (h : Owns adj s v k done) (hbase : Base adj s) (hv : s.Visited v)
    (hw : s.index w = none) : Owns adj (s.visit w) v k done := by
  refine h.keeps (keeps_visit hw) ?_ hv hbase.visited fun z hz _ => List.mem_cons_of_mem _ hz
  simp [Tarjan.visit, ne_of_visited hw hv]

/-! ### An edge is followed -/

/-- The next edge of the node on top is one followed. -/
theorem Owns.follow (h : Owns adj s v k done) (he : (edges adj v)[k]? = some w)
    (hw : s.Followed v w) : Owns adj s v (k + 1) done :=
  { h with
    followed := fun y hy => by
      rw [List.take_add_one, he] at hy
      rcases List.mem_append.1 hy with hy | hy
      · exact h.followed y hy
      · obtain rfl : y = w := by simpa using hy
        exact hw }

theorem edge_of_getElem? (he : (edges adj v)[k]? = some w) : Edge adj v w := List.mem_of_getElem? he

/-- The work is nothing to the parts of the stack. -/
theorem Parts.with_work (h : Parts adj s work stack) (work' : List (ℕ × ℕ)) :
    Parts adj { s with work := work' } work stack := by
  induction h with
  | nil => exact .nil
  | cons howns hedge hrest ih => exact .cons { howns with } hedge ih

/-- The low link of a node lowered to the number of a stack node that it leads to. -/
theorem Owns.lower (h : Owns adj s v k done) {z : ℕ} (hz : z ∈ s.stack)
    (hreach : Relation.ReflTransGen (Edge adj) v z) :
    Owns adj (s.lower v (s.number z)) v k done := by
  have hlow : (s.lower v (s.number z)).low v = min (s.low v) (s.number z) := by
    simp [Tarjan.lower]
  have hfollowed : ∀ {y}, s.Followed v y → (s.lower v (s.number z)).Followed v y := fun hy =>
    hy.mono (hlow ▸ min_le_left _ _) hy.1 rfl id
  refine ⟨h.joined, fun x hx y hy => hfollowed (h.done x hx y hy),
    fun y hy => hfollowed (h.followed y hy), ?_, ?_⟩
  · rw [hlow]
    exact (min_le_left _ _).trans h.low_le
  · rw [hlow]
    rcases min_choice (s.low v) (s.number z) with heq | heq
    · rw [heq]
      exact h.low
    · rw [heq]
      exact ⟨z, hz, rfl, hreach⟩

/-- The low link of a node is nothing to the parts below. -/
theorem Parts.lower (h : Parts adj s work stack) (hbase : Base adj s) (i : ℕ)
    (hstack : ∀ x ∈ stack, s.Visited x) (hv : v ∉ stack) :
    Parts adj (s.lower v i) work stack := by
  refine h.keeps ⟨fun _ hy => hy, fun _ _ => rfl, fun _ _ hy => hy⟩ (fun p hp => ?_) hstack
    hbase.visited fun _ _ _ hz _ => hz
  have hne : p.1 ≠ v := by
    rintro rfl
    exact hv (h.mem p hp)
  simp [Tarjan.lower, hne]

theorem Base.lower (h : Base adj s) (v i : ℕ) : Base adj (s.lower v i) := { h with }

theorem Inv.number_of_index (h : s.index v = some k) : s.number v = k := by simp [number, h]

/-- A node of the stack is no lower. -/
theorem not_mem_rest (h : Base adj s) (hstack : s.stack = done ++ v :: rest) : v ∉ rest := by
  intro hmem
  have hsorted := h.sorted
  rw [hstack, List.pairwise_append] at hsorted
  exact lt_irrefl _ ((List.pairwise_cons.1 hsorted.2.1).1 v hmem)

/-- **Following an edge keeps what holds.** -/
theorem Inv.follow (h : Inv adj s) (hfits : Fits adj) (hwork : s.work = (v, k) :: work)
    (he : (edges adj v)[k]? = some w) : Inv adj (step adj s) := by
  have hedge := edge_of_getElem? he
  have hparts := h.parts
  rw [hwork] at hparts
  generalize hstack : s.stack = stack at hparts
  cases hparts with
  | @cons _ _ _ done rest howns hbelow hrest =>
    have hvisited : ∀ x ∈ rest, s.Visited x := fun x hx => h.visited x (by simp [hstack, hx])
    simp only [step, hwork, he]
    split
    case h_1 hw =>
      -- A new node: its part is on top, and the edge to it is one followed.
      have hbase : Base adj { s with work := (v, k + 1) :: work } := { h.toBase with }
      refine ⟨hbase.visit hw (hfits v w hedge), ?_⟩
      have hv : s.Visited v := h.visited v (by simp [hstack])
      have hfollow : (s.visit w).Followed v w := by
        refine ⟨visited_visit.2 (.inl rfl), fun _ => ?_⟩
        rw [number_visit_self]
        have hlow : (s.visit w).low v = s.low v := by simp [Tarjan.visit, ne_of_visited hw hv]
        rw [hlow]
        exact howns.low_le.trans (h.numbers v hv).le
      have howns := (howns.visit h.toBase hv hw).follow he hfollow
      have hparts := Parts.cons howns hbelow (hrest.visit h.toBase hvisited hw)
      rw [← hstack] at hparts
      have hnew : Parts adj (s.visit w) ((w, 0) :: (v, k + 1) :: work) ([] ++ w :: s.stack) :=
        .cons owns_visit (fun u followed hu => by cases hu; exact hedge) hparts
      exact hnew.with_work _
    case h_2 i hw =>
      have hnumber : s.number w = i := Inv.number_of_index hw
      have hw : s.Visited w := by simp [Visited, hw]
      split
      case isTrue hon =>
        have hmem := (h.on_stack w).1 hon
        have hbase : Base adj { s with work := (v, k + 1) :: work } := { h.toBase with }
        refine ⟨hbase.lower v i, ?_⟩
        have howns := howns.lower hmem (.single hedge)
        have hfollow : (s.lower v (s.number w)).Followed v w :=
          ⟨hw, fun _ => by simp [Tarjan.lower, number]⟩
        have hparts := Parts.cons (howns.follow he hfollow) hbelow
          (hrest.lower h.toBase (s.number w) hvisited (not_mem_rest h.toBase hstack))
        rw [← hstack, hnumber] at hparts
        exact hparts.with_work _
      case isFalse hoff =>
        refine ⟨{ h.toBase with }, ?_⟩
        have hnot : w ∉ s.stack := fun hmem => hoff ((h.on_stack w).2 hmem)
        have howns := howns.follow he ⟨hw, fun hmem => absurd hmem hnot⟩
        have hparts := Parts.cons howns hbelow hrest
        rw [← hstack] at hparts
        exact hparts.with_work _

/-! ### A node is done -/

theorem pop_to_eq (hv : v ∉ done) : pop_to v (done ++ v :: rest) = (done ++ [v], rest) := by
  induction done with
  | nil => simp [pop_to]
  | cons x done ih =>
    have hx : x ≠ v := fun heq => hv (heq ▸ List.mem_cons_self)
    have hrest := ih fun hmem => hv (List.mem_cons_of_mem _ hmem)
    simp [pop_to, hx, hrest]

/-- The numbers above and below a node of the stack. -/
theorem Base.around (h : Base adj s) (hstack : s.stack = done ++ v :: rest) :
    (∀ x ∈ done, s.number v < s.number x) ∧ ∀ x ∈ rest, s.number x < s.number v := by
  have hsorted := h.sorted
  rw [hstack, List.pairwise_append] at hsorted
  exact ⟨fun x hx => hsorted.2.2 x hx v List.mem_cons_self,
    (List.pairwise_cons.1 hsorted.2.1).1⟩

/-- What has left the stack leads nowhere else. -/
theorem Base.reach (h : Base adj s) {x y : ℕ} (hreach : Relation.ReflTransGen (Edge adj) x y)
    (hx : s.Visited x) (hnot : x ∉ s.stack) : s.Visited y ∧ y ∉ s.stack := by
  induction hreach with
  | refl => exact ⟨hx, hnot⟩
  | tail _ hedge ih => exact h.closed _ ih.1 ih.2 _ hedge

/-- A node whose low link is its own number: its part is a component. -/
structure Last (adj : List (List ℕ)) (s : Tarjan) (v k : ℕ) (done rest : List ℕ) : Prop where
  stack : s.stack = done ++ v :: rest
  owns : Owns adj s v k done
  all : (edges adj v).length ≤ k
  low : s.low v = s.number v

namespace Last

variable (h : Last adj s v k done rest) (hbase : Base adj s)
include h hbase

theorem not_mem : v ∉ done := fun hv => lt_irrefl _ ((hbase.around h.stack).1 v hv)

/-- The edges of the component stay in it or lead off the stack. -/
theorem edge {x y : ℕ} (hx : x ∈ done ++ [v]) (hy : Edge adj x y) : s.Visited y ∧ y ∉ rest := by
  have hfollowed : s.Followed v y := by
    rcases List.mem_append.1 hx with hx | hx
    · exact h.owns.done x hx y hy
    · obtain rfl := List.mem_singleton.1 hx
      refine h.owns.followed y ?_
      rwa [List.take_of_length_le h.all]
  refine ⟨hfollowed.1, fun hmem => ?_⟩
  have hlow := hfollowed.2 (by simp [h.stack, hmem])
  have hbelow := (hbase.around h.stack).2 y hmem
  rw [h.low] at hlow
  omega

/-- A component of one node is on a cycle where the node has an edge to itself, and any other is. -/
theorem right {x : ℕ} (hx : x ∈ done ++ [v]) :
    (1 < (done ++ [v]).length ∨ v ∈ edges adj v) ↔ OnCycle (Edge adj) x := by
  have hne : ∀ x ∈ done, x ≠ v := by
    rintro y hy rfl
    exact h.not_mem hbase hy
  have hdone : ∀ x ∈ done, OnCycle (Edge adj) x := fun x hx =>
    onCycle_of_ne (hne x hx) (h.owns.joined x hx).2 (h.owns.joined x hx).1
  constructor
  · intro hround
    rcases List.mem_append.1 hx with hx | hx
    · exact hdone x hx
    · obtain rfl := List.mem_singleton.1 hx
      rcases hround with hlength | hself
      · obtain ⟨y, hy⟩ := List.exists_mem_of_length_pos (l := done) (by
          rw [List.length_append, List.length_singleton] at hlength
          omega)
        exact onCycle_of_ne (hne y hy).symm (h.owns.joined y hy).1 (h.owns.joined y hy).2
      · exact onCycle_iff.2 (.single hself)
  · intro hcycle
    rcases done with _ | ⟨y, done⟩
    · obtain rfl : x = v := by simpa using hx
      obtain ⟨y, hy, hback⟩ := Relation.TransGen.head'_iff.1 (onCycle_iff.1 hcycle)
      obtain ⟨hvisited, hnot⟩ := h.edge hbase hx hy
      by_cases hmem : y ∈ s.stack
      · rw [h.stack, List.nil_append, List.mem_cons] at hmem
        exact .inr (hmem.resolve_right hnot ▸ hy)
      · have hoff := (hbase.reach hback hvisited hmem).2
        exact absurd (by simp [h.stack]) hoff
    · exact .inl (by simp)

theorem emit : Base adj (s.emit adj v) ∧ (s.emit adj v).stack = rest := by
  have hpop : pop_to v s.stack = (done ++ [v], rest) := by
    rw [h.stack, pop_to_eq (h.not_mem hbase)]
  have hstack : (s.emit adj v).stack = rest := by simp [Tarjan.emit, hpop]
  have hsub : ∀ x ∈ rest, x ∈ s.stack := fun x hx => by simp [h.stack, hx]
  obtain ⟨habove, hbelow⟩ := hbase.around h.stack
  have hapart : ∀ x ∈ rest, x ∉ done ++ [v] := by
    intro x hx hmem
    rcases List.mem_append.1 hmem with hmem | hmem
    · have := habove x hmem
      have := hbelow x hx
      omega
    · obtain rfl := List.mem_singleton.1 hmem
      exact lt_irrefl _ (hbelow x hx)
  have hoff : ∀ x, x ∉ rest → x ∉ done ++ [v] → x ∉ s.stack := by
    intro x hrest hnot
    simp only [List.mem_append, List.mem_singleton, not_or] at hnot
    simp [h.stack, hnot, hrest]
  refine ⟨⟨hbase.bound, hbase.numbers, fun x => ?_, fun x hx => ?_, ?_, fun x hx hnot y hy => ?_,
    fun x hx hnot => ?_⟩, hstack⟩
  · rw [hstack]
    have hon : (s.emit adj v).on_stack x = true ↔ x ∈ s.stack ∧ x ∉ done ++ [v] := by
      simp only [Tarjan.emit, hpop, Bool.and_eq_true, hbase.on_stack, decide_eq_true_eq]
    rw [hon]
    exact ⟨fun ⟨hmem, hnot⟩ => by_contra fun hrest => hoff x hrest hnot hmem,
      fun hmem => ⟨hsub x hmem, hapart x hmem⟩⟩
  · exact hbase.visited x (hsub x (hstack ▸ hx))
  · rw [hstack]
    have hsorted := hbase.sorted
    rw [h.stack, List.pairwise_append] at hsorted
    exact (List.pairwise_cons.1 hsorted.2.1).2
  · rw [hstack] at hnot ⊢
    by_cases hmem : x ∈ done ++ [v]
    · exact h.edge hbase hmem hy
    · obtain ⟨hvisited, hnot'⟩ := hbase.closed x hx (hoff x hnot hmem) y hy
      exact ⟨hvisited, fun hrest => hnot' (hsub y hrest)⟩
  · rw [hstack] at hnot
    by_cases hmem : x ∈ done ++ [v]
    · rw [← h.right hbase hmem]
      simp only [Tarjan.emit, hpop, if_pos hmem, Bool.or_eq_true, decide_eq_true_eq]
    · rw [← hbase.right x hx (hoff x hnot hmem)]
      simp only [Tarjan.emit, hpop, if_neg hmem]

omit hbase in
theorem keeps (hrest : (s.emit adj v).stack = rest) : Keeps s (s.emit adj v) where
  visited _ hy := hy
  number _ _ := rfl
  stack y _ hy := by
    rw [hrest] at hy
    simp [h.stack, hy]

/-- The parts below a component. -/
theorem parts (hparts : Parts adj s work rest) : Parts adj (s.emit adj v) work rest := by
  obtain ⟨-, hrest⟩ := h.emit hbase
  obtain ⟨habove, hbelow⟩ := hbase.around h.stack
  refine hparts.keeps (h.keeps hrest) (fun _ _ => rfl)
    (fun x hx => hbase.visited x (by simp [h.stack, hx])) hbase.visited fun p hp z hz hle => ?_
  have hlt := hbelow p.1 (hparts.mem p hp)
  rw [h.stack, List.mem_append, List.mem_cons] at hz
  rw [hrest]
  rcases hz with hz | rfl | hz
  · have := habove z hz
    omega
  · omega
  · exact hz

end Last

/-- The nodes above the one at work, once it is done, are of the part below. -/
theorem Owns.merge {u j : ℕ} {done' : List ℕ} (h : Owns adj s v k done)
    (hall : (edges adj v).length ≤ k) (hu : Owns adj s u j done') (hedge : Edge adj u v)
    (hback : Relation.ReflTransGen (Edge adj) v u) :
    Owns adj (s.lower u (s.low v)) u j (done ++ v :: done') := by
  have hlow : (s.lower u (s.low v)).low u = min (s.low u) (s.low v) := by simp [Tarjan.lower]
  have hof_u : ∀ {y}, s.Followed u y → (s.lower u (s.low v)).Followed u y := fun hy =>
    hy.mono (hlow ▸ min_le_left _ _) hy.1 rfl id
  have hof_v : ∀ {y}, s.Followed v y → (s.lower u (s.low v)).Followed u y := fun hy =>
    ⟨hy.1, fun hmem => hlow ▸ (min_le_right _ _).trans (hy.2 hmem)⟩
  refine ⟨fun x hx => ?_, fun x hx y hy => ?_, fun y hy => hof_u (hu.followed y hy), ?_, ?_⟩
  · rcases List.mem_append.1 hx with hx | hx
    · exact ⟨(h.joined x hx).1.head hedge, (h.joined x hx).2.trans hback⟩
    · rcases List.mem_cons.1 hx with rfl | hx
      · exact ⟨.single hedge, hback⟩
      · exact hu.joined x hx
  · rcases List.mem_append.1 hx with hx | hx
    · exact hof_v (h.done x hx y hy)
    · rcases List.mem_cons.1 hx with rfl | hx
      · refine hof_v (h.followed y ?_)
        rwa [List.take_of_length_le hall]
      · exact hof_u (hu.done x hx y hy)
  · rw [hlow]
    exact (min_le_left _ _).trans hu.low_le
  · rw [hlow]
    rcases min_choice (s.low u) (s.low v) with heq | heq
    · rw [heq]
      exact hu.low
    · rw [heq]
      obtain ⟨z, hz, hnumber, hreach⟩ := h.low
      exact ⟨z, hz, hnumber, hreach.head hedge⟩

/-- A low link that is not its node's number is that of a node below. -/
theorem Owns.low_below (h : Owns adj s v k done) (hbase : Base adj s)
    (hstack : s.stack = done ++ v :: rest) (hne : s.low v ≠ s.number v) :
    ∃ z ∈ rest, Relation.ReflTransGen (Edge adj) v z := by
  obtain ⟨z, hz, hnumber, hreach⟩ := h.low
  have habove := (hbase.around hstack).1
  have hle := h.low_le
  rw [hstack, List.mem_append, List.mem_cons] at hz
  rcases hz with hz | rfl | hz
  · have := habove z hz
    omega
  · exact absurd hnumber.symm hne
  · exact ⟨z, hz, hreach⟩

theorem lower_of_le {i : ℕ} (h : s.low v ≤ i) : s.lower v i = s := by
  simp [Tarjan.lower, min_eq_left h]

theorem index_eq_iff (hv : s.Visited v) : s.index v = some k ↔ s.number v = k := by
  obtain ⟨i, hi⟩ := Option.ne_none_iff_exists'.1 hv
  simp [number, hi]

/-- **A node that is done keeps what holds.** -/
theorem Inv.finish (h : Inv adj s) (hwork : s.work = (v, k) :: work)
    (he : (edges adj v)[k]? = none) : Inv adj (step adj s) := by
  have hall := List.getElem?_eq_none_iff.1 he
  have hparts := h.parts
  rw [hwork] at hparts
  generalize hstack : s.stack = stack at hparts
  cases hparts with
  | @cons _ _ _ done rest howns hbelow hrest =>
    have hv : s.Visited v := h.visited v (by simp [hstack])
    have hbase : Base adj { s with work := work } := { h.toBase with }
    have hlast : s.low v = s.number v → Inv adj ({ s with work := work }.emit adj v) := by
      intro hlow
      have hlast : Last adj { s with work := work } v k done rest :=
        ⟨hstack, { howns with }, hall, hlow⟩
      obtain ⟨hemit, hleft⟩ := hlast.emit hbase
      refine ⟨hemit, ?_⟩
      rw [hleft]
      exact hlast.parts hbase (hrest.with_work work)
    simp only [step, hwork, he]
    cases work with
    | nil =>
      cases hrest
      have hlow : s.low v = s.number v := by
        by_contra hne
        obtain ⟨z, hz, -⟩ := howns.low_below h.toBase hstack hne
        cases hz
      rw [if_pos ((index_eq_iff hv).2 hlow.symm)]
      exact hlast hlow
    | cons p work =>
      obtain ⟨u, j⟩ := p
      have hedge := hbelow u j rfl
      have hlow_u : s.low u < s.number v := by
        cases hrest with
        | cons hu _ _ => exact hu.low_le.trans_lt ((h.around hstack).2 u (by simp))
      have hne : v ≠ u := by
        rintro rfl
        exact (not_mem_rest h.toBase hstack) (hrest.mem (v, j) List.mem_cons_self)
      have hlow_v : (Tarjan.lower { s with work := (u, j) :: work } u (s.low v)).low v =
          s.low v := by
        simp [Tarjan.lower, hne]
      by_cases hlow : s.low v = s.number v
      · have hsame : Tarjan.lower { s with work := (u, j) :: work } u (s.low v) =
            { s with work := (u, j) :: work } := lower_of_le (hlow ▸ hlow_u.le)
        simp only [hsame]
        rw [if_pos ((index_eq_iff hv).2 hlow.symm)]
        exact hlast hlow
      · have hindex : s.index v ≠ some (s.low v) := fun heq =>
          hlow ((index_eq_iff hv).1 heq).symm
        dsimp only
        rw [hlow_v]
        split
        case isTrue heq => exact absurd heq hindex
        case isFalse =>
          refine ⟨hbase.lower u _, ?_⟩
          obtain ⟨z, hz, hreach⟩ := howns.low_below h.toBase hstack hlow
          have hback := hreach.trans (hrest.reach rfl z hz)
          have hvisited : ∀ x ∈ rest, s.Visited x := fun x hx => h.visited x (by simp [hstack, hx])
          cases hrest with
          | @cons _ _ _ done' rest' hu hbelow' hrest' =>
            have hsplit : s.stack = (done ++ v :: done') ++ u :: rest' := by simp [hstack]
            have hnot := not_mem_rest h.toBase hsplit
            have hparts := Parts.cons (howns.merge hall hu hedge hback) hbelow'
              (hrest'.lower h.toBase (s.low v) (fun x hx => hvisited x (by simp [hx])) hnot)
            rw [← hsplit] at hparts
            exact hparts.with_work _

/-- **A round keeps what holds.** -/
theorem Inv.step (h : Inv adj s) (hfits : Fits adj) : Inv adj (Tarjan.step adj s) := by
  cases hwork : s.work with
  | nil => simpa only [Tarjan.step, hwork] using h
  | cons p work =>
    cases he : (edges adj p.1)[p.2]? with
    | none => exact h.finish hwork he
    | some w => exact h.follow hfits hwork he

/-! ### The rounds come to an end -/

/-- What one edge more of each node not visited, or not yet followed, comes to. -/
def pending (adj : List (List ℕ)) (index : ℕ → Option ℕ) : ℕ :=
  ∑ v ∈ Finset.range adj.length, if index v = none then (edges adj v).length + 1 else 0

/-- More than the rounds to come. -/
def to_come (adj : List (List ℕ)) (s : Tarjan) : ℕ :=
  (s.work.map fun p => (edges adj p.1).length - p.2 + 1).sum + pending adj s.index

theorem pending_update {index : ℕ → Option ℕ} (hw : index w = none) (hlt : w < adj.length)
    (i : ℕ) : pending adj index =
      (edges adj w).length + 1 + pending adj (Function.update index w (some i)) := by
  have hmem : w ∈ Finset.range adj.length := Finset.mem_range.2 hlt
  unfold pending
  rw [← Finset.add_sum_erase _ _ hmem, if_pos hw, ← Finset.add_sum_erase _ _ hmem]
  rw [Function.update_self, if_neg (by simp), zero_add]
  congr 1
  refine Finset.sum_congr rfl fun v hv => ?_
  rw [Function.update_of_ne (Finset.ne_of_mem_erase hv)]

theorem pending_le (index : ℕ → Option ℕ) : pending adj index ≤ rounds adj := by
  have hsum : rounds adj = ∑ v ∈ Finset.range adj.length, ((edges adj v).length + 1) := by
    rw [rounds, ← Fin.sum_univ_fun_getElem, Finset.sum_range]
    exact Finset.sum_congr rfl fun v _ => by simp [edges]
  rw [hsum, pending]
  refine Finset.sum_le_sum fun v _ => ?_
  split <;> simp

theorem step_to_come (hfits : Fits adj) {p : ℕ × ℕ} (hwork : s.work = p :: work) :
    to_come adj (step adj s) < to_come adj s := by
  obtain ⟨v, k⟩ := p
  cases he : (edges adj v)[k]? with
  | none =>
    have hstep : (step adj s).work = work ∧ (step adj s).index = s.index := by
      simp only [step, hwork, he]
      split <;> split <;> simp [Tarjan.emit, Tarjan.lower]
    simp only [to_come, hstep, hwork, List.map_cons, List.sum_cons]
    omega
  | some w =>
    have hk : k < (edges adj v).length := (List.getElem?_eq_some_iff.1 he).1
    simp only [step, hwork, he]
    split
    case h_1 hw =>
      have hp := pending_update hw (hfits v w (edge_of_getElem? he)) s.next
      simp only [to_come, hwork, Tarjan.visit, List.map_cons, List.sum_cons]
      omega
    case h_2 i hw =>
      split <;> simp only [to_come, hwork, Tarjan.lower, List.map_cons, List.sum_cons] <;> omega

/-- A node visited stays so. -/
theorem visited_step {y : ℕ} (hy : s.Visited y) : (step adj s).Visited y := by
  unfold step
  split
  case h_1 => exact hy
  case h_2 v followed work hwork =>
    split
    case h_1 w he =>
      dsimp only
      split
      case h_1 hw => exact visited_visit.2 (.inr hy)
      case h_2 i hw => split <;> exact hy
    case h_2 he =>
      dsimp only
      split <;> split <;> exact hy

/-- Enough rounds follow all of the edges. -/
theorem Inv.rounds (hfits : Fits adj) (r : ℕ) (h : Inv adj s) (hr : to_come adj s ≤ r) :
    Inv adj ((Tarjan.step adj)^[r] s) ∧ ((Tarjan.step adj)^[r] s).work = [] ∧
      ∀ y, s.Visited y → ((Tarjan.step adj)^[r] s).Visited y := by
  induction r generalizing s with
  | zero =>
    refine ⟨h, ?_, fun _ hy => hy⟩
    cases hwork : s.work with
    | nil => exact hwork
    | cons p work =>
      have := step_to_come hfits hwork
      omega
  | succ r ih =>
    cases hwork : s.work with
    | nil =>
      have hstep : Tarjan.step adj s = s := by simp only [Tarjan.step, hwork]
      rw [Function.iterate_fixed hstep]
      exact ⟨h, hwork, fun _ hy => hy⟩
    | cons p work =>
      have hlt := step_to_come hfits hwork
      obtain ⟨hinv, hdone, hkept⟩ := ih (h.step hfits) (by omega)
      exact ⟨hinv, hdone, fun y hy => hkept y (visited_step hy)⟩

/-! ### The searches -/

/-- What holds between the searches. -/
structure Between (adj : List (List ℕ)) (s : Tarjan) : Prop extends Inv adj s where
  idle : s.work = []

theorem Between.new : Between adj new where
  bound v hv := absurd rfl hv
  numbers v hv := absurd rfl hv
  on_stack v := by simp [Tarjan.new]
  visited v hv := by simp [Tarjan.new] at hv
  sorted := by simp [Tarjan.new]
  closed v hv := absurd rfl hv
  right v hv := absurd rfl hv
  parts := .nil
  idle := rfl

theorem Between.empty (h : Between adj s) : s.stack = [] := by
  have hparts := h.parts
  rw [h.idle] at hparts
  generalize s.stack = stack at hparts
  cases hparts
  rfl

/-- **A search visits its root, and ends.** -/
theorem Between.search (h : Between adj s) (hfits : Fits adj) {root : ℕ}
    (hroot : root < adj.length) : Between adj (Tarjan.search adj s root) ∧
      (Tarjan.search adj s root).Visited root ∧
      ∀ y, s.Visited y → (Tarjan.search adj s root).Visited y := by
  unfold Tarjan.search
  split
  case h_1 i hi => exact ⟨h, by simp [Visited, hi], fun _ hy => hy⟩
  case h_2 hnone =>
    have hinv : Inv adj (s.visit root) := by
      refine ⟨h.toBase.visit hnone hroot, ?_⟩
      have hparts : Parts adj (s.visit root) [(root, 0)] ([] ++ [root]) :=
        .cons owns_visit (by simp) .nil
      simpa [Tarjan.visit, h.idle, h.empty] using hparts
    have hto_come : to_come adj (s.visit root) ≤ Tarjan.rounds adj := by
      have hp := pending_update hnone hroot s.next
      have hle : pending adj s.index ≤ _ := pending_le s.index
      simp only [to_come, Tarjan.visit, h.idle, List.map_cons, List.map_nil, List.sum_cons,
        List.sum_nil]
      omega
    obtain ⟨hinv, hidle, hkept⟩ := hinv.rounds hfits _ hto_come
    exact ⟨⟨hinv, hidle⟩, hkept root (visited_visit.2 (.inl rfl)),
      fun y hy => hkept y (visited_visit.2 (.inr hy))⟩

theorem searched (hfits : Fits adj) {n : ℕ} (hn : n ≤ adj.length) :
    Between adj ((List.range n).foldl (Tarjan.search adj) new) ∧
      ∀ y < n, ((List.range n).foldl (Tarjan.search adj) new).Visited y := by
  induction n with
  | zero => exact ⟨.new, by simp⟩
  | succ n ih =>
    obtain ⟨hbetween, hvisited⟩ := ih (by omega)
    obtain ⟨hsearch, hroot, hkept⟩ := hbetween.search hfits (show n < adj.length by omega)
    rw [List.range_succ, List.foldl_append, List.foldl_cons, List.foldl_nil]
    refine ⟨hsearch, fun y hy => ?_⟩
    rcases Nat.lt_succ_iff_lt_or_eq.1 hy with hy | rfl
    · exact hkept y (hvisited y hy)
    · exact hroot

end Tarjan

/-- **The nodes on cycles are just those found.** -/
theorem on_cycles_getD (hfits : Fits adj) {v : ℕ} (hv : v < adj.length) :
    (on_cycles adj).getD v false = true ↔ OnCycle (Edge adj) v := by
  obtain ⟨hbetween, hvisited⟩ := Tarjan.searched hfits (le_refl adj.length)
  have hright := hbetween.right v (hvisited v hv) (by simp [hbetween.empty])
  simpa [on_cycles, hv] using hright

example : on_cycles [[1], [0, 2], [2, 2], [0]] = [true, true, true, false] := by decide

@[simp] theorem length_on_cycles : (on_cycles adj).length = adj.length := by simp [on_cycles]

end Cycles

end Rurge
