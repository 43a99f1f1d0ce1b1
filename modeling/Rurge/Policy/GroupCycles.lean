import Rurge.Policy.ShortestCycle

/-!
# The groups on cycles

The groups stand for the nodes of their graph, name by name.  A shortest cycle is taken for each
node on one, written from its smallest node, so that each cycle is reported once; and a group is on
a cycle reported just where it is on one.
-/

namespace Rurge

namespace Cycles

open Digraph

/-! ### The groups as nodes -/

section Graph

variable {cfg : Groups} {members : Str → Option (List Str)}

theorem Groups.name_getElem? {i : ℕ} {a : Str} :
    (cfg.specs.map GroupSpec.name)[i]? = some a ↔ i < cfg.specs.length ∧ cfg.name i = a := by
  by_cases hi : i < cfg.specs.length
  · simp [Groups.name, hi]
  · simp [hi]

/-- The place of a name is where the group of that name stands. -/
theorem Groups.index_eq_some {a : Str} {i : ℕ} :
    cfg.index a = some i ↔ i < cfg.specs.length ∧ cfg.name i = a := by
  rw [← Groups.name_getElem?]
  have hmem : ∀ {j}, cfg.index a = some j → (cfg.specs.map GroupSpec.name)[j]? = some a := by
    intro j hj
    obtain ⟨l₁, l₂, hsplit, -⟩ := List.lookup_eq_some_iff.1 hj
    have hin : (a, j) ∈ (cfg.specs.map GroupSpec.name).zipIdx := by
      rw [← List.mem_reverse, hsplit]
      simp
    exact List.mem_zipIdx_iff_getElem?.1 hin
  refine ⟨hmem, fun hi => ?_⟩
  have hin : (a, i) ∈ (cfg.specs.map GroupSpec.name).zipIdx.reverse :=
    List.mem_reverse.2 (List.mem_zipIdx_iff_getElem?.2 hi)
  obtain ⟨j, hj⟩ := Option.isSome_iff_exists.1
    (List.lookup_isSome_iff.2 ⟨(a, i), hin, beq_self_eq_true a⟩)
  obtain ⟨hlt, hget⟩ := List.getElem?_eq_some_iff.1 hi
  have heq : j = i := by
    have hsame : (cfg.specs.map GroupSpec.name)[i]? = (cfg.specs.map GroupSpec.name)[j]? :=
      hi.trans (hmem hj).symm
    exact ((List.getElem?_inj hlt cfg.distinct).1 hsame).symm
  exact heq ▸ hj

@[simp] theorem length_group_graph (next : GroupSpec → List Str) :
    (group_graph cfg next).length = cfg.specs.length := by simp [group_graph]

/-- One group leads to another, by their names. -/
def Leads (cfg : Groups) (members : Str → Option (List Str)) (a b : Str) : Prop :=
  (∃ g ∈ cfg.specs, g.name = a ∧ b ∈ leads members g) ∧ b ∈ cfg.specs.map GroupSpec.name

theorem edge_iff {i j : ℕ} : Edge (group_graph cfg (leads members)) i j ↔
    i < cfg.specs.length ∧ j < cfg.specs.length ∧ Leads cfg members (cfg.name i) (cfg.name j) := by
  by_cases hi : i < cfg.specs.length
  · have hedges : edges (group_graph cfg (leads members)) i =
        (leads members cfg.specs[i]).filterMap cfg.index := by simp [edges, group_graph, hi]
    have hname : cfg.name i = (cfg.specs[i]).name := by simp [Groups.name, hi]
    rw [Edge, hedges, List.mem_filterMap]
    constructor
    · rintro ⟨b, hb, hindex⟩
      obtain ⟨hj, rfl⟩ := Groups.index_eq_some.1 hindex
      refine ⟨hi, hj, ⟨cfg.specs[i], List.getElem_mem hi, hname.symm, hb⟩, ?_⟩
      exact List.mem_of_getElem? (Groups.name_getElem?.2 ⟨hj, rfl⟩)
    · rintro ⟨-, hj, ⟨g, hg, heq, hb⟩, -⟩
      have hsame : g = cfg.specs[i] := List.inj_on_of_nodup_map cfg.distinct hg
        (List.getElem_mem hi) (heq.trans hname)
      exact ⟨cfg.name j, hsame ▸ hb, Groups.index_eq_some.2 ⟨hj, rfl⟩⟩
  · simp [Edge, edges, group_graph, hi]

theorem fits_group_graph : Fits (group_graph cfg (leads members)) := fun i j h => by
  simpa using (edge_iff.1 h).2.1

/-- A group that leads on, or is led to, has a place. -/
theorem Leads.place {a b : Str} (h : Leads cfg members a b) :
    ∃ i j, cfg.name i = a ∧ cfg.name j = b ∧ Edge (group_graph cfg (leads members)) i j := by
  obtain ⟨⟨g, hg, rfl, hb⟩, hmem⟩ := h
  obtain ⟨i, hi⟩ := List.mem_iff_getElem?.1 (List.mem_map_of_mem (f := GroupSpec.name) hg)
  obtain ⟨j, hj⟩ := List.mem_iff_getElem?.1 hmem
  obtain ⟨hi, hni⟩ := Groups.name_getElem?.1 hi
  obtain ⟨hj, hnj⟩ := Groups.name_getElem?.1 hj
  refine ⟨i, j, hni, hnj, edge_iff.2 ⟨hi, hj, ?_⟩⟩
  rw [hni, hnj]
  exact ⟨⟨g, hg, rfl, hb⟩, hmem⟩

theorem name_inj {i j : ℕ} (hi : i < cfg.specs.length) (hj : j < cfg.specs.length)
    (h : cfg.name i = cfg.name j) : i = j :=
  Option.some_inj.1 ((Groups.index_eq_some.2 ⟨hi, h⟩).symm.trans
    (Groups.index_eq_some.2 ⟨hj, rfl⟩))

/-- A group is on a cycle of groups where its node is on one of nodes. -/
theorem onCycle_name {i : ℕ} (hi : i < cfg.specs.length) :
    OnCycle (Leads cfg members) (cfg.name i) ↔
      OnCycle (Edge (group_graph cfg (leads members))) i := by
  constructor
  · intro h
    have hindex : ((cfg.index (cfg.name i)).getD 0) = i := by
      rw [Groups.index_eq_some.2 ⟨hi, rfl⟩, Option.getD_some]
    rw [← hindex]
    refine OnCycle.map (f := fun a => (cfg.index a).getD 0) (fun a b hab => ?_) h
    obtain ⟨i, j, rfl, rfl, hedge⟩ := hab.place
    obtain ⟨hi, hj, -⟩ := edge_iff.1 hedge
    rwa [Groups.index_eq_some.2 ⟨hi, rfl⟩, Groups.index_eq_some.2 ⟨hj, rfl⟩]
  · exact OnCycle.map (f := cfg.name) fun i j hij => (edge_iff.1 hij).2.2

end Graph

/-! ### The cycles found -/

section Found

variable {adj : List (List ℕ)} {path : List ℕ}

/-- A cycle written from its smallest node. -/
theorem rotated_spec (hne : path ≠ []) :
    path ~r rotated path ∧ ∀ x ∈ path, ∀ y, (rotated path).head? = some y → y ≤ x := by
  unfold rotated
  split
  case h_1 min_pos hmin =>
    obtain ⟨hmem, hleast⟩ := List.mem_argmin_iff.1 hmin
    have hlt := List.mem_range.1 hmem
    rw [← List.rotate_eq_drop_append_take hlt.le]
    refine ⟨⟨min_pos, rfl⟩, fun x hx y hy => ?_⟩
    rw [List.head?_rotate hlt, List.getElem?_eq_getElem hlt, Option.some_inj] at hy
    obtain ⟨p, hp, rfl⟩ := List.mem_iff_getElem.1 hx
    have hle := hleast.1 p (List.mem_range.2 hp)
    rwa [List.getD_eq_getElem _ _ hlt, List.getD_eq_getElem _ _ hp, hy] at hle
  case h_2 hnone =>
    rw [List.argmin_eq_none, List.range_eq_nil, List.length_eq_zero_iff] at hnone
    exact absurd hnone hne

/-- A cycle as it is kept: no node twice, from the smallest. -/
structure Kept (adj : List (List ℕ)) (c : List ℕ) : Prop where
  cycle : IsCycle (Edge adj) c
  nodup : c.Nodup
  least : ∀ x ∈ c, ∀ y, c.head? = some y → y ≤ x

theorem Shortest.kept {start : ℕ} (h : Shortest adj start path) :
    Kept adj (rotated path) ∧ start ∈ rotated path := by
  obtain ⟨hr, hleast⟩ := rotated_spec h.cycle.1
  refine ⟨⟨h.cycle.rotated hr, hr.nodup_iff.1 h.nodup, fun x hx => ?_⟩, ?_⟩
  · exact hleast x (hr.mem_iff.2 hx)
  · exact hr.mem_iff.1 (List.mem_of_head? h.head)

/-- Cycles that are kept are one where they are rotations of each other. -/
theorem Kept.eq_of_isRotated {c c' : List ℕ} (h : Kept adj c) (h' : Kept adj c') (hr : c ~r c') :
    c = c' := by
  refine Digraph.eq_of_isRotated hr h.nodup ?_
  obtain ⟨x, l, rfl⟩ := List.exists_cons_of_ne_nil h.cycle.1
  obtain ⟨y, l', rfl⟩ := List.exists_cons_of_ne_nil h'.cycle.1
  have hxy := h.least y (hr.mem_iff.2 List.mem_cons_self) x rfl
  have hyx := h'.least x (hr.mem_iff.1 List.mem_cons_self) y rfl
  simp [le_antisymm hxy hyx]

theorem Kept.place {cfg : Groups} {next : GroupSpec → List Str} {c : List ℕ}
    (h : Kept (group_graph cfg next) c) : ∀ i ∈ c, i < cfg.specs.length := by
  intro i hi
  obtain ⟨j, hij, -⟩ := Relation.TransGen.head'_iff.1 (onCycle_iff.1 ⟨c, h.cycle, hi⟩)
  by_contra hlt
  simp [Edge, edges, group_graph, hlt] at hij

/-- **The nodes so far have their cycles, and each cycle is kept once.** -/
theorem found_range (hfits : Fits adj) {n : ℕ} (hn : n ≤ adj.length) :
    (∀ c ∈ (List.range n).foldl (found adj) [], Kept adj c) ∧
      ((List.range n).foldl (found adj) []).Nodup ∧
      ∀ i < n, OnCycle (Edge adj) i → ∃ c ∈ (List.range n).foldl (found adj) [], i ∈ c := by
  induction n with
  | zero => simp
  | succ n ih =>
    obtain ⟨hkept, hnodup, hall⟩ := ih (by omega)
    have hlt : n < adj.length := by omega
    rw [List.range_succ, List.foldl_append, List.foldl_cons, List.foldl_nil]
    generalize (List.range n).foldl (found adj) [] = seen at hkept hnodup hall
    unfold found
    by_cases hon : OnCycle (Edge adj) n
    · obtain ⟨hnew, hmem⟩ := (shortest_cycle_spec hfits hlt hon).kept
      rw [if_pos ((on_cycles_getD hfits hlt).2 hon)]
      dsimp only
      split
      case isTrue hseen =>
        refine ⟨hkept, hnodup, fun i hi hcycle => ?_⟩
        rcases Nat.lt_succ_iff_lt_or_eq.1 hi with hi | rfl
        · exact hall i hi hcycle
        · exact ⟨_, hseen, hmem⟩
      case isFalse hseen =>
        refine ⟨?_, ?_, fun i hi hcycle => ?_⟩
        · rintro c hc
          rcases List.mem_append.1 hc with hc | hc
          · exact hkept c hc
          · exact List.mem_singleton.1 hc ▸ hnew
        · exact List.nodup_append'.2 ⟨hnodup, List.nodup_singleton _, by simpa using hseen⟩
        · rcases Nat.lt_succ_iff_lt_or_eq.1 hi with hi | rfl
          · obtain ⟨c, hc, hi⟩ := hall i hi hcycle
            exact ⟨c, List.mem_append_left _ hc, hi⟩
          · exact ⟨_, List.mem_append_right _ (List.mem_singleton.2 rfl), hmem⟩
    · rw [if_neg fun h => hon ((on_cycles_getD hfits hlt).1 h)]
      refine ⟨hkept, hnodup, fun i hi hcycle => ?_⟩
      rcases Nat.lt_succ_iff_lt_or_eq.1 hi with hi | rfl
      · exact hall i hi hcycle
      · exact absurd hcycle hon

end Found

/-! ### The cycles as they are reported -/

section Reported

variable {cfg : Groups} {members : Str → Option (List Str)}

theorem dropLast_written {path : List ℕ} (hne : path ≠ []) :
    (written cfg path).dropLast = path.map cfg.name := by
  obtain ⟨x, l, rfl⟩ := List.exists_cons_of_ne_nil hne
  exact List.dropLast_concat

/-- A cycle that is reported: each group leads to the next, no group twice but for the first, which
is the last again. -/
structure Written (cfg : Groups) (members : Str → Option (List Str)) (c : List Str) : Prop where
  cycle : IsCycle (Leads cfg members) c.dropLast
  nodup : c.dropLast.Nodup
  closed : c.getLast? = c.head?

theorem Kept.written {path : List ℕ} (h : Kept (group_graph cfg (leads members)) path) :
    Written cfg members (written cfg path) := by
  have hdrop : (Cycles.written cfg path).dropLast = path.map cfg.name := dropLast_written h.cycle.1
  have hplace := h.place
  obtain ⟨hne, hchain⟩ := h.cycle
  refine ⟨?_, ?_, ?_⟩
  · rw [hdrop]
    refine ⟨by simpa using hne, ?_⟩
    rw [← Cycle.map_coe, Cycle.chain_map]
    exact hchain.imp fun i j hij => (edge_iff.1 hij).2.2
  · rw [hdrop]
    exact h.nodup.map_on fun i hi j hj heq => name_inj (hplace i hi) (hplace j hj) heq
  · obtain ⟨x, l, rfl⟩ := List.exists_cons_of_ne_nil hne
    exact List.getLast?_concat

/-- Cycles of groups that are rotations of each other are so as cycles of nodes. -/
theorem isRotated_of_map {path path' : List ℕ} (h : ∀ i ∈ path, i < cfg.specs.length)
    (h' : ∀ i ∈ path', i < cfg.specs.length) (hr : path.map cfg.name ~r path'.map cfg.name) :
    path ~r path' := by
  have hback : ∀ {path : List ℕ}, (∀ i ∈ path, i < cfg.specs.length) →
      (path.map cfg.name).map (fun a => (cfg.index a).getD 0) = path := by
    intro path h
    rw [List.map_map]
    refine (List.map_congr_left fun i hi => ?_).trans (List.map_id path)
    simp [Groups.index_eq_some.2 ⟨h i hi, rfl⟩]
  have hr := hr.map fun a => (cfg.index a).getD 0
  rwa [hback h, hback h'] at hr

/-- What is reported: cycles, each once whichever group it is written from, with every group that is
on a cycle. -/
structure Reported (cfg : Groups) (members : Str → Option (List Str)) (cycles : List (List Str)) :
    Prop where
  right : ∀ c ∈ cycles, Written cfg members c
  once : cycles.Pairwise fun c d => ¬c.dropLast ~r d.dropLast
  all : ∀ g, (∃ c ∈ cycles, g ∈ c.dropLast) ↔ OnCycle (Leads cfg members) g

theorem reported : Reported cfg members (group_cycles cfg members) := by
  have hfits : Fits (group_graph cfg (leads members)) := fits_group_graph
  obtain ⟨hkept, hnodup, hall⟩ := found_range hfits le_rfl
  unfold group_cycles
  dsimp only
  generalize (List.range _).foldl _ [] = seen at hkept hnodup hall
  refine ⟨?_, ?_, fun g => ⟨?_, fun hg => ?_⟩⟩
  · rintro c hc
    obtain ⟨path, hpath, rfl⟩ := List.mem_map.1 hc
    exact (hkept path hpath).written
  · rw [List.pairwise_map]
    refine hnodup.imp_of_mem fun {c d} hc hd hne hr => hne ?_
    have hc := hkept c hc
    have hd := hkept d hd
    rw [dropLast_written hc.cycle.1, dropLast_written hd.cycle.1] at hr
    exact hc.eq_of_isRotated hd (isRotated_of_map hc.place hd.place hr)
  · rintro ⟨c, hc, hg⟩
    obtain ⟨path, hpath, rfl⟩ := List.mem_map.1 hc
    exact ⟨_, (hkept path hpath).written.cycle, hg⟩
  · obtain ⟨b, hb, -⟩ := Relation.TransGen.head'_iff.1 (onCycle_iff.1 hg)
    obtain ⟨i, j, rfl, rfl, hedge⟩ := hb.place
    obtain ⟨hi, -, -⟩ := edge_iff.1 hedge
    obtain ⟨path, hpath, hmem⟩ := hall i (by simpa using hi) ((onCycle_name hi).1 hg)
    refine ⟨written cfg path, List.mem_map_of_mem hpath, ?_⟩
    rw [dropLast_written (hkept path hpath).cycle.1]
    exact List.mem_map_of_mem hmem

/-- The groups of one cycle that are not marked are marked with its text. -/
theorem lookup_marked (text : Str) (groups : List Str) (out : Assoc Str Str) (g : Str) :
    (groups.foldl (fun out group => match out.lookup group with
      | some _ => out
      | none => out.insert group text) out).lookup g =
    (out.lookup g).or (if g ∈ groups then some text else none) := by
  induction groups generalizing out with
  | nil => simp
  | cons group groups ih =>
    rw [List.foldl_cons, ih]
    split
    case h_1 hsome =>
      by_cases hg : g = group
      · subst hg
        simp [hsome]
      · simp [hg]
    case h_2 hnone =>
      by_cases hg : g = group
      · subst hg
        simp [hnone]
      · simp [hg, AList.lookup_insert_ne hg]

/-- The cycles are gone through in order, so the first one marks. -/
theorem lookup_all_marked (cycles : List (List Str)) (out : Assoc Str Str) (g : Str) :
    (cycles.foldl (fun out cycle =>
      cycle.dropLast.foldl (fun out group => match out.lookup group with
        | some _ => out
        | none => out.insert group (" → ".toList.intercalate cycle)) out) out).lookup g =
    (out.lookup g).or
      ((cycles.find? fun c => decide (g ∈ c.dropLast)).map (" → ".toList.intercalate ·)) := by
  induction cycles generalizing out with
  | nil => simp
  | cons cycle cycles ih =>
    rw [List.foldl_cons, ih, lookup_marked, Option.or_assoc]
    by_cases hg : g ∈ cycle.dropLast
    · simp [hg]
    · simp [hg]

/-- A group is marked with the first cycle reported that it is on. -/
theorem lookup_on_cycle (cycles : List (List Str)) (g : Str) : (on_cycle cycles).lookup g =
    (cycles.find? fun c => decide (g ∈ c.dropLast)).map (" → ".toList.intercalate ·) := by
  exact (lookup_all_marked cycles ∅ g).trans (by simp)

/-- **A group is marked just where it is on a cycle.** -/
theorem marked (g : Str) :
    ((on_cycle (group_cycles cfg members)).lookup g).isSome ↔ OnCycle (Leads cfg members) g := by
  rw [← reported.all g, lookup_on_cycle, Option.isSome_map, List.find?_isSome]
  simp

end Reported

/-! ### The cycles -/

/-- **The nodes on cycles are just those found, each with a shortest cycle through it; and of the
groups just those on cycles are reported, each cycle once, and marked.** -/
theorem cycles_spec (adj : List (List ℕ)) (cfg : Groups) (members : Str → Option (List Str)) :
    (Fits adj → ∀ v < adj.length,
      ((on_cycles adj)[v]? = some true ↔ OnCycle (Edge adj) v) ∧
      (OnCycle (Edge adj) v → Shortest adj v (shortest_cycle adj v))) ∧
    Reported cfg members (group_cycles cfg members) ∧
    ∀ g, ((on_cycle (group_cycles cfg members)).lookup g).isSome ↔
      OnCycle (Leads cfg members) g := by
  refine ⟨fun hfits v hv => ⟨?_, shortest_cycle_spec hfits hv⟩, reported, marked⟩
  have hlt : v < (on_cycles adj).length := by simpa using hv
  rw [← on_cycles_getD hfits hv, List.getD_eq_getElem _ _ hlt, List.getElem?_eq_getElem hlt,
    Option.some_inj]

end Cycles

end Rurge
