import Rurge.Policy.OnCycles

/-!
# The cycle found is a shortest one

Every node found has a depth, one more than that of its parent, and the queue goes from the less
deep to the deeper.  The way back along the parents is as long as the node is deep, and a cycle
through the start passes a node still to be gone on from that is no deeper than the cycle has come
to there.
-/

namespace Rurge

namespace Cycles

open Digraph

variable {adj : List (List ℕ)} {start : ℕ}

namespace Bfs

variable {s : Bfs} {depth : ℕ → ℕ} {todo : List ℕ} {v w : ℕ}

/-- The start, and the nodes with a parent. -/
def Found (start : ℕ) (s : Bfs) (v : ℕ) : Prop := v = start ∨ s.parent v ≠ none

/-- What holds of the nodes found, with those still to be gone on from. -/
structure Level (adj : List (List ℕ)) (start : ℕ) (depth : ℕ → ℕ) (s : Bfs) (todo : List ℕ) :
    Prop where
  root : s.parent start = none
  depth_root : depth start = 0
  tree : ∀ x p, s.parent x = some p → Found start s p ∧ Edge adj p x ∧ depth x = depth p + 1
  bound : ∀ x, Found start s x → x < adj.length
  found : ∀ x ∈ todo, Found start s x
  sorted : todo.Pairwise fun x y => depth x ≤ depth y
  near : ∀ x ∈ todo, ∀ y, Found start s y → depth y ≤ depth x + 1
  closed : ∀ x, Found start s x → x ∉ todo → ∀ y, Edge adj x y →
    y ≠ start ∧ Found start s y ∧ depth y ≤ depth x + 1

/-! ### The way back -/

/-- A way from the start to `v` along the parents, from its end. -/
structure Way (adj : List (List ℕ)) (start : ℕ) (depth : ℕ → ℕ) (s : Bfs) (v : ℕ) (p : List ℕ) :
    Prop where
  last : p.getLast? = some start
  head : p.head? = some v
  length : p.length = depth v + 1
  chain : p.IsChain fun x y => Edge adj y x
  deeper : p.Pairwise fun x y => depth y < depth x
  found : ∀ x ∈ p, Found start s x

theorem Way.nodup {p : List ℕ} (h : Way adj start depth s v p) : p.Nodup :=
  h.deeper.imp fun hlt => by
    rintro rfl
    exact lt_irrefl _ hlt

/-- The way one step longer. -/
theorem Way.cons {u : ℕ} {p : List ℕ} (h : Way adj start depth s u p) (hv : Found start s v)
    (hedge : Edge adj u v) (hdepth : depth v = depth u + 1) :
    Way adj start depth s v (v :: p) := by
  obtain ⟨hlast, hhead, hlength, hchain, hdeeper, hfound⟩ := h
  obtain ⟨p, rfl⟩ : ∃ l, p = u :: l := by
    cases p with
    | nil => simp at hhead
    | cons x l => exact ⟨l, by simpa using hhead⟩
  have hle : ∀ x ∈ u :: p, depth x ≤ depth u := by
    intro x hx
    rcases List.mem_cons.1 hx with rfl | hx
    · exact le_rfl
    · exact ((List.pairwise_cons.1 hdeeper).1 x hx).le
  refine ⟨by simpa using hlast, rfl, by simp_all, .cons_cons hedge hchain, ?_, ?_⟩
  · refine List.pairwise_cons.2 ⟨fun x hx => ?_, hdeeper⟩
    have := hle x hx
    omega
  · intro x hx
    rcases List.mem_cons.1 hx with rfl | hx
    · exact hv
    · exact hfound x hx

/-- The parents lead back to the start. -/
theorem Level.back (h : Level adj start depth s todo) {fuel : ℕ} (hv : Found start s v)
    (hfuel : depth v ≤ fuel) : Way adj start depth s v (Bfs.back s.parent start fuel v) := by
  induction fuel generalizing v with
  | zero =>
    have hstart : v = start := by
      refine hv.resolve_right fun hparent => ?_
      obtain ⟨p, hp⟩ := Option.ne_none_iff_exists'.1 hparent
      have := (h.tree v p hp).2.2
      omega
    subst hstart
    exact ⟨rfl, rfl, by simp [Bfs.back, h.depth_root], by simp [Bfs.back], by simp [Bfs.back],
      by simp [Bfs.back, Found]⟩
  | succ fuel ih =>
    by_cases hstart : v = start
    · subst hstart
      exact ⟨by simp [Bfs.back], by simp [Bfs.back], by simp [Bfs.back, h.depth_root],
        by simp [Bfs.back], by simp [Bfs.back], by simp [Bfs.back, Found]⟩
    · obtain ⟨p, hp⟩ := Option.ne_none_iff_exists'.1 (hv.resolve_left hstart)
      obtain ⟨hfound, hedge, hdepth⟩ := h.tree v p hp
      simp only [Bfs.back, if_neg hstart, hp]
      exact (ih hfound (by omega)).cons hv hedge hdepth

/-- A node is no deeper than there are nodes. -/
theorem Level.depth_lt (h : Level adj start depth s todo) (hv : Found start s v) :
    depth v < adj.length := by
  have hway := h.back hv le_rfl
  have hsub : Bfs.back s.parent start (depth v) v ⊆ List.range adj.length := fun x hx =>
    List.mem_range.2 (h.bound x (hway.found x hx))
  have hle := (hway.nodup.subperm hsub).length_le
  rw [hway.length, List.length_range] at hle
  exact hle

end Bfs

/-- A cycle through the start, written from it, no node twice, and none through it shorter. -/
structure Shortest (adj : List (List ℕ)) (start : ℕ) (path : List ℕ) : Prop where
  cycle : IsCycle (Edge adj) path
  head : path.head? = some start
  nodup : path.Nodup
  least : ∀ c, IsCycle (Edge adj) c → start ∈ c → path.length ≤ c.length

namespace Bfs

variable {s : Bfs} {depth : ℕ → ℕ} {todo : List ℕ} {v w : ℕ}

/-- A way to the start passes a node still to be gone on from. -/
theorem Level.passes (h : Level adj start depth s todo) {x d : ℕ} {l : List ℕ}
    (hx : Found start s x) (hd : depth x ≤ d)
    (hchain : List.IsChain (Edge adj) (x :: (l ++ [start]))) :
    ∃ y ∈ todo, depth y ≤ d + l.length := by
  induction l generalizing x d with
  | nil =>
    by_cases hmem : x ∈ todo
    · exact ⟨x, hmem, hd⟩
    · exact absurd rfl (h.closed x hx hmem start (List.isChain_pair.1 hchain)).1
  | cons y l ih =>
    by_cases hmem : x ∈ todo
    · exact ⟨x, hmem, hd.trans (Nat.le_add_right _ _)⟩
    · obtain ⟨hedge, hchain⟩ := List.isChain_cons_cons.1 hchain
      obtain ⟨-, hy, hdepth⟩ := h.closed x hx hmem y hedge
      obtain ⟨z, hz, hle⟩ := ih hy (hdepth.trans (Nat.succ_le_succ hd)) hchain
      refine ⟨z, hz, ?_⟩
      rw [List.length_cons]
      omega

/-- A cycle through the start passes a node still to be gone on from. -/
theorem Level.passed (h : Level adj start depth s todo) {c : List ℕ} (hc : IsCycle (Edge adj) c)
    (hstart : start ∈ c) : ∃ y ∈ todo, depth y + 1 ≤ c.length := by
  obtain ⟨l, hr, hl⟩ := hc.from_node hstart
  obtain ⟨y, hy, hle⟩ := h.passes (.inl rfl) h.depth_root.le hl
  refine ⟨y, hy, ?_⟩
  rw [hr.perm.length_eq, List.length_cons]
  omega

/-- **The first edge back to the start closes a shortest cycle.** -/
theorem Level.close (h : Level adj start depth s (v :: todo)) (hedge : Edge adj v start) :
    Shortest adj start (Bfs.back s.parent start adj.length v).reverse := by
  have hv := h.found v List.mem_cons_self
  have hway := h.back hv (h.depth_lt hv).le
  generalize Bfs.back s.parent start adj.length v = p at hway
  have hhead : p.reverse.head? = some start := by rw [List.head?_reverse, hway.last]
  obtain ⟨l, hl⟩ : ∃ l, p.reverse = start :: l := by
    cases hp : p.reverse with
    | nil => simp [hp] at hhead
    | cons x l => exact ⟨l, by simpa [hp] using hhead⟩
  refine ⟨?_, hhead, List.nodup_reverse.2 hway.nodup, fun c hc hstart => ?_⟩
  · rw [hl, isCycle_cons, ← List.cons_append, ← hl, List.isChain_append]
    refine ⟨List.isChain_reverse.2 hway.chain, .singleton _, ?_⟩
    simpa [hway.head] using hedge
  · obtain ⟨y, hy, hle⟩ := h.passed hc hstart
    have hdepth : depth v ≤ depth y := by
      rcases List.mem_cons.1 hy with rfl | hy
      · exact le_rfl
      · exact (List.pairwise_cons.1 h.sorted).1 y hy
    rw [List.length_reverse, hway.length]
    omega

/-! ### The search goes on -/

/-- What is still to be done: the nodes of the queue, and those that none has found. -/
def left (adj : List (List ℕ)) (s : Bfs) : ℕ :=
  ((Finset.range adj.length).filter fun x => s.parent x = none).card + s.queue.length

/-- A node found. -/
def discover (s : Bfs) (v w : ℕ) : Bfs := ⟨Function.update s.parent w (some v), s.queue ++ [w]⟩

theorem found_discover {x : ℕ} :
    Found start (s.discover v w) x ↔ x = w ∨ Found start s x := by
  by_cases h : x = w
  · simp [Found, discover, h]
  · simp [Found, discover, h]

theorem left_discover (hw : s.parent w = none) (hlt : w < adj.length) :
    left adj (s.discover v w) = left adj s := by
  have hfilter : ((Finset.range adj.length).filter fun x => (s.discover v w).parent x = none) =
      ((Finset.range adj.length).filter fun x => s.parent x = none).erase w := by
    ext x
    rw [Finset.mem_filter, Finset.mem_erase, Finset.mem_filter]
    by_cases hx : x = w
    · simp [discover, hx]
    · simp [discover, hx]
  have hmem : w ∈ (Finset.range adj.length).filter fun x => s.parent x = none := by
    simp [hw, hlt]
  have hcard := Finset.card_erase_add_one hmem
  rw [left, left, hfilter]
  simp only [discover, List.length_append, List.length_singleton]
  omega

/-- **A node found is the last of the queue, one deeper.** -/
theorem Level.discover (h : Level adj start depth s (v :: s.queue)) (hlt : w < adj.length)
    (hedge : Edge adj v w) (hne : w ≠ start) (hw : s.parent w = none) :
    Level adj start (Function.update depth w (depth v + 1)) (s.discover v w)
      (v :: (s.discover v w).queue) := by
  have hv := h.found v List.mem_cons_self
  have hnew : ∀ x, Found start s x → x ≠ w := by
    rintro x (rfl | hx) rfl
    · exact hne rfl
    · exact hx hw
  have hkept : ∀ x, Found start s x → Function.update depth w (depth v + 1) x = depth x :=
    fun x hx => Function.update_of_ne (hnew x hx) _ _
  have hself : Function.update depth w (depth v + 1) w = depth v + 1 := Function.update_self ..
  have htodo : v :: (s.discover v w).queue = (v :: s.queue) ++ [w] := rfl
  have hle : ∀ x ∈ v :: s.queue, depth v ≤ depth x := by
    intro x hx
    rcases List.mem_cons.1 hx with rfl | hx
    · exact le_rfl
    · exact (List.pairwise_cons.1 h.sorted).1 x hx
  have hdeep : ∀ y, Found start (s.discover v w) y →
      Function.update depth w (depth v + 1) y ≤ depth v + 1 := by
    intro y hy
    rcases found_discover.1 hy with rfl | hy
    · exact hself.le
    · rw [hkept y hy]
      exact h.near v List.mem_cons_self y hy
  rw [htodo]
  refine ⟨?_, ?_, fun x p hx => ?_, fun x hx => ?_, fun x hx => ?_, ?_, fun x hx y hy => ?_,
    fun x hx hnot y hy => ?_⟩
  · simp [Bfs.discover, hne.symm, h.root]
  · rw [hkept start (.inl rfl), h.depth_root]
  · by_cases hxw : x = w
    · subst hxw
      obtain rfl : v = p := by simpa [Bfs.discover] using hx
      exact ⟨found_discover.2 (.inr hv), hedge, by rw [hself, hkept v hv]⟩
    · have hx : s.parent x = some p := by simpa [Bfs.discover, hxw] using hx
      obtain ⟨hp, hpx, hdepth⟩ := h.tree x p hx
      refine ⟨found_discover.2 (.inr hp), hpx, ?_⟩
      rw [hkept x (.inr (by simp [hx])), hkept p hp, hdepth]
  · rcases found_discover.1 hx with rfl | hx
    · exact hlt
    · exact h.bound x hx
  · rcases List.mem_append.1 hx with hx | hx
    · exact found_discover.2 (.inr (h.found x hx))
    · exact found_discover.2 (.inl (List.mem_singleton.1 hx))
  · refine List.pairwise_append.2 ⟨h.sorted.imp_of_mem fun {x y} hx hy hxy => ?_,
      List.pairwise_singleton _ _, fun x hx y hy => ?_⟩
    · rwa [hkept x (h.found x hx), hkept y (h.found y hy)]
    · obtain rfl := List.mem_singleton.1 hy
      rw [hkept x (h.found x hx), hself]
      exact h.near v List.mem_cons_self x (h.found x hx)
  · have hy := hdeep y hy
    rcases List.mem_append.1 hx with hx | hx
    · rw [hkept x (h.found x hx)]
      exact hy.trans (Nat.succ_le_succ (hle x hx))
    · obtain rfl := List.mem_singleton.1 hx
      rw [hself]
      omega
  · rw [List.mem_append, not_or, List.mem_singleton] at hnot
    have hx := (found_discover.1 hx).resolve_left hnot.2
    obtain ⟨hstart, hfound, hdepth⟩ := h.closed x hx hnot.1 y hy
    exact ⟨hstart, found_discover.2 (.inr hfound), by rwa [hkept x hx, hkept y hfound]⟩

/-- **The edges of a node: a shortest cycle, or the nodes found along them.** -/
theorem Level.scan (h : Level adj start depth s (v :: s.queue)) (hfits : Fits adj)
    {ws scanned : List ℕ} (hws : ∀ w ∈ ws, Edge adj v w)
    (hscanned : ∀ w ∈ scanned, w ≠ start ∧ Found start s w) :
    (∃ path, Bfs.scan start adj.length v ws s = .error path ∧ Shortest adj start path) ∨
    ∃ s' depth', Bfs.scan start adj.length v ws s = .ok s' ∧
      Level adj start depth' s' (v :: s'.queue) ∧ left adj s' = left adj s ∧
      ∀ w ∈ scanned ++ ws, w ≠ start ∧ Found start s' w := by
  induction ws generalizing s depth scanned with
  | nil => exact .inr ⟨s, depth, rfl, h, rfl, by simpa using hscanned⟩
  | cons w ws ih =>
    have hedge := hws w List.mem_cons_self
    have hws : ∀ w ∈ ws, Edge adj v w := fun y hy => hws y (List.mem_cons_of_mem _ hy)
    have hsplit : scanned ++ w :: ws = (scanned ++ [w]) ++ ws := by simp
    rw [hsplit]
    by_cases hstart : w = start
    · subst hstart
      exact .inl ⟨_, by simp only [Bfs.scan]; rfl, h.close hedge⟩
    · by_cases hw : s.parent w = none
      · have hlevel := h.discover (hfits v w hedge) hedge hstart hw
        have hleft := left_discover (v := v) hw (hfits v w hedge)
        have hscanned : ∀ y ∈ scanned ++ [w], y ≠ start ∧ Found start (s.discover v w) y := by
          intro y hy
          rcases List.mem_append.1 hy with hy | hy
          · exact ⟨(hscanned y hy).1, found_discover.2 (.inr (hscanned y hy).2)⟩
          · obtain rfl := List.mem_singleton.1 hy
            exact ⟨hstart, found_discover.2 (.inl rfl)⟩
        rw [← hleft]
        simp only [Bfs.scan, if_neg hstart, if_pos hw]
        exact ih hlevel hws hscanned
      · have hscanned : ∀ y ∈ scanned ++ [w], y ≠ start ∧ Found start s y := by
          intro y hy
          rcases List.mem_append.1 hy with hy | hy
          · exact hscanned y hy
          · obtain rfl := List.mem_singleton.1 hy
            exact ⟨hstart, .inr hw⟩
        simp only [Bfs.scan, if_neg hstart, if_neg hw]
        exact ih h hws hscanned

/-- A node whose edges were gone along is left behind. -/
theorem Level.leave (h : Level adj start depth s (v :: s.queue))
    (hscanned : ∀ w ∈ edges adj v, w ≠ start ∧ Found start s w) :
    Level adj start depth s s.queue where
  root := h.root
  depth_root := h.depth_root
  tree := h.tree
  bound := h.bound
  found x hx := h.found x (List.mem_cons_of_mem _ hx)
  sorted := (List.pairwise_cons.1 h.sorted).2
  near x hx := h.near x (List.mem_cons_of_mem _ hx)
  closed x hx hnot y hy := by
    by_cases hxv : x = v
    · subst hxv
      obtain ⟨hstart, hfound⟩ := hscanned y hy
      exact ⟨hstart, hfound, h.near x List.mem_cons_self y hfound⟩
    · exact h.closed x hx (by simp [hxv, hnot]) y hy

/-- **The search comes back with a shortest cycle.** -/
theorem Level.run (h : Level adj start depth s s.queue) (hfits : Fits adj)
    (hon : OnCycle (Edge adj) start) {fuel : ℕ} (hfuel : left adj s ≤ fuel) :
    Shortest adj start (Bfs.run adj start fuel s) := by
  induction fuel generalizing s depth with
  | zero =>
    have hmem : start ∈ (Finset.range adj.length).filter fun x => s.parent x = none := by
      simp [h.root, h.bound start (.inl rfl)]
    have hpos := Finset.card_pos.2 ⟨start, hmem⟩
    unfold left at hfuel
    omega
  | succ fuel ih =>
    obtain ⟨c, hc, hstart⟩ := hon
    cases hqueue : s.queue with
    | nil =>
      obtain ⟨y, hy, -⟩ := h.passed hc hstart
      rw [hqueue] at hy
      cases hy
    | cons v queue =>
      have hlevel : Level adj start depth { s with queue := queue } (v :: queue) := by
        rw [hqueue] at h
        exact { h with }
      simp only [Bfs.run, hqueue]
      have hnone : ∀ w ∈ ([] : List ℕ), w ≠ start ∧ Found start { s with queue := queue } w := by
        simp
      rcases hlevel.scan hfits (fun w (hw : w ∈ edges adj v) => hw) hnone with
        ⟨path, hscan, hpath⟩ | ⟨s', depth', hscan, hlevel', hleft, hfound⟩
      · rw [hscan]
        exact hpath
      · rw [hscan]
        refine ih (hlevel'.leave hfound) ?_
        rw [hleft]
        simp only [left, hqueue, List.length_cons] at hfuel ⊢
        omega

end Bfs

/-- **A shortest cycle through each node that is on one.** -/
theorem shortest_cycle_spec (hfits : Fits adj) (hlt : start < adj.length)
    (hon : OnCycle (Edge adj) start) : Shortest adj start (shortest_cycle adj start) := by
  have hlevel : Bfs.Level adj start (fun _ => 0) ⟨fun _ => none, [start]⟩ [start] := by
    refine ⟨rfl, rfl, by simp, ?_, ?_, by simp, by simp, ?_⟩ <;> simp [Bfs.Found, hlt]
  refine Bfs.Level.run hlevel hfits hon ?_
  simp [Bfs.left]

example : shortest_cycle [[1, 3], [2], [0], [4, 0], [0]] 0 = [0, 3] := by decide

end Cycles

end Rurge
