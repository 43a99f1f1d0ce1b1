import Mathlib.Data.List.Cycle
import Mathlib.Data.List.Chain
import Mathlib.Logic.Relation

/-!
# Cycles of a relation

A cycle is a list of nodes, each of which leads to the next and the last to the first; which node it
is written from does not matter (`Cycle`).  A node lies on a cycle where it leads back to itself.
-/

namespace Digraph

variable {α β : Type*} {E : α → α → Prop}

/-- Each node leads to the next, and the last to the first. -/
def IsCycle (E : α → α → Prop) (c : List α) : Prop := c ≠ [] ∧ (c : Cycle α).Chain E

/-- The node is on some cycle. -/
def OnCycle (E : α → α → Prop) (v : α) : Prop := ∃ c, IsCycle E c ∧ v ∈ c

theorem isCycle_cons {v : α} {l : List α} :
    IsCycle E (v :: l) ↔ List.IsChain E (v :: (l ++ [v])) := by
  simp [IsCycle, Cycle.chain_coe_cons]

theorem IsCycle.rotated {c c' : List α} (h : IsCycle E c) (hr : c ~r c') : IsCycle E c' := by
  refine ⟨?_, Cycle.coe_eq_coe.2 hr ▸ h.2⟩
  rintro rfl
  exact h.1 (List.isRotated_nil_iff.1 hr)

/-- A cycle, written from one of its nodes. -/
theorem IsCycle.from_node {c : List α} (h : IsCycle E c) {v : α} (hv : v ∈ c) :
    ∃ l, c ~r v :: l ∧ List.IsChain E (v :: (l ++ [v])) := by
  obtain ⟨l₁, l₂, rfl⟩ := List.append_of_mem hv
  have hr : (l₁ ++ v :: l₂) ~r (v :: (l₂ ++ l₁)) := by
    simpa using @List.isRotated_append _ l₁ (v :: l₂)
  exact ⟨l₂ ++ l₁, hr, isCycle_cons.1 (h.rotated hr)⟩

/-- A node is on a cycle just where it leads back to itself. -/
theorem onCycle_iff {v : α} : OnCycle E v ↔ Relation.TransGen E v v := by
  constructor
  · rintro ⟨c, hc, hv⟩
    obtain ⟨l, -, hl⟩ := hc.from_node hv
    cases l with
    | nil => exact .single (List.isChain_pair.1 hl)
    | cons w l =>
      obtain ⟨hvw, hl⟩ := List.isChain_cons_cons.1 hl
      refine .head' hvw (List.relationReflTransGen_of_exists_isChain_cons (l ++ [v]) hl ?_)
      simp
  · intro h
    obtain ⟨w, hvw, hwv⟩ := Relation.TransGen.head'_iff.1 h
    obtain ⟨l, hl, hlast⟩ := List.exists_isChain_cons_of_relationReflTransGen hwv
    refine ⟨v :: (w :: l).dropLast, isCycle_cons.2 ?_, List.mem_cons_self⟩
    have hsplit : (w :: l).dropLast ++ [v] = w :: l := by
      conv_rhs => rw [← List.dropLast_append_getLast (List.cons_ne_nil w l), hlast]
    rw [hsplit]
    exact .cons_cons hvw hl

/-- Two nodes that lead to each other are on a cycle. -/
theorem onCycle_of_ne {v w : α} (hne : v ≠ w) (hvw : Relation.ReflTransGen E v w)
    (hwv : Relation.ReflTransGen E w v) : OnCycle E v := by
  rw [onCycle_iff]
  rcases Relation.reflTransGen_iff_eq_or_transGen.1 hvw with heq | hvw
  · exact absurd heq.symm hne
  · exact hvw.trans_left hwv

/-- A map that keeps the edges keeps the cycles. -/
theorem OnCycle.map {F : β → β → Prop} {f : α → β} (hf : ∀ a b, E a b → F (f a) (f b)) {v : α}
    (h : OnCycle E v) : OnCycle F (f v) := by
  rw [onCycle_iff] at h ⊢
  exact h.lift f hf

/-- Rotations of each other that no node is on twice, and that begin with the same node, are one. -/
theorem eq_of_isRotated {c c' : List α} (hr : c ~r c') (hn : c.Nodup) (hhead : c.head? = c'.head?) :
    c = c' := by
  obtain ⟨k, rfl⟩ := hr
  by_cases hnil : c = []
  · simp [hnil]
  have hpos := List.length_pos_of_ne_nil hnil
  have hlt := Nat.mod_lt k hpos
  rw [← List.rotate_mod c k, List.head?_rotate hlt, List.head?_eq_getElem?,
    List.getElem?_eq_getElem hpos, List.getElem?_eq_getElem hlt, Option.some_inj,
    hn.getElem_inj_iff] at hhead
  rw [← List.rotate_mod c k, ← hhead, List.rotate_zero]

end Digraph
