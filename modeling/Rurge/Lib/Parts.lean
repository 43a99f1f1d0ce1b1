import Mathlib

/-!
# A whole put together from numbered parts

The parts of a whole that came so far, each at its place: how many are missing, how long they are
together, and what they make once every one came.
-/

namespace Rurge

namespace Parts

variable {α : Type*}

/-- How many parts are missing. -/
def missing (parts : List (Option (List α))) : ℕ := parts.countP Option.isNone

/-- How long the parts are together. -/
def size (parts : List (Option (List α))) : ℕ := (parts.map fun part => (part.getD []).length).sum

/-- The parts that are there, one after the other. -/
def whole (parts : List (Option (List α))) : List α := (parts.filterMap id).flatten

theorem length_whole (parts : List (Option (List α))) : (whole parts).length = size parts := by
  induction parts with
  | nil => rfl
  | cons part parts ih =>
    cases part with
    | none => simpa [whole, size] using ih
    | some part =>
      have hsplit : whole (some part :: parts) = part ++ whole parts := by simp [whole]
      rw [hsplit, List.length_append, ih]
      rfl

/-- A part put where there was none. -/
theorem missing_set {parts : List (Option (List α))} {i : ℕ} (h : parts[i]? = some none)
    (part : List α) : missing (parts.set i (some part)) + 1 = missing parts := by
  obtain ⟨hlt, hnone⟩ := List.getElem?_eq_some_iff.1 h
  have hpos : 0 < missing parts :=
    List.countP_pos_iff.2 ⟨_, List.getElem_mem hlt, by rw [hnone]; rfl⟩
  unfold missing at hpos ⊢
  rw [List.countP_set hlt, hnone]
  simp only [Option.isNone_none, Option.isNone_some, if_true, Bool.false_eq_true, if_false]
  omega

/-- Where none is missing the parts are pieces. -/
theorem eq_map_some {parts : List (Option (List α))} (h : missing parts = 0) :
    parts = (parts.filterMap id).map some := by
  rw [missing, List.countP_eq_zero] at h
  induction parts with
  | nil => rfl
  | cons part parts ih =>
    cases part with
    | none => exact absurd rfl (h none List.mem_cons_self)
    | some part =>
      have hrest := ih fun part hpart => h part (List.mem_cons_of_mem _ hpart)
      rw [List.filterMap_cons_some (f := id) rfl, List.map_cons, ← hrest]

/-- The pieces whose numbers were seen, each at its place. -/
def filled (pieces : List (List α)) (seen : List ℕ) : List (Option (List α)) :=
  pieces.zipIdx.map fun piece => if piece.2 ∈ seen then some piece.1 else none

variable {pieces : List (List α)} {seen : List ℕ} {i : ℕ} {piece : List α}

theorem filled_nil (pieces : List (List α)) :
    filled pieces [] = List.replicate pieces.length none := by
  rw [filled, List.eq_replicate_iff]
  simp

@[simp] theorem length_filled (pieces : List (List α)) (seen : List ℕ) :
    (filled pieces seen).length = pieces.length := by
  rw [filled, List.length_map, List.length_zipIdx]

theorem filled_congr {other : List ℕ} (h : ∀ i, i ∈ seen ↔ i ∈ other) :
    filled pieces seen = filled pieces other := by
  simp only [filled, h]

theorem getElem?_filled (h : pieces[i]? = some piece) :
    (filled pieces seen)[i]? = some (if i ∈ seen then some piece else none) := by
  rw [filled, List.getElem?_map, List.getElem?_zipIdx, h, Option.map_some, Option.map_some,
    Nat.zero_add]

/-- One more piece in its place. -/
theorem set_filled (h : pieces[i]? = some piece) :
    (filled pieces seen).set i (some piece) = filled pieces (i :: seen) := by
  apply List.ext_getElem?
  intro k
  rcases eq_or_ne i k with rfl | hik
  · have hlt : i < (filled pieces seen).length := by
      rw [length_filled]
      exact (List.getElem?_eq_some_iff.1 h).1
    rw [List.getElem?_set_self hlt, getElem?_filled h, if_pos List.mem_cons_self]
  · rw [List.getElem?_set_ne hik]
    cases hk : pieces[k]? with
    | none => simp [filled, hk]
    | some other => simp [getElem?_filled hk, hik.symm]

theorem getElem_filled (h : pieces[i]? = some piece) (hi : i ∉ seen)
    (hlt : i < (filled pieces seen).length) : (filled pieces seen)[i] = none := by
  have hget := @getElem?_filled _ _ seen _ _ h
  rw [if_neg hi, List.getElem?_eq_getElem hlt] at hget
  exact Option.some.inj hget

theorem missing_filled_cons (h : pieces[i]? = some piece) (hi : i ∉ seen) :
    missing (filled pieces (i :: seen)) + 1 = missing (filled pieces seen) := by
  have hlt : i < (filled pieces seen).length := by
    rw [length_filled]
    exact (List.getElem?_eq_some_iff.1 h).1
  rw [← set_filled h]
  exact missing_set (by rw [List.getElem?_eq_getElem hlt, getElem_filled h hi hlt]) piece

theorem missing_filled_eq_zero :
    missing (filled pieces seen) = 0 ↔ ∀ i < pieces.length, i ∈ seen := by
  rw [missing, List.countP_eq_zero]
  constructor
  · intro h i hi
    by_contra hmem
    have hget := List.getElem?_eq_getElem hi
    have hlt : i < (filled pieces seen).length := by rwa [length_filled]
    have := h _ (List.getElem_mem hlt)
    rw [getElem_filled hget hmem hlt] at this
    exact this rfl
  · intro h part hpart
    obtain ⟨⟨piece, i⟩, hpiece, rfl⟩ := List.mem_map.1 hpart
    have hlt := (List.mem_zipIdx hpiece).2.1
    simp only [Nat.zero_add] at hlt
    simp [h i hlt]

theorem size_filled_cons (h : pieces[i]? = some piece) (hi : i ∉ seen) :
    size (filled pieces (i :: seen)) = size (filled pieces seen) + piece.length := by
  have hlt : i < (filled pieces seen).length := by
    rw [length_filled]
    exact (List.getElem?_eq_some_iff.1 h).1
  have hsplit : filled pieces seen =
      (filled pieces seen).take i ++ none :: (filled pieces seen).drop (i + 1) := by
    rw [← getElem_filled h hi hlt, ← List.drop_eq_getElem_cons hlt, List.take_append_drop]
  rw [← set_filled h, List.set_eq_take_append_cons_drop, if_pos hlt]
  conv_rhs => rw [hsplit]
  simp only [size, List.map_append, List.map_cons, List.sum_append, List.sum_cons,
    Option.getD_some, Option.getD_none, List.length_nil]
  omega

theorem size_filled_le (pieces : List (List α)) (seen : List ℕ) :
    size (filled pieces seen) ≤ pieces.flatten.length := by
  have hall : pieces.flatten.length = (pieces.zipIdx.map fun piece => piece.1.length).sum := by
    conv_lhs => rw [List.length_flatten, ← List.zipIdx_map_fst 0 pieces, List.map_map]
    rfl
  rw [hall, size, filled, List.map_map]
  refine List.sum_le_sum fun piece _ => ?_
  simp only [Function.comp_apply]
  split_ifs
  · exact le_rfl
  · exact Nat.zero_le _

/-- Once every part came, they make the whole. -/
theorem whole_filled (h : ∀ i < pieces.length, i ∈ seen) :
    whole (filled pieces seen) = pieces.flatten := by
  have hall : filled pieces seen = pieces.map some := by
    conv_rhs => rw [← List.zipIdx_map_fst 0 pieces, List.map_map]
    refine List.map_congr_left fun piece hpiece => ?_
    have hlt := (List.mem_zipIdx hpiece).2.1
    simp only [Nat.zero_add] at hlt
    exact if_pos (h _ hlt)
  rw [whole, hall, List.filterMap_map]
  simp

end Parts

end Rurge
