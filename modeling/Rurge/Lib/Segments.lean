import Mathlib

/-!
# Partial strings in pieces

A partial string over the positions `0, 1, …` kept as pieces, each a start and what stands there
from it on.  Pieces in order, not empty and not touching are determined by the partial string they
hold (`canonical_ext`).
-/

namespace Segments

variable {α : Type*}

/-- What the piece has at a position. -/
def get (p : ℕ × List α) (i : ℕ) : Option α := if p.1 ≤ i then p.2[i - p.1]? else none

/-- The position after the piece. -/
def stop (p : ℕ × List α) : ℕ := p.1 + p.2.length

/-- What the pieces have at a position, the first of them that has it. -/
def cover (ps : List (ℕ × List α)) (i : ℕ) : Option α := ps.findSome? (get · i)

/-- The pieces are not empty, stand in order and do not touch. -/
structure Canonical (ps : List (ℕ × List α)) : Prop where
  nonempty : ∀ p ∈ ps, p.2 ≠ []
  apart : ps.Pairwise fun p q => stop p < q.1

/-! ### One piece -/

theorem get_isSome {p : ℕ × List α} {i : ℕ} :
    (get p i).isSome = true ↔ p.1 ≤ i ∧ i < stop p := by
  unfold get stop
  split_ifs with h
  · rw [isSome_getElem?]
    omega
  · simp [h]

theorem get_eq_none {p : ℕ × List α} {i : ℕ} : get p i = none ↔ i < p.1 ∨ stop p ≤ i := by
  rw [← Option.not_isSome_iff_eq_none, get_isSome]
  omega

theorem get_nil (s i : ℕ) : get (s, ([] : List α)) i = none := by simp [get]

theorem get_add (s : ℕ) (l : List α) (j : ℕ) : get (s, l) (s + j) = l[j]? := by simp [get]

/-- A piece cut in two. -/
theorem get_append (s : ℕ) (l m : List α) (i : ℕ) :
    get (s, l ++ m) i = (get (s, l) i).or (get (s + l.length, m) i) := by
  unfold get
  dsimp only
  by_cases hs : s ≤ i
  · by_cases hl : i < s + l.length
    · rw [if_pos hs, if_pos hs, if_neg (by omega), List.getElem?_append_left (by omega)]
      simp
    · rw [if_pos hs, if_pos hs, if_pos (by omega), List.getElem?_append_right (by omega),
        List.getElem?_eq_none (l := l) (by omega), Option.none_or]
      congr 1
      omega
  · rw [if_neg hs, if_neg hs, if_neg (by omega)]
    rfl

/-! ### Pieces -/

@[simp] theorem cover_nil (i : ℕ) : cover ([] : List (ℕ × List α)) i = none := rfl

theorem cover_cons (p : ℕ × List α) (ps : List (ℕ × List α)) (i : ℕ) :
    cover (p :: ps) i = (get p i).or (cover ps i) := by
  unfold cover
  rw [List.findSome?_cons]
  cases get p i <;> rfl

theorem cover_append (ps qs : List (ℕ × List α)) (i : ℕ) :
    cover (ps ++ qs) i = (cover ps i).or (cover qs i) := by
  unfold cover
  exact List.findSome?_append

theorem cover_eq_none {ps : List (ℕ × List α)} {i : ℕ} :
    cover ps i = none ↔ ∀ p ∈ ps, get p i = none := List.findSome?_eq_none_iff

theorem exists_of_cover {ps : List (ℕ × List α)} {i : ℕ} {v : α} (h : cover ps i = some v) :
    ∃ p ∈ ps, get p i = some v := List.exists_of_findSome?_eq_some h

/-- Pieces of one string, in whatever order, one of which has the position. -/
theorem cover_of_agree {ps : List (ℕ × List α)} {l : List α} {i : ℕ}
    (hagree : ∀ p ∈ ps, ∀ v, get p i = some v → l[i]? = some v)
    (hsome : ∃ p ∈ ps, (get p i).isSome = true) : cover ps i = l[i]? := by
  obtain ⟨p, hp, hpi⟩ := hsome
  cases h : cover ps i with
  | none =>
    rw [cover_eq_none.1 h p hp] at hpi
    cases hpi
  | some v =>
    obtain ⟨q, hq, hqi⟩ := exists_of_cover h
    exact (hagree q hq v hqi).symm

/-- A window of a string is a piece of it. -/
theorem get_window {l : List α} {s n i : ℕ} :
    get (s, (l.drop s).take n) i = if s ≤ i ∧ i < s + n then l[i]? else none := by
  unfold get
  dsimp only
  split_ifs with h h' h'
  · rw [List.getElem?_take_of_lt (by omega), List.getElem?_drop, Nat.add_sub_cancel' h]
  · rw [List.getElem?_take, if_neg (by omega)]
  · exact absurd h'.1 h
  · rfl

/-- Pieces that stand in order have a position at most once. -/
theorem cover_of_get {ps : List (ℕ × List α)} (hps : ps.Pairwise fun p q => stop p < q.1)
    {p : ℕ × List α} (hp : p ∈ ps) {i : ℕ} {v : α} (h : get p i = some v) :
    cover ps i = some v := by
  induction ps with
  | nil => cases hp
  | cons q ps ih =>
    rw [List.pairwise_cons] at hps
    rw [cover_cons]
    rcases List.mem_cons.1 hp with rfl | hp
    · rw [h]
      rfl
    · have hin := get_isSome.1 (Option.isSome_iff_exists.2 ⟨v, h⟩)
      have hlt := hps.1 p hp
      rw [get_eq_none.2 (Or.inr (by omega)), Option.none_or]
      exact ih hps.2 hp

theorem Canonical.tail {p : ℕ × List α} {ps : List (ℕ × List α)} (h : Canonical (p :: ps)) :
    Canonical ps :=
  ⟨fun q hq => h.nonempty q (List.mem_cons_of_mem _ hq), h.apart.of_cons⟩

/-! ### Pieces are determined by what they hold -/

section

variable {p : ℕ × List α} {ps : List (ℕ × List α)} (h : Canonical (p :: ps))

include h

theorem Canonical.start_lt : p.1 < stop p := by
  have := List.length_pos_iff.2 (h.nonempty p List.mem_cons_self)
  unfold stop
  omega

/-- Behind the first piece the others begin, after a gap. -/
theorem Canonical.cover_rest {i : ℕ} (hi : i ≤ stop p) : cover ps i = none := by
  rw [cover_eq_none]
  intro q hq
  have := (List.pairwise_cons.1 h.apart).1 q hq
  exact get_eq_none.2 (Or.inl (by omega))

theorem Canonical.cover_first {i : ℕ} (hi : i ≤ stop p) : cover (p :: ps) i = get p i := by
  rw [cover_cons, h.cover_rest hi, Option.or_none]

theorem Canonical.cover_before {i : ℕ} (hi : i < p.1) : cover (p :: ps) i = none := by
  rw [h.cover_first (hi.le.trans h.start_lt.le)]
  exact get_eq_none.2 (Or.inl hi)

theorem Canonical.cover_start : (cover (p :: ps) p.1).isSome = true := by
  rw [h.cover_first h.start_lt.le]
  exact get_isSome.2 ⟨le_rfl, h.start_lt⟩

theorem Canonical.cover_tail (i : ℕ) :
    cover ps i = if i ≤ stop p then none else cover (p :: ps) i := by
  split_ifs with hi
  · exact h.cover_rest hi
  · rw [cover_cons, get_eq_none.2 (Or.inr (by omega)), Option.none_or]

end

/-- The first pieces of two lists that hold the same are the same. -/
theorem Canonical.head_eq {p q : ℕ × List α} {ps qs : List (ℕ × List α)}
    (hp : Canonical (p :: ps)) (hq : Canonical (q :: qs))
    (h : cover (p :: ps) = cover (q :: qs)) : p = q := by
  have hstart : p.1 = q.1 := by
    rcases lt_trichotomy p.1 q.1 with hlt | heq | hlt
    · have := hp.cover_start
      rw [h, hq.cover_before hlt] at this
      cases this
    · exact heq
    · have := hq.cover_start
      rw [← h, hp.cover_before hlt] at this
      cases this
  have hget : ∀ i, i ≤ stop p → i ≤ stop q → get p i = get q i := by
    intro i hi hj
    rw [← hp.cover_first hi, ← hq.cover_first hj, h]
  have hstop : stop p = stop q := by
    have hp' := hp.start_lt
    have hq' := hq.start_lt
    rcases lt_trichotomy (stop p) (stop q) with hlt | heq | hlt
    · have hnone := hget (stop p) le_rfl hlt.le
      rw [get_eq_none.2 (Or.inr le_rfl)] at hnone
      have := get_eq_none.1 hnone.symm
      omega
    · exact heq
    · have hnone := hget (stop q) hlt.le le_rfl
      rw [get_eq_none.2 (Or.inr le_rfl)] at hnone
      have := get_eq_none.1 hnone
      omega
  obtain ⟨s, l⟩ := p
  obtain ⟨t, m⟩ := q
  obtain rfl : s = t := hstart
  have hlength : l.length = m.length := Nat.add_left_cancel hstop
  refine Prod.ext rfl (List.ext_getElem? fun j => ?_)
  dsimp only
  by_cases hj : j < l.length
  · have := hget (s + j) (Nat.add_le_add_left hj.le s) (Nat.add_le_add_left (hlength ▸ hj.le) s)
    rwa [get_add, get_add] at this
  · rw [List.getElem?_eq_none (by omega), List.getElem?_eq_none (by omega)]

/-- **Pieces are determined by what they hold.** -/
theorem canonical_ext {ps qs : List (ℕ × List α)} (hp : Canonical ps) (hq : Canonical qs)
    (h : cover ps = cover qs) : ps = qs := by
  induction ps generalizing qs with
  | nil =>
    cases qs with
    | nil => rfl
    | cons q qs =>
      have := hq.cover_start
      rw [← h] at this
      cases this
  | cons p ps ih =>
    cases qs with
    | nil =>
      have := hp.cover_start
      rw [h] at this
      cases this
    | cons q qs =>
      obtain rfl := hp.head_eq hq h
      refine congrArg (p :: ·) (ih hp.tail hq.tail ?_)
      funext i
      rw [hp.cover_tail, hq.cover_tail, h]

/-! ### Where a stretch meets the pieces -/

/-- Behind the first that fails all fail, where failing is passed on. -/
theorem forall_mem_dropWhile {β : Type*} {r : β → β → Prop} {P : β → Bool} {l : List β}
    (hl : l.Pairwise r) (hP : ∀ x y, r x y → P y = true → P x = true) :
    ∀ x ∈ l.dropWhile P, P x = false := by
  induction l with
  | nil => simp
  | cons x l ih =>
    rw [List.pairwise_cons] at hl
    rw [List.dropWhile_cons]
    split_ifs with hx
    · exact ih hl.2
    · intro y hy
      rw [Bool.not_eq_true] at hx
      rcases List.mem_cons.1 hy with rfl | hy
      · exact hx
      · by_contra hne
        rw [Bool.not_eq_false] at hne
        rw [hP x y (hl.1 y hy) hne] at hx
        cases hx

/-- **The pieces before a stretch, those it overlaps or touches, and those behind it.** -/
theorem Canonical.exists_met {ps : List (ℕ × List α)} (h : Canonical ps) {lo hi : ℕ}
    (hle : lo ≤ hi) : ∃ before met after, ps = before ++ met ++ after ∧
      ps.takeWhile (fun p => decide (stop p < lo)) = before ∧
      ps.takeWhile (fun p => decide (p.1 ≤ hi)) = before ++ met ∧
      (∀ p ∈ before, stop p < lo) ∧ (∀ p ∈ met, lo ≤ stop p ∧ p.1 ≤ hi) ∧
      ∀ p ∈ after, hi < p.1 := by
  have hstart : ∀ p : ℕ × List α, p.1 ≤ stop p := fun p => Nat.le_add_right _ _
  have hbefore : ∀ p ∈ ps.takeWhile (fun p => decide (stop p < lo)), stop p < lo := by
    intro p hp
    simpa using List.mem_takeWhile_imp hp
  have hrest : ∀ p ∈ ps.dropWhile (fun p => decide (stop p < lo)), lo ≤ stop p := by
    intro p hp
    have := forall_mem_dropWhile h.apart (P := fun p => decide (stop p < lo)) (fun p q hpq hq => by
      have := hstart q
      simp only [decide_eq_true_eq] at hq ⊢
      omega) p hp
    simpa using this
  have happart : (ps.dropWhile fun p => decide (stop p < lo)).Pairwise fun p q => stop p < q.1 :=
    h.apart.sublist (List.dropWhile_sublist _)
  have hsplit := List.takeWhile_append_dropWhile (p := fun p => decide (stop p < lo)) (l := ps)
  refine ⟨_, (ps.dropWhile fun p => decide (stop p < lo)).takeWhile fun p => decide (p.1 ≤ hi),
    (ps.dropWhile fun p => decide (stop p < lo)).dropWhile fun p => decide (p.1 ≤ hi),
    ?_, rfl, ?_, hbefore, ?_, ?_⟩
  · rw [List.append_assoc, List.takeWhile_append_dropWhile, hsplit]
  · conv_lhs => rw [← hsplit]
    refine List.takeWhile_append_of_pos fun p hp => ?_
    have h₁ := hbefore p hp
    have h₂ := hstart p
    simp only [decide_eq_true_eq]
    omega
  · intro p hp
    refine ⟨hrest p ((List.takeWhile_sublist _).subset hp), ?_⟩
    simpa using List.mem_takeWhile_imp hp
  · intro p hp
    have := forall_mem_dropWhile happart (P := fun p => decide (p.1 ≤ hi)) (fun p q hpq hq => by
      have := hstart p
      simp only [decide_eq_true_eq] at hq ⊢
      omega) p hp
    simpa using this

end Segments
