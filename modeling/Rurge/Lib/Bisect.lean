import Mathlib

/-!
# Searching a sorted list by halves

The part of the list that is left is halved by the comparison with its middle until one element is
left, which is the one asked for or there is none.  In a list that is strictly ascending the search
finds an element where it stands (`search_eq_some`).
-/

namespace Bisect

variable {α : Type*} (side : α → Ordering) (l : List α)

/-- Where the search ends up, from `size` elements on at `base`. -/
def narrow : ℕ → ℕ → ℕ → ℕ
  | 0, base, _ => base
  | fuel + 1, base, size =>
    if size ≤ 1 then base
    else
      let half := size / 2
      let base := if (l[base + half]?).any (side · == .gt) then base else base + half
      narrow fuel base (size - half)

/-- The place of an element that compares equal. -/
def search : Option ℕ :=
  let base := narrow side l l.length 0 l.length
  if (l[base]?).any (side · == .eq) then some base else none

variable {side l}

theorem narrow_mem {i : ℕ}
    (hbelow : ∀ j, j < i → (l[j]?).any (side · == .gt) = false)
    (hself : (l[i]?).any (side · == .gt) = false)
    (habove : ∀ j, i < j → j < l.length → (l[j]?).any (side · == .gt) = true)
    {fuel base size : ℕ} (hfuel : size ≤ fuel + 1) (hbase : base ≤ i) (hi : i < base + size)
    (hsize : base + size ≤ l.length) : narrow side l fuel base size = i := by
  induction fuel generalizing base size with
  | zero =>
    rw [narrow]
    omega
  | succ fuel ih =>
    rw [narrow.eq_def]
    dsimp only
    by_cases hone : size ≤ 1
    · rw [if_pos hone]
      omega
    rw [if_neg hone]
    have hhalf : 0 < size / 2 := Nat.div_pos (by omega) (by norm_num)
    rcases Nat.lt_or_ge i (base + size / 2) with hlt | hge
    · rw [if_pos (habove _ hlt (by omega))]
      exact ih (by omega) hbase (by omega) (by omega)
    · have hnot : (l[base + size / 2]?).any (side · == .gt) = false := by
        rcases Nat.lt_or_eq_of_le hge with hlt | heq
        · exact hbelow _ hlt
        · rw [heq]
          exact hself
      rw [hnot, if_neg Bool.false_ne_true]
      exact ih (by omega) hge (by omega) (by omega)

/-- **The search finds what is there, where it stands, and nothing else.** -/
theorem search_eq_some [Preorder α] (hl : l.Pairwise (· < ·)) {key : α}
    (hgt : ∀ a, side a = .gt ↔ key < a) (heq : ∀ a, side a = .eq ↔ a = key) {i : ℕ} :
    search side l = some i ↔ l[i]? = some key := by
  have hequal (j : ℕ) : (l[j]?).any (side · == .eq) = true ↔ l[j]? = some key := by
    cases l[j]? with
    | none => simp
    | some a => simp [heq]
  constructor
  · intro h
    rw [search] at h
    split_ifs at h with hfound
    obtain rfl := Option.some.inj h
    exact (hequal _).1 hfound
  · intro h
    obtain ⟨hi, hkey⟩ := List.getElem?_eq_some_iff.1 h
    have hlt (a b : ℕ) (ha : a < l.length) (hb : b < l.length) (hab : a < b) : l[a] < l[b] :=
      List.pairwise_iff_getElem.1 hl a b ha hb hab
    have hnot {a : α} (ha : ¬ key < a) : (some a).any (side · == .gt) = false := by
      rw [Option.any_some, beq_eq_false_iff_ne, ne_eq, hgt]
      exact ha
    have hnarrow : narrow side l l.length 0 l.length = i := by
      refine narrow_mem (fun j hj => ?_) ?_ (fun j hj hlen => ?_) (Nat.le_succ _) (Nat.zero_le _)
        (by omega) (by omega)
      · rw [List.getElem?_eq_getElem (hj.trans hi)]
        exact hnot (hkey ▸ hlt j i (hj.trans hi) hi hj).asymm
      · rw [h]
        exact hnot (lt_irrefl key)
      · rw [List.getElem?_eq_getElem hlen, Option.any_some, beq_iff_eq, hgt]
        exact hkey ▸ hlt i j hi hlen hj
    rw [search, hnarrow, if_pos ((hequal i).2 h)]

end Bisect
