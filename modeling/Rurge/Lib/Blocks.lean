import Mathlib

/-!
# Covers by nested blocks

A family of sets is laminar when two of them that meet are nested, one in the other.  A list of
pairwise disjoint blocks that covers a set with as few blocks as any such list is made of maximal
ones (`Fewest.maximal`).  The dyadic blocks (`Cell`), the `2 ^ k` numbers that one number and `k`
bits stand for, are laminar (`Cell.nested`), and one that is cut in two has its halves
(`Cell.halves`).
-/

namespace Blocks

variable {ι α : Type*} {B : ι → Set α}

variable (B) in
/-- Two sets that meet are nested. -/
def Laminar : Prop := ∀ i j, (B i ∩ B j).Nonempty → B i ⊆ B j ∨ B j ⊆ B i

variable (B) in
/-- What the blocks of a list cover. -/
def covered (L : List ι) : Set α := {a | ∃ i ∈ L, a ∈ B i}

variable (B) in
/-- Disjoint blocks, as few as any that cover the same. -/
structure Fewest (L : List ι) : Prop where
  disjoint : L.Pairwise fun i j => Disjoint (B i) (B j)
  least : ∀ L' : List ι, (L'.Pairwise fun i j => Disjoint (B i) (B j)) →
    covered B L' = covered B L → L.length ≤ L'.length

variable (B) in
/-- No block of `U` reaches beyond `i` where it meets it. -/
def Maximal (U : Set α) (i : ι) : Prop := ∀ j, B j ⊆ U → (B i ∩ B j).Nonempty → B j ⊆ B i

@[simp] theorem mem_covered {L : List ι} {a : α} : a ∈ covered B L ↔ ∃ i ∈ L, a ∈ B i := Iff.rfl

theorem covered_append (L L' : List ι) : covered B (L ++ L') = covered B L ∪ covered B L' := by
  ext a
  simp [or_and_right, exists_or]

theorem covered_flatMap {f : ι → List ι} (L : List ι) :
    covered B (L.flatMap f) = {a | ∃ i ∈ L, a ∈ covered B (f i)} := by
  ext a
  simp only [mem_covered, List.mem_flatMap, Set.mem_ofPred_eq]
  constructor
  · rintro ⟨j, ⟨i, hi, hj⟩, ha⟩
    exact ⟨i, hi, j, hj, ha⟩
  · rintro ⟨i, hi, j, hj, ha⟩
    exact ⟨j, ⟨i, hi, hj⟩, ha⟩

/-- Of disjoint blocks, two that meet are one. -/
theorem eq_of_meet {L : List ι} (h : L.Pairwise fun i j => Disjoint (B i) (B j)) {i j : ι}
    (hi : i ∈ L) (hj : j ∈ L) (hmeet : (B i ∩ B j).Nonempty) : i = j := by
  by_contra hne
  have : Std.Symm fun i j => Disjoint (B i) (B j) := ⟨fun _ _ h => h.symm⟩
  exact Set.not_disjoint_iff_nonempty_inter.2 hmeet (h.forall hi hj hne)

/-- **A cover by the fewest blocks is made of maximal ones**: the blocks inside one that reaches
further would give way to it. -/
theorem Fewest.maximal (hlaminar : Laminar B) {L : List ι} (h : Fewest B L) {i : ι} (hi : i ∈ L) :
    Maximal B (covered B L) i := by
  classical
  intro j hj hmeet
  by_contra hreaches
  have hinside : B i ⊆ B j := (hlaminar i j hmeet).resolve_right hreaches
  -- a block that is not inside `j` does not meet it
  have hapart : ∀ m ∈ L, ¬B m ⊆ B j → Disjoint (B j) (B m) := by
    intro m hm hout
    by_contra hmeets
    have hjm : (B j ∩ B m).Nonempty := Set.not_disjoint_iff_nonempty_inter.1 hmeets
    have hcovers : B j ⊆ B m := (hlaminar j m hjm).resolve_right hout
    obtain ⟨a, hai, haj⟩ := hmeet
    obtain rfl := eq_of_meet h.disjoint hi hm ⟨a, hai, hcovers haj⟩
    exact hreaches hcovers
  have hshorter := h.least (j :: L.filter fun m => ¬B m ⊆ B j) ?_ ?_
  · have hsplit := List.length_eq_length_filter_add (l := L) fun m => decide (B m ⊆ B j)
    have hone : (L.filter fun m => decide (B m ⊆ B j)).length ≤ 1 := by
      simp only [List.length_cons, decide_not] at hshorter
      omega
    have hmem : i ∈ L.filter fun m => decide (B m ⊆ B j) :=
      List.mem_filter.2 ⟨hi, decide_eq_true hinside⟩
    refine hreaches fun a ha => ?_
    obtain ⟨m, hm, ham⟩ := hj ha
    by_cases hmj : B m ⊆ B j
    · have hmem' : m ∈ L.filter fun m => decide (B m ⊆ B j) :=
        List.mem_filter.2 ⟨hm, decide_eq_true hmj⟩
      generalize L.filter (fun m => decide (B m ⊆ B j)) = inside at *
      match inside, hone with
      | [x], _ => rwa [List.mem_singleton.1 hmem, ← List.mem_singleton.1 hmem']
    · exact absurd ham (Set.disjoint_left.1 (hapart m hm hmj) ha)
  · refine List.pairwise_cons.2 ⟨fun m hm => ?_, h.disjoint.filter _⟩
    obtain ⟨hm, hout⟩ := List.mem_filter.1 hm
    exact hapart m hm (of_decide_eq_true hout)
  · ext a
    simp only [mem_covered, List.mem_cons, exists_eq_or_imp, List.mem_filter, decide_eq_true_eq]
    constructor
    · rintro (ha | ⟨m, ⟨hm, -⟩, ha⟩)
      · exact hj ha
      · exact ⟨m, hm, ha⟩
    · rintro ⟨m, hm, ha⟩
      by_cases hmj : B m ⊆ B j
      · exact .inl (hmj ha)
      · exact .inr ⟨m, ⟨hm, hmj⟩, ha⟩

end Blocks

/-! ### Dyadic blocks -/

/-- The numbers that have the quotient `q` by `2 ^ k`. -/
structure Cell where
  k : ℕ
  q : ℕ

namespace Cell

def nums (b : Cell) : Set ℕ := {a | a / 2 ^ b.k = b.q}

def first (b : Cell) : ℕ := b.q * 2 ^ b.k

def last (b : Cell) : ℕ := b.q * 2 ^ b.k + (2 ^ b.k - 1)

theorem mem_nums {b : Cell} {a : ℕ} : a ∈ b.nums ↔ b.first ≤ a ∧ a ≤ b.last := by
  have hpos : 0 < 2 ^ b.k := Nat.two_pow_pos _
  rw [nums, Set.mem_ofPred_eq, Nat.div_eq_iff hpos, first, last, Nat.mul_comm]
  omega

theorem first_le_last (b : Cell) : b.first ≤ b.last := Nat.le_add_right _ _

theorem first_mem (b : Cell) : b.first ∈ b.nums := mem_nums.2 ⟨le_rfl, b.first_le_last⟩

theorem last_mem (b : Cell) : b.last ∈ b.nums := mem_nums.2 ⟨b.first_le_last, le_rfl⟩

/-- One block is inside another when its ends are. -/
theorem subset_iff {b c : Cell} : c.nums ⊆ b.nums ↔ b.first ≤ c.first ∧ c.last ≤ b.last := by
  constructor
  · intro h
    exact ⟨(mem_nums.1 (h c.first_mem)).1, (mem_nums.1 (h c.last_mem)).2⟩
  · rintro ⟨hfirst, hlast⟩ a ha
    obtain ⟨ha, ha'⟩ := mem_nums.1 ha
    exact mem_nums.2 ⟨hfirst.trans ha, ha'.trans hlast⟩

/-- The smaller of two blocks that meet is inside the other. -/
theorem subset_of_le {b c : Cell} (hle : c.k ≤ b.k) {a : ℕ} (hb : a ∈ b.nums) (hc : a ∈ c.nums) :
    c.nums ⊆ b.nums := by
  intro x hx
  have hsplit : 2 ^ b.k = 2 ^ c.k * 2 ^ (b.k - c.k) := by
    rw [← pow_add]
    congr 1
    omega
  rw [nums, Set.mem_ofPred_eq, hsplit, ← Nat.div_div_eq_div_mul] at hb ⊢
  rw [show x / 2 ^ c.k = a / 2 ^ c.k from Eq.trans hx hc.symm]
  exact hb

/-- **Dyadic blocks are laminar.** -/
theorem nested : Blocks.Laminar nums := by
  rintro b c ⟨a, hb, hc⟩
  rcases le_total b.k c.k with hle | hle
  · exact .inl (subset_of_le hle hc hb)
  · exact .inr (subset_of_le hle hb hc)

/-- The larger of two nested blocks counts more bits. -/
theorem le_of_subset {b c : Cell} (h : c.nums ⊆ b.nums) : c.k ≤ b.k := by
  obtain ⟨hfirst, hlast⟩ := subset_iff.1 h
  rw [first, first] at hfirst
  rw [last, last] at hlast
  have hpos := Nat.two_pow_pos b.k
  have hpos' := Nat.two_pow_pos c.k
  have hpow : 2 ^ c.k ≤ 2 ^ b.k := by omega
  exact (Nat.pow_le_pow_iff_right (by norm_num)).1 hpow

/-- Two blocks of one size that meet are one. -/
theorem eq_of_meet {b c : Cell} (hk : b.k = c.k) {a : ℕ} (hb : a ∈ b.nums) (hc : a ∈ c.nums) :
    b = c := by
  obtain ⟨k, q⟩ := b
  obtain ⟨l, r⟩ := c
  obtain rfl : k = l := hk
  obtain rfl : q = r := Eq.trans (Eq.symm hb) hc
  rfl

/-- A block is its two halves. -/
theorem halves (k q : ℕ) :
    (Cell.mk (k + 1) q).nums = (Cell.mk k (2 * q)).nums ∪ (Cell.mk k (2 * q + 1)).nums := by
  ext a
  simp only [nums, Set.mem_ofPred_eq, Set.mem_union]
  rw [pow_succ, ← Nat.div_div_eq_div_mul]
  omega

theorem halves_apart (k q : ℕ) : (Cell.mk k (2 * q)).last < (Cell.mk k (2 * q + 1)).first := by
  have hpos : 0 < 2 ^ k := Nat.two_pow_pos k
  simp only [last, first, Nat.add_mul, Nat.one_mul]
  omega

/-- A block inside another and smaller than it is inside one of its halves. -/
theorem subset_half {b : Cell} {k q : ℕ} (h : b.nums ⊆ (Cell.mk (k + 1) q).nums)
    (hlt : b.k < k + 1) :
    b.nums ⊆ (Cell.mk k (2 * q)).nums ∨ b.nums ⊆ (Cell.mk k (2 * q + 1)).nums := by
  have hmem := h b.first_mem
  rw [halves] at hmem
  have hle : b.k ≤ k := Nat.le_of_lt_succ hlt
  rcases hmem with hmem | hmem
  · exact .inl (subset_of_le hle hmem b.first_mem)
  · exact .inr (subset_of_le hle hmem b.first_mem)

end Cell
