import Rurge.Lib.Blocks
import Rurge.Route.RouteSet

/-!
# What the routes cover

A network is a dyadic block of addresses, and the complement around holes, the aggregation and the
carvings after it keep a list canonical: ascending, of sound prefixes, each as wide as what the list
covers lets it be.
-/

namespace Rurge

open Blocks

namespace IpNet

variable {w : ℕ}

/-- The network as a dyadic block. -/
def cell (n : IpNet w) : Cell := ⟨w - n.prefixLen, n.addr.toNat / 2 ^ (w - n.prefixLen)⟩

/-- The addresses of the network. -/
def nums (n : IpNet w) : Set ℕ := n.cell.nums

/-- No bit is set past the prefix. -/
def Sound (n : IpNet w) : Prop := n.trunc = n

theorem mem_nums {n : IpNet w} {a : ℕ} : a ∈ n.nums ↔ n.network ≤ a ∧ a ≤ n.broadcast :=
  Cell.mem_nums

theorem network_mem (n : IpNet w) : n.network ∈ n.nums := n.cell.first_mem

theorem contains_iff {n : IpNet w} {ip : BitVec w} : n.contains ip = true ↔ ip.toNat ∈ n.nums := by
  rw [contains, beq_iff_eq, ← BitVec.toNat_inj, BitVec.toNat_ushiftRight, BitVec.toNat_ushiftRight,
    Nat.shiftRight_eq_div_pow, Nat.shiftRight_eq_div_pow]
  rfl

theorem covers_iff {n m : IpNet w} : n.covers m = true ↔ m.nums ⊆ n.nums := by
  rw [covers, Bool.and_eq_true, decide_eq_true_eq, decide_eq_true_eq]
  exact (Cell.subset_iff (b := n.cell) (c := m.cell)).symm

theorem laminar : Laminar (nums (w := w)) := fun m n => Cell.nested m.cell n.cell

/-- A network has addresses of its width. -/
theorem lt_of_mem {n : IpNet w} {a : ℕ} (h : a ∈ n.nums) : a < 2 ^ w := by
  have hq : a / 2 ^ (w - n.prefixLen) = n.addr.toNat / 2 ^ (w - n.prefixLen) := h
  have hlt : n.addr.toNat / 2 ^ (w - n.prefixLen) < 2 ^ n.prefixLen := by
    rw [Nat.div_lt_iff_lt_mul (Nat.two_pow_pos _), ← pow_add, Nat.add_sub_cancel' n.le]
    exact n.addr.isLt
  rw [← hq, Nat.div_lt_iff_lt_mul (Nat.two_pow_pos _), ← pow_add, Nat.add_sub_cancel' n.le] at hlt
  exact hlt

theorem toNat_trunc (n : IpNet w) : n.trunc.addr.toNat = n.network := by
  have hlt : n.addr.toNat / 2 ^ (w - n.prefixLen) * 2 ^ (w - n.prefixLen) < 2 ^ w :=
    (Nat.div_mul_le_self _ _).trans_lt n.addr.isLt
  simp only [trunc, network, BitVec.toNat_shiftLeft, BitVec.toNat_ushiftRight,
    Nat.shiftRight_eq_div_pow, Nat.shiftLeft_eq]
  exact Nat.mod_eq_of_lt hlt

theorem sound_iff {n : IpNet w} : n.Sound ↔ n.addr.toNat = n.network := by
  constructor
  · intro h
    rw [← toNat_trunc, h]
  · intro h
    have haddr : n.trunc.addr = n.addr := BitVec.eq_of_toNat_eq ((toNat_trunc n).trans h.symm)
    show (⟨n.trunc.addr, n.prefixLen, n.le⟩ : IpNet w) = n
    rw [haddr]

theorem sound_trunc (n : IpNet w) : n.trunc.Sound := by
  obtain ⟨addr, len, hle⟩ := n
  simp [Sound, trunc, shift_trunc]

@[simp] theorem nums_trunc (n : IpNet w) : n.trunc.nums = n.nums := by
  have hcell : n.trunc.cell = n.cell := by
    simp only [cell, toNat_trunc, trunc_prefixLen, network]
    rw [Nat.mul_div_cancel _ (Nat.two_pow_pos _)]
  rw [nums, nums, hcell]

/-- The halves of a network: its block in two. -/
theorem halves_spec {n low high : IpNet w} (h : n.halves = some (low, high)) :
    low.Sound ∧ high.Sound ∧ n.nums = low.nums ∪ high.nums ∧ low.broadcast < high.network ∧
      ∀ m : IpNet w, m.nums ⊆ n.nums → ¬n.nums ⊆ m.nums →
        m.nums ⊆ low.nums ∨ m.nums ⊆ high.nums := by
  unfold halves at h
  split_ifs at h with hroom
  obtain ⟨rfl, rfl⟩ := Prod.mk.inj (Option.some.inj h)
  obtain ⟨k, hk⟩ : ∃ k, w - n.prefixLen = k + 1 := ⟨w - n.prefixLen - 1, by omega⟩
  have hk' : w - (n.prefixLen + 1) = k := by omega
  have hk'' : w - n.prefixLen - 1 = k := by omega
  have hpos : 0 < 2 ^ k := Nat.two_pow_pos k
  have hnetwork : n.network = n.addr.toNat / 2 ^ (k + 1) * 2 * 2 ^ k := by
    rw [network, hk, pow_succ, Nat.mul_comm (2 ^ k) 2, Nat.mul_assoc]
  have hcell : n.cell = ⟨k + 1, n.addr.toNat / 2 ^ (k + 1)⟩ := by rw [cell, hk]
  have hlast : n.network + 2 ^ k < 2 ^ w := by
    refine lt_of_mem (n := n) (mem_nums.2 ⟨Nat.le_add_right _ _, ?_⟩)
    rw [broadcast, hk, pow_succ]
    omega
  generalize hq : n.addr.toNat / 2 ^ (k + 1) = q at hnetwork hcell
  have hlow : (⟨n.trunc.addr, n.prefixLen + 1, hroom⟩ : IpNet w).cell = ⟨k, 2 * q⟩ := by
    rw [cell]
    simp only [hk', toNat_trunc, hnetwork, Nat.mul_comm q 2, Nat.mul_div_cancel _ hpos]
  have hhigh : (⟨BitVec.ofNat w (n.network + 2 ^ (w - n.prefixLen - 1)), n.prefixLen + 1, hroom⟩ :
      IpNet w).cell = ⟨k, 2 * q + 1⟩ := by
    have hdiv : (q * 2 * 2 ^ k + 2 ^ k) / 2 ^ k = 2 * q + 1 := by
      rw [Nat.add_div_right _ hpos, Nat.mul_div_cancel _ hpos, Nat.mul_comm q 2]
    rw [cell]
    simp only [hk', hk'', BitVec.toNat_ofNat, Nat.mod_eq_of_lt hlast]
    rw [hnetwork, hdiv]
  refine ⟨?_, ?_, ?_, ?_, fun m hm hne => ?_⟩
  · refine sound_iff.2 ?_
    show n.trunc.addr.toNat = Cell.first (cell _)
    rw [hlow, toNat_trunc, hnetwork, Cell.first, Nat.mul_comm q 2]
  · refine sound_iff.2 ?_
    show (BitVec.ofNat w (n.network + 2 ^ (w - n.prefixLen - 1))).toNat = Cell.first (cell _)
    rw [hhigh, hk'', BitVec.toNat_ofNat, Nat.mod_eq_of_lt hlast, hnetwork, Cell.first]
    ring
  · rw [nums, nums, nums, hlow, hhigh, hcell, Cell.halves]
  · show Cell.last (cell _) < Cell.first (cell _)
    rw [hlow, hhigh]
    exact Cell.halves_apart k q
  · rw [nums, nums, nums, hlow, hhigh]
    rw [nums, nums, hcell] at hm hne
    refine Cell.subset_half hm (lt_of_le_of_ne (Cell.le_of_subset hm) fun hsame => hne ?_)
    rw [Cell.eq_of_meet hsame m.cell.first_mem (hm m.cell.first_mem)]

/-- A network that cannot be halved is one address. -/
theorem halves_none {n : IpNet w} (h : n.halves = none) : n.broadcast = n.network := by
  have hle : w ≤ n.prefixLen := by
    by_contra hlt
    rw [halves, dif_pos (Nat.lt_of_not_le hlt)] at h
    cases h
  simp [broadcast, Nat.sub_eq_zero_of_le hle]

/-! ### Canonical lists -/

/-- Each network ends before the next one begins. -/
def Before (m n : IpNet w) : Prop := m.broadcast < n.network

/-- The list of sound prefixes that covers `U`: in ascending order, each as wide as `U` lets it. -/
structure Canonical (L : List (IpNet w)) (U : Set ℕ) : Prop where
  ascending : L.Pairwise Before
  sound : ∀ n ∈ L, n.Sound
  covers : covered nums L = U
  maximal : ∀ n ∈ L, Maximal nums U n

theorem before_of_subset {m n m' n' : IpNet w} (h : Before m n) (hm : m'.nums ⊆ m.nums)
    (hn : n'.nums ⊆ n.nums) : Before m' n' := by
  have hlast : m'.broadcast ≤ m.broadcast := (mem_nums.1 (hm m'.cell.last_mem)).2
  have hfirst : n.network ≤ n'.network := (mem_nums.1 (hn n'.network_mem)).1
  exact hlast.trans_lt (h.trans_le hfirst)

section

variable {net : IpNet w} {holes : List (IpNet w)}

theorem canonical_nil (h : holes.any (·.covers net) = true) :
    Canonical ([] : List (IpNet w)) (net.nums \ covered nums holes) := by
  obtain ⟨hole, hhole, hcovers⟩ := List.any_eq_true.1 h
  refine ⟨.nil, nofun, ?_, nofun⟩
  refine (Set.eq_empty_of_forall_notMem fun a ha => ?_).trans
    (Set.eq_empty_of_forall_notMem fun a ha => ?_).symm
  · obtain ⟨n, hn, -⟩ := ha
    cases hn
  · exact ha.2 ⟨hole, hhole, covers_iff.1 hcovers ha.1⟩

theorem canonical_self (hsound : net.Sound) (hcovered : ¬holes.any (·.covers net) = true)
    (hclear : (!holes.any (net.covers ·)) = true) :
    Canonical [net] (net.nums \ covered nums holes) := by
  have hout : ∀ a ∈ net.nums, a ∉ covered nums holes := by
    rintro a ha ⟨hole, hhole, ha'⟩
    rcases laminar net hole ⟨a, ha, ha'⟩ with hinside | hinside
    · exact hcovered (List.any_eq_true.2 ⟨hole, hhole, covers_iff.2 hinside⟩)
    · rw [Bool.not_eq_true', List.any_eq_false] at hclear
      exact hclear hole hhole (covers_iff.2 hinside)
  refine ⟨List.pairwise_singleton _ _, fun n hn => List.mem_singleton.1 hn ▸ hsound, ?_,
    fun n hn j hj _ => ?_⟩
  · ext a
    simp only [mem_covered, List.mem_singleton, exists_eq_left, Set.mem_sdiff]
    exact ⟨fun ha => ⟨ha, hout a ha⟩, fun ha => ha.1⟩
  · rw [List.mem_singleton.1 hn]
    exact fun a ha => (hj ha).1

/-- A hole inside `net`. -/
theorem touched (hclear : ¬(!holes.any (net.covers ·)) = true) :
    ∃ hole ∈ holes, hole.nums ⊆ net.nums := by
  rw [Bool.not_eq_true', Bool.not_eq_false, List.any_eq_true] at hclear
  obtain ⟨hole, hhole, hcovers⟩ := hclear
  exact ⟨hole, hhole, covers_iff.1 hcovers⟩

theorem halves_some (hroom : net.prefixLen < w) :
    ∃ low high, net.halves = some (low, high) ∧ low.prefixLen = net.prefixLen + 1 ∧
      high.prefixLen = net.prefixLen + 1 :=
  ⟨_, _, dif_pos hroom, rfl, rfl⟩

/-- The complements of two halves, where no network of the whole reaches over both. -/
theorem Canonical.append {low high : IpNet w} {L L' : List (IpNet w)}
    (h : Canonical L (low.nums \ covered nums holes))
    (h' : Canonical L' (high.nums \ covered nums holes)) (hunion : net.nums = low.nums ∪ high.nums)
    (hapart : low.broadcast < high.network)
    (hhalf : ∀ j : IpNet w, j.nums ⊆ net.nums \ covered nums holes →
      j.nums ⊆ low.nums ∨ j.nums ⊆ high.nums) :
    Canonical (L ++ L') (net.nums \ covered nums holes) := by
  have hlow : ∀ m ∈ L, m.nums ⊆ low.nums := fun m hm a ha =>
    ((h.covers ▸ ⟨m, hm, ha⟩ : a ∈ low.nums \ covered nums holes)).1
  have hhigh : ∀ m ∈ L', m.nums ⊆ high.nums := fun m hm a ha =>
    ((h'.covers ▸ ⟨m, hm, ha⟩ : a ∈ high.nums \ covered nums holes)).1
  have hnone : ∀ a, a ∈ low.nums → a ∉ high.nums := by
    intro a ha ha'
    have hfirst := (mem_nums.1 ha).2
    have hlast := (mem_nums.1 ha').1
    omega
  refine ⟨List.pairwise_append.2 ⟨h.ascending, h'.ascending, fun m hm m' hm' => ?_⟩,
    fun m hm => ?_, ?_, fun m hm j hj hmeet => ?_⟩
  · exact before_of_subset hapart (hlow m hm) (hhigh m' hm')
  · exact (List.mem_append.1 hm).elim (h.sound m) (h'.sound m)
  · rw [covered_append, h.covers, h'.covers, hunion, Set.union_sdiff_distrib]
  · obtain ⟨a, ham, haj⟩ := hmeet
    rcases List.mem_append.1 hm with hm | hm
    · have hjlow := (hhalf j hj).resolve_right fun hjhigh => hnone a (hlow m hm ham) (hjhigh haj)
      exact h.maximal m hm j (fun x hx => ⟨hjlow hx, (hj hx).2⟩) ⟨a, ham, haj⟩
    · have hjhigh := (hhalf j hj).resolve_left fun hjlow => hnone a (hjlow haj) (hhigh m hm ham)
      exact h'.maximal m hm j (fun x hx => ⟨hjhigh hx, (hj hx).2⟩) ⟨a, ham, haj⟩

end

/-- **The complement is canonical**: the addresses of `net` that no hole has. -/
theorem complement_canonical {net : IpNet w} (hsound : net.Sound) (holes : List (IpNet w)) :
    Canonical (net.complement holes) (net.nums \ covered nums holes) := by
  induction hbits : w - net.prefixLen generalizing net with
  | zero =>
    have hnone : net.halves = none := dif_neg (by omega)
    rw [complement_eq, hnone]
    split_ifs with hcovered hclear
    · exact canonical_nil hcovered
    · exact canonical_self hsound hcovered hclear
    · -- one address with a hole in it is covered
      obtain ⟨hole, hhole, hinside⟩ := touched hclear
      have hone := halves_none hnone
      have hcovers : net.nums ⊆ hole.nums := by
        obtain ⟨hfirst, -⟩ := mem_nums.1 (hinside hole.network_mem)
        intro a ha
        have hsame : a = hole.network := by
          have hhole' := mem_nums.1 (hinside hole.network_mem)
          have ha' := mem_nums.1 ha
          omega
        exact hsame ▸ hole.network_mem
      exact (hcovered (List.any_eq_true.2 ⟨hole, hhole, covers_iff.2 hcovers⟩)).elim
  | succ bits ih =>
    have hroom : net.prefixLen < w := by omega
    rw [complement_eq]
    split_ifs with hcovered hclear
    · exact canonical_nil hcovered
    · exact canonical_self hsound hcovered hclear
    · obtain ⟨hole, hhole, hinside⟩ := touched hclear
      obtain ⟨low, high, hhalves, hlow, hhigh⟩ := halves_some hroom
      obtain ⟨hsound_low, hsound_high, hunion, hapart, hhalf⟩ := halves_spec hhalves
      rw [hhalves]
      refine (ih hsound_low (by omega)).append (ih hsound_high (by omega)) hunion hapart
        fun j hj => hhalf j (fun a ha => (hj ha).1) fun hnet => ?_
      exact (hj (hnet (hinside hole.network_mem))).2 ⟨hole, hhole, hole.network_mem⟩

/-- **Holes carved out of a canonical list** leave a canonical list. -/
theorem Canonical.carve {L : List (IpNet w)} {U : Set ℕ} (h : Canonical L U)
    (holes : List (IpNet w)) :
    Canonical (L.flatMap (·.complement holes)) (U \ covered nums holes) := by
  have hpart : ∀ n ∈ L, Canonical (n.complement holes) (n.nums \ covered nums holes) :=
    fun n hn => complement_canonical (h.sound n hn) holes
  have hinside : ∀ n ∈ L, ∀ m ∈ n.complement holes, m.nums ⊆ n.nums := by
    intro n hn m hm a ha
    have hmem : a ∈ covered nums (n.complement holes) := ⟨m, hm, ha⟩
    rw [(hpart n hn).covers] at hmem
    exact hmem.1
  refine ⟨?_, fun m hm => ?_, ?_, fun m hm j hj hmeet => ?_⟩
  · rw [List.pairwise_flatMap]
    refine ⟨fun n hn => (hpart n hn).ascending, ?_⟩
    refine h.ascending.imp_of_mem fun hn hn' hbefore m hm m' hm' => ?_
    exact before_of_subset hbefore (hinside _ hn m hm) (hinside _ hn' m' hm')
  · obtain ⟨n, hn, hm⟩ := List.mem_flatMap.1 hm
    exact (hpart n hn).sound m hm
  · rw [covered_flatMap, ← h.covers]
    ext a
    simp only [Set.mem_ofPred_eq, Set.mem_sdiff, mem_covered]
    constructor
    · rintro ⟨n, hn, ha⟩
      have hmem : a ∈ n.nums \ covered nums holes := (hpart n hn).covers ▸ ha
      exact ⟨⟨n, hn, hmem.1⟩, hmem.2⟩
    · rintro ⟨⟨n, hn, ha⟩, hout⟩
      have hmem : a ∈ covered nums (n.complement holes) := (hpart n hn).covers ▸ ⟨ha, hout⟩
      exact ⟨n, hn, hmem⟩
  · obtain ⟨n, hn, hm⟩ := List.mem_flatMap.1 hm
    have hjn : j.nums ⊆ n.nums := by
      refine h.maximal n hn j (fun a ha => (hj ha).1) ?_
      obtain ⟨a, ham, haj⟩ := hmeet
      exact ⟨a, hinside n hn m hm ham, haj⟩
    exact (hpart n hn).maximal m hm j (fun a ha => ⟨hjn ha, (hj ha).2⟩) hmeet

/-- The complements of sound networks cover what no hole has. -/
theorem covered_complement {L : List (IpNet w)} (hsound : ∀ n ∈ L, n.Sound)
    (holes : List (IpNet w)) :
    covered nums (L.flatMap (·.complement holes)) = covered nums L \ covered nums holes := by
  rw [covered_flatMap]
  ext a
  constructor
  · rintro ⟨n, hn, ha⟩
    rw [(complement_canonical (hsound n hn) holes).covers] at ha
    exact ⟨⟨n, hn, ha.1⟩, ha.2⟩
  · rintro ⟨⟨n, hn, ha⟩, hout⟩
    refine ⟨n, hn, ?_⟩
    rw [(complement_canonical (hsound n hn) holes).covers]
    exact ⟨ha, hout⟩

/-! ### The aggregation -/

/-- What `aggregate` makes of networks: the fewest disjoint prefixes that cover the same, but a set
that ends at the last address but one is taken to have the last one too. -/
structure Aggregated (nets result : List (IpNet w)) : Prop where
  ascending : result.Pairwise Before
  sound : ∀ n ∈ result, n.Sound
  covers : ∀ a, a ∈ covered nums result ↔
    a ∈ covered nums nets ∨ a = 2 ^ w - 1 ∧ 2 ^ w - 2 ∈ covered nums nets
  least : ∀ L : List (IpNet w), (L.Pairwise fun m n => Disjoint m.nums n.nums) →
    covered nums L = covered nums result → result.length ≤ L.length

theorem disjoint_of_before {m n : IpNet w} (h : Before m n) : Disjoint m.nums n.nums := by
  refine Set.disjoint_left.2 fun a hm hn => ?_
  have hlast := (mem_nums.1 hm).2
  have hfirst := (mem_nums.1 hn).1
  have hbefore : m.broadcast < n.network := h
  omega

theorem Aggregated.canonical {nets result : List (IpNet w)} (h : Aggregated nets result) :
    Canonical result (covered nums result) where
  ascending := h.ascending
  sound := h.sound
  covers := rfl
  maximal _ hn :=
    Fewest.maximal laminar ⟨h.ascending.imp disjoint_of_before, h.least⟩ hn

/-- Where the set does not end at the last address but one, it is covered as it is. -/
theorem Aggregated.exact {nets result : List (IpNet w)} (h : Aggregated nets result)
    (hlast : 2 ^ w - 2 ∈ covered nums nets → 2 ^ w - 1 ∈ covered nums nets) :
    Canonical result (covered nums nets) := by
  have hsame : covered nums result = covered nums nets := by
    ext a
    rw [h.covers]
    constructor
    · rintro (ha | ⟨rfl, hend⟩)
      · exact ha
      · exact hlast hend
    · exact .inl
  exact hsame ▸ h.canonical

/-! ### A space of its own -/

section

variable {space outer low high : IpNet w}

/-- A network that meets the space and is not inside it has the space's outer network in it. -/
theorem outer_subset (houter : outer.halves = some (low, high))
    (hspace : space = low ∨ space = high) {n : IpNet w}
    (hmeet : (n.nums ∩ space.nums).Nonempty) (hout : ¬n.nums ⊆ space.nums) :
    outer.nums ⊆ n.nums := by
  obtain ⟨-, -, hunion, hapart, hhalf⟩ := halves_spec houter
  obtain ⟨a, hn, hs⟩ := hmeet
  have hinside : space.nums ⊆ outer.nums := by
    rw [hunion]
    rcases hspace with rfl | rfl
    · exact Set.subset_union_left
    · exact Set.subset_union_right
  have hnone : ∀ x, x ∈ low.nums → x ∉ high.nums := by
    intro x hx hx'
    have hlast := (mem_nums.1 hx).2
    have hfirst := (mem_nums.1 hx').1
    omega
  rcases laminar n outer ⟨a, hn, hinside hs⟩ with hsmaller | hlarger
  · by_contra hreaches
    rcases hhalf n hsmaller hreaches with h | h
    · rcases hspace with rfl | rfl
      · exact hout h
      · exact hnone a (h hn) hs
    · rcases hspace with rfl | rfl
      · exact hnone a hs (h hn)
      · exact hout h
  · exact hlarger

/-- No network of a canonical list is inside the space, where what it covers of the space comes with
the outer network. -/
theorem Canonical.outside {L : List (IpNet w)} {U : Set ℕ} (h : Canonical L U)
    (houter : outer.halves = some (low, high)) (hspace : space = low ∨ space = high)
    (hU : ∀ a ∈ U, a ∈ space.nums → outer.nums ⊆ U) : ∀ n ∈ L, space.covers n = false := by
  obtain ⟨-, -, hunion, hapart, -⟩ := halves_spec houter
  intro n hn
  by_contra hcovers
  rw [Bool.not_eq_false] at hcovers
  have hinside := covers_iff.1 hcovers
  have hmem : n.network ∈ U := h.covers ▸ ⟨n, hn, n.network_mem⟩
  have hout := hU _ hmem (hinside n.network_mem)
  have hspace' : space.nums ⊆ outer.nums := by
    rw [hunion]
    rcases hspace with rfl | rfl
    · exact Set.subset_union_left
    · exact Set.subset_union_right
  have hall : outer.nums ⊆ space.nums :=
    (h.maximal n hn outer hout ⟨_, n.network_mem, hspace' (hinside n.network_mem)⟩).trans hinside
  have hlow := hall (hunion ▸ Set.mem_union_left _ low.network_mem)
  have hhigh := hall (hunion ▸ Set.mem_union_right _ high.network_mem)
  have hfirst := low.cell.first_le_last
  rcases hspace with rfl | rfl
  · have := (mem_nums.1 hhigh).2
    omega
  · have := (mem_nums.1 hlow).1
    have hle : low.network ≤ low.broadcast := hfirst
    omega

/-- A network inside what a canonical list covers is inside one of the list. -/
theorem Canonical.covers_one {L : List (IpNet w)} {U : Set ℕ} (h : Canonical L U) {n : IpNet w}
    (hn : n.nums ⊆ U) : ∃ m ∈ L, m.covers n = true := by
  have hmem : n.network ∈ covered nums L := h.covers ▸ hn n.network_mem
  obtain ⟨m, hm, hfirst⟩ := hmem
  exact ⟨m, hm, covers_iff.2 (h.maximal m hm n hn ⟨_, hfirst, n.network_mem⟩)⟩

/-- **What is aggregated**, outside the space: the base without what is taken, and what is
included. -/
theorem mem_pieces {base taken included : List (IpNet w)} (hbase : ∀ n ∈ base, n.Sound)
    (htaken : ∀ n ∈ taken, n.Sound) {a : ℕ} (ha : a ∉ space.nums) :
    a ∈ covered nums ((base.flatMap (·.complement (taken.flatMap (·.complement [space]))) ++
        included).filter (!space.covers ·)) ↔
      a ∈ covered nums base ∧ a ∉ covered nums taken ∨ a ∈ covered nums included := by
  have hholes : a ∈ covered nums (taken.flatMap (·.complement [space])) ↔
      a ∈ covered nums taken := by
    rw [covered_complement htaken, Set.mem_sdiff]
    simp [ha]
  have hkept : ∀ L : List (IpNet w), a ∈ covered nums (L.filter (!space.covers ·)) ↔
      a ∈ covered nums L := by
    intro L
    constructor
    · rintro ⟨n, hn, han⟩
      exact ⟨n, (List.mem_filter.1 hn).1, han⟩
    · rintro ⟨n, hn, han⟩
      refine ⟨n, List.mem_filter.2 ⟨hn, ?_⟩, han⟩
      rw [Bool.not_eq_true', Bool.eq_false_iff]
      exact fun hcovers => ha (covers_iff.1 hcovers han)
  rw [hkept, covered_append, Set.mem_union, covered_complement hbase, Set.mem_sdiff, hholes]

end

end IpNet

end Rurge
