import Rurge.Route.RouteSetCovers

/-!
# The routes are the set that the profile says

The aggregation and the carvings after it keep the list of routes canonical, so no step brings back
what an earlier one took out: an address goes into the adapter exactly when the profile wants it to
(`compute_spec`).
-/

namespace Rurge

open Blocks
open IpNet

/-! ### The set that the profile says -/

/-- In rurge's space. -/
def IpAddr.in_space : IpAddr → Bool
  | .v4 ip => SPACE_V4.contains ip
  | .v6 ip => SPACE_V6.contains ip

/-- In a base prefix. -/
def IpAddr.in_base : IpAddr → Bool
  | .v4 ip => BASE_V4.any (·.contains ip)
  | .v6 ip => BASE_V6.any (·.contains ip)

/-- In what never goes into the adapter. -/
def IpAddr.in_always : IpAddr → Bool
  | .v4 ip => ALWAYS_V4.any (·.contains ip)
  | .v6 ip => ALWAYS_V6.any (·.contains ip)

def IpAddr.in_class_e : IpAddr → Bool
  | .v4 ip => CLASS_E.contains ip
  | .v6 _ => false

namespace RouteInputs

variable (inputs : RouteInputs)

/-- The family of an address is on. -/
def family_on : IpAddr → Bool
  | .v4 _ => true
  | .v6 _ => inputs.ipv6

/-- In an included route. -/
def Includes (ip : IpAddr) : Prop := ∃ net ∈ inputs.included, net.contains ip = true

/-- In a hole. -/
def Excludes (ip : IpAddr) : Prop :=
  ip.in_always = true ∨ (∃ net ∈ inputs.excluded, net.contains ip = true) ∨ ip ∈ inputs.external

/-- What goes into the adapter. -/
def Wants (ip : IpAddr) : Prop :=
  ip.in_space = true ∨
    inputs.family_on ip = true ∧
      (inputs.Includes ip ∨ ip.in_base = true ∧ ¬inputs.Excludes ip) ∧
      (inputs.class_e = true ∨ ip.in_class_e = false)

end RouteInputs

section

variable {w : ℕ}

theorem mem_covered_toNat {L : List (IpNet w)} {ip : BitVec w} :
    ip.toNat ∈ covered nums L ↔ L.any (·.contains ip) = true := by
  simp only [mem_covered, List.any_eq_true, contains_iff]

theorem sound_host (ip : BitVec w) : IpNet.Sound ⟨ip, w, le_rfl⟩ := by
  simp [IpNet.Sound, trunc]

theorem host_contains {ip ip' : BitVec w} :
    (⟨ip, w, le_rfl⟩ : IpNet w).contains ip' = true ↔ ip = ip' := by
  simp only [IpNet.contains, Nat.sub_self, BitVec.ushiftRight_zero, beq_iff_eq]
  exact eq_comm

end

variable {inputs : RouteInputs}

theorem included_v4 {nets : List IpNetAny} {ip : Ipv4Addr} :
    ip.toNat ∈ covered nums (nets.filterMap IpNetAny.trunc_v4) ↔
      ∃ net ∈ nets, net.contains (.v4 ip) = true := by
  constructor
  · rintro ⟨n, hn, ha⟩
    obtain ⟨net, hnet, hn⟩ := List.mem_filterMap.1 hn
    cases net with
    | v4 net =>
      obtain rfl := Option.some.inj hn
      exact ⟨_, hnet, contains_iff.2 (nums_trunc net ▸ ha)⟩
    | v6 net => cases hn
  · rintro ⟨net, hnet, hcontains⟩
    cases net with
    | v4 net =>
      refine ⟨net.trunc, List.mem_filterMap.2 ⟨_, hnet, rfl⟩, ?_⟩
      rw [nums_trunc]
      exact contains_iff.1 hcontains
    | v6 net => cases hcontains

theorem included_v6 {nets : List IpNetAny} {ip : Ipv6Addr} :
    ip.toNat ∈ covered nums (nets.filterMap IpNetAny.trunc_v6) ↔
      ∃ net ∈ nets, net.contains (.v6 ip) = true := by
  constructor
  · rintro ⟨n, hn, ha⟩
    obtain ⟨net, hnet, hn⟩ := List.mem_filterMap.1 hn
    cases net with
    | v4 net => cases hn
    | v6 net =>
      obtain rfl := Option.some.inj hn
      exact ⟨_, hnet, contains_iff.2 (nums_trunc net ▸ ha)⟩
  · rintro ⟨net, hnet, hcontains⟩
    cases net with
    | v4 net => cases hcontains
    | v6 net =>
      refine ⟨net.trunc, List.mem_filterMap.2 ⟨_, hnet, rfl⟩, ?_⟩
      rw [nums_trunc]
      exact contains_iff.1 hcontains

theorem external_v4 {ips : List IpAddr} {ip : Ipv4Addr} :
    ip.toNat ∈ covered nums (ips.filterMap IpAddr.host_v4) ↔ .v4 ip ∈ ips := by
  constructor
  · rintro ⟨n, hn, ha⟩
    obtain ⟨ip', hip, hn⟩ := List.mem_filterMap.1 hn
    cases ip' with
    | v4 ip' =>
      obtain rfl := Option.some.inj hn
      exact host_contains.1 (contains_iff.2 ha) ▸ hip
    | v6 ip' => cases hn
  · intro hip
    exact ⟨_, List.mem_filterMap.2 ⟨_, hip, rfl⟩, contains_iff.1 (host_contains.2 rfl)⟩

theorem external_v6 {ips : List IpAddr} {ip : Ipv6Addr} :
    ip.toNat ∈ covered nums (ips.filterMap IpAddr.host_v6) ↔ .v6 ip ∈ ips := by
  constructor
  · rintro ⟨n, hn, ha⟩
    obtain ⟨ip', hip, hn⟩ := List.mem_filterMap.1 hn
    cases ip' with
    | v4 ip' => cases hn
    | v6 ip' =>
      obtain rfl := Option.some.inj hn
      exact host_contains.1 (contains_iff.2 ha) ▸ hip
  · intro hip
    exact ⟨_, List.mem_filterMap.2 ⟨_, hip, rfl⟩, contains_iff.1 (host_contains.2 rfl)⟩

theorem taken_v4_iff {ip : Ipv4Addr} :
    ip.toNat ∈ covered nums (taken_v4 inputs) ↔ inputs.Excludes (.v4 ip) := by
  rw [taken_v4, covered_append, covered_append, Set.mem_union, Set.mem_union, mem_covered_toNat,
    included_v4, external_v4, or_assoc]
  rfl

theorem taken_v6_iff {ip : Ipv6Addr} :
    ip.toNat ∈ covered nums (taken_v6 inputs) ↔ inputs.Excludes (.v6 ip) := by
  rw [taken_v6, covered_append, covered_append, Set.mem_union, Set.mem_union, mem_covered_toNat,
    included_v6, external_v6, or_assoc]
  rfl

theorem sound_base_v4 : ∀ n ∈ BASE_V4, n.Sound := by
  unfold IpNet.Sound
  decide

theorem sound_base_v6 : ∀ n ∈ BASE_V6, n.Sound := by
  unfold IpNet.Sound
  decide

theorem sound_taken_v4 : ∀ n ∈ taken_v4 inputs, n.Sound := by
  have halways : ∀ n ∈ ALWAYS_V4, n.Sound := by
    unfold IpNet.Sound
    decide
  intro n hn
  rcases List.mem_append.1 hn with hn | hn
  · rcases List.mem_append.1 hn with hn | hn
    · exact halways n hn
    · obtain ⟨net, -, hn⟩ := List.mem_filterMap.1 hn
      cases net with
      | v4 net => exact Option.some.inj hn ▸ sound_trunc net
      | v6 net => cases hn
  · obtain ⟨ip, -, hn⟩ := List.mem_filterMap.1 hn
    cases ip with
    | v4 ip => exact Option.some.inj hn ▸ sound_host ip
    | v6 ip => cases hn

theorem sound_taken_v6 : ∀ n ∈ taken_v6 inputs, n.Sound := by
  have halways : ∀ n ∈ ALWAYS_V6, n.Sound := by
    unfold IpNet.Sound
    decide
  intro n hn
  rcases List.mem_append.1 hn with hn | hn
  · rcases List.mem_append.1 hn with hn | hn
    · exact halways n hn
    · obtain ⟨net, -, hn⟩ := List.mem_filterMap.1 hn
      cases net with
      | v4 net => cases hn
      | v6 net => exact Option.some.inj hn ▸ sound_trunc net
  · obtain ⟨ip, -, hn⟩ := List.mem_filterMap.1 hn
    cases ip with
    | v4 ip => cases hn
    | v6 ip => exact Option.some.inj hn ▸ sound_host ip

/-! ### The routes -/

/-- The network one bit wider than rurge's space. -/
def OUTER_V4 : Ipv4Net := ⟨ipv4 198 16 0 0, 14, by decide⟩

def OUTER_V6 : Ipv6Net := ⟨ipv6 0xfd00 0x6152 0 0, 63, by decide⟩

theorem outer_v4 : OUTER_V4.halves = some (⟨ipv4 198 16 0 0, 15, by decide⟩, SPACE_V4) := by
  decide

theorem outer_v6 :
    OUTER_V6.halves = some (SPACE_V6, ⟨ipv6 0xfd00 0x6152 0 1, 64, by decide⟩) := by
  decide

theorem broadcast_nums {a : ℕ} : a ∈ BROADCAST_NET.nums ↔ a = 2 ^ 32 - 1 := by
  have hfirst : BROADCAST_NET.network = 2 ^ 32 - 1 := by decide
  have hlast : BROADCAST_NET.broadcast = 2 ^ 32 - 1 := by decide
  rw [IpNet.mem_nums, hfirst, hlast]
  omega

/-- rurge's space and what is around it are not in class E. -/
theorem outer_class_e {a : ℕ} (h : a ∈ OUTER_V4.nums) : a ∉ CLASS_E.nums := by
  intro h'
  have hlast : OUTER_V4.broadcast < CLASS_E.network := by decide
  have := (IpNet.mem_nums.1 h).2
  have := (IpNet.mem_nums.1 h').1
  omega

theorem space_outer_v4 : SPACE_V4.nums ⊆ OUTER_V4.nums := covers_iff.1 (by decide)

/-- The last addresses are not in rurge's space. -/
theorem last_space_v4 : 2 ^ 32 - 1 ∉ SPACE_V4.nums := by
  intro h
  have hlast : SPACE_V4.broadcast < 2 ^ 32 - 1 := by decide
  have := (IpNet.mem_nums.1 h).2
  omega

theorem last_space_v6 {a : ℕ} (h : 2 ^ 128 - 2 ≤ a) : a ∉ SPACE_V6.nums := by
  intro h'
  have hlast : SPACE_V6.broadcast < 2 ^ 128 - 2 := by decide
  have := (IpNet.mem_nums.1 h').2
  omega

/-- The pieces of a family without the space as a piece of its own: all are outside it. -/
theorem mem_explicit {w : ℕ} {space : IpNet w} {L : List (IpNet w)} {explicit : Bool} {a : ℕ}
    (ha : a ∉ space.nums) :
    a ∈ covered nums (if explicit = true then L ++ [space] else L) ↔ a ∈ covered nums L := by
  split_ifs
  · rw [covered_append, Set.mem_union]
    simp [ha]
  · rfl

/-- What is aggregated of IPv4, outside rurge's space. -/
theorem pieces_v4_iff {a : ℕ} (ha : a ∉ SPACE_V4.nums) :
    a ∈ covered nums (pieces_v4 inputs) ↔
      a ∈ covered nums BASE_V4 ∧ a ∉ covered nums (taken_v4 inputs) ∨
        a ∈ covered nums (inputs.included.filterMap IpNetAny.trunc_v4) :=
  (mem_explicit ha).trans (mem_pieces sound_base_v4 sound_taken_v4 ha)

theorem pieces_v6_iff (hon : inputs.ipv6 = true) {a : ℕ} (ha : a ∉ SPACE_V6.nums) :
    a ∈ covered nums (pieces_v6 inputs) ↔
      a ∈ covered nums BASE_V6 ∧ a ∉ covered nums (taken_v6 inputs) ∨
        a ∈ covered nums (inputs.included.filterMap IpNetAny.trunc_v6) := by
  rw [pieces_v6, if_pos hon]
  exact (mem_explicit ha).trans (mem_pieces sound_base_v6 sound_taken_v6 ha)

theorem pieces_v6_off (hoff : inputs.ipv6 = false) : pieces_v6 inputs = [] := by
  rw [pieces_v6, hoff]
  rfl

theorem broadcast_covered {L : List Ipv4Net} :
    L.any (·.contains BROADCAST_V4) = true ↔ 2 ^ 32 - 1 ∈ covered nums L := by
  have hnum : BROADCAST_V4.toNat = 2 ^ 32 - 1 := by decide
  rw [← mem_covered_toNat, hnum]

section

variable {aggregate_v4 : List Ipv4Net → List Ipv4Net} {aggregate_v6 : List Ipv6Net → List Ipv6Net}

/-- The IPv4 routes cover what was aggregated, less class E where it is off. -/
theorem compute_v4 (h : Aggregated (pieces_v4 inputs) (aggregate_v4 (pieces_v4 inputs))) :
    Canonical (RouteSet.compute aggregate_v4 aggregate_v6 inputs).v4
      {a | a ∈ covered nums (pieces_v4 inputs) ∧ (inputs.class_e = true ∨ a ∉ CLASS_E.nums)} := by
  have hbroadcast : Canonical (without_broadcast (pieces_v4 inputs)
      (aggregate_v4 (pieces_v4 inputs))) (covered nums (pieces_v4 inputs)) := by
    unfold without_broadcast
    split_ifs with hcovered
    · exact h.exact fun _ => broadcast_covered.1 hcovered
    · have hcarved := h.canonical.carve [BROADCAST_NET]
      have hsame : covered nums (aggregate_v4 (pieces_v4 inputs)) \
          covered nums [BROADCAST_NET] = covered nums (pieces_v4 inputs) := by
        ext a
        rw [Set.mem_sdiff, h.covers]
        simp only [mem_covered, List.mem_singleton, exists_eq_left, broadcast_nums]
        constructor
        · rintro ⟨ha | ⟨rfl, -⟩, hne⟩
          · exact ha
          · exact absurd rfl hne
        · intro ha
          refine ⟨.inl ha, ?_⟩
          rintro rfl
          exact hcovered (broadcast_covered.2 ha)
      rwa [hsame] at hcarved
  show Canonical (if inputs.class_e then without_broadcast (pieces_v4 inputs)
      (aggregate_v4 (pieces_v4 inputs)) else (without_broadcast (pieces_v4 inputs)
        (aggregate_v4 (pieces_v4 inputs))).flatMap (·.complement [CLASS_E])) _
  split_ifs with hclass
  · have hsame : covered nums (pieces_v4 inputs) =
        {a | a ∈ covered nums (pieces_v4 inputs) ∧ (inputs.class_e = true ∨ a ∉ CLASS_E.nums)} := by
      ext a
      simp [hclass]
    exact hsame ▸ hbroadcast
  · have hcarved := hbroadcast.carve [CLASS_E]
    have hsame : covered nums (pieces_v4 inputs) \ covered nums [CLASS_E] =
        {a | a ∈ covered nums (pieces_v4 inputs) ∧ (inputs.class_e = true ∨ a ∉ CLASS_E.nums)} := by
      ext a
      simp [hclass]
    exact hsame ▸ hcarved

/-- The IPv6 routes cover what was aggregated. -/
theorem compute_v6 (h : Aggregated (pieces_v6 inputs) (aggregate_v6 (pieces_v6 inputs)))
    (hgap : ∀ net, .v6 net ∈ inputs.included → net.broadcast ≠ 2 ^ 128 - 2) :
    Canonical (RouteSet.compute aggregate_v4 aggregate_v6 inputs).v6
      (covered nums (pieces_v6 inputs)) := by
  refine h.exact fun hlast => ?_
  cases hon : inputs.ipv6 with
  | false =>
    rw [pieces_v6_off hon] at hlast
    obtain ⟨n, hn, -⟩ := hlast
    cases hn
  | true =>
    rw [pieces_v6_iff hon (last_space_v6 le_rfl)] at hlast
    rw [pieces_v6_iff hon (last_space_v6 (by norm_num))]
    right
    rcases hlast with ⟨-, hout⟩ | ⟨n, hn, ha⟩
    · -- the multicast range is always taken out
      refine absurd ⟨⟨ipv6 0xff00 0 0 0, 8, by decide⟩, ?_, ?_⟩ hout
      · exact List.mem_append_left _ (List.mem_append_left _ (by simp [ALWAYS_V6]))
      · exact IpNet.mem_nums.2 (by decide)
    · obtain ⟨net, hnet, hn'⟩ := List.mem_filterMap.1 hn
      cases net with
      | v4 net => cases hn'
      | v6 net =>
        obtain rfl := Option.some.inj hn'
        refine ⟨_, hn, ?_⟩
        rw [nums_trunc] at ha ⊢
        obtain ⟨hfirst, hlast⟩ := IpNet.mem_nums.1 ha
        have hne := hgap net hnet
        exact IpNet.mem_nums.2 ⟨by omega, by omega⟩

end

/-- What is wanted of the routes for `inputs`. -/
structure Routed (inputs : RouteInputs) (set : RouteSet) : Prop where
  contains : ∀ ip, set.contains ip = true ↔ inputs.Wants ip
  ascending : set.v4.Pairwise Before ∧ set.v6.Pairwise Before
  sound : (∀ n ∈ set.v4, n.Sound) ∧ ∀ n ∈ set.v6, n.Sound
  outside : inputs.explicit_space = false →
    (∀ n ∈ set.v4, SPACE_V4.covers n = false) ∧ ∀ n ∈ set.v6, SPACE_V6.covers n = false
  space : inputs.explicit_space = true →
    (∃ n ∈ set.v4, n.covers SPACE_V4 = true) ∧
      (inputs.ipv6 = true → ∃ n ∈ set.v6, n.covers SPACE_V6 = true)
  broadcast : (∃ n ∈ set.v4, n.contains BROADCAST_V4 = true) → inputs.Includes (.v4 BROADCAST_V4)

section

variable {set : RouteSet}

theorem contains_v4 {U : Set ℕ} (h : Canonical set.v4 U) (ip : Ipv4Addr) :
    set.contains (.v4 ip) = true ↔ ip.toNat ∈ SPACE_V4.nums ∨ ip.toNat ∈ U := by
  rw [RouteSet.contains, Bool.or_eq_true, contains_iff, ← mem_covered_toNat, h.covers]

theorem contains_v6 {U : Set ℕ} (h : Canonical set.v6 U) (ip : Ipv6Addr) :
    set.contains (.v6 ip) = true ↔ ip.toNat ∈ SPACE_V6.nums ∨ ip.toNat ∈ U := by
  rw [RouteSet.contains, Bool.or_eq_true, contains_iff, ← mem_covered_toNat, h.covers]

/-- What goes into the adapter of IPv4, said of numbers. -/
theorem wants_v4 {ip : Ipv4Addr} :
    inputs.Wants (.v4 ip) ↔ ip.toNat ∈ SPACE_V4.nums ∨
      ip.toNat ∈ covered nums (pieces_v4 inputs) ∧
        (inputs.class_e = true ∨ ip.toNat ∉ CLASS_E.nums) := by
  have hspace : IpAddr.in_space (.v4 ip) = true ↔ ip.toNat ∈ SPACE_V4.nums := contains_iff
  have hclass : IpAddr.in_class_e (.v4 ip) = false ↔ ip.toNat ∉ CLASS_E.nums := by
    rw [← contains_iff, Bool.not_eq_true]
    rfl
  have hbase : IpAddr.in_base (.v4 ip) = true ↔ ip.toNat ∈ covered nums BASE_V4 :=
    mem_covered_toNat.symm
  rw [RouteInputs.Wants, hspace]
  by_cases hin : ip.toNat ∈ SPACE_V4.nums
  · simp only [hin, true_or]
  · rw [pieces_v4_iff hin, taken_v4_iff, included_v4, hclass, hbase,
      or_comm (a := inputs.Includes _)]
    simp only [RouteInputs.family_on, true_and]
    rfl

theorem wants_v6 {ip : Ipv6Addr} :
    inputs.Wants (.v6 ip) ↔ ip.toNat ∈ SPACE_V6.nums ∨
      ip.toNat ∈ covered nums (pieces_v6 inputs) := by
  have hspace : IpAddr.in_space (.v6 ip) = true ↔ ip.toNat ∈ SPACE_V6.nums := contains_iff
  have hbase : IpAddr.in_base (.v6 ip) = true ↔ ip.toNat ∈ covered nums BASE_V6 :=
    mem_covered_toNat.symm
  rw [RouteInputs.Wants, hspace]
  by_cases hin : ip.toNat ∈ SPACE_V6.nums
  · simp only [hin, true_or]
  · cases hon : inputs.ipv6 with
    | false =>
      simp [RouteInputs.family_on, hon, pieces_v6_off hon, hin]
    | true =>
      rw [pieces_v6_iff hon hin, taken_v6_iff, included_v6, hbase,
        or_comm (a := inputs.Includes _)]
      simp only [RouteInputs.family_on, hon, true_and, IpAddr.in_class_e, or_true, and_true]
      rfl

end

/-- A piece in rurge's space comes with what is around it, where the space is no piece. -/
theorem pieces_v4_outer (h : inputs.explicit_space = false) {a : ℕ}
    (ha : a ∈ covered nums (pieces_v4 inputs)) (hspace : a ∈ SPACE_V4.nums) :
    OUTER_V4.nums ⊆ covered nums (pieces_v4 inputs) := by
  obtain ⟨n, hn, han⟩ := ha
  have hout : ¬n.nums ⊆ SPACE_V4.nums := by
    have hn' := hn
    simp only [pieces_v4, h, Bool.false_eq_true, if_false, List.mem_filter] at hn'
    intro hinside
    rw [covers_iff.2 hinside] at hn'
    exact absurd hn'.2 Bool.false_ne_true
  intro x hx
  exact ⟨n, hn, outer_subset outer_v4 (.inr rfl) ⟨a, han, hspace⟩ hout hx⟩

theorem pieces_v6_outer (h : inputs.explicit_space = false) {a : ℕ}
    (ha : a ∈ covered nums (pieces_v6 inputs)) (hspace : a ∈ SPACE_V6.nums) :
    OUTER_V6.nums ⊆ covered nums (pieces_v6 inputs) := by
  obtain ⟨n, hn, han⟩ := ha
  have hout : ¬n.nums ⊆ SPACE_V6.nums := by
    have hn' := hn
    cases hon : inputs.ipv6 with
    | false =>
      rw [pieces_v6_off hon] at hn
      cases hn
    | true =>
      simp only [pieces_v6, hon, h, Bool.false_eq_true, if_true, if_false,
        List.mem_filter] at hn'
      intro hinside
      rw [covers_iff.2 hinside] at hn'
      exact absurd hn'.2 Bool.false_ne_true
  intro x hx
  exact ⟨n, hn, outer_subset outer_v6 (.inl rfl) ⟨a, han, hspace⟩ hout hx⟩

/-- **The routes into the adapter are the set that the profile says.** -/
theorem compute_spec (aggregate_v4 : List Ipv4Net → List Ipv4Net)
    (aggregate_v6 : List Ipv6Net → List Ipv6Net) (inputs : RouteInputs)
    (h4 : Aggregated (pieces_v4 inputs) (aggregate_v4 (pieces_v4 inputs)))
    (h6 : Aggregated (pieces_v6 inputs) (aggregate_v6 (pieces_v6 inputs)))
    (hgap : ∀ net, .v6 net ∈ inputs.included → net.broadcast ≠ 2 ^ 128 - 2) :
    Routed inputs (RouteSet.compute aggregate_v4 aggregate_v6 inputs) := by
  have hv4 : Canonical (RouteSet.compute aggregate_v4 aggregate_v6 inputs).v4 _ := compute_v4 h4
  have hv6 : Canonical (RouteSet.compute aggregate_v4 aggregate_v6 inputs).v6 _ :=
    compute_v6 h6 hgap
  refine ⟨fun ip => ?_, ⟨hv4.ascending, hv6.ascending⟩, ⟨hv4.sound, hv6.sound⟩, fun hexplicit => ?_,
    fun hexplicit => ?_, fun hbroadcast => ?_⟩
  · cases ip with
    | v4 ip => exact (contains_v4 hv4 ip).trans wants_v4.symm
    | v6 ip => exact (contains_v6 hv6 ip).trans wants_v6.symm
  · refine ⟨hv4.outside outer_v4 (.inr rfl) fun a ha hspace x hx => ?_,
      hv6.outside outer_v6 (.inl rfl) fun a ha hspace => pieces_v6_outer hexplicit ha hspace⟩
    exact ⟨pieces_v4_outer hexplicit ha.1 hspace hx, .inr (outer_class_e hx)⟩
  · refine ⟨hv4.covers_one fun a ha => ⟨?_, .inr (outer_class_e (space_outer_v4 ha))⟩, fun hon =>
      hv6.covers_one fun a ha => ?_⟩
    · exact ⟨SPACE_V4, by simp [pieces_v4, hexplicit], ha⟩
    · exact ⟨SPACE_V6, by simp [pieces_v6, hexplicit, hon], ha⟩
  · have hnum : BROADCAST_V4.toNat = 2 ^ 32 - 1 := by decide
    have hmem : BROADCAST_V4.toNat ∈ covered nums
        (RouteSet.compute aggregate_v4 aggregate_v6 inputs).v4 := by
      obtain ⟨n, hn, hcontains⟩ := hbroadcast
      exact ⟨n, hn, contains_iff.1 hcontains⟩
    rw [hv4.covers] at hmem
    have hspace : BROADCAST_V4.toNat ∉ SPACE_V4.nums := hnum ▸ last_space_v4
    rcases (pieces_v4_iff hspace).1 hmem.1 with ⟨-, hout⟩ | hincluded
    · refine absurd ?_ hout
      rw [taken_v4_iff]
      exact .inl (by decide)
    · exact included_v4.1 hincluded

section

variable {w : ℕ}

theorem aggregated_nil : Aggregated ([] : List (IpNet w)) [] :=
  ⟨.nil, nofun, fun _ => ⟨nofun, fun h => h.elim nofun fun h => nomatch h.2⟩, fun _ _ _ =>
    Nat.zero_le _⟩

/-- One prefix that ends before the last addresses is aggregated as it is. -/
theorem aggregated_single {n : IpNet w} (hsound : n.Sound) (hlast : n.broadcast < 2 ^ w - 2) :
    Aggregated [n] [n] := by
  refine ⟨List.pairwise_singleton _ _, fun m hm => List.mem_singleton.1 hm ▸ hsound, fun a => ?_,
    fun L _ hcovered => ?_⟩
  · refine ⟨.inl, fun h => h.elim id ?_⟩
    rintro ⟨-, m, hm, hend⟩
    rw [List.mem_singleton.1 hm] at hend
    have := (mem_nums.1 hend).2
    omega
  · obtain ⟨m, hm, -⟩ : n.network ∈ covered nums L := hcovered ▸ ⟨n, by simp, n.network_mem⟩
    exact List.length_pos_of_mem hm

end

theorem ten_le : 8 ≤ 32 := by decide

/-- Everything excluded but one network: it alone is routed. -/
def only_ten : RouteInputs where
  ipv6 := false
  excluded := [.v4 ⟨ipv4 0 0 0 0, 0, by decide⟩]
  included := [.v4 ⟨ipv4 10 0 0 0, 8, ten_le⟩]
  external := []
  explicit_space := false
  class_e := true

theorem compute_only_ten : Routed only_ten (RouteSet.compute id id only_ten) := by
  have hpieces : pieces_v4 only_ten = [⟨ipv4 10 0 0 0, 8, by decide⟩] := by decide +kernel
  refine compute_spec id id only_ten ?_ aggregated_nil ?_
  · rw [hpieces]
    exact aggregated_single (by unfold IpNet.Sound; decide) (by decide)
  · intro net hnet
    simp [only_ten] at hnet

end Rurge
