import Rurge.Net.Addr

/-!
# The address index

Two prefix tries (`PrefixMap`) from networks to the entry that named them first.
-/

namespace Rurge

structure IpIndex where
  v4 : PrefixMap 32 ℕ
  v6 : PrefixMap 128 ℕ
  len : ℕ

namespace IpIndex

variable {w : ℕ}

def empty : IpIndex := ⟨[], [], 0⟩

/-- One family's trie after a network is added, and by how many keys it grew: a network that is
there keeps the smaller entry. -/
def place (m : PrefixMap w ℕ) (net : IpNet w) (entry : ℕ) : PrefixMap w ℕ × ℕ :=
  match m.get net.trunc with
  | some existing => if existing ≤ entry then (m, 0) else (m.insert net.trunc entry, 0)
  | none => (m.insert net.trunc entry, 1)

def addV4 (idx : IpIndex) (net : Ipv4Net) (entry : ℕ) : IpIndex :=
  { idx with v4 := (place idx.v4 net entry).1, len := idx.len + (place idx.v4 net entry).2 }

def addV6 (idx : IpIndex) (net : Ipv6Net) (entry : ℕ) : IpIndex :=
  { idx with v6 := (place idx.v6 net entry).1, len := idx.len + (place idx.v6 net entry).2 }

def isEmpty (idx : IpIndex) : Bool := idx.len == 0

/-- Entry of the longest prefix containing `ip`. -/
def lookup (idx : IpIndex) : IpAddr → Option ℕ
  | .v4 ip => (idx.v4.getLpm ip).map (·.2)
  | .v6 ip => (idx.v6.getLpm ip).map (·.2)

/-! ### What the tries hold -/

/-- One family's trie holds the networks of `added`, each with the entry of one of its lines. -/
structure FamilyHolds (added : List (IpNet w × ℕ)) (m : PrefixMap w ℕ) : Prop where
  sound : ∀ n e, (n, e) ∈ m → ∃ net, (net, e) ∈ added ∧ net.trunc = n
  complete : ∀ net e, (net, e) ∈ added → ∃ e', (net.trunc, e') ∈ m

theorem FamilyHolds.place {added : List (IpNet w × ℕ)} {m : PrefixMap w ℕ}
    (h : FamilyHolds added m) (net : IpNet w) (entry : ℕ) :
    FamilyHolds (added ++ [(net, entry)]) (place m net entry).1 := by
  have hkept : ∀ e, m.get net.trunc = some e → FamilyHolds (added ++ [(net, entry)]) m := by
    intro e he
    refine ⟨fun n e' hm => ?_, fun n e' hn => ?_⟩
    · obtain ⟨net', hnet', hn⟩ := h.sound n e' hm
      exact ⟨net', List.mem_append_left _ hnet', hn⟩
    · rcases List.mem_append.1 hn with hn | hn
      · exact h.complete n e' hn
      · obtain ⟨rfl, rfl⟩ := Prod.mk.inj (List.mem_singleton.1 hn)
        exact ⟨e, PrefixMap.laws.get_some he⟩
  have hinsert : FamilyHolds (added ++ [(net, entry)]) (m.insert net.trunc entry) := by
    refine ⟨fun n e' hm => ?_, fun n e' hn => ?_⟩
    · rcases PrefixMap.laws.mem_insert.1 hm with heq | ⟨hm, -⟩
      · obtain ⟨rfl, rfl⟩ := Prod.mk.inj heq
        exact ⟨net, by simp, rfl⟩
      · obtain ⟨net', hnet', hn⟩ := h.sound n e' hm
        exact ⟨net', List.mem_append_left _ hnet', hn⟩
    · by_cases hkey : n.trunc = net.trunc
      · exact ⟨entry, PrefixMap.laws.mem_insert.2 (Or.inl (by rw [hkey]))⟩
      · rcases List.mem_append.1 hn with hn | hn
        · obtain ⟨e'', he''⟩ := h.complete n e' hn
          exact ⟨e'', PrefixMap.laws.mem_insert.2 (Or.inr ⟨he'', hkey⟩)⟩
        · obtain ⟨rfl, rfl⟩ := Prod.mk.inj (List.mem_singleton.1 hn)
          exact absurd rfl hkey
  unfold IpIndex.place
  cases hg : m.get net.trunc with
  | none => exact hinsert
  | some existing =>
    dsimp only
    split_ifs
    · exact hkept existing hg
    · exact hinsert

/-- What a lookup in one family finds is an added network that contains the address. -/
theorem FamilyHolds.lookup {added : List (IpNet w × ℕ)} {m : PrefixMap w ℕ}
    (h : FamilyHolds added m) (ip : BitVec w) :
    (∀ e, (m.getLpm ip).map (·.2) = some e → ∃ net, (net, e) ∈ added ∧ net.contains ip = true) ∧
      ((m.getLpm ip).map (·.2) = none → ∀ net e, (net, e) ∈ added → net.contains ip = false) := by
  refine ⟨fun e he => ?_, fun hn net e hadd => ?_⟩
  · obtain ⟨⟨n, e'⟩, hl, rfl⟩ := Option.map_eq_some_iff.1 he
    obtain ⟨hm, hc⟩ := PrefixMap.laws.getLpm_mem hl
    obtain ⟨net, hadd, rfl⟩ := h.sound n e' hm
    exact ⟨net, hadd, by simpa using hc⟩
  · obtain ⟨e', hm⟩ := h.complete net e hadd
    simpa using PrefixMap.laws.getLpm_none (Option.map_eq_none_iff.1 hn) _ hm

/-- The index after the networks of `nets4` and `nets6` were added. -/
structure Holds (nets4 : List (Ipv4Net × ℕ)) (nets6 : List (Ipv6Net × ℕ)) (idx : IpIndex) :
    Prop where
  inV4 : FamilyHolds nets4 idx.v4
  inV6 : FamilyHolds nets6 idx.v6
  len : idx.len = 0 ↔ nets4 = [] ∧ nets6 = []

theorem holds_empty : Holds [] [] empty :=
  ⟨⟨by simp [empty], by simp⟩, ⟨by simp [empty], by simp⟩, by simp [empty]⟩

/-- A trie that does not grow had the network, so something was added before. -/
theorem FamilyHolds.place_len {added : List (IpNet w × ℕ)} {m : PrefixMap w ℕ}
    (h : FamilyHolds added m) (net : IpNet w) (entry : ℕ) :
    (IpIndex.place m net entry).2 = 0 → added ≠ [] := by
  unfold IpIndex.place
  cases hg : m.get net.trunc with
  | none => simp
  | some existing =>
    rintro - rfl
    obtain ⟨net', hnet', -⟩ := h.sound _ _ (PrefixMap.laws.get_some hg)
    cases hnet'

section

variable {nets4 : List (Ipv4Net × ℕ)} {nets6 : List (Ipv6Net × ℕ)} {idx : IpIndex}

theorem Holds.addV4 (h : Holds nets4 nets6 idx) (net : Ipv4Net) (entry : ℕ) :
    Holds (nets4 ++ [(net, entry)]) nets6 (idx.addV4 net entry) := by
  refine ⟨h.inV4.place net entry, h.inV6, ?_⟩
  have hplace := h.inV4.place_len net entry
  simp only [IpIndex.addV4, Nat.add_eq_zero_iff, List.append_eq_nil_iff, List.cons_ne_self,
    and_false, false_and, iff_false, not_and]
  intro h0 hp
  exact hplace hp (h.len.1 h0).1

theorem Holds.addV6 (h : Holds nets4 nets6 idx) (net : Ipv6Net) (entry : ℕ) :
    Holds nets4 (nets6 ++ [(net, entry)]) (idx.addV6 net entry) := by
  refine ⟨h.inV4, h.inV6.place net entry, ?_⟩
  have hplace := h.inV6.place_len net entry
  simp only [IpIndex.addV6, Nat.add_eq_zero_iff, List.append_eq_nil_iff, List.cons_ne_self,
    and_false, iff_false, not_and]
  intro h0 hp
  exact hplace hp (h.len.1 h0).2

end

end IpIndex

end Rurge
