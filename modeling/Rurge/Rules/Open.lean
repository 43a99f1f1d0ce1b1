import Rurge.Rules.Meaning

/-!
# What a verdict may ask for

A rule never asks for what the evaluation knows: `Matcher.verdict_open` says so for every nesting
of logical rules and sets, from the leaves up.
-/

namespace Rurge

/-- The verdict asks for nothing that is known. -/
def Verdict.Open (s : SessionInfo) (k : Knowledge) : Verdict → Prop
  | .matched | .noMatch => True
  | .needsConnection => k.beforeConnection = true
  | .needsProcess => s.process = none ∧ k.process = .notAsked
  | .needsResolve => k.beforeConnection = false ∧ s.dstHost.asIp = none ∧ k.resolved = none

section

variable {s : SessionInfo} {k : Knowledge}

theorem Verdict.Decided.open {v : Verdict} (h : v.Decided) : v.Open s k := by
  rcases h with rfl | rfl <;> trivial

theorem Verdict.open_all {vs : List Verdict} (h : ∀ v ∈ vs, v.Open s k) :
    (Verdict.all vs).Open s k :=
  (Verdict.all_decided_or_mem vs).elim Verdict.Decided.open (h _)

theorem Verdict.open_any {vs : List Verdict} (h : ∀ v ∈ vs, v.Open s k) :
    (Verdict.any vs).Open s k :=
  (Verdict.any_decided_or_mem vs).elim Verdict.Decided.open (h _)

theorem Verdict.Open.not {v : Verdict} (h : v.Open s k) : v.not.Open s k := by
  cases v <;> trivial

/-- Knowing one set deeper is knowing the same. -/
theorem Verdict.open_deeper {v : Verdict} : v.Open s k.deeper ↔ v.Open s k := by
  cases v <;> rfl

theorem targetIp_open {noResolve : Bool} {family : Family} {v : Verdict}
    (h : targetIp s k noResolve family = .error v) : v.Open s k := by
  unfold targetIp at h
  cases hip : s.dstHost.asIp with
  | some ip =>
    simp only [hip] at h
    split_ifs at h
    cases h
    trivial
  | none =>
    simp only [hip] at h
    cases hb : k.beforeConnection with
    | true =>
      simp only [hb, if_true, Except.error.injEq] at h
      exact h ▸ hb
    | false =>
      simp only [hb, Bool.false_eq_true, if_false] at h
      cases hr : k.resolved with
      | some r =>
        simp only [hr] at h
        cases hpick : family.pick r with
        | some ip => simp [hpick] at h
        | none =>
          simp only [hpick, Except.error.injEq] at h
          exact h ▸ trivial
      | none =>
        simp only [hr, Except.error.injEq] at h
        cases noResolve with
        | true => exact h ▸ trivial
        | false => exact h ▸ ⟨hb, hip, hr⟩

theorem onTarget_open (noResolve : Bool) (family : Family) (test : IpAddr → Bool) :
    (onTarget s k noResolve family test).Open s k := by
  unfold onTarget
  cases h : targetIp s k noResolve family with
  | ok ip => exact (Verdict.ofBool_decided _).open
  | error v => exact targetIp_open h

theorem processVerdict_open (windows : Bool) (pp : ProcessPattern) :
    (processVerdict windows pp s k.process).Open s k := by
  unfold processVerdict
  cases hs : s.process with
  | some given => exact (Verdict.ofBool_decided _).open
  | none =>
    cases hk : k.process with
    | notAsked => exact ⟨hs, hk⟩
    | asked found => exact (Verdict.ofBool_decided _).open

theorem leaf_open {windows : Bool} {meaning : SetMeaning} {noResolve extended : Bool}
    {m : Matcher} (hm : m.isLeaf = true) :
    (m.verdictWith windows meaning s k noResolve extended).Open s k := by
  unfold Matcher.verdictWith
  by_cases hc : (k.beforeConnection && m.needsTheConnection) = true
  · rw [if_pos hc]
    exact (Bool.and_eq_true_iff.1 hc).1
  · rw [if_neg hc]
    cases m with
    | and subs => cases hm
    | or subs => cases hm
    | not sub => cases hm
    | set r => cases hm
    | ipCidr net => exact onTarget_open ..
    | ipCidr6 net => exact onTarget_open ..
    | geoIp code => exact onTarget_open ..
    | geoIpUnknown => exact onTarget_open ..
    | ipAsn asn => exact onTarget_open ..
    | ipAsnUnknown => exact onTarget_open ..
    | processName pp => exact processVerdict_open ..
    | unsupported kind => trivial
    | never => trivial
    | final => trivial
    | _ => exact (Verdict.ofBool_decided _).open

theorem Matcher.verdictWith_open {windows : Bool} {meaning : SetMeaning}
    (hset : ∀ r k noResolve extended, (meaning r s k noResolve extended).Open s k) (m : Matcher) :
    ∀ noResolve extended, (m.verdictWith windows meaning s k noResolve extended).Open s k := by
  induction m using Matcher.rules with
  | leaf m hm => exact fun _ _ => leaf_open hm
  | set r =>
    intro noResolve extended
    rw [Matcher.verdictWith_set]
    split_ifs
    · trivial
    · exact Verdict.open_deeper.1 (hset r k.deeper noResolve extended)
  | and subs ih =>
    intro noResolve extended
    rw [Matcher.verdictWith_and]
    refine Verdict.open_all fun v hv => ?_
    obtain ⟨sub, hsub, rfl⟩ := List.mem_map.1 hv
    exact sub.verdictWith_eq ▸ ih sub hsub _ _
  | or subs ih =>
    intro noResolve extended
    rw [Matcher.verdictWith_or]
    refine Verdict.open_any fun v hv => ?_
    obtain ⟨sub, hsub, rfl⟩ := List.mem_map.1 hv
    exact sub.verdictWith_eq ▸ ih sub hsub _ _
  | not sub ih =>
    intro noResolve extended
    rw [Matcher.verdictWith_not, sub.verdictWith_eq]
    exact (ih _ _).not

/-- What waits in a set is what one of its parts waits for. -/
theorem CompiledSet.ofParts_open {set : CompiledSet} {parts : List CompiledSet.Part}
    (h : ∀ v, Sum.inr v ∈ parts → v.Open s k) : (set.ofParts parts).verdict.Open s k := by
  unfold CompiledSet.ofParts
  cases parts.findSome? Sum.getLeft? with
  | some i => trivial
  | none =>
    dsimp only
    cases hs : stillNeeds (Needs.of (parts.filterMap Sum.getRight?)) with
    | none => trivial
    | some v =>
      have hmem := Verdict.stillNeeds_of_eq_some hs
      obtain ⟨p, hp, hpv⟩ := List.mem_filterMap.1 hmem
      cases p with
      | inl i => cases hpv
      | inr w => exact h v (Option.some.inj hpv ▸ hp)

theorem CompiledSet.asnPart_open {set : CompiledSet} {noResolve : Bool} {v : Verdict}
    (h : set.asnPart s k noResolve = .inr v) : v.Open s k := by
  unfold CompiledSet.asnPart at h
  split_ifs at h
  · cases h; trivial
  · cases ht : targetIp s k (noResolve || !set.asnsResolve) .any with
    | error w =>
      simp only [ht, Sum.inr.injEq] at h
      exact h ▸ targetIp_open ht
    | ok ip =>
      simp only [ht] at h
      split at h
      · split at h
        · cases h
        · cases h; trivial
      · cases h; trivial

theorem CompiledSet.ipPart_open {set : CompiledSet} {noResolve : Bool} {family : Family}
    {v : Verdict} (h : set.ipPart s k noResolve family = .inr v) : v.Open s k := by
  unfold CompiledSet.ipPart at h
  split_ifs at h
  · cases h; trivial
  · cases ht : targetIp s k (noResolve || !set.ipsResolve) family with
    | error w =>
      simp only [ht, Sum.inr.injEq] at h
      exact h ▸ targetIp_open ht
    | ok ip =>
      simp only [ht] at h
      split at h
      · cases h
      · cases h; trivial

theorem CompiledSet.verdictWith_open {windows : Bool} {meaning : SetMeaning}
    (hset : ∀ r k noResolve extended, (meaning r s k noResolve extended).Open s k)
    (set : CompiledSet) (noResolve extended : Bool) :
    (set.verdictWith windows meaning s k noResolve extended).verdict.Open s k := by
  unfold CompiledSet.verdictWith
  cases set.domainHit s extended with
  | some h => trivial
  | none =>
    refine CompiledSet.ofParts_open fun v hv => ?_
    simp only [CompiledSet.parts, List.mem_append, List.mem_cons, List.not_mem_nil, or_false] at hv
    rcases hv with hv | hv | hv | hv
    · obtain ⟨e, -, he⟩ := List.mem_map.1 hv
      split at he
      · cases he
      · cases he
        exact Matcher.verdictWith_open hset _ _ _
    · exact CompiledSet.asnPart_open hv.symm
    · exact CompiledSet.ipPart_open hv.symm
    · exact CompiledSet.ipPart_open hv.symm

theorem Env.meaning_open (env : Env) (n : ℕ) :
    ∀ r k noResolve extended, (env.meaning n r s k noResolve extended).Open s k := by
  induction n with
  | zero => exact fun _ _ _ _ => trivial
  | succ n ih => exact fun r k _ _ => CompiledSet.verdictWith_open ih (env.sets r) _ _

end

/-- **A matcher asks for nothing that is known.** -/
theorem Matcher.verdict_open (env : Env) (s : SessionInfo) (k : Knowledge)
    (noResolve extended : Bool) (m : Matcher) :
    (m.verdict env s k noResolve extended).Open s k :=
  m.verdictWith_open (env.meaning_open _) _ _

end Rurge
