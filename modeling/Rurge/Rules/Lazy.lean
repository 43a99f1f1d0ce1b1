import Rurge.Rules.Careful

/-!
# Evaluating with what is known so far

A rule is evaluated before the name is resolved and the process asked for, and again when it asks
for either.  `Matcher.Has` are the parts of a tree that look at something, each with the
`no-resolve` it is evaluated with: the rules of the tree, and of a set its lines, its table of AS
numbers and its networks.  `Matcher.Reaches` are those an evaluation comes to.

A tree none of whose address parts carries `no-resolve` decides nothing that more knowledge takes
back (`Matcher.verdict_adds`), and what it waits for, a part that the evaluation came to looks at
(`Matcher.reaches_of_waits`).
-/

namespace Rurge

/-! ### The parts of a tree -/

/-- A rule that tests the address of the destination. -/
def Matcher.looksAtAddress : Matcher → Bool
  | .ipCidr _ | .ipCidr6 _ | .geoIp _ | .geoIpUnknown | .ipAsn _ | .ipAsnUnknown => true
  | _ => false

/-- A part that looks at something, with the `no-resolve` it is evaluated with: a rule, the table of
AS numbers of a set, or its networks of one family. -/
inductive Leaf
  | rule (m : Matcher) (noResolve : Bool)
  | asns (set : CompiledSet) (noResolve : Bool)
  | ips (set : CompiledSet) (family : Family) (noResolve : Bool)

namespace Leaf

def looksAtAddress : Leaf → Bool
  | rule m _ => m.looksAtAddress
  | asns _ _ => true
  | ips _ _ _ => true

def noResolve : Leaf → Bool
  | rule _ noResolve => noResolve
  | asns _ noResolve => noResolve
  | ips _ _ noResolve => noResolve

/-- It asks for the addresses of a name, should it look at them. -/
def Asks (l : Leaf) : Prop := l.looksAtAddress = true → l.noResolve = false

/-- What it can be that is waited for. -/
def WaitsFor (l : Leaf) : Verdict → Prop
  | .needsProcess => ∃ pp noResolve, l = rule (.processName pp) noResolve
  | .needsResolve => l.looksAtAddress = true ∧ l.noResolve = false
  | .matched | .noMatch | .needsConnection => True

/-- It looks at the process that opened the session, which nobody asked for. -/
def ReadsProcess (s : SessionInfo) (k : Knowledge) (l : Leaf) : Prop :=
  (∃ pp noResolve, l = rule (.processName pp) noResolve) ∧ s.process = none ∧
    k.process = .notAsked

/-- It looks at the addresses of the destination, a name that was not resolved. -/
def ReadsAddresses (s : SessionInfo) (k : Knowledge) (l : Leaf) : Prop :=
  l.looksAtAddress = true ∧ l.noResolve = false ∧ s.dstHost.asIp = none ∧
    k.beforeConnection = false ∧ k.resolved = none

end Leaf

/-- The parts of a tree, where at most `n` sets may nest. -/
inductive Matcher.Has (env : Env) : ℕ → Matcher → Bool → Leaf → Prop
  | leaf {n : ℕ} {m : Matcher} {noResolve : Bool} (hm : m.isLeaf = true) :
      Has env n m noResolve (.rule m noResolve)
  | and {n : ℕ} {subs : List CompiledSubRule} {noResolve : Bool} {sub : CompiledSubRule} {l : Leaf}
      (hsub : sub ∈ subs) (h : Has env n sub.matcher sub.noResolve l) :
      Has env n (.and subs) noResolve l
  | or {n : ℕ} {subs : List CompiledSubRule} {noResolve : Bool} {sub : CompiledSubRule} {l : Leaf}
      (hsub : sub ∈ subs) (h : Has env n sub.matcher sub.noResolve l) :
      Has env n (.or subs) noResolve l
  | not {n : ℕ} {noResolve : Bool} {sub : CompiledSubRule} {l : Leaf}
      (h : Has env n sub.matcher sub.noResolve l) : Has env n (.not sub) noResolve l
  | line {n : ℕ} {r : SetRef} {noResolve : Bool} {e : ℕ × CompiledSubRule} {l : Leaf}
      (he : e ∈ (env.sets r).linear) (h : Has env n e.2.matcher (noResolve || e.2.noResolve) l) :
      Has env (n + 1) (.set r) noResolve l
  | asns {n : ℕ} {r : SetRef} {noResolve : Bool} (hne : (env.sets r).asns.isEmpty = false) :
      Has env (n + 1) (.set r) noResolve
        (.asns (env.sets r) (noResolve || !(env.sets r).asnsResolve))
  | ips {n : ℕ} {r : SetRef} {noResolve : Bool} (hne : (env.sets r).ips.isEmpty = false)
      (family : Family) (hfamily : family = .v4 ∨ family = .v6) :
      Has env (n + 1) (.set r) noResolve
        (.ips (env.sets r) family (noResolve || !(env.sets r).ipsResolve))

/-- The parts the evaluation of a tree comes to: the loop of an `AND` stops at the first miss, that
of an `OR` at the first match, and a set asks its parts in order up to the one that matches. -/
inductive Matcher.Reaches (env : Env) (s : SessionInfo) :
    Knowledge → Matcher → Bool → Bool → Leaf → Prop
  | leaf {k : Knowledge} {m : Matcher} {noResolve extended : Bool} (hm : m.isLeaf = true) :
      Reaches env s k m noResolve extended (.rule m noResolve)
  | and {k : Knowledge} {subs before after : List CompiledSubRule} {noResolve extended : Bool}
      {sub : CompiledSubRule} {l : Leaf} (hsubs : subs = before ++ sub :: after)
      (hbefore : ∀ b ∈ before, b.verdict env s k ≠ .noMatch)
      (h : Reaches env s k sub.matcher sub.noResolve sub.extended l) :
      Reaches env s k (.and subs) noResolve extended l
  | or {k : Knowledge} {subs before after : List CompiledSubRule} {noResolve extended : Bool}
      {sub : CompiledSubRule} {l : Leaf} (hsubs : subs = before ++ sub :: after)
      (hbefore : ∀ b ∈ before, b.verdict env s k ≠ .matched)
      (h : Reaches env s k sub.matcher sub.noResolve sub.extended l) :
      Reaches env s k (.or subs) noResolve extended l
  | not {k : Knowledge} {noResolve extended : Bool} {sub : CompiledSubRule} {l : Leaf}
      (h : Reaches env s k sub.matcher sub.noResolve sub.extended l) :
      Reaches env s k (.not sub) noResolve extended l
  | line {k : Knowledge} {r : SetRef} {noResolve extended : Bool} {e : ℕ × CompiledSubRule}
      {before after : List (ℕ × CompiledSubRule)} {l : Leaf} (hdepth : k.setDepth < MAX_NESTING)
      (hdomain : (env.sets r).domainHit s extended = none)
      (hlines : (env.sets r).linear = before ++ e :: after)
      (hbefore : ∀ b ∈ before, b.2.matcher.verdict env s k.deeper (noResolve || b.2.noResolve)
        (extended || b.2.extended) ≠ .matched)
      (h : Reaches env s k.deeper e.2.matcher (noResolve || e.2.noResolve)
        (extended || e.2.extended) l) :
      Reaches env s k (.set r) noResolve extended l
  | asns {k : Knowledge} {r : SetRef} {noResolve extended : Bool}
      (hdepth : k.setDepth < MAX_NESTING) (hdomain : (env.sets r).domainHit s extended = none)
      (hlines : ∀ b ∈ (env.sets r).linear, b.2.matcher.verdict env s k.deeper
        (noResolve || b.2.noResolve) (extended || b.2.extended) ≠ .matched)
      (hne : (env.sets r).asns.isEmpty = false) :
      Reaches env s k (.set r) noResolve extended
        (.asns (env.sets r) (noResolve || !(env.sets r).asnsResolve))
  | ips {k : Knowledge} {r : SetRef} {noResolve extended : Bool}
      (hdepth : k.setDepth < MAX_NESTING) (hdomain : (env.sets r).domainHit s extended = none)
      (hlines : ∀ b ∈ (env.sets r).linear, b.2.matcher.verdict env s k.deeper
        (noResolve || b.2.noResolve) (extended || b.2.extended) ≠ .matched)
      (hasns : ∀ i, (env.sets r).asnPart s k.deeper noResolve ≠ .inl i)
      (hne : (env.sets r).ips.isEmpty = false) (family : Family)
      (hfamily : family = .v4 ∨
        family = .v6 ∧ ∀ i, (env.sets r).ipPart s k.deeper noResolve .v4 ≠ .inl i) :
      Reaches env s k (.set r) noResolve extended
        (.ips (env.sets r) family (noResolve || !(env.sets r).ipsResolve))

/-! ### More knowledge -/

/-- `k'` is `k` with what was not known added, or some of it. -/
structure Knowledge.Adds (k k' : Knowledge) : Prop where
  resolved : ∀ addrs, k.resolved = some addrs → k'.resolved = some addrs
  process : ∀ found, k.process = .asked found → k'.process = .asked found
  beforeConnection : k'.beforeConnection = k.beforeConnection
  geo : k'.geo = k.geo
  network : k'.network = k.network
  setDepth : k'.setDepth = k.setDepth

section

variable {windows : Bool} {env : Env} {s : SessionInfo} {k k' : Knowledge}
  {noResolve extended : Bool}

theorem Knowledge.Adds.deeper (h : k.Adds k') : k.deeper.Adds k'.deeper :=
  ⟨h.resolved, h.process, h.beforeConnection, h.geo, h.network, congrArg (· + 1) h.setDepth⟩

/-- An address rule that asks waits for the address, or has it either way. -/
theorem targetIp_adds (h : k.Adds k') (family : Family) :
    (∃ v, targetIp s k false family = .error v ∧ ¬ v.Decided) ∨
      targetIp s k' false family = targetIp s k false family := by
  unfold targetIp
  rw [h.beforeConnection]
  cases s.dstHost.asIp with
  | some ip => exact .inr rfl
  | none =>
    cases k.beforeConnection with
    | true => exact .inl ⟨_, rfl, by decide⟩
    | false =>
      cases hresolved : k.resolved with
      | none => exact .inl ⟨_, rfl, by decide⟩
      | some addrs => exact .inr (by rw [h.resolved addrs hresolved])

theorem onTarget_adds (h : k.Adds k') (family : Family) (test : IpAddr → Bool) :
    (onTarget s k false family test).Below (onTarget s k' false family test) := by
  unfold onTarget
  rcases targetIp_adds (s := s) h family with ⟨v, hv, hnot⟩ | hsame
  · rw [hv]
    exact Verdict.below_of_not_decided hnot _
  · rw [hsame]
    exact Verdict.Below.refl _

theorem processVerdict_adds (h : k.Adds k') (pp : ProcessPattern) :
    (processVerdict windows pp s k.process).Below (processVerdict windows pp s k'.process) := by
  unfold processVerdict
  cases s.process with
  | some given => exact Verdict.Below.refl _
  | none =>
    cases hprocess : k.process with
    | notAsked => exact Verdict.below_of_not_decided (by simp [Verdict.Decided]) _
    | asked found =>
      rw [h.process found hprocess]
      exact Verdict.Below.refl _

/-- A leaf that asks for the addresses it looks at. -/
theorem leaf_adds {meaning : SetMeaning} (h : k.Adds k') {m : Matcher} (hm : m.isLeaf = true)
    (hasks : (Leaf.rule m noResolve).Asks) :
    (m.verdictWith windows meaning s k noResolve extended).Below
      (m.verdictWith windows meaning s k' noResolve extended) := by
  unfold Matcher.verdictWith
  rw [h.beforeConnection]
  by_cases hc : (k.beforeConnection && m.needsTheConnection) = true
  · rw [if_pos hc, if_pos hc]
    exact Verdict.Below.refl _
  · rw [if_neg hc, if_neg hc]
    cases m with
    | and subs => cases hm
    | or subs => cases hm
    | not sub => cases hm
    | set r => cases hm
    | ipCidr net =>
      obtain rfl : noResolve = false := hasks rfl
      exact onTarget_adds h _ _
    | ipCidr6 net =>
      obtain rfl : noResolve = false := hasks rfl
      exact onTarget_adds h _ _
    | geoIp code =>
      obtain rfl : noResolve = false := hasks rfl
      rw [h.geo]
      exact onTarget_adds h _ _
    | geoIpUnknown =>
      obtain rfl : noResolve = false := hasks rfl
      rw [h.geo]
      exact onTarget_adds h _ _
    | ipAsn asn =>
      obtain rfl : noResolve = false := hasks rfl
      rw [h.geo]
      exact onTarget_adds h _ _
    | ipAsnUnknown =>
      obtain rfl : noResolve = false := hasks rfl
      rw [h.geo]
      exact onTarget_adds h _ _
    | processName pp => exact processVerdict_adds h pp
    | subnet e =>
      rw [h.network]
      exact Verdict.Below.refl _
    | _ => exact Verdict.Below.refl _

/-- The table of AS numbers of a set, where it asks for the address it looks at. -/
theorem CompiledSet.asnPart_adds (h : k.Adds k') (set : CompiledSet)
    (hasks : set.asns.isEmpty = false → (noResolve || !set.asnsResolve) = false) :
    (Part.verdict (set.asnPart s k noResolve)).Below
      (Part.verdict (set.asnPart s k' noResolve)) := by
  unfold CompiledSet.asnPart
  by_cases hempty : set.asns.isEmpty = true
  · simp only [hempty, if_true]
    exact Verdict.Below.refl _
  · rw [if_neg hempty, if_neg hempty, hasks (Bool.eq_false_iff.2 hempty), h.geo]
    rcases targetIp_adds (s := s) h .any with ⟨v, hv, hnot⟩ | hsame
    · rw [hv]
      exact Verdict.below_of_not_decided hnot _
    · rw [hsame]
      exact Verdict.Below.refl _

theorem CompiledSet.ipPart_adds (h : k.Adds k') (set : CompiledSet)
    (hasks : set.ips.isEmpty = false → (noResolve || !set.ipsResolve) = false) (family : Family) :
    (Part.verdict (set.ipPart s k noResolve family)).Below
      (Part.verdict (set.ipPart s k' noResolve family)) := by
  unfold CompiledSet.ipPart
  by_cases hempty : set.ips.isEmpty = true
  · simp only [hempty, if_true]
    exact Verdict.Below.refl _
  · rw [if_neg hempty, if_neg hempty, hasks (Bool.eq_false_iff.2 hempty)]
    rcases targetIp_adds (s := s) h family with ⟨v, hv, hnot⟩ | hsame
    · rw [hv]
      exact Verdict.below_of_not_decided hnot _
    · rw [hsame]
      exact Verdict.Below.refl _

/-- A tree whose sets take nothing back takes nothing back. -/
theorem Matcher.verdictWith_adds {n : ℕ} {meaning : SetMeaning}
    (hset : ∀ r (k k' : Knowledge) noResolve extended, k.Adds k' →
      (∀ l, Matcher.Has env n (.set r) noResolve l → l.Asks) →
        (meaning r s k noResolve extended).Below (meaning r s k' noResolve extended))
    (m : Matcher) :
    ∀ {k k' : Knowledge} (noResolve extended : Bool), k.Adds k' →
      (∀ l, Matcher.Has env n m noResolve l → l.Asks) →
        (m.verdictWith windows meaning s k noResolve extended).Below
          (m.verdictWith windows meaning s k' noResolve extended) := by
  induction m using Matcher.rules with
  | leaf m hm => exact fun noResolve _ h hasks => leaf_adds h hm (hasks _ (.leaf hm))
  | set r =>
    intro k k' noResolve extended h hasks
    rw [Matcher.verdictWith_set, Matcher.verdictWith_set, h.setDepth]
    split_ifs
    · exact Verdict.Below.refl _
    · exact hset r k.deeper k'.deeper noResolve extended h.deeper hasks
  | and subs ih =>
    intro k k' noResolve extended h hasks
    rw [Matcher.verdictWith_and, Matcher.verdictWith_and]
    refine Verdict.below_all fun sub hsub => ?_
    rw [sub.verdictWith_eq, sub.verdictWith_eq]
    exact ih sub hsub _ _ h fun l hl => hasks l (.and hsub hl)
  | or subs ih =>
    intro k k' noResolve extended h hasks
    rw [Matcher.verdictWith_or, Matcher.verdictWith_or]
    refine Verdict.below_any fun sub hsub => ?_
    rw [sub.verdictWith_eq, sub.verdictWith_eq]
    exact ih sub hsub _ _ h fun l hl => hasks l (.or hsub hl)
  | not sub ih =>
    intro k k' noResolve extended h hasks
    rw [Matcher.verdictWith_not, Matcher.verdictWith_not, sub.verdictWith_eq, sub.verdictWith_eq]
    exact (ih _ _ h fun l hl => hasks l (.not hl)).not

theorem Env.meaning_adds (env : Env) (n : ℕ) :
    ∀ r (k k' : Knowledge) noResolve extended, k.Adds k' →
      (∀ l, Matcher.Has env n (.set r) noResolve l → l.Asks) →
        (env.meaning n r s k noResolve extended).Below
          (env.meaning n r s k' noResolve extended) := by
  induction n with
  | zero => exact fun _ _ _ _ _ _ _ => Verdict.Below.refl _
  | succ n ih =>
    intro r k k' noResolve extended h hasks
    have hips : (env.sets r).ips.isEmpty = false →
        (noResolve || !(env.sets r).ipsResolve) = false := fun hne =>
      hasks _ (.ips hne .v4 (.inl rfl)) rfl
    simp only [Env.meaning]
    rw [CompiledSet.verdictWith_eq_any, CompiledSet.verdictWith_eq_any]
    refine Verdict.below_any_forall₂ ?_
    unfold CompiledSet.verdicts
    rw [List.cons_append, List.cons_append]
    refine .cons (Verdict.Below.refl _) (List.rel_append ?_ ?_)
    · rw [List.forall₂_map_left_iff, List.forall₂_map_right_iff, List.forall₂_same]
      exact fun e he => e.2.matcher.verdictWith_adds ih _ _ h fun l hl => hasks l (.line he hl)
    · exact .cons ((env.sets r).asnPart_adds h fun hne => hasks _ (.asns hne) rfl)
        (.cons ((env.sets r).ipPart_adds h hips .v4)
          (.cons ((env.sets r).ipPart_adds h hips .v6) .nil))

/-- **A tree that asks for the addresses it looks at decides nothing that more knowledge takes
back.** -/
theorem Matcher.verdict_adds (m : Matcher) (h : k.Adds k')
    (hasks : ∀ l, m.Has env k.depthLeft noResolve l → l.Asks) :
    (m.verdict env s k noResolve extended).Below (m.verdict env s k' noResolve extended) := by
  have hdepth : k'.depthLeft = k.depthLeft := congrArg (MAX_NESTING - ·) h.setDepth
  unfold Matcher.verdict
  rw [hdepth]
  exact m.verdictWith_adds (env.meaning_adds k.depthLeft) noResolve extended h hasks

/-! ### What is waited for -/

/-- An address rule waits for the addresses of a name only where it may ask for them. -/
theorem targetIp_waits {family : Family} {v : Verdict}
    (h : targetIp s k noResolve family = .error v) :
    v ≠ .needsProcess ∧ (v = .needsResolve → noResolve = false) := by
  rcases targetIp_cases s k with hconn | hwait | hfam
  · rw [hconn] at h
    cases h
    exact ⟨nofun, nofun⟩
  · rw [hwait] at h
    cases noResolve with
    | true =>
      cases h
      exact ⟨nofun, nofun⟩
    | false =>
      cases h
      exact ⟨nofun, fun _ => rfl⟩
  · rcases hfam family with ⟨ip, -, hok⟩ | herr
    · rw [hok] at h
      cases h
    · rw [herr] at h
      cases h
      exact ⟨nofun, nofun⟩

theorem onTarget_waits {family : Family} {test : IpAddr → Bool} :
    onTarget s k noResolve family test ≠ .needsProcess ∧
      (onTarget s k noResolve family test = .needsResolve → noResolve = false) := by
  unfold onTarget
  cases h : targetIp s k noResolve family with
  | error v => exact targetIp_waits h
  | ok ip =>
    dsimp only
    cases test ip with
    | true => exact ⟨nofun, nofun⟩
    | false => exact ⟨nofun, nofun⟩

theorem ofBool_waits (b : Bool) (l : Leaf) : l.WaitsFor (.ofBool b) := by
  cases b with
  | true => trivial
  | false => trivial

theorem Leaf.waitsFor_onTarget {l : Leaf} (hl : l.looksAtAddress = true) (family : Family)
    (test : IpAddr → Bool) : l.WaitsFor (onTarget s k l.noResolve family test) := by
  have hwaits : onTarget s k l.noResolve family test ≠ .needsProcess ∧
      (onTarget s k l.noResolve family test = .needsResolve → l.noResolve = false) :=
    onTarget_waits
  cases hv : onTarget s k l.noResolve family test with
  | needsProcess => exact absurd hv hwaits.1
  | needsResolve => exact ⟨hl, hwaits.2 hv⟩
  | matched => trivial
  | noMatch => trivial
  | needsConnection => trivial

theorem Leaf.waitsFor_process (pp : ProcessPattern) (noResolve : Bool) :
    (Leaf.rule (.processName pp) noResolve).WaitsFor (processVerdict windows pp s k.process) := by
  unfold processVerdict
  cases s.process with
  | some given => exact ofBool_waits _ _
  | none =>
    cases k.process with
    | notAsked => exact ⟨pp, noResolve, rfl⟩
    | asked found => exact ofBool_waits _ _

/-- What a rule waits for it looks at. -/
theorem leaf_waitsFor {meaning : SetMeaning} {m : Matcher} (hm : m.isLeaf = true) :
    (Leaf.rule m noResolve).WaitsFor
      (m.verdictWith windows meaning s k noResolve extended) := by
  unfold Matcher.verdictWith
  by_cases hc : (k.beforeConnection && m.needsTheConnection) = true
  · rw [if_pos hc]
    trivial
  · rw [if_neg hc]
    cases m with
    | and subs => cases hm
    | or subs => cases hm
    | not sub => cases hm
    | set r => cases hm
    | ipCidr net => exact Leaf.waitsFor_onTarget (l := .rule (.ipCidr net) noResolve) rfl _ _
    | ipCidr6 net => exact Leaf.waitsFor_onTarget (l := .rule (.ipCidr6 net) noResolve) rfl _ _
    | geoIp code => exact Leaf.waitsFor_onTarget (l := .rule (.geoIp code) noResolve) rfl _ _
    | geoIpUnknown => exact Leaf.waitsFor_onTarget (l := .rule .geoIpUnknown noResolve) rfl _ _
    | ipAsn asn => exact Leaf.waitsFor_onTarget (l := .rule (.ipAsn asn) noResolve) rfl _ _
    | ipAsnUnknown => exact Leaf.waitsFor_onTarget (l := .rule .ipAsnUnknown noResolve) rfl _ _
    | processName pp => exact Leaf.waitsFor_process pp noResolve
    | unsupported kind => trivial
    | never => trivial
    | final => trivial
    | _ => exact ofBool_waits _ _

theorem CompiledSet.asnPart_waitsFor {set : CompiledSet} {v : Verdict}
    (h : set.asnPart s k noResolve = .inr v) (hv : ¬ v.Decided) :
    set.asns.isEmpty = false ∧ (Leaf.asns set (noResolve || !set.asnsResolve)).WaitsFor v := by
  unfold CompiledSet.asnPart at h
  split_ifs at h with hempty
  · cases h
    exact absurd (.inr rfl) hv
  · refine ⟨Bool.eq_false_iff.2 hempty, ?_⟩
    cases ht : targetIp s k (noResolve || !set.asnsResolve) .any with
    | error w =>
      rw [ht] at h
      cases h
      obtain ⟨hprocess, hresolve⟩ := targetIp_waits ht
      cases v with
      | needsProcess => exact absurd rfl hprocess
      | needsResolve => exact ⟨rfl, hresolve rfl⟩
      | _ => trivial
    | ok ip =>
      rw [ht] at h
      dsimp only at h
      split at h
      · split at h
        · cases h
        · cases h
          trivial
      · cases h
        trivial

theorem CompiledSet.ipPart_waitsFor {set : CompiledSet} {family : Family} {v : Verdict}
    (h : set.ipPart s k noResolve family = .inr v) (hv : ¬ v.Decided) :
    set.ips.isEmpty = false ∧
      (Leaf.ips set family (noResolve || !set.ipsResolve)).WaitsFor v := by
  unfold CompiledSet.ipPart at h
  split_ifs at h with hempty
  · cases h
    exact absurd (.inr rfl) hv
  · refine ⟨Bool.eq_false_iff.2 hempty, ?_⟩
    cases ht : targetIp s k (noResolve || !set.ipsResolve) family with
    | error w =>
      rw [ht] at h
      cases h
      obtain ⟨hprocess, hresolve⟩ := targetIp_waits ht
      cases v with
      | needsProcess => exact absurd rfl hprocess
      | needsResolve => exact ⟨rfl, hresolve rfl⟩
      | _ => trivial
    | ok ip =>
      rw [ht] at h
      dsimp only at h
      split at h
      · cases h
      · cases h
        trivial

/-- No part of a list before one of them matches. -/
theorem before_ne {α : Type} {f : α → Verdict} {v : Verdict} {l : List α} (hv : v ∉ l.map f)
    {a : α} (ha : a ∈ l) :
    ∃ before after, l = before ++ a :: after ∧ ∀ b ∈ before, f b ≠ v := by
  obtain ⟨before, after, rfl⟩ := List.append_of_mem ha
  refine ⟨before, after, rfl, fun b hb heq => hv ?_⟩
  exact List.mem_map.2 ⟨b, List.mem_append_left _ hb, heq⟩

/-- What a set waits for, a part it asks waits for. -/
theorem CompiledSet.part_of_waits {set : CompiledSet} {v : Verdict} (hv : ¬ v.Decided)
    (h : (set.verdict env s k noResolve extended).verdict = v) :
    set.domainHit s extended = none ∧
      (∀ p ∈ CompiledSet.parts env.windows (env.meaning k.depthLeft) set s k noResolve extended,
        ∀ i, p ≠ .inl i) ∧
      .inr v ∈ CompiledSet.parts env.windows (env.meaning k.depthLeft) set s k noResolve
        extended := by
  rw [CompiledSet.verdict_eq] at h
  cases hdomain : set.domainHit s extended with
  | some hit =>
    rw [hdomain] at h
    exact absurd (.inl h.symm) hv
  | none =>
    rw [hdomain] at h
    dsimp only [CompiledSet.ofParts] at h
    cases hfind : (CompiledSet.parts env.windows (env.meaning k.depthLeft) set s k noResolve
        extended).findSome? Sum.getLeft? with
    | some i =>
      rw [hfind] at h
      exact absurd (.inl h.symm) hv
    | none =>
      rw [hfind] at h
      refine ⟨rfl, fun p hp i heq => ?_, ?_⟩
      · have hnone := List.findSome?_eq_none_iff.1 hfind p hp
        rw [heq] at hnone
        cases hnone
      · cases hneeds : stillNeeds (Needs.of ((CompiledSet.parts env.windows
            (env.meaning k.depthLeft) set s k noResolve extended).filterMap Sum.getRight?)) with
        | none =>
          rw [hneeds] at h
          exact absurd (.inr h.symm) hv
        | some w =>
          rw [hneeds] at h
          obtain rfl : w = v := h
          obtain ⟨p, hp, hpw⟩ := List.mem_filterMap.1 (Verdict.stillNeeds_of_eq_some hneeds)
          cases p with
          | inl i => cases hpw
          | inr u =>
            cases hpw
            exact hp

/-- What a set waits for, a part that its evaluation comes to waits for. -/
theorem CompiledSet.reaches_of_waits {r : SetRef} {v : Verdict} (hdepth : k.setDepth < MAX_NESTING)
    (ih : ∀ (m : Matcher) (noResolve extended : Bool) (v : Verdict), ¬ v.Decided →
      m.verdict env s k.deeper noResolve extended = v →
        ∃ l, m.Reaches env s k.deeper noResolve extended l ∧ l.WaitsFor v)
    (hv : ¬ v.Decided)
    (h : ((env.sets r).verdict env s k.deeper noResolve extended).verdict = v) :
    ∃ l, Matcher.Reaches env s k (.set r) noResolve extended l ∧ l.WaitsFor v := by
  obtain ⟨hdomain, hparts, hmem⟩ := CompiledSet.part_of_waits hv h
  have hlines : Verdict.matched ∉ (env.sets r).linear.map fun b =>
      b.2.matcher.verdict env s k.deeper (noResolve || b.2.noResolve)
        (extended || b.2.extended) := by
    intro hmatched
    obtain ⟨b, hb, heq⟩ := List.mem_map.1 hmatched
    refine hparts (.inl b.1) (List.mem_append_left _ (List.mem_map.2 ⟨b, hb, ?_⟩)) b.1 rfl
    change b.2.matcher.verdictWith env.windows (env.meaning k.deeper.depthLeft) s k.deeper _ _ =
      .matched at heq
    simp only [heq]
  have hnone : ∀ b ∈ (env.sets r).linear, b.2.matcher.verdict env s k.deeper
      (noResolve || b.2.noResolve) (extended || b.2.extended) ≠ .matched := fun b hb heq =>
    hlines (List.mem_map.2 ⟨b, hb, heq⟩)
  have hright : ∀ p ∈ [(env.sets r).asnPart s k.deeper noResolve,
      (env.sets r).ipPart s k.deeper noResolve .v4, (env.sets r).ipPart s k.deeper noResolve .v6],
        ∀ i, p ≠ .inl i := fun p hp => hparts p (List.mem_append_right _ hp)
  rcases List.mem_append.1 hmem with hline | hindex
  · obtain ⟨e, he, hpart⟩ := List.mem_map.1 hline
    have hev : e.2.matcher.verdict env s k.deeper (noResolve || e.2.noResolve)
        (extended || e.2.extended) = v := by
      split at hpart
      · cases hpart
      · exact Sum.inr.inj hpart
    obtain ⟨before, after, hsplit, hbefore⟩ := before_ne hlines he
    obtain ⟨l, hl, hwaits⟩ := ih _ _ _ v hv hev
    exact ⟨l, .line hdepth hdomain hsplit hbefore hl, hwaits⟩
  · simp only [List.mem_cons, List.not_mem_nil, or_false] at hindex
    rcases hindex with hasn | hv4 | hv6
    · obtain ⟨hne, hwaits⟩ := CompiledSet.asnPart_waitsFor hasn.symm hv
      exact ⟨_, .asns hdepth hdomain hnone hne, hwaits⟩
    · obtain ⟨hne, hwaits⟩ := CompiledSet.ipPart_waitsFor hv4.symm hv
      exact ⟨_, .ips hdepth hdomain hnone (hright _ (by simp)) hne .v4 (.inl rfl), hwaits⟩
    · obtain ⟨hne, hwaits⟩ := CompiledSet.ipPart_waitsFor hv6.symm hv
      exact ⟨_, .ips hdepth hdomain hnone (hright _ (by simp)) hne .v6
        (.inr ⟨rfl, hright _ (by simp)⟩), hwaits⟩

/-- **What a tree waits for, a part that its evaluation comes to waits for.** -/
theorem Matcher.reaches_of_waits (env : Env) (s : SessionInfo) (n : ℕ) :
    ∀ k : Knowledge, k.depthLeft = n → ∀ (m : Matcher) (noResolve extended : Bool) (v : Verdict),
      ¬ v.Decided → m.verdict env s k noResolve extended = v →
        ∃ l, m.Reaches env s k noResolve extended l ∧ l.WaitsFor v := by
  induction n using Nat.strong_induction_on with
  | _ n ihn =>
    intro k hn m
    induction m using Matcher.rules with
    | leaf m hm =>
      rintro noResolve extended v - rfl
      exact ⟨_, .leaf hm, leaf_waitsFor hm⟩
    | set r =>
      intro noResolve extended v hv h
      rw [Matcher.verdict_set] at h
      split_ifs at h with hdeep
      · exact absurd (.inr h.symm) hv
      · have hdepth : k.setDepth < MAX_NESTING := Nat.lt_of_not_le hdeep
        refine CompiledSet.reaches_of_waits hdepth (ihn k.deeper.depthLeft ?_ k.deeper rfl) hv h
        rw [Knowledge.depthLeft_deeper]
        simp only [Knowledge.depthLeft] at hn ⊢
        omega
    | and subs ih =>
      intro noResolve extended v hv h
      rw [Matcher.verdict_and] at h
      have hmiss : Verdict.noMatch ∉ subs.map (·.verdict env s k) := fun hmem =>
        hv (.inr (h ▸ Verdict.all_eq_noMatch.2 hmem))
      rcases Verdict.all_decided_or_mem (subs.map (·.verdict env s k)) with hdec | hmem
      · exact absurd (h ▸ hdec) hv
      · obtain ⟨sub, hsub, heq⟩ := List.mem_map.1 hmem
        obtain ⟨before, after, hsplit, hbefore⟩ := before_ne hmiss hsub
        obtain ⟨l, hl, hwaits⟩ := ih sub hsub _ _ v hv (heq.trans h)
        exact ⟨l, .and hsplit hbefore hl, hwaits⟩
    | or subs ih =>
      intro noResolve extended v hv h
      rw [Matcher.verdict_or] at h
      have hhit : Verdict.matched ∉ subs.map (·.verdict env s k) := fun hmem =>
        hv (.inl (h ▸ Verdict.any_eq_matched.2 hmem))
      rcases Verdict.any_decided_or_mem (subs.map (·.verdict env s k)) with hdec | hmem
      · exact absurd (h ▸ hdec) hv
      · obtain ⟨sub, hsub, heq⟩ := List.mem_map.1 hmem
        obtain ⟨before, after, hsplit, hbefore⟩ := before_ne hhit hsub
        obtain ⟨l, hl, hwaits⟩ := ih sub hsub _ _ v hv (heq.trans h)
        exact ⟨l, .or hsplit hbefore hl, hwaits⟩
    | not sub ih =>
      intro noResolve extended v hv h
      rw [Matcher.verdict_not] at h
      rcases Verdict.not_decided_or_eq (sub.verdict env s k) with hdec | heq
      · exact absurd (h ▸ hdec) hv
      · obtain ⟨l, hl, hwaits⟩ := ih _ _ v hv (heq.symm.trans h)
        exact ⟨l, .not hl, hwaits⟩

end

/-- What an evaluation comes to is part of the tree. -/
theorem Matcher.Reaches.has {env : Env} {s : SessionInfo} {k : Knowledge} {m : Matcher}
    {noResolve extended : Bool} {l : Leaf} (h : m.Reaches env s k noResolve extended l) :
    m.Has env k.depthLeft noResolve l := by
  have hsucc : ∀ {k : Knowledge}, k.setDepth < MAX_NESTING →
      k.depthLeft = k.deeper.depthLeft + 1 := fun {k} hdepth => by
    rw [Knowledge.depthLeft_deeper]
    simp only [Knowledge.depthLeft]
    omega
  induction h with
  | leaf hm => exact .leaf hm
  | and hsubs _ _ ih => exact .and (hsubs ▸ List.mem_append_right _ List.mem_cons_self) ih
  | or hsubs _ _ ih => exact .or (hsubs ▸ List.mem_append_right _ List.mem_cons_self) ih
  | not _ ih => exact .not ih
  | line hdepth _ hlines _ _ ih =>
    rw [hsucc hdepth]
    exact .line (hlines ▸ List.mem_append_right _ List.mem_cons_self) ih
  | asns hdepth _ _ hne =>
    rw [hsucc hdepth]
    exact .asns hne
  | ips hdepth _ _ _ hne family hfamily =>
    rw [hsucc hdepth]
    exact .ips hne family (hfamily.imp_right And.left)

/-! ### Lazy evaluation -/

/-- What an evaluation that knows only part of what there is to know says. -/
structure SoundSoFar (env : Env) (s : SessionInfo) (ctx : EvalCtx) (noResolve extended : Bool)
    (m : Matcher) : Prop where
  /-- it decides nothing that more knowledge takes back -/
  stable : (∀ l, m.Has env ctx.depthLeft noResolve l → l.Asks) →
    (m.eval env s ctx noResolve extended).1.Decided →
      ∀ ctx' : EvalCtx, ctx.toKnowledge.Adds ctx'.toKnowledge →
        (m.eval env s ctx' noResolve extended).1 = (m.eval env s ctx noResolve extended).1
  /-- it asks for the process where a rule it came to looks at it -/
  process : (m.eval env s ctx noResolve extended).1 = .needsProcess →
    ∃ l, m.Has env ctx.depthLeft noResolve l ∧
      m.Reaches env s ctx.toKnowledge noResolve extended l ∧ l.ReadsProcess s ctx.toKnowledge
  /-- it asks for the addresses where a part it came to looks at them -/
  addresses : (m.eval env s ctx noResolve extended).1 = .needsResolve →
    ∃ l, m.Has env ctx.depthLeft noResolve l ∧
      m.Reaches env s ctx.toKnowledge noResolve extended l ∧ l.ReadsAddresses s ctx.toKnowledge

/-- **Lazy evaluation is sound**: what a tree decides knowing less it decides knowing more, and what
it asks for it looks at. -/
theorem lazy_evaluation (env : Env) (s : SessionInfo) (ctx : EvalCtx) (noResolve extended : Bool)
    (m : Matcher) : SoundSoFar env s ctx noResolve extended m where
  stable := fun hasks hdec ctx' hadds => by
    rw [m.eval_verdict] at hdec
    rw [m.eval_verdict, m.eval_verdict]
    exact m.verdict_adds hadds hasks hdec
  process := fun h => by
    rw [m.eval_verdict] at h
    obtain ⟨l, hl, hwaits⟩ := Matcher.reaches_of_waits env s _ _ rfl m noResolve extended _
      (by decide) h
    have hopen := m.verdict_open env s ctx.toKnowledge noResolve extended
    rw [h] at hopen
    exact ⟨l, hl.has, hl, hwaits, hopen⟩
  addresses := fun h => by
    rw [m.eval_verdict] at h
    obtain ⟨l, hl, hwaits⟩ := Matcher.reaches_of_waits env s _ _ rfl m noResolve extended _
      (by decide) h
    have hopen := m.verdict_open env s ctx.toKnowledge noResolve extended
    rw [h] at hopen
    obtain ⟨hbefore, hname, hresolved⟩ := hopen
    exact ⟨l, hl.has, hl, hwaits.1, hwaits.2, hname, hbefore, hresolved⟩

end Rurge
