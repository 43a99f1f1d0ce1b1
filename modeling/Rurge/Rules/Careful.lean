import Rurge.Rules.EngineRuns

/-!
# What a query may say of a connection

A query for a name and a connection to that name are judged apart: the query before the connection
exists, knowing the name and where it came from.  Verdicts are ordered by what they decide
(`Verdict.Below`).  A rule that looks at something only the connection has leaves the query
undecided, with one exception: a name condition with `extended-matching` looks at the SNI and the
HTTP host as well, and says `noMatch` of a query that has neither.

`Matcher.careful` is the verdict of a query with that miss taken as not knowing, for a connection
whose SNI or HTTP host the condition hits; `Matcher.careful_below` says that what it decides, the
connection decides the same way.
-/

namespace Rurge

/-! ### The order of verdicts -/

/-- What `v` decides, `w` decides the same way. -/
def Verdict.Below (v w : Verdict) : Prop := v.Decided → w = v

namespace Verdict

theorem Below.refl (v : Verdict) : v.Below v := fun _ => rfl

theorem below_of_not_decided {v : Verdict} (h : ¬ v.Decided) (w : Verdict) : v.Below w :=
  fun hv => absurd hv h

theorem Below.matched {v w : Verdict} (h : v.Below w) (hv : v = .matched) : w = .matched :=
  (h (Or.inl hv)).trans hv

theorem Below.noMatch {v w : Verdict} (h : v.Below w) (hv : v = .noMatch) : w = .noMatch :=
  (h (Or.inr hv)).trans hv

theorem Below.not {v w : Verdict} (h : v.Below w) : v.not.Below w.not := by
  rintro (hv | hv)
  · rw [hv, not_eq_matched]
    exact h.noMatch (not_eq_matched.1 hv)
  · rw [hv, not_eq_noMatch]
    exact h.matched (not_eq_noMatch.1 hv)

variable {α : Type} {f g : α → Verdict} {l : List α}

theorem below_all (h : ∀ a ∈ l, (f a).Below (g a)) : (all (l.map f)).Below (all (l.map g)) := by
  rintro (hv | hv)
  · rw [hv]
    rw [all_eq_matched, List.forall_mem_map] at hv ⊢
    exact fun a ha => (h a ha).matched (hv a ha)
  · rw [hv]
    rw [all_eq_noMatch, List.mem_map] at hv ⊢
    obtain ⟨a, ha, hm⟩ := hv
    exact ⟨a, ha, (h a ha).noMatch hm⟩

theorem below_any (h : ∀ a ∈ l, (f a).Below (g a)) : (any (l.map f)).Below (any (l.map g)) := by
  rintro (hv | hv)
  · rw [hv]
    rw [any_eq_matched, List.mem_map] at hv ⊢
    obtain ⟨a, ha, hm⟩ := hv
    exact ⟨a, ha, (h a ha).matched hm⟩
  · rw [hv]
    rw [any_eq_noMatch, List.forall_mem_map] at hv ⊢
    exact fun a ha => (h a ha).noMatch (hv a ha)

/-- Combinations of lists that agree place by place. -/
theorem below_any_forall₂ {vs ws : List Verdict} (h : List.Forall₂ Below vs ws) :
    (any vs).Below (any ws) := by
  have hmem : ∀ {vs ws : List Verdict}, List.Forall₂ Below vs ws →
      (∀ v ∈ vs, ∃ w ∈ ws, v.Below w) ∧ ∀ w ∈ ws, ∃ v ∈ vs, v.Below w := by
    intro vs ws h
    induction h with
    | nil => simp
    | cons hd _ ih =>
      refine ⟨?_, ?_⟩
      · simp only [List.mem_cons, forall_eq_or_imp, exists_eq_or_imp]
        exact ⟨Or.inl hd, fun v hv => Or.inr (ih.1 v hv)⟩
      · simp only [List.mem_cons, forall_eq_or_imp, exists_eq_or_imp]
        exact ⟨Or.inl hd, fun w hw => Or.inr (ih.2 w hw)⟩
  rintro (hv | hv)
  · rw [hv]
    rw [any_eq_matched] at hv ⊢
    obtain ⟨w, hw, hb⟩ := (hmem h).1 _ hv
    exact hb.matched rfl ▸ hw
  · rw [hv]
    rw [any_eq_noMatch] at hv ⊢
    intro w hw
    obtain ⟨v, hv', hb⟩ := (hmem h).2 w hw
    exact hb.noMatch (hv v hv')

end Verdict

/-! ### A set as an `OR` -/

namespace CompiledSet

/-- The verdict of a part. -/
def Part.verdict : Part → Verdict := Sum.elim (fun _ => .matched) id

/-- The verdicts a set combines: the domain index, the linear lines, the AS numbers, the networks
of either family. -/
def verdicts (windows : Bool) (meaning : SetMeaning) (set : CompiledSet) (s : SessionInfo)
    (k : Knowledge) (noResolve extended : Bool) : List Verdict :=
  .ofBool (set.domainHit s extended).isSome ::
    (set.linear.map fun e => e.2.matcher.verdictWith windows meaning s k
      (noResolve || e.2.noResolve) (extended || e.2.extended)) ++
    [Part.verdict (set.asnPart s k noResolve), Part.verdict (set.ipPart s k noResolve .v4),
      Part.verdict (set.ipPart s k noResolve .v6)]

theorem targetIp_ne_matched {s : SessionInfo} {k : Knowledge} {noResolve : Bool} {family : Family} :
    targetIp s k noResolve family ≠ .error .matched := by
  rcases targetIp_cases s k with hconn | hwait | hfam
  · simp [hconn]
  · rw [hwait]
    split_ifs <;> simp
  · rcases hfam family with ⟨ip, -, hok⟩ | herr
    · simp [hok]
    · simp [herr]

theorem asnPart_ne_matched {set : CompiledSet} {s : SessionInfo} {k : Knowledge}
    {noResolve : Bool} : set.asnPart s k noResolve ≠ .inr .matched := by
  unfold asnPart
  split_ifs
  · simp
  · cases ht : targetIp s k (noResolve || !set.asnsResolve) .any with
    | error v =>
      simp only [ne_eq, Sum.inr.injEq]
      rintro rfl
      exact targetIp_ne_matched ht
    | ok ip =>
      dsimp only
      split
      · split <;> simp
      · simp

theorem ipPart_ne_matched {set : CompiledSet} {s : SessionInfo} {k : Knowledge}
    {noResolve : Bool} {family : Family} : set.ipPart s k noResolve family ≠ .inr .matched := by
  unfold ipPart
  split_ifs
  · simp
  · cases ht : targetIp s k (noResolve || !set.ipsResolve) family with
    | error v =>
      simp only [ne_eq, Sum.inr.injEq]
      rintro rfl
      exact targetIp_ne_matched ht
    | ok ip =>
      dsimp only
      split <;> simp

/-- What parts that match only by a line make of a set. -/
theorem ofParts_any {set : CompiledSet} {ps : List Part} (h : Sum.inr Verdict.matched ∉ ps) :
    (set.ofParts ps).verdict = .any (ps.map Part.verdict) := by
  unfold ofParts
  cases hfind : ps.findSome? Sum.getLeft? with
  | some i =>
    obtain ⟨p, hp, hpi⟩ := List.exists_of_findSome?_eq_some hfind
    refine (Verdict.any_eq_matched.2 (List.mem_map.2 ⟨p, hp, ?_⟩)).symm
    cases p with
    | inl j => rfl
    | inr v => cases hpi
  | none =>
    have hright : ∀ p ∈ ps, ∃ v, p = .inr v := by
      intro p hp
      have := List.findSome?_eq_none_iff.1 hfind p hp
      cases p with
      | inl i => simp at this
      | inr v => exact ⟨v, rfl⟩
    have hmap : ps.filterMap Sum.getRight? = ps.map Part.verdict := by
      clear hfind h
      induction ps with
      | nil => rfl
      | cons p ps ih =>
        obtain ⟨v, rfl⟩ := hright p List.mem_cons_self
        simp [Part.verdict, ih fun p hp => hright p (List.mem_cons_of_mem _ hp)]
    dsimp only
    rw [hmap, Verdict.any, if_neg]
    rintro hm
    obtain ⟨p, hp, hv⟩ := List.mem_map.1 hm
    obtain ⟨v, rfl⟩ := hright p hp
    obtain rfl : v = .matched := hv
    exact h hp

/-- **A set says what an `OR` of its parts says.** -/
theorem verdictWith_eq_any (windows : Bool) (meaning : SetMeaning) (set : CompiledSet)
    (s : SessionInfo) (k : Knowledge) (noResolve extended : Bool) :
    (set.verdictWith windows meaning s k noResolve extended).verdict =
      .any (verdicts windows meaning set s k noResolve extended) := by
  unfold verdictWith verdicts
  cases set.domainHit s extended with
  | some h =>
    refine (Verdict.any_eq_matched.2 ?_).symm
    simp [Verdict.ofBool]
  | none =>
    rw [show (Verdict.ofBool (none : Option DomainHit).isSome) = .noMatch from rfl]
    dsimp only
    rw [ofParts_any]
    · have hlinear : (linearParts windows meaning s k noResolve extended set.linear).map
          Part.verdict = set.linear.map fun e => e.2.matcher.verdictWith windows meaning s k
            (noResolve || e.2.noResolve) (extended || e.2.extended) := by
        rw [linearParts, List.map_map]
        refine List.map_congr_left fun e _ => ?_
        dsimp only [Function.comp]
        split <;> simp_all [Part.verdict]
      rw [parts, List.map_append, hlinear]
      refine Verdict.any_congr fun v hv => ?_
      simp [hv]
    · simp only [parts, linearParts, List.mem_append, List.mem_map, List.mem_cons,
        List.not_mem_nil, or_false, not_or]
      refine ⟨?_, asnPart_ne_matched.symm, ipPart_ne_matched.symm, ipPart_ne_matched.symm⟩
      rintro ⟨e, -, he⟩
      split at he
      · cases he
      · rename_i hne
        exact hne (Sum.inr.inj he)

/-- The domain index finds one of the names it is asked for. -/
theorem domainHit_isSome (set : CompiledSet) (s : SessionInfo) (extended : Bool) :
    (set.domainHit s extended).isSome =
      (set.targets s extended).any fun t => (set.domains.lookup t).isSome := by
  unfold domainHit
  split_ifs with h
  · simp [DomainIndex.lookup_of_isEmpty h]
  · rw [Bool.eq_iff_iff]
    simp [List.findSome?_isSome_iff]

end CompiledSet

/-! ### The careful verdict -/

/-- The test a name condition makes of each name it looks at. -/
def Matcher.nameTest : Matcher → Option (Str → Bool)
  | .domain d => some (· == d)
  | .domainSuffix d => some (isSuffix · d)
  | .domainKeyword w => some (Str.containsStr w)
  | .domainWildcard g => some g.isMatch
  | _ => none

/-- The names only a connection has, which `extended-matching` looks at. -/
def SessionInfo.connectionNames (c : SessionInfo) : List Str := c.sni.toList ++ c.httpHost.toList

/-- A miss that the connection takes back is not knowing. -/
def guarded (v : Verdict) (takenBack : Bool) : Verdict :=
  if v = .noMatch ∧ takenBack = true then .needsConnection else v

mutual

/-- What a matcher says of the query `q`, a miss that the names of the connection `c` take back
being not knowing. -/
def Matcher.carefulWith (windows : Bool) (meaning : SetMeaning) (q c : SessionInfo) (k : Knowledge)
    (noResolve extended : Bool) (m : Matcher) : Verdict :=
  match m with
  | .and subs => .all (carefulsWith windows meaning q c k subs)
  | .or subs => .any (carefulsWith windows meaning q c k subs)
  | .not sub => (sub.carefulWith windows meaning q c k).not
  | .set r =>
    if MAX_NESTING ≤ k.setDepth then .noMatch else meaning r q k.deeper noResolve extended
  | m => guarded (m.verdictWith windows meaning q k noResolve extended)
      (extended && m.nameTest.any c.connectionNames.any)

def CompiledSubRule.carefulWith (windows : Bool) (meaning : SetMeaning) (q c : SessionInfo)
    (k : Knowledge) (sub : CompiledSubRule) : Verdict :=
  match sub with
  | .mk matcher noResolve extended _ =>
    matcher.carefulWith windows meaning q c k noResolve extended

def carefulsWith (windows : Bool) (meaning : SetMeaning) (q c : SessionInfo) (k : Knowledge)
    (subs : List CompiledSubRule) : List Verdict :=
  match subs with
  | [] => []
  | sub :: subs =>
    sub.carefulWith windows meaning q c k :: carefulsWith windows meaning q c k subs

end

/-- What a set says of the query `q`. -/
def CompiledSet.carefulWith (windows : Bool) (meaning : SetMeaning) (set : CompiledSet)
    (q c : SessionInfo) (k : Knowledge) (noResolve extended : Bool) : Verdict :=
  .any (guarded (.ofBool (set.domainHit q extended).isSome) ((extended || set.extended) &&
      c.connectionNames.any fun t => (set.domains.lookup t).isSome) ::
    (set.linear.map fun e => e.2.matcher.carefulWith windows meaning q c k
      (noResolve || e.2.noResolve) (extended || e.2.extended)) ++
    [CompiledSet.Part.verdict (set.asnPart q k noResolve),
      CompiledSet.Part.verdict (set.ipPart q k noResolve .v4),
      CompiledSet.Part.verdict (set.ipPart q k noResolve .v6)])

/-- What a handle says of a query when at most `n` more sets may nest. -/
def Env.carefulMeaning (env : Env) (c : SessionInfo) : ℕ → SetMeaning
  | 0 => fun _ _ _ _ _ => .noMatch
  | n + 1 => fun r q k noResolve extended =>
    (env.sets r).carefulWith env.windows (env.carefulMeaning c n) q c k noResolve extended

/-- **The careful verdict**: what a matcher says of the query `q`, knowing `k`, for the connection
`c`. -/
def Matcher.careful (env : Env) (q c : SessionInfo) (k : Knowledge) (noResolve extended : Bool)
    (m : Matcher) : Verdict :=
  m.carefulWith env.windows (env.carefulMeaning c k.depthLeft) q c k noResolve extended

/-! ### What the query decides, the connection decides -/

/-- The connection `c` goes to the name the query `q` asks for, from where it was asked; the query
has none of the names of a connection, and no process. -/
structure Follows (c q : SessionInfo) : Prop where
  dst : c.dstHost = q.dstHost
  src : c.src.ip = q.src.ip
  sni : q.sni = none
  httpHost : q.httpHost = none
  process : q.process = none

/-- The same knowledge once the connection exists. -/
def Knowledge.connected (k : Knowledge) : Knowledge := { k with beforeConnection := false }

section

variable {windows : Bool} {meaning meaning' : SetMeaning} {c q : SessionInfo} {k : Knowledge}
  {noResolve extended : Bool}

theorem CompiledSubRule.carefulWith_eq (sub : CompiledSubRule) :
    sub.carefulWith windows meaning q c k =
      sub.matcher.carefulWith windows meaning q c k sub.noResolve sub.extended := by
  cases sub; rfl

theorem carefulsWith_eq_map (subs : List CompiledSubRule) :
    carefulsWith windows meaning q c k subs =
      subs.map (·.carefulWith windows meaning q c k) := by
  induction subs with
  | nil => rfl
  | cons sub subs ih => rw [carefulsWith, ih, List.map_cons]

theorem Matcher.carefulWith_leaf {m : Matcher} (hm : m.isLeaf = true) :
    m.carefulWith windows meaning q c k noResolve extended =
      guarded (m.verdictWith windows meaning q k noResolve extended)
        (extended && m.nameTest.any c.connectionNames.any) := by
  cases m <;> first | rfl | cases hm

@[simp] theorem guarded_false (v : Verdict) : guarded v false = v := by simp [guarded]

@[simp] theorem guarded_ofBool_true (b : Bool) : guarded (.ofBool true) b = .matched := by
  simp [guarded, Verdict.ofBool]

theorem guarded_of_nameTest {m : Matcher} (h : m.nameTest = none) (v : Verdict) :
    guarded v (extended && m.nameTest.any c.connectionNames.any) = v := by
  simp [guarded, h]

/-- A test of names says of the query what it says of the connection, or does not know. -/
theorem names_below (h : Follows c q) (extended : Bool) (test : Str → Bool) :
    (guarded (.ofBool ((domainTargets q extended).any test))
      (extended && c.connectionNames.any test)).Below
        (.ofBool ((domainTargets c extended).any test)) := by
  have hq : domainTargets q extended = q.dstHost.asDomain.toList := by
    simp [domainTargets, h.sni, h.httpHost]
  have hc : domainTargets c extended = q.dstHost.asDomain.toList ++
      if extended then c.connectionNames else [] := by
    simp [domainTargets, h.dst, SessionInfo.connectionNames]
  rw [hq, hc, List.any_append]
  cases q.dstHost.asDomain.toList.any test with
  | true =>
    rw [Bool.true_or, guarded_ofBool_true]
    exact Verdict.Below.refl _
  | false =>
    rw [Bool.false_or]
    cases extended with
    | false => simpa using Verdict.Below.refl _
    | true =>
      rw [Bool.true_and, if_pos rfl]
      cases c.connectionNames.any test with
      | false => simpa using Verdict.Below.refl _
      | true =>
        refine Verdict.below_of_not_decided ?_ _
        simp [guarded, Verdict.Decided, Verdict.ofBool]

/-- An address rule waits for the connection of a name, and tests an address either way. -/
theorem targetIp_follows (h : Follows c q) (hk : k.beforeConnection = true) (noResolve : Bool)
    (family : Family) : targetIp q k noResolve family = .error .needsConnection ∨
      targetIp c k.connected noResolve family = targetIp q k noResolve family := by
  unfold targetIp
  rw [h.dst]
  cases q.dstHost.asIp with
  | some ip => exact Or.inr rfl
  | none => exact Or.inl (by simp [hk])

theorem onTarget_below (h : Follows c q) (hk : k.beforeConnection = true) (noResolve : Bool)
    (family : Family) (test : IpAddr → Bool) :
    (onTarget q k noResolve family test).Below (onTarget c k.connected noResolve family test) := by
  unfold onTarget
  rcases targetIp_follows h hk noResolve family with hconn | hsame
  · rw [hconn]
    exact Verdict.below_of_not_decided (by simp [Verdict.Decided]) _
  · rw [hsame]
    exact Verdict.Below.refl _

/-- A leaf. -/
theorem leaf_below (h : Follows c q) (hk : k.beforeConnection = true)
    (hp : k.process = .notAsked) {m : Matcher} (hm : m.isLeaf = true) :
    (m.carefulWith windows meaning q c k noResolve extended).Below
      (m.verdictWith windows meaning' c k.connected noResolve extended) := by
  rw [Matcher.carefulWith_leaf hm]
  have hneeds : ¬ (guarded .needsConnection
      (extended && m.nameTest.any c.connectionNames.any)).Decided := by
    simp [guarded, Verdict.Decided]
  cases hn : m.needsTheConnection with
  | true =>
    rw [show m.verdictWith windows meaning q k noResolve extended = .needsConnection by
      unfold Matcher.verdictWith; simp [hk, hn]]
    exact Verdict.below_of_not_decided hneeds _
  | false =>
    unfold Matcher.verdictWith
    rw [hn, Bool.and_false, Bool.and_false, if_neg Bool.false_ne_true, if_neg Bool.false_ne_true]
    cases m with
    | and subs => cases hm
    | or subs => cases hm
    | not sub => cases hm
    | set r => cases hm
    | domain d => exact names_below h extended _
    | domainSuffix d => exact names_below h extended _
    | domainKeyword w => exact names_below h extended _
    | domainWildcard g => exact names_below h extended _
    | processName pp =>
      rw [guarded_of_nameTest rfl]
      exact Verdict.below_of_not_decided
        (by simp [processVerdict, h.process, hp, Verdict.Decided]) _
    | srcIp net =>
      rw [guarded_of_nameTest rfl, h.src]
      exact Verdict.Below.refl _
    | hostnameType t =>
      have : c.hostnameType = q.hostnameType := by simp [SessionInfo.hostnameType, h.dst]
      rw [guarded_of_nameTest rfl, this]
      exact Verdict.Below.refl _
    | ipCidr net =>
      rw [guarded_of_nameTest rfl]
      exact onTarget_below h hk _ _ _
    | ipCidr6 net =>
      rw [guarded_of_nameTest rfl]
      exact onTarget_below h hk _ _ _
    | geoIp code =>
      rw [guarded_of_nameTest rfl]
      exact onTarget_below h hk _ _ _
    | geoIpUnknown =>
      rw [guarded_of_nameTest rfl]
      exact onTarget_below h hk _ _ _
    | ipAsn asn =>
      rw [guarded_of_nameTest rfl]
      exact onTarget_below h hk _ _ _
    | ipAsnUnknown =>
      rw [guarded_of_nameTest rfl]
      exact onTarget_below h hk _ _ _
    | subnet e =>
      rw [guarded_of_nameTest rfl]
      exact Verdict.Below.refl _
    | unsupported kind =>
      rw [guarded_of_nameTest rfl]
      exact Verdict.Below.refl _
    | never =>
      rw [guarded_of_nameTest rfl]
      exact Verdict.Below.refl _
    | final =>
      rw [guarded_of_nameTest rfl]
      exact Verdict.Below.refl _
    | _ => cases hn

@[simp] theorem Knowledge.connected_deeper (k : Knowledge) :
    k.connected.deeper = k.deeper.connected := rfl

/-- **A matcher decides of the connection what it decides of the query.** -/
theorem Matcher.carefulWith_below (h : Follows c q)
    (hset : ∀ r (k : Knowledge) noResolve extended, k.beforeConnection = true →
      k.process = .notAsked → (meaning r q k noResolve extended).Below
        (meaning' r c k.connected noResolve extended)) (m : Matcher) :
    ∀ {k : Knowledge} (noResolve extended : Bool), k.beforeConnection = true →
      k.process = .notAsked → (m.carefulWith windows meaning q c k noResolve extended).Below
        (m.verdictWith windows meaning' c k.connected noResolve extended) := by
  induction m using Matcher.rules with
  | leaf m hm => exact fun _ _ hk hp => leaf_below h hk hp hm
  | set r =>
    intro k noResolve extended hk hp
    rw [Matcher.verdictWith_set]
    unfold Matcher.carefulWith
    by_cases hdeep : MAX_NESTING ≤ k.setDepth
    · rw [if_pos hdeep, if_pos (show MAX_NESTING ≤ k.connected.setDepth from hdeep)]
      exact Verdict.Below.refl _
    · rw [if_neg hdeep, if_neg (show ¬ MAX_NESTING ≤ k.connected.setDepth from hdeep)]
      exact hset r k.deeper noResolve extended hk hp
  | and subs ih =>
    intro k noResolve extended hk hp
    rw [Matcher.verdictWith_and]
    unfold Matcher.carefulWith
    rw [carefulsWith_eq_map]
    refine Verdict.below_all fun sub hsub => ?_
    rw [sub.carefulWith_eq, sub.verdictWith_eq]
    exact ih sub hsub _ _ hk hp
  | or subs ih =>
    intro k noResolve extended hk hp
    rw [Matcher.verdictWith_or]
    unfold Matcher.carefulWith
    rw [carefulsWith_eq_map]
    refine Verdict.below_any fun sub hsub => ?_
    rw [sub.carefulWith_eq, sub.verdictWith_eq]
    exact ih sub hsub _ _ hk hp
  | not sub ih =>
    intro k noResolve extended hk hp
    rw [Matcher.verdictWith_not, sub.verdictWith_eq]
    unfold Matcher.carefulWith
    rw [sub.carefulWith_eq]
    exact (ih _ _ hk hp).not

theorem CompiledSet.asnPart_below (h : Follows c q) (hk : k.beforeConnection = true)
    (set : CompiledSet) : (Part.verdict (set.asnPart q k noResolve)).Below
      (Part.verdict (set.asnPart c k.connected noResolve)) := by
  unfold CompiledSet.asnPart
  by_cases hempty : set.asns.isEmpty = true
  · simp only [hempty, if_true]
    exact Verdict.Below.refl _
  · simp only [hempty]
    rcases targetIp_follows h hk (noResolve || !set.asnsResolve) .any with hconn | hsame
    · rw [hconn]
      exact Verdict.below_of_not_decided (by simp [Part.verdict, Verdict.Decided]) _
    · rw [hsame]
      exact Verdict.Below.refl _

theorem CompiledSet.ipPart_below (h : Follows c q) (hk : k.beforeConnection = true)
    (set : CompiledSet) (family : Family) : (Part.verdict (set.ipPart q k noResolve family)).Below
      (Part.verdict (set.ipPart c k.connected noResolve family)) := by
  unfold CompiledSet.ipPart
  by_cases hempty : set.ips.isEmpty = true
  · simp only [hempty, if_true]
    exact Verdict.Below.refl _
  · simp only [hempty]
    rcases targetIp_follows h hk (noResolve || !set.ipsResolve) family with hconn | hsame
    · rw [hconn]
      exact Verdict.below_of_not_decided (by simp [Part.verdict, Verdict.Decided]) _
    · rw [hsame]
      exact Verdict.Below.refl _

theorem CompiledSet.carefulWith_below (h : Follows c q)
    (hset : ∀ r (k : Knowledge) noResolve extended, k.beforeConnection = true →
      k.process = .notAsked → (meaning r q k noResolve extended).Below
        (meaning' r c k.connected noResolve extended)) (hk : k.beforeConnection = true)
    (hp : k.process = .notAsked) (set : CompiledSet) :
    (set.carefulWith windows meaning q c k noResolve extended).Below
      (set.verdictWith windows meaning' c k.connected noResolve extended).verdict := by
  rw [CompiledSet.verdictWith_eq_any]
  unfold CompiledSet.carefulWith CompiledSet.verdicts
  refine Verdict.below_any_forall₂ ?_
  rw [List.cons_append, List.cons_append]
  refine List.Forall₂.cons ?_ (List.rel_append ?_ ?_)
  · rw [CompiledSet.domainHit_isSome, CompiledSet.domainHit_isSome]
    exact names_below h _ _
  · rw [List.forall₂_map_left_iff, List.forall₂_map_right_iff, List.forall₂_same]
    exact fun e _ => e.2.matcher.carefulWith_below h hset _ _ hk hp
  · exact .cons (set.asnPart_below h hk) (.cons (set.ipPart_below h hk .v4)
      (.cons (set.ipPart_below h hk .v6) .nil))

theorem Env.carefulMeaning_below (env : Env) (h : Follows c q) (n : ℕ) :
    ∀ r (k : Knowledge) noResolve extended, k.beforeConnection = true →
      k.process = .notAsked → (env.carefulMeaning c n r q k noResolve extended).Below
        (env.meaning n r c k.connected noResolve extended) := by
  induction n with
  | zero => exact fun _ _ _ _ _ _ => Verdict.Below.refl _
  | succ n ih => exact fun r k _ _ hk hp => (env.sets r).carefulWith_below h ih hk hp

end

/-- **What a matcher decides of a query, misses that the connection takes back apart, it decides of
the connection.** -/
theorem Matcher.careful_below (env : Env) {c q : SessionInfo} (h : Follows c q) {k : Knowledge}
    (hk : k.beforeConnection = true) (hp : k.process = .notAsked) (noResolve extended : Bool)
    (m : Matcher) : (m.careful env q c k noResolve extended).Below
      (m.verdict env c k.connected noResolve extended) :=
  m.carefulWith_below h (env.carefulMeaning_below h _) noResolve extended hk hp

/-! ### Connections without names of their own -/

section

variable {windows : Bool} {meaning meaning' : SetMeaning} {c q : SessionInfo}

theorem Matcher.carefulWith_silent (hc : c.connectionNames = [])
    (hset : ∀ r k noResolve extended,
      meaning r q k noResolve extended = meaning' r q k noResolve extended) (m : Matcher) :
    ∀ (k : Knowledge) (noResolve extended : Bool),
      m.carefulWith windows meaning q c k noResolve extended =
        m.verdictWith windows meaning' q k noResolve extended := by
  induction m using Matcher.rules with
  | leaf m hm =>
    intro k noResolve extended
    have htest : (m.nameTest.any c.connectionNames.any) = false := by
      rw [hc]
      cases m.nameTest <;> rfl
    rw [Matcher.carefulWith_leaf hm, htest, Bool.and_false, guarded_false]
    cases m <;> first | rfl | cases hm
  | set r =>
    intro k noResolve extended
    rw [Matcher.verdictWith_set, ← hset]
    rfl
  | and subs ih =>
    intro k noResolve extended
    rw [Matcher.verdictWith_and]
    unfold Matcher.carefulWith
    rw [carefulsWith_eq_map, List.map_congr_left fun sub hsub => ?_]
    rw [sub.carefulWith_eq, sub.verdictWith_eq]
    exact ih sub hsub ..
  | or subs ih =>
    intro k noResolve extended
    rw [Matcher.verdictWith_or]
    unfold Matcher.carefulWith
    rw [carefulsWith_eq_map, List.map_congr_left fun sub hsub => ?_]
    rw [sub.carefulWith_eq, sub.verdictWith_eq]
    exact ih sub hsub ..
  | not sub ih =>
    intro k noResolve extended
    rw [Matcher.verdictWith_not, sub.verdictWith_eq]
    unfold Matcher.carefulWith
    rw [sub.carefulWith_eq, ih]

theorem Env.carefulMeaning_silent (env : Env) (hc : c.connectionNames = []) (n : ℕ) :
    ∀ r k noResolve extended, env.carefulMeaning c n r q k noResolve extended =
      env.meaning n r q k noResolve extended := by
  induction n with
  | zero => exact fun _ _ _ _ => rfl
  | succ n ih =>
    intro r k noResolve extended
    unfold Env.meaning Env.carefulMeaning
    rw [CompiledSet.verdictWith_eq_any]
    unfold CompiledSet.carefulWith CompiledSet.verdicts
    rw [hc, List.any_nil, Bool.and_false, guarded_false,
      List.map_congr_left fun e _ => Matcher.carefulWith_silent hc ih e.2.matcher ..]

end

/-- **For a connection without an SNI and an HTTP host the careful verdict is the verdict.** -/
theorem Matcher.careful_silent (env : Env) {c q : SessionInfo} (hc : c.connectionNames = [])
    (k : Knowledge) (noResolve extended : Bool) (m : Matcher) :
    m.careful env q c k noResolve extended = m.verdict env q k noResolve extended :=
  m.carefulWith_silent hc (env.carefulMeaning_silent hc _) k noResolve extended

end Rurge
