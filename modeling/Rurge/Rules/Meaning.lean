import Rurge.Rules.Set

/-!
# What an evaluation says

The verdict of a matcher as a function of the session and of what the evaluation knows, with no
state in between: `AND` is `Verdict.all` of its parts, `OR` is `Verdict.any`, a set is the first of
its parts that matches.  The evaluation of the program refines it: `Matcher.eval_verdict` says that
it gives this verdict from every state, `Matcher.eval_knowledge` that it leaves what it knows as it
was.

* Induction over matchers is `Matcher.rules`, with one case for all the leaves.
* `Matcher.verdict_not_needsX` say which knowledge rules out which question.
-/

namespace Rurge

/-! ### Induction over matchers -/

/-- Neither a logical rule nor a set. -/
def Matcher.isLeaf : Matcher → Bool
  | .and _ | .or _ | .not _ | .set _ => false
  | _ => true

/-- What is true of every leaf and of every set, and of a logical rule when it is of its parts. -/
structure Matcher.Closed (P : Matcher → Prop) : Prop where
  leaf : ∀ m, m.isLeaf = true → P m
  set : ∀ r, P (.set r)
  and : ∀ subs : List CompiledSubRule, (∀ sub ∈ subs, P sub.matcher) → P (.and subs)
  or : ∀ subs : List CompiledSubRule, (∀ sub ∈ subs, P sub.matcher) → P (.or subs)
  not : ∀ sub : CompiledSubRule, P sub.matcher → P (.not sub)

mutual

theorem Matcher.Closed.all {P : Matcher → Prop} (h : Closed P) : ∀ m, P m
  | .domain _ | .domainSuffix _ | .domainKeyword _ | .domainWildcard _ | .ipCidr _ | .ipCidr6 _
  | .geoIp _ | .geoIpUnknown | .ipAsn _ | .ipAsnUnknown | .userAgent _ | .urlRegex _
  | .processName _ | .destPort _ | .srcPort _ | .inPort _ | .srcIp _ | .protocol _
  | .hostnameType _ | .subnet _ | .unsupported _ | .never | .final => h.leaf _ rfl
  | .set r => h.set r
  | .and subs => h.and subs (h.list subs)
  | .or subs => h.or subs (h.list subs)
  | .not sub => h.not sub (h.sub sub)

theorem Matcher.Closed.sub {P : Matcher → Prop} (h : Closed P) :
    ∀ sub : CompiledSubRule, P sub.matcher
  | .mk m _ _ _ => h.all m

theorem Matcher.Closed.list {P : Matcher → Prop} (h : Closed P) :
    ∀ subs : List CompiledSubRule, ∀ sub ∈ subs, P sub.matcher
  | [], _, hsub => absurd hsub List.not_mem_nil
  | sub :: subs, _, hsub =>
    (List.mem_cons.1 hsub).elim (fun e => e ▸ h.sub sub) (h.list subs _)

end

/-- Induction over matchers. -/
theorem Matcher.rules {P : Matcher → Prop} (leaf : ∀ m, m.isLeaf = true → P m)
    (set : ∀ r, P (.set r))
    (and : ∀ subs : List CompiledSubRule, (∀ sub ∈ subs, P sub.matcher) → P (.and subs))
    (or : ∀ subs : List CompiledSubRule, (∀ sub ∈ subs, P sub.matcher) → P (.or subs))
    (not : ∀ sub : CompiledSubRule, P sub.matcher → P (.not sub)) (m : Matcher) : P m :=
  Matcher.Closed.all ⟨leaf, set, and, or, not⟩ m

/-! ### The verdict of a matcher -/

/-- The verdict of a set, by its handle. -/
abbrev SetMeaning := SetRef → SessionInfo → Knowledge → Bool → Bool → Verdict

/-- The verdict of an address rule. -/
def onTarget (s : SessionInfo) (k : Knowledge) (noResolve : Bool) (family : Family)
    (test : IpAddr → Bool) : Verdict :=
  match targetIp s k noResolve family with
  | .ok ip => .ofBool (test ip)
  | .error v => v

/-- What the rules of all families find of a session: they wait for the connection, they wait for
the addresses of a name, or each family has an address to test or none. -/
theorem targetIp_cases (s : SessionInfo) (k : Knowledge) :
    (∀ noResolve family, targetIp s k noResolve family = .error .needsConnection) ∨
    (∀ noResolve family, targetIp s k noResolve family =
      .error (if noResolve then .noMatch else .needsResolve)) ∨
    ∀ family,
      (∃ ip, family.admits ip = true ∧ ∀ noResolve, targetIp s k noResolve family = .ok ip) ∨
      ∀ noResolve, targetIp s k noResolve family = .error .noMatch := by
  unfold targetIp
  cases hip : s.dstHost.asIp with
  | some ip =>
    refine Or.inr (Or.inr fun family => ?_)
    cases hadm : family.admits ip with
    | true => exact Or.inl ⟨ip, hadm, fun _ => by simp [hadm]⟩
    | false => exact Or.inr fun _ => by simp [hadm]
  | none =>
    cases hb : k.beforeConnection with
    | true => exact Or.inl fun _ _ => rfl
    | false =>
      cases hr : k.resolved with
      | none => exact Or.inr (Or.inl fun _ _ => rfl)
      | some r =>
        refine Or.inr (Or.inr fun family => ?_)
        cases hpick : family.pick r with
        | none => exact Or.inr fun _ => by simp [hpick]
        | some ip =>
          refine Or.inl ⟨ip, ?_, fun _ => by simp [hpick]⟩
          cases family with
          | v4 =>
            obtain ⟨a, -, rfl⟩ := Option.map_eq_some_iff.1 hpick
            rfl
          | v6 =>
            obtain ⟨a, -, rfl⟩ := Option.map_eq_some_iff.1 hpick
            rfl
          | any => rfl

/-- One set deeper. -/
def Knowledge.deeper (k : Knowledge) : Knowledge := { k with setDepth := k.setDepth + 1 }

mutual

def Matcher.verdictWith (windows : Bool) (meaning : SetMeaning) (s : SessionInfo) (k : Knowledge)
    (noResolve extended : Bool) (m : Matcher) : Verdict :=
  if k.beforeConnection && m.needsTheConnection then .needsConnection
  else
    match m with
    | .domain d => .ofBool ((domainTargets s extended).any (· == d))
    | .domainSuffix d => .ofBool ((domainTargets s extended).any (isSuffix · d))
    | .domainKeyword w => .ofBool ((domainTargets s extended).any (Str.containsStr w))
    | .domainWildcard g => .ofBool ((domainTargets s extended).any g.isMatch)
    | .ipCidr net => onTarget s k noResolve .v4 (IpNetAny.v4 net).contains
    | .ipCidr6 net => onTarget s k noResolve .v6 (IpNetAny.v6 net).contains
    | .geoIp code => onTarget s k noResolve .any (k.geo.country · == .known code)
    | .geoIpUnknown => onTarget s k noResolve .any (k.geo.country · == .unknown)
    | .ipAsn asn => onTarget s k noResolve .any (k.geo.asn · == .known asn)
    | .ipAsnUnknown => onTarget s k noResolve .any (k.geo.asn · == .unknown)
    | .userAgent g => .ofBool (s.userAgent.any g.isMatch)
    | .urlRegex p => .ofBool (s.url.any (urlMatches p s extended))
    | .processName pp => processVerdict windows pp s k.process
    | .destPort p => .ofBool (p.isMatch s.dstPort)
    | .srcPort p => .ofBool (p.isMatch s.src.port)
    | .inPort p => .ofBool (p.isMatch s.inPort)
    | .srcIp net => .ofBool (net.contains s.src.ip)
    | .protocol p => .ofBool (protocolMatches p s)
    | .hostnameType t => .ofBool (s.hostnameType == t)
    | .subnet e => .ofBool (k.network.any fun n => e.isMatch n.1 n.2)
    | .and subs => .all (verdictsWith windows meaning s k subs)
    | .or subs => .any (verdictsWith windows meaning s k subs)
    | .not sub => (sub.verdictWith windows meaning s k).not
    | .set r =>
      if MAX_NESTING ≤ k.setDepth then .noMatch else meaning r s k.deeper noResolve extended
    | .unsupported _ => .noMatch
    | .never => .noMatch
    | .final => .matched

def CompiledSubRule.verdictWith (windows : Bool) (meaning : SetMeaning) (s : SessionInfo)
    (k : Knowledge) (sub : CompiledSubRule) : Verdict :=
  match sub with
  | .mk matcher noResolve extended _ => matcher.verdictWith windows meaning s k noResolve extended

def verdictsWith (windows : Bool) (meaning : SetMeaning) (s : SessionInfo) (k : Knowledge)
    (subs : List CompiledSubRule) : List Verdict :=
  match subs with
  | [] => []
  | sub :: subs => sub.verdictWith windows meaning s k :: verdictsWith windows meaning s k subs

end

section

variable {windows : Bool} {meaning : SetMeaning} {evalSet : SetEval} {s : SessionInfo}
  {k : Knowledge} {noResolve extended : Bool}

theorem CompiledSubRule.verdictWith_eq (sub : CompiledSubRule) :
    sub.verdictWith windows meaning s k =
      sub.matcher.verdictWith windows meaning s k sub.noResolve sub.extended := by
  cases sub; rfl

theorem CompiledSubRule.evalWith_eq (sub : CompiledSubRule) (ctx : EvalCtx) :
    sub.evalWith windows evalSet s ctx =
      sub.matcher.evalWith windows evalSet s ctx sub.noResolve sub.extended := by
  cases sub; rfl

theorem verdictsWith_eq_map (subs : List CompiledSubRule) :
    verdictsWith windows meaning s k subs = subs.map (·.verdictWith windows meaning s k) := by
  induction subs with
  | nil => rfl
  | cons sub subs ih => rw [verdictsWith, ih, List.map_cons]

@[simp] theorem Matcher.verdictWith_and (subs : List CompiledSubRule) :
    Matcher.verdictWith windows meaning s k noResolve extended (.and subs) =
      .all (subs.map (·.verdictWith windows meaning s k)) := by
  simp [Matcher.verdictWith, Matcher.needsTheConnection, verdictsWith_eq_map]

@[simp] theorem Matcher.verdictWith_or (subs : List CompiledSubRule) :
    Matcher.verdictWith windows meaning s k noResolve extended (.or subs) =
      .any (subs.map (·.verdictWith windows meaning s k)) := by
  simp [Matcher.verdictWith, Matcher.needsTheConnection, verdictsWith_eq_map]

@[simp] theorem Matcher.verdictWith_not (sub : CompiledSubRule) :
    Matcher.verdictWith windows meaning s k noResolve extended (.not sub) =
      (sub.verdictWith windows meaning s k).not := by
  simp [Matcher.verdictWith, Matcher.needsTheConnection]

@[simp] theorem Matcher.verdictWith_set (r : SetRef) :
    Matcher.verdictWith windows meaning s k noResolve extended (.set r) =
      if MAX_NESTING ≤ k.setDepth then .noMatch else meaning r s k.deeper noResolve extended := by
  simp [Matcher.verdictWith, Matcher.needsTheConnection]

end

/-! ### The verdict of a set -/

namespace CompiledSet

/-- What a part of a set says: the number of the line that matches, or its verdict. -/
abbrev Part := ℕ ⊕ Verdict

/-- The parts the linear lines are. -/
def linearParts (windows : Bool) (meaning : SetMeaning) (s : SessionInfo) (k : Knowledge)
    (noResolve extended : Bool) (linear : List (ℕ × CompiledSubRule)) : List Part :=
  linear.map fun e =>
    match e.2.matcher.verdictWith windows meaning s k (noResolve || e.2.noResolve)
        (extended || e.2.extended) with
    | .matched => .inl e.1
    | v => .inr v

/-- The part the AS numbers are. -/
def asnPart (set : CompiledSet) (s : SessionInfo) (k : Knowledge) (noResolve : Bool) : Part :=
  if set.asns.isEmpty then .inr .noMatch
  else
    match targetIp s k (noResolve || !set.asnsResolve) .any with
    | .ok ip =>
      match k.geo.asn ip with
      | .known asn =>
        match set.asns.lookup asn with
        | some i => .inl i
        | none => .inr .noMatch
      | _ => .inr .noMatch
    | .error v => .inr v

/-- The part the networks of one family are. -/
def ipPart (set : CompiledSet) (s : SessionInfo) (k : Knowledge) (noResolve : Bool)
    (family : Family) : Part :=
  if set.ips.isEmpty then .inr .noMatch
  else
    match targetIp s k (noResolve || !set.ipsResolve) family with
    | .ok ip =>
      match set.ips.lookup ip with
      | some i => .inl i
      | none => .inr .noMatch
    | .error v => .inr v

/-- The parts beside the domain index, in the order they are asked. -/
def parts (windows : Bool) (meaning : SetMeaning) (set : CompiledSet) (s : SessionInfo)
    (k : Knowledge) (noResolve extended : Bool) : List Part :=
  linearParts windows meaning s k noResolve extended set.linear ++
    [set.asnPart s k noResolve, set.ipPart s k noResolve .v4, set.ipPart s k noResolve .v6]

/-- The first part that matches, or what they all wait for. -/
def ofParts (set : CompiledSet) (parts : List Part) : SetVerdict :=
  match parts.findSome? Sum.getLeft? with
  | some i => set.hit i
  | none => ⟨(stillNeeds (Needs.of (parts.filterMap Sum.getRight?))).getD .noMatch, none⟩

def verdictWith (windows : Bool) (meaning : SetMeaning) (set : CompiledSet) (s : SessionInfo)
    (k : Knowledge) (noResolve extended : Bool) : SetVerdict :=
  match set.domainHit s extended with
  | some h => set.hit h.entry
  | none => set.ofParts (parts windows meaning set s k noResolve extended)

end CompiledSet

/-- What a handle says when at most `n` more sets may nest. -/
def Env.meaning (env : Env) : ℕ → SetMeaning
  | 0 => fun _ _ _ _ _ => .noMatch
  | n + 1 => fun r s k noResolve extended =>
    ((env.sets r).verdictWith env.windows (env.meaning n) s k noResolve extended).verdict

/-- **What a matcher says of a session**, knowing `k`. -/
def Matcher.verdict (env : Env) (s : SessionInfo) (k : Knowledge) (noResolve extended : Bool)
    (m : Matcher) : Verdict :=
  m.verdictWith env.windows (env.meaning k.depthLeft) s k noResolve extended

/-- **What a set says of a session**, knowing `k`. -/
def CompiledSet.verdict (env : Env) (set : CompiledSet) (s : SessionInfo) (k : Knowledge)
    (noResolve extended : Bool) : SetVerdict :=
  set.verdictWith env.windows (env.meaning k.depthLeft) s k noResolve extended

/-! ### The evaluation gives this verdict -/

theorem Needs.foldl_note (vs us : List Verdict) :
    vs.foldl Needs.note (Needs.of us) = Needs.of (us ++ vs) := by
  induction vs generalizing us with
  | nil => simp
  | cons v vs ih =>
    have hstep : (Needs.of us).note v = Needs.of (us ++ [v]) := by
      cases v <;> simp [Needs.note, Needs.of]
    rw [List.foldl_cons, hstep, ih, List.append_assoc, List.singleton_append]

theorem Needs.note_of (us : List Verdict) (v : Verdict) :
    (Needs.of us).note v = Needs.of (us ++ [v]) :=
  Needs.foldl_note [v] us

/-- `r` is the outcome of an evaluation from `ctx` that says `v`: what is known stays. -/
structure Says (ctx : EvalCtx) (r : Verdict × EvalCtx) (v : Verdict) : Prop where
  verdict : r.1 = v
  knowledge : r.2.toKnowledge = ctx.toKnowledge

theorem Says.rfl (ctx : EvalCtx) (v : Verdict) : Says ctx (v, ctx) v := ⟨Eq.refl _, Eq.refl _⟩

/-- A set is evaluated as `meaning` says. -/
def Refines (evalSet : SetEval) (meaning : SetMeaning) : Prop :=
  ∀ r s ctx noResolve extended,
    (evalSet r s ctx noResolve extended).1.2.verdict =
        meaning r s ctx.toKnowledge noResolve extended ∧
      (evalSet r s ctx noResolve extended).2.toKnowledge = ctx.toKnowledge

/-- A set that was evaluated one deeper is left again. -/
theorem EvalCtx.shallower {ctx : EvalCtx} {k : Knowledge} (h : ctx.toKnowledge = k.deeper) :
    { ctx.toKnowledge with setDepth := ctx.setDepth - 1 } = k := by
  rw [h]; rfl

theorem EvalCtx.says_inBranches {ctx : EvalCtx} {eval : EvalCtx → Verdict × EvalCtx} {v : Verdict}
    (h : Says { ctx with subHit := none } (eval { ctx with subHit := none }) v) :
    Says ctx (ctx.inBranches eval) v := by
  unfold EvalCtx.inBranches
  dsimp only
  split_ifs
  · exact ⟨h.verdict, h.knowledge⟩
  · exact ⟨h.verdict, h.knowledge⟩

theorem says_onTargetIp {s : SessionInfo} {ctx : EvalCtx} {noResolve : Bool} {family : Family}
    {test : IpAddr → Verdict × EvalCtx} {holds : IpAddr → Bool}
    (h : ∀ ip, Says ctx (test ip) (.ofBool (holds ip))) :
    Says ctx (onTargetIp s ctx noResolve family test)
      (onTarget s ctx.toKnowledge noResolve family holds) := by
  unfold onTargetIp onTarget
  cases targetIp s ctx.toKnowledge noResolve family with
  | ok ip => exact h ip
  | error v => exact Says.rfl ctx v

theorem EvalCtx.country_spec (ctx : EvalCtx) (ip : IpAddr) :
    (ctx.country ip).1 = ctx.geo.country ip ∧
      (ctx.country ip).2.toKnowledge = ctx.toKnowledge := ⟨Memo.ask_fst _ _, rfl⟩

theorem EvalCtx.asn_spec (ctx : EvalCtx) (ip : IpAddr) :
    (ctx.asn ip).1 = ctx.geo.asn ip ∧
      (ctx.asn ip).2.toKnowledge = ctx.toKnowledge := ⟨Memo.ask_fst _ _, rfl⟩

section

variable {windows : Bool} {meaning : SetMeaning} {evalSet : SetEval} {s : SessionInfo}

theorem says_leaf {m : Matcher} (hm : m.isLeaf = true) (ctx : EvalCtx) (noResolve extended : Bool) :
    Says ctx (m.evalWith windows evalSet s ctx noResolve extended)
      (m.verdictWith windows meaning s ctx.toKnowledge noResolve extended) := by
  unfold Matcher.evalWith Matcher.verdictWith
  by_cases hc : (ctx.beforeConnection && m.needsTheConnection) = true
  · rw [if_pos hc, if_pos hc]
    exact Says.rfl ctx _
  · rw [if_neg hc, if_neg hc]
    cases m with
    | and subs => cases hm
    | or subs => cases hm
    | not sub => cases hm
    | set r => cases hm
    | ipCidr net => exact says_onTargetIp fun ip => Says.rfl ctx _
    | ipCidr6 net => exact says_onTargetIp fun ip => Says.rfl ctx _
    | geoIp code =>
      exact says_onTargetIp fun ip => ⟨by rw [(ctx.country_spec ip).1], (ctx.country_spec ip).2⟩
    | geoIpUnknown =>
      exact says_onTargetIp fun ip => ⟨by rw [(ctx.country_spec ip).1], (ctx.country_spec ip).2⟩
    | ipAsn asn =>
      exact says_onTargetIp fun ip => ⟨by rw [(ctx.asn_spec ip).1], (ctx.asn_spec ip).2⟩
    | ipAsnUnknown =>
      exact says_onTargetIp fun ip => ⟨by rw [(ctx.asn_spec ip).1], (ctx.asn_spec ip).2⟩
    | _ => exact ⟨rfl, rfl⟩

/-- The loop of an `AND`, with what the parts before left to wait for. -/
theorem says_evalAnd {subs : List CompiledSubRule}
    (h : ∀ sub ∈ subs, ∀ ctx : EvalCtx, Says ctx (sub.evalWith windows evalSet s ctx)
      (sub.verdictWith windows meaning s ctx.toKnowledge))
    (ctx : EvalCtx) (us : List Verdict) (hus : Verdict.noMatch ∉ us) :
    Says ctx (evalAnd windows evalSet s ctx (.of us) subs)
      (.all (us ++ subs.map (·.verdictWith windows meaning s ctx.toKnowledge))) := by
  induction subs generalizing ctx us with
  | nil => exact ⟨by simp [evalAnd, Verdict.all, hus], rfl⟩
  | cons sub subs ih =>
    obtain ⟨hv, hk⟩ := h sub List.mem_cons_self ctx
    unfold evalAnd
    dsimp only
    split_ifs with hmiss
    · refine ⟨?_, hk⟩
      rw [hmiss]
      exact (Verdict.all_eq_noMatch.2 (by simp [← hv, hmiss])).symm
    · rw [Needs.note_of]
      obtain ⟨hv', hk'⟩ := ih (fun sub' hsub' => h sub' (List.mem_cons_of_mem _ hsub'))
        (sub.evalWith windows evalSet s ctx).2
        (us ++ [(sub.evalWith windows evalSet s ctx).1]) (by simp [hus, Ne.symm hmiss])
      exact ⟨by rw [hv', hk, hv]; simp, hk'.trans hk⟩

/-- The loop of an `OR`. -/
theorem says_evalOr {subs : List CompiledSubRule}
    (h : ∀ sub ∈ subs, ∀ ctx : EvalCtx, Says ctx (sub.evalWith windows evalSet s ctx)
      (sub.verdictWith windows meaning s ctx.toKnowledge))
    (ctx : EvalCtx) (us : List Verdict) (hus : Verdict.matched ∉ us) :
    Says ctx (evalOr windows evalSet s ctx (.of us) subs)
      (.any (us ++ subs.map (·.verdictWith windows meaning s ctx.toKnowledge))) := by
  induction subs generalizing ctx us with
  | nil => exact ⟨by simp [evalOr, Verdict.any, hus], rfl⟩
  | cons sub subs ih =>
    obtain ⟨hv, hk⟩ := h sub List.mem_cons_self ctx
    unfold evalOr
    dsimp only
    split_ifs with hhit
    · refine ⟨?_, hk⟩
      rw [hhit]
      exact (Verdict.any_eq_matched.2 (by simp [← hv, hhit])).symm
    · rw [Needs.note_of]
      obtain ⟨hv', hk'⟩ := ih (fun sub' hsub' => h sub' (List.mem_cons_of_mem _ hsub'))
        (sub.evalWith windows evalSet s ctx).2
        (us ++ [(sub.evalWith windows evalSet s ctx).1]) (by simp [hus, Ne.symm hhit])
      exact ⟨by rw [hv', hk, hv]; simp, hk'.trans hk⟩

/-- A matcher is evaluated as its verdict says when the sets it refers to are. -/
theorem Matcher.evalWith_spec (windows : Bool) (s : SessionInfo) (href : Refines evalSet meaning)
    (m : Matcher) :
    ∀ (ctx : EvalCtx) (noResolve extended : Bool),
      Says ctx (m.evalWith windows evalSet s ctx noResolve extended)
        (m.verdictWith windows meaning s ctx.toKnowledge noResolve extended) := by
  induction m using Matcher.rules with
  | leaf m hm => exact says_leaf hm
  | set r =>
    intro ctx noResolve extended
    rw [Matcher.verdictWith_set]
    simp only [Matcher.evalWith, Matcher.needsTheConnection, Bool.and_false, Bool.false_eq_true,
      if_false]
    obtain ⟨hv, hk⟩ := href r s { ctx with setDepth := ctx.setDepth + 1 } noResolve extended
    split_ifs with hdeep hhit
    · exact Says.rfl ctx _
    · exact ⟨hhit.symm.trans hv, EvalCtx.shallower hk⟩
    · exact ⟨hv, EvalCtx.shallower hk⟩
  | and subs ih =>
    intro ctx noResolve extended
    rw [Matcher.verdictWith_and]
    simp only [Matcher.evalWith, Matcher.needsTheConnection, Bool.and_false, Bool.false_eq_true,
      if_false]
    apply EvalCtx.says_inBranches
    exact says_evalAnd (fun sub hsub ctx => by
      rw [sub.evalWith_eq, sub.verdictWith_eq]; exact ih sub hsub ctx _ _) _ [] (by simp)
  | or subs ih =>
    intro ctx noResolve extended
    rw [Matcher.verdictWith_or]
    simp only [Matcher.evalWith, Matcher.needsTheConnection, Bool.and_false, Bool.false_eq_true,
      if_false]
    apply EvalCtx.says_inBranches
    exact says_evalOr (fun sub hsub ctx => by
      rw [sub.evalWith_eq, sub.verdictWith_eq]; exact ih sub hsub ctx _ _) _ [] (by simp)
  | not sub ih =>
    intro ctx noResolve extended
    rw [Matcher.verdictWith_not]
    simp only [Matcher.evalWith, Matcher.needsTheConnection, Bool.and_false, Bool.false_eq_true,
      if_false]
    cases sub with
    | mk m noResolve' extended' raw =>
      obtain ⟨hv, hk⟩ := ih { ctx with subHit := none } noResolve' extended'
      exact ⟨congrArg Verdict.not hv, hk⟩

end

/-! ### Sets -/

namespace CompiledSet

/-- The parts asked one after the other: the first that matches, or what all of them said. -/
def scan (us : List Verdict) (parts : List Part) : ℕ ⊕ List Verdict :=
  match parts.findSome? Sum.getLeft? with
  | some i => .inl i
  | none => .inr (us ++ parts.filterMap Sum.getRight?)

@[simp] theorem scan_nil (us : List Verdict) : scan us [] = .inr us := by simp [scan]

@[simp] theorem scan_cons_inl (us : List Verdict) (i : ℕ) (parts : List Part) :
    scan us (.inl i :: parts) = .inl i := rfl

@[simp] theorem scan_cons_inr (us : List Verdict) (v : Verdict) (parts : List Part) :
    scan us (.inr v :: parts) = scan (us ++ [v]) parts := by
  simp [scan, List.findSome?_cons]

theorem scan_append (us : List Verdict) (ps qs : List Part) :
    scan us (ps ++ qs) = (scan us ps).elim .inl (scan · qs) := by
  induction ps generalizing us with
  | nil => simp
  | cons p ps ih =>
    cases p with
    | inl i => simp
    | inr v => simp [ih]

theorem ofParts_eq (set : CompiledSet) (ps : List Part) :
    set.ofParts ps = (scan [] ps).elim set.hit
      fun vs => ⟨(stillNeeds (Needs.of vs)).getD .noMatch, none⟩ := by
  unfold ofParts scan
  cases ps.findSome? Sum.getLeft? <;> rfl

/-- The program keeps of the verdicts what they wait for. -/
def ofScan : ℕ ⊕ List Verdict → ℕ ⊕ Needs := Sum.map id Needs.of

section

variable {windows : Bool} {meaning : SetMeaning} {evalSet : SetEval} {s : SessionInfo}

theorem evalLinear_spec (windows : Bool) (s : SessionInfo) (href : Refines evalSet meaning)
    (noResolve extended : Bool)
    (linear : List (ℕ × CompiledSubRule)) (ctx : EvalCtx) (us : List Verdict) :
    (evalLinear windows evalSet s noResolve extended ctx (.of us) linear).1 =
        ofScan (scan us
          (linearParts windows meaning s ctx.toKnowledge noResolve extended linear)) ∧
      (evalLinear windows evalSet s noResolve extended ctx (.of us) linear).2.toKnowledge =
        ctx.toKnowledge := by
  induction linear generalizing ctx us with
  | nil => exact ⟨by simp [evalLinear, linearParts, ofScan], rfl⟩
  | cons e linear ih =>
    obtain ⟨i, rule⟩ := e
    obtain ⟨hv, hk⟩ := rule.matcher.evalWith_spec windows s href ctx
      (noResolve || rule.noResolve) (extended || rule.extended)
    unfold evalLinear
    dsimp only
    split_ifs with hhit
    · refine ⟨?_, hk⟩
      simp [linearParts, ← hv, hhit, ofScan]
    · rw [Needs.note_of]
      obtain ⟨hv', hk'⟩ := ih (rule.matcher.evalWith windows evalSet s ctx
        (noResolve || rule.noResolve) (extended || rule.extended)).2 (us ++ [(rule.matcher.evalWith
          windows evalSet s ctx (noResolve || rule.noResolve) (extended || rule.extended)).1])
      refine ⟨?_, hk'.trans hk⟩
      rw [hv', hk]
      have hpart : linearParts windows meaning s ctx.toKnowledge noResolve extended
          ((i, rule) :: linear) = .inr (rule.matcher.evalWith windows evalSet s ctx
            (noResolve || rule.noResolve) (extended || rule.extended)).1 ::
          linearParts windows meaning s ctx.toKnowledge noResolve extended linear := by
        rw [hv] at hhit ⊢
        simp only [linearParts, List.map_cons]
      rw [hpart, scan_cons_inr]

theorem evalAsns_spec (set : CompiledSet) (noResolve : Bool) (ctx : EvalCtx)
    (us : List Verdict) :
    (set.evalAsns s noResolve ctx (.of us)).1 =
        ofScan (scan us [set.asnPart s ctx.toKnowledge noResolve]) ∧
      (set.evalAsns s noResolve ctx (.of us)).2.toKnowledge = ctx.toKnowledge := by
  have hmiss : ofScan (scan us [.inr .noMatch]) = .inr (Needs.of us) := by
    simp [ofScan, ← Needs.note_of, Needs.note]
  unfold evalAsns asnPart
  split_ifs
  · exact ⟨hmiss.symm, rfl⟩
  · cases targetIp s ctx.toKnowledge (noResolve || !set.asnsResolve) .any with
    | error v => exact ⟨by simp [ofScan, Needs.note_of], rfl⟩
    | ok ip =>
      dsimp only
      obtain ⟨hasn, hk⟩ := ctx.asn_spec ip
      rw [hasn]
      cases ctx.geo.asn ip with
      | notLoaded => exact ⟨hmiss.symm, hk⟩
      | unknown => exact ⟨hmiss.symm, hk⟩
      | known asn =>
        dsimp only
        cases set.asns.lookup asn with
        | none => exact ⟨hmiss.symm, hk⟩
        | some i => exact ⟨by simp [ofScan], hk⟩

theorem evalIps_spec (set : CompiledSet) (noResolve : Bool) (k : Knowledge) (family : Family)
    (us : List Verdict) (hne : set.ips.isEmpty = false) :
    set.evalIps s noResolve k family (.of us) =
      ofScan (scan us [set.ipPart s k noResolve family]) := by
  have hmiss : ofScan (scan us [.inr .noMatch]) = .inr (Needs.of us) := by
    simp [ofScan, ← Needs.note_of, Needs.note]
  unfold evalIps ipPart
  rw [hne]
  cases targetIp s k (noResolve || !set.ipsResolve) family with
  | error v => simp [ofScan, Needs.note_of]
  | ok ip =>
    dsimp only
    cases set.ips.lookup ip with
    | none => exact hmiss.symm
    | some i => simp [ofScan]

theorem evalIpsBoth_spec (set : CompiledSet) (noResolve : Bool) (k : Knowledge)
    (us : List Verdict) :
    set.evalIpsBoth s noResolve k (.of us) = ofScan (scan us
      [set.ipPart s k noResolve .v4, set.ipPart s k noResolve .v6]) := by
  unfold evalIpsBoth
  cases hne : set.ips.isEmpty with
  | true =>
    have hpart : ∀ family, set.ipPart s k noResolve family = .inr .noMatch := by
      intro family; simp [ipPart, hne]
    simp [hpart, ofScan, Needs.of]
  | false =>
    simp only [Bool.false_eq_true, if_false]
    rw [evalIps_spec set noResolve k .v4 us hne]
    cases h4 : set.ipPart s k noResolve .v4 with
    | inl i => simp [ofScan]
    | inr v =>
      simp only [scan_cons_inr, scan_nil]
      rw [show ofScan (.inr (us ++ [v])) = .inr (Needs.of (us ++ [v])) from rfl]
      exact evalIps_spec set noResolve k .v6 _ hne

/-- A set is evaluated as its verdict says when the sets its lines refer to are. -/
theorem evalWith_spec (windows : Bool) (s : SessionInfo) (href : Refines evalSet meaning)
    (set : CompiledSet) (ctx : EvalCtx) (noResolve extended : Bool) :
    (set.evalWith windows evalSet s ctx noResolve extended).1 =
        set.verdictWith windows meaning s ctx.toKnowledge noResolve extended ∧
      (set.evalWith windows evalSet s ctx noResolve extended).2.toKnowledge =
        ctx.toKnowledge := by
  unfold evalWith verdictWith
  cases set.domainHit s extended with
  | some h => exact ⟨rfl, rfl⟩
  | none =>
    dsimp only
    rw [ofParts_eq, parts, scan_append]
    obtain ⟨hv, hk⟩ := evalLinear_spec windows s href noResolve extended set.linear ctx []
    rw [Needs.of_nil] at hv hk
    generalize evalLinear windows evalSet s noResolve extended ctx .none set.linear = r at hv hk
    obtain ⟨r, ctx₁⟩ := r
    dsimp only at hv hk
    subst hv
    cases scan [] (linearParts windows meaning s ctx.toKnowledge noResolve extended
      set.linear) with
    | inl i => exact ⟨rfl, hk⟩
    | inr us =>
      rw [← hk]
      obtain ⟨hv', hk'⟩ := set.evalAsns_spec (s := s) noResolve ctx₁ us
      simp only [ofScan, Sum.map_inr, Sum.elim_inr]
      generalize set.evalAsns s noResolve ctx₁ (.of us) = r' at hv' hk'
      obtain ⟨r', ctx₂⟩ := r'
      dsimp only at hv' hk'
      subst hv'
      rw [← hk']
      cases set.asnPart s ctx₂.toKnowledge noResolve with
      | inl i => simp [ofScan]
      | inr v =>
        simp only [scan_cons_inr, scan_nil, ofScan, Sum.map_inr, evalIpsBoth_spec]
        cases scan (us ++ [v]) [set.ipPart s ctx₂.toKnowledge noResolve .v4,
          set.ipPart s ctx₂.toKnowledge noResolve .v6] with
        | inl i => exact ⟨rfl, rfl⟩
        | inr ws => exact ⟨rfl, rfl⟩

end

end CompiledSet

/-! ### The refinement -/

theorem Env.refines (env : Env) (n : ℕ) : Refines (env.evalSet n) (env.meaning n) := by
  induction n with
  | zero => exact fun r s ctx noResolve extended => ⟨rfl, rfl⟩
  | succ n ih =>
    intro r s ctx noResolve extended
    obtain ⟨hv, hk⟩ := (env.sets r).evalWith_spec env.windows s ih ctx noResolve extended
    exact ⟨congrArg SetVerdict.verdict hv, hk⟩

section

variable (env : Env) (s : SessionInfo) (ctx : EvalCtx) (noResolve extended : Bool)

/-- **The evaluation of a matcher gives its verdict.** -/
theorem Matcher.eval_verdict (m : Matcher) :
    (m.eval env s ctx noResolve extended).1 =
      m.verdict env s ctx.toKnowledge noResolve extended :=
  (m.evalWith_spec _ _ (env.refines _) ctx noResolve extended).verdict

/-- **The evaluation of a matcher leaves what is known as it was.** -/
theorem Matcher.eval_knowledge (m : Matcher) :
    (m.eval env s ctx noResolve extended).2.toKnowledge = ctx.toKnowledge :=
  (m.evalWith_spec _ _ (env.refines _) ctx noResolve extended).knowledge

/-- **The evaluation of a set gives its verdict, entry included.** -/
theorem CompiledSet.eval_verdict (set : CompiledSet) :
    (set.eval env s ctx noResolve extended).1 =
      set.verdict env s ctx.toKnowledge noResolve extended :=
  (set.evalWith_spec _ _ (env.refines _) ctx noResolve extended).1

end

/-! ### The verdict by the form of the matcher -/

/-- What a rule inside another one says: its own flags. -/
def CompiledSubRule.verdict (env : Env) (s : SessionInfo) (k : Knowledge) (sub : CompiledSubRule) :
    Verdict :=
  sub.matcher.verdict env s k sub.noResolve sub.extended

section

variable {env : Env} {s : SessionInfo} {k : Knowledge} {noResolve extended : Bool}

@[simp] theorem Knowledge.depthLeft_deeper (k : Knowledge) :
    k.deeper.depthLeft = k.depthLeft - 1 := by
  simp only [Knowledge.depthLeft, Knowledge.deeper]
  omega

@[simp] theorem Matcher.verdict_and (subs : List CompiledSubRule) :
    Matcher.verdict env s k noResolve extended (.and subs) =
      .all (subs.map (·.verdict env s k)) := by
  simp [Matcher.verdict, CompiledSubRule.verdict, CompiledSubRule.verdictWith_eq]

@[simp] theorem Matcher.verdict_or (subs : List CompiledSubRule) :
    Matcher.verdict env s k noResolve extended (.or subs) =
      .any (subs.map (·.verdict env s k)) := by
  simp [Matcher.verdict, CompiledSubRule.verdict, CompiledSubRule.verdictWith_eq]

@[simp] theorem Matcher.verdict_not (sub : CompiledSubRule) :
    Matcher.verdict env s k noResolve extended (.not sub) = (sub.verdict env s k).not := by
  simp [Matcher.verdict, CompiledSubRule.verdict, CompiledSubRule.verdictWith_eq]

theorem Matcher.verdict_set (r : SetRef) :
    Matcher.verdict env s k noResolve extended (.set r) =
      if MAX_NESTING ≤ k.setDepth then .noMatch
      else ((env.sets r).verdict env s k.deeper noResolve extended).verdict := by
  rw [Matcher.verdict, Matcher.verdictWith_set]
  split_ifs with h
  · rfl
  · obtain ⟨n, hn⟩ : ∃ n, k.depthLeft = n + 1 :=
      ⟨k.depthLeft - 1, by simp only [Knowledge.depthLeft]; omega⟩
    rw [CompiledSet.verdict, Knowledge.depthLeft_deeper, hn]
    rfl

/-- The part of a set that a linear line is. -/
theorem CompiledSet.verdict_eq (set : CompiledSet) :
    set.verdict env s k noResolve extended =
      match set.domainHit s extended with
      | some h => set.hit h.entry
      | none => set.ofParts (CompiledSet.parts env.windows (env.meaning k.depthLeft) set s k
          noResolve extended) := rfl

end

end Rurge
