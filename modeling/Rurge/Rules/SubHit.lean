import Rurge.Rules.EngineRuns

/-!
# The set hit a match leaves

The context of an evaluation has one place for the set that is part of why a rule matched; the sets
and logical rules of a tree write to it or put back what was there.  `Matcher.HitBy` says
what such a hit may name: a set that takes part in the match, with the line its own evaluation
reports.  `sub_hits` says that an evaluation that does not match leaves the place as it found it,
that what a match puts there is such a hit, and that a decision names no other.
-/

namespace Rurge

/-! ### Sets that take part in a match -/

/-- The set `r` takes part in the match of a tree: it matches, with the flags it is referred to by,
and so does every rule around it, none of them a `NOT`. -/
inductive Matcher.TakesPart (env : Env) (s : SessionInfo) (k : Knowledge) :
    Matcher → Bool → Bool → SetRef → Bool → Bool → Prop
  | set {r : SetRef} {noResolve extended : Bool}
      (hmatch : (Matcher.set r).verdict env s k noResolve extended = .matched) :
      TakesPart env s k (.set r) noResolve extended r noResolve extended
  | and {subs : List CompiledSubRule} {noResolve extended : Bool} {sub : CompiledSubRule}
      {r : SetRef} {noResolve' extended' : Bool} (hsub : sub ∈ subs)
      (hmatch : (Matcher.and subs).verdict env s k noResolve extended = .matched)
      (h : TakesPart env s k sub.matcher sub.noResolve sub.extended r noResolve' extended') :
      TakesPart env s k (.and subs) noResolve extended r noResolve' extended'
  | or {subs : List CompiledSubRule} {noResolve extended : Bool} {sub : CompiledSubRule}
      {r : SetRef} {noResolve' extended' : Bool} (hsub : sub ∈ subs)
      (hmatch : (Matcher.or subs).verdict env s k noResolve extended = .matched)
      (h : TakesPart env s k sub.matcher sub.noResolve sub.extended r noResolve' extended') :
      TakesPart env s k (.or subs) noResolve extended r noResolve' extended'

/-- The hit names a set that takes part in the match, and the line the set reports when it is
evaluated in that context by itself. -/
def Matcher.HitBy (env : Env) (s : SessionInfo) (k : Knowledge) (m : Matcher)
    (noResolve extended : Bool) (hit : SubRuleHit) : Prop :=
  ∃ r noResolve' extended', m.TakesPart env s k noResolve extended r noResolve' extended' ∧
    (env.sets r).name = hit.set ∧
      ∀ ctx : EvalCtx, ctx.toKnowledge = k.deeper →
        ((env.sets r).eval env s ctx noResolve' extended').1 = ⟨.matched, some hit.entry⟩

/-- What a match may leave where `found` was. -/
def Matcher.Leaves (env : Env) (s : SessionInfo) (k : Knowledge) (m : Matcher)
    (noResolve extended : Bool) (found left : Option SubRuleHit) : Prop :=
  left = found ∨ ∃ hit, left = some hit ∧ m.HitBy env s k noResolve extended hit

section

variable {env : Env} {s : SessionInfo} {k : Knowledge} {noResolve extended : Bool}

/-- The rule a set takes part in matches. -/
theorem Matcher.TakesPart.matched {m : Matcher} {r : SetRef} {noResolve' extended' : Bool}
    (h : m.TakesPart env s k noResolve extended r noResolve' extended') :
    m.verdict env s k noResolve extended = .matched := by
  cases h with
  | set hmatch => exact hmatch
  | and _ hmatch _ => exact hmatch
  | or _ hmatch _ => exact hmatch

/-- A set that matches reports a line. -/
theorem CompiledSet.verdict_entry {set : CompiledSet}
    (h : (set.verdict env s k noResolve extended).verdict = .matched) :
    set.verdict env s k noResolve extended =
      ⟨.matched, some ((set.verdict env s k noResolve extended).entry.getD [])⟩ := by
  rw [CompiledSet.verdict_eq] at h ⊢
  cases hdomain : set.domainHit s extended with
  | some d => rfl
  | none =>
    rw [hdomain] at h
    dsimp only at h ⊢
    unfold CompiledSet.ofParts at h ⊢
    split at h
    case h_1 => rfl
    case h_2 hfind =>
      dsimp only at h
      cases hneeds : stillNeeds (Needs.of ((CompiledSet.parts env.windows (env.meaning k.depthLeft)
          set s k noResolve extended).filterMap Sum.getRight?)) with
      | none =>
        rw [hneeds] at h
        cases h
      | some v =>
        rw [hneeds] at h
        obtain rfl : v = .matched := h
        exact absurd hneeds Verdict.stillNeeds_ne_matched

/-! ### One evaluation -/

/-- How a set that does not match leaves the hit. -/
def Quiet (evalSet : SetEval) : Prop :=
  ∀ r s (ctx : EvalCtx) noResolve extended,
    (evalSet r s ctx noResolve extended).1.2.verdict ≠ .matched →
      (evalSet r s ctx noResolve extended).2.subHit = ctx.subHit

/-- An evaluation that does not match leaves the hit as it found it. -/
def QuietRule (windows : Bool) (evalSet : SetEval) (s : SessionInfo) (m : Matcher) : Prop :=
  ∀ (ctx : EvalCtx) (noResolve extended : Bool),
    (m.evalWith windows evalSet s ctx noResolve extended).1 ≠ .matched →
      (m.evalWith windows evalSet s ctx noResolve extended).2.subHit = ctx.subHit

theorem EvalCtx.inBranches_quiet {ctx : EvalCtx} {eval : EvalCtx → Verdict × EvalCtx}
    (h : (ctx.inBranches eval).1 ≠ .matched) : (ctx.inBranches eval).2.subHit = ctx.subHit := by
  unfold EvalCtx.inBranches at h ⊢
  dsimp only at h ⊢
  split_ifs at h ⊢ with hkeep
  · rfl
  · exact absurd (Or.inl h) hkeep

/-- What the branches of a match leave: what was found, or what one of them put there. -/
theorem EvalCtx.inBranches_subHit (ctx : EvalCtx) (eval : EvalCtx → Verdict × EvalCtx) :
    (ctx.inBranches eval).2.subHit = ctx.subHit ∨
      (ctx.inBranches eval).2.subHit = (eval { ctx with subHit := none }).2.subHit ∧
        (eval { ctx with subHit := none }).2.subHit ≠ none := by
  unfold EvalCtx.inBranches
  dsimp only
  split_ifs with hkeep
  · exact .inl rfl
  · exact .inr ⟨rfl, fun hnone => hkeep (.inr hnone)⟩

theorem onTargetIp_subHit {ctx : EvalCtx} {family : Family} {test : IpAddr → Verdict × EvalCtx}
    (h : ∀ ip, (test ip).2.subHit = ctx.subHit) :
    (onTargetIp s ctx noResolve family test).2.subHit = ctx.subHit := by
  unfold onTargetIp
  cases targetIp s ctx.toKnowledge noResolve family with
  | ok ip => exact h ip
  | error v => rfl

/-- A leaf leaves the hit as it found it. -/
theorem leaf_subHit {windows : Bool} {evalSet : SetEval} {m : Matcher} (hm : m.isLeaf = true)
    (ctx : EvalCtx) :
    (m.evalWith windows evalSet s ctx noResolve extended).2.subHit = ctx.subHit := by
  unfold Matcher.evalWith
  by_cases hc : (ctx.beforeConnection && m.needsTheConnection) = true
  · rw [if_pos hc]
  · rw [if_neg hc]
    cases m with
    | and subs => cases hm
    | or subs => cases hm
    | not sub => cases hm
    | set r => cases hm
    | ipCidr net => exact onTargetIp_subHit fun ip => rfl
    | ipCidr6 net => exact onTargetIp_subHit fun ip => rfl
    | geoIp code => exact onTargetIp_subHit fun ip => rfl
    | geoIpUnknown => exact onTargetIp_subHit fun ip => rfl
    | ipAsn asn => exact onTargetIp_subHit fun ip => rfl
    | ipAsnUnknown => exact onTargetIp_subHit fun ip => rfl
    | _ => rfl

theorem Matcher.evalWith_and {windows : Bool} {evalSet : SetEval} (ctx : EvalCtx)
    (subs : List CompiledSubRule) :
    Matcher.evalWith windows evalSet s ctx noResolve extended (.and subs) =
      ctx.inBranches fun ctx => evalAnd windows evalSet s ctx .none subs := by
  simp [Matcher.evalWith, Matcher.needsTheConnection]

theorem Matcher.evalWith_or {windows : Bool} {evalSet : SetEval} (ctx : EvalCtx)
    (subs : List CompiledSubRule) :
    Matcher.evalWith windows evalSet s ctx noResolve extended (.or subs) =
      ctx.inBranches fun ctx => evalOr windows evalSet s ctx .none subs := by
  simp [Matcher.evalWith, Matcher.needsTheConnection]

theorem Matcher.evalWith_not_subHit {windows : Bool} {evalSet : SetEval} (ctx : EvalCtx)
    (sub : CompiledSubRule) :
    (Matcher.evalWith windows evalSet s ctx noResolve extended (.not sub)).2.subHit =
      ctx.subHit := by
  simp [Matcher.evalWith, Matcher.needsTheConnection]

/-- A matcher whose sets are quiet is quiet. -/
theorem Matcher.evalWith_quiet {windows : Bool} {evalSet : SetEval} (hquiet : Quiet evalSet)
    (s : SessionInfo) (m : Matcher) : QuietRule windows evalSet s m := by
  intro ctx noResolve extended h
  cases hm : m.isLeaf with
  | true => exact leaf_subHit hm ctx
  | false =>
    cases m with
    | and subs =>
      rw [Matcher.evalWith_and] at h ⊢
      exact EvalCtx.inBranches_quiet h
    | or subs =>
      rw [Matcher.evalWith_or] at h ⊢
      exact EvalCtx.inBranches_quiet h
    | not sub => exact Matcher.evalWith_not_subHit ctx sub
    | set r =>
      simp only [Matcher.evalWith, Matcher.needsTheConnection, Bool.and_false, Bool.false_eq_true,
        if_false] at h ⊢
      split_ifs at h ⊢ with hdeep hmatch
      · rfl
      · exact absurd rfl h
      · exact hquiet r s { ctx with setDepth := ctx.setDepth + 1 } noResolve extended hmatch
    | _ => cases hm

/-- The linear lines of a set, none of which matches. -/
theorem CompiledSet.evalLinear_quiet {windows : Bool} {evalSet : SetEval} (hquiet : Quiet evalSet)
    (linear : List (ℕ × CompiledSubRule)) (ctx ctx' : EvalCtx) (needs needs' : Needs)
    (h : evalLinear windows evalSet s noResolve extended ctx needs linear = (.inr needs', ctx')) :
    ctx'.subHit = ctx.subHit := by
  induction linear generalizing ctx needs with
  | nil =>
    cases h
    rfl
  | cons e linear ih =>
    obtain ⟨i, rule⟩ := e
    unfold evalLinear at h
    dsimp only at h
    split_ifs at h with hmatch
    · cases h
    · exact (ih _ _ h).trans (rule.matcher.evalWith_quiet hquiet s ctx _ _ hmatch)

theorem CompiledSet.evalAsns_subHit (set : CompiledSet) (ctx : EvalCtx) (needs : Needs) :
    (set.evalAsns s noResolve ctx needs).2.subHit = ctx.subHit := by
  unfold evalAsns
  split_ifs
  · rfl
  · split
    · dsimp only
      split
      · split <;> rfl
      · rfl
    · rfl

/-- A set none of whose lines matches leaves the hit as it found it. -/
theorem CompiledSet.evalWith_quiet {windows : Bool} {evalSet : SetEval} (hquiet : Quiet evalSet)
    {set : CompiledSet} {ctx : EvalCtx}
    (h : (set.evalWith windows evalSet s ctx noResolve extended).1.verdict ≠ .matched) :
    (set.evalWith windows evalSet s ctx noResolve extended).2.subHit = ctx.subHit := by
  unfold evalWith at h ⊢
  cases hdomain : set.domainHit s extended with
  | some d => rfl
  | none =>
    rw [hdomain] at h
    dsimp only at h ⊢
    split at h
    case h_1 => exact absurd rfl h
    case h_2 needs ctx₁ hlinear =>
      split at h
      case h_1 => exact absurd rfl h
      case h_2 needs' ctx₂ hasns =>
        have hsame : ctx₂.subHit = ctx₁.subHit := by
          rw [← set.evalAsns_subHit ctx₁ needs, hasns]
        split at h
        case h_1 => exact absurd rfl h
        case h_2 => exact hsame.trans (evalLinear_quiet hquiet _ _ _ _ _ hlinear)

theorem Env.evalSet_quiet (env : Env) (n : ℕ) : Quiet (env.evalSet n) := by
  induction n with
  | zero => exact fun _ _ _ _ _ _ => rfl
  | succ n ih => exact fun r s ctx noResolve extended h => CompiledSet.evalWith_quiet ih h

/-! ### What a match leaves -/

/-- The hit of a branch is one of the `AND` around it. -/
theorem Matcher.HitBy.and {subs : List CompiledSubRule} {sub : CompiledSubRule} {hit : SubRuleHit}
    (h : sub.matcher.HitBy env s k sub.noResolve sub.extended hit) (hsub : sub ∈ subs)
    (hmatch : (Matcher.and subs).verdict env s k noResolve extended = .matched) :
    (Matcher.and subs).HitBy env s k noResolve extended hit := by
  obtain ⟨r, noResolve', extended', htakes, hname, heval⟩ := h
  exact ⟨r, noResolve', extended', .and hsub hmatch htakes, hname, heval⟩

theorem Matcher.HitBy.or {subs : List CompiledSubRule} {sub : CompiledSubRule} {hit : SubRuleHit}
    (h : sub.matcher.HitBy env s k sub.noResolve sub.extended hit) (hsub : sub ∈ subs)
    (hmatch : (Matcher.or subs).verdict env s k noResolve extended = .matched) :
    (Matcher.or subs).HitBy env s k noResolve extended hit := by
  obtain ⟨r, noResolve', extended', htakes, hname, heval⟩ := h
  exact ⟨r, noResolve', extended', .or hsub hmatch htakes, hname, heval⟩

/-- What a branch leaves. -/
def CompiledSubRule.Leaves (env : Env) (s : SessionInfo) (k : Knowledge) (sub : CompiledSubRule)
    (found left : Option SubRuleHit) : Prop :=
  sub.matcher.Leaves env s k sub.noResolve sub.extended found left

/-- The branches evaluated from the knowledge `k` leave what they may. -/
def BranchesLeave (env : Env) (s : SessionInfo) (k : Knowledge) (subs : List CompiledSubRule) :
    Prop :=
  ∀ sub ∈ subs, ∀ ctx : EvalCtx, ctx.toKnowledge = k →
    (sub.evalWith env.windows (env.evalSet k.depthLeft) s ctx).2.toKnowledge = k ∧
      sub.Leaves env s k ctx.subHit
        (sub.evalWith env.windows (env.evalSet k.depthLeft) s ctx).2.subHit

/-- The loop of an `AND` that matches. -/
theorem evalAnd_leaves {subs : List CompiledSubRule} (hsubs : BranchesLeave env s k subs)
    (ctx : EvalCtx) (needs : Needs) (hk : ctx.toKnowledge = k) :
    (evalAnd env.windows (env.evalSet k.depthLeft) s ctx needs subs).2.subHit = ctx.subHit ∨
      ∃ sub ∈ subs, ∃ hit,
        (evalAnd env.windows (env.evalSet k.depthLeft) s ctx needs subs).2.subHit = some hit ∧
          sub.matcher.HitBy env s k sub.noResolve sub.extended hit := by
  induction subs generalizing ctx needs with
  | nil => exact .inl rfl
  | cons sub subs ih =>
    obtain ⟨hk', hleaves⟩ := hsubs sub List.mem_cons_self ctx hk
    unfold evalAnd
    dsimp only
    have hown : _ ∨ ∃ sub' ∈ sub :: subs, ∃ hit, _ = some hit ∧
        sub'.matcher.HitBy env s k sub'.noResolve sub'.extended hit :=
      hleaves.imp_right fun hhit => ⟨sub, List.mem_cons_self, hhit⟩
    split_ifs
    · exact hown
    · rcases ih (fun sub' hsub' => hsubs sub' (List.mem_cons_of_mem _ hsub')) _
        (needs.note _) hk' with heq | ⟨sub', hsub', hhit⟩
      · rw [heq]
        exact hown
      · exact .inr ⟨sub', List.mem_cons_of_mem _ hsub', hhit⟩

/-- The loop of an `OR`. -/
theorem evalOr_leaves {subs : List CompiledSubRule} (hsubs : BranchesLeave env s k subs)
    (ctx : EvalCtx) (needs : Needs) (hk : ctx.toKnowledge = k) :
    (evalOr env.windows (env.evalSet k.depthLeft) s ctx needs subs).2.subHit = ctx.subHit ∨
      ∃ sub ∈ subs, ∃ hit,
        (evalOr env.windows (env.evalSet k.depthLeft) s ctx needs subs).2.subHit = some hit ∧
          sub.matcher.HitBy env s k sub.noResolve sub.extended hit := by
  induction subs generalizing ctx needs with
  | nil => exact .inl rfl
  | cons sub subs ih =>
    obtain ⟨hk', hleaves⟩ := hsubs sub List.mem_cons_self ctx hk
    unfold evalOr
    dsimp only
    have hown : _ ∨ ∃ sub' ∈ sub :: subs, ∃ hit, _ = some hit ∧
        sub'.matcher.HitBy env s k sub'.noResolve sub'.extended hit :=
      hleaves.imp_right fun hhit => ⟨sub, List.mem_cons_self, hhit⟩
    split_ifs
    · exact hown
    · rcases ih (fun sub' hsub' => hsubs sub' (List.mem_cons_of_mem _ hsub')) _
        (needs.note _) hk' with heq | ⟨sub', hsub', hhit⟩
      · rw [heq]
        exact hown
      · exact .inr ⟨sub', List.mem_cons_of_mem _ hsub', hhit⟩

/-- What the handle of a set says, evaluated inside a tree. -/
theorem Env.evalSet_deeper (env : Env) (s : SessionInfo) (noResolve extended : Bool) (r : SetRef)
    (ctx : EvalCtx) (hdepth : ctx.setDepth < MAX_NESTING) :
    (env.evalSet ctx.depthLeft r s { ctx with setDepth := ctx.setDepth + 1 } noResolve
      extended).1 =
        ((env.sets r).name, (env.sets r).verdict env s ctx.toKnowledge.deeper noResolve
          extended) := by
  obtain ⟨n, hn⟩ : ∃ n, ctx.depthLeft = n + 1 :=
    ⟨ctx.depthLeft - 1, by simp only [Knowledge.depthLeft]; omega⟩
  have hn' : ctx.toKnowledge.deeper.depthLeft = n := by
    rw [Knowledge.depthLeft_deeper, hn]
    rfl
  have hspec := ((env.sets r).evalWith_spec env.windows s (env.refines n)
    { ctx with setDepth := ctx.setDepth + 1 } noResolve extended).1
  rw [hn, CompiledSet.verdict, hn']
  exact congrArg (Prod.mk (env.sets r).name) hspec

/-- A set that matches leaves itself and its line. -/
theorem Matcher.set_leaves (r : SetRef) (ctx : EvalCtx)
    (hmatch : (Matcher.evalWith env.windows (env.evalSet ctx.depthLeft) s ctx noResolve extended
      (.set r)).1 = .matched) :
    Matcher.Leaves env s ctx.toKnowledge (.set r) noResolve extended ctx.subHit
      (Matcher.evalWith env.windows (env.evalSet ctx.depthLeft) s ctx noResolve extended
        (.set r)).2.subHit := by
  have htakes : (Matcher.set r).TakesPart env s ctx.toKnowledge noResolve extended r noResolve
      extended := .set (by rw [← Matcher.eval_verdict]; exact hmatch)
  have hverdict := htakes.matched
  simp only [Matcher.evalWith, Matcher.needsTheConnection, Bool.and_false, Bool.false_eq_true,
    if_false] at hmatch ⊢
  split_ifs at hmatch ⊢ with hdeep hset
  · rw [Matcher.verdict_set, if_neg hdeep] at hverdict
    have hsaid := env.evalSet_deeper s noResolve extended r ctx (Nat.lt_of_not_le hdeep)
    refine .inr ⟨_, rfl, r, noResolve, extended, htakes, ?_, fun ctx' hctx' => ?_⟩
    · rw [hsaid]
    · rw [CompiledSet.eval_verdict, hctx', hsaid]
      exact CompiledSet.verdict_entry hverdict
  · exact absurd hmatch hset

/-- **What a match leaves**: what it found, or the hit of a set that takes part in it. -/
theorem Matcher.evalWith_leaves (env : Env) (s : SessionInfo) (k : Knowledge) (m : Matcher) :
    ∀ (ctx : EvalCtx) (noResolve extended : Bool), ctx.toKnowledge = k →
      m.Leaves env s k noResolve extended ctx.subHit
        (m.evalWith env.windows (env.evalSet k.depthLeft) s ctx noResolve extended).2.subHit := by
  have hquiet := env.evalSet_quiet k.depthLeft
  have hspec : ∀ (m : Matcher) (ctx : EvalCtx) (noResolve extended : Bool), ctx.toKnowledge = k →
      Says ctx (m.evalWith env.windows (env.evalSet k.depthLeft) s ctx noResolve extended)
        (m.verdict env s k noResolve extended) := by
    rintro m ctx noResolve extended rfl
    exact m.evalWith_spec _ _ (env.refines _) ctx noResolve extended
  induction m using Matcher.rules with
  | leaf m hm =>
    intro ctx noResolve extended _
    exact .inl (leaf_subHit hm ctx)
  | not sub _ =>
    intro ctx noResolve extended _
    exact .inl (Matcher.evalWith_not_subHit ctx sub)
  | set r =>
    rintro ctx noResolve extended rfl
    by_cases hmatch : (Matcher.evalWith env.windows (env.evalSet ctx.depthLeft) s ctx noResolve
        extended (.set r)).1 = .matched
    · exact Matcher.set_leaves r ctx hmatch
    · exact .inl (Matcher.evalWith_quiet hquiet s _ ctx noResolve extended hmatch)
  | and subs ih =>
    intro ctx noResolve extended hk
    have hsubs : BranchesLeave env s k subs := fun sub hsub ctx hk => by
      rw [sub.evalWith_eq]
      exact ⟨(hspec _ _ _ _ hk).knowledge.trans hk, ih sub hsub ctx _ _ hk⟩
    by_cases hmatch : (Matcher.evalWith env.windows (env.evalSet k.depthLeft) s ctx noResolve
        extended (.and subs)).1 = .matched
    · have hverdict := (hspec (.and subs) ctx noResolve extended hk).verdict.symm.trans hmatch
      rw [Matcher.evalWith_and]
      rcases ctx.inBranches_subHit fun ctx =>
        evalAnd env.windows (env.evalSet k.depthLeft) s ctx .none subs with hfound | ⟨heq, hne⟩
      · exact .inl hfound
      · rcases evalAnd_leaves hsubs { ctx with subHit := none } .none hk with
          hnone | ⟨sub, hsub, hit, hsome, hhit⟩
        · exact absurd hnone hne
        · exact .inr ⟨hit, heq.trans hsome, hhit.and hsub hverdict⟩
    · exact .inl (Matcher.evalWith_quiet hquiet s _ ctx noResolve extended hmatch)
  | or subs ih =>
    intro ctx noResolve extended hk
    have hsubs : BranchesLeave env s k subs := fun sub hsub ctx hk => by
      rw [sub.evalWith_eq]
      exact ⟨(hspec _ _ _ _ hk).knowledge.trans hk, ih sub hsub ctx _ _ hk⟩
    by_cases hmatch : (Matcher.evalWith env.windows (env.evalSet k.depthLeft) s ctx noResolve
        extended (.or subs)).1 = .matched
    · have hverdict := (hspec (.or subs) ctx noResolve extended hk).verdict.symm.trans hmatch
      rw [Matcher.evalWith_or]
      rcases ctx.inBranches_subHit fun ctx =>
        evalOr env.windows (env.evalSet k.depthLeft) s ctx .none subs with hfound | ⟨heq, hne⟩
      · exact .inl hfound
      · rcases evalOr_leaves hsubs { ctx with subHit := none } .none hk with
          hnone | ⟨sub, hsub, hit, hsome, hhit⟩
        · exact absurd hnone hne
        · exact .inr ⟨hit, heq.trans hsome, hhit.or hsub hverdict⟩
    · exact .inl (Matcher.evalWith_quiet hquiet s _ ctx noResolve extended hmatch)

end

/-! ### Decisions -/

/-- The hit a decision takes over: nothing, or the hit of a set that takes part in the match of the
rule it names. -/
def Decision.HitTakesPart (env : Env) (e : RuleEngine) (s : SessionInfo) (d : Decision)
    (k : Knowledge) : Prop :=
  ∀ hit, d.subRule = some hit → ∃ (pos : ℕ) (rule : CompiledRule) (noResolve : Bool),
    e.rules[pos]? = some rule ∧ d.matched = some rule.index ∧
      rule.matcher.HitBy env s k noResolve rule.params.extendedMatching hit

namespace RuleEngine

variable (env : Env) (e : RuleEngine) (s : SessionInfo)

/-- A rule evaluated where no hit was found. -/
theorem eval_from_none (m : Matcher) (ctx : EvalCtx) (hnone : ctx.subHit = none)
    (noResolve extended : Bool) :
    ((m.eval env s ctx noResolve extended).1 ≠ .matched →
      (m.eval env s ctx noResolve extended).2.subHit = none) ∧
    ∀ hit, (m.eval env s ctx noResolve extended).2.subHit = some hit →
      m.HitBy env s (m.eval env s ctx noResolve extended).2.toKnowledge noResolve extended hit := by
  refine ⟨fun h => ?_, fun hit hhit => ?_⟩
  · exact (m.evalWith_quiet (env.evalSet_quiet _) s ctx noResolve extended h).trans hnone
  · rw [m.eval_knowledge]
    rcases m.evalWith_leaves env s ctx.toKnowledge ctx noResolve extended rfl with
      hfound | ⟨hit', heq, hby⟩
    · rw [Matcher.eval, hfound, hnone] at hhit
      cases hhit
    · rw [Matcher.eval, heq] at hhit
      cases hhit
      exact hby

theorem collectNotes_subHit (st : RunState) (pos : ℕ) :
    (st.collectNotes pos).ctx.subHit = st.ctx.subHit ∧
      (st.collectNotes pos).ctx.toKnowledge = st.ctx.toKnowledge := by
  unfold RunState.collectNotes
  split_ifs <;> exact ⟨rfl, rfl⟩

/-- The flagged rules are rules of the table. -/
theorem mem_preRules {pos : ℕ} {rule : CompiledRule} (h : (pos, rule) ∈ e.preRules) :
    e.rules[pos]? = some rule := by
  obtain ⟨p, -, hp⟩ := List.mem_filterMap.1 h
  obtain ⟨r, hr, heq⟩ := Option.map_eq_some_iff.1 hp
  cases heq
  exact hr

theorem prePass_hit (rules : List (ℕ × CompiledRule))
    (hrules : ∀ p ∈ rules, e.rules[p.1]? = some p.2) (st : RunState) (d : Decision)
    (h : (prePass env s rules st).1 = some d) :
    d.HitTakesPart env e s (prePass env s rules st).2.ctx.toKnowledge := by
  induction rules generalizing st with
  | nil => cases h
  | cons p rules ih =>
    obtain ⟨pos, rule⟩ := p
    unfold prePass at h ⊢
    dsimp only at h ⊢
    split_ifs at h ⊢
    · cases h
      intro hit hhit
      have heval := eval_from_none env s rule.matcher { st.ctx with subHit := none } rfl true
        rule.params.extendedMatching
      obtain ⟨hsub, hknow⟩ := collectNotes_subHit
        { st with ctx := (preMatches env s rule { st.ctx with subHit := none }).2 } pos
      change (RunState.collectNotes _ pos).ctx.subHit = some hit at hhit
      rw [hsub] at hhit
      refine ⟨pos, rule, true, hrules _ List.mem_cons_self, rfl, ?_⟩
      change rule.matcher.HitBy env s (RunState.collectNotes _ pos).ctx.toKnowledge _ _ hit
      rw [hknow]
      exact heval.2 hit hhit
    · exact ih (fun q hq => hrules q (List.mem_cons_of_mem _ hq)) _ h

/-- What a rule of the table leaves when it is judged from a state without a hit. -/
theorem evalRule_hit (rule : CompiledRule) (st : RunState) (hnone : st.ctx.subHit = none) :
    ((evalRule env s rule st).1 ≠ .matched → (evalRule env s rule st).2.ctx.subHit = none) ∧
    ∀ hit, (evalRule env s rule st).2.ctx.subHit = some hit →
      rule.matcher.HitBy env s (evalRule env s rule st).2.ctx.toKnowledge rule.params.noResolve
        rule.params.extendedMatching hit :=
  eval_from_none env s rule.matcher st.ctx hnone _ _

/-- A verdict compared with a match: the hit the rule left goes with it. -/
theorem settle_hit (pos : ℕ) (rule : CompiledRule) (v : Verdict) (st : RunState) (d : Decision)
    (hrule : e.rules[pos]? = some rule)
    (hhit : ∀ hit, st.ctx.subHit = some hit → rule.matcher.HitBy env s st.ctx.toKnowledge
      rule.params.noResolve rule.params.extendedMatching hit)
    (h : (settle e pos rule v st).1 = some d) :
    d.HitTakesPart env e s (settle e pos rule v st).2.ctx.toKnowledge := by
  unfold settle at h ⊢
  dsimp only at h ⊢
  by_cases hv : v = .matched
  · rw [if_pos hv] at h ⊢
    cases h
    intro hit hsub
    obtain ⟨hsame, hknow⟩ := collectNotes_subHit (st.compare pos v) pos
    change ((st.compare pos v).collectNotes pos).ctx.subHit = some hit at hsub
    rw [hsame] at hsub
    refine ⟨pos, rule, rule.params.noResolve, hrule, rfl, ?_⟩
    change rule.matcher.HitBy env s ((st.compare pos v).collectNotes pos).ctx.toKnowledge _ _ hit
    rw [hknow]
    exact hhit hit hsub
  · rw [if_neg hv] at h
    cases h

theorem dnsFailed_hit (rule : CompiledRule) (st : RunState) (k : Knowledge) :
    (dnsFailed e rule st).1.HitTakesPart env e s k := by
  intro hit hhit
  unfold dnsFailed at hhit
  split_ifs at hhit

/-- A rule that asked for the addresses. -/
theorem resolveFor_hit (answers : Answers) (pos : ℕ) (rule : CompiledRule) (st : RunState)
    (d : Decision) (hrule : e.rules[pos]? = some rule) (hnone : st.ctx.subHit = none)
    (h : (resolveFor env e s answers pos rule st).1 = some d) :
    d.HitTakesPart env e s (resolveFor env e s answers pos rule st).2.ctx.toKnowledge := by
  unfold resolveFor at h ⊢
  dsimp only at h ⊢
  split at h
  case h_1 addrs _ =>
    refine settle_hit env e s pos rule _ _ d hrule ?_ h
    exact (evalRule_hit env s rule _ (by exact hnone)).2
  case h_2 =>
    cases h
    exact dnsFailed_hit env e s rule _ _

theorem turn_hit (answers : Answers) (pos : ℕ) (rule : CompiledRule) (st : RunState)
    (d : Decision) (hrule : e.rules[pos]? = some rule)
    (h : (turn env e s answers pos rule st).1 = some d) :
    d.HitTakesPart env e s (turn env e s answers pos rule st).2.ctx.toKnowledge := by
  have hfirst := evalRule_hit env s rule { st with ctx := { st.ctx with subHit := none } } rfl
  unfold turn at h ⊢
  dsimp only at h ⊢
  generalize evalRule env s rule { st with ctx := { st.ctx with subHit := none } } = r
    at h hfirst ⊢
  have hsecond : ∀ r', (if r.1 = .needsProcess then evalRule env s rule (r.2.askProcess answers)
      else r) = r' → (r'.1 ≠ .matched → r'.2.ctx.subHit = none) ∧
        ∀ hit, r'.2.ctx.subHit = some hit → rule.matcher.HitBy env s r'.2.ctx.toKnowledge
          rule.params.noResolve rule.params.extendedMatching hit := by
    rintro r' rfl
    split_ifs with hasks
    · exact evalRule_hit env s rule _ (hfirst.1 (by rw [hasks]; decide))
    · exact hfirst
  generalize (if r.1 = .needsProcess then evalRule env s rule (r.2.askProcess answers)
    else r) = r' at h hsecond ⊢
  obtain ⟨hmiss, hhit⟩ := hsecond r' rfl
  split_ifs at h ⊢ with hneeds
  · exact resolveFor_hit env e s answers pos rule r'.2 d hrule (hmiss (by rw [hneeds]; decide)) h
  · exact settle_hit env e s pos rule r'.1 r'.2 d hrule hhit h

theorem runRules_hit (answers : Answers) (rules : List CompiledRule) (pos : ℕ) (st : RunState)
    (hrules : ∀ i rule, rules[i]? = some rule → e.rules[pos + i]? = some rule) :
    (runRules env e s answers pos rules st).1.HitTakesPart env e s
      (runRules env e s answers pos rules st).2.ctx.toKnowledge := by
  induction rules generalizing pos st with
  | nil => exact fun hit hhit => nomatch hhit
  | cons rule rules ih =>
    unfold runRules
    have hrule := hrules 0 rule rfl
    split
    case h_1 d st' heq =>
      have hturn := turn_hit env e s answers pos rule st d hrule (by rw [heq])
      rwa [heq] at hturn
    case h_2 st' _ =>
      refine ih (pos + 1) st' fun i rule' hi => ?_
      rw [Nat.add_assoc, Nat.add_comm 1 i]
      exact hrules (i + 1) rule' hi

/-- **A decision names no set that took no part in the match of its rule.** -/
theorem run_hit (facts : NetworkFacts) (mode : OutboundMode) (answers : Answers) (hits : ℕ → ℕ)
    (warned : ℕ → Bool) :
    (run env e s facts mode answers hits warned).1.HitTakesPart env e s
      (run env e s facts mode answers hits warned).2.ctx.toKnowledge := by
  unfold run
  dsimp only
  split
  case h_1 => exact fun hit hhit => nomatch hhit
  case h_2 => exact fun hit hhit => nomatch hhit
  case h_3 =>
    split
    case h_1 d st heq =>
      have hpre := prePass_hit env e s e.preRules (fun p hp => mem_preRules e hp)
        (e.start facts hits warned) d (by rw [heq])
      rwa [heq] at hpre
    case h_2 st _ =>
      exact runRules_hit env e s answers e.rules 0 st fun i rule hi => by rwa [Nat.zero_add]

end RuleEngine

/-- **An evaluation that does not match leaves the hit as it found it, a match leaves that of a set
that takes part in it, and a decision names no other.** -/
theorem sub_hits (env : Env) (s : SessionInfo) :
    (∀ (m : Matcher) (ctx : EvalCtx) (noResolve extended : Bool),
      ((m.eval env s ctx noResolve extended).1 ≠ .matched →
        (m.eval env s ctx noResolve extended).2.subHit = ctx.subHit) ∧
      ((m.eval env s ctx noResolve extended).1 = .matched →
        (m.eval env s ctx noResolve extended).2.subHit ≠ ctx.subHit →
          ∃ hit, (m.eval env s ctx noResolve extended).2.subHit = some hit ∧
            m.HitBy env s ctx.toKnowledge noResolve extended hit)) ∧
    ∀ (e : RuleEngine) (facts : NetworkFacts) (mode : OutboundMode) (answers : Answers)
      (hits : ℕ → ℕ) (warned : ℕ → Bool),
        (e.run env s facts mode answers hits warned).1.HitTakesPart env e s
          (e.run env s facts mode answers hits warned).2.ctx.toKnowledge := by
  refine ⟨fun m ctx noResolve extended => ⟨?_, fun _ hne => ?_⟩, fun e facts mode answers hits
    warned => RuleEngine.run_hit env e s facts mode answers hits warned⟩
  · exact m.evalWith_quiet (env.evalSet_quiet _) s ctx noResolve extended
  · exact (m.evalWith_leaves env s ctx.toKnowledge ctx noResolve extended rfl).resolve_left hne

end Rurge
