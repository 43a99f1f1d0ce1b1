import Rurge.Rules.Judging

/-!
# Whole decisions

What holds of every decision of the engine, from the turns it is made of: the verdicts compared are
those of the rules in written order, under what was known at each; the decision names the first
that matches; the resolver and the process lookup are asked at most once.

Whether a verdict is compared while it is undecided is settled in `run_sound_iff`: it happens
exactly when the first rule that is no miss knowing nothing asks for the addresses and then, knowing
them, for the process.
-/

namespace Rurge

namespace RuleEngine

variable (env : Env) (e : RuleEngine) (s : SessionInfo)

/-! ### The pre-pass -/

/-- A flagged rule refuses a session, knowing `k`. -/
def PreHit (k : Knowledge) (rule : CompiledRule) : Prop :=
  rule.matcher.verdict env s k true rule.params.extendedMatching = .matched ∧
    ∃ b, rule.policy = .builtin b ∧ b.isReject = true

theorem preMatches_spec (rule : CompiledRule) (ctx : EvalCtx) :
    ((preMatches env s rule ctx).1 = true ↔ PreHit env s ctx.toKnowledge rule) ∧
      (preMatches env s rule ctx).2.toKnowledge = ctx.toKnowledge := by
  refine ⟨?_, rule.matcher.eval_knowledge env s ctx _ _⟩
  unfold preMatches PreHit
  rw [← rule.matcher.eval_verdict env s ctx]
  cases rule.policy <;> simp

/-- The pre-pass asks nobody, and decides exactly when a flagged rule refuses. -/
theorem prePass_spec (rules : List (ℕ × CompiledRule)) (st : RunState) :
    (prePass env s rules st).2.view = st.view ∧
      ((prePass env s rules st).1 = none ↔
        ∀ p ∈ rules, ¬ PreHit env s st.view.knowledge p.2) ∧
      ∀ d, (prePass env s rules st).1 = some d → d.reason = .preMatching := by
  induction rules generalizing st with
  | nil => exact ⟨rfl, by simp [prePass], by simp [prePass]⟩
  | cons p rules ih =>
    obtain ⟨pos, rule⟩ := p
    obtain ⟨hhit, hk⟩ := preMatches_spec env s rule { st.ctx with subHit := none }
    have hview : (RunState.collectNotes { st with
        ctx := (preMatches env s rule { st.ctx with subHit := none }).2 } pos).view = st.view := by
      rw [view_collectNotes]
      simp only [RunState.view, hk]
    unfold prePass
    dsimp only
    by_cases hm : (preMatches env s rule { st.ctx with subHit := none }).1 = true
    · rw [if_pos hm]
      refine ⟨by simpa using hview, ?_, by simp⟩
      simp only [reduceCtorEq, List.mem_cons, forall_eq_or_imp, false_iff, not_and]
      exact fun h => absurd (hhit.1 hm) h
    · rw [if_neg hm]
      obtain ⟨hv, hn, hr⟩ := ih (RunState.collectNotes { st with
        ctx := (preMatches env s rule { st.ctx with subHit := none }).2 } pos)
      rw [hview] at hv hn
      refine ⟨hv, hn.trans ?_, hr⟩
      simp only [List.mem_cons, forall_eq_or_imp]
      exact ⟨fun h => ⟨fun hp => hm (hhit.2 hp), h⟩, fun h => h.2⟩

/-! ### The log of a decision -/

/-- What the log says is so: the rules in written order, each with its verdict under what was known
then, and at most one question each. -/
structure Logged (o : RunView) : Prop where
  connected : o.knowledge.beforeConnection = false
  order : o.compared.map (·.pos) = List.range o.compared.length
  told : ∀ c ∈ o.compared, ∃ rule, e.rules[c.pos]? = some rule ∧
    rule.verdict env s c.knowledge = c.verdict
  resolver : o.resolves.length ≤ 1 ∧ (o.knowledge.resolved = none → o.resolves = [])
  process : o.processAsks ≤ 1 ∧ (o.knowledge.process = .notAsked → o.processAsks = 0)

variable {env e s}

section

variable {o : RunView} {rule : CompiledRule}

/-- A turn asks at most once, and the first time only. -/
theorem Logged.after_asks (h : Logged env e s o) (rule : CompiledRule)
    (process : Option ProcessInfo) (resolve : Except ResolveError ResolvedAddrs) :
    let o' := o.after s o.compared.length (judge (rule.verdict env s) process resolve o.knowledge)
    o'.resolves.length ≤ 1 ∧ o'.processAsks ≤ 1 ∧
      (o'.knowledge.process = .notAsked → o'.processAsks = 0) := by
  have hfits := judge_fits process resolve (rule.verdict_open env s) o.knowledge
  generalize judge (rule.verdict env s) process resolve o.knowledge = j at hfits
  refine ⟨?_, ?_, ?_⟩
  · rcases hfits.resolver with ⟨hr, hn, -⟩ | ⟨hr, -⟩
    · simp [RunView.after, hr, h.resolver.2 hn]
    · simpa [RunView.after, hr] using h.resolver.1
  · rcases hfits.process with ⟨hp, hn, -⟩ | ⟨hp, -⟩
    · simp [RunView.after, hp, h.process.2 hn]
    · simpa [RunView.after, hp] using h.process.1
  · intro hn
    rcases hfits.process with ⟨-, -, hne⟩ | ⟨hp, hk⟩
    · exact absurd hn hne
    · simpa [RunView.after, hp] using h.process.2 (hk ▸ hn)

/-- A turn that compares a verdict keeps the log. -/
theorem Logged.after (h : Logged env e s o) (hrule : e.rules[o.compared.length]? = some rule)
    (process : Option ProcessInfo) (resolve : Except ResolveError ResolvedAddrs) {v : Verdict}
    (hv : (judge (rule.verdict env s) process resolve o.knowledge).verdict = some v) :
    Logged env e s
      (o.after s o.compared.length (judge (rule.verdict env s) process resolve o.knowledge)) := by
  obtain ⟨hres, hproc, hproc'⟩ := h.after_asks rule process resolve
  have hfits := judge_fits process resolve (rule.verdict_open env s) o.knowledge
  generalize judge (rule.verdict env s) process resolve o.knowledge = j at *
  refine ⟨hfits.connection.trans h.connected, ?_, ?_, ⟨hres, ?_⟩, ⟨hproc, hproc'⟩⟩
  · simp [RunView.after, hv, h.order, List.range_succ]
  · intro c hc
    simp only [RunView.after, hv, Option.map_some, Option.toList_some, List.mem_append,
      List.mem_singleton] at hc
    rcases hc with hc | rfl
    · exact h.told c hc
    · exact ⟨rule, hrule, hfits.told v hv⟩
  · intro hn
    rcases hfits.resolver with ⟨-, -, hno | hne⟩ | ⟨hr, hk⟩
    · exact absurd (hv.symm.trans hno) (by simp)
    · exact absurd hn hne
    · simpa [RunView.after, hr] using h.resolver.2 (hk ▸ hn)

end

/-- How a decision ends: at the rule the last verdict compared is of, or without one. -/
inductive EndsAt (e : RuleEngine) (d : Decision) : List Compared → Prop
  /-- A lookup failed. -/
  | failed (cs : List Compared) (h : d.reason = .dnsFailed ∨ d.reason = .dnsFailedFallback)
      (hmiss : ∀ c ∈ cs, c.verdict ≠ .matched) : EndsAt e d cs
  | hit (before : List Compared) (c : Compared) (rule : CompiledRule)
      (hrule : e.rules[c.pos]? = some rule) (hm : d.matched = some rule.index)
      (ho : d.outcome = .policy rule.policy) (hv : c.verdict = .matched)
      (hmiss : ∀ b ∈ before, b.verdict ≠ .matched) : EndsAt e d (before ++ [c])
  /-- No rule matched. -/
  | none (cs : List Compared) (hall : cs.length = e.rules.length)
      (hmiss : ∀ c ∈ cs, c.verdict ≠ .matched) : EndsAt e d cs

/-- The positions compared are positions of rules. -/
theorem Logged.length_le {o : RunView} (h : Logged env e s o) :
    o.compared.length ≤ e.rules.length := by
  by_contra hlt
  have hpos : e.rules.length ∈ o.compared.map (·.pos) := by
    rw [h.order]
    exact List.mem_range.2 (Nat.lt_of_not_le hlt)
  obtain ⟨c, hc, hcp⟩ := List.mem_map.1 hpos
  obtain ⟨rule, hr, -⟩ := h.told c hc
  simp [hcp] at hr

/-- What the log of a whole decision says: `Logged` without what is known at the end. -/
structure Reported (env : Env) (e : RuleEngine) (s : SessionInfo) (o : RunView) : Prop where
  order : o.compared.map (·.pos) = List.range o.compared.length
  told : ∀ c ∈ o.compared, ∃ rule, e.rules[c.pos]? = some rule ∧
    rule.verdict env s c.knowledge = c.verdict
  resolver : o.resolves.length ≤ 1
  process : o.processAsks ≤ 1

theorem Logged.reported {o : RunView} (h : Logged env e s o) : Reported env e s o :=
  ⟨h.order, h.told, h.resolver.1, h.process.1⟩

/-- **A run over the rules keeps the log and ends at one of them.** -/
theorem runRules_spec (answers : Answers) (rules : List CompiledRule) (st : RunState)
    (hlog : Logged env e s st.view) (hrules : e.rules.drop st.compared.length = rules)
    (hmiss : ∀ c ∈ st.compared, c.verdict ≠ .matched) :
    Reported env e s (runRules env e s answers st.compared.length rules st).2.view ∧
      EndsAt e (runRules env e s answers st.compared.length rules st).1
        (runRules env e s answers st.compared.length rules st).2.compared := by
  induction rules generalizing st with
  | nil =>
    have hlen : e.rules.length ≤ st.compared.length := by simpa using hrules
    exact ⟨hlog.reported, .none _ (le_antisymm hlog.length_le hlen) hmiss⟩
  | cons rule rules ih =>
    have hrule : e.rules[st.compared.length]? = some rule := by
      rw [← List.head?_drop, hrules]
      rfl
    obtain ⟨hends, hview⟩ := turn_judge env e s answers st.compared.length rule st
    have hasks := hlog.after_asks rule (answers.process st.processAsks)
      (answers.resolve st.resolves.length (lookupHost s))
    have hafter := fun v => hlog.after (v := v) hrule (answers.process st.processAsks)
      (answers.resolve st.resolves.length (lookupHost s))
    unfold runRules
    generalize turn env e s answers st.compared.length rule st = t at *
    obtain ⟨d, st'⟩ := t
    dsimp only at hends hview ⊢
    generalize judge (rule.verdict env s) (answers.process st.processAsks)
      (answers.resolve st.resolves.length (lookupHost s)) st.view.knowledge = j at *
    have hcmp : st'.compared = _ := congrArg RunView.compared hview
    generalize hw : j.verdict = w at hends
    cases hends with
    | failed d h =>
      have hcmp : st'.compared = st.compared := by simpa [RunView.after, hw] using hcmp
      refine ⟨?_, .failed _ h (hcmp ▸ hmiss)⟩
      rw [hview]
      exact ⟨by simpa [RunView.after, hw] using hlog.order,
        by simpa [RunView.after, hw] using hlog.told, hasks.1, hasks.2.1⟩
    | hit d h h' =>
      have hcmp : st'.compared = st.compared ++ [⟨st.compared.length, .matched, j.knowledge⟩] := by
        simpa [RunView.after, hw] using hcmp
      refine ⟨?_, ?_⟩
      · rw [hview]
        exact (hafter _ hw).reported
      · rw [hcmp]
        exact .hit _ _ rule hrule h h' rfl hmiss
    | miss v h =>
      have hcmp : st'.compared = st.compared ++ [⟨st.compared.length, v, j.knowledge⟩] := by
        simpa [RunView.after, hw] using hcmp
      have hlen : st'.compared.length = st.compared.length + 1 := by simp [hcmp]
      have hnext := ih st' (by rw [hview]; exact hafter _ hw) (by
        rw [hlen, ← List.drop_drop, hrules]
        rfl) (by
        intro c hc
        rw [hcmp] at hc
        rcases List.mem_append.1 hc with hc | hc
        · exact hmiss c hc
        · obtain rfl := List.mem_singleton.1 hc
          exact h)
      rw [hlen] at hnext
      exact hnext

/-! ### Undecided verdicts -/

/-- The log of a run begins with what was there. -/
theorem mem_compared_runRules (answers : Answers) (rules : List CompiledRule) (pos : ℕ)
    (st : RunState) {c : Compared} (hc : c ∈ st.compared) :
    c ∈ (runRules env e s answers pos rules st).2.compared := by
  induction rules generalizing pos st with
  | nil => exact hc
  | cons rule rules ih =>
    obtain ⟨-, hview⟩ := turn_judge env e s answers pos rule st
    have hcmp := congrArg RunView.compared hview
    have hc' : c ∈ (turn env e s answers pos rule st).2.compared := by
      rw [← RunState.view_compared, hcmp]
      exact List.mem_append_left _ hc
    unfold runRules
    generalize turn env e s answers pos rule st = t at hc'
    obtain ⟨d, st'⟩ := t
    cases d with
    | some d => exact hc'
    | none => exact ih (pos + 1) st' hc'

/-- The first rule that is no miss, knowing `k`, asks for the addresses and then for the process. -/
def FirstOverlooked (env : Env) (s : SessionInfo) (resolve : Except ResolveError ResolvedAddrs)
    (k : Knowledge) (rules : List CompiledRule) : Prop :=
  ∃ rule, rules.find? (fun rule => rule.verdict env s k ≠ .noMatch) = some rule ∧
    Overlooked (rule.verdict env s) resolve k

theorem firstOverlooked_cons_miss {resolve : Except ResolveError ResolvedAddrs} {k : Knowledge}
    {rule : CompiledRule} {rules : List CompiledRule} (h : rule.verdict env s k = .noMatch) :
    FirstOverlooked env s resolve k (rule :: rules) ↔ FirstOverlooked env s resolve k rules := by
  simp [FirstOverlooked, h]

theorem firstOverlooked_cons {resolve : Except ResolveError ResolvedAddrs} {k : Knowledge}
    {rule : CompiledRule} {rules : List CompiledRule} (h : rule.verdict env s k ≠ .noMatch) :
    FirstOverlooked env s resolve k (rule :: rules) ↔
      Overlooked (rule.verdict env s) resolve k := by
  simp [FirstOverlooked, h]

theorem not_firstOverlooked_of_informed {resolve : Except ResolveError ResolvedAddrs}
    {k : Knowledge} {rules : List CompiledRule} (h : Informed s k) :
    ¬ FirstOverlooked env s resolve k rules := by
  rintro ⟨rule, -, ho⟩
  exact not_overlooked_of_informed (rule.verdict_open env s) h ho

/-- **A run compares an undecided verdict exactly when it overlooks the process.** -/
theorem runRules_decided_iff (answers : Answers) (rules : List CompiledRule) (pos : ℕ)
    (st : RunState) (hb : st.view.knowledge.beforeConnection = false)
    (hd : ∀ c ∈ st.compared, c.verdict.Decided) :
    (∀ c ∈ (runRules env e s answers pos rules st).2.compared, c.verdict.Decided) ↔
      ¬ FirstOverlooked env s (answers.resolve st.resolves.length (lookupHost s))
        st.view.knowledge rules := by
  induction rules generalizing pos st with
  | nil => simpa [runRules, FirstOverlooked] using hd
  | cons rule rules ih =>
    obtain ⟨hends, hview⟩ := turn_judge env e s answers pos rule st
    have hopen := rule.verdict_open env s
    have hcmp := congrArg RunView.compared hview
    have hknow := congrArg RunView.knowledge hview
    have hres := congrArg RunView.resolves hview
    unfold runRules
    generalize turn env e s answers pos rule st = t at *
    obtain ⟨d, st'⟩ := t
    dsimp only [RunView.after] at hends hcmp hknow hres ⊢
    have hfits := judge_fits (answers.process st.processAsks)
      (answers.resolve st.resolves.length (lookupHost s)) hopen st.view.knowledge
    have hdecided := fun w => judge_decided (w := w) (answers.process st.processAsks)
      (answers.resolve st.resolves.length (lookupHost s)) hopen hb
    have hb' : st'.view.knowledge.beforeConnection = false := by
      rw [hknow]
      exact hfits.connection.trans hb
    -- the verdicts compared so far stay decided unless this one is overlooked
    have hd' : ¬ Overlooked (rule.verdict env s) (answers.resolve st.resolves.length
        (lookupHost s)) st.view.knowledge → ∀ c ∈ st'.compared, c.verdict.Decided := by
      intro hno c hc
      rw [← RunState.view_compared, hcmp] at hc
      rcases List.mem_append.1 hc with hc | hc
      · exact hd c hc
      · obtain ⟨w, hw, rfl⟩ := by simpa using hc
        exact (hdecided w hw).resolve_right fun h => hno h.1
    by_cases hmiss : rule.verdict env s st.view.knowledge = .noMatch
    · -- nothing is asked
      rw [firstOverlooked_cons_miss hmiss]
      have hj := judge_of_decided (answers.process st.processAsks)
        (answers.resolve st.resolves.length (lookupHost s)) (Or.inr hmiss)
      rw [hj] at hends hknow hres
      rw [hmiss] at hends
      cases hends with
      | miss v h =>
        have hno : ¬ Overlooked (rule.verdict env s) (answers.resolve st.resolves.length
            (lookupHost s)) st.view.knowledge := fun h => by simp [h.1] at hmiss
        have hnext := ih (pos + 1) st' hb' (hd' hno)
        dsimp only at hknow
        rw [hknow, show st'.resolves = st.resolves by simpa [RunState.view] using hres] at hnext
        exact hnext
    · rw [firstOverlooked_cons hmiss]
      by_cases ho : Overlooked (rule.verdict env s) (answers.resolve st.resolves.length
        (lookupHost s)) st.view.knowledge
      · -- the process is asked for too late
        have hj := judge_overlooked (answers.process st.processAsks) ho
        rw [hj] at hends hcmp
        cases hends with
        | miss v h =>
          refine iff_of_false (fun hall => ?_) (fun hno => hno ho)
          obtain ⟨c, hc, hcv⟩ : ∃ c ∈ st'.compared, c.verdict = .needsProcess := by
            rw [← RunState.view_compared, hcmp]
            exact ⟨_, List.mem_append_right _ List.mem_cons_self, rfl⟩
          have := hall c (mem_compared_runRules answers rules (pos + 1) st' hc)
          simp [Verdict.Decided, hcv] at this
      · refine iff_of_true ?_ ho
        generalize hw : (judge (rule.verdict env s) (answers.process st.processAsks)
          (answers.resolve st.resolves.length (lookupHost s)) st.view.knowledge).verdict = w
          at hends
        cases hends with
        | failed d h => exact hd' ho
        | hit d h h' => exact hd' ho
        | miss v h =>
          refine (ih (pos + 1) st' hb' (hd' ho)).2 (not_firstOverlooked_of_informed ?_)
          rw [hknow]
          rcases judge_knowledge s (rule.verdict env s) (answers.process st.processAsks)
              (answers.resolve st.resolves.length (lookupHost s)) st.view.knowledge
            with ⟨-, hv, -⟩ | hv | hv
          · have hvv : v = rule.verdict env s st.view.knowledge :=
              Option.some.inj (hw.symm.trans hv)
            rcases (hdecided v hw).resolve_right (fun h => ho h.1) with hm | hm
            · exact absurd hm h
            · exact absurd (hvv.symm.trans hm) hmiss
          · exact absurd (hw.symm.trans hv) (by simp)
          · exact hv

/-! ### Decisions -/

/-- What is known when a decision begins. -/
def startKnowledge (e : RuleEngine) (facts : NetworkFacts) : Knowledge :=
  (EvalCtx.withNetwork e.geo facts e.wifiAlwaysMatch).toKnowledge

/-- A decision as it is meant to be: no verdict is compared with a match while it is undecided; the
rule named is the first in written order whose matcher is true under what was known at its turn;
each lookup is asked for at most once. -/
structure Sound (env : Env) (e : RuleEngine) (s : SessionInfo) (d : Decision) (st : RunState) :
    Prop where
  decided : ∀ c ∈ st.compared, c.verdict.Decided
  order : st.compared.map (·.pos) = List.range st.compared.length
  told : ∀ c ∈ st.compared, ∃ rule, e.rules[c.pos]? = some rule ∧
    rule.verdict env s c.knowledge = c.verdict
  named : d.reason = .rule ∨ d.reason = .final → ∃ before c rule,
    st.compared = before ++ [c] ∧ e.rules[c.pos]? = some rule ∧ d.matched = some rule.index ∧
      d.outcome = .policy rule.policy ∧ c.verdict = .matched ∧ ∀ b ∈ before, b.verdict = .noMatch
  resolver : st.resolves.length ≤ 1
  process : st.processAsks ≤ 1

/-- The pre-pass decides nothing, and the first rule that is no miss knowing nothing asks for the
addresses and, knowing them, for the process. -/
def Overlooks (env : Env) (e : RuleEngine) (facts : NetworkFacts) (s : SessionInfo)
    (mode : OutboundMode) (answers : Answers) : Prop :=
  mode = .rule ∧ (∀ p ∈ e.preRules, ¬ PreHit env s (e.startKnowledge facts) p.2) ∧
    FirstOverlooked env s (answers.resolve 0 (lookupHost s)) (e.startKnowledge facts) e.rules

/-- The table `build` makes ends with a FINAL rule. -/
theorem build_final {windows : Bool} {rules : List Rule} {sets : SetLookup} {geo : GeoLookup}
    {wifi : Bool} (h : build windows rules sets geo wifi = .ok e) :
    ∃ front last, e.rules = front ++ [last] ∧ last.matcher = .final := by
  unfold build at h
  split at h
  · rename_i first last _ hlast
    cases h
    refine ⟨(rules.take first).zipIdx.map (compileRule windows sets),
      compileRule windows sets last, by simp, ?_⟩
    have hfin := List.find?_some hlast
    obtain ⟨⟨kind, policy, params, raw⟩, i⟩ := last
    cases kind <;> simp_all [Rule.isFinal, compileRule, Matcher.compile]
  · cases h

theorem verdict_final (rule : CompiledRule) (h : rule.matcher = .final) (k : Knowledge) :
    rule.verdict env s k = .matched := by
  simp [CompiledRule.verdict, h, Matcher.verdict, Matcher.verdictWith, Matcher.needsTheConnection]

/-- A table that ends with FINAL is never gone through without a match. -/
theorem EndsAt.named {d : Decision} {o : RunView} (hr : Reported env e s o)
    (h : EndsAt e d o.compared) (hfinal : ∃ front last, e.rules = front ++ [last] ∧
      last.matcher = .final) (hd : d.reason = .rule ∨ d.reason = .final) :
    ∃ before c rule, o.compared = before ++ [c] ∧ e.rules[c.pos]? = some rule ∧
      d.matched = some rule.index ∧ d.outcome = .policy rule.policy ∧ c.verdict = .matched ∧
      ∀ b ∈ before, b.verdict ≠ .matched := by
  generalize hcs : o.compared = cs at h
  cases h with
  | failed _ h => rcases h with h | h <;> simp [h] at hd
  | hit before c rule hrule hm ho hv hmiss =>
    exact ⟨before, c, rule, rfl, hrule, hm, ho, hv, hmiss⟩
  | none _ hall hmiss =>
    obtain ⟨front, last, hrules, hlast⟩ := hfinal
    have hpos : front.length ∈ o.compared.map (·.pos) := by
      rw [hr.order, hcs, hall, hrules]
      simp
    obtain ⟨c, hc, hcp⟩ := List.mem_map.1 hpos
    obtain ⟨rule, hrule, hv⟩ := hr.told c hc
    obtain rfl : last = rule := by simpa [hrules, hcp] using hrule
    exact absurd (hv.symm.trans (verdict_final last hlast _)) (hmiss c (hcs ▸ hc))

theorem run_rule (env : Env) (e : RuleEngine) (s : SessionInfo) (facts : NetworkFacts)
    (answers : Answers) (hits : ℕ → ℕ) (warned : ℕ → Bool) :
    run env e s facts .rule answers hits warned =
      match prePass env s e.preRules (e.start facts hits warned) with
      | (some d, st) => (d, st)
      | (none, st) => runRules env e s answers 0 e.rules st := rfl

/-- **A decision is as it is meant to be exactly when it overlooks no process.** -/
theorem run_sound_iff {env : Env} {e : RuleEngine} {rules : List Rule} {sets : SetLookup}
    {geo : GeoLookup} {wifi : Bool} (he : build env.windows rules sets geo wifi = .ok e)
    (facts : NetworkFacts) (s : SessionInfo) (mode : OutboundMode) (answers : Answers)
    (hits : ℕ → ℕ) (warned : ℕ → Bool) :
    Sound env e s (run env e s facts mode answers hits warned).1
        (run env e s facts mode answers hits warned).2 ↔
      ¬ Overlooks env e facts s mode answers := by
  have hbypass : ∀ p reason, reason ≠ .rule → reason ≠ .final →
      Sound env e s (Decision.bypass p reason) (e.start facts hits warned) := fun p reason h h' =>
    ⟨by simp [start], by simp [start], by simp [start],
      fun hd => by rcases hd with hd | hd <;> simp_all [Decision.bypass],
      by simp [start], by simp [start]⟩
  cases mode with
  | direct => exact iff_of_true (hbypass _ _ (by simp) (by simp)) (by simp [Overlooks])
  | proxy p => exact iff_of_true (hbypass _ _ (by simp) (by simp)) (by simp [Overlooks])
  | rule =>
    have hpre := prePass_spec env s e.preRules (e.start facts hits warned)
    rw [run_rule]
    generalize prePass env s e.preRules (e.start facts hits warned) = r at hpre ⊢
    obtain ⟨d, st⟩ := r
    obtain ⟨hview, hnone, hreason⟩ := hpre
    dsimp only at hview hnone hreason ⊢
    have hcompared : st.compared = [] := congrArg RunView.compared hview
    have hresolves : st.resolves = [] := congrArg RunView.resolves hview
    have hasks : st.processAsks = 0 := congrArg RunView.processAsks hview
    have hknow : st.view.knowledge = e.startKnowledge facts := congrArg RunView.knowledge hview
    cases d with
    | some d =>
      refine iff_of_true ?_ (fun ho => ?_)
      · have := hreason d rfl
        exact ⟨by simp [hcompared], by simp [hcompared], by simp [hcompared],
          by simp [this], by simp [hresolves], by simp [hasks]⟩
      · exact absurd (hnone.2 ho.2.1) (by simp)
    | none =>
      have hlog : Logged env e s st.view := by
        rw [hview]
        exact ⟨rfl, rfl, by simp [RunState.view, start], by simp [RunState.view, start],
          by simp [RunState.view, start]⟩
      have hiff : (∀ c ∈ (runRules env e s answers 0 e.rules st).2.compared, c.verdict.Decided) ↔
          _ := runRules_decided_iff answers e.rules 0 st hlog.connected (by simp [hcompared])
      obtain ⟨hrep, hends⟩ := runRules_spec answers e.rules st hlog (by simp [hcompared])
        (by simp [hcompared])
      rw [hcompared] at hrep hends
      dsimp only [List.length_nil] at hrep hends ⊢
      have hover : Overlooks env e facts s .rule answers ↔ FirstOverlooked env s
          (answers.resolve st.resolves.length (lookupHost s)) st.view.knowledge e.rules := by
        rw [hknow, hresolves]
        exact ⟨fun h => h.2.2, fun h => ⟨rfl, hnone.1 rfl, h⟩⟩
      rw [hover, ← hiff]
      refine ⟨fun h => h.decided, fun h => ?_⟩
      refine ⟨h, hrep.order, hrep.told, fun hd => ?_, hrep.resolver, hrep.process⟩
      obtain ⟨before, c, rule, hcs, hrule, hm, ho, hv, hmiss⟩ :=
        hends.named hrep (build_final he) hd
      refine ⟨before, c, rule, hcs, hrule, hm, ho, hv, fun b hb => ?_⟩
      exact (h b (by
        rw [← RunState.view_compared, hcs]
        exact List.mem_append_left _ hb)).resolve_left (hmiss b hb)

/-! ### A table that overlooks the process -/

theorem inTen_le : 8 ≤ 32 := by decide
theorem inTest_le : 24 ≤ 32 := by decide

/-- `OR,((AND,((IP-CIDR,10.0.0.0/8,no-resolve),(PROCESS-NAME,p))),(IP-CIDR,192.0.2.0/24)),REJECT`
in front of `FINAL,DIRECT`. -/
def lateProcess : List Rule :=
  let inTen : SubRule := .mk (.ipCidr ⟨0x0a000000#32, 8, inTen_le⟩) true false []
  let byProcess : SubRule := .mk (.processName (.name ⟨['p'], [.lit 'p'], false⟩)) false false []
  let inTest : SubRule := .mk (.ipCidr ⟨0xc0000200#32, 24, inTest_le⟩) false false []
  let either : RuleKind := .or [.mk (.and [inTen, byProcess]) false false [], inTest]
  [⟨either, .builtin .reject, ⟨false, false, false, false⟩, []⟩,
    ⟨.final, .builtin .direct, ⟨false, false, false, false⟩, []⟩]

/-- The engine `build` makes of it. -/
def lateProcessEngine : RuleEngine :=
  let compiled := lateProcess.zipIdx.map (compileRule false fun _ _ => 0)
  ⟨compiled, 1, noGeo, true, []⟩

/-- The name is at 10.0.0.1, and the session is opened by `p`. -/
def tenAndP : Answers :=
  ⟨fun _ _ => .ok ⟨[0x0a000001#32], []⟩, fun _ => some ⟨none, ['p'], none⟩⟩

def toATest : SessionInfo := .ofTcp (.domain "a.test".toList) 443

theorem run_sound_iff_lateProcess :
    Sound noSets lateProcessEngine toATest
        (run noSets lateProcessEngine toATest ⟨none, none⟩ .rule tenAndP (fun _ => 0)
          fun _ => false).1
        (run noSets lateProcessEngine toATest ⟨none, none⟩ .rule tenAndP (fun _ => 0)
          fun _ => false).2 ↔
      ¬ Overlooks noSets lateProcessEngine ⟨none, none⟩ toATest .rule tenAndP :=
  run_sound_iff (show build noSets.windows lateProcess (fun _ _ => 0) noGeo true =
    .ok lateProcessEngine from rfl) _ _ _ _ _ _

/-- The process is not looked up: the rule is compared while it needs it, and FINAL decides. -/
theorem lateProcess_not_sound :
    build noSets.windows lateProcess (fun _ _ => 0) noGeo true = .ok lateProcessEngine ∧
      ¬ Sound noSets lateProcessEngine toATest
        (run noSets lateProcessEngine toATest ⟨none, none⟩ .rule tenAndP (fun _ => 0)
          fun _ => false).1
        (run noSets lateProcessEngine toATest ⟨none, none⟩ .rule tenAndP (fun _ => 0)
          fun _ => false).2 := by
  refine ⟨rfl, fun h => ?_⟩
  have hverdicts : (run noSets lateProcessEngine toATest ⟨none, none⟩ .rule tenAndP (fun _ => 0)
      fun _ => false).2.compared.map (·.verdict) = [.needsProcess, .matched] := by decide +kernel
  have hmem : Verdict.needsProcess ∈ (run noSets lateProcessEngine toATest ⟨none, none⟩ .rule
      tenAndP (fun _ => 0) fun _ => false).2.compared.map (·.verdict) := by simp [hverdicts]
  obtain ⟨c, hc, hv⟩ := List.mem_map.1 hmem
  have := h.decided c hc
  simp [Verdict.Decided, hv] at this

end RuleEngine

end Rurge
