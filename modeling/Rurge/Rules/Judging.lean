import Rurge.Rules.Engine

/-!
# Judging one rule

`judge` is one turn of the engine as a function of what is known: the process is asked for first,
then the addresses, and what comes out is compared with a match.  `turn_judge` says that the
engine's turn is this.

The question is when the verdict that is compared is decided.  `judge_decided` answers it: unless
the rule asked for the addresses first and, knowing them, asks for the process (`Overlooked`).
-/

namespace Rurge

/-- What one turn came to. -/
structure Judgement where
  /-- The verdict compared with a match; `none`: the lookup failed. -/
  verdict : Option Verdict
  knowledge : Knowledge
  askedProcess : Bool
  askedResolver : Bool

def Knowledge.withProcess (k : Knowledge) (p : Option ProcessInfo) : Knowledge :=
  { k with process := .asked p }

def Knowledge.withAddrs (k : Knowledge) (addrs : ResolvedAddrs) : Knowledge :=
  { k with resolved := some addrs }

@[simp] theorem Knowledge.withProcess_process (k : Knowledge) (p : Option ProcessInfo) :
    (k.withProcess p).process = .asked p := rfl

@[simp] theorem Knowledge.withProcess_resolved (k : Knowledge) (p : Option ProcessInfo) :
    (k.withProcess p).resolved = k.resolved := rfl

@[simp] theorem Knowledge.withAddrs_process (k : Knowledge) (addrs : ResolvedAddrs) :
    (k.withAddrs addrs).process = k.process := rfl

@[simp] theorem Knowledge.withAddrs_resolved (k : Knowledge) (addrs : ResolvedAddrs) :
    (k.withAddrs addrs).resolved = some addrs := rfl

/-- One turn of a rule that says `v`. -/
def judge (v : Knowledge → Verdict) (process : Option ProcessInfo)
    (resolve : Except ResolveError ResolvedAddrs) (k : Knowledge) : Judgement :=
  let asked : Bool := v k = .needsProcess
  let k := if v k = .needsProcess then k.withProcess process else k
  if v k = .needsResolve then
    match resolve with
    | .ok addrs => ⟨some (v (k.withAddrs addrs)), k.withAddrs addrs, asked, true⟩
    | .error _ => ⟨none, k, asked, true⟩
  else ⟨some (v k), k, asked, false⟩

/-! ### The verdict compared -/

/-- The rule asks for the addresses, and once it knows them for the process, which nobody then
looks up. -/
def Overlooked (v : Knowledge → Verdict) (resolve : Except ResolveError ResolvedAddrs)
    (k : Knowledge) : Prop :=
  v k = .needsResolve ∧ ∃ addrs, resolve = .ok addrs ∧ v (k.withAddrs addrs) = .needsProcess

section

variable {s : SessionInfo} {v : Knowledge → Verdict} {k : Knowledge}
  {resolve : Except ResolveError ResolvedAddrs}

/-- A verdict that asks for nothing that is known, of a session with a connection, whose addresses
and process are known. -/
theorem Verdict.Open.decided {w : Verdict} (h : w.Open s k) (hb : k.beforeConnection = false)
    (hp : w ≠ .needsProcess) (hr : w ≠ .needsResolve) : w.Decided := by
  cases w with
  | matched => exact Or.inl rfl
  | noMatch => exact Or.inr rfl
  | needsConnection => exact absurd (hb.symm.trans h) (by decide)
  | needsProcess => exact absurd rfl hp
  | needsResolve => exact absurd rfl hr

theorem Verdict.Open.ne_needsProcess {w : Verdict} {p : Option ProcessInfo}
    (h : w.Open s (k.withProcess p)) : w ≠ .needsProcess := by
  rintro rfl
  exact absurd h.2 (by simp)

theorem Verdict.Open.ne_needsResolve {w : Verdict} {addrs : ResolvedAddrs}
    (h : w.Open s (k.withAddrs addrs)) : w ≠ .needsResolve := by
  rintro rfl
  exact absurd h.2.2 (by simp)

/-- **Only a process asked for after the addresses is overlooked.** -/
theorem judge_decided (process : Option ProcessInfo)
    (resolve : Except ResolveError ResolvedAddrs) (hv : ∀ k, (v k).Open s k)
    (hb : k.beforeConnection = false) {w : Verdict}
    (hw : (judge v process resolve k).verdict = some w) :
    w.Decided ∨ (Overlooked v resolve k ∧ w = .needsProcess) := by
  unfold judge at hw
  by_cases hp : v k = .needsProcess
  · simp only [if_pos hp] at hw
    by_cases hr : v (k.withProcess process) = .needsResolve
    · rw [if_pos hr] at hw
      cases resolve with
      | error err => cases hw
      | ok addrs =>
        obtain rfl := Option.some.inj hw
        have ho := hv ((k.withProcess process).withAddrs addrs)
        left
        refine ho.decided hb ?_ ho.ne_needsResolve
        rw [show (k.withProcess process).withAddrs addrs = (k.withAddrs addrs).withProcess process
          from rfl] at ho ⊢
        exact ho.ne_needsProcess
    · rw [if_neg hr] at hw
      obtain rfl := Option.some.inj hw
      exact Or.inl ((hv _).decided hb (hv (k.withProcess process)).ne_needsProcess hr)
  · simp only [if_neg hp] at hw
    by_cases hr : v k = .needsResolve
    · rw [if_pos hr] at hw
      cases resolve with
      | error err => cases hw
      | ok addrs =>
        obtain rfl := Option.some.inj hw
        by_cases hp' : v (k.withAddrs addrs) = .needsProcess
        · exact Or.inr ⟨⟨hr, addrs, rfl, hp'⟩, hp'⟩
        · exact Or.inl ((hv _).decided hb hp' (hv (k.withAddrs addrs)).ne_needsResolve)
    · rw [if_neg hr] at hw
      obtain rfl := Option.some.inj hw
      exact Or.inl ((hv k).decided hb hp hr)

/-- An overlooked process is compared as a miss. -/
theorem judge_overlooked (process : Option ProcessInfo) (h : Overlooked v resolve k) :
    (judge v process resolve k).verdict = some .needsProcess := by
  obtain ⟨hr, addrs, rfl, hp⟩ := h
  simp [judge, hr, hp]

/-- The addresses or the process are known. -/
def Informed (s : SessionInfo) (k : Knowledge) : Prop :=
  s.process ≠ none ∨ k.process ≠ .notAsked ∨ k.resolved ≠ none

/-- Nothing is overlooked once something is known. -/
theorem not_overlooked_of_informed (hv : ∀ k, (v k).Open s k) (hk : Informed s k) :
    ¬ Overlooked v resolve k := by
  rintro ⟨hr, addrs, -, hp⟩
  have hres : k.resolved = none := by have := hv k; rw [hr] at this; exact this.2.2
  have hproc : s.process = none ∧ k.process = .notAsked := by
    have := hv (k.withAddrs addrs)
    rw [hp] at this
    exact this
  rcases hk with h | h | h
  · exact h hproc.1
  · exact h hproc.2
  · exact h hres

/-- A turn that asked for nothing leaves what is known, and one that asked is informed. -/
theorem judge_knowledge (s : SessionInfo) (v : Knowledge → Verdict) (process : Option ProcessInfo)
    (resolve : Except ResolveError ResolvedAddrs) (k : Knowledge) :
    ((judge v process resolve k).knowledge = k ∧ (judge v process resolve k).verdict = some (v k) ∧
        (judge v process resolve k).askedProcess = false ∧
        (judge v process resolve k).askedResolver = false) ∨
      (judge v process resolve k).verdict = none ∨
      Informed s (judge v process resolve k).knowledge := by
  unfold judge
  by_cases hp : v k = .needsProcess
  · simp only [if_pos hp]
    split
    · cases resolve with
      | ok addrs => exact Or.inr (Or.inr (Or.inr (Or.inr (by simp))))
      | error err => exact Or.inr (Or.inl rfl)
    · exact Or.inr (Or.inr (Or.inr (Or.inl (by simp))))
  · simp only [if_neg hp]
    split
    · cases resolve with
      | ok addrs => exact Or.inr (Or.inr (Or.inr (Or.inr (by simp))))
      | error err => exact Or.inr (Or.inl rfl)
    · exact Or.inl ⟨rfl, rfl, decide_eq_false hp, rfl⟩

/-- A turn that does not miss nor match at once asks; one that is decided at once does not. -/
theorem judge_of_decided (process : Option ProcessInfo)
    (resolve : Except ResolveError ResolvedAddrs) (h : (v k).Decided) :
    judge v process resolve k = ⟨some (v k), k, false, false⟩ := by
  rcases h with h | h <;> simp [judge, h]

/-- What a turn that came to `j` has to do with what was known before, `k`. -/
structure Judgement.Fits (v : Knowledge → Verdict) (k : Knowledge) (j : Judgement) : Prop where
  connection : j.knowledge.beforeConnection = k.beforeConnection
  told : ∀ w, j.verdict = some w → v j.knowledge = w
  process : (j.askedProcess = true ∧ k.process = .notAsked ∧ j.knowledge.process ≠ .notAsked) ∨
    (j.askedProcess = false ∧ j.knowledge.process = k.process)
  resolver : (j.askedResolver = true ∧ k.resolved = none ∧
      (j.verdict = none ∨ j.knowledge.resolved ≠ none)) ∨
    (j.askedResolver = false ∧ j.knowledge.resolved = k.resolved)

theorem judge_fits (process : Option ProcessInfo) (resolve : Except ResolveError ResolvedAddrs)
    (hv : ∀ k, (v k).Open s k) (k : Knowledge) : (judge v process resolve k).Fits v k := by
  have hproc : v k = .needsProcess → k.process = .notAsked := fun h => by
    have := hv k
    rw [h] at this
    exact this.2
  have hres : ∀ k, v k = .needsResolve → k.resolved = none := fun k h => by
    have := hv k
    rw [h] at this
    exact this.2.2
  unfold judge
  by_cases hp : v k = .needsProcess
  · simp only [if_pos hp]
    split
    · rename_i hr
      cases resolve with
      | ok addrs =>
        exact ⟨rfl, fun w hw => Option.some.inj hw, by simp [hp, hproc hp],
          by simpa using hres (k.withProcess _) hr⟩
      | error err =>
        exact ⟨rfl, (fun _ hw => nomatch hw), by simp [hp, hproc hp],
          by simpa using hres (k.withProcess _) hr⟩
    · exact ⟨rfl, fun w hw => Option.some.inj hw, by simp [hp, hproc hp],
        by simp⟩
  · simp only [if_neg hp]
    split
    · rename_i hr
      cases resolve with
      | ok addrs =>
        exact ⟨rfl, fun w hw => Option.some.inj hw, by simp [hp],
          by simpa using hres _ hr⟩
      | error err => exact ⟨rfl, (fun _ hw => nomatch hw), by simp [hp], by simpa using hres _ hr⟩
    · exact ⟨rfl, fun w hw => Option.some.inj hw, by simp [hp], by simp⟩

end

/-! ### The engine's turn -/

/-- What a rule of the table says. -/
def CompiledRule.verdict (env : Env) (s : SessionInfo) (rule : CompiledRule) (k : Knowledge) :
    Verdict :=
  rule.matcher.verdict env s k rule.params.noResolve rule.params.extendedMatching

theorem CompiledRule.verdict_open (env : Env) (s : SessionInfo) (rule : CompiledRule)
    (k : Knowledge) : (rule.verdict env s k).Open s k :=
  rule.matcher.verdict_open env s k _ _

/-- What the state of a decision has to do with the questions. -/
structure RunView where
  knowledge : Knowledge
  compared : List Compared
  resolves : List Str
  processAsks : ℕ

def RunState.view (st : RunState) : RunView :=
  ⟨st.ctx.toKnowledge, st.compared, st.resolves, st.processAsks⟩

@[simp] theorem RunState.view_compared (st : RunState) : st.view.compared = st.compared := rfl

/-- A verdict compared with a match. -/
def RunView.compare (o : RunView) (pos : ℕ) (v : Verdict) : RunView :=
  { o with compared := o.compared ++ [⟨pos, v, o.knowledge⟩] }

/-- After a turn of the rule at `pos` that came to `j`. -/
def RunView.after (o : RunView) (s : SessionInfo) (pos : ℕ) (j : Judgement) : RunView where
  knowledge := j.knowledge
  compared := o.compared ++ (j.verdict.map fun v => ⟨pos, v, j.knowledge⟩).toList
  resolves := o.resolves ++ if j.askedResolver then [RuleEngine.lookupHost s] else []
  processAsks := o.processAsks + j.askedProcess.toNat

namespace RuleEngine

variable (env : Env) (e : RuleEngine) (s : SessionInfo)

@[simp] theorem view_collectNotes (st : RunState) (pos : ℕ) :
    (st.collectNotes pos).view = st.view := by
  unfold RunState.collectNotes
  split_ifs <;> rfl

@[simp] theorem view_traced (st : RunState) (rule : ℕ) (verdict : Str) :
    (st.traced rule verdict).view = st.view := rfl

@[simp] theorem view_countHit (st : RunState) (pos : ℕ) : (st.countHit pos).view = st.view := rfl

@[simp] theorem view_compare (st : RunState) (pos : ℕ) (v : Verdict) :
    (st.compare pos v).view = st.view.compare pos v := rfl

/-- Evaluating a rule gives its verdict and asks nobody. -/
theorem evalRule_spec (rule : CompiledRule) (st : RunState) :
    (evalRule env s rule st).1 = rule.verdict env s st.view.knowledge ∧
      (evalRule env s rule st).2.view = st.view := by
  refine ⟨rule.matcher.eval_verdict env s st.ctx _ _, ?_⟩
  have hk := rule.matcher.eval_knowledge env s st.ctx rule.params.noResolve
    rule.params.extendedMatching
  simp only [evalRule, RunState.view, hk]

/-- How a turn ends: by the verdict compared, or without one. -/
inductive Ends (rule : CompiledRule) : Option Verdict → Option Decision → Prop
  | failed (d : Decision) (h : d.reason = .dnsFailed ∨ d.reason = .dnsFailedFallback) :
      Ends rule none (some d)
  | hit (d : Decision) (h : d.matched = some rule.index) (h' : d.outcome = .policy rule.policy) :
      Ends rule (some .matched) (some d)
  | miss (v : Verdict) (h : v ≠ .matched) : Ends rule (some v) none

theorem settle_spec (pos : ℕ) (rule : CompiledRule) (v : Verdict) (st : RunState) :
    Ends rule (some v) (settle e pos rule v st).1 ∧
      (settle e pos rule v st).2.view = st.view.compare pos v := by
  unfold settle
  by_cases hv : v = .matched
  · simp only [if_pos hv]
    exact ⟨hv ▸ .hit _ rfl rfl, by simp⟩
  · simp only [if_neg hv]
    exact ⟨.miss v hv, by simp⟩

theorem dnsFailed_spec (rule : CompiledRule) (st : RunState) :
    ((dnsFailed e rule st).1.reason = .dnsFailed ∨
        (dnsFailed e rule st).1.reason = .dnsFailedFallback) ∧
      (dnsFailed e rule st).2.view = st.view := by
  unfold dnsFailed
  split_ifs
  · exact ⟨Or.inr rfl, rfl⟩
  · exact ⟨Or.inl rfl, rfl⟩

section

variable (answers : Answers) (pos : ℕ) (rule : CompiledRule) (st : RunState)

theorem resolveFor_ok {addrs : ResolvedAddrs}
    (h : answers.resolve st.resolves.length (lookupHost s) = .ok addrs) :
    Ends rule (some (rule.verdict env s (st.view.knowledge.withAddrs addrs)))
        (resolveFor env e s answers pos rule st).1 ∧
      (resolveFor env e s answers pos rule st).2.view = RunView.compare
        { st.view with
          knowledge := st.view.knowledge.withAddrs addrs
          resolves := st.resolves ++ [lookupHost s] }
        pos (rule.verdict env s (st.view.knowledge.withAddrs addrs)) := by
  simp only [resolveFor, h]
  obtain ⟨hv, hview⟩ := evalRule_spec env s rule { st with
    resolves := st.resolves ++ [lookupHost s]
    ctx := { st.ctx with resolved := some addrs } }
  obtain ⟨hends, hview'⟩ := settle_spec e pos rule (evalRule env s rule { st with
    resolves := st.resolves ++ [lookupHost s]
    ctx := { st.ctx with resolved := some addrs } }).1 (evalRule env s rule { st with
      resolves := st.resolves ++ [lookupHost s]
      ctx := { st.ctx with resolved := some addrs } }).2
  rw [hview] at hview'
  rw [hv] at hends hview' ⊢
  exact ⟨hends, hview'⟩

theorem resolveFor_error {err : ResolveError}
    (h : answers.resolve st.resolves.length (lookupHost s) = .error err) :
    Ends rule none (resolveFor env e s answers pos rule st).1 ∧
      (resolveFor env e s answers pos rule st).2.view =
        { st.view with resolves := st.resolves ++ [lookupHost s] } := by
  simp only [resolveFor, h]
  obtain ⟨hr, hview⟩ := dnsFailed_spec e rule ((RunState.collectNotes { st with
    resolves := st.resolves ++ [lookupHost s]
    notes := st.notes ++ ["DNS lookup for ".toList ++ lookupHost s ++ " failed: ".toList ++
      err.text] } pos).traced rule.index "dns-failed".toList)
  refine ⟨.failed _ hr, hview.trans ?_⟩
  rw [view_traced, view_collectNotes]
  rfl

/-- The process is asked for when the rule needs it, and the rule evaluated again. -/
def afterProcess (answers : Answers) (rule : CompiledRule) (st : RunState) : Verdict × RunState :=
  let r := evalRule env s rule { st with ctx := { st.ctx with subHit := none } }
  if r.1 = .needsProcess then evalRule env s rule (r.2.askProcess answers) else r

theorem afterProcess_spec :
    (afterProcess env s answers rule st).1 =
        rule.verdict env s (afterProcess env s answers rule st).2.view.knowledge ∧
      (afterProcess env s answers rule st).2.view =
        { st.view with
          knowledge := if rule.verdict env s st.view.knowledge = .needsProcess
            then st.view.knowledge.withProcess (answers.process st.processAsks)
            else st.view.knowledge
          processAsks := st.processAsks +
            (decide (rule.verdict env s st.view.knowledge = .needsProcess)).toNat } := by
  obtain ⟨hv, hview⟩ := evalRule_spec env s rule { st with ctx := { st.ctx with subHit := none } }
  rw [show RunState.view { st with ctx := { st.ctx with subHit := none } } = st.view from rfl]
    at hv hview
  unfold afterProcess
  by_cases hp : rule.verdict env s st.view.knowledge = .needsProcess
  · simp only [hv, if_pos hp]
    generalize (evalRule env s rule { st with ctx := { st.ctx with subHit := none } }).2 = st₁
      at hview
    obtain ⟨hv', hview'⟩ := evalRule_spec env s rule (st₁.askProcess answers)
    refine ⟨by rw [hv', hview'], hview'.trans ?_⟩
    have hask : (st₁.askProcess answers).view =
        { st₁.view with
          knowledge := st₁.view.knowledge.withProcess (answers.process st₁.view.processAsks)
          processAsks := st₁.view.processAsks + 1 } := rfl
    rw [hask, hview, hp]
    rfl
  · simp only [hv, if_neg hp]
    refine ⟨by rw [hview], hview.trans ?_⟩
    rw [decide_eq_false hp]
    rfl

/-- **A turn of the engine is `judge`.** -/
theorem turn_judge :
    let j := judge (rule.verdict env s) (answers.process st.processAsks)
      (answers.resolve st.resolves.length (lookupHost s)) st.view.knowledge
    Ends rule j.verdict (turn env e s answers pos rule st).1 ∧
      (turn env e s answers pos rule st).2.view = st.view.after s pos j := by
  obtain ⟨hv, hview⟩ := afterProcess_spec env s answers rule st
  have hturn : turn env e s answers pos rule st =
      if (afterProcess env s answers rule st).1 = .needsResolve
        then resolveFor env e s answers pos rule (afterProcess env s answers rule st).2
        else settle e pos rule (afterProcess env s answers rule st).1
          (afterProcess env s answers rule st).2 := rfl
  rw [hturn, hv]
  generalize (afterProcess env s answers rule st).2 = st₁ at hview
  have hres : st₁.resolves = st.resolves := congrArg RunView.resolves hview
  have hknow := congrArg RunView.knowledge hview
  dsimp only at hknow
  unfold judge
  dsimp only
  rw [← hknow]
  by_cases hr : rule.verdict env s st₁.view.knowledge = .needsResolve
  · rw [if_pos hr, if_pos hr]
    cases ha : answers.resolve st.resolves.length (lookupHost s) with
    | ok addrs =>
      obtain ⟨hends, hview'⟩ := resolveFor_ok env e s answers pos rule st₁ (hres ▸ ha)
      refine ⟨hends, hview'.trans ?_⟩
      rw [hres, hview, ← hknow]
      rfl
    | error err =>
      obtain ⟨hends, hview'⟩ := resolveFor_error env e s answers pos rule st₁ (hres ▸ ha)
      refine ⟨hends, hview'.trans ?_⟩
      rw [hres, hview, ← hknow]
      simp [RunView.after, RunState.view]
  · rw [if_neg hr, if_neg hr]
    obtain ⟨hends, hview'⟩ := settle_spec e pos rule (rule.verdict env s st₁.view.knowledge) st₁
    refine ⟨hends, hview'.trans ?_⟩
    rw [hview, ← hknow]
    simp [RunView.compare, RunView.after, RunState.view]

end

end RuleEngine

end Rurge
