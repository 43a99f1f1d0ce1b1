import Rurge.Rules.Open

/-!
# The rule engine

The compiled `[Rule]` table and one decision: the rules flagged `pre-matching` first, then the
table in written order, with the process and the destination looked up when a rule asks.

`RuleEngine.run` returns the decision together with the state it leaves: the counters of the rules,
the trace, how often the resolver and the process lookup were asked, and in `compared` each verdict
at the moment it is compared with a match, with what the evaluation knew then.
-/

namespace Rurge

inductive OutboundMode
  | direct
  | proxy (p : PolicyRef)
  | rule

structure CompiledRule where
  /-- Index into the rules of the profile. -/
  index : ℕ
  matcher : Matcher
  policy : PolicyRef
  params : RuleParams
  raw : Str

inductive Outcome
  | policy (p : PolicyRef)
  | dnsFailed
  deriving DecidableEq

inductive Reason
  | outboundModeDirect
  | outboundModeProxy
  | rule
  | final
  | dnsFailedFallback
  | dnsFailed
  | preMatching
  deriving DecidableEq

structure Decision where
  outcome : Outcome
  reason : Reason
  matched : Option ℕ
  subRule : Option SubRuleHit
  resolved : Option ResolvedAddrs
  notes : List Str
  deriving DecidableEq

def Decision.bypass (p : PolicyRef) (reason : Reason) : Decision :=
  ⟨.policy p, reason, none, none, none, []⟩

/-- One line of the trace. -/
structure TraceStep where
  rule : ℕ
  verdict : Str

structure RuleEngine where
  rules : List CompiledRule
  finalPos : ℕ
  geo : GeoLookup
  wifiAlwaysMatch : Bool
  /-- Positions of the rules flagged `pre-matching`. -/
  pre : List ℕ

def Rule.isFinal (r : Rule) : Bool :=
  match r.kind with
  | .final => true
  | _ => false

/-- The positions of the rules flagged `pre-matching`, in rule order. -/
def preMatchingPositions (rules : List CompiledRule) : List ℕ :=
  (rules.zipIdx.filter (·.1.params.preMatching)).map (·.2)

namespace RuleEngine

/-- One rule compiled, the `i`-th of the profile. -/
def compileRule (windows : Bool) (sets : SetLookup) (e : Rule × ℕ) : CompiledRule :=
  ⟨e.2, Matcher.compile windows sets e.1.kind, e.1.policy, e.1.params, e.1.raw⟩

/-- The rules up to the first FINAL, and the effective (last) FINAL at the end. -/
def build (windows : Bool) (rules : List Rule) (sets : SetLookup) (geo : GeoLookup)
    (wifiAlwaysMatch : Bool) : Except Str RuleEngine :=
  match rules.findIdx? (·.isFinal), rules.zipIdx.reverse.find? (·.1.isFinal) with
  | some first, some last =>
    let compiled := ((rules.take first).zipIdx ++ [last]).map (compileRule windows sets)
    .ok { rules := compiled
          finalPos := compiled.length - 1
          geo := geo
          wifiAlwaysMatch := wifiAlwaysMatch
          pre := preMatchingPositions compiled }
  | _, _ => .error "the [Rule] section has no FINAL rule".toList

end RuleEngine

/-! ### The state of a decision -/

inductive ResolveError
  | timeout
  | emptyAnswer
  | failed (why : Str)
  deriving DecidableEq

def ResolveError.text : ResolveError → Str
  | timeout => "timeout".toList
  | emptyAnswer => "empty answer".toList
  | failed why => why

/-- The answers of the resolver and of the process lookup, by how often each was asked before. -/
structure Answers where
  resolve : ℕ → Str → Except ResolveError ResolvedAddrs
  process : ℕ → Option ProcessInfo

/-- A verdict as it is compared with a match, and what was known then. -/
structure Compared where
  pos : ℕ
  verdict : Verdict
  knowledge : Knowledge

structure RunState where
  ctx : EvalCtx
  notes : List Str
  hits : ℕ → ℕ
  warned : ℕ → Bool
  trace : List TraceStep
  compared : List Compared
  /-- The names the resolver was asked for. -/
  resolves : List Str
  processAsks : ℕ

def verdictName : Verdict → Str
  | .matched => "match".toList
  | .noMatch => "no-match".toList
  | .needsResolve => "needs-resolve".toList
  | .needsProcess => "needs-process".toList
  | .needsConnection => "needs-connection".toList

namespace RunState

/-- Runtime notes are surfaced once per rule. -/
def collectNotes (st : RunState) (pos : ℕ) : RunState :=
  if st.ctx.notes = [] then st
  else if st.warned pos then { st with ctx := { st.ctx with notes := [] } }
  else
    { st with
      ctx := { st.ctx with notes := [] }
      warned := Function.update st.warned pos true
      notes := st.notes ++ st.ctx.notes }

def countHit (st : RunState) (pos : ℕ) : RunState :=
  { st with hits := Function.update st.hits pos (st.hits pos + 1) }

def traced (st : RunState) (rule : ℕ) (verdict : Str) : RunState :=
  { st with trace := st.trace ++ [⟨rule, verdict⟩] }

/-- The process is asked for. -/
def askProcess (st : RunState) (answers : Answers) : RunState :=
  { st with
    ctx := { st.ctx with process := .asked (answers.process st.processAsks) }
    processAsks := st.processAsks + 1 }

/-- The verdict is compared with a match. -/
def compare (st : RunState) (pos : ℕ) (v : Verdict) : RunState :=
  { st with compared := st.compared ++ [⟨pos, v, st.ctx.toKnowledge⟩] }

end RunState

namespace RuleEngine

variable (env : Env) (e : RuleEngine) (s : SessionInfo)

/-! ### The pre-pass -/

/-- Whether a flagged rule pre-matches: as if it had `no-resolve`, and only for a REJECT. -/
def preMatches (rule : CompiledRule) (ctx : EvalCtx) : Bool × EvalCtx :=
  let r := rule.matcher.eval env s ctx true rule.params.extendedMatching
  (r.1 = .matched && (match rule.policy with | .builtin b => b.isReject | _ => false), r.2)

/-- The flagged rules with their positions. -/
def preRules : List (ℕ × CompiledRule) :=
  e.pre.filterMap fun pos => (e.rules[pos]?).map (pos, ·)

/-- The first flagged rule that matches decides. -/
def prePass : List (ℕ × CompiledRule) → RunState → Option Decision × RunState
  | [], st => (none, st)
  | (pos, rule) :: rules, st =>
    let r := preMatches env s rule { st.ctx with subHit := none }
    let st := { st with ctx := r.2 }.collectNotes pos
    if r.1 then
      let st := (st.traced rule.index "pre-match".toList).countHit pos
      (some ⟨.policy rule.policy, .preMatching, some rule.index, st.ctx.subHit, none, st.notes⟩, st)
    else prePass rules st

/-! ### The table -/

def evalRule (rule : CompiledRule) (st : RunState) : Verdict × RunState :=
  let r := rule.matcher.eval env s st.ctx rule.params.noResolve rule.params.extendedMatching
  (r.1, { st with ctx := r.2 })

/-- The rule that gives the policy when nothing else does. -/
def finalRule : Option CompiledRule := e.rules[e.finalPos]?

def finalPolicy : PolicyRef := (e.finalRule.map (·.policy)).getD (.builtin .direct)

/-- A lookup failed while a rule waited for it. -/
def dnsFailed (rule : CompiledRule) (st : RunState) : Decision × RunState :=
  if e.finalRule.any (·.params.dnsFailed) then
    (⟨.policy e.finalPolicy, .dnsFailedFallback, e.finalRule.map (·.index), none, st.ctx.resolved,
      st.notes⟩, st.countHit e.finalPos)
  else (⟨.dnsFailed, .dnsFailed, some rule.index, none, none, st.notes⟩, st)

/-- A rule's verdict is compared with a match. -/
def settle (pos : ℕ) (rule : CompiledRule) (v : Verdict) (st : RunState) :
    Option Decision × RunState :=
  let st := ((st.compare pos v).collectNotes pos).traced rule.index (verdictName v)
  if v = .matched then
    let st := st.countHit pos
    (some ⟨.policy rule.policy, if pos = e.finalPos then .final else .rule, some rule.index,
      st.ctx.subHit, st.ctx.resolved, st.notes⟩, st)
  else (none, st)

/-- The name a rule that needs a lookup is resolved by. -/
def lookupHost : Str := s.dstHost.asDomain.getD []

/-- A rule asks for the addresses of the destination. -/
def resolveFor (answers : Answers) (pos : ℕ) (rule : CompiledRule) (st : RunState) :
    Option Decision × RunState :=
  let host := lookupHost s
  let st' := { st with resolves := st.resolves ++ [host] }
  match answers.resolve st.resolves.length host with
  | .ok addrs =>
    let r := evalRule env s rule { st' with ctx := { st'.ctx with resolved := some addrs } }
    settle e pos rule r.1 r.2
  | .error err =>
    let note := "DNS lookup for ".toList ++ host ++ " failed: ".toList ++ err.text
    let st' := ({ st' with notes := st'.notes ++ [note] }.collectNotes pos).traced rule.index
      "dns-failed".toList
    (some (dnsFailed e rule st').1, (dnsFailed e rule st').2)

/-- One rule: `none` when it does not decide. -/
def turn (answers : Answers) (pos : ℕ) (rule : CompiledRule) (st : RunState) :
    Option Decision × RunState :=
  let r := evalRule env s rule { st with ctx := { st.ctx with subHit := none } }
  let r := if r.1 = .needsProcess then evalRule env s rule (r.2.askProcess answers) else r
  if r.1 = .needsResolve then resolveFor env e s answers pos rule r.2
  else settle e pos rule r.1 r.2

/-- The rules from position `pos` on. -/
def runRules (answers : Answers) : ℕ → List CompiledRule → RunState → Decision × RunState
  | _, [], st =>
    (⟨.policy e.finalPolicy, .final, e.finalRule.map (·.index), none, st.ctx.resolved, st.notes⟩,
      st)
  | pos, rule :: rules, st =>
    match turn env e s answers pos rule st with
    | (some d, st) => (d, st)
    | (none, st) => runRules answers (pos + 1) rules st

/-- What an evaluation begins with: the counters as they are. -/
def start (facts : NetworkFacts) (hits : ℕ → ℕ) (warned : ℕ → Bool) : RunState where
  ctx := .withNetwork e.geo facts e.wifiAlwaysMatch
  notes := []
  hits := hits
  warned := warned
  trace := []
  compared := []
  resolves := []
  processAsks := 0

def run (facts : NetworkFacts) (mode : OutboundMode) (answers : Answers) (hits : ℕ → ℕ)
    (warned : ℕ → Bool) : Decision × RunState :=
  let st := e.start facts hits warned
  match mode with
  | .direct => (.bypass (.builtin .direct) .outboundModeDirect, st)
  | .proxy p => (.bypass p .outboundModeProxy, st)
  | .rule =>
    match prePass env s e.preRules st with
    | (some d, st) => (d, st)
    | (none, st) => runRules env e s answers 0 e.rules st

end RuleEngine

end Rurge
