import Rurge.Rules.Matcher

/-!
# Compiled sets

The lines of a set spread over a domain index, an address index, a table of AS numbers and a list
of everything else, and the evaluation of the whole.  `Matcher.eval` ties the handles of sets to
the sets behind them: nesting stops at `MAX_NESTING`, so an evaluation ends even when the handles
form a cycle.
-/

namespace Rurge

/-- A line of a set: a rule, or a name of a domain set file. -/
inductive SetLine
  | rule (sub : SubRule)
  | domain (name : Str) (suffix : Bool)

structure CompiledSet where
  name : Str
  kind : SetKind
  needsDns : Bool
  version : ℕ
  /-- Whether a domain rule of the set carries `extended-matching`. -/
  extended : Bool
  domains : DomainIndex
  ips : IpIndex
  /-- Whether a line in `ips` may ask for a lookup. -/
  ipsResolve : Bool
  /-- The AS numbers, each with the entry of the first line that names it. -/
  asns : List (ℕ × ℕ)
  asnsResolve : Bool
  /-- Everything else, in file order. -/
  linear : List (ℕ × CompiledSubRule)
  entries : List Str

/-- The kinds the manual calls domain rules. -/
def isDomainRule : RuleKind → Bool
  | .domain _ | .domainSuffix _ | .domainKeyword _ | .domainWildcard _ | .domainSet _ => true
  | _ => false

/-- The kinds that make a set want DNS unless they carry `no-resolve`. -/
def mayWantDns : RuleKind → Bool
  | .geoIp _ | .geoIpUnknown | .ipAsnUnknown | .ruleSet _ | .domainSet _ | .and _ | .or _
  | .not _ => true
  | _ => false

namespace SetLine

/-- The text a set reports for a line. -/
def entry : SetLine → Str
  | rule sub => sub.raw
  | domain name suffix => if suffix then '.' :: name else name

/-- The line is a domain rule that carries `extended-matching`. -/
def flagsExtended : SetLine → Bool
  | rule sub => sub.extendedMatching && isDomainRule sub.kind
  | domain _ _ => false

end SetLine

namespace CompiledSet

/-- A set without lines. -/
def empty (name : Str) (kind : SetKind) : CompiledSet where
  name := name
  kind := kind
  needsDns := false
  version := 0
  extended := false
  domains := ⟨[]⟩
  ips := .empty
  ipsResolve := false
  asns := []
  asnsResolve := false
  linear := []
  entries := []

/-- What is built up while the lines are read. -/
structure Building where
  domains : DomainIndexBuilder
  ips : IpIndex
  linear : List (ℕ × CompiledSubRule)
  entries : List Str
  needsDns : Bool
  ipsResolve : Bool
  asns : List (ℕ × ℕ)
  asnsResolve : Bool

def Building.empty : Building := ⟨[], .empty, [], [], false, false, [], false⟩

/-- One line, the `i`-th. -/
def addLine (windows : Bool) (sets : SetLookup) (extended : Bool) (b : Building) (i : ℕ)
    (line : SetLine) : Building :=
  match line with
  | .domain name suffix =>
    { b with
      domains := if suffix then b.domains.addSuffix name i else b.domains.addExact name i
      entries := b.entries ++ [line.entry] }
  | .rule sub =>
    let b := { b with entries := b.entries ++ [line.entry] }
    match sub.kind with
    | .domain d => { b with domains := b.domains.addExact d i }
    | .domainSuffix d => { b with domains := b.domains.addSuffix d i }
    | .ipCidr net =>
      { b with
        ips := b.ips.addV4 net i
        needsDns := b.needsDns || !sub.noResolve
        ipsResolve := b.ipsResolve || !sub.noResolve }
    | .ipCidr6 net =>
      { b with
        ips := b.ips.addV6 net i
        needsDns := b.needsDns || !sub.noResolve
        ipsResolve := b.ipsResolve || !sub.noResolve }
    | .ipAsn asn =>
      { b with
        asns := if (b.asns.lookup asn).isSome then b.asns else b.asns ++ [(asn, i)]
        needsDns := b.needsDns || !sub.noResolve
        asnsResolve := b.asnsResolve || !sub.noResolve }
    | kind =>
      { b with
        needsDns := b.needsDns || (!sub.noResolve && mayWantDns kind)
        linear := b.linear ++ [(i, .mk (Matcher.compile windows sets kind) sub.noResolve
          (sub.extendedMatching || (extended && isDomainRule kind)) sub.raw)] }

/-- The lines from the `i`-th on; `none` is the panic on a line whose number is not a `u32`. -/
def addLines (windows : Bool) (sets : SetLookup) (extended : Bool) :
    Building → ℕ → List SetLine → Option Building
  | b, _, [] => some b
  | b, i, line :: lines =>
    if i < 2 ^ 32 then addLines windows sets extended (addLine windows sets extended b i line)
      (i + 1) lines
    else none

def compile (windows : Bool) (name : Str) (kind : SetKind) (lines : List SetLine)
    (sets : SetLookup) (version : ℕ) : Option CompiledSet :=
  let extended := lines.any (·.flagsExtended)
  (addLines windows sets extended .empty 0 lines).map fun b =>
    { name := name
      kind := kind
      needsDns := b.needsDns
      version := version
      extended := extended
      domains := b.domains.build
      ips := b.ips
      ipsResolve := b.ipsResolve
      asns := b.asns
      asnsResolve := b.asnsResolve
      linear := b.linear
      entries := b.entries }

/-- The text of a line by its number. -/
def entry (set : CompiledSet) (i : ℕ) : Str := (set.entries[i]?).getD []

def hit (set : CompiledSet) (i : ℕ) : SetVerdict := ⟨.matched, some (set.entry i)⟩

/-- The names the domain index is asked for. -/
def targets (set : CompiledSet) (s : SessionInfo) (extended : Bool) : List Str :=
  domainTargets s (extended || set.extended)

/-- What the domain index finds: the hit of the first name it holds. -/
def domainHit (set : CompiledSet) (s : SessionInfo) (extended : Bool) : Option DomainHit :=
  if set.domains.isEmpty then none else (set.targets s extended).findSome? set.domains.lookup

/-- The loop over the linear lines: the line that matched, or what the lines wait for. -/
def evalLinear (windows : Bool) (evalSet : SetEval) (s : SessionInfo) (noResolve extended : Bool) :
    EvalCtx → Needs → List (ℕ × CompiledSubRule) → (ℕ ⊕ Needs) × EvalCtx
  | ctx, needs, [] => (.inr needs, ctx)
  | ctx, needs, (i, rule) :: linear =>
    let r := rule.matcher.evalWith windows evalSet s ctx (noResolve || rule.noResolve)
      (extended || rule.extended)
    if r.1 = .matched then (.inl i, r.2)
    else evalLinear windows evalSet s noResolve extended r.2 (needs.note r.1) linear

/-- The `IP-ASN` lines: one look-up stands for them all. -/
def evalAsns (set : CompiledSet) (s : SessionInfo) (noResolve : Bool) (ctx : EvalCtx)
    (needs : Needs) : (ℕ ⊕ Needs) × EvalCtx :=
  if set.asns.isEmpty then (.inr needs, ctx)
  else
    match targetIp s ctx.toKnowledge (noResolve || !set.asnsResolve) .any with
    | .ok ip =>
      let r := ctx.asn ip
      match r.1 with
      | .known asn =>
        match set.asns.lookup asn with
        | some i => (.inl i, r.2)
        | none => (.inr needs, r.2)
      | _ => (.inr needs, r.2)
    | .error v => (.inr (needs.note v), ctx)

/-- The address lines of one family. -/
def evalIps (set : CompiledSet) (s : SessionInfo) (noResolve : Bool) (k : Knowledge)
    (family : Family) (needs : Needs) : ℕ ⊕ Needs :=
  match targetIp s k (noResolve || !set.ipsResolve) family with
  | .ok ip =>
    match set.ips.lookup ip with
    | some i => .inl i
    | none => .inr needs
  | .error v => .inr (needs.note v)

/-- Both families, IPv4 first. -/
def evalIpsBoth (set : CompiledSet) (s : SessionInfo) (noResolve : Bool) (k : Knowledge)
    (needs : Needs) : ℕ ⊕ Needs :=
  if set.ips.isEmpty then .inr needs
  else
    match set.evalIps s noResolve k .v4 needs with
    | .inl i => .inl i
    | .inr needs => set.evalIps s noResolve k .v6 needs

/-- The domain index first, then the linear lines, then the AS numbers, then the addresses. -/
def evalWith (windows : Bool) (evalSet : SetEval) (set : CompiledSet) (s : SessionInfo)
    (ctx : EvalCtx) (noResolve extended : Bool) : SetVerdict × EvalCtx :=
  match set.domainHit s extended with
  | some h => (set.hit h.entry, ctx)
  | none =>
    match evalLinear windows evalSet s noResolve extended ctx .none set.linear with
    | (.inl i, ctx) => (set.hit i, ctx)
    | (.inr needs, ctx) =>
      match set.evalAsns s noResolve ctx needs with
      | (.inl i, ctx) => (set.hit i, ctx)
      | (.inr needs, ctx) =>
        match set.evalIpsBoth s noResolve ctx.toKnowledge needs with
        | .inl i => (set.hit i, ctx)
        | .inr needs => (⟨(stillNeeds needs).getD .noMatch, none⟩, ctx)

end CompiledSet

/-! ### Handles -/

/-- What stays the same under an evaluation: what the program was built for, and the sets behind
the handles. -/
structure Env where
  windows : Bool
  sets : SetRef → CompiledSet

/-- No rule refers to a set. -/
def noSets : Env := ⟨false, fun _ => .empty [] .ruleSet⟩

/-- How a handle is evaluated when at most `n` more sets may nest. -/
def Env.evalSet (env : Env) : ℕ → SetEval
  | 0 => fun _ _ ctx _ _ => (([], ⟨.noMatch, none⟩), ctx)
  | n + 1 => fun r s ctx noResolve extended =>
    let v := (env.sets r).evalWith env.windows (env.evalSet n) s ctx noResolve extended
    (((env.sets r).name, v.1), v.2)

/-- How many more sets may nest. -/
def Knowledge.depthLeft (k : Knowledge) : ℕ := MAX_NESTING - k.setDepth

def Matcher.eval (env : Env) (s : SessionInfo) (ctx : EvalCtx) (noResolve extended : Bool)
    (m : Matcher) : Verdict × EvalCtx :=
  m.evalWith env.windows (env.evalSet ctx.depthLeft) s ctx noResolve extended

def CompiledSubRule.eval (env : Env) (s : SessionInfo) (ctx : EvalCtx) (sub : CompiledSubRule) :
    Verdict × EvalCtx :=
  sub.evalWith env.windows (env.evalSet ctx.depthLeft) s ctx

def CompiledSet.eval (env : Env) (set : CompiledSet) (s : SessionInfo) (ctx : EvalCtx)
    (noResolve extended : Bool) : SetVerdict × EvalCtx :=
  set.evalWith env.windows (env.evalSet ctx.depthLeft) s ctx noResolve extended

end Rurge
