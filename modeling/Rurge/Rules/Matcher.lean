import Rurge.Config.Rule
import Rurge.Rules.DomainIndex
import Rurge.Rules.IpIndex
import Rurge.Rules.Verdict

/-!
# Matchers

One rule compiled, and its evaluation as the program runs it: `Matcher.evalWith` threads the
context of the evaluation (`EvalCtx`), whose caches, notes and set hit change on the way, while
what the evaluation knows (`Knowledge`) does not.

* Domain rules look at the destination name, and with `extended-matching` at the SNI and the HTTP
  host as well.
* Address rules ask for a lookup by answering `needsResolve`, unless they carry `no-resolve`.
* A set is evaluated through the handle it is referred to by; how a handle is evaluated is a
  parameter here (`SetEval`) and is tied to the compiled sets afterwards.
-/

namespace Rurge

/-- How deep sets may nest while they are evaluated. -/
def MAX_NESTING : ℕ := 8

structure ResolvedAddrs where
  v4 : List Ipv4Addr
  v6 : List Ipv6Addr
  deriving DecidableEq

/-- What a database says of an address. -/
inductive GeoResult (α : Type)
  | notLoaded
  | unknown
  | known (a : α)
  deriving DecidableEq

abbrev CountryCode := UInt8 × UInt8

/-- The databases, which do not change under one evaluation. -/
structure GeoLookup where
  country : IpAddr → GeoResult CountryCode
  asn : IpAddr → GeoResult ℕ

/-- No database loaded. -/
def noGeo : GeoLookup := ⟨fun _ => .notLoaded, fun _ => .notLoaded⟩

structure SubRuleHit where
  set : Str
  entry : Str
  deriving DecidableEq

/-- What an evaluation has been told of the process that opened the session. -/
inductive ProcessState
  | notAsked
  | asked (found : Option ProcessInfo)
  deriving DecidableEq

/-- The answer a function gave last, kept with what it was asked. -/
structure Memo {α β : Type} (f : α → β) where
  last : Option {p : α × β // p.2 = f p.1}

namespace Memo

variable {α β : Type} [DecidableEq α] {f : α → β}

/-- Asks again only for another argument. -/
def ask (m : Memo f) (a : α) : β × Memo f :=
  match m.last with
  | some ⟨(a', b), _⟩ => if a' = a then (b, m) else (f a, ⟨some ⟨(a, f a), rfl⟩⟩)
  | none => (f a, ⟨some ⟨(a, f a), rfl⟩⟩)

@[simp] theorem ask_fst (m : Memo f) (a : α) : (m.ask a).1 = f a := by
  unfold ask
  split
  · rename_i a' b h _
    split_ifs with heq
    · exact heq ▸ h
    · rfl
  · rfl

end Memo

/-- What an evaluation knows.  `setDepth` is how many sets are being evaluated around it. -/
structure Knowledge where
  resolved : Option ResolvedAddrs
  process : ProcessState
  /-- The session has no connection yet, as with a DNS query. -/
  beforeConnection : Bool
  geo : GeoLookup
  /-- The network, with `subnet-exp-wifi-always-match`; `none`: never told. -/
  network : Option (NetworkFacts × Bool)
  setDepth : ℕ

/-- The state of one evaluation. -/
structure EvalCtx extends Knowledge where
  notes : List Str
  /-- The line of a set that is part of why the rule matched. -/
  subHit : Option SubRuleHit
  countryCache : Memo geo.country
  asnCache : Memo geo.asn

namespace EvalCtx

/-- An evaluation that begins with the knowledge `k`. -/
def ofKnowledge (k : Knowledge) : EvalCtx := ⟨k, [], none, ⟨none⟩, ⟨none⟩⟩

/-- An evaluation on the network `facts`. -/
def withNetwork (geo : GeoLookup) (facts : NetworkFacts) (wifiAlwaysMatch : Bool) : EvalCtx :=
  ofKnowledge
    { resolved := none
      process := .notAsked
      beforeConnection := false
      geo := geo
      network := some (facts, wifiAlwaysMatch)
      setDepth := 0 }

def country (ctx : EvalCtx) (ip : IpAddr) : GeoResult CountryCode × EvalCtx :=
  ((ctx.countryCache.ask ip).1, { ctx with countryCache := (ctx.countryCache.ask ip).2 })

def asn (ctx : EvalCtx) (ip : IpAddr) : GeoResult ℕ × EvalCtx :=
  ((ctx.asnCache.ask ip).1, { ctx with asnCache := (ctx.asnCache.ask ip).2 })

/-- The branches of an `AND` or an `OR`: a branch that did not decide anything leaves the set hit
as it was found. -/
def inBranches (ctx : EvalCtx) (eval : EvalCtx → Verdict × EvalCtx) : Verdict × EvalCtx :=
  let r := eval { ctx with subHit := none }
  if r.1 ≠ .matched ∨ r.2.subHit = none then (r.1, { r.2 with subHit := ctx.subHit }) else r

end EvalCtx

/-- The handle of a set. -/
abbrev SetRef := ℕ

/-- Where the rules that refer to a set find its handle. -/
abbrev SetLookup := ResourceRef → SetKind → SetRef

structure SetVerdict where
  verdict : Verdict
  entry : Option Str
  deriving DecidableEq

mutual

inductive Matcher
  | domain (d : Str)
  | domainSuffix (d : Str)
  | domainKeyword (k : Str)
  | domainWildcard (g : Glob)
  | ipCidr (net : Ipv4Net)
  | ipCidr6 (net : Ipv6Net)
  | geoIp (code : CountryCode)
  | geoIpUnknown
  | ipAsn (asn : ℕ)
  | ipAsnUnknown
  | userAgent (g : Glob)
  | urlRegex (p : Pattern)
  | processName (p : ProcessPattern)
  | destPort (p : PortExpr)
  | srcPort (p : PortExpr)
  | inPort (p : PortExpr)
  | srcIp (net : IpNetAny)
  | protocol (k : ProtocolKind)
  | hostnameType (t : HostnameType)
  | subnet (e : SubnetExpr)
  | and (subs : List CompiledSubRule)
  | or (subs : List CompiledSubRule)
  | not (sub : CompiledSubRule)
  | set (r : SetRef)
  | unsupported (kind : Str)
  | never
  | final

inductive CompiledSubRule
  | mk (matcher : Matcher) (noResolve extended : Bool) (raw : Str)

end

namespace CompiledSubRule

def matcher : CompiledSubRule → Matcher
  | mk matcher _ _ _ => matcher

def noResolve : CompiledSubRule → Bool
  | mk _ noResolve _ _ => noResolve

def extended : CompiledSubRule → Bool
  | mk _ _ extended _ => extended

def raw : CompiledSubRule → Str
  | mk _ _ _ raw => raw

end CompiledSubRule

/-! ### Process patterns -/

/-- Windows paths compare case-insensitively with `\` separators. -/
def normalizeProcessPathFor (windows : Bool) (path : Str) : Str :=
  if windows then Str.toAsciiLowercase (Str.replaceChar '/' '\\' path) else path

/-- The `PROCESS-NAME` pattern of a rule, made for a host. -/
def compileProcessPattern (windows : Bool) : ProcessPattern → ProcessPattern
  | .path g =>
    .path ((Glob.new (normalizeProcessPathFor windows g.source) ⟨windows, false⟩).getD g)
  | .name g => if windows then .name ((Glob.new g.source ⟨true, false⟩).getD g) else .name g
  | .pre p => .pre p

def processMatchesFor (windows : Bool) (pattern : ProcessPattern) (p : ProcessInfo) : Bool :=
  match pattern with
  | .name g => g.isMatch p.name
  | .path g => p.path.any fun path => g.isMatch (normalizeProcessPathFor windows path)
  | .pre pre => p.path.any fun path =>
      (normalizeProcessPathFor windows pre).isPrefixOf (normalizeProcessPathFor windows path)

/-! ### Compiling -/

/-- The two bytes of a country code, in upper case. -/
def countryCode (code : Str) : Option CountryCode :=
  let upper (b : UInt8) : UInt8 := if 97 ≤ b ∧ b ≤ 122 then b - 32 else b
  match (Str.trim code).flatMap String.utf8EncodeChar with
  | [a, b] => some (upper a, upper b)
  | _ => none

mutual

/-- `windows` is what the program was built for. -/
def Matcher.compile (windows : Bool) (sets : SetLookup) : RuleKind → Matcher
  | .domain d => .domain (Str.toAsciiLowercase d)
  | .domainSuffix d => .domainSuffix (Str.toAsciiLowercase (Str.trimStartMatches '.' d))
  | .domainKeyword k => .domainKeyword (Str.toAsciiLowercase k)
  | .domainWildcard g => .domainWildcard g
  | .domainSet r => .set (sets r .domainSet)
  | .ipCidr net => .ipCidr net
  | .ipCidr6 net => .ipCidr6 net
  | .geoIp code => match countryCode code with
    | some c => .geoIp c
    | none => .never
  | .geoIpUnknown => .geoIpUnknown
  | .ipAsn asn => .ipAsn asn
  | .ipAsnUnknown => .ipAsnUnknown
  | .userAgent g => .userAgent g
  | .urlRegex p => .urlRegex p
  | .processName p => .processName (compileProcessPattern windows p)
  | .destPort p => .destPort p
  | .srcPort p => .srcPort p
  | .inPort p => .inPort p
  | .srcIp net => .srcIp net
  | .deviceName _ => .unsupported "DEVICE-NAME".toList
  | .macAddress _ => .unsupported "MAC-ADDRESS".toList
  | .protocol k => .protocol k
  | .hostnameType t => .hostnameType t
  | .subnet e => .subnet e
  | .cellularRadio _ => .never
  | .cellularCarrier _ => .never
  | .and subs => .and (compileSubrules windows sets subs)
  | .or subs => .or (compileSubrules windows sets subs)
  | .not sub => .not (compileSubrule windows sets sub)
  | .script _ => .unsupported "SCRIPT".toList
  | .ruleSet r => .set (sets r .ruleSet)
  | .final => .final

def compileSubrule (windows : Bool) (sets : SetLookup) : SubRule → CompiledSubRule
  | .mk kind noResolve extended raw =>
    .mk (Matcher.compile windows sets kind) noResolve extended raw

def compileSubrules (windows : Bool) (sets : SetLookup) : List SubRule → List CompiledSubRule
  | [] => []
  | sub :: subs => compileSubrule windows sets sub :: compileSubrules windows sets subs

end

/-! ### What the leaves look at -/

/-- The names a domain rule is checked against. -/
def domainTargets (s : SessionInfo) (extended : Bool) : List Str :=
  s.dstHost.asDomain.toList ++ (if extended then s.sni.toList ++ s.httpHost.toList else [])

/-- `host` is `suffix`, or ends with a dot and `suffix`. -/
def isSuffix (host suffix : Str) : Bool :=
  host == suffix || (suffix.length < host.length && suffix.isSuffixOf host &&
    host[host.length - suffix.length - 1]? == some '.')

inductive Family
  | v4
  | v6
  | any

namespace Family

def admits : Family → IpAddr → Bool
  | v4, ip => ip.isIpv4
  | v6, ip => ip.isIpv6
  | any, _ => true

/-- The address of an answer that a rule of this family looks at. -/
def pick : Family → ResolvedAddrs → Option IpAddr
  | v4, r => r.v4.head?.map .v4
  | v6, r => r.v6.head?.map .v6
  | any, r => (r.v4.head?.map .v4).or (r.v6.head?.map .v6)

end Family

/-- The address an address rule tests, or the verdict to return instead. -/
def targetIp (s : SessionInfo) (k : Knowledge) (noResolve : Bool) (family : Family) :
    Except Verdict IpAddr :=
  match s.dstHost.asIp with
  | some ip => if family.admits ip then .ok ip else .error .noMatch
  | none =>
    -- before the connection exists the address of a name is not known
    if k.beforeConnection then .error .needsConnection
    else
      match k.resolved with
      | none => .error (if noResolve then .noMatch else .needsResolve)
      | some r =>
        match family.pick r with
        | some ip => .ok ip
        | none => .error .noMatch

/-- `url` with another host and the same port; `none` if it has no authority. -/
def replaceUrlHost (url host : Str) : Option Str :=
  match Str.find "://".toList url with
  | none => none
  | some at_ =>
    let rest := url.drop (at_ + 3)
    let authority := rest.takeWhile (· != '/')
    let port := ((Str.rsplitOnce ':' authority).map (·.2)).filter fun p =>
      p ≠ [] && p.all Char.isDigit
    some (url.take (at_ + 3) ++ host ++ ((port.map fun p => ':' :: p).getD []) ++
      rest.dropWhile (· != '/'))

/-- Whether the expression matches the URL, or with `extended` the URL with the SNI or the HTTP
host in it. -/
def urlMatches (p : Pattern) (s : SessionInfo) (extended : Bool) (url : Str) : Bool :=
  (p.regexIsMatch url).getD false ||
    (extended && (s.sni.toList ++ s.httpHost.toList).any fun host =>
      (replaceUrlHost url host).any fun u => (p.regexIsMatch u).getD false)

/-- What a `PROCESS-NAME` rule says: the process the caller named is read first, then the one the
evaluation was told. -/
def processVerdict (windows : Bool) (pp : ProcessPattern) (s : SessionInfo) (p : ProcessState) :
    Verdict :=
  match s.process, p with
  | some given, _ => .ofBool (processMatchesFor windows pp given)
  | none, .notAsked => .needsProcess
  | none, .asked found => .ofBool (found.any (processMatchesFor windows pp))

/-- The sniffed protocol, or the transport for `TCP` and `UDP`. -/
def protocolMatches (k : ProtocolKind) (s : SessionInfo) : Bool :=
  s.protocol == some k || (k == .tcp && s.transport == .tcp) || (k == .udp && s.transport == .udp)

/-- Whether the rule looks at something only the connection has, other than an address. -/
def Matcher.needsTheConnection : Matcher → Bool
  | .destPort _ | .srcPort _ | .inPort _ | .protocol _ | .userAgent _ | .urlRegex _ => true
  | _ => false

def unsupportedNote (kind : Str) : Str :=
  kind ++ " rules are not supported in this version; treated as no match".toList

/-! ### Evaluating -/

/-- How the set behind a handle is evaluated. -/
abbrev SetEval := SetRef → SessionInfo → EvalCtx → Bool → Bool → (Str × SetVerdict) × EvalCtx

/-- What an address rule does with the address it tests. -/
def onTargetIp (s : SessionInfo) (ctx : EvalCtx) (noResolve : Bool) (family : Family)
    (test : IpAddr → Verdict × EvalCtx) : Verdict × EvalCtx :=
  match targetIp s ctx.toKnowledge noResolve family with
  | .ok ip => test ip
  | .error v => (v, ctx)

mutual

def Matcher.evalWith (windows : Bool) (evalSet : SetEval) (s : SessionInfo) (ctx : EvalCtx)
    (noResolve extended : Bool) (m : Matcher) : Verdict × EvalCtx :=
  if ctx.beforeConnection && m.needsTheConnection then (.needsConnection, ctx)
  else
    match m with
    | .domain d => (.ofBool ((domainTargets s extended).any (· == d)), ctx)
    | .domainSuffix d => (.ofBool ((domainTargets s extended).any (isSuffix · d)), ctx)
    | .domainKeyword k => (.ofBool ((domainTargets s extended).any (Str.containsStr k)), ctx)
    | .domainWildcard g => (.ofBool ((domainTargets s extended).any g.isMatch), ctx)
    | .ipCidr net => onTargetIp s ctx noResolve .v4 fun ip =>
        (.ofBool ((IpNetAny.v4 net).contains ip), ctx)
    | .ipCidr6 net => onTargetIp s ctx noResolve .v6 fun ip =>
        (.ofBool ((IpNetAny.v6 net).contains ip), ctx)
    | .geoIp code => onTargetIp s ctx noResolve .any fun ip =>
        (.ofBool ((ctx.country ip).1 == .known code), (ctx.country ip).2)
    | .geoIpUnknown => onTargetIp s ctx noResolve .any fun ip =>
        (.ofBool ((ctx.country ip).1 == .unknown), (ctx.country ip).2)
    | .ipAsn asn => onTargetIp s ctx noResolve .any fun ip =>
        (.ofBool ((ctx.asn ip).1 == .known asn), (ctx.asn ip).2)
    | .ipAsnUnknown => onTargetIp s ctx noResolve .any fun ip =>
        (.ofBool ((ctx.asn ip).1 == .unknown), (ctx.asn ip).2)
    | .userAgent g => (.ofBool (s.userAgent.any g.isMatch), ctx)
    | .urlRegex p => (.ofBool (s.url.any (urlMatches p s extended)), ctx)
    | .processName pp => (processVerdict windows pp s ctx.process, ctx)
    | .destPort p => (.ofBool (p.isMatch s.dstPort), ctx)
    | .srcPort p => (.ofBool (p.isMatch s.src.port), ctx)
    | .inPort p => (.ofBool (p.isMatch s.inPort), ctx)
    | .srcIp net => (.ofBool (net.contains s.src.ip), ctx)
    | .protocol k => (.ofBool (protocolMatches k s), ctx)
    | .hostnameType t => (.ofBool (s.hostnameType == t), ctx)
    | .subnet e => (.ofBool (ctx.network.any fun n => e.isMatch n.1 n.2), ctx)
    | .and subs => ctx.inBranches fun ctx => evalAnd windows evalSet s ctx .none subs
    | .or subs => ctx.inBranches fun ctx => evalOr windows evalSet s ctx .none subs
    | .not sub =>
      -- what matched inside a NOT is not what matched the rule
      let r := sub.evalWith windows evalSet s { ctx with subHit := none }
      (r.1.not, { r.2 with subHit := ctx.subHit })
    | .set r =>
      if MAX_NESTING ≤ ctx.setDepth then (.noMatch, ctx)
      else
        let e := evalSet r s { ctx with setDepth := ctx.setDepth + 1 } noResolve extended
        let after := { e.2 with setDepth := e.2.setDepth - 1 }
        if e.1.2.verdict = .matched then
          (.matched, { after with subHit := some ⟨e.1.1, e.1.2.entry.getD []⟩ })
        else (e.1.2.verdict, after)
    | .unsupported kind => (.noMatch, { ctx with notes := ctx.notes ++ [unsupportedNote kind] })
    | .never => (.noMatch, ctx)
    | .final => (.matched, ctx)

def CompiledSubRule.evalWith (windows : Bool) (evalSet : SetEval) (s : SessionInfo) (ctx : EvalCtx)
    (sub : CompiledSubRule) : Verdict × EvalCtx :=
  match sub with
  | .mk matcher noResolve extended _ => matcher.evalWith windows evalSet s ctx noResolve extended

/-- The loop of an `AND`. -/
def evalAnd (windows : Bool) (evalSet : SetEval) (s : SessionInfo) (ctx : EvalCtx) (needs : Needs)
    (subs : List CompiledSubRule) : Verdict × EvalCtx :=
  match subs with
  | [] => ((stillNeeds needs).getD .matched, ctx)
  | sub :: subs =>
    let r := sub.evalWith windows evalSet s ctx
    if r.1 = .noMatch then r else evalAnd windows evalSet s r.2 (needs.note r.1) subs

/-- The loop of an `OR`. -/
def evalOr (windows : Bool) (evalSet : SetEval) (s : SessionInfo) (ctx : EvalCtx) (needs : Needs)
    (subs : List CompiledSubRule) : Verdict × EvalCtx :=
  match subs with
  | [] => ((stillNeeds needs).getD .noMatch, ctx)
  | sub :: subs =>
    let r := sub.evalWith windows evalSet s ctx
    if r.1 = .matched then r else evalOr windows evalSet s r.2 (needs.note r.1) subs

end

end Rurge
