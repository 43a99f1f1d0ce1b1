import Rurge.Rules.Careful

/-!
# Pre-matching

The rules flagged `pre-matching` asked ahead of a session: at the DNS query for its name, and at the
first packet of its connection.  `preMatch_stands` says when a name that is refused at the query is
refused at every connection to it.
-/

namespace Rurge

structure PreMatch where
  rule : ℕ
  policy : PolicyRef
  subRule : Option SubRuleHit
  deriving DecidableEq

namespace SessionInfo

/-- What the query for `name` is to a rule: the endpoint of the app, no port, the transport of the
query. -/
def dnsQuery (src : SocketAddr) (transport : Transport) (name : Str) : SessionInfo :=
  { ofTcp (.domain name) 0 with src := src, inPort := 0, transport := transport }

theorem follows_dnsQuery {c : SessionInfo} {src : SocketAddr} {name : Str}
    (hdst : c.dstHost = .domain name) (hsrc : c.src.ip = src.ip) (transport : Transport) :
    Follows c (dnsQuery src transport name) :=
  ⟨hdst, hsrc, rfl, rfl, rfl⟩

end SessionInfo

namespace RuleEngine

variable (env : Env) (e : RuleEngine)

/-- What the flagged rules are judged with at a layer. -/
def preContext (facts : NetworkFacts) (layer : PreMatchLayer) : EvalCtx :=
  { EvalCtx.withNetwork e.geo facts e.wifiAlwaysMatch with beforeConnection := layer = .dns }

/-- The loop over the flagged rules. -/
def firstPreHitFrom (s : SessionInfo) :
    EvalCtx → List (ℕ × CompiledRule) → Option (ℕ × CompiledRule × Option SubRuleHit)
  | _, [] => none
  | ctx, (pos, rule) :: rules =>
    let r := preMatches env s rule { ctx with subHit := none }
    if r.1 then some (pos, rule, r.2.subHit)
    else firstPreHitFrom s { r.2 with notes := [] } rules

/-- The first flagged rule that refuses `s` at `layer`. -/
def firstPreHit (facts : NetworkFacts) (s : SessionInfo) (layer : PreMatchLayer) :
    Option (ℕ × CompiledRule × Option SubRuleHit) :=
  firstPreHitFrom env s (e.preContext facts layer) e.preRules

/-- The refusal of `s` at `layer`, with the counters of the rules after it. -/
def preMatch (facts : NetworkFacts) (s : SessionInfo) (layer : PreMatchLayer) (hits : ℕ → ℕ) :
    Option PreMatch × (ℕ → ℕ) :=
  match e.firstPreHit env facts s layer with
  | some (pos, rule, subRule) =>
    (some ⟨rule.index, rule.policy, subRule⟩, Function.update hits pos (hits pos + 1))
  | none => (none, hits)

/-! ### Which sessions are refused -/

theorem firstPreHitFrom_isSome (s : SessionInfo) (ctx : EvalCtx)
    (rules : List (ℕ × CompiledRule)) : (firstPreHitFrom env s ctx rules).isSome = true ↔
      ∃ p ∈ rules, PreHit env s ctx.toKnowledge p.2 := by
  induction rules generalizing ctx with
  | nil => simp [firstPreHitFrom]
  | cons p rules ih =>
    obtain ⟨pos, rule⟩ := p
    obtain ⟨hhit, hk⟩ := preMatches_spec env s rule { ctx with subHit := none }
    unfold firstPreHitFrom
    dsimp only
    by_cases hm : (preMatches env s rule { ctx with subHit := none }).1 = true
    · rw [if_pos hm]
      simpa using Or.inl (hhit.1 hm)
    · rw [if_neg hm, ih]
      have hmiss : ¬ PreHit env s ctx.toKnowledge rule := fun h => hm (hhit.2 h)
      rw [show ({ (preMatches env s rule { ctx with subHit := none }).2 with
        notes := [] } : EvalCtx).toKnowledge = ctx.toKnowledge from hk]
      simp [hmiss]

/-- **A session is refused exactly when a flagged rule refuses it.** -/
theorem preMatch_isSome (facts : NetworkFacts) (s : SessionInfo) (layer : PreMatchLayer)
    (hits : ℕ → ℕ) : (e.preMatch env facts s layer hits).1.isSome = true ↔
      ∃ p ∈ e.preRules, PreHit env s (e.preContext facts layer).toKnowledge p.2 := by
  rw [← firstPreHitFrom_isSome]
  unfold preMatch firstPreHit
  cases firstPreHitFrom env s (e.preContext facts layer) e.preRules <;> rfl

/-! ### The query and the connection -/

/-- A flagged rule refuses the query `q` even when the misses that the connection `c` takes back are
not known. -/
def RefusesCarefully (facts : NetworkFacts) (q c : SessionInfo) : Prop :=
  ∃ p ∈ e.preRules,
    p.2.matcher.careful env q c (e.preContext facts .dns).toKnowledge true
      p.2.params.extendedMatching = .matched ∧
    ∃ b, p.2.policy = .builtin b ∧ b.isReject = true

/-- What is refused at the query `q` is refused at the connection `c`. -/
def RefusalStands (facts : NetworkFacts) (q c : SessionInfo) : Prop :=
  ∀ hits hits', (e.preMatch env facts q .dns hits).1.isSome = true →
    (e.preMatch env facts c .syn hits').1.isSome = true

theorem refused_of_refusesCarefully {facts : NetworkFacts} {q c : SessionInfo} (h : Follows c q)
    (hcareful : e.RefusesCarefully env facts q c) (hits : ℕ → ℕ) :
    (e.preMatch env facts c .syn hits).1.isSome = true := by
  obtain ⟨p, hp, hm, hreject⟩ := hcareful
  have hbelow := p.2.matcher.careful_below env h (k := (e.preContext facts .dns).toKnowledge)
    rfl rfl true p.2.params.extendedMatching
  exact (e.preMatch_isSome env facts c .syn hits).2 ⟨p, hp, hbelow.matched hm, hreject⟩

/-- A query that is refused is refused carefully when the connection has no names of its own. -/
theorem refusesCarefully_of_silent {facts : NetworkFacts} {q c : SessionInfo}
    (hc : c.connectionNames = []) {hits : ℕ → ℕ}
    (h : (e.preMatch env facts q .dns hits).1.isSome = true) :
    e.RefusesCarefully env facts q c := by
  obtain ⟨p, hp, hm, hreject⟩ := (e.preMatch_isSome env facts q .dns hits).1 h
  exact ⟨p, hp, (Matcher.careful_silent env hc ..).trans hm, hreject⟩

/-- **What is refused at the query for a name is refused at the connection** when the query is
refused without a miss that the connection takes back. -/
theorem preMatch_stands (facts : NetworkFacts) (src : SocketAddr) (transport : Transport)
    (name : Str) (c : SessionInfo) (hdst : c.dstHost = .domain name) (hsrc : c.src.ip = src.ip)
    (hcareful : ∀ hits, (e.preMatch env facts (.dnsQuery src transport name) .dns hits).1.isSome =
      true → e.RefusesCarefully env facts (.dnsQuery src transport name) c) :
    e.RefusalStands env facts (.dnsQuery src transport name) c := fun hits hits' hq =>
  e.refused_of_refusesCarefully env (SessionInfo.follows_dnsQuery hdst hsrc transport)
    (hcareful hits hq) hits'

/-- `NOT,((DOMAIN,foo.test,extended-matching)),REJECT,pre-matching` in front of `FINAL,DIRECT`. -/
def notFoo : List Rule :=
  let foo : SubRule := .mk (.domain "foo.test".toList) false true []
  [⟨.not foo, .builtin .reject, ⟨false, false, false, true⟩, []⟩,
    ⟨.final, .builtin .direct, ⟨false, false, false, false⟩, []⟩]

/-- The engine `build` makes of it. -/
def notFooEngine : RuleEngine :=
  ⟨notFoo.zipIdx.map (compileRule false fun _ _ => 0), 1, noGeo, true, [0]⟩

/-- A connection to a.test. -/
def toATestWith (sni : Option Str) : SessionInfo :=
  { SessionInfo.ofTcp (.domain "a.test".toList) 443 with sni := sni }

/-- A connection that says no name, and one whose SNI the rule does not hit either. -/
theorem preMatch_stands_notFoo :
    notFooEngine.RefusalStands noSets ⟨none, none⟩
        (.dnsQuery ⟨.v4 0x7f000001#32, 5353⟩ .udp "a.test".toList) (toATestWith none) ∧
      notFooEngine.RefusalStands noSets ⟨none, none⟩
        (.dnsQuery ⟨.v4 0x7f000001#32, 5353⟩ .udp "a.test".toList)
        (toATestWith (some "b.test".toList)) := by
  constructor
  · exact preMatch_stands noSets notFooEngine ⟨none, none⟩ ⟨.v4 0x7f000001#32, 5353⟩ .udp
      "a.test".toList (toATestWith none) rfl rfl
      fun _ => notFooEngine.refusesCarefully_of_silent noSets rfl
  · refine preMatch_stands noSets notFooEngine ⟨none, none⟩ ⟨.v4 0x7f000001#32, 5353⟩ .udp
      "a.test".toList (toATestWith (some "b.test".toList)) rfl rfl fun _ _ => ?_
    exact ⟨_, List.mem_singleton_self _, by decide +kernel, .reject, rfl, rfl⟩

/-- The query for a.test is refused, and the connection to a.test with the SNI foo.test is not. -/
theorem notFoo_not_stands :
    build noSets.windows notFoo (fun _ _ => 0) noGeo true = .ok notFooEngine ∧
      ¬ notFooEngine.RefusalStands noSets ⟨none, none⟩
        (.dnsQuery ⟨.v4 0x7f000001#32, 5353⟩ .udp "a.test".toList)
        (toATestWith (some "foo.test".toList)) := by
  refine ⟨rfl, fun h => ?_⟩
  have hsyn := h (fun _ => 0) (fun _ => 0) (by decide +kernel)
  revert hsyn
  decide +kernel

end RuleEngine

end Rurge
