import Rurge.Config.Glob
import Rurge.Config.Session

/-!
# Rules as the profile writes them

The kinds of `[Rule]` lines with their values (`rurge_config::rule`), and how a port expression and
a subnet expression are compared with what a session or the network says.
-/

namespace Rurge

/-! ### Ports -/

inductive PortExpr
  | single (p : ℕ)
  | range (a b : ℕ)
  | gt (p : ℕ)
  | lt (p : ℕ)
  | ge (p : ℕ)
  | le (p : ℕ)
  deriving DecidableEq

def PortExpr.isMatch : PortExpr → ℕ → Bool
  | .single p, port => port == p
  | .range a b, port => a ≤ port && port ≤ b
  | .gt p, port => port > p
  | .lt p, port => port < p
  | .ge p, port => port ≥ p
  | .le p, port => port ≤ p

/-! ### Subnet expressions -/

inductive NetType
  | wifi
  | wired
  | cellular
  deriving DecidableEq

inductive SubnetExpr
  | ssid (g : Glob)
  | bssid (g : Glob)
  | router (ip : IpAddr)
  | type (t : NetType)
  | mccmnc (s : Str)
  | bare (text : Str)
  deriving DecidableEq

namespace SubnetExpr

def ssidGlob : GlobOptions := ⟨false, false⟩

/-- Whether the network matches the expression; what is not known of it matches nothing. -/
def isMatch (e : SubnetExpr) (facts : NetworkFacts) (wifiAlwaysMatch : Bool) : Bool :=
  let primary := facts.primary
  let wifi := facts.wifi.filter fun link =>
    wifiAlwaysMatch || primary.any fun p => p.interface == link.interface
  let ssid := wifi.bind (·.ssid)
  let bssid := wifi.bind (·.bssid)
  let routers := (primary.map (·.routers)).getD []
  match e with
  | .ssid g => ssid.any g.isMatch
  | .bssid g => bssid.any g.isMatch
  | .router ip => routers.contains ip
  | .type .wifi => primary.any (·.kind == .wifi)
  | .type .wired => primary.any (·.kind == .wired)
  -- a desktop has no cellular network
  | .type .cellular => false
  | .mccmnc _ => false
  | .bare text =>
    if text.contains '*' || text.contains '?' then
      ssid.any fun ssid => (Glob.new text ssidGlob).any (·.isMatch ssid)
    else
      ssid == some text || bssid.any (Str.eqIgnoreAsciiCase · text) ||
        (IpAddr.parse text).any routers.contains

end SubnetExpr

/-! ### Rules -/

inductive ProcessPattern
  | name (g : Glob)
  | path (g : Glob)
  | pre (p : Str)
  deriving DecidableEq

/-- A compiled regular expression: its source and what the regex crate says of a text, `none` when
it gives up. -/
structure Pattern where
  source : Str
  regexIsMatch : Str → Option Bool

inductive InternalSet
  | system
  | lan
  deriving DecidableEq

/-- What a rule that takes its lines from a set refers to. -/
inductive ResourceRef
  | internal (s : InternalSet)
  | inline (name : Str)
  | file (path : Str)
  | url (url : Str)
  deriving DecidableEq

inductive SetKind
  | ruleSet
  | domainSet
  deriving DecidableEq

mutual

/-- A rule without its policy. -/
inductive RuleKind
  | domain (d : Str)
  | domainSuffix (d : Str)
  | domainKeyword (k : Str)
  | domainWildcard (g : Glob)
  | domainSet (r : ResourceRef)
  | ipCidr (net : Ipv4Net)
  | ipCidr6 (net : Ipv6Net)
  | geoIp (code : Str)
  | geoIpUnknown
  | ipAsn (asn : ℕ)
  | ipAsnUnknown
  | userAgent (g : Glob)
  | urlRegex (p : Pattern)
  | processName (p : ProcessPattern)
  | destPort (p : PortExpr)
  | srcPort (p : PortExpr)
  | inPort (p : PortExpr)
  | srcIp (net : IpNetAny)
  | deviceName (g : Glob)
  | macAddress (mac : Str)
  | protocol (k : ProtocolKind)
  | hostnameType (t : HostnameType)
  | subnet (e : SubnetExpr)
  | cellularRadio (r : Str)
  | cellularCarrier (c : Str)
  | and (subs : List SubRule)
  | or (subs : List SubRule)
  | not (sub : SubRule)
  | script (s : Str)
  | ruleSet (r : ResourceRef)
  | final

/-- A rule inside another one or on a line of a set. -/
inductive SubRule
  | mk (kind : RuleKind) (noResolve extendedMatching : Bool) (raw : Str)

end

namespace SubRule

def kind : SubRule → RuleKind
  | mk kind _ _ _ => kind

def noResolve : SubRule → Bool
  | mk _ noResolve _ _ => noResolve

def extendedMatching : SubRule → Bool
  | mk _ _ extendedMatching _ => extendedMatching

def raw : SubRule → Str
  | mk _ _ _ raw => raw

end SubRule

/-! ### Policies of rules -/

inductive Builtin
  | direct
  | reject
  | rejectDrop
  | rejectNoDrop
  | rejectTinyGif
  | cellular
  | cellularOnly
  | hybrid
  | noHybrid
  deriving DecidableEq

def Builtin.isReject : Builtin → Bool
  | .reject | .rejectDrop | .rejectNoDrop | .rejectTinyGif => true
  | _ => false

inductive PolicyRef
  | builtin (b : Builtin)
  | named (name : Str)
  | device (name : Str)
  deriving DecidableEq

/-- The parameters of a rule that its evaluation looks at. -/
structure RuleParams where
  noResolve : Bool
  dnsFailed : Bool
  extendedMatching : Bool
  preMatching : Bool
  deriving DecidableEq

structure Rule where
  kind : RuleKind
  policy : PolicyRef
  params : RuleParams
  raw : Str

end Rurge
