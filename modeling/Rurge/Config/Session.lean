import Rurge.Net.Addr

/-!
# Sessions

The facts of a session that the rules look at (`rurge_config::session`), the names and addresses a
session may go to, and the network the machine is on (`rurge_config::network`).
-/

namespace Rurge

/-- A connection target: a domain name (lowercase, no trailing dot) or an IP literal. -/
inductive HostName
  | domain (d : Str)
  | ip (addr : IpAddr)
  deriving DecidableEq

namespace HostName

def asDomain : HostName → Option Str
  | .domain d => some d
  | .ip _ => none

def asIp : HostName → Option IpAddr
  | .domain _ => none
  | .ip addr => some addr

/-- A name in the form the program documents: folded, and without a dot at its end. -/
def IsDocumented : HostName → Prop
  | .domain d => Str.toAsciiLowercase d = d ∧ d.getLast? ≠ some '.'
  | .ip _ => True

instance : DecidablePred IsDocumented
  | .domain d => inferInstanceAs (Decidable (Str.toAsciiLowercase d = d ∧ d.getLast? ≠ some '.'))
  | .ip _ => inferInstanceAs (Decidable True)

end HostName

inductive Transport
  | tcp
  | udp
  deriving DecidableEq

/-- What the `HOSTNAME-TYPE` rules tell apart. -/
inductive HostnameType
  | ipv4
  | ipv6
  | domain
  | simple
  deriving DecidableEq

inductive ProtocolKind
  | http
  | https
  | tcp
  | udp
  | quic
  | stun
  | mtProto
  | doh
  | doh3
  | doq
  | dot
  | dns
  deriving DecidableEq

/-- Where a session is pre-matched: a DNS query for its name, or the first packet of a TCP
connection. -/
inductive PreMatchLayer
  | dns
  | syn
  deriving DecidableEq

/-- The process that opened a session. -/
structure ProcessInfo where
  pid : Option ℕ
  /-- The executable's file name. -/
  name : Str
  /-- The executable's full path, when it could be read. -/
  path : Option Str
  deriving DecidableEq

structure SocketAddr where
  ip : IpAddr
  port : ℕ
  deriving DecidableEq

/-- What the rules are told of a session. -/
structure SessionInfo where
  src : SocketAddr
  inPort : ℕ
  dstHost : HostName
  dstPort : ℕ
  transport : Transport
  /-- Sniffed application protocol; `none` when unknown. -/
  protocol : Option ProtocolKind
  sni : Option Str
  httpHost : Option Str
  userAgent : Option Str
  url : Option Str
  /-- A process the caller knew before the session was evaluated. -/
  process : Option ProcessInfo
  deriving DecidableEq

namespace SessionInfo

/-- A TCP session from the loopback with every optional field empty. -/
def ofTcp (dstHost : HostName) (dstPort : ℕ) : SessionInfo where
  src := ⟨.v4 0x7f000001#32, 0⟩
  inPort := 0
  dstHost := dstHost
  dstPort := dstPort
  transport := .tcp
  protocol := none
  sni := none
  httpHost := none
  userAgent := none
  url := none
  process := none

/-- The `HOSTNAME-TYPE` classification of the destination. -/
def hostnameType (s : SessionInfo) : HostnameType :=
  match s.dstHost with
  | .ip (.v4 _) => .ipv4
  | .ip (.v6 _) => .ipv6
  | .domain d => if '.' ∈ d then .domain else .simple

end SessionInfo

/-! ### The network -/

inductive NetKind
  | wifi
  | wired
  | other
  deriving DecidableEq

/-- The interface the traffic leaves by. -/
structure Primary where
  interface : Str
  kind : NetKind
  routers : List IpAddr
  deriving DecidableEq

/-- A Wi-Fi adapter that is associated with an access point. -/
structure WifiLink where
  interface : Str
  ssid : Option Str
  bssid : Option Str
  deriving DecidableEq

/-- The network as far as it is known. -/
structure NetworkFacts where
  primary : Option Primary
  wifi : Option WifiLink
  deriving DecidableEq

end Rurge
