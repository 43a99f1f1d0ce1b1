import Rurge.Config.Session

/-!
# Hosts off the network

How a host's text is read (`HostName::parse`, `HostName::from_wire`), and the target a connection
goes to or a packet comes from.
-/

namespace Rurge

/-- `Ipv6Addr::to_canonical`: an IPv4 address in IPv6 form is the IPv4 address it names. -/
def IpAddr.of_v6 (ip : Ipv6Addr) : IpAddr :=
  if ip >>> 32 = 0xffff then .v4 (ip.setWidth 32) else .v6 ip

/-- `IpAddr::to_canonical`. -/
def IpAddr.to_canonical : IpAddr → IpAddr
  | .v4 ip => .v4 ip
  | .v6 ip => .of_v6 ip

/-- `char::is_control`. -/
def isControl (c : Char) : Bool := c.toNat < 0x20 || (0x7f ≤ c.toNat && c.toNat ≤ 0x9f)

namespace HostName

/-- The text between brackets, if it stands between brackets. -/
def unbracketed : Str → Str
  | '[' :: s => if s.getLast? = some ']' then s.dropLast else '[' :: s
  | s => s

/-- `HostName::parse`. -/
def parse (s : Str) : HostName :=
  let bare := unbracketed (Str.trim s)
  match IpAddr.parse bare with
  | some addr => .ip addr
  | none => .domain (Str.toAsciiLowercase (Str.trimEndMatches '.' bare))

/-- A name that came off the network: nothing when it is empty or holds a control character or
whitespace. -/
def from_wire (s : Str) : Option HostName :=
  if s.any fun c => isControl c || Str.isWhiteSpace c then none
  else
    match parse s with
    | .domain [] => none
    | host => some host

end HostName

/-- Where a connection goes, or a packet came from. -/
structure Target where
  host : HostName
  port : UInt16
  deriving DecidableEq

/-- `str::from_utf8`. -/
def from_utf8 (bytes : List UInt8) : Option Str :=
  (String.fromUTF8? ⟨bytes.toArray⟩).map String.toList

end Rurge
