import Rurge.Config.Session
import Rurge.Tun.Fragment
import Rurge.Tun.Wire

/-!
# What the TUN reads of a packet

`packet.rs`: `classify` runs the checks that every packet passes before any stack sees it, and the
shard that has a TCP segment reads it again (`segment`).  Where a reader would panic the result is
`none`.  `[IP Rewrite]` is a function of the destination.
-/

namespace Rurge.Tun.Classify

open Wire

/-- Why a packet is dropped. -/
inductive Reason
  | Malformed
  | Fragment
  | Martian
  | Unsupported
  | QueueFull
  | UnknownFake
  | Busy
  | BeyondWindow
  | RstLimited
  | IcmpLimited
  | IpRewrite
  deriving DecidableEq

inductive IpRewriteAction
  | Reflect
  | Reject
  | Drop
  deriving DecidableEq

/-- The action of the first line of the address's family whose prefix holds it. -/
abbrev IpRewrite := IpAddr → Option IpRewriteAction

/-- `IpRewrite::default`: no line. -/
def noRewrite : IpRewrite := fun _ => none

/-- A packet that was turned away: why, and its two addresses once its IP header passed its own
checks. -/
structure Dropped where
  reason : Reason
  ends : Option (IpAddr × IpAddr)
  deriving DecidableEq

namespace Dropped

def unread (reason : Reason) : Dropped := ⟨reason, none⟩

def between (reason : Reason) (src dst : IpAddr) : Dropped := ⟨reason, some (src, dst)⟩

end Dropped

/-- The two ends of a connection, the app's first. -/
structure Tuple where
  src : SocketAddr
  dst : SocketAddr
  deriving DecidableEq

/-- What is read of a TCP segment. -/
structure Segment where
  tuple : Tuple
  syn : Bool
  ack : Bool
  fin : Bool
  rst : Bool
  seq : UInt32
  ack_number : UInt32
  header_len : ℕ
  payload_len : ℕ
  deriving DecidableEq

inductive Transport
  | Tcp (segment : Segment)
  | Udp (src_port dst_port : ℕ)
  | Icmp (message_type : UInt8)
  deriving DecidableEq

/-- A packet that passed every check, `len` being where the IP packet ends. -/
structure Parsed where
  src : IpAddr
  dst : IpAddr
  len : ℕ
  transport : Transport
  deriving DecidableEq

/-- A packet `[IP Rewrite]` has a line for. -/
structure Hit where
  action : IpRewriteAction
  src : IpAddr
  dst : IpAddr
  len : ℕ
  header_len : ℕ
  deriving DecidableEq

inductive Classified
  | Passed (parsed : Parsed)
  | Rewrite (hit : Hit)
  deriving DecidableEq

/-! ### The transport header -/

def tcp (src dst : IpAddr) (payload : Bytes) : Option (Except Reason Segment) := do
  if !(← Tcp.check_len payload) then return .error .Malformed
  let src_port ← Tcp.src_port payload
  let dst_port ← Tcp.dst_port payload
  if src_port = 0 ∨ dst_port = 0 then return .error .Malformed
  let header_len ← Tcp.header_len payload
  return .ok
    { tuple := ⟨⟨src, src_port⟩, ⟨dst, dst_port⟩⟩
      syn := ← Tcp.syn payload
      ack := ← Tcp.ack payload
      fin := ← Tcp.fin payload
      rst := ← Tcp.rst payload
      seq := ← Tcp.seq_number payload
      ack_number := ← Tcp.ack_number payload
      header_len := header_len
      payload_len := payload.length - header_len }

/-- A zero in the checksum's place is none: IPv4 may do without, IPv6 may not. -/
def udp (src dst : IpAddr) (payload : Bytes) : Option (Except Reason Transport) := do
  if !(← Udp.check_len payload) then return .error .Malformed
  let src_port ← Udp.src_port payload
  let dst_port ← Udp.dst_port payload
  if src_port = 0 ∨ dst_port = 0 then return .error .Malformed
  if (← Udp.checksum payload) = 0 then
    if src.isIpv6 then return .error .Malformed
    return .ok (.Udp src_port dst_port)
  if !(← Udp.verify_checksum src dst payload) then return .error .Malformed
  return .ok (.Udp src_port dst_port)

def ICMP_HEADER : ℕ := 8
def ICMPV4_ECHO_REQUEST : UInt8 := 8
def ICMPV6_ECHO_REQUEST : UInt8 := 128

/-- ICMPv6's checksum covers the addresses, ICMPv4's the message alone. -/
def icmp_holds (src dst : IpAddr) (payload : Bytes) : Bool :=
  match src, dst with
  | .v6 _, .v6 _ => Icmpv6.verify_checksum src dst payload
  | _, _ => Icmpv4.verify_checksum payload

/-- Only an echo request goes on. -/
def icmp (src dst : IpAddr) (payload : Bytes) (echo_request : UInt8) :
    Option (Except Reason Transport) := do
  if payload.length < ICMP_HEADER then return .error .Malformed
  let kind ← u8 payload 0
  if kind ≠ echo_request then return .error .Unsupported
  if !icmp_holds src dst payload then return .error .Malformed
  return .ok (.Icmp kind)

/-- `IpProtocol`'s numbers. -/
def TCP : UInt8 := 6
def UDP : UInt8 := 17
def ICMP : UInt8 := 1
def ICMPV6 : UInt8 := 58

/-- The transport header of the IP packet whose payload is `payload`. -/
def transport (src dst : IpAddr) (protocol : UInt8) (payload : Bytes) (len : ℕ) :
    Option (Except Dropped Parsed) :=
  Option.map
    (fun read => (read.map fun t => ⟨src, dst, len, t⟩).mapError (Dropped.between · src dst)) <|
    if protocol = TCP then (tcp src dst payload).map (·.map .Tcp)
    else if protocol = UDP then udp src dst payload
    else if protocol = ICMP ∧ src.isIpv4 then icmp src dst payload ICMPV4_ECHO_REQUEST
    else if protocol = ICMPV6 ∧ src.isIpv6 then icmp src dst payload ICMPV6_ECHO_REQUEST
    else some (.error .Unsupported)

/-! ### The IP header -/

/-- An unspecified, loopback or multicast address on either end, or the limited broadcast as the
destination. -/
def martian_v4 (src dst : Ipv4Addr) : Bool :=
  let odd (address : Ipv4Addr) : Bool :=
    address = 0 ∨ address.toNat / 2 ^ 24 = 127 ∨ address.toNat / 2 ^ 28 = 14
  odd src || odd dst || dst = 0xffffffff#32

/-- The same for IPv6, with the IPv4-mapped addresses in place of the broadcast one. -/
def martian_v6 (src dst : Ipv6Addr) : Bool :=
  let odd (address : Ipv6Addr) : Bool :=
    address = 0 ∨ address = 1 ∨ address.toNat / 2 ^ 120 = 255 ∨ address.toNat / 2 ^ 32 = 65535
  odd src || odd dst

def read_ipv4 (packet : Bytes) (rewrite : IpRewrite) : Option (Except Dropped Classified) := do
  if !(← Ipv4.check_len packet) then return .error (.unread .Malformed)
  let header_len ← Ipv4.header_len packet
  if header_len < 20 then return .error (.unread .Malformed)
  if !(← Ipv4.verify_checksum packet) then return .error (.unread .Malformed)
  let src ← Ipv4.src_addr packet
  let dst ← Ipv4.dst_addr packet
  if martian_v4 src dst then return .error (.between .Martian (.v4 src) (.v4 dst))
  let len ← Ipv4.total_len packet
  match rewrite (.v4 dst) with
  | some action => return .ok (.Rewrite ⟨action, .v4 src, .v4 dst, len, header_len⟩)
  | none =>
    if (← Ipv4.more_frags packet) then return .error (.between .Fragment (.v4 src) (.v4 dst))
    if (← Ipv4.frag_offset packet) ≠ 0 then
      return .error (.between .Fragment (.v4 src) (.v4 dst))
    let read ← transport (.v4 src) (.v4 dst) (← Ipv4.next_header packet) (← Ipv4.payload packet) len
    return read.map .Passed

def read_ipv6 (packet : Bytes) (rewrite : IpRewrite) : Option (Except Dropped Classified) := do
  if !(← Ipv6.check_len packet) then return .error (.unread .Malformed)
  let src ← Ipv6.src_addr packet
  let dst ← Ipv6.dst_addr packet
  if martian_v6 src dst then return .error (.between .Martian (.v6 src) (.v6 dst))
  let len ← Ipv6.total_len packet
  match rewrite (.v6 dst) with
  | some action => return .ok (.Rewrite ⟨action, .v6 src, .v6 dst, len, Ipv6.HEADER_LEN⟩)
  | none =>
    let next_header ← Ipv6.next_header packet
    if next_header = IPV6_FRAG then return .error (.between .Fragment (.v6 src) (.v6 dst))
    let read ← transport (.v6 src) (.v6 dst) next_header (← Ipv6.payload packet) len
    return read.map .Passed

/-- The version nibble of a packet that has a byte. -/
def version (packet : Bytes) : Option ℕ := packet.head?.map (·.toNat / 16)

/-- Every check but the one of the `ipv6` option. -/
def parse (packet : Bytes) (rewrite : IpRewrite) : Option (Except Dropped Classified) :=
  match version packet with
  | some 4 => read_ipv4 packet rewrite
  | some 6 => read_ipv6 packet rewrite
  | _ => some (.error (.unread .Malformed))

/-- IPv6 that is off is dropped before any of its header is read. -/
def classify (packet : Bytes) (ipv6 : Bool) (rewrite : IpRewrite) :
    Option (Except Dropped Classified) :=
  if !ipv6 && version packet = some 6 then some (.error (.unread .Unsupported))
  else parse packet rewrite

/-- The TCP segment of a packet that `classify` let through, read once more. -/
def segment (packet : Bytes) : Option (Option Segment) := do
  match ← parse packet noRewrite with
  | .ok (.Passed ⟨_, _, _, .Tcp segment⟩) => return some segment
  | _ => return none

end Rurge.Tun.Classify
