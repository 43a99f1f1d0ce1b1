import Rurge.Tun.Classify

/-!
# What `[IP Rewrite]` does with a packet

`rewrite.rs`: `reflect` sends the packet back with its two addresses swapped, `reject` answers it as
`refusal` says, with a reset (`rst_for`) or an ICMP message (`prohibited`), and `drop` drops it.
The packet is cut to its length.  Where the code would panic the result is `none`.  What smoltcp
writes of a header (`bytes`, `reset`, `prohibited`) stands for its `emit`.
-/

namespace Rurge.Tun

open Wire

/-! ### Packets that are written -/

/-- The bytes of a packet without options, its header's checksum worked out. -/
def Ipv4Packet.bytes (p : Ipv4Packet) : Bytes :=
  let flags := (if p.dont_frag then 16384 else 0) + (if p.more_frags then 8192 else 0) +
    p.frag_offset.toNat
  let head (sum : ℕ) : Bytes :=
    [0x45, 0] ++ BigEndian.u16 p.total_len ++ BigEndian.u16 p.ident ++ BigEndian.toBytes 2 flags ++
      [p.hop_limit, p.next_header] ++ BigEndian.toBytes 2 sum ++
      BigEndian.toBytes 4 p.src_addr.toNat ++ BigEndian.toBytes 4 p.dst_addr.toNat
  head (65535 - Checksum.data (head 0)) ++ p.data

def Ipv6Fragment.bytes (f : Ipv6Fragment) : Bytes :=
  [f.next_header, 0] ++
    BigEndian.toBytes 2 (f.frag_offset.toNat * 8 + if f.more_frags then 1 else 0) ++
    BigEndian.u32 f.ident

def Ipv6Packet.bytes (p : Ipv6Packet) : Bytes :=
  [0x60, 0, 0, 0] ++ BigEndian.u16 p.payload_len ++ [p.next_header, p.hop_limit] ++
    BigEndian.toBytes 16 p.src_addr.toNat ++ BigEndian.toBytes 16 p.dst_addr.toNat ++
    (p.fragment.elim [] Ipv6Fragment.bytes ++ p.data)

def Packet.bytes : Packet → Bytes
  | .v4 p => p.bytes
  | .v6 p => p.bytes

namespace Rewrite

open Classify

def RESET_HOP_LIMIT : UInt8 := 64

/-- `TcpRepr::emit` of a reset with an acknowledgement number and no window. -/
def reset (src dst : IpAddr) (src_port dst_port : ℕ) (ack_number : UInt32) : Bytes :=
  let segment (sum : ℕ) : Bytes :=
    BigEndian.toBytes 2 src_port ++ BigEndian.toBytes 2 dst_port ++ [0, 0, 0, 0] ++
      BigEndian.u32 ack_number ++ [0x50, 0x14] ++ [0, 0] ++ BigEndian.toBytes 2 sum ++ [0, 0]
  segment (65535 -
    Checksum.combine [Checksum.pseudo_header src dst TCP 20, Checksum.data (segment 0)])

/-- The reset for a SYN that is turned away, from where the SYN went to where it came from. -/
def rst_for (syn : Bytes) : Option Bytes := do
  -- `expect`
  let read ← (← Classify.segment syn)
  let to_ := read.tuple.src
  let from_ := read.tuple.dst
  let ack_number := read.seq + 1 + UInt32.ofNat read.payload_len
  let data := reset from_.ip to_.ip from_.port to_.port ack_number
  match from_.ip, to_.ip with
  | .v4 src, .v4 dst =>
    return Ipv4Packet.bytes ⟨.ofNat (IPV4_HEADER + data.length), 0, true, false, 0,
      RESET_HOP_LIMIT, TCP, src, dst, data⟩
  | .v6 src, .v6 dst =>
    return Ipv6Packet.bytes ⟨.ofNat data.length, TCP, RESET_HOP_LIMIT, src, dst, none, data⟩
  | _, _ => none

/-- The packet that says to `dst` that one it sent to `src` was refused, with `quoted` of it. -/
def prohibited (src dst : IpAddr) (quoted : Bytes) : Option Bytes := do
  let message (kind code : UInt8) (sum : ℕ) : Bytes :=
    [kind, code] ++ BigEndian.toBytes 2 sum ++ [0, 0, 0, 0] ++ quoted
  match src, dst with
  | .v4 _, .v4 _ =>
    let sum := 65535 - Checksum.data (message 3 13 0)
    return (← ip_packet src dst ICMP (message 3 13 sum)).bytes
  | .v6 _, .v6 _ =>
    let sum := 65535 - Checksum.combine
      [Checksum.pseudo_header src dst ICMPV6 (8 + quoted.length), Checksum.data (message 1 1 0)]
    return (← ip_packet src dst ICMPV6 (message 1 1 sum)).bytes
  | _, _ => none

/-! ### What is answered -/

inductive Refusal
  | Nothing
  | Reset
  | Prohibited
  deriving DecidableEq

def refusal_tcp (packet : Bytes) : Option Refusal := do
  match ← Classify.segment packet with
  | none => return .Nothing
  | some s =>
    if s.rst then return .Nothing
    if s.syn && !s.ack then return .Reset
    return .Prohibited

/-- ICMPv4's errors, a redirect among them. -/
def is_icmpv4_error (kind : UInt8) : Bool := kind = 3 ∨ kind = 4 ∨ kind = 5 ∨ kind = 11 ∨ kind = 12

def is_icmpv6_error (kind : UInt8) : Bool := kind < 128 ∨ kind = 137

def is_ipv6_extension_header (protocol : UInt8) : Bool :=
  protocol = 0 ∨ protocol = 43 ∨ protocol = 44 ∨ protocol = 50 ∨ protocol = 51 ∨ protocol = 60 ∨
    protocol = 135 ∨ protocol = 139 ∨ protocol = 140 ∨ protocol = 253 ∨ protocol = 254

def refusal_v4 (packet : Bytes) : Option Refusal := do
  if !(← Ipv4.check_len packet) then return .Nothing
  if (← Ipv4.frag_offset packet) ≠ 0 then return .Nothing
  let protocol ← Ipv4.next_header packet
  if protocol = ICMP then
    match (← Ipv4.payload packet).head? with
    | none => return .Nothing
    | some kind => if is_icmpv4_error kind then return .Nothing
  if !(← Ipv4.more_frags packet) && protocol = TCP then refusal_tcp packet
  else return .Prohibited

/-- What is left of `refusal_v6` once the fragment header is read. -/
def refusal_v6_after (packet payload : Bytes) (fragmented : Bool) (next_header : UInt8) :
    Option Refusal := do
  if is_ipv6_extension_header next_header then return .Nothing
  if next_header = ICMPV6 then
    match payload[if fragmented then 8 else 0]? with
    | none => return .Nothing
    | some kind => if is_icmpv6_error kind then return .Nothing
  if !fragmented && next_header = TCP then refusal_tcp packet
  else return .Prohibited

def refusal_v6 (packet : Bytes) : Option Refusal := do
  if !(← Ipv6.check_len packet) then return .Nothing
  let payload ← Ipv6.payload packet
  let next_header ← Ipv6.next_header packet
  if next_header = IPV6_FRAG then
    if payload.length < 8 then return .Nothing
    if (← u16 payload 2) / 8 ≠ 0 then return .Nothing
    refusal_v6_after packet payload true (← u8 payload 0)
  else refusal_v6_after packet payload false next_header

/-- What a packet `reject` matched is answered with. -/
def refusal (packet : Bytes) : Option Refusal :=
  match version packet with
  | some 4 => refusal_v4 packet
  | some 6 => refusal_v6 packet
  | _ => some .Nothing

/-! ### The actions -/

/-- The two fields of `width` bytes at `at_` and at `at_ + width`, swapped. -/
def swap (packet : Bytes) (at_ width : ℕ) : Option Bytes := do
  let before ← slice packet 0 at_
  let src ← slice packet at_ (at_ + width)
  let dst ← slice packet (at_ + width) (at_ + width + width)
  let rest ← slice packet (at_ + width + width) packet.length
  return before ++ dst ++ src ++ rest

/-- The packet that goes back. -/
def reflect (hit : Hit) (packet : Bytes) : Option Bytes :=
  match hit.dst with
  | .v4 _ => swap packet 12 4
  | .v6 _ => swap packet 8 16

def V6_QUOTE_MAX : ℕ := 1280 - 40 - 8

/-- What is counted, and what is offered to the writer. -/
structure Answer where
  counted : List Classify.Reason
  offered : Option Bytes
  deriving DecidableEq

/-- The answer to a packet; `reset` and `icmp` say that the limits let one more through. -/
def reject (hit : Hit) (packet : Bytes) (reset icmp : Bool) : Option Answer := do
  match ← refusal packet with
  | .Nothing => return ⟨[.IpRewrite], none⟩
  | .Reset =>
    if reset then return ⟨[.IpRewrite], some (← rst_for packet)⟩
    else return ⟨[.IpRewrite, .RstLimited], none⟩
  | .Prohibited =>
    if icmp then
      let quote :=
        match hit.dst with
        | .v4 _ => min hit.len (hit.header_len + 8)
        | .v6 _ => min hit.len V6_QUOTE_MAX
      return ⟨[.IpRewrite], some (← prohibited hit.dst hit.src (← slice packet 0 quote))⟩
    else return ⟨[.IpRewrite, .IcmpLimited], none⟩

end Rewrite

end Rurge.Tun
