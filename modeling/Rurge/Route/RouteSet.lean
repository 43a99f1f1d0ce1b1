import Rurge.Net.Addr

/-!
# The routes into the adapter

What a profile's `tun-*` items, the external policies' own addresses and the platform's way of
bringing rurge's space add up to.  `Ipv4Net::aggregate` and `Ipv6Net::aggregate` of the `ipnet`
crate are parameters.
-/

namespace Rurge

/-! ### Networks as ranges -/

namespace IpNet

variable {w : ℕ}

/-- The first address, as a number. -/
def network (n : IpNet w) : ℕ :=
  n.addr.toNat / 2 ^ (w - n.prefixLen) * 2 ^ (w - n.prefixLen)

/-- The last address, as a number. -/
def broadcast (n : IpNet w) : ℕ := n.network + (2 ^ (w - n.prefixLen) - 1)

/-- `contains` of a network. -/
def covers (n m : IpNet w) : Bool := n.network ≤ m.network && m.broadcast ≤ n.broadcast

/-- `subnets` one bit longer: the two halves, if there is room for a bit. -/
def halves (n : IpNet w) : Option (IpNet w × IpNet w) :=
  if h : n.prefixLen < w then
    some (⟨n.trunc.addr, n.prefixLen + 1, h⟩,
      ⟨BitVec.ofNat w (n.network + 2 ^ (w - n.prefixLen - 1)), n.prefixLen + 1, h⟩)
  else none

/-- The complement of `net` within `holes`, with as many halvings as `net` has bits to spare. -/
def complement_within (holes : List (IpNet w)) : ℕ → IpNet w → List (IpNet w)
  | bits, net =>
    if holes.any (·.covers net) then []
    else if !holes.any (net.covers ·) then [net]
    else
      match bits, net.halves with
      | bits + 1, some (low, high) =>
        complement_within holes bits low ++ complement_within holes bits high
      | _, _ => []

/-- `complement_v4` and `complement_v6`: `net` itself when no hole touches it, nothing when a hole
covers it, and otherwise its two halves, halved again. -/
def complement (net : IpNet w) (holes : List (IpNet w)) : List (IpNet w) :=
  complement_within holes (w - net.prefixLen) net

theorem complement_eq (net : IpNet w) (holes : List (IpNet w)) :
    net.complement holes =
      if holes.any (·.covers net) then []
      else if !holes.any (net.covers ·) then [net]
      else
        match net.halves with
        | some (low, high) => low.complement holes ++ high.complement holes
        | none => [] := by
  unfold complement
  by_cases hroom : net.prefixLen < w
  · obtain ⟨bits, hbits⟩ : ∃ bits, w - net.prefixLen = bits + 1 :=
      ⟨w - net.prefixLen - 1, by omega⟩
    have hnext : w - (net.prefixLen + 1) = bits := by omega
    have hhalves : net.halves = some (⟨net.trunc.addr, net.prefixLen + 1, hroom⟩,
        ⟨BitVec.ofNat w (net.network + 2 ^ (w - net.prefixLen - 1)), net.prefixLen + 1, hroom⟩) :=
      dif_pos hroom
    rw [hbits]
    conv_lhs => unfold complement_within
    simp only [hhalves, hnext]
  · have hnone : net.halves = none := dif_neg hroom
    rw [Nat.sub_eq_zero_of_le (Nat.not_lt.1 hroom)]
    unfold complement_within
    simp only [hnone]

end IpNet

/-- The network of an IPv4 item, with the bits past its prefix cleared. -/
def IpNetAny.trunc_v4 : IpNetAny → Option Ipv4Net
  | .v4 net => some net.trunc
  | .v6 _ => none

def IpNetAny.trunc_v6 : IpNetAny → Option Ipv6Net
  | .v4 _ => none
  | .v6 net => some net.trunc

/-- The network of one IPv4 address. -/
def IpAddr.host_v4 : IpAddr → Option Ipv4Net
  | .v4 ip => some ⟨ip, 32, le_rfl⟩
  | .v6 _ => none

def IpAddr.host_v6 : IpAddr → Option Ipv6Net
  | .v4 _ => none
  | .v6 ip => some ⟨ip, 128, le_rfl⟩

/-! ### The constants -/

/-- `a.b.c.d`. -/
def ipv4 (a b c d : ℕ) : Ipv4Addr := BitVec.ofNat 32 (((a * 256 + b) * 256 + c) * 256 + d)

/-- `a:b:c:d::`. -/
def ipv6 (a b c d : ℕ) : Ipv6Addr :=
  BitVec.ofNat 128 ((((a * 65536 + b) * 65536 + c) * 65536 + d) * 2 ^ 64)

/-- rurge's own space. -/
def SPACE_V4 : Ipv4Net := ⟨ipv4 198 18 0 0, 15, by decide⟩

def SPACE_V6 : Ipv6Net := ⟨ipv6 0xfd00 0x6152 0 0, 64, by decide⟩

/-- The prefixes traffic into the adapter starts from. -/
def BASE_V4 : List Ipv4Net :=
  [⟨ipv4 1 0 0 0, 8, by decide⟩, ⟨ipv4 2 0 0 0, 7, by decide⟩, ⟨ipv4 4 0 0 0, 6, by decide⟩,
    ⟨ipv4 8 0 0 0, 5, by decide⟩, ⟨ipv4 16 0 0 0, 4, by decide⟩, ⟨ipv4 32 0 0 0, 3, by decide⟩,
    ⟨ipv4 64 0 0 0, 2, by decide⟩, ⟨ipv4 128 0 0 0, 1, by decide⟩]

def BASE_V6 : List Ipv6Net :=
  [⟨ipv6 0x0100 0 0 0, 8, by decide⟩, ⟨ipv6 0x0200 0 0 0, 7, by decide⟩,
    ⟨ipv6 0x0400 0 0 0, 6, by decide⟩, ⟨ipv6 0x0800 0 0 0, 5, by decide⟩,
    ⟨ipv6 0x1000 0 0 0, 4, by decide⟩, ⟨ipv6 0x2000 0 0 0, 3, by decide⟩,
    ⟨ipv6 0x4000 0 0 0, 2, by decide⟩, ⟨ipv6 0x8000 0 0 0, 1, by decide⟩,
    ⟨ipv6 0x0064 0xff9b 0 0, 96, by decide⟩]

def BROADCAST_V4 : Ipv4Addr := ipv4 255 255 255 255

/-- The broadcast address as a network. -/
def BROADCAST_NET : Ipv4Net := ⟨BROADCAST_V4, 32, le_rfl⟩

/-- The class E range. -/
def CLASS_E : Ipv4Net := ⟨ipv4 240 0 0 0, 4, by decide⟩

/-- What never goes into the adapter: loopback, link-local, multicast and broadcast. -/
def ALWAYS_V4 : List Ipv4Net :=
  [⟨ipv4 127 0 0 0, 8, by decide⟩, ⟨ipv4 169 254 0 0, 16, by decide⟩,
    ⟨ipv4 224 0 0 0, 4, by decide⟩, BROADCAST_NET]

def ALWAYS_V6 : List Ipv6Net :=
  [⟨ipv6 0xfe80 0 0 0, 10, by decide⟩, ⟨ipv6 0xff00 0 0 0, 8, by decide⟩]

/-! ### The set -/

/-- What a route set is computed from. -/
structure RouteInputs where
  ipv6 : Bool
  excluded : List IpNetAny
  included : List IpNetAny
  external : List IpAddr
  explicit_space : Bool
  class_e : Bool

/-- The routes into the adapter. -/
structure RouteSet where
  v4 : List Ipv4Net
  v6 : List Ipv6Net
  deriving DecidableEq

/-- Every hole less its part inside rurge's space. -/
def strip_space_v4 (holes : List Ipv4Net) : List Ipv4Net :=
  holes.flatMap (·.complement [SPACE_V4])

def strip_space_v6 (holes : List Ipv6Net) : List Ipv6Net :=
  holes.flatMap (·.complement [SPACE_V6])

/-- What is taken out: what always is, the excluded routes and the external addresses. -/
def taken_v4 (inputs : RouteInputs) : List Ipv4Net :=
  ALWAYS_V4 ++ inputs.excluded.filterMap IpNetAny.trunc_v4 ++
    inputs.external.filterMap IpAddr.host_v4

def taken_v6 (inputs : RouteInputs) : List Ipv6Net :=
  ALWAYS_V6 ++ inputs.excluded.filterMap IpNetAny.trunc_v6 ++
    inputs.external.filterMap IpAddr.host_v6

def holes_v4 (inputs : RouteInputs) : List Ipv4Net := strip_space_v4 (taken_v4 inputs)

def holes_v6 (inputs : RouteInputs) : List Ipv6Net := strip_space_v6 (taken_v6 inputs)

/-- What `compute` aggregates of IPv4. -/
def pieces_v4 (inputs : RouteInputs) : List Ipv4Net :=
  let v4 := BASE_V4.flatMap (·.complement (holes_v4 inputs)) ++
    inputs.included.filterMap IpNetAny.trunc_v4
  let v4 := v4.filter (!SPACE_V4.covers ·)
  if inputs.explicit_space then v4 ++ [SPACE_V4] else v4

/-- What `compute` aggregates of IPv6. -/
def pieces_v6 (inputs : RouteInputs) : List Ipv6Net :=
  if inputs.ipv6 then
    let v6 := BASE_V6.flatMap (·.complement (holes_v6 inputs)) ++
      inputs.included.filterMap IpNetAny.trunc_v6
    let v6 := v6.filter (!SPACE_V6.covers ·)
    if inputs.explicit_space then v6 ++ [SPACE_V6] else v6
  else []

/-- The broadcast address taken out of what was aggregated of `pieces`, unless one of them covers
it. -/
def without_broadcast (pieces aggregated : List Ipv4Net) : List Ipv4Net :=
  if pieces.any (·.contains BROADCAST_V4) then aggregated
  else aggregated.flatMap (·.complement [BROADCAST_NET])

namespace RouteSet

section

-- `Ipv4Net::aggregate`, `Ipv6Net::aggregate`
variable (aggregate_v4 : List Ipv4Net → List Ipv4Net) (aggregate_v6 : List Ipv6Net → List Ipv6Net)

/-- The routes into the adapter for these inputs. -/
def compute (inputs : RouteInputs) : RouteSet :=
  let v4 := pieces_v4 inputs
  let v4 := without_broadcast v4 (aggregate_v4 v4)
  let v4 := if inputs.class_e then v4 else v4.flatMap (·.complement [CLASS_E])
  ⟨v4, aggregate_v6 (pieces_v6 inputs)⟩

end

/-- Whether traffic to `ip` goes into the adapter. -/
def contains (set : RouteSet) : IpAddr → Bool
  | .v4 ip => SPACE_V4.contains ip || set.v4.any (·.contains ip)
  | .v6 ip => SPACE_V6.contains ip || set.v6.any (·.contains ip)

end RouteSet

end Rurge
