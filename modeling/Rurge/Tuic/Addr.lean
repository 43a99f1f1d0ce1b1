import Rurge.Config.Host
import Rurge.Lib.BigEndian
import Rurge.Quic.Bytes

/-!
# Addresses of TUIC's commands

`type ‖ address ‖ port`: a name, an IPv4 address, an IPv6 address, or none, with no port either.
-/

namespace Rurge

namespace Tuic

open BigEndian
open Quic (slice slice_append)

def DOMAIN : UInt8 := 0x00
def IPV4 : UInt8 := 0x01
def IPV6 : UInt8 := 0x02

/-- No address and no port. -/
def NONE : UInt8 := 0xff

/-- The bytes of an IP address, behind their type. -/
def put_ip : IpAddr → List UInt8
  | .v4 ip => IPV4 :: toBytes 4 ip.toNat
  | .v6 ip => IPV6 :: toBytes 16 ip.toNat

/-- The host of type `kind` at the start of `rest`, and how many bytes it took. -/
def get_host (kind : UInt8) (rest : List UInt8) : Option (HostName × ℕ) :=
  if kind = IPV4 then
    (slice rest 0 4).map fun octets => (.ip (.v4 (.ofNat 32 (ofBytes octets))), 4)
  else if kind = IPV6 then
    (slice rest 0 16).map fun octets => (.ip (.of_v6 (.ofNat 128 (ofBytes octets))), 16)
  else if kind = DOMAIN then do
    let n ← rest.head?
    let name ← from_utf8 (← slice rest 1 (1 + n.toNat))
    return (← HostName.from_wire name, 1 + n.toNat)
  else none

/-- The address at the start of `data`, and how many bytes it took: none inside for `0xff`. -/
def get (data : List UInt8) : Option (Option Target × ℕ) := do
  let kind ← data.head?
  if kind = NONE then some (none, 1)
  else
    let (host, len) ← get_host kind data.tail
    let port ← slice data.tail len (len + 2)
    return (some ⟨host, from_u16 port⟩, 1 + len + 2)

/-! ### What follows an address does not matter -/

theorem get_host_append {kind : UInt8} {rest t : List UInt8} {x : HostName × ℕ}
    (h : get_host kind rest = some x) : get_host kind (rest ++ t) = some x := by
  unfold get_host at h ⊢
  split_ifs at h ⊢
  · obtain ⟨octets, hoctets, rfl⟩ := Option.map_eq_some_iff.1 h
    rw [slice_append hoctets, Option.map_some]
  · obtain ⟨octets, hoctets, rfl⟩ := Option.map_eq_some_iff.1 h
    rw [slice_append hoctets, Option.map_some]
  · simp only [Option.bind_eq_bind, Option.bind_eq_some_iff, Option.pure_def] at h ⊢
    obtain ⟨n, hn, bytes, hbytes, name, hname, host, hhost, hx⟩ := h
    refine ⟨n, ?_, bytes, slice_append hbytes, name, hname, host, hhost, hx⟩
    rw [List.head?_append, hn, Option.some_or]

theorem get_append {data t : List UInt8} {x : Option Target × ℕ} (h : get data = some x) :
    get (data ++ t) = some x := by
  cases data with
  | nil => cases h
  | cons kind rest =>
    simp only [get, List.head?_cons, Option.bind_eq_bind, Option.bind_some, List.cons_append,
      List.tail_cons] at h ⊢
    split_ifs at h ⊢ with hnone
    · exact h
    · simp only [Option.bind_eq_some_iff, Option.pure_def] at h ⊢
      obtain ⟨⟨host, len⟩, hhost, port, hport, hx⟩ := h
      exact ⟨(host, len), get_host_append hhost, port, slice_append hport, hx⟩

/-- What `addr::put` writes of an IP address and a port. -/
def put_target (ip : IpAddr) (port : UInt16) : List UInt8 := put_ip ip ++ u16 port

end Tuic

end Rurge
