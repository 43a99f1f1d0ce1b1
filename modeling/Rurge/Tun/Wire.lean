import Rurge.Lib.BigEndian
import Rurge.Net.Addr

/-!
# Packets as they are on the wire

The readers of smoltcp's packet types (`Ipv4Packet`, `Ipv6Packet`, `TcpPacket`, `UdpPacket`,
`Icmpv4Packet`, `Icmpv6Packet`) over the bytes of a packet, each `none` where it would panic: an
index or a range that is not within the bytes.  `check_len` is what `new_checked` asks of them.
The crate is not part of the source; what is read here is the layout its fields are documented with.

* What a reader reads of a packet it reads of the packet cut to any length that holds it
  (`u16_take`, `slice_take`).
* A sum does not mind the order of its words (`Checksum.combine_swap`).
-/

namespace Rurge.Tun.Wire

open BigEndian

abbrev Bytes := List UInt8

/-- `data[i]`. -/
def u8 (data : Bytes) (i : ℕ) : Option UInt8 := data[i]?

/-- `&data[i..j]`. -/
def slice (data : Bytes) (i j : ℕ) : Option Bytes :=
  if i ≤ j ∧ j ≤ data.length then some ((data.take j).drop i) else none

/-- `NetworkEndian::read_u16(&data[i..i + 2])`. -/
def u16 (data : Bytes) (i : ℕ) : Option ℕ := (slice data i (i + 2)).map ofBytes

/-- `NetworkEndian::read_u32(&data[i..i + 4])`. -/
def u32 (data : Bytes) (i : ℕ) : Option ℕ := (slice data i (i + 4)).map ofBytes

section Reads

variable {data : Bytes} {i j n : ℕ}

theorem exists_u8 (h : i < data.length) : ∃ b, u8 data i = some b := ⟨_, List.getElem?_eq_getElem h⟩

theorem exists_slice (hij : i ≤ j) (hj : j ≤ data.length) :
    ∃ s : Bytes, slice data i j = some s ∧ s.length = j - i := by
  refine ⟨_, if_pos ⟨hij, hj⟩, ?_⟩
  rw [List.length_drop, List.length_take, min_eq_left hj]

theorem length_of_slice {s : Bytes} (h : slice data i j = some s) :
    i ≤ j ∧ j ≤ data.length ∧ s.length = j - i := by
  rw [slice] at h
  split_ifs at h with hij
  cases h
  rw [List.length_drop, List.length_take, min_eq_left hij.2]
  exact ⟨hij.1, hij.2, rfl⟩

theorem exists_u16 (h : i + 2 ≤ data.length) : ∃ v, u16 data i = some v ∧ v < 65536 := by
  obtain ⟨s, hs, hlength⟩ := exists_slice (Nat.le_add_right i 2) h
  refine ⟨ofBytes s, by rw [u16, hs, Option.map_some], ?_⟩
  have hlt := ofBytes_lt s
  rw [hlength] at hlt
  simpa using hlt

theorem exists_u32 (h : i + 4 ≤ data.length) : ∃ v, u32 data i = some v ∧ v < 4294967296 := by
  obtain ⟨s, hs, hlength⟩ := exists_slice (Nat.le_add_right i 4) h
  refine ⟨ofBytes s, by rw [u32, hs, Option.map_some], ?_⟩
  have hlt := ofBytes_lt s
  rw [hlength] at hlt
  simpa using hlt

theorem u8_take (h : i < n) : u8 (data.take n) i = u8 data i := List.getElem?_take_of_lt h

theorem slice_take (h : j ≤ n) : slice (data.take n) i j = slice data i j := by
  have hlength : j ≤ (data.take n).length ↔ j ≤ data.length := by
    rw [List.length_take, le_min_iff]
    exact and_iff_right h
  rw [slice, slice, List.take_take, min_eq_left h]
  exact if_congr (and_congr_right fun _ => hlength) rfl rfl

theorem u16_take (h : i + 2 ≤ n) : u16 (data.take n) i = u16 data i := by
  rw [u16, u16, slice_take h]

end Reads

/-! ### Checksums -/

namespace Checksum

/-- The sum of the words, an odd byte at the end being the higher of one. -/
def words : Bytes → ℕ
  | [] => 0
  | [a] => a.toNat * 256
  | a :: b :: rest => a.toNat * 256 + b.toNat + words rest

def propagate_carries (word : ℕ) : ℕ :=
  let sum := word / 65536 + word % 65536
  (sum / 65536 + sum % 65536) % 65536

/-- `checksum::data`. -/
def data (bytes : Bytes) : ℕ := propagate_carries (words bytes)

def combine (checksums : List ℕ) : ℕ := propagate_carries checksums.sum

/-- `!0`, what the words of a sound packet sum up to. -/
def SOUND : ℕ := 65535

def pseudo_header_v4 (src dst : Bytes) (next_header : UInt8) (length : ℕ) : ℕ :=
  combine [data src, data dst, data ([0, next_header] ++ toBytes 2 length)]

def pseudo_header_v6 (src dst : Bytes) (next_header : UInt8) (length : ℕ) : ℕ :=
  combine [data src, data dst, data (toBytes 4 length ++ [0, 0, 0, next_header])]

/-- By the family of the addresses. -/
def pseudo_header (src dst : IpAddr) (next_header : UInt8) (length : ℕ) : ℕ :=
  match src, dst with
  | .v4 src, .v4 dst =>
    pseudo_header_v4 (toBytes 4 src.toNat) (toBytes 4 dst.toNat) next_header length
  | .v6 src, .v6 dst =>
    pseudo_header_v6 (toBytes 16 src.toNat) (toBytes 16 dst.toNat) next_header length
  | _, _ => 0

theorem combine_swap (a b : ℕ) (rest : List ℕ) :
    combine (a :: b :: rest) = combine (b :: a :: rest) := by
  rw [combine, combine, List.sum_cons, List.sum_cons, List.sum_cons, List.sum_cons,
    Nat.add_left_comm]

theorem pseudo_header_swap (src dst : IpAddr) (next_header : UInt8) (length : ℕ) :
    pseudo_header src dst next_header length = pseudo_header dst src next_header length := by
  cases src <;> cases dst
  · exact combine_swap ..
  · rfl
  · rfl
  · exact combine_swap ..

theorem words_append {a : Bytes} (h : a.length % 2 = 0) (b : Bytes) :
    words (a ++ b) = words a + words b := by
  induction a using words.induct with
  | case1 => exact (Nat.zero_add _).symm
  | case2 x => cases h
  | case3 x y rest ih =>
    have hrest : rest.length % 2 = 0 := by
      rw [List.length_cons, List.length_cons] at h
      omega
    rw [List.cons_append, List.cons_append, words, words, ih hrest]
    omega

end Checksum

/-! ### IPv4 -/

namespace Ipv4

def header_len (data : Bytes) : Option ℕ := do return (← u8 data 0).toNat % 16 * 4
def total_len (data : Bytes) : Option ℕ := u16 data 2
def more_frags (data : Bytes) : Option Bool := do return (← u16 data 6) / 8192 % 2 = 1

/-- In bytes. -/
def frag_offset (data : Bytes) : Option ℕ := do return (← u16 data 6) % 8192 * 8

def next_header (data : Bytes) : Option UInt8 := u8 data 9
def src_addr (data : Bytes) : Option Ipv4Addr := do return .ofNat 32 (ofBytes (← slice data 12 16))
def dst_addr (data : Bytes) : Option Ipv4Addr := do return .ofNat 32 (ofBytes (← slice data 16 20))
def payload (data : Bytes) : Option Bytes := do slice data (← header_len data) (← total_len data)

def verify_checksum (data : Bytes) : Option Bool := do
  return Checksum.data (← slice data 0 (← header_len data)) = Checksum.SOUND

def check_len (data : Bytes) : Option Bool :=
  if data.length < 20 then some false
  else do
    let header ← header_len data
    if data.length < header then return false
    let total ← total_len data
    if total < header then return false
    return total ≤ data.length

theorem exists_header_len {data : Bytes} (h : 0 < data.length) :
    ∃ header, header_len data = some header := by
  obtain ⟨b, hb⟩ := exists_u8 h
  exact ⟨_, by rw [header_len, hb]; rfl⟩

/-- A packet that is as long as it says, and whose header is within that. -/
structure Fits (data : Bytes) (header total : ℕ) : Prop where
  header_len : Ipv4.header_len data = some header
  total_len : Ipv4.total_len data = some total
  fixed : 20 ≤ data.length
  header_le : header ≤ total
  total_le : total ≤ data.length

theorem check_len_cases (data : Bytes) :
    check_len data = some false ∨
      check_len data = some true ∧ ∃ header total, Fits data header total := by
  rw [check_len]
  split_ifs with hshort
  · exact .inl rfl
  · obtain ⟨header, hheader⟩ := exists_header_len (show 0 < data.length by omega)
    obtain ⟨total, htotal, -⟩ := exists_u16 (show 2 + 2 ≤ data.length by omega)
    have htotal' : total_len data = some total := htotal
    simp only [hheader, htotal', Option.bind_eq_bind, Option.bind_some, Option.pure_def]
    split_ifs with hlong hheader_le
    · exact .inl rfl
    · exact .inl rfl
    · by_cases hle : total ≤ data.length
      · exact .inr ⟨by rw [decide_eq_true hle], header, total, hheader, htotal', by omega,
          by omega, hle⟩
      · exact .inl (by rw [decide_eq_false hle])

end Ipv4

/-! ### IPv6 -/

namespace Ipv6

def HEADER_LEN : ℕ := 40

def total_len (data : Bytes) : Option ℕ := do return HEADER_LEN + (← u16 data 4)
def next_header (data : Bytes) : Option UInt8 := u8 data 6
def src_addr (data : Bytes) : Option Ipv6Addr := do return .ofNat 128 (ofBytes (← slice data 8 24))
def dst_addr (data : Bytes) : Option Ipv6Addr := do return .ofNat 128 (ofBytes (← slice data 24 40))
def payload (data : Bytes) : Option Bytes := do slice data HEADER_LEN (← total_len data)

def check_len (data : Bytes) : Option Bool :=
  if data.length < 40 then some false
  else do return (← total_len data) ≤ data.length

/-- A packet that is as long as it says. -/
structure Fits (data : Bytes) (total : ℕ) : Prop where
  total_len : Ipv6.total_len data = some total
  fixed : HEADER_LEN ≤ total
  total_le : total ≤ data.length

theorem check_len_cases (data : Bytes) :
    check_len data = some false ∨ check_len data = some true ∧ ∃ total, Fits data total := by
  rw [check_len]
  split_ifs with hshort
  · exact .inl rfl
  · obtain ⟨length, hlength, -⟩ := exists_u16 (show 4 + 2 ≤ data.length by omega)
    have htotal : total_len data = some (HEADER_LEN + length) := by rw [total_len, hlength]; rfl
    simp only [htotal, Option.bind_eq_bind, Option.bind_some, Option.pure_def]
    by_cases hle : HEADER_LEN + length ≤ data.length
    · exact .inr ⟨by rw [decide_eq_true hle], _, htotal, Nat.le_add_right .., hle⟩
    · exact .inl (by rw [decide_eq_false hle])

end Ipv6

/-! ### What they carry -/

namespace Tcp

def src_port (data : Bytes) : Option ℕ := u16 data 0
def dst_port (data : Bytes) : Option ℕ := u16 data 2
def seq_number (data : Bytes) : Option UInt32 := do return .ofNat (← u32 data 4)
def ack_number (data : Bytes) : Option UInt32 := do return .ofNat (← u32 data 8)
def header_len (data : Bytes) : Option ℕ := do return (← u16 data 12) / 4096 * 4
def fin (data : Bytes) : Option Bool := do return (← u16 data 12) % 2 = 1
def syn (data : Bytes) : Option Bool := do return (← u16 data 12) / 2 % 2 = 1
def rst (data : Bytes) : Option Bool := do return (← u16 data 12) / 4 % 2 = 1
def ack (data : Bytes) : Option Bool := do return (← u16 data 12) / 16 % 2 = 1

def check_len (data : Bytes) : Option Bool :=
  if data.length < 20 then some false
  else do
    let header ← header_len data
    return header ≤ data.length ∧ 20 ≤ header

theorem check_len_cases (data : Bytes) :
    check_len data = some false ∨ check_len data = some true ∧
      ∃ header, header_len data = some header ∧ 20 ≤ header ∧ header ≤ data.length := by
  rw [check_len]
  split_ifs with hshort
  · exact .inl rfl
  · obtain ⟨flags, hflags, -⟩ := exists_u16 (show 12 + 2 ≤ data.length by omega)
    have hheader : header_len data = some (flags / 4096 * 4) := by rw [header_len, hflags]; rfl
    simp only [hheader, Option.bind_eq_bind, Option.bind_some, Option.pure_def]
    by_cases hle : flags / 4096 * 4 ≤ data.length ∧ 20 ≤ flags / 4096 * 4
    · exact .inr ⟨by rw [decide_eq_true hle], _, rfl, hle.2, hle.1⟩
    · exact .inl (by rw [decide_eq_false hle])

def verify_checksum (src dst : IpAddr) (data : Bytes) : Bool :=
  Checksum.combine [Checksum.pseudo_header src dst 6 data.length, Checksum.data data] =
    Checksum.SOUND

end Tcp

namespace Udp

def src_port (data : Bytes) : Option ℕ := u16 data 0
def dst_port (data : Bytes) : Option ℕ := u16 data 2
def len (data : Bytes) : Option ℕ := u16 data 4
def checksum (data : Bytes) : Option ℕ := u16 data 6

def check_len (data : Bytes) : Option Bool :=
  if data.length < 8 then some false
  else do
    let length ← len data
    return length ≤ data.length ∧ 8 ≤ length

theorem check_len_cases (data : Bytes) :
    check_len data = some false ∨ check_len data = some true ∧
      ∃ length, len data = some length ∧ 8 ≤ length ∧ length ≤ data.length := by
  rw [check_len]
  split_ifs with hshort
  · exact .inl rfl
  · obtain ⟨length, hlength, -⟩ := exists_u16 (show 4 + 2 ≤ data.length by omega)
    have hlen : len data = some length := hlength
    simp only [hlen, Option.bind_eq_bind, Option.bind_some, Option.pure_def]
    by_cases hle : length ≤ data.length ∧ 8 ≤ length
    · exact .inr ⟨by rw [decide_eq_true hle], _, rfl, hle.2, hle.1⟩
    · exact .inl (by rw [decide_eq_false hle])

/-- A zero is no checksum, and right. -/
def verify_checksum (src dst : IpAddr) (data : Bytes) : Option Bool := do
  if (← checksum data) = 0 then return true
  let datagram ← slice data 0 (← len data)
  return Checksum.combine [Checksum.pseudo_header src dst 17 (← len data),
    Checksum.data datagram] = Checksum.SOUND

end Udp

namespace Icmpv4

def verify_checksum (data : Bytes) : Bool := Checksum.data data = Checksum.SOUND

end Icmpv4

namespace Icmpv6

def verify_checksum (src dst : IpAddr) (data : Bytes) : Bool :=
  Checksum.combine [Checksum.pseudo_header src dst 58 data.length, Checksum.data data] =
    Checksum.SOUND

end Icmpv6

end Rurge.Tun.Wire
