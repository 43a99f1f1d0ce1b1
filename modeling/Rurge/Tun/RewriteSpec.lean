import Rurge.Tun.ClassifySpec
import Rurge.Tun.Rewrite

/-!
# What is answered draws no answer

A reflected packet is as sound as the one that came (`Reflected`), and what a rejected packet is
answered with would itself be answered with nothing (`refusal_rst_for`, `refusal_prohibited`).
-/

namespace Rurge.Tun.Rewrite

open Wire Classify

/-! ### Swapping -/

/-- A list cut at three places. -/
theorem exists_fields {packet : Bytes} {at_ width : ℕ} (h : at_ + width + width ≤ packet.length) :
    ∃ a s d r : Bytes, packet = a ++ (s ++ (d ++ r)) ∧ a.length = at_ ∧ s.length = width ∧
      d.length = width := by
  refine ⟨packet.take at_, (packet.drop at_).take width,
    ((packet.drop at_).drop width).take width, ((packet.drop at_).drop width).drop width,
    ?_, ?_, ?_, ?_⟩
  · rw [List.take_append_drop, List.take_append_drop, List.take_append_drop]
  all_goals
    simp only [List.length_take, List.length_drop]
    omega

theorem slice_append (a b c : Bytes) :
    slice (a ++ (b ++ c)) a.length (a.length + b.length) = some b := by
  rw [slice, if_pos ⟨Nat.le_add_right .., by simp⟩, List.take_length_add_append]
  simp

theorem swap_fields {a s d r : Bytes} (h : s.length = d.length) :
    swap (a ++ (s ++ (d ++ r))) a.length s.length = some (a ++ (d ++ (s ++ r))) := by
  have hfirst : slice (a ++ (s ++ (d ++ r))) 0 a.length = some a := by
    simpa using slice_append [] a (s ++ (d ++ r))
  have hsrc : slice (a ++ (s ++ (d ++ r))) a.length (a.length + s.length) = some s :=
    slice_append a s (d ++ r)
  have hdst : slice (a ++ (s ++ (d ++ r))) (a.length + s.length)
      (a.length + s.length + s.length) = some d := by
    have hslice := slice_append (a ++ s) d r
    rw [List.length_append, List.append_assoc] at hslice
    rw [h] at hslice ⊢
    exact hslice
  have hrest : slice (a ++ (s ++ (d ++ r))) (a.length + s.length + s.length)
      (a ++ (s ++ (d ++ r))).length = some r := by
    have hslice := slice_append (a ++ s ++ d) r []
    simp only [List.append_nil, List.length_append, List.append_assoc] at hslice ⊢
    rw [← h] at hslice
    simpa [Nat.add_assoc, h] using hslice
  simp only [swap, hfirst, hsrc, hdst, hrest, Option.bind_eq_bind, Option.bind_some,
    Option.pure_def, List.append_assoc]

/-- Two packets alike but for two fields, each of which is the other's. -/
structure Swapped (packet back : Bytes) (at_ width : ℕ) : Prop where
  length : back.length = packet.length
  others : ∀ i, i < at_ ∨ at_ + width + width ≤ i → back[i]? = packet[i]?
  src : slice back at_ (at_ + width) = slice packet (at_ + width) (at_ + width + width)
  dst : slice back (at_ + width) (at_ + width + width) = slice packet at_ (at_ + width)
  again : swap back at_ width = some packet
  words : at_ % 2 = 0 → width % 2 = 0 → ∀ n, at_ + width + width ≤ n →
    Checksum.words (back.take n) = Checksum.words (packet.take n)

theorem swap_spec {packet : Bytes} {at_ width : ℕ} (h : at_ + width + width ≤ packet.length) :
    ∃ back, swap packet at_ width = some back ∧ Swapped packet back at_ width := by
  obtain ⟨a, s, d, r, rfl, ha, hs, hd⟩ := exists_fields h
  have hsd : s.length = d.length := hs.trans hd.symm
  obtain rfl := ha
  obtain rfl := hs
  refine ⟨a ++ (d ++ (s ++ r)), swap_fields hsd, ?_, fun i hi => ?_, ?_, ?_, ?_,
    fun heven hwidth n hn => ?_⟩
  · simp only [List.length_append]
    omega
  · rcases hi with hi | hi
    · rw [List.getElem?_append_left hi, List.getElem?_append_left hi]
    · rw [← List.append_assoc, ← List.append_assoc, ← List.append_assoc, ← List.append_assoc,
        List.getElem?_append_right (by simp; omega), List.getElem?_append_right (by simp; omega)]
      simp only [List.length_append, Nat.add_assoc, hsd]
  · have hback := slice_append a d (s ++ r)
    have hpacket := slice_append (a ++ s) d r
    rw [List.length_append, List.append_assoc] at hpacket
    rw [hsd] at hpacket ⊢
    exact hback.trans hpacket.symm
  · have hpacket := slice_append a s (d ++ r)
    have hback := slice_append (a ++ d) s r
    rw [List.length_append, List.append_assoc] at hback
    rw [hsd] at hback hpacket ⊢
    exact hback.trans hpacket.symm
  · rw [hsd]
    exact swap_fields hsd.symm
  · obtain ⟨m, rfl⟩ := Nat.exists_eq_add_of_le hn
    have htake (x y : Bytes) (hx : x.length = s.length) (hy : y.length = s.length) :
        (a ++ (x ++ (y ++ r))).take (a.length + s.length + s.length + m) =
          a ++ (x ++ (y ++ r.take m)) := by
      rw [Nat.add_assoc, Nat.add_assoc, List.take_length_add_append, ← hx,
        List.take_length_add_append, hx, ← hy, List.take_length_add_append]
    rw [htake d s hsd.symm rfl, htake s d rfl hsd.symm, Checksum.words_append heven,
      Checksum.words_append heven, Checksum.words_append (hsd ▸ hwidth),
      Checksum.words_append hwidth, Checksum.words_append hwidth,
      Checksum.words_append (hsd ▸ hwidth), Nat.add_left_comm (Checksum.words s)]

section Swapped

variable {packet back : Bytes} {at_ width i j : ℕ}

theorem slice_congr (hlength : back.length = packet.length)
    (h : ∀ k, i ≤ k → k < j → back[k]? = packet[k]?) : slice back i j = slice packet i j := by
  rw [slice, slice, hlength]
  split_ifs with hij
  · refine congrArg some (List.ext_getElem? fun k => ?_)
    rw [List.getElem?_drop, List.getElem?_drop, List.getElem?_take, List.getElem?_take]
    split_ifs with hk
    · exact h (i + k) (Nat.le_add_right ..) hk
    · rfl
  · rfl

theorem Swapped.before (h : Swapped packet back at_ width) (hj : j ≤ at_) :
    slice back i j = slice packet i j :=
  slice_congr h.length fun k _ hk => h.others k (.inl (hk.trans_le hj))

theorem Swapped.after (h : Swapped packet back at_ width) (hi : at_ + width + width ≤ i) :
    slice back i j = slice packet i j :=
  slice_congr h.length fun k hk _ => h.others k (.inr (hi.trans hk))

end Swapped

/-! ### Reflecting -/

/-- Where the addresses are in a packet of the family, and how long each is. -/
def places : IpAddr → ℕ × ℕ
  | .v4 _ => (12, 4)
  | .v6 _ => (8, 16)

/-- A reflected packet: the one that came with its addresses swapped, which makes no checksum less
sound. -/
structure Reflected (hit : Hit) (packet back : Bytes) : Prop where
  length : back.length = packet.length
  others : ∀ i, i < (places hit.dst).1 ∨ (places hit.dst).1 + 2 * (places hit.dst).2 ≤ i →
    back[i]? = packet[i]?
  again : reflect hit back = some packet
  v4 : ∀ src dst, hit.src = .v4 src → hit.dst = .v4 dst →
    Ipv4.src_addr back = some dst ∧ Ipv4.dst_addr back = some src ∧
      Ipv4.verify_checksum back = some true ∧ Ipv4.payload back = Ipv4.payload packet
  v6 : ∀ src dst, hit.src = .v6 src → hit.dst = .v6 dst →
    Ipv6.src_addr back = some dst ∧ Ipv6.dst_addr back = some src ∧
      Ipv6.payload back = Ipv6.payload packet
  tcp : ∀ payload, Tcp.verify_checksum hit.dst hit.src payload =
    Tcp.verify_checksum hit.src hit.dst payload
  udp : ∀ payload, Udp.verify_checksum hit.dst hit.src payload =
    Udp.verify_checksum hit.src hit.dst payload
  icmp : ∀ payload, icmp_holds hit.dst hit.src payload = icmp_holds hit.src hit.dst payload

theorem tcp_swap (src dst : IpAddr) (payload : Bytes) :
    Tcp.verify_checksum dst src payload = Tcp.verify_checksum src dst payload := by
  rw [Tcp.verify_checksum, Tcp.verify_checksum, Checksum.pseudo_header_swap]

theorem udp_swap (src dst : IpAddr) (payload : Bytes) :
    Udp.verify_checksum dst src payload = Udp.verify_checksum src dst payload := by
  simp only [Udp.verify_checksum, Checksum.pseudo_header_swap dst src]

theorem icmp_swap (src dst : IpAddr) (payload : Bytes) :
    icmp_holds dst src payload = icmp_holds src dst payload := by
  cases src <;> cases dst
  · rfl
  · rfl
  · rfl
  · rw [icmp_holds, icmp_holds, Icmpv6.verify_checksum, Icmpv6.verify_checksum,
      Checksum.pseudo_header_swap]

theorem V4.reflected {packet back : Bytes} {header total : ℕ} {src dst : Ipv4Addr}
    (h : V4 packet header total src dst) (hswap : Swapped packet back 12 4) :
    Ipv4.src_addr back = some dst ∧ Ipv4.dst_addr back = some src ∧
      Ipv4.verify_checksum back = some true ∧ Ipv4.payload back = Ipv4.payload packet := by
  have hheader : Ipv4.header_len back = some header := by
    rw [Ipv4.header_len, u8, hswap.others 0 (.inl (by norm_num))]
    exact h.fits.header_len
  have htotal : Ipv4.total_len back = some total := by
    rw [Ipv4.total_len, u16, hswap.before (by norm_num)]
    exact h.fits.total_len
  refine ⟨?_, ?_, ?_, ?_⟩
  · rw [Ipv4.src_addr, hswap.src]
    exact h.dst_addr
  · rw [Ipv4.dst_addr, hswap.dst]
    exact h.src_addr
  · have hverify := h.verify
    have hle := h.fits.header_le.trans h.fits.total_le
    have hback : header ≤ back.length := hswap.length ▸ hle
    have hslice (data : Bytes) (hdata : header ≤ data.length) :
        slice data 0 header = some (data.take header) := if_pos ⟨Nat.zero_le _, hdata⟩
    simp only [Ipv4.verify_checksum, h.fits.header_len, Option.bind_eq_bind, Option.bind_some,
      hslice packet hle, Checksum.data] at hverify
    simp only [Ipv4.verify_checksum, hheader, Option.bind_eq_bind, Option.bind_some,
      hslice back hback, Checksum.data, hswap.words rfl rfl header h.header_min]
    exact hverify
  · rw [Ipv4.payload, Ipv4.payload, hheader, htotal, h.fits.header_len, h.fits.total_len]
    exact hswap.after h.header_min

theorem V6.reflected {packet back : Bytes} {total : ℕ} {src dst : Ipv6Addr}
    (h : V6 packet total src dst) (hswap : Swapped packet back 8 16) :
    Ipv6.src_addr back = some dst ∧ Ipv6.dst_addr back = some src ∧
      Ipv6.payload back = Ipv6.payload packet := by
  have htotal : Ipv6.total_len back = some total := by
    rw [Ipv6.total_len, u16, hswap.before (by norm_num)]
    exact h.fits.total_len
  refine ⟨?_, ?_, ?_⟩
  · rw [Ipv6.src_addr, hswap.src]
    exact h.dst_addr
  · rw [Ipv6.dst_addr, hswap.dst]
    exact h.src_addr
  · rw [Ipv6.payload, Ipv6.payload, htotal, h.fits.total_len]
    exact hswap.after (le_refl 40)

theorem reflect_spec {hit : Hit} {packet : Bytes}
    (h : Heads packet hit.header_len hit.len hit.src hit.dst) :
    ∃ back, reflect hit packet = some back ∧ Reflected hit packet back := by
  obtain ⟨action, hsrc, hdst, len, header⟩ := hit
  cases h with
  | @v4 header total src dst hversion h =>
    have hlong : 12 + 4 + 4 ≤ packet.length := h.fits.fixed
    obtain ⟨back, hback, hswap⟩ := swap_spec hlong
    refine ⟨back, hback, hswap.length, hswap.others, hswap.again, ?_, nofun, tcp_swap _ _,
      udp_swap _ _, icmp_swap _ _⟩
    rintro src' dst' hsrc hdst
    cases hsrc
    cases hdst
    exact V4.reflected h hswap
  | @v6 total src dst hversion h =>
    have hlong : 8 + 16 + 16 ≤ packet.length := h.fits.fixed.trans h.fits.total_le
    obtain ⟨back, hback, hswap⟩ := swap_spec hlong
    refine ⟨back, hback, hswap.length, hswap.others, hswap.again, nofun, ?_, tcp_swap _ _,
      udp_swap _ _, icmp_swap _ _⟩
    rintro src' dst' hsrc hdst
    cases hsrc
    cases hdst
    exact V6.reflected h hswap

/-! ### Refusing -/

/-- A refusal that is nothing, by the readers' own account. -/
theorem refusal_tcp_total (packet : Bytes) : ∃ r, refusal_tcp packet = some r := by
  rcases segment_cases packet with hnone | ⟨s, _, _, _, _, hsome, -⟩
  · exact ⟨_, by rw [refusal_tcp, hnone]; rfl⟩
  · rw [refusal_tcp, hsome]
    simp only [Option.bind_eq_bind, Option.bind_some, Option.pure_def]
    split_ifs <;> exact ⟨_, rfl⟩

theorem refusal_v4_total (packet : Bytes) : ∃ r, refusal_v4 packet = some r := by
  rcases Ipv4.check_len_cases packet with hcheck | ⟨hcheck, header, total, hfits⟩
  · exact ⟨_, by rw [refusal_v4, hcheck]; rfl⟩
  have hfixed := hfits.fixed
  obtain ⟨flags, hflags, -⟩ := exists_u16 (show 6 + 2 ≤ packet.length by omega)
  obtain ⟨protocol, hprotocol⟩ := exists_u8 (show 9 < packet.length by omega)
  obtain ⟨payload, hpayload, -⟩ := exists_slice hfits.header_le hfits.total_le
  have hnext : Ipv4.next_header packet = some protocol := hprotocol
  obtain ⟨r, hr⟩ := refusal_tcp_total packet
  simp only [refusal_v4, hcheck, Ipv4.frag_offset, Ipv4.more_frags, Ipv4.payload, hflags, hnext,
    hfits.header_len, hfits.total_len, hpayload, hr, Option.bind_eq_bind, Option.bind_some,
    Option.pure_def]
  cases payload with
  | nil => split_ifs <;> exact ⟨_, rfl⟩
  | cons kind rest =>
    simp only [List.head?_cons]
    split_ifs <;> exact ⟨_, rfl⟩

theorem refusal_v6_after_total (packet payload : Bytes) (fragmented : Bool) (next_header : UInt8) :
    ∃ r, refusal_v6_after packet payload fragmented next_header = some r := by
  obtain ⟨r, hr⟩ := refusal_tcp_total packet
  simp only [refusal_v6_after, hr, Option.pure_def]
  cases payload[if fragmented then 8 else 0]? with
  | none => split_ifs <;> exact ⟨_, rfl⟩
  | some kind =>
    simp only
    split_ifs <;> exact ⟨_, rfl⟩

theorem refusal_v6_total (packet : Bytes) : ∃ r, refusal_v6 packet = some r := by
  rcases Ipv6.check_len_cases packet with hcheck | ⟨hcheck, total, hfits⟩
  · exact ⟨_, by rw [refusal_v6, hcheck]; rfl⟩
  have hfixed : 40 ≤ packet.length := hfits.fixed.trans hfits.total_le
  obtain ⟨protocol, hprotocol⟩ := exists_u8 (show 6 < packet.length by omega)
  obtain ⟨payload, hpayload, -⟩ := exists_slice hfits.fixed hfits.total_le
  have hnext : Ipv6.next_header packet = some protocol := hprotocol
  simp only [refusal_v6, hcheck, Ipv6.payload, hnext, hfits.total_len, hpayload,
    Option.bind_eq_bind, Option.bind_some, Option.pure_def]
  by_cases hshort : payload.length < 8
  · simp only [hshort, if_true]
    split_ifs
    · exact ⟨_, rfl⟩
    · exact ⟨_, rfl⟩
    · exact refusal_v6_after_total ..
  · obtain ⟨offset, hoffset, -⟩ := exists_u16 (show 2 + 2 ≤ payload.length by omega)
    obtain ⟨inner, hinner⟩ := exists_u8 (show 0 < payload.length by omega)
    simp only [hshort, hoffset, hinner, if_false, Option.bind_some]
    split_ifs
    · exact ⟨_, rfl⟩
    · exact ⟨_, rfl⟩
    · exact refusal_v6_after_total ..
    · exact refusal_v6_after_total ..

theorem refusal_total (packet : Bytes) : ∃ r, refusal packet = some r := by
  rw [refusal]
  split
  · exact refusal_v4_total packet
  · exact refusal_v6_total packet
  · exact ⟨_, rfl⟩

/-- The payload of a packet of either family. -/
inductive Carries (packet : Bytes) : UInt8 → Bytes → Prop
  | v4 {protocol : UInt8} {payload : Bytes} (hversion : version packet = some 4)
      (hnext : Ipv4.next_header packet = some protocol)
      (hpayload : Ipv4.payload packet = some payload) : Carries packet protocol payload
  | v6 {protocol : UInt8} {payload : Bytes} (hversion : version packet = some 6)
      (hnext : Ipv6.next_header packet = some protocol)
      (hpayload : Ipv6.payload packet = some payload) : Carries packet protocol payload

theorem passed_carries {packet : Bytes} {rewrite : IpRewrite} {parsed : Parsed} {header : ℕ}
    {protocol : UInt8} {payload : Bytes}
    (h : PassedBy packet rewrite parsed header protocol payload) :
    Carries packet protocol payload := by
  obtain ⟨src, dst, len, t⟩ := parsed
  obtain ⟨hheads, -, hwhole, -⟩ := h
  cases hheads with
  | v4 hversion h =>
    cases hwhole with
    | v4 hwhole => exact .v4 hversion hwhole.next_header hwhole.payload
  | v6 hversion h =>
    cases hwhole with
    | v6 hwhole => exact .v6 hversion hwhole.next_header hwhole.payload

/-- A reset is answered with nothing. -/
theorem refusal_tcp_rst {packet : Bytes}
    (h : ∀ payload, Carries packet TCP payload → Tcp.rst payload = some true) :
    refusal_tcp packet = some .Nothing := by
  rcases segment_cases packet with hnone | ⟨s, parsed, header, protocol, payload, hsome, hp, ht⟩
  · rw [refusal_tcp, hnone]
    rfl
  · obtain ⟨rfl, hreads⟩ := transport_tcp _ _ _ hp.transport ht
    have hrst : s.rst = true := by
      have hrst := h _ (passed_carries hp)
      rw [hreads.rst] at hrst
      exact Option.some.inj hrst
    rw [refusal_tcp, hsome]
    simp [hrst]

/-- A byte of a range is one of the whole. -/
theorem getElem?_of_slice {data s : Bytes} {i j k : ℕ} {b : UInt8} (hs : slice data i j = some s)
    (hb : s[k]? = some b) : data[i + k]? = some b := by
  rw [slice] at hs
  split_ifs at hs
  cases hs
  rw [List.getElem?_drop, List.getElem?_take] at hb
  split_ifs at hb
  exact hb

theorem slice_of_payload_v4 {packet payload : Bytes} (h : Ipv4.payload packet = some payload) :
    ∃ header total, Ipv4.header_len packet = some header ∧
      slice packet header total = some payload := by
  rw [Ipv4.payload, Option.bind_eq_bind, Option.bind_eq_some_iff] at h
  obtain ⟨header, hheader, h⟩ := h
  obtain ⟨total, -, h⟩ := Option.bind_eq_some_iff.1 h
  exact ⟨header, total, hheader, h⟩

theorem slice_of_payload_v6 {packet payload : Bytes} (h : Ipv6.payload packet = some payload) :
    ∃ total, slice packet Ipv6.HEADER_LEN total = some payload := by
  rw [Ipv6.payload, Option.bind_eq_bind, Option.bind_eq_some_iff] at h
  obtain ⟨total, -, h⟩ := h
  exact ⟨total, h⟩

/-! ### The packets that are written -/

section Written

variable (p : Ipv4Packet) (q : Ipv6Packet)

theorem bytes_v4 : p.bytes.drop 20 = p.data := rfl

theorem bytes_v6 (h : q.fragment = none) : q.bytes.drop 40 = q.data := by
  rw [Ipv6Packet.bytes, h]
  exact List.drop_left' (by simp)

theorem length_v4 : p.bytes.length = 20 + p.data.length := by
  change p.data.length + 20 = _
  omega

theorem length_v6 (h : q.fragment = none) : q.bytes.length = 40 + q.data.length := by
  rw [Ipv6Packet.bytes, h]
  simp
  omega

theorem more_frags_v4 (h : p.more_frags = false) : Ipv4.more_frags p.bytes = some false := by
  have hslice : slice p.bytes 6 8 =
      some (BigEndian.toBytes 2 ((if p.dont_frag then 16384 else 0) +
        (if p.more_frags then 8192 else 0) + p.frag_offset.toNat)) := rfl
  have hoffset := p.frag_offset.isLt
  rw [Ipv4.more_frags, u16, hslice, Option.map_some, BigEndian.ofBytes_toBytes, h]
  simp only [Bool.false_eq_true, if_false, Option.bind_eq_bind, Option.bind_some, Option.pure_def]
  refine congrArg some (decide_eq_false ?_)
  split_ifs <;> omega

end Written

/-! ### What is answered with nothing -/

/-- An IPv4 packet that carries an ICMP error. -/
theorem refusal_v4_icmp {packet : Bytes} (hnext : Ipv4.next_header packet = some ICMP)
    (herror : ∀ payload kind, Ipv4.payload packet = some payload → payload.head? = some kind →
      is_icmpv4_error kind = true) : refusal_v4 packet = some .Nothing := by
  rcases Ipv4.check_len_cases packet with hcheck | ⟨hcheck, header, total, hfits⟩
  · rw [refusal_v4, hcheck]
    rfl
  have hfixed := hfits.fixed
  obtain ⟨flags, hflags, -⟩ := exists_u16 (show 6 + 2 ≤ packet.length by omega)
  obtain ⟨payload, hslice, -⟩ := exists_slice hfits.header_le hfits.total_le
  have hpayload : Ipv4.payload packet = some payload := by
    simp [Ipv4.payload, hfits.header_len, hfits.total_len, hslice]
  simp only [refusal_v4, hcheck, Ipv4.frag_offset, hflags, hnext, hpayload, Option.bind_eq_bind,
    Option.bind_some, Option.pure_def]
  cases hhead : payload.head? with
  | none => simp
  | some kind => simp [herror payload kind hpayload hhead]

theorem refusal_v4_rst {packet : Bytes} (hversion : version packet = some 4)
    (hnext : Ipv4.next_header packet = some TCP) (hmore : Ipv4.more_frags packet = some false)
    (hrst : ∀ payload, Ipv4.payload packet = some payload → Tcp.rst payload = some true) :
    refusal_v4 packet = some .Nothing := by
  rcases Ipv4.check_len_cases packet with hcheck | ⟨hcheck, header, total, hfits⟩
  · rw [refusal_v4, hcheck]
    rfl
  have hfixed := hfits.fixed
  obtain ⟨flags, hflags, -⟩ := exists_u16 (show 6 + 2 ≤ packet.length by omega)
  have htcp : refusal_tcp packet = some .Nothing := refusal_tcp_rst fun payload hcarries => by
    cases hcarries with
    | v4 _ _ hpayload => exact hrst payload hpayload
    | v6 hsix => exact nomatch hversion.symm.trans hsix
  simp [refusal_v4, hcheck, Ipv4.frag_offset, hflags, hnext, hmore, htcp, TCP, ICMP]

/-- What is read of an IPv6 packet once its fixed header is. -/
theorem refusal_v6_whole {packet : Bytes} {protocol : UInt8} (hfrag : protocol ≠ IPV6_FRAG)
    (hnext : Ipv6.next_header packet = some protocol)
    (h : ∀ payload, Ipv6.payload packet = some payload →
      refusal_v6_after packet payload false protocol = some .Nothing) :
    refusal_v6 packet = some .Nothing := by
  rcases Ipv6.check_len_cases packet with hcheck | ⟨hcheck, total, hfits⟩
  · rw [refusal_v6, hcheck]
    rfl
  obtain ⟨payload, hslice, -⟩ := exists_slice hfits.fixed hfits.total_le
  have hpayload : Ipv6.payload packet = some payload := by
    simp [Ipv6.payload, hfits.total_len, hslice]
  simp [refusal_v6, hcheck, hpayload, hnext, hfrag, h payload hpayload]

theorem refusal_v6_rst {packet : Bytes} (hversion : version packet = some 6)
    (hnext : Ipv6.next_header packet = some TCP)
    (hrst : ∀ payload, Ipv6.payload packet = some payload → Tcp.rst payload = some true) :
    refusal_v6 packet = some .Nothing := by
  refine refusal_v6_whole (by decide) hnext fun payload _ => ?_
  have htcp : refusal_tcp packet = some .Nothing := refusal_tcp_rst fun payload hcarries => by
    cases hcarries with
    | v4 hfour => exact nomatch hversion.symm.trans hfour
    | v6 _ _ hpayload => exact hrst payload hpayload
  simp [refusal_v6_after, htcp, TCP, ICMPV6, is_ipv6_extension_header]

/-- An ICMPv6 error, right after the header or after a fragment header, is answered with
nothing. -/
theorem refusal_v6_after_icmp {packet payload : Bytes} {fragmented : Bool}
    (herror : ∀ kind, payload[if fragmented then 8 else 0]? = some kind →
      is_icmpv6_error kind = true) :
    refusal_v6_after packet payload fragmented ICMPV6 = some .Nothing := by
  rw [refusal_v6_after]
  cases hkind : payload[if fragmented then 8 else 0]? with
  | none => simp [ICMPV6, is_ipv6_extension_header]
  | some kind => simp [ICMPV6, is_ipv6_extension_header, herror kind hkind]

theorem refusal_v6_after_extension {packet payload : Bytes} {fragmented : Bool} {protocol : UInt8}
    (h : is_ipv6_extension_header protocol = true) :
    refusal_v6_after packet payload fragmented protocol = some .Nothing := by
  rw [refusal_v6_after, if_pos h]
  rfl

/-! ### The answers -/

theorem ofBytes_u16 (n : UInt16) : BigEndian.ofBytes (BigEndian.u16 n) = n.toNat := by
  rw [BigEndian.u16, BigEndian.ofBytes_toBytes]
  exact Nat.mod_eq_of_lt n.toNat_lt

theorem payload_v4 {p : Ipv4Packet} (h : p.total_len.toNat = 20 + p.data.length) :
    Ipv4.payload p.bytes = some p.data := by
  have hlength := length_v4 p
  have htotal : Ipv4.total_len p.bytes = some (20 + p.data.length) := by
    have hslice : slice p.bytes 2 4 = some (BigEndian.u16 p.total_len) := rfl
    rw [Ipv4.total_len, u16, hslice, Option.map_some, ofBytes_u16, h]
  have hheader : Ipv4.header_len p.bytes = some 20 := rfl
  simp only [Ipv4.payload, hheader, htotal, Option.bind_eq_bind, Option.bind_some]
  rw [slice, if_pos ⟨Nat.le_add_right .., hlength.ge⟩, List.take_of_length_le hlength.le,
    bytes_v4]

theorem payload_v6 {q : Ipv6Packet} (hfragment : q.fragment = none)
    (h : q.payload_len.toNat = q.data.length) : Ipv6.payload q.bytes = some q.data := by
  have hlength := length_v6 q hfragment
  have htotal : Ipv6.total_len q.bytes = some (40 + q.data.length) := by
    have hslice : slice q.bytes 4 6 = some (BigEndian.u16 q.payload_len) := by
      rw [Ipv6Packet.bytes]
      exact slice_append [0x60, 0, 0, 0] (BigEndian.u16 q.payload_len) _
    rw [Ipv6.total_len, u16, hslice, Option.map_some, ofBytes_u16, h]
    rfl
  simp only [Ipv6.payload, htotal, Option.bind_eq_bind, Option.bind_some, Ipv6.HEADER_LEN]
  rw [slice, if_pos ⟨Nat.le_add_right .., hlength.ge⟩, List.take_of_length_le hlength.le,
    bytes_v6 q hfragment]

theorem rst_reset (src dst : IpAddr) (src_port dst_port : ℕ) (ack_number : UInt32) :
    Tcp.rst (reset src dst src_port dst_port ack_number) = some true := by
  have hslice : slice (reset src dst src_port dst_port ack_number) 12 14 = some [0x50, 0x14] := rfl
  simp [Tcp.rst, u16, hslice, BigEndian.ofBytes]

/-- What a SYN that is read as one is answered with, and what that is answered with. -/
theorem rst_for_spec {packet : Bytes} {s : Segment} (h : Classify.segment packet = some (some s)) :
    ∃ answer, rst_for packet = some answer ∧ answer.length ≤ 60 ∧
      refusal answer = some .Nothing := by
  rcases segment_cases packet with hnone | ⟨s', parsed, header, protocol, payload, hsome, hp, ht⟩
  · exact nomatch h.symm.trans hnone
  obtain rfl : s = s' := Option.some.inj (Option.some.inj (h.symm.trans hsome))
  obtain ⟨-, hreads⟩ := transport_tcp _ _ _ hp.transport ht
  have hsrc := hreads.src
  have hdst := hreads.dst
  obtain ⟨psrc, pdst, len, t⟩ := parsed
  have hheads := hp.heads
  simp only [rst_for, h, Option.bind_eq_bind, Option.bind_some]
  cases hheads with
  | v4 =>
    rw [hsrc, hdst]
    refine ⟨_, rfl, (length_v4 _).trans_le (by norm_num [reset]), ?_⟩
    refine refusal_v4_rst rfl rfl (more_frags_v4 _ rfl) fun payload hpayload => ?_
    rw [payload_v4 (by rfl)] at hpayload
    cases hpayload
    exact rst_reset ..
  | v6 =>
    rw [hsrc, hdst]
    refine ⟨_, rfl, (length_v6 _ rfl).trans_le (by norm_num [reset]), ?_⟩
    refine refusal_v6_rst rfl rfl fun payload hpayload => ?_
    rw [payload_v6 rfl (by rfl)] at hpayload
    cases hpayload
    exact rst_reset ..

/-- What a quoted packet is answered with, and what that is answered with. -/
theorem prohibited_spec {packet quoted : Bytes} {header total : ℕ} {src dst : IpAddr}
    (h : Heads packet header total src dst) :
    ∃ answer, prohibited dst src quoted = some answer ∧
      answer.length ≤ 48 + quoted.length ∧
      refusal answer = some .Nothing := by
  cases h with
  | v4 =>
    refine ⟨_, rfl, ?_, ?_⟩
    · rw [Packet.bytes, length_v4]
      simp [ipv4, Ipv4Packet.emit]
      omega
    · refine refusal_v4_icmp rfl fun payload kind hpayload hkind => ?_
      obtain ⟨header, total, hheader, hslice⟩ := slice_of_payload_v4 hpayload
      cases hheader
      rw [List.head?_eq_getElem?] at hkind
      cases getElem?_of_slice hslice hkind
      rfl
  | v6 =>
    refine ⟨_, rfl, ?_, ?_⟩
    · rw [Packet.bytes, length_v6 _ rfl]
      simp [ipv6]
      omega
    · refine refusal_v6_whole (show ICMPV6 ≠ IPV6_FRAG by decide) rfl fun payload hpayload => ?_
      refine refusal_v6_after_icmp fun kind hkind => ?_
      obtain ⟨total, hslice⟩ := slice_of_payload_v6 hpayload
      have hbyte := getElem?_of_slice hslice hkind
      rw [Packet.bytes, ← List.getElem?_drop, Ipv6.HEADER_LEN, bytes_v6 _ rfl] at hbyte
      cases hbyte
      rfl

end Rurge.Tun.Rewrite
