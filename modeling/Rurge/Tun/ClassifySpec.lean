import Rurge.Tun.Classify

/-!
# Reading is safe, and reading again reads the same

`classify` never panics (`classify_total`).  A packet passes when its headers say what they say
(`V4`, `V6`), which the packet cut to its length says as well; so the cut packet is classified the
same, and its segment is the one that was read first.
-/

namespace Rurge.Tun.Classify

open Wire

/-! ### The transport header -/

section Transport

variable (src dst : IpAddr) (payload : Bytes)

/-- A segment that is read is one of the two addresses and of the payload. -/
structure Reads (s : Segment) : Prop where
  src : s.tuple.src.ip = src
  dst : s.tuple.dst.ip = dst
  rst : Tcp.rst payload = some s.rst
  lengths : s.header_len + s.payload_len = payload.length

theorem tcp_cases :
    (∃ reason, tcp src dst payload = some (.error reason)) ∨
      ∃ s, tcp src dst payload = some (.ok s) ∧ Reads src dst payload s := by
  rw [tcp]
  rcases Tcp.check_len_cases payload with hcheck | ⟨hcheck, header, hheader, hmin, hmax⟩
  · exact .inl ⟨.Malformed, by simp [hcheck]⟩
  · obtain ⟨src_port, hsrc, -⟩ := exists_u16 (show 0 + 2 ≤ payload.length by omega)
    obtain ⟨dst_port, hdst, -⟩ := exists_u16 (show 2 + 2 ≤ payload.length by omega)
    obtain ⟨seq, hseq, -⟩ := exists_u32 (show 4 + 4 ≤ payload.length by omega)
    obtain ⟨ack, hack, -⟩ := exists_u32 (show 8 + 4 ≤ payload.length by omega)
    obtain ⟨flags, hflags, -⟩ := exists_u16 (show 12 + 2 ≤ payload.length by omega)
    by_cases hport : src_port = 0 ∨ dst_port = 0
    · exact .inl ⟨.Malformed, by simp [hcheck, Tcp.src_port, Tcp.dst_port, hsrc, hdst, hport]⟩
    · refine .inr ⟨_, by
        simp only [hcheck, Tcp.src_port, Tcp.dst_port, hsrc, hdst, hheader, Tcp.syn, Tcp.ack,
          Tcp.fin, Tcp.rst, Tcp.seq_number, Tcp.ack_number, hflags, hseq, hack, hport,
          Option.bind_eq_bind, Option.bind_some, Option.pure_def, Bool.not_true,
          Bool.false_eq_true, if_false]
        rfl, rfl, rfl, ?_, Nat.add_sub_cancel' hmax⟩
      rw [Tcp.rst, hflags]
      rfl

theorem udp_cases :
    (∃ reason, udp src dst payload = some (.error reason)) ∨
      ∃ src_port dst_port, udp src dst payload = some (.ok (.Udp src_port dst_port)) := by
  rw [udp]
  rcases Udp.check_len_cases payload with hcheck | ⟨hcheck, length, hlength, hmin, hmax⟩
  · exact .inl ⟨.Malformed, by simp [hcheck]⟩
  · obtain ⟨src_port, hsrc, -⟩ := exists_u16 (show 0 + 2 ≤ payload.length by omega)
    obtain ⟨dst_port, hdst, -⟩ := exists_u16 (show 2 + 2 ≤ payload.length by omega)
    obtain ⟨sum, hsum, -⟩ := exists_u16 (show 6 + 2 ≤ payload.length by omega)
    obtain ⟨datagram, hdatagram, -⟩ := exists_slice (Nat.zero_le length) hmax
    obtain ⟨b, hb⟩ : ∃ b, Udp.verify_checksum src dst payload = some b := by
      rw [Udp.verify_checksum, Udp.checksum, hsum]
      simp only [hlength, hdatagram, Option.bind_eq_bind, Option.bind_some, Option.pure_def]
      split_ifs <;> exact ⟨_, rfl⟩
    simp only [hcheck, Udp.src_port, Udp.dst_port, Udp.checksum, hsrc, hdst, hsum, hb,
      Option.bind_eq_bind, Option.bind_some, Option.pure_def]
    split_ifs
    all_goals first | exact .inl ⟨_, rfl⟩ | exact .inr ⟨_, _, rfl⟩

theorem icmp_cases (echo_request : UInt8) :
    (∃ reason, icmp src dst payload echo_request = some (.error reason)) ∨
      ∃ kind, icmp src dst payload echo_request = some (.ok (.Icmp kind)) := by
  by_cases hshort : payload.length < ICMP_HEADER
  · exact .inl ⟨.Malformed, by rw [icmp, if_pos hshort]; rfl⟩
  · obtain ⟨kind, hkind⟩ := exists_u8 (lt_of_lt_of_le (Nat.zero_lt_succ 7) (not_lt.1 hshort))
    rw [icmp, if_neg hshort]
    simp only [hkind, Option.bind_eq_bind, Option.bind_some, Option.pure_def]
    split_ifs
    all_goals first | exact .inl ⟨_, rfl⟩ | exact .inr ⟨_, rfl⟩

theorem transport_total (protocol : UInt8) (len : ℕ) :
    ∃ r, transport src dst protocol payload len = some r := by
  rw [transport]
  split_ifs
  · rcases tcp_cases src dst payload with ⟨reason, htcp⟩ | ⟨s, htcp, -⟩ <;>
      exact ⟨_, by rw [htcp]; rfl⟩
  · rcases udp_cases src dst payload with ⟨reason, hudp⟩ | ⟨a, b, hudp⟩ <;>
      exact ⟨_, by rw [hudp]; rfl⟩
  · rcases icmp_cases src dst payload ICMPV4_ECHO_REQUEST with ⟨reason, hicmp⟩ | ⟨kind, hicmp⟩ <;>
      exact ⟨_, by rw [hicmp]; rfl⟩
  · rcases icmp_cases src dst payload ICMPV6_ECHO_REQUEST with ⟨reason, hicmp⟩ | ⟨kind, hicmp⟩ <;>
      exact ⟨_, by rw [hicmp]; rfl⟩
  · exact ⟨_, rfl⟩

/-- A segment is what TCP's header is read as. -/
theorem transport_tcp {protocol : UInt8} {len : ℕ} {parsed : Parsed} {s : Segment}
    (h : transport src dst protocol payload len = some (.ok parsed))
    (hs : parsed.transport = .Tcp s) : protocol = TCP ∧ Reads src dst payload s := by
  rw [transport, Option.map_eq_some_iff] at h
  obtain ⟨read, hread, hparsed⟩ := h
  cases read with
  | error => cases hparsed
  | ok t =>
    cases hparsed
    obtain rfl : t = .Tcp s := hs
    split_ifs at hread with hprotocol
    · rcases tcp_cases src dst payload with ⟨reason, htcp⟩ | ⟨s', htcp, hreads⟩
      · rw [htcp] at hread
        cases hread
      · rw [htcp] at hread
        cases hread
        exact ⟨hprotocol, hreads⟩
    · rcases udp_cases src dst payload with ⟨reason, hudp⟩ | ⟨a, b, hudp⟩ <;>
        exact nomatch hudp.symm.trans hread
    · rcases icmp_cases src dst payload ICMPV4_ECHO_REQUEST with ⟨reason, hicmp⟩ | ⟨kind, hicmp⟩ <;>
        exact nomatch hicmp.symm.trans hread
    · rcases icmp_cases src dst payload ICMPV6_ECHO_REQUEST with ⟨reason, hicmp⟩ | ⟨kind, hicmp⟩ <;>
        exact nomatch hicmp.symm.trans hread
    · cases hread

theorem transport_ends {protocol : UInt8} {len : ℕ} {parsed : Parsed}
    (h : transport src dst protocol payload len = some (.ok parsed)) :
    parsed.src = src ∧ parsed.dst = dst ∧ parsed.len = len := by
  obtain ⟨read, -, hread⟩ := Option.map_eq_some_iff.1 h
  cases read with
  | error => cases hread
  | ok t =>
    cases hread
    exact ⟨rfl, rfl, rfl⟩

end Transport

/-! ### IPv4 -/

/-- An IPv4 header that is sound. -/
structure V4 (packet : Bytes) (header total : ℕ) (src dst : Ipv4Addr) : Prop where
  fits : Ipv4.Fits packet header total
  check_len : Ipv4.check_len packet = some true
  header_min : 20 ≤ header
  verify : Ipv4.verify_checksum packet = some true
  src_addr : Ipv4.src_addr packet = some src
  dst_addr : Ipv4.dst_addr packet = some dst
  sane : martian_v4 src dst = false

/-- What an IPv4 packet says after its header, of one that is no fragment. -/
structure V4Whole (packet : Bytes) (protocol : UInt8) (payload : Bytes) : Prop where
  more_frags : Ipv4.more_frags packet = some false
  frag_offset : Ipv4.frag_offset packet = some 0
  next_header : Ipv4.next_header packet = some protocol
  payload : Ipv4.payload packet = some payload

section V4

variable {packet : Bytes} {rewrite : IpRewrite} {header total : ℕ} {src dst : Ipv4Addr}

theorem V4.min_total (h : V4 packet header total src dst) : 20 ≤ total :=
  h.header_min.trans h.fits.header_le

theorem V4.read_hit (h : V4 packet header total src dst) {action : IpRewriteAction}
    (hrewrite : rewrite (.v4 dst) = some action) :
    read_ipv4 packet rewrite =
      some (.ok (.Rewrite ⟨action, .v4 src, .v4 dst, total, header⟩)) := by
  rw [read_ipv4]
  simp [h.check_len, h.fits.header_len, h.fits.total_len, not_lt.2 h.header_min, h.verify,
    h.src_addr, h.dst_addr, h.sane, hrewrite]

theorem V4.read_whole (h : V4 packet header total src dst) {protocol : UInt8} {payload : Bytes}
    (hrewrite : rewrite (.v4 dst) = none) (hwhole : V4Whole packet protocol payload) :
    read_ipv4 packet rewrite =
      (transport (.v4 src) (.v4 dst) protocol payload total).map (·.map .Passed) := by
  rw [read_ipv4]
  simp [h.check_len, h.fits.header_len, h.fits.total_len, not_lt.2 h.header_min, h.verify,
    h.src_addr, h.dst_addr, h.sane, hrewrite, hwhole.more_frags, hwhole.frag_offset,
    hwhole.next_header, hwhole.payload]
  cases transport (.v4 src) (.v4 dst) protocol payload total <;> rfl

/-- A packet whose header is not sound is turned away whatever the table says. -/
theorem v4_cases (packet : Bytes) :
    (∃ dropped, ∀ rewrite, read_ipv4 packet rewrite = some (.error dropped)) ∨
      ∃ header total src dst, V4 packet header total src dst := by
  rcases Ipv4.check_len_cases packet with hcheck | ⟨hcheck, header, total, hfits⟩
  · exact .inl ⟨.unread .Malformed, fun _ => by simp [read_ipv4, hcheck]⟩
  have hmax := hfits.header_le.trans hfits.total_le
  have hfixed := hfits.fixed
  by_cases hmin : header < 20
  · exact .inl ⟨.unread .Malformed, fun _ => by simp [read_ipv4, hcheck, hfits.header_len, hmin]⟩
  obtain ⟨head, hhead, -⟩ := exists_slice (Nat.zero_le header) hmax
  have hverify : Ipv4.verify_checksum packet =
      some (decide (Checksum.data head = Checksum.SOUND)) := by
    simp [Ipv4.verify_checksum, hfits.header_len, hhead]
  by_cases hsum : Checksum.data head = Checksum.SOUND
  swap
  · exact .inl ⟨.unread .Malformed, fun _ => by
      simp [read_ipv4, hcheck, hfits.header_len, hverify, hsum]⟩
  obtain ⟨a, ha, -⟩ := exists_slice (show 12 ≤ 16 by norm_num) (show 16 ≤ packet.length by omega)
  obtain ⟨b, hb, -⟩ := exists_slice (show 16 ≤ 20 by norm_num) hfixed
  obtain ⟨src, hsrc⟩ : ∃ src, Ipv4.src_addr packet = some src := ⟨_, by rw [Ipv4.src_addr, ha]; rfl⟩
  obtain ⟨dst, hdst⟩ : ∃ dst, Ipv4.dst_addr packet = some dst := ⟨_, by rw [Ipv4.dst_addr, hb]; rfl⟩
  cases hsane : martian_v4 src dst with
  | true =>
    exact .inl ⟨.between .Martian (.v4 src) (.v4 dst), fun _ => by
      simp [read_ipv4, hcheck, hfits.header_len, hmin, hverify, hsum, hsrc, hdst, hsane]⟩
  | false =>
    exact .inr ⟨header, total, src, dst, hfits, hcheck, not_lt.1 hmin, by
      rw [hverify, decide_eq_true hsum], hsrc, hdst, hsane⟩

/-- A fragment is turned away unless the table has a line for it. -/
theorem V4.fragment_cases (h : V4 packet header total src dst) :
    (∃ dropped, ∀ rewrite : IpRewrite, rewrite (.v4 dst) = none →
      read_ipv4 packet rewrite = some (.error dropped)) ∨
      ∃ protocol payload, V4Whole packet protocol payload := by
  have hfixed := h.fits.fixed
  obtain ⟨flags, hflags, -⟩ := exists_u16 (show 6 + 2 ≤ packet.length by omega)
  obtain ⟨protocol, hprotocol⟩ := exists_u8 (show 9 < packet.length by omega)
  obtain ⟨payload, hpayload, -⟩ := exists_slice h.fits.header_le h.fits.total_le
  have hmore : Ipv4.more_frags packet = some (decide (flags / 8192 % 2 = 1)) := by
    rw [Ipv4.more_frags, hflags]
    rfl
  have hoffset : Ipv4.frag_offset packet = some (flags % 8192 * 8) := by
    rw [Ipv4.frag_offset, hflags]
    rfl
  by_cases hfrag : flags / 8192 % 2 = 1 ∨ flags % 8192 * 8 ≠ 0
  · refine .inl ⟨.between .Fragment (.v4 src) (.v4 dst), fun rewrite hrewrite => ?_⟩
    rw [read_ipv4]
    simp only [h.check_len, h.fits.header_len, h.fits.total_len, not_lt.2 h.header_min, h.verify,
      h.src_addr, h.dst_addr, h.sane, hrewrite, hmore, hoffset, Option.bind_eq_bind,
      Option.bind_some, Option.pure_def]
    rcases hfrag with hfrag | hfrag <;> simp [hfrag]
  · obtain ⟨hfrag, hzero⟩ := not_or.1 hfrag
    refine .inr ⟨protocol, payload, ?_, ?_, hprotocol, ?_⟩
    · rw [hmore, decide_eq_false hfrag]
    · rw [hoffset, not_not.1 hzero]
    · simp [Ipv4.payload, h.fits.header_len, h.fits.total_len, hpayload]

/-- The packet cut to its length has the header it had. -/
theorem V4.cut (h : V4 packet header total src dst) :
    V4 (packet.take total) header total src dst := by
  have hmin := h.min_total
  have hlength : (packet.take total).length = total := List.length_take_of_le h.fits.total_le
  have hheader : Ipv4.header_len (packet.take total) = some header := by
    rw [Ipv4.header_len, u8_take (by omega)]
    exact h.fits.header_len
  have htotal : Ipv4.total_len (packet.take total) = some total :=
    (u16_take (by omega)).trans h.fits.total_len
  refine ⟨⟨hheader, htotal, by omega, h.fits.header_le, hlength.ge⟩, ?_, h.header_min, ?_, ?_, ?_,
    h.sane⟩
  · simp [Ipv4.check_len, hheader, htotal, hlength, not_lt.2 hmin, not_lt.2 h.fits.header_le]
  · have hverify := h.verify
    rw [Ipv4.verify_checksum, h.fits.header_len] at hverify
    rw [Ipv4.verify_checksum, hheader]
    simpa only [Option.bind_eq_bind, Option.bind_some, slice_take h.fits.header_le] using hverify
  · rw [Ipv4.src_addr, slice_take (by omega)]
    exact h.src_addr
  · rw [Ipv4.dst_addr, slice_take hmin]
    exact h.dst_addr

theorem V4.cut_whole (h : V4 packet header total src dst) {protocol : UInt8} {payload : Bytes}
    (hwhole : V4Whole packet protocol payload) :
    V4Whole (packet.take total) protocol payload := by
  have hmin := h.min_total
  refine ⟨?_, ?_, ?_, ?_⟩
  · rw [Ipv4.more_frags, u16_take (by omega)]
    exact hwhole.more_frags
  · rw [Ipv4.frag_offset, u16_take (by omega)]
    exact hwhole.frag_offset
  · exact (u8_take (by omega)).trans hwhole.next_header
  · have hpayload := hwhole.payload
    rw [Ipv4.payload, h.fits.header_len, h.fits.total_len] at hpayload
    rw [Ipv4.payload, h.cut.fits.header_len, h.cut.fits.total_len]
    simpa only [Option.bind_eq_bind, Option.bind_some, slice_take (le_refl total)] using hpayload

/-- The header and what it says follows it make up the packet. -/
theorem V4.payload_length (h : V4 packet header total src dst) {protocol : UInt8}
    {payload : Bytes} (hwhole : V4Whole packet protocol payload) :
    header + payload.length = total := by
  have hpayload := hwhole.payload
  rw [Ipv4.payload, h.fits.header_len, h.fits.total_len] at hpayload
  obtain ⟨hle, -, hlength⟩ := length_of_slice hpayload
  rw [hlength, Nat.add_sub_cancel' hle]

end V4

/-! ### IPv6 -/

/-- An IPv6 header that is sound. -/
structure V6 (packet : Bytes) (total : ℕ) (src dst : Ipv6Addr) : Prop where
  fits : Ipv6.Fits packet total
  check_len : Ipv6.check_len packet = some true
  src_addr : Ipv6.src_addr packet = some src
  dst_addr : Ipv6.dst_addr packet = some dst
  sane : martian_v6 src dst = false

/-- What an IPv6 packet says after its header, of one that is no fragment. -/
structure V6Whole (packet : Bytes) (protocol : UInt8) (payload : Bytes) : Prop where
  next_header : Ipv6.next_header packet = some protocol
  no_fragment : protocol ≠ IPV6_FRAG
  payload : Ipv6.payload packet = some payload

section V6

variable {packet : Bytes} {rewrite : IpRewrite} {total : ℕ} {src dst : Ipv6Addr}

theorem V6.read_hit (h : V6 packet total src dst) {action : IpRewriteAction}
    (hrewrite : rewrite (.v6 dst) = some action) :
    read_ipv6 packet rewrite =
      some (.ok (.Rewrite ⟨action, .v6 src, .v6 dst, total, Ipv6.HEADER_LEN⟩)) := by
  rw [read_ipv6]
  simp [h.check_len, h.fits.total_len, h.src_addr, h.dst_addr, h.sane, hrewrite]

theorem V6.read_whole (h : V6 packet total src dst) {protocol : UInt8} {payload : Bytes}
    (hrewrite : rewrite (.v6 dst) = none) (hwhole : V6Whole packet protocol payload) :
    read_ipv6 packet rewrite =
      (transport (.v6 src) (.v6 dst) protocol payload total).map (·.map .Passed) := by
  rw [read_ipv6]
  simp [h.check_len, h.fits.total_len, h.src_addr, h.dst_addr, h.sane, hrewrite,
    hwhole.next_header, hwhole.no_fragment, hwhole.payload]
  cases transport (.v6 src) (.v6 dst) protocol payload total <;> rfl

/-- A packet whose header is not sound is turned away whatever the table says. -/
theorem v6_cases (packet : Bytes) :
    (∃ dropped, ∀ rewrite, read_ipv6 packet rewrite = some (.error dropped)) ∨
      ∃ total src dst, V6 packet total src dst := by
  rcases Ipv6.check_len_cases packet with hcheck | ⟨hcheck, total, hfits⟩
  · exact .inl ⟨.unread .Malformed, fun _ => by simp [read_ipv6, hcheck]⟩
  have hfixed : 40 ≤ packet.length := hfits.fixed.trans hfits.total_le
  obtain ⟨a, ha, -⟩ := exists_slice (show 8 ≤ 24 by norm_num) (show 24 ≤ packet.length by omega)
  obtain ⟨b, hb, -⟩ := exists_slice (show 24 ≤ 40 by norm_num) hfixed
  obtain ⟨src, hsrc⟩ : ∃ src, Ipv6.src_addr packet = some src := ⟨_, by rw [Ipv6.src_addr, ha]; rfl⟩
  obtain ⟨dst, hdst⟩ : ∃ dst, Ipv6.dst_addr packet = some dst := ⟨_, by rw [Ipv6.dst_addr, hb]; rfl⟩
  cases hsane : martian_v6 src dst with
  | true =>
    exact .inl ⟨.between .Martian (.v6 src) (.v6 dst), fun _ => by
      simp [read_ipv6, hcheck, hsrc, hdst, hsane]⟩
  | false => exact .inr ⟨total, src, dst, hfits, hcheck, hsrc, hdst, hsane⟩

/-- A fragment is turned away unless the table has a line for it. -/
theorem V6.fragment_cases (h : V6 packet total src dst) :
    (∃ dropped, ∀ rewrite : IpRewrite, rewrite (.v6 dst) = none →
      read_ipv6 packet rewrite = some (.error dropped)) ∨
      ∃ protocol payload, V6Whole packet protocol payload := by
  have hfixed : 40 ≤ packet.length := h.fits.fixed.trans h.fits.total_le
  obtain ⟨protocol, hprotocol⟩ := exists_u8 (show 6 < packet.length by omega)
  obtain ⟨payload, hpayload, -⟩ := exists_slice h.fits.fixed h.fits.total_le
  have hnext : Ipv6.next_header packet = some protocol := hprotocol
  by_cases hfrag : protocol = IPV6_FRAG
  · refine .inl ⟨.between .Fragment (.v6 src) (.v6 dst), fun rewrite hrewrite => ?_⟩
    simp [read_ipv6, h.check_len, h.fits.total_len, h.src_addr, h.dst_addr, h.sane, hrewrite,
      hnext, hfrag]
  · refine .inr ⟨protocol, payload, hnext, hfrag, ?_⟩
    simp [Ipv6.payload, h.fits.total_len, hpayload]

/-- The packet cut to its length has the header it had. -/
theorem V6.cut (h : V6 packet total src dst) : V6 (packet.take total) total src dst := by
  have hmin : 40 ≤ total := h.fits.fixed
  have hlength : (packet.take total).length = total := List.length_take_of_le h.fits.total_le
  have htotal : Ipv6.total_len (packet.take total) = some total := by
    rw [Ipv6.total_len, u16_take (by omega)]
    exact h.fits.total_len
  refine ⟨⟨htotal, h.fits.fixed, hlength.ge⟩, ?_, ?_, ?_, h.sane⟩
  · simp [Ipv6.check_len, htotal, hlength, not_lt.2 hmin]
  · rw [Ipv6.src_addr, slice_take (by omega)]
    exact h.src_addr
  · rw [Ipv6.dst_addr, slice_take hmin]
    exact h.dst_addr

theorem V6.cut_whole (h : V6 packet total src dst) {protocol : UInt8} {payload : Bytes}
    (hwhole : V6Whole packet protocol payload) :
    V6Whole (packet.take total) protocol payload := by
  have hmin : 40 ≤ total := h.fits.fixed
  refine ⟨(u8_take (by omega)).trans hwhole.next_header, hwhole.no_fragment, ?_⟩
  have hpayload := hwhole.payload
  rw [Ipv6.payload, h.fits.total_len] at hpayload
  rw [Ipv6.payload, h.cut.fits.total_len]
  simpa only [Option.bind_eq_bind, Option.bind_some, slice_take (le_refl total)] using hpayload

/-- The header and what follows it make up the packet. -/
theorem V6.payload_length (h : V6 packet total src dst) {protocol : UInt8} {payload : Bytes}
    (hwhole : V6Whole packet protocol payload) : Ipv6.HEADER_LEN + payload.length = total := by
  have hpayload := hwhole.payload
  rw [Ipv6.payload, h.fits.total_len] at hpayload
  obtain ⟨hle, -, hlength⟩ := length_of_slice hpayload
  rw [hlength, Nat.add_sub_cancel' hle]

end V6

/-! ### Either family -/

/-- A packet with a sound header, the header's length, the packet's and its two addresses. -/
inductive Heads (packet : Bytes) : ℕ → ℕ → IpAddr → IpAddr → Prop
  | v4 {header total : ℕ} {src dst : Ipv4Addr} (hversion : version packet = some 4)
      (h : V4 packet header total src dst) : Heads packet header total (.v4 src) (.v4 dst)
  | v6 {total : ℕ} {src dst : Ipv6Addr} (hversion : version packet = some 6)
      (h : V6 packet total src dst) : Heads packet Ipv6.HEADER_LEN total (.v6 src) (.v6 dst)

/-- What a packet of the family carries, if it is no fragment. -/
inductive Whole (packet : Bytes) : IpAddr → UInt8 → Bytes → Prop
  | v4 {src : Ipv4Addr} {protocol : UInt8} {payload : Bytes} (h : V4Whole packet protocol payload) :
      Whole packet (.v4 src) protocol payload
  | v6 {src : Ipv6Addr} {protocol : UInt8} {payload : Bytes} (h : V6Whole packet protocol payload) :
      Whole packet (.v6 src) protocol payload

section Parse

variable {packet : Bytes} {rewrite : IpRewrite} {header total : ℕ} {src dst : IpAddr}

theorem parse_cases (packet : Bytes) :
    (∃ dropped, ∀ rewrite, parse packet rewrite = some (.error dropped)) ∨
      ∃ header total src dst, Heads packet header total src dst := by
  rw [show parse packet = fun rewrite => parse packet rewrite from rfl]
  unfold parse
  split
  · rename_i hversion
    rcases v4_cases packet with hdropped | ⟨header, total, src, dst, h⟩
    · exact .inl hdropped
    · exact .inr ⟨header, total, _, _, .v4 hversion h⟩
  · rename_i hversion
    rcases v6_cases packet with hdropped | ⟨total, src, dst, h⟩
    · exact .inl hdropped
    · exact .inr ⟨_, total, _, _, .v6 hversion h⟩
  · exact .inl ⟨_, fun _ => rfl⟩

theorem Heads.parse_hit (h : Heads packet header total src dst) {action : IpRewriteAction}
    (hrewrite : rewrite dst = some action) :
    parse packet rewrite = some (.ok (.Rewrite ⟨action, src, dst, total, header⟩)) := by
  cases h with
  | v4 hversion h =>
    rw [parse, hversion]
    exact h.read_hit hrewrite
  | v6 hversion h =>
    rw [parse, hversion]
    exact h.read_hit hrewrite

theorem Heads.parse_whole (h : Heads packet header total src dst) {protocol : UInt8}
    {payload : Bytes} (hrewrite : rewrite dst = none) (hwhole : Whole packet src protocol payload) :
    parse packet rewrite =
      (transport src dst protocol payload total).map (·.map .Passed) := by
  cases h with
  | v4 hversion h =>
    cases hwhole with
    | v4 hwhole =>
      rw [parse, hversion]
      exact h.read_whole hrewrite hwhole
  | v6 hversion h =>
    cases hwhole with
    | v6 hwhole =>
      rw [parse, hversion]
      exact h.read_whole hrewrite hwhole

theorem Heads.fragment_cases (h : Heads packet header total src dst) :
    (∃ dropped, ∀ rewrite : IpRewrite, rewrite dst = none →
      parse packet rewrite = some (.error dropped)) ∨
      ∃ protocol payload, Whole packet src protocol payload := by
  cases h with
  | v4 hversion h =>
    rcases h.fragment_cases with ⟨dropped, hdropped⟩ | ⟨protocol, payload, hwhole⟩
    · exact .inl ⟨dropped, fun rewrite hrewrite => by
        rw [parse, hversion]
        exact hdropped rewrite hrewrite⟩
    · exact .inr ⟨protocol, payload, .v4 hwhole⟩
  | v6 hversion h =>
    rcases h.fragment_cases with ⟨dropped, hdropped⟩ | ⟨protocol, payload, hwhole⟩
    · exact .inl ⟨dropped, fun rewrite hrewrite => by
        rw [parse, hversion]
        exact hdropped rewrite hrewrite⟩
    · exact .inr ⟨protocol, payload, .v6 hwhole⟩

theorem version_take {n : ℕ} (h : 0 < n) : version (packet.take n) = version packet := by
  obtain ⟨n, rfl⟩ := Nat.exists_eq_succ_of_ne_zero h.ne'
  cases packet <;> rfl

theorem Heads.pos (h : Heads packet header total src dst) : 0 < total := by
  cases h with
  | v4 _ h => exact lt_of_lt_of_le (by norm_num) h.min_total
  | v6 _ h => exact lt_of_lt_of_le (Nat.zero_lt_succ 39) h.fits.fixed

theorem Heads.header_le (h : Heads packet header total src dst) : header ≤ total := by
  cases h with
  | v4 _ h => exact h.fits.header_le
  | v6 _ h => exact h.fits.fixed

theorem Heads.total_le (h : Heads packet header total src dst) : total ≤ packet.length := by
  cases h with
  | v4 _ h => exact h.fits.total_le
  | v6 _ h => exact h.fits.total_le

theorem Heads.cut (h : Heads packet header total src dst) :
    Heads (packet.take total) header total src dst := by
  have hversion : version (packet.take total) = version packet := version_take h.pos
  cases h with
  | v4 hv h => exact .v4 (hversion.trans hv) h.cut
  | v6 hv h => exact .v6 (hversion.trans hv) h.cut

theorem Heads.cut_whole (h : Heads packet header total src dst) {protocol : UInt8}
    {payload : Bytes} (hwhole : Whole packet src protocol payload) :
    Whole (packet.take total) src protocol payload := by
  cases h with
  | v4 _ h =>
    cases hwhole with
    | v4 hwhole => exact .v4 (h.cut_whole hwhole)
  | v6 _ h =>
    cases hwhole with
    | v6 hwhole => exact .v6 (h.cut_whole hwhole)

theorem Heads.payload_length (h : Heads packet header total src dst) {protocol : UInt8}
    {payload : Bytes} (hwhole : Whole packet src protocol payload) :
    header + payload.length = total := by
  cases h with
  | v4 _ h =>
    cases hwhole with
    | v4 hwhole => exact h.payload_length hwhole
  | v6 _ h =>
    cases hwhole with
    | v6 hwhole => exact h.payload_length hwhole

/-- A packet that passes, with all that was read on the way. -/
structure PassedBy (packet : Bytes) (rewrite : IpRewrite) (parsed : Parsed) (header : ℕ)
    (protocol : UInt8) (payload : Bytes) : Prop where
  heads : Heads packet header parsed.len parsed.src parsed.dst
  no_line : rewrite parsed.dst = none
  whole : Whole packet parsed.src protocol payload
  transport : transport parsed.src parsed.dst protocol payload parsed.len = some (.ok parsed)

theorem PassedBy.parse {parsed : Parsed} {protocol : UInt8} {payload : Bytes}
    (h : PassedBy packet rewrite parsed header protocol payload) :
    Classify.parse packet rewrite = some (.ok (.Passed parsed)) := by
  rw [h.heads.parse_whole h.no_line h.whole, h.transport]
  rfl

/-- **What the checks make of a packet:** an error, a line's action, or a packet that passed. -/
theorem parse_spec (packet : Bytes) (rewrite : IpRewrite) :
    (∃ dropped, Classify.parse packet rewrite = some (.error dropped)) ∨
      (∃ action header total src dst, Heads packet header total src dst ∧
        Classify.parse packet rewrite =
          some (.ok (.Rewrite ⟨action, src, dst, total, header⟩))) ∨
      ∃ parsed header protocol payload,
        PassedBy packet rewrite parsed header protocol payload := by
  rcases parse_cases packet with ⟨dropped, hdropped⟩ | ⟨header, total, src, dst, h⟩
  · exact .inl ⟨dropped, hdropped rewrite⟩
  cases hrewrite : rewrite dst with
  | some action => exact .inr (.inl ⟨action, header, total, src, dst, h, h.parse_hit hrewrite⟩)
  | none =>
    rcases h.fragment_cases with ⟨dropped, hdropped⟩ | ⟨protocol, payload, hwhole⟩
    · exact .inl ⟨dropped, hdropped rewrite hrewrite⟩
    · obtain ⟨read, hread⟩ := transport_total src dst payload protocol total
      cases read with
      | error dropped => exact .inl ⟨dropped, by rw [h.parse_whole hrewrite hwhole, hread]; rfl⟩
      | ok parsed =>
        obtain ⟨rfl, rfl, rfl⟩ := transport_ends src dst payload hread
        exact .inr (.inr ⟨parsed, header, protocol, payload, h, hrewrite, hwhole, hread⟩)

/-- The packet cut to its length passes as it did. -/
theorem PassedBy.cut {parsed : Parsed} {protocol : UInt8} {payload : Bytes}
    (h : PassedBy packet rewrite parsed header protocol payload) :
    PassedBy (packet.take parsed.len) rewrite parsed header protocol payload :=
  ⟨h.heads.cut, h.no_line, h.heads.cut_whole h.whole, h.transport⟩

/-- Without a table it passes as well. -/
theorem PassedBy.noRewrite {parsed : Parsed} {protocol : UInt8} {payload : Bytes}
    (h : PassedBy packet rewrite parsed header protocol payload) :
    PassedBy packet noRewrite parsed header protocol payload :=
  ⟨h.heads, rfl, h.whole, h.transport⟩

theorem PassedBy.segment {parsed : Parsed} {protocol : UInt8} {payload : Bytes}
    (h : PassedBy packet rewrite parsed header protocol payload) {s : Segment}
    (hs : parsed.transport = .Tcp s) : Classify.segment packet = some (some s) := by
  obtain ⟨src, dst, len, t⟩ := parsed
  obtain rfl : t = .Tcp s := hs
  rw [Classify.segment, h.noRewrite.parse]
  rfl

/-- A segment that is read is one that passes without a table. -/
theorem segment_cases (packet : Bytes) :
    Classify.segment packet = some none ∨
      ∃ s parsed header protocol payload, Classify.segment packet = some (some s) ∧
        PassedBy packet noRewrite parsed header protocol payload ∧ parsed.transport = .Tcp s := by
  rcases parse_spec packet noRewrite with
    ⟨dropped, hparse⟩ | ⟨_, _, _, _, _, -, hparse⟩ | ⟨parsed, header, protocol, payload, h⟩
  · exact .inl (by rw [Classify.segment, hparse]; rfl)
  · exact .inl (by rw [Classify.segment, hparse]; rfl)
  · cases ht : parsed.transport with
    | Tcp s => exact .inr ⟨s, parsed, header, protocol, payload, h.segment ht, h, ht⟩
    | Udp src_port dst_port =>
      obtain ⟨src, dst, len, t⟩ := parsed
      obtain rfl : t = .Udp src_port dst_port := ht
      exact .inl (by rw [Classify.segment, h.parse]; rfl)
    | Icmp kind =>
      obtain ⟨src, dst, len, t⟩ := parsed
      obtain rfl : t = .Icmp kind := ht
      exact .inl (by rw [Classify.segment, h.parse]; rfl)

end Parse

/-! ### All of `classify` -/

section Classify

variable {packet : Bytes} {ipv6 : Bool} {rewrite : IpRewrite}

theorem classify_total (packet : Bytes) (ipv6 : Bool) (rewrite : IpRewrite) :
    ∃ r, classify packet ipv6 rewrite = some r := by
  rw [classify]
  split_ifs
  · exact ⟨_, rfl⟩
  · rcases parse_spec packet rewrite with
      ⟨_, hparse⟩ | ⟨_, _, _, _, _, -, hparse⟩ | ⟨_, _, _, _, h⟩
    · exact ⟨_, hparse⟩
    · exact ⟨_, hparse⟩
    · exact ⟨_, h.parse⟩

/-- What passes is on, and passes every check. -/
theorem passed_spec {parsed : Parsed}
    (h : classify packet ipv6 rewrite = some (.ok (.Passed parsed))) :
    ¬ (!ipv6 && version packet = some 6) ∧
      ∃ header protocol payload, PassedBy packet rewrite parsed header protocol payload := by
  rw [classify] at h
  split_ifs at h with hon
  · cases h
  · rcases parse_spec packet rewrite with
      ⟨_, hparse⟩ | ⟨_, _, _, _, _, -, hparse⟩ | ⟨parsed', header, protocol, payload, hpassed⟩
    · exact nomatch hparse.symm.trans h
    · exact nomatch hparse.symm.trans h
    · obtain rfl : parsed' = parsed := by
        cases hpassed.parse.symm.trans h
        rfl
      exact ⟨hon, header, protocol, payload, hpassed⟩

theorem rewrite_spec {hit : Hit} (h : classify packet ipv6 rewrite = some (.ok (.Rewrite hit))) :
    Heads packet hit.header_len hit.len hit.src hit.dst := by
  rw [classify] at h
  split_ifs at h
  · cases h
  · rcases parse_spec packet rewrite with
      ⟨_, hparse⟩ | ⟨_, header, total, src, dst, hheads, hparse⟩ | ⟨_, _, _, _, hpassed⟩
    · exact nomatch hparse.symm.trans h
    · cases hparse.symm.trans h
      exact hheads
    · exact nomatch hpassed.parse.symm.trans h

/-- **The packet cut to its length is classified the same.** -/
theorem classify_cut {parsed : Parsed}
    (h : classify packet ipv6 rewrite = some (.ok (.Passed parsed))) :
    classify (packet.take parsed.len) ipv6 rewrite = some (.ok (.Passed parsed)) := by
  obtain ⟨hon, header, protocol, payload, hpassed⟩ := passed_spec h
  rw [classify, version_take hpassed.heads.pos, if_neg hon]
  exact hpassed.cut.parse

end Classify

end Rurge.Tun.Classify
