import Rurge.Tun.RewriteSpec

/-!
# Packets that are safe to read and to answer

For every packet, with IPv6 on or off and whatever `[IP Rewrite]` says, what is read of it is safe
to use and what it is answered with draws no answer (`packets_are_safe`).  A reset in a fragment is
answered, unlike one that is whole (`reset_in_a_fragment`).
-/

namespace Rurge.Tun.Rewrite

open Wire Classify

/-- A packet that is to be answered with nothing: a later fragment, an ICMP error or redirect, a
chain of extension headers, or a reset that is no fragment. -/
inductive Silent (packet : Bytes) : Prop
  | later_v4 {offset : ℕ} (hversion : version packet = some 4)
      (hoffset : Ipv4.frag_offset packet = some offset) (hlater : offset ≠ 0)
  | icmp_v4 {payload : Bytes} {kind : UInt8} (hversion : version packet = some 4)
      (hnext : Ipv4.next_header packet = some ICMP)
      (hpayload : Ipv4.payload packet = some payload) (hkind : payload.head? = some kind)
      (herror : is_icmpv4_error kind = true)
  | reset_v4 {payload : Bytes} (hversion : version packet = some 4)
      (hnext : Ipv4.next_header packet = some TCP) (hmore : Ipv4.more_frags packet = some false)
      (hpayload : Ipv4.payload packet = some payload) (hrst : Tcp.rst payload = some true)
  | later_v6 {payload : Bytes} {offset : ℕ} (hversion : version packet = some 6)
      (hnext : Ipv6.next_header packet = some IPV6_FRAG)
      (hpayload : Ipv6.payload packet = some payload) (hoffset : u16 payload 2 = some offset)
      (hlater : offset / 8 ≠ 0)
  | chain {protocol : UInt8} (hversion : version packet = some 6)
      (hnext : Ipv6.next_header packet = some protocol) (hwhole : protocol ≠ IPV6_FRAG)
      (hextension : is_ipv6_extension_header protocol = true)
  | chain_in_fragment {payload : Bytes} {protocol : UInt8} (hversion : version packet = some 6)
      (hnext : Ipv6.next_header packet = some IPV6_FRAG)
      (hpayload : Ipv6.payload packet = some payload) (hinner : u8 payload 0 = some protocol)
      (hextension : is_ipv6_extension_header protocol = true)
  | icmp_v6 {payload : Bytes} {kind : UInt8} (hversion : version packet = some 6)
      (hnext : Ipv6.next_header packet = some ICMPV6)
      (hpayload : Ipv6.payload packet = some payload) (hkind : payload[0]? = some kind)
      (herror : is_icmpv6_error kind = true)
  | icmp_in_fragment {payload : Bytes} {kind : UInt8} (hversion : version packet = some 6)
      (hnext : Ipv6.next_header packet = some IPV6_FRAG)
      (hpayload : Ipv6.payload packet = some payload) (hinner : u8 payload 0 = some ICMPV6)
      (hkind : payload[8]? = some kind) (herror : is_icmpv6_error kind = true)
  | reset_v6 {payload : Bytes} (hversion : version packet = some 6)
      (hnext : Ipv6.next_header packet = some TCP)
      (hpayload : Ipv6.payload packet = some payload) (hrst : Tcp.rst payload = some true)

/-- A fragment of an IPv6 packet that is not the first, or of which nothing more is answered. -/
theorem refusal_v6_fragment {packet payload : Bytes}
    (hnext : Ipv6.next_header packet = some IPV6_FRAG)
    (hpayload : Ipv6.payload packet = some payload)
    (h : ∀ offset inner, u16 payload 2 = some offset → offset / 8 = 0 → u8 payload 0 = some inner →
      refusal_v6_after packet payload true inner = some .Nothing) :
    refusal_v6 packet = some .Nothing := by
  rcases Ipv6.check_len_cases packet with hcheck | ⟨hcheck, total, hfits⟩
  · rw [refusal_v6, hcheck]
    rfl
  by_cases hshort : payload.length < 8
  · simp [refusal_v6, hcheck, hpayload, hnext, hshort]
  obtain ⟨offset, hoffset, -⟩ := exists_u16 (show 2 + 2 ≤ payload.length by omega)
  obtain ⟨inner, hinner⟩ := exists_u8 (show 0 < payload.length by omega)
  by_cases hlater : offset / 8 = 0
  · simp [refusal_v6, hcheck, hpayload, hnext, hshort, hoffset, hinner,
      h offset inner hoffset hlater hinner]
  · simp only [refusal_v6, hcheck, hpayload, hnext, hshort, hoffset, Option.bind_eq_bind,
      Option.bind_some, Option.pure_def]
    simp [hlater]

theorem refusal_silent {packet : Bytes} (h : Silent packet) : refusal packet = some .Nothing := by
  rw [refusal]
  cases h with
  | later_v4 hversion hoffset hlater =>
    rw [hversion]
    rcases Ipv4.check_len_cases packet with hcheck | ⟨hcheck, -⟩
    · simp [refusal_v4, hcheck]
    · simp [refusal_v4, hcheck, hoffset, hlater]
  | icmp_v4 hversion hnext hpayload hkind herror =>
    rw [hversion]
    refine refusal_v4_icmp hnext fun payload' kind' hpayload' hkind' => ?_
    obtain rfl := Option.some.inj (hpayload.symm.trans hpayload')
    obtain rfl := Option.some.inj (hkind.symm.trans hkind')
    exact herror
  | reset_v4 hversion hnext hmore hpayload hrst =>
    rw [hversion]
    refine refusal_v4_rst hversion hnext hmore fun payload' hpayload' => ?_
    obtain rfl := Option.some.inj (hpayload.symm.trans hpayload')
    exact hrst
  | later_v6 hversion hnext hpayload hoffset hlater =>
    rw [hversion]
    refine refusal_v6_fragment hnext hpayload fun offset' inner hoffset' hfirst _ => ?_
    obtain rfl := Option.some.inj (hoffset.symm.trans hoffset')
    exact absurd hfirst hlater
  | chain hversion hnext hwhole hextension =>
    rw [hversion]
    exact refusal_v6_whole hwhole hnext fun payload _ => refusal_v6_after_extension hextension
  | chain_in_fragment hversion hnext hpayload hinner hextension =>
    rw [hversion]
    refine refusal_v6_fragment hnext hpayload fun offset inner' _ _ hinner' => ?_
    obtain rfl := Option.some.inj (hinner.symm.trans hinner')
    exact refusal_v6_after_extension hextension
  | icmp_v6 hversion hnext hpayload hkind herror =>
    rw [hversion]
    refine refusal_v6_whole (by decide) hnext fun payload' hpayload' => ?_
    obtain rfl := Option.some.inj (hpayload.symm.trans hpayload')
    refine refusal_v6_after_icmp fun kind' hkind' => ?_
    obtain rfl := Option.some.inj (hkind.symm.trans hkind')
    exact herror
  | icmp_in_fragment hversion hnext hpayload hinner hkind herror =>
    rw [hversion]
    refine refusal_v6_fragment hnext hpayload fun offset inner' _ _ hinner' => ?_
    obtain rfl := Option.some.inj (hinner.symm.trans hinner')
    refine refusal_v6_after_icmp fun kind' hkind' => ?_
    obtain rfl := Option.some.inj (hkind.symm.trans hkind')
    exact herror
  | reset_v6 hversion hnext hpayload hrst =>
    rw [hversion]
    refine refusal_v6_rst hversion hnext fun payload' hpayload' => ?_
    obtain rfl := Option.some.inj (hpayload.symm.trans hpayload')
    exact hrst

/-! ### Rejecting -/

theorem refusal_v4_reset {packet : Bytes} (h : refusal_v4 packet = some .Reset) :
    refusal_tcp packet = some .Reset := by
  rcases Ipv4.check_len_cases packet with hcheck | ⟨hcheck, header, total, hfits⟩
  · rw [refusal_v4, hcheck] at h
    cases h
  have hfixed := hfits.fixed
  obtain ⟨flags, hflags, -⟩ := exists_u16 (show 6 + 2 ≤ packet.length by omega)
  obtain ⟨protocol, hprotocol⟩ := exists_u8 (show 9 < packet.length by omega)
  obtain ⟨payload, hslice, -⟩ := exists_slice hfits.header_le hfits.total_le
  have hnext : Ipv4.next_header packet = some protocol := hprotocol
  simp only [refusal_v4, hcheck, Ipv4.frag_offset, Ipv4.more_frags, Ipv4.payload, hflags, hnext,
    hfits.header_len, hfits.total_len, hslice, Option.bind_eq_bind, Option.bind_some,
    Option.pure_def] at h
  cases payload with
  | nil => split_ifs at h <;> first | exact h | cases h
  | cons kind rest =>
    simp only [List.head?_cons] at h
    split_ifs at h <;> first | exact h | cases h

theorem refusal_v6_after_reset {packet payload : Bytes} {fragmented : Bool} {protocol : UInt8}
    (h : refusal_v6_after packet payload fragmented protocol = some .Reset) :
    refusal_tcp packet = some .Reset := by
  simp only [refusal_v6_after, Option.pure_def] at h
  cases hkind : payload[if fragmented then 8 else 0]? with
  | none =>
    rw [hkind] at h
    split_ifs at h <;> first | exact h | cases h
  | some kind =>
    rw [hkind] at h
    simp only at h
    split_ifs at h <;> first | exact h | cases h

theorem refusal_v6_cases (packet : Bytes) :
    refusal_v6 packet = some .Nothing ∨ ∃ payload fragmented protocol,
      refusal_v6 packet = refusal_v6_after packet payload fragmented protocol := by
  rcases Ipv6.check_len_cases packet with hcheck | ⟨hcheck, total, hfits⟩
  · exact .inl (by rw [refusal_v6, hcheck]; rfl)
  have hfixed : 40 ≤ packet.length := hfits.fixed.trans hfits.total_le
  obtain ⟨protocol, hprotocol⟩ := exists_u8 (show 6 < packet.length by omega)
  obtain ⟨payload, hslice, -⟩ := exists_slice hfits.fixed hfits.total_le
  have hnext : Ipv6.next_header packet = some protocol := hprotocol
  have hpayload : Ipv6.payload packet = some payload := by
    simp [Ipv6.payload, hfits.total_len, hslice]
  by_cases hfrag : protocol = IPV6_FRAG
  · by_cases hshort : payload.length < 8
    · exact .inl (by simp [refusal_v6, hcheck, hpayload, hnext, hfrag, hshort])
    obtain ⟨offset, hoffset, -⟩ := exists_u16 (show 2 + 2 ≤ payload.length by omega)
    obtain ⟨inner, hinner⟩ := exists_u8 (show 0 < payload.length by omega)
    simp only [refusal_v6, hcheck, hpayload, hnext, hfrag, hshort, hoffset, hinner, if_true,
      if_false, Option.bind_eq_bind, Option.bind_some, Option.pure_def]
    by_cases hlater : offset / 8 = 0
    · exact .inr ⟨payload, true, inner, by simp [hlater]⟩
    · exact .inl (by simp [hlater])
  · exact .inr ⟨payload, false, protocol, by
      simp [refusal_v6, hcheck, hpayload, hnext, hfrag]⟩

/-- What a reset is made for is read as a segment. -/
theorem segment_of_reset {packet : Bytes} (h : refusal packet = some .Reset) :
    ∃ s, Classify.segment packet = some (some s) := by
  have htcp : refusal_tcp packet = some .Reset := by
    rw [refusal] at h
    split at h
    · exact refusal_v4_reset h
    · rcases refusal_v6_cases packet with hnothing | ⟨payload, fragmented, protocol, hafter⟩
      · cases hnothing.symm.trans h
      · exact refusal_v6_after_reset (hafter.symm.trans h)
    · cases h
  rcases segment_cases packet with hnone | ⟨s, _, _, _, _, hsome, -⟩
  · rw [refusal_tcp, hnone] at htcp
    cases htcp
  · exact ⟨s, hsome⟩

/-- The addresses of a packet are of one family, and an IPv4 header has at most fifteen words. -/
theorem header_max {packet : Bytes} {header total : ℕ} {src dst : IpAddr}
    (h : Heads packet header total src dst) : header ≤ 60 := by
  cases h with
  | v4 _ h =>
    have hheader := h.fits.header_len
    rw [Ipv4.header_len, Option.bind_eq_bind, Option.bind_eq_some_iff] at hheader
    obtain ⟨byte, -, hheader⟩ := hheader
    cases hheader
    omega
  | v6 => exact (by decide : 40 ≤ 60)

theorem reject_spec {hit : Hit} {packet : Bytes}
    (h : Heads packet hit.header_len hit.len hit.src hit.dst) (reset icmp : Bool) :
    ∃ answer, reject hit packet reset icmp = some answer ∧
      ∀ bytes ∈ answer.offered, bytes.length ≤ 1280 ∧ refusal bytes = some .Nothing := by
  obtain ⟨r, hr⟩ := refusal_total packet
  cases r with
  | Nothing => exact ⟨⟨[.IpRewrite], none⟩, by rw [reject, hr]; rfl, nofun⟩
  | Reset =>
    obtain ⟨s, hs⟩ := segment_of_reset hr
    obtain ⟨answer, hanswer, hlength, hrefusal⟩ := rst_for_spec hs
    cases reset with
    | false => exact ⟨⟨[.IpRewrite, .RstLimited], none⟩, by rw [reject, hr]; rfl, nofun⟩
    | true =>
      refine ⟨⟨[.IpRewrite], some answer⟩, by rw [reject, hr]; simp [hanswer],
        fun bytes hbytes => ?_⟩
      cases hbytes
      exact ⟨hlength.trans (by norm_num), hrefusal⟩
  | Prohibited =>
    cases icmp with
    | false => exact ⟨⟨[.IpRewrite, .IcmpLimited], none⟩, by rw [reject, hr]; rfl, nofun⟩
    | true =>
      have hmax := header_max h
      obtain ⟨quote, hquote, hle, hlong⟩ : ∃ quote, reject hit packet reset true =
          ((slice packet 0 quote).bind fun quoted => (prohibited hit.dst hit.src quoted).bind
            fun answer => some ⟨[.IpRewrite], some answer⟩) ∧
          quote ≤ hit.len ∧ 48 + quote ≤ 1280 := by
        rw [reject, hr]
        cases hit.dst with
        | v4 => exact ⟨_, rfl, Nat.min_le_left .., by dsimp only; omega⟩
        | v6 => exact ⟨_, rfl, Nat.min_le_left .., by dsimp only [V6_QUOTE_MAX]; omega⟩
      obtain ⟨quoted, hslice, hquoted⟩ :=
        exists_slice (Nat.zero_le quote) (hle.trans h.total_le)
      obtain ⟨answer, hanswer, hlength, hrefusal⟩ := @prohibited_spec _ quoted _ _ _ _ h
      refine ⟨⟨[.IpRewrite], some answer⟩, ?_, fun bytes hbytes => ?_⟩
      · rw [hquote, hslice, Option.bind_some, hanswer, Option.bind_some]
      · cases hbytes
        exact ⟨by omega, hrefusal⟩

theorem reject_silent {hit : Hit} {packet : Bytes} (h : Silent packet) (reset icmp : Bool) :
    reject hit packet reset icmp = some ⟨[.IpRewrite], none⟩ := by
  rw [reject, refusal_silent h]
  rfl

/-! ### Every packet -/

/-- What passes can be cut to its length and read again. -/
structure SafePassed (packet : Bytes) (ipv6 : Bool) (rewrite : IpRewrite) (parsed : Parsed) :
    Prop where
  within : parsed.len ≤ packet.length
  again : classify (packet.take parsed.len) ipv6 rewrite = some (.ok (.Passed parsed))
  lengths : ∃ header protocol payload,
    Heads (packet.take parsed.len) header parsed.len parsed.src parsed.dst ∧
      Whole (packet.take parsed.len) parsed.src protocol payload ∧
      header + payload.length = parsed.len ∧
      ∀ s, parsed.transport = .Tcp s → s.header_len + s.payload_len = payload.length
  segment : ∀ s, parsed.transport = .Tcp s →
    Classify.segment (packet.take parsed.len) = some (some s)

/-- What a line of the table is for can be cut to its length, reflected and rejected. -/
structure SafeRewrite (packet : Bytes) (hit : Hit) : Prop where
  within : hit.len ≤ packet.length
  header : hit.header_len ≤ hit.len
  reflect : ∃ back, reflect hit (packet.take hit.len) = some back ∧
    Reflected hit (packet.take hit.len) back
  reject : ∀ reset icmp, ∃ answer, reject hit (packet.take hit.len) reset icmp = some answer ∧
    ∀ bytes ∈ answer.offered, bytes.length ≤ 1280 ∧ refusal bytes = some .Nothing
  silent : Silent (packet.take hit.len) → ∀ reset icmp,
    Rewrite.reject hit (packet.take hit.len) reset icmp = some ⟨[.IpRewrite], none⟩

structure Safe (packet : Bytes) (ipv6 : Bool) (rewrite : IpRewrite) : Prop where
  reads : ∃ r, classify packet ipv6 rewrite = some r
  passed : ∀ parsed, classify packet ipv6 rewrite = some (.ok (.Passed parsed)) →
    SafePassed packet ipv6 rewrite parsed
  rewrite : ∀ hit, classify packet ipv6 rewrite = some (.ok (.Rewrite hit)) →
    SafeRewrite packet hit

theorem safe_passed {packet : Bytes} {ipv6 : Bool} {rewrite : IpRewrite} {parsed : Parsed}
    (h : classify packet ipv6 rewrite = some (.ok (.Passed parsed))) :
    SafePassed packet ipv6 rewrite parsed := by
  obtain ⟨-, header, protocol, payload, hpassed⟩ := passed_spec h
  have hcut := hpassed.cut
  refine ⟨hpassed.heads.total_le, classify_cut h, ⟨header, protocol, payload, hcut.heads,
    hcut.whole, hcut.heads.payload_length hcut.whole, fun s hs => ?_⟩, fun s hs => hcut.segment hs⟩
  exact (transport_tcp _ _ _ hcut.transport hs).2.lengths

theorem safe_rewrite {packet : Bytes} {ipv6 : Bool} {rewrite : IpRewrite} {hit : Hit}
    (h : classify packet ipv6 rewrite = some (.ok (.Rewrite hit))) : SafeRewrite packet hit :=
  have hheads := rewrite_spec h
  ⟨hheads.total_le, hheads.header_le, reflect_spec hheads.cut, reject_spec hheads.cut,
    reject_silent⟩

/-- **What is read of any packet is safe to use, and no answer to one draws an answer.** -/
theorem packets_are_safe (packet : Bytes) (ipv6 : Bool) (rewrite : IpRewrite) :
    Safe packet ipv6 rewrite :=
  ⟨classify_total packet ipv6 rewrite, fun _ h => safe_passed h, fun _ h => safe_rewrite h⟩

/-! ### A reset in a fragment -/

/-- A first fragment that begins with a reset. -/
def reset_fragment : Bytes :=
  [69, 0, 0, 40, 0, 1, 32, 0, 64, 6, 142, 205, 10, 0, 0, 1, 192, 0, 2, 1, 0, 80, 0, 81, 0, 0, 0, 1,
    0, 0, 0, 0, 80, 4, 0, 0, 0, 0, 0, 0]

/-- It is rejected with a message: only a segment that is whole is looked at for a reset. -/
theorem reset_in_a_fragment :
    let hit : Hit := ⟨.Reject, .v4 0x0A000001, .v4 0xC0000201, 40, 20⟩
    classify reset_fragment false (fun _ => some .Reject) = some (.ok (.Rewrite hit)) ∧
      (Ipv4.payload reset_fragment).bind Tcp.rst = some true ∧
      ∃ bytes, reject hit reset_fragment true true = some ⟨[.IpRewrite], some bytes⟩ := by
  refine ⟨by decide, by decide, _, rfl⟩

end Rurge.Tun.Rewrite
