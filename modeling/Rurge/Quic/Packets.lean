import Rurge.Quic.Initial

/-!
# The packets of a datagram

`Packet` is a long-header packet written out, and `packetAt` finds exactly those (`packetAt_iff`).
`readPackets_eq` says what the walk over a datagram is: the packets of the reader's version at its
front, as many as there are, and the Initials among them judged in order.
-/

namespace Rurge

namespace Quic

/-- A long-header packet, by its parts. -/
structure Packet where
  first : UInt8
  /-- The Destination Connection ID. -/
  dcid : List UInt8
  /-- The Source Connection ID. -/
  scid : List UInt8
  /-- The length of the token and the token, in an Initial. -/
  token : List UInt8
  /-- The Length field. -/
  length : List UInt8
  /-- The packet number and the payload. -/
  body : List UInt8

namespace Packet

def kind (p : Packet) : UInt8 := (p.first >>> 4) &&& 0b11

/-- What stands before the packet number. -/
def header (p : Packet) (wireVersion : List UInt8) : List UInt8 :=
  [p.first] ++ (wireVersion ++ ([UInt8.ofNat p.dcid.length] ++ (p.dcid ++
    ([UInt8.ofNat p.scid.length] ++ (p.scid ++ (p.token ++ p.length))))))

def bytes (p : Packet) (wireVersion : List UInt8) : List UInt8 := p.header wireVersion ++ p.body

/-- The packet is one that QUIC allows, of the version and no Retry. -/
structure WellFormed (p : Packet) (version : Version) : Prop where
  long : p.first &&& 0x80 ≠ 0
  kind : p.kind ≠ retryKind version
  dcid : p.dcid.length ≤ 20
  scid : p.scid.length ≤ 20
  token : if p.kind = initialKind version then
      ∃ len token, p.token = len ++ token ∧ IsVarint len token.length
    else p.token = []
  length : IsVarint p.length p.body.length

theorem length_bytes (p : Packet) (wireVersion : List UInt8) :
    (p.bytes wireVersion).length = (p.header wireVersion).length + p.body.length :=
  List.length_append

end Packet

namespace Reader

variable {wireVersion : List UInt8} {version : Version} {d : List UInt8} {at_ : ℕ}

/-- A packet that is written out is found. -/
theorem packetAt_of_drop (hsmall : d.length < 2 ^ 63) (hwire : wireVersion.length = 4)
    {p : Packet} (hp : p.WellFormed version) {rest : List UInt8}
    (h : d.drop at_ = p.bytes wireVersion ++ rest) :
    packetAt wireVersion version d p.first at_ =
      some (decide (p.kind = initialKind version), at_ + (p.header wireVersion).length,
        at_ + (p.bytes wireVersion).length) := by
  have hend : at_ + (p.bytes wireVersion).length ≤ d.length :=
    le_length_of_drop h (by simp [Packet.bytes, Packet.header])
  have hwireNe : wireVersion ≠ [] := by
    rintro rfl
    cases hwire
  have hdl : (UInt8.ofNat p.dcid.length).toNat = p.dcid.length := by
    rw [UInt8.toNat_ofNat', Nat.mod_eq_of_lt (by have := hp.dcid; omega)]
  have hsl : (UInt8.ofNat p.scid.length).toNat = p.scid.length := by
    rw [UInt8.toNat_ofNat', Nat.mod_eq_of_lt (by have := hp.scid; omega)]
  -- what stands at each place the reading stops at
  have h₀ : d.drop at_ = [p.first] ++ (wireVersion ++ ([UInt8.ofNat p.dcid.length] ++ (p.dcid ++
      ([UInt8.ofNat p.scid.length] ++
        (p.scid ++ (p.token ++ (p.length ++ (p.body ++ rest)))))))) := by
    rw [h]
    simp [Packet.bytes, Packet.header]
  have h₁ := drop_add h₀
  have h₂ := drop_add h₁
  have h₃ := drop_add h₂
  have h₄ := drop_add h₃
  have h₅ := drop_add h₄
  have h₆ := drop_add h₅
  have h₇ := drop_add h₆
  have h₈ := drop_add h₇
  have hlength : (p.header wireVersion).length = 6 + p.dcid.length + 1 + p.scid.length +
      p.token.length + p.length.length := by
    simp only [Packet.header, List.length_append, List.length_singleton, hwire]
    omega
  have htotal := p.length_bytes wireVersion
  simp only [List.length_singleton, hwire] at h₁ h₂ h₃ h₄ h₅ h₆ h₇ h₈
  have hadd : ∀ a b, a + b ≤ d.length → checkedAdd a b = some (a + b) := fun a b hab =>
    if_pos (by omega)
  rw [packetAt_eq_some]
  refine ⟨hp.long, ?_, hp.kind, rfl, UInt8.ofNat p.dcid.length, ?_, ?_, at_ + 6 + p.dcid.length, ?_,
    UInt8.ofNat p.scid.length, ?_, ?_, at_ + 6 + p.dcid.length + 1 + p.scid.length, ?_,
    at_ + 6 + p.dcid.length + 1 + p.scid.length + p.token.length, ?_, p.body.length, ?_, ?_, hend⟩
  · rw [hadd at_ 5 (by omega), Option.bind_some]
    have := slice_of_drop h₁ hwireNe
    rwa [hwire] at this
  · exact getElem?_of_drop h₂
  · rw [UInt8.le_iff_toNat_le, hdl]
    exact hp.dcid
  · rw [hdl, hadd _ _ (by omega)]
    congr 1
    omega
  · exact getElem?_of_drop h₄
  · rw [UInt8.le_iff_toNat_le, hsl]
    exact hp.scid
  · rw [hsl, hadd _ _ (by omega)]
    congr 1
    omega
  · unfold tokenEnd
    have htoken := hp.token
    by_cases hinitial : p.kind = initialKind version
    · rw [if_pos (decide_eq_true hinitial)]
      rw [if_pos hinitial] at htoken
      obtain ⟨len, token, heq, hlen⟩ := htoken
      have htokens : p.token.length = len.length + token.length := by
        rw [heq, List.length_append]
      rw [heq, List.append_assoc] at h₆
      have hnext := nextVarint_of_drop hsmall h₆ hlen
      refine (congrArg (Option.bind · _) hnext).trans ?_
      rw [Option.bind_some]
      dsimp only
      rw [hadd _ _ (by omega)]
      congr 1
      omega
    · rw [if_neg (by simpa using hinitial)]
      rw [if_neg hinitial] at htoken
      rw [htoken]
      rfl
  · have hnext := nextVarint_of_drop hsmall h₇ hp.length
    refine hnext.trans ?_
    congr 2
    omega
  · rw [hlength, hadd _ _ (by omega), htotal]
    congr 1
    omega

/-- Bytes up to 20 written as their number. -/
theorem ofNat_toNat_of_le {b : UInt8} {l : List UInt8} (h : l.length = b.toNat) :
    UInt8.ofNat l.length = b := by
  rw [h, UInt8.ofNat_toNat]

/-- What is found is a packet that is written out there. -/
theorem drop_of_packetAt (hwire : wireVersion.length = 4) {first : UInt8}
    (hfirst : d[at_]? = some first) {initial : Bool} {cursor end_ : ℕ}
    (h : packetAt wireVersion version d first at_ = some (initial, cursor, end_)) :
    ∃ p : Packet, p.WellFormed version ∧ p.first = first ∧
      initial = decide (p.kind = initialKind version) ∧
      cursor = at_ + (p.header wireVersion).length ∧
      end_ = at_ + (p.bytes wireVersion).length ∧
      d.drop at_ = p.bytes wireVersion ++ d.drop end_ := by
  obtain ⟨hlong, hversion, hkind, hinitial, dcidLen, hdcid, hd20, c₁, hc₁, scidLen, hscid, hs20, c₂,
    hc₂, c₃, hc₃, len, hlen, hend, hle⟩ := packetAt_eq_some.1 h
  obtain ⟨five, hfive, hslice⟩ := Option.bind_eq_some_iff.1 hversion
  obtain ⟨-, rfl⟩ := checkedAdd_eq_some.1 hfive
  obtain ⟨-, rfl⟩ := checkedAdd_eq_some.1 hc₁
  obtain ⟨-, rfl⟩ := checkedAdd_eq_some.1 hc₂
  obtain ⟨-, rfl⟩ := checkedAdd_eq_some.1 hend
  obtain ⟨lengthField, hvarint, rfl, hdrop₇⟩ := drop_of_nextVarint hlen
  rw [UInt8.le_iff_toNat_le] at hd20 hs20
  have hlenle := (nextVarint_bounds hlen).1
  obtain ⟨token, htoken, hdrop₆, hinit⟩ : ∃ token, c₃ = at_ + (6 + dcidLen.toNat) +
      (1 + scidLen.toNat) + token.length ∧
        d.drop (at_ + (6 + dcidLen.toNat) + (1 + scidLen.toNat)) =
        token ++ d.drop c₃ ∧ (if (first >>> 4) &&& 0b11 = initialKind version then
          ∃ n t, token = n ++ t ∧ IsVarint n t.length else token = []) := by
    unfold tokenEnd at hc₃
    by_cases hk : (first >>> 4) &&& 0b11 = initialKind version
    · rw [if_pos (by rw [hinitial]; exact decide_eq_true hk)] at hc₃
      obtain ⟨⟨tokenLen, c⟩, hnext, hsum⟩ := Option.bind_eq_some_iff.1 hc₃
      obtain ⟨-, rfl⟩ := checkedAdd_eq_some.1 hsum
      obtain ⟨n, hn, rfl, hdropn⟩ := drop_of_nextVarint hnext
      obtain ⟨t, ht, hdropt⟩ := exists_drop d (show at_ + (6 + dcidLen.toNat) +
        (1 + scidLen.toNat) + n.length + tokenLen ≤ d.length by omega)
      refine ⟨n ++ t, ?_, ?_, ?_⟩
      · rw [List.length_append, ht]
        omega
      · rw [hdropn, hdropt, List.append_assoc]
      · rw [if_pos hk]
        exact ⟨n, t, rfl, ht ▸ hn⟩
    · rw [if_neg (by rw [hinitial]; simpa using hk)] at hc₃
      obtain rfl := Option.some.inj hc₃
      exact ⟨[], rfl, rfl, by rw [if_neg hk]⟩
  have hbounds : at_ + (6 + dcidLen.toNat) + (1 + scidLen.toNat) ≤ d.length := by omega
  obtain ⟨dcid, hdlen, hdrop₃⟩ := exists_drop d (show at_ + 6 + dcidLen.toNat ≤ d.length by omega)
  obtain ⟨scid, hslen, hdrop₅⟩ :=
    exists_drop d (show at_ + (6 + dcidLen.toNat) + 1 + scidLen.toNat ≤ d.length by omega)
  obtain ⟨body, hblen, hdrop₈⟩ := exists_drop d hle
  have hdrop₀ := drop_of_getElem? hfirst
  have hdrop₁ := drop_of_slice hslice
  have hdrop₂ := drop_of_getElem? hdcid
  have hdrop₄ := drop_of_getElem? hscid
  refine ⟨⟨first, dcid, scid, token, lengthField, body⟩, ⟨hlong, hkind, ?_, ?_, hinit, ?_⟩, rfl,
    hinitial, ?_, ?_, ?_⟩
  · exact hdlen.trans_le hd20
  · exact hslen.trans_le hs20
  · exact hblen.symm ▸ hvarint
  · simp only [Packet.header, List.length_append, List.length_singleton, hwire, hdlen, hslen]
    omega
  · simp only [Packet.bytes, Packet.header, List.length_append, List.length_singleton, hwire, hdlen,
      hslen, hblen]
    omega
  · unfold Packet.bytes Packet.header
    dsimp only
    rw [ofNat_toNat_of_le hdlen, ofNat_toNat_of_le hslen, hdrop₀, hdrop₁, hdrop₂,
      show at_ + 5 + 1 = at_ + 6 by omega, hdrop₃,
      show at_ + 6 + dcidLen.toNat = at_ + (6 + dcidLen.toNat) by omega, hdrop₄, hdrop₅,
      show at_ + (6 + dcidLen.toNat) + 1 + scidLen.toNat =
        at_ + (6 + dcidLen.toNat) + (1 + scidLen.toNat) by omega, hdrop₆, hdrop₇, hdrop₈]
    simp

end Reader

/-! ### The packets at the front of a datagram -/

/-- The datagram is the packets, as many of the version as there are, and what is left. -/
structure Splits (wireVersion : List UInt8) (version : Version) (d : List UInt8)
    (packets : List Packet) (rest : List UInt8) : Prop where
  eq : d = (packets.map (·.bytes wireVersion)).flatten ++ rest
  wellFormed : ∀ p ∈ packets, p.WellFormed version
  maximal : ∀ p : Packet, p.WellFormed version → ¬ p.bytes wireVersion <+: rest

/-- The Initials judged one after the other, until one ends the reading. -/
def Reader.walk (r : Reader) : List Packet → List (List UInt8 × ℕ) × Except Halt Reader
  | [] => ([], .ok r)
  | p :: ps =>
    let packet := (p.bytes r.wireVersion, (p.header r.wireVersion).length)
    match r.judge packet.1 packet.2 with
    | .error halt => ([packet], .error halt)
    | .ok r => (packet :: (r.walk ps).1, (r.walk ps).2)

namespace Reader

/-- What is judged does not change the version. -/
theorem judge_version {r r' : Reader} {packet : List UInt8} {pnOffset : ℕ}
    (h : r.judge packet pnOffset = .ok r') :
    r'.wireVersion = r.wireVersion ∧ r'.version = r.version := by
  unfold judge at h
  split at h
  · cases h
  · cases h
    exact ⟨rfl, rfl⟩
  · split at h
    · cases h
    · cases h
      exact ⟨rfl, rfl⟩

/-- The walk ends where no packet begins. -/
theorem readPackets_none {r : Reader} {d : Datagram} {at_ : ℕ}
    (h : ∀ first, d.bytes[at_]? = some first →
      packetAt r.wireVersion r.version d.bytes first at_ = none) :
    r.readPackets d at_ = ([], .ok r) := by
  rw [readPackets]
  split_ifs with hlt
  · rw [List.getElem?_eq_getElem hlt]
    dsimp only
    split
    · rfl
    · rename_i heq
      rw [h _ (List.getElem?_eq_getElem hlt)] at heq
      cases heq
  · rfl

/-- A packet of another type is passed over. -/
theorem readPackets_skip {r : Reader} {d : Datagram} {at_ cursor end_ : ℕ} {first : UInt8}
    (hfirst : d.bytes[at_]? = some first)
    (h : packetAt r.wireVersion r.version d.bytes first at_ = some (false, cursor, end_)) :
    r.readPackets d at_ = r.readPackets d end_ := by
  rw [readPackets, if_pos (List.getElem?_eq_some_iff.1 hfirst).1, hfirst]
  dsimp only
  split
  · rename_i heq
    rw [h] at heq
    cases heq
  · rename_i heq
    rw [h] at heq
    cases heq
    rfl

/-- An Initial is handed to be opened. -/
theorem readPackets_initial {r : Reader} {d : Datagram} {at_ cursor end_ : ℕ} {first : UInt8}
    {packet : List UInt8} (hfirst : d.bytes[at_]? = some first)
    (h : packetAt r.wireVersion r.version d.bytes first at_ = some (true, cursor, end_))
    (hpacket : slice d.bytes at_ end_ = some packet) :
    r.readPackets d at_ = match r.judge packet (cursor - at_) with
      | .error halt => ([(packet, cursor - at_)], .error halt)
      | .ok r =>
        ((packet, cursor - at_) :: (r.readPackets d end_).1, (r.readPackets d end_).2) := by
  rw [readPackets, if_pos (List.getElem?_eq_some_iff.1 hfirst).1, hfirst]
  dsimp only
  split
  · rename_i heq
    rw [h] at heq
    cases heq
  · rename_i heq
    rw [h] at heq
    cases heq
    rw [if_pos rfl]
    cases hjudge : r.judge packet (cursor - at_) <;> simp only [hpacket, hjudge]

/-- **The walk over a datagram** judges the Initials among the packets at its front, in order. -/
theorem readPackets_eq (r : Reader) (d : Datagram) {at_ : ℕ} {packets : List Packet}
    {rest : List UInt8}
    (h : Splits r.wireVersion r.version (d.bytes.drop at_) packets rest) :
    r.readPackets d at_ =
      r.walk (packets.filter fun p => p.kind = initialKind r.version) := by
  induction packets generalizing r at_ with
  | nil =>
    refine readPackets_none fun first hfirst => ?_
    rw [Option.eq_none_iff_forall_ne_some]
    rintro ⟨initial, cursor, end_⟩ hpacket
    obtain ⟨p, hp, -, -, -, -, hdrop⟩ := drop_of_packetAt r.fourBytes hfirst hpacket
    refine h.maximal p hp ⟨d.bytes.drop end_, ?_⟩
    rw [← hdrop, h.eq]
    rfl
  | cons p ps ih =>
    have hdrop : d.bytes.drop at_ = p.bytes r.wireVersion ++
        ((ps.map (·.bytes r.wireVersion)).flatten ++ rest) := by
      rw [h.eq, List.map_cons, List.flatten_cons, List.append_assoc]
    have hp := h.wellFormed p List.mem_cons_self
    have hne : p.bytes r.wireVersion ≠ [] := by simp [Packet.bytes, Packet.header]
    have hfirst : d.bytes[at_]? = some p.first := by
      rw [← Nat.add_zero at_, ← List.getElem?_drop, hdrop]
      rfl
    have hfound := packetAt_of_drop d.small r.fourBytes hp hdrop
    have hslice := slice_of_drop hdrop hne
    have hrest : Splits r.wireVersion r.version
        (d.bytes.drop (at_ + (p.bytes r.wireVersion).length)) ps rest :=
      ⟨drop_add hdrop, fun q hq => h.wellFormed q (List.mem_cons_of_mem _ hq), h.maximal⟩
    by_cases hinitial : p.kind = initialKind r.version
    · rw [decide_eq_true hinitial] at hfound
      rw [readPackets_initial hfirst hfound hslice,
        List.filter_cons_of_pos (by simpa using hinitial),
        Nat.add_sub_cancel_left]
      unfold walk
      dsimp only
      cases hj : r.judge (p.bytes r.wireVersion) (p.header r.wireVersion).length with
      | error halt => rfl
      | ok r' =>
        obtain ⟨hw, hv⟩ := judge_version hj
        dsimp only
        rw [ih r' (by rw [hw, hv]; exact hrest), hv]
    · rw [decide_eq_false hinitial] at hfound
      rw [readPackets_skip hfirst hfound, List.filter_cons_of_neg (by simpa using hinitial)]
      exact ih r hrest

/-- Every datagram splits. -/
theorem exists_splits (wireVersion : List UInt8) (version : Version) (d : List UInt8) :
    ∃ packets rest, Splits wireVersion version d packets rest := by
  induction hn : d.length using Nat.strong_induction_on generalizing d with
  | _ n ih =>
    by_cases h : ∃ p : Packet, p.WellFormed version ∧ p.bytes wireVersion <+: d
    · obtain ⟨p, hp, t, rfl⟩ := h
      have hne : p.bytes wireVersion ≠ [] := by simp [Packet.bytes, Packet.header]
      have hpos := List.length_pos_iff.2 hne
      obtain ⟨ps, rest, hps⟩ := ih t.length (by rw [← hn, List.length_append]; omega) t rfl
      refine ⟨p :: ps, rest, ?_, ?_, hps.maximal⟩
      · rw [List.map_cons, List.flatten_cons, List.append_assoc, ← hps.eq]
      · intro q hq
        rcases List.mem_cons.1 hq with rfl | hq
        · exact hp
        · exact hps.wellFormed q hq
    · refine ⟨[], d, rfl, by simp, fun p hp hpre => h ⟨p, hp, hpre⟩⟩

/-- Nothing is read or cut outside a packet. -/
theorem openPacket_ne_outside (packet : List UInt8) (pnOffset : ℕ) (keys : Keys)
    (largest : Option ℕ) : openPacket packet pnOffset keys largest ≠ .error .outside := by
  unfold openPacket
  cases hleast : checkedAdd pnOffset MIN_LENGTH with
  | none => simp
  | some least =>
    obtain ⟨-, rfl⟩ := checkedAdd_eq_some.1 hleast
    dsimp only
    split_ifs with hshort
    · simp
    · have hlength : pnOffset + 20 ≤ packet.length := not_lt.1 hshort
      have hnumber : slice packet pnOffset (pnOffset + 4) =
          some ((packet.drop pnOffset).take (pnOffset + 4 - pnOffset)) :=
        if_pos ⟨by omega, by omega⟩
      rw [List.getElem?_eq_getElem (show 0 < packet.length by omega), hnumber]
      split
      · simp
      · simp_all
      · simp
      · rename_i sample first number hsample hfirst hnumber'
        split
        · simp
        · rename_i first' number' hheader
          have hfour : number'.length = 4 := by
            rw [keys.inPlace _ _ _ _ _ hheader, length_slice (hnumber.trans hnumber')]
            omega
          have hlow : (first' &&& 0x03).toNat + 1 ≤ 4 := by
            rw [UInt8.toNat_and]
            have := Nat.and_le_right (n := first'.toNat) (m := (0x03 : UInt8).toNat)
            have h3 : (0x03 : UInt8).toNat = 3 := rfl
            omega
          have h₁ : slice number' 0 ((first' &&& 0x03).toNat + 1) = some
              ((number'.drop 0).take ((first' &&& 0x03).toNat + 1 - 0)) :=
            if_pos ⟨by omega, by omega⟩
          have h₂ : slice packet pnOffset (pnOffset + ((first' &&& 0x03).toNat + 1)) = some
              ((packet.drop pnOffset).take (pnOffset + ((first' &&& 0x03).toNat + 1) - pnOffset)) :=
            if_pos ⟨by omega, by omega⟩
          rw [h₁, h₂]
          dsimp only
          split <;> simp

theorem judge_ne_outside (r : Reader) (packet : List UInt8) (pnOffset : ℕ) :
    r.judge packet pnOffset ≠ .error .outside := by
  unfold judge
  split
  · rename_i halt hopen
    rintro ⟨rfl⟩
    exact openPacket_ne_outside _ _ _ _ hopen
  · simp
  · split <;> simp

theorem walk_ne_outside (r : Reader) (ps : List Packet) : (r.walk ps).2 ≠ .error .outside := by
  induction ps generalizing r with
  | nil => simp [walk]
  | cons p ps ih =>
    unfold walk
    dsimp only
    split
    · rename_i halt hj
      rintro ⟨rfl⟩
      exact judge_ne_outside _ _ _ hj
    · exact ih _

end Reader

/-! ### Packet numbers -/

/-- The bits from the `k`-th on. -/
theorem and_not_mask {e k : ℕ} (he : e < 2 ^ 64) (hk : k ≤ 64) :
    e &&& (2 ^ 64 - 1 ^^^ (2 ^ k - 1)) = 2 ^ k * (e / 2 ^ k) := by
  refine Nat.eq_of_testBit_eq fun i => ?_
  rw [Nat.testBit_and, Nat.testBit_xor, Nat.testBit_two_pow_sub_one, Nat.testBit_two_pow_sub_one,
    Nat.testBit_two_pow_mul, Nat.testBit_div_two_pow]
  by_cases hik : i < k
  · simp [hik, show i < 64 by omega, show ¬ k ≤ i by omega]
  · by_cases hi : i < 64
    · simp [hik, hi, show k ≤ i by omega]
    · have hzero : e.testBit i = false :=
        Nat.testBit_lt_two_pow (he.trans_le (Nat.pow_le_pow_right (by decide) (by omega)))
      simp [hzero, show k ≤ i by omega]

/-- The number near what is expected is the nearest of those that end as it does. -/
theorem nearest_eq {e pn h : ℕ} (hpn : pn < 2 ^ 62) (hpos : 0 < h) (hsmall : 2 * h ≤ 2 ^ 32)
    (hnear : e < pn + h ∧ pn ≤ e + h) :
    nearest e (2 * h * (e / (2 * h)) + pn % (2 * h)) (2 * h) = some pn := by
  have hpos' : 0 < 2 * h := by omega
  -- the two lie in the same window or in windows side by side
  have hup : pn / (2 * h) ≤ e / (2 * h) + 1 := by
    rw [← Nat.add_div_right e hpos']
    exact Nat.div_le_div_right (by omega)
  have hdown : e / (2 * h) ≤ pn / (2 * h) + 1 := by
    rw [← Nat.add_div_right pn hpos']
    exact Nat.div_le_div_right (by omega)
  have hpn' := Nat.div_add_mod pn (2 * h)
  have hlt := Nat.mod_lt pn hpos'
  have hadd : ∀ a b, a + b < 2 ^ 64 → checkedAdd a b = some (a + b) := fun a b hab => if_pos hab
  have hsub : ∀ a b, b ≤ a → checkedSub a b = some (a - b) := fun a b hab => if_pos hab
  have he' := Nat.div_add_mod e (2 * h)
  have helt := Nat.mod_lt e hpos'
  have hcases : pn / (2 * h) = e / (2 * h) ∨ pn / (2 * h) = e / (2 * h) + 1 ∨
      e / (2 * h) = pn / (2 * h) + 1 := by omega
  have hmul : ∀ k, 2 * h * (k + 1) = 2 * h * k + 2 * h := fun k => Nat.mul_succ _ _
  generalize pn % (2 * h) = t at hpn' hlt ⊢
  unfold nearest
  rw [show 2 * h / 2 = h by omega]
  simp only [Option.bind_eq_bind]
  rcases hcases with hq | hq | hq
  · rw [hq] at hpn'
    generalize 2 * h * (e / (2 * h)) = m at *
    rw [hadd _ _ (by omega), Option.bind_some, hsub _ _ (by omega), Option.bind_some,
      if_neg (by omega), hadd _ _ (by omega), Option.bind_some, if_neg (by omega), hpn']
  · rw [hq, hmul] at hpn'
    generalize 2 * h * (e / (2 * h)) = m at *
    rw [hadd _ _ (by omega), Option.bind_some, hsub _ _ (by omega), Option.bind_some,
      if_pos (by omega), hadd _ _ (by omega)]
    congr 1
    omega
  · rw [hq, hmul] at he' ⊢
    generalize 2 * h * (pn / (2 * h)) = m at *
    rw [hadd _ _ (by omega), Option.bind_some, hsub _ _ (by omega), Option.bind_some,
      if_neg (by omega), hadd _ _ (by omega), Option.bind_some, if_pos (by omega),
      hsub _ _ (by omega)]
    congr 1
    omega

/-- **A truncated packet number is restored**, if the number is near what is expected, and nothing
overflows. -/
theorem packetNumber_eq {largest : Option ℕ} {pn len : ℕ} (hpn : pn < 2 ^ 62)
    (hlen : 1 ≤ len ∧ len ≤ 4)
    (hnear : largest.elim 0 (· + 1) < pn + 2 ^ (8 * len) / 2 ∧
      pn ≤ largest.elim 0 (· + 1) + 2 ^ (8 * len) / 2) :
    packetNumber largest (pn % 2 ^ (8 * len)) len = some pn := by
  have hwin : 2 ^ (8 * len) ≤ 2 ^ 32 := Nat.pow_le_pow_right (by decide) (by omega)
  have hexpected : largest.elim (some 0) (checkedAdd · 1) = some (largest.elim 0 (· + 1)) := by
    cases largest with
    | none => rfl
    | some l =>
      dsimp only [Option.elim_some] at hnear ⊢
      exact if_pos (by omega)
  unfold packetNumber
  rw [hexpected]
  generalize largest.elim 0 (· + 1) = e at hnear ⊢
  have he : e < 2 ^ 64 := by omega
  have hmask : checkedSub (2 ^ (8 * len)) 1 = some (2 ^ (8 * len) - 1) :=
    if_pos Nat.one_le_two_pow
  have hcandidate : (e &&& (2 ^ 64 - 1 ^^^ (2 ^ (8 * len) - 1))) ||| pn % 2 ^ (8 * len) =
      2 ^ (8 * len) * (e / 2 ^ (8 * len)) + pn % 2 ^ (8 * len) := by
    rw [and_not_mask he (by omega), Nat.two_pow_add_eq_or_of_lt (Nat.mod_lt _ (Nat.two_pow_pos _))]
  simp only [Option.bind_eq_bind, Option.bind_some, Nat.shiftLeft_eq, one_mul, mul_comm len 8,
    hmask, hcandidate]
  have hhalf : 2 ^ (8 * len) = 2 * 2 ^ (8 * len - 1) := by
    rw [← Nat.pow_succ']
    congr 1
    omega
  rw [hhalf] at hnear hwin ⊢
  exact nearest_eq hpn (Nat.two_pow_pos _) hwin (by omega)

/-! ### The walk -/

namespace Reader

/-- What is handed over is a beginning of what could be, and all of it where the reading goes to
the end. -/
theorem walk_handed (r : Reader) (ps : List Packet) :
    (r.walk ps).1 <+:
      ps.map (fun p => (p.bytes r.wireVersion, (p.header r.wireVersion).length)) ∧
    ∀ r', (r.walk ps).2 = .ok r' → (r.walk ps).1 =
      ps.map fun p => (p.bytes r.wireVersion, (p.header r.wireVersion).length) := by
  induction ps generalizing r with
  | nil => simp [walk]
  | cons p ps ih =>
    unfold walk
    dsimp only
    cases hj : r.judge (p.bytes r.wireVersion) (p.header r.wireVersion).length with
    | error halt =>
      refine ⟨?_, fun r' h => by cases h⟩
      exact ⟨_, rfl⟩
    | ok r₁ =>
      obtain ⟨hpre, hall⟩ := ih r₁
      rw [(judge_version hj).1] at hpre hall
      rw [List.map_cons]
      exact ⟨List.prefix_cons_inj _ |>.2 hpre, fun r' h => congrArg _ (hall r' h)⟩

end Reader

/-- **The walk over a datagram and the packet numbers.**  The walk ends, whatever the datagram, and
never looks outside it; what it hands over to be opened are the Initials among the packets of the
reader's version at its front, in order, up to the first at which the reading ends.  And a packet
number near the expected one is restored, without overflow. -/
theorem readPackets_spec (r : Reader) (d : Datagram) (at_ : ℕ) :
    (r.readPackets d at_).2 ≠ .error .outside ∧
    (∃ packets rest, Splits r.wireVersion r.version (d.bytes.drop at_) packets rest) ∧
    (∀ packets rest, Splits r.wireVersion r.version (d.bytes.drop at_) packets rest →
      let initials := packets.filter fun p => p.kind = initialKind r.version
      let handed := initials.map fun p => (p.bytes r.wireVersion, (p.header r.wireVersion).length)
      r.readPackets d at_ = r.walk initials ∧ (r.readPackets d at_).1 <+: handed ∧
        ∀ r', (r.readPackets d at_).2 = .ok r' → (r.readPackets d at_).1 = handed) ∧
    ∀ (largest : Option ℕ) (pn len : ℕ), pn < 2 ^ 62 → 1 ≤ len → len ≤ 4 →
      largest.elim 0 (· + 1) < pn + 2 ^ (8 * len) / 2 →
      pn ≤ largest.elim 0 (· + 1) + 2 ^ (8 * len) / 2 →
      packetNumber largest (pn % 2 ^ (8 * len)) len = some pn := by
  have hsplit := Reader.exists_splits r.wireVersion r.version (d.bytes.drop at_)
  refine ⟨?_, hsplit, fun packets rest h => ?_, fun largest pn len hpn h₁ h₄ hlow hhigh =>
    packetNumber_eq hpn ⟨h₁, h₄⟩ ⟨hlow, hhigh⟩⟩
  · obtain ⟨packets, rest, h⟩ := hsplit
    rw [r.readPackets_eq d h]
    exact r.walk_ne_outside _
  · have heq := r.readPackets_eq d h
    obtain ⟨hpre, hall⟩ := r.walk_handed (packets.filter fun p => p.kind = initialKind r.version)
    rw [heq]
    exact ⟨rfl, hpre, hall⟩

/-! ### A datagram that is not read to its end -/

/-- What the keys of the flow `8394c8f03e515708` do with the first packet below: a
CONNECTION_CLOSE frame, sealed under the number 1. -/
def closingKeys : Keys where
  header sample first number :=
    if sample = [188, 253, 205, 125, 60, 171, 242, 179, 172, 233, 80, 114, 9, 109, 146, 204] then
      some (first ^^^ 0x03, number.modifyHead (· ^^^ 71))
    else none
  inPlace sample first number first' number' h := by
    split_ifs at h
    cases h
    exact List.length_modifyHead
  packet number _ payload :=
    if number = 1 ∧ payload = [118, 58, 171, 188, 253, 205, 125, 60, 171, 242, 179, 172, 233, 80,
      114, 9, 109, 146, 204, 222] then some [0x1c, 0, 0, 0]
    else none

/-- The reader once the packet 0 of its flow was opened. -/
def closingReader : Reader where
  wireVersion := [0, 0, 0, 1]
  fourBytes := rfl
  version := .V1
  keys := closingKeys
  largest := some 0
  pieces := .new

/-- The packet 1 of the flow, which closes the connection. -/
def closingPacket : Packet where
  first := 195
  dcid := [131, 148, 200, 240, 62, 81, 87, 8]
  scid := []
  token := [0]
  length := [21]
  body := [70, 118, 58, 171, 188, 253, 205, 125, 60, 171, 242, 179, 172, 233, 80, 114, 9, 109, 146,
    204, 222]

/-- The packet 2 of the flow. -/
def laterPacket : Packet where
  first := 202
  dcid := [131, 148, 200, 240, 62, 81, 87, 8]
  scid := []
  token := [0]
  length := [21]
  body := [22, 203, 177, 137, 124, 207, 104, 195, 127, 28, 151, 236, 146, 70, 132, 214, 144, 68, 80,
    195, 16]

def closingDatagram : Datagram where
  bytes := closingPacket.bytes [0, 0, 0, 1] ++ laterPacket.bytes [0, 0, 0, 1]
  small := by decide

/-- The packet behind one that closes the connection is not handed over. -/
theorem laterPacket_not_handed : ¬ ∀ packets rest,
    Splits closingReader.wireVersion closingReader.version closingDatagram.bytes packets rest →
    (closingReader.readPackets closingDatagram 0).1 =
      (packets.filter fun p => p.kind = initialKind closingReader.version).map fun p =>
        (p.bytes closingReader.wireVersion, (p.header closingReader.wireVersion).length) := by
  intro h
  have hwell : ∀ p ∈ [closingPacket, laterPacket], p.WellFormed .V1 := by
    intro p hp
    have hzero : IsVarint [0] 0 := ⟨0, [], rfl, by decide, by decide⟩
    have hlength : IsVarint [21] 21 := ⟨21, [], rfl, by decide, by decide⟩
    simp only [List.mem_cons, List.not_mem_nil, or_false] at hp
    rcases hp with rfl | rfl
    · exact ⟨by decide, by decide, by decide, by decide, ⟨[0], [], rfl, hzero⟩, hlength⟩
    · exact ⟨by decide, by decide, by decide, by decide, ⟨[0], [], rfl, hzero⟩, hlength⟩
  have hsplits : Splits [0, 0, 0, 1] .V1 closingDatagram.bytes [closingPacket, laterPacket] [] := by
    refine ⟨by simp [closingDatagram], hwell, fun p _ hpre => ?_⟩
    have := List.prefix_nil.1 hpre
    simp [Packet.bytes, Packet.header] at this
  have hwalk : closingReader.readPackets closingDatagram 0 = _ :=
    closingReader.readPackets_eq closingDatagram hsplits
  have hhanded := h _ _ hsplits
  rw [hwalk] at hhanded
  revert hhanded
  decide +kernel

end Quic

end Rurge
