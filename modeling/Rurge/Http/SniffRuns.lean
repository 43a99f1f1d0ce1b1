import Rurge.Http.Sniff

/-!
# Sniffing and how the bytes arrive

`records` says what the records of a prefix come to without a limit on how far a prefix is read.  A
number it asks for is a lower bound on where the ClientHello is whole, and what it says is the same
of every longer prefix.  The limit breaks this in one place: a ClientHello that is whole only past
`MAX_PREFIX`.
-/

namespace Rurge

namespace Sniffing

/-! ### How long a message is -/

theorem wanted_of_short {handshake : List UInt8} (h : handshake.length < HANDSHAKE_HEADER) :
    wanted handshake = HANDSHAKE_HEADER := by
  rcases handshake with _ | ⟨_, _ | ⟨_, _ | ⟨_, _ | ⟨_, _⟩⟩⟩⟩ <;> first | rfl | skip
  simp [HANDSHAKE_HEADER] at h
  omega

theorem header_le_wanted (handshake : List UInt8) : HANDSHAKE_HEADER ≤ wanted handshake := by
  unfold wanted
  split
  · exact Nat.le_add_right _ _
  · exact le_rfl

/-- Once its header is there, a message is as long as it is. -/
theorem wanted_append {handshake : List UInt8} (h : HANDSHAKE_HEADER ≤ handshake.length)
    (more : List UInt8) : wanted (handshake ++ more) = wanted handshake := by
  rcases handshake with _ | ⟨_, _ | ⟨_, _ | ⟨_, _ | ⟨_, _⟩⟩⟩⟩
  all_goals first | rfl | (simp [HANDSHAKE_HEADER] at h)

theorem wanted_le_append (handshake more : List UInt8) :
    wanted handshake ≤ wanted (handshake ++ more) := by
  by_cases h : HANDSHAKE_HEADER ≤ handshake.length
  · rw [wanted_append h]
  · rw [wanted_of_short (not_le.1 h)]
    exact header_le_wanted _

/-! ### What the handshake bytes tell -/

variable {limit pos : ℕ} {handshake rest whole : List UInt8}

/-- A message that nothing is told of is not whole. -/
theorem lt_wanted (h : told limit whole = none) : whole.length < wanted whole := by
  unfold told at h
  split_ifs at h with hshort hkind hover hwhole
  · exact hshort.trans_le (header_le_wanted whole)
  · split at h <;> cases h
  · exact not_le.1 hwhole

/-- What is told of a message stays, whatever comes after it; and it tells something. -/
theorem told_append {reassembled : Reassembled} (h : told limit whole = some reassembled)
    (more : List UInt8) : told limit (whole ++ more) = some reassembled ∧
      (∀ n, reassembled ≠ .NeedMore n) ∧
      ∀ hello, reassembled = .Hello hello → wanted whole ≤ whole.length := by
  unfold told at h
  split_ifs at h with hshort hkind hover hwhole
  all_goals
    have hheader := not_lt.1 hshort
    have hlong : ¬ (whole ++ more).length < HANDSHAKE_HEADER :=
      not_lt.2 (hheader.trans (by simp))
    have hhead : (whole ++ more).head? = whole.head? := by
      rcases whole with _ | ⟨b, whole⟩
      · simp [HANDSHAKE_HEADER] at hheader
      · rfl
  · cases h
    refine ⟨?_, by simp, by simp⟩
    rw [told, if_neg hlong, hhead, if_pos hkind]
  · cases h
    refine ⟨?_, by simp, by simp⟩
    rw [told, if_neg hlong, hhead, if_neg hkind, wanted_append hheader, if_pos hover]
  · have hle : wanted whole ≤ (whole ++ more).length := hwhole.trans (by simp)
    refine ⟨?_, ?_, fun _ _ => hwhole⟩
    · rw [told, if_neg hlong, hhead, if_neg hkind, wanted_append hheader, if_neg hover, if_pos hle,
        List.take_append_of_le_length hwhole]
      exact h
    · rintro n rfl
      split at h <;> cases h

/-! ### A longer prefix -/

theorem length_of_no_header {rest : List UInt8}
    (h : ∀ kind major minor high low payload,
      rest = kind :: major :: minor :: high :: low :: payload → False) : rest.length < 5 := by
  rcases rest with _ | ⟨_, _ | ⟨_, _ | ⟨_, _ | ⟨_, _ | ⟨_, _⟩⟩⟩⟩⟩ <;> simp
  exact (h _ _ _ _ _ _ rfl).elim

/-- **The bytes asked for**: what the message still wants and a header at least, and more than are
there. -/
theorem records_lower (h : handshake.length < wanted handshake) :
    (∀ hello, records limit pos handshake rest = .Hello hello →
      5 + (wanted handshake - handshake.length) ≤ rest.length) ∧
    ∀ n, records limit pos handshake rest = .NeedMore n →
      pos + 5 + (wanted handshake - handshake.length) ≤ n ∧ pos + rest.length < n := by
  fun_induction records limit pos handshake rest with
  | case1 => simp
  | case2 pos handshake kind major minor high low payload len _ whole reassembled htold =>
    obtain ⟨-, hnot, hle⟩ := told_append htold []
    refine ⟨fun hello hhello => ?_, fun n hn => absurd hn (hnot n)⟩
    have hle := hle hello hhello
    have hless := wanted_le_append handshake (payload.take len)
    have hlen : whole.length ≤ handshake.length + payload.length := by
      simp only [whole, List.length_append, List.length_take]
      omega
    simp only [List.length_cons, whole] at *
    omega
  | case3 pos handshake kind major minor high low payload len _ whole htold hshort stop hstop =>
    refine ⟨by simp, ?_⟩
    rintro n ⟨rfl⟩
    have hle := wanted_le_append handshake (payload.take len)
    have hlt := lt_wanted htold
    have hlen : whole.length = handshake.length + payload.length := by
      simp only [whole, List.length_append, List.length_take]
      omega
    simp only [List.length_cons, stop, whole] at *
    omega
  | case4 pos handshake kind major minor high low payload len _ whole htold hshort stop hstop =>
    refine ⟨by simp, ?_⟩
    rintro n ⟨rfl⟩
    have hle := wanted_le_append handshake (payload.take len)
    simp only [List.length_cons, stop, whole] at *
    omega
  | case5 pos handshake kind major minor high low payload len _ whole htold hlong ih =>
    have hle := wanted_le_append handshake (payload.take len)
    have hlt := lt_wanted htold
    obtain ⟨hhello, hmore⟩ := ih hlt
    have hlen : whole.length = handshake.length + len := by
      simp only [whole, List.length_append, List.length_take]
      omega
    have hdrop : (payload.drop len).length = payload.length - len := List.length_drop
    simp only [List.length_cons, whole] at *
    refine ⟨fun hello h => ?_, fun n h => ?_⟩
    · have := hhello hello h
      omega
    · have := hmore n h
      omega
  | case6 pos handshake rest hno hfits =>
    refine ⟨by simp, ?_⟩
    rintro n ⟨rfl⟩
    have := length_of_no_header hno
    omega
  | case7 => simp

/-- What a longer payload adds to the handshake bytes. -/
theorem whole_append (handshake payload more : List UInt8) (len : ℕ) :
    handshake ++ (payload ++ more).take len =
      handshake ++ payload.take len ++ more.take (len - payload.length) := by
  rw [List.take_append, List.append_assoc]

/-- What a longer prefix comes to, given what a prefix does. -/
def Extends (more : Reassembled) (length : ℕ) : Reassembled → Prop
  | .Hello hello => more = .Hello hello
  | .Other => more = .Other
  | .NeedMore n => (∀ hello, more = .Hello hello → n ≤ length) ∧ ∀ n', more = .NeedMore n' → n ≤ n'

theorem fits_append {more : List UInt8} (h : fits rest = false) : fits (rest ++ more) = false := by
  rcases rest with _ | ⟨a, _ | ⟨b, _ | ⟨c, rest⟩⟩⟩
  · cases h
  · rcases more with _ | ⟨b, _ | ⟨c, more⟩⟩ <;> simp_all [fits]
  · rcases more with _ | ⟨c, more⟩ <;> simp_all [fits]
  · simpa [fits] using h

/-- A header that does not fit ends it. -/
theorem records_unfit (h : fits rest = false) : records limit pos handshake rest = .Other := by
  rw [records.eq_def]
  split
  · rename_i kind major minor high low payload
    rw [if_pos]
    by_contra hgood
    push Not at hgood
    obtain ⟨rfl, rfl, hminor, -⟩ := hgood
    simp [fits, hminor] at h
  · rw [h]
    rfl

/-- A record that is not all there asks for the end of the message, were the rest of the record its
bytes; and for a header more, where that is past the record. -/
theorem records_partial_append {kind major minor high low : UInt8} {payload : List UInt8} {len : ℕ}
    (hlen : BigEndian.ofBytes [high, low] = len)
    (hgood : ¬ (kind ≠ HANDSHAKE_RECORD ∨ major ≠ 0x03 ∨ 0x04 < minor ∨ len < 1 ∨ MAX_RECORD < len))
    (hshort : payload.length < len) (more : List UInt8) {n : ℕ}
    (hn : n = pos + 5 + (wanted (handshake ++ payload) - handshake.length) ∧ n ≤ pos + 5 + len ∨
      n = pos + 5 + (wanted (handshake ++ payload) - handshake.length) + 5 ∧
        pos + 5 + len + 5 < n) :
    Extends (records limit pos handshake (kind :: major :: minor :: high :: low :: payload ++ more))
      (pos + (kind :: major :: minor :: high :: low :: payload ++ more).length) (.NeedMore n) := by
  have hwanted : wanted (handshake ++ payload) ≤
      wanted (handshake ++ (payload ++ more).take len) := by
    rw [whole_append, List.take_of_length_le hshort.le]
    exact wanted_le_append _ _
  have htake : (handshake ++ (payload ++ more).take len).length =
      handshake.length + min len (payload.length + more.length) := by
    rw [List.length_append, List.length_take, List.length_append]
  simp only [List.cons_append, List.length_cons, List.length_append]
  rw [records, hlen, if_neg hgood]
  simp only
  cases htold : told limit (handshake ++ (payload ++ more).take len) with
  | some reassembled =>
    obtain ⟨-, hnot, hle⟩ := told_append htold []
    refine ⟨fun hello hhello => ?_, fun n' hn' => absurd hn' (hnot n')⟩
    have hle := hle hello hhello
    omega
  | none =>
    have hlt := lt_wanted htold
    simp only
    split_ifs with hshort' hstop
    · refine ⟨by simp, ?_⟩
      rintro n' ⟨rfl⟩
      omega
    · refine ⟨by simp, ?_⟩
      rintro n' ⟨rfl⟩
      omega
    · simp only [List.length_append] at hshort'
      obtain ⟨hhello, hmore⟩ := @records_lower limit (pos + 5 + len) _
        ((payload ++ more).drop len) hlt
      have hdrop : ((payload ++ more).drop len).length = payload.length + more.length - len := by
        rw [List.length_drop, List.length_append]
      refine ⟨fun hello heq => ?_, fun n' heq => ?_⟩
      · have := hhello hello heq
        omega
      · have := (hmore n' heq).1
        omega

/-- **What a prefix comes to, a longer one does too**; and where it asks for more, no longer one has
a ClientHello in fewer bytes, or asks for fewer. -/
theorem records_append (h : handshake.length < wanted handshake) (more : List UInt8) :
    Extends (records limit pos handshake (rest ++ more)) (pos + (rest ++ more).length)
      (records limit pos handshake rest) := by
  fun_induction records limit pos handshake rest with
  | case1 pos handshake kind major minor high low payload len hbad =>
    simp only [List.cons_append, Extends]
    rw [records, if_pos hbad]
  | case2 pos handshake kind major minor high low payload len hgood whole reassembled htold =>
    obtain ⟨hsame, hnot, -⟩ := told_append htold (more.take (len - payload.length))
    have heq : records limit pos handshake
        (kind :: major :: minor :: high :: low :: payload ++ more) = reassembled := by
      rw [List.cons_append, List.cons_append, List.cons_append, List.cons_append,
        List.cons_append, records, if_neg hgood]
      simp only [whole_append]
      rw [hsame]
    rw [heq]
    cases reassembled with
    | Hello hello => rfl
    | NeedMore n => exact absurd rfl (hnot n)
    | Other => rfl
  | case3 pos handshake kind major minor high low payload len hgood whole htold hshort stop hstop =>
    refine records_partial_append rfl hgood hshort more (.inl ⟨?_, hstop⟩)
    simp only [stop, whole, List.take_of_length_le hshort.le]
  | case4 pos handshake kind major minor high low payload len hgood whole htold hshort stop hstop =>
    refine records_partial_append rfl hgood hshort more (.inr ⟨?_, ?_⟩)
    · simp only [stop, whole, List.take_of_length_le hshort.le]
    · omega
  | case5 pos handshake kind major minor high low payload len hgood whole htold hlong ih =>
    have hrest : payload.drop len ++ more = (payload ++ more).drop len := by
      rw [List.drop_append_of_le_length (not_lt.1 hlong)]
    have htake : (payload ++ more).take (BigEndian.ofBytes [high, low]) = payload.take len :=
      List.take_append_of_le_length (not_lt.1 hlong)
    have hih := ih (lt_wanted htold)
    rw [hrest] at hih
    have hlength : pos + 5 + len + ((payload ++ more).drop len).length =
        pos + (kind :: major :: minor :: high :: low :: payload ++ more).length := by
      simp only [List.length_drop, List.length_append, List.length_cons] at *
      omega
    rw [hlength] at hih
    have heq : records limit pos handshake
        (kind :: major :: minor :: high :: low :: payload ++ more) =
          records limit (pos + 5 + len) whole ((payload ++ more).drop len) := by
      rw [List.cons_append, List.cons_append, List.cons_append, List.cons_append,
        List.cons_append, records, if_neg hgood]
      simp only [htake]
      have htold' : told limit (handshake ++ payload.take len) = none := htold
      rw [htold']
      simp only
      rw [if_neg]
      simp only [List.length_append]
      omega
    rw [heq]
    exact hih
  | case6 pos handshake rest hno hfits =>
    have hshort := length_of_no_header hno
    obtain ⟨hhello, hmore⟩ := @records_lower limit pos handshake (rest ++ more) h
    refine ⟨fun hello heq => ?_, fun n' heq => (hmore n' heq).1⟩
    have := hhello hello heq
    omega
  | case7 pos handshake rest hno hfits =>
    exact records_unfit (fits_append (by simpa using hfits))

end Sniffing

end Rurge
