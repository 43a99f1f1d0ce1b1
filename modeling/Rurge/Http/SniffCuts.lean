import Rurge.Http.SniffRuns

/-!
# Sniffing and how a stream is cut

A ClientHello in handshake records, and how many bytes of the stream it takes.  Where these are at
most `MAX_PREFIX`, a sniff ends the same however the stream is cut into fills; where they are more,
some prefixes are judged `Other` and longer ones `Tls`.
-/

namespace Rurge

namespace Sniffing

/-! ### Handshake records -/

/-- The header of a handshake record. -/
def header (minor : UInt8) (len : ℕ) : List UInt8 :=
  HANDSHAKE_RECORD :: 0x03 :: minor :: BigEndian.toBytes 2 len

/-- A handshake record. -/
structure Record where
  minor : UInt8
  payload : List UInt8
  minor_le : minor ≤ 0x04
  pos : 0 < payload.length
  le_max : payload.length ≤ MAX_RECORD

def Record.bytes (r : Record) : List UInt8 := header r.minor r.payload.length ++ r.payload

/-- The bytes of records, one after another. -/
def bytes (rs : List Record) : List UInt8 := (rs.map Record.bytes).flatten

/-- What records carry together. -/
def carried (rs : List Record) : List UInt8 := (rs.map Record.payload).flatten

/-- A stream begins with records that carry a ClientHello of `MAX_PREFIX` bytes at most, whose last
byte is the stream's `n`-th.  The last record may go on after the message, and the stream after the
record. -/
def HelloAt (s : List UInt8) (n : ℕ) (hello : ClientHello) : Prop :=
  ∃ (rs : List Record) (minor : UInt8) (len : ℕ) (last more : List UInt8),
    s = bytes rs ++ (header minor len ++ (last ++ more)) ∧ minor ≤ 0x04 ∧ last ≠ [] ∧
      last.length ≤ len ∧ len ≤ MAX_RECORD ∧
      parse_client_hello (carried rs ++ last) = some hello ∧
      (carried rs ++ last).length ≤ MAX_PREFIX ∧ n = (bytes rs).length + 5 + last.length

variable {limit pos len : ℕ} {handshake rest message last more : List UInt8} {minor : UInt8}
  {hello : ClientHello}

theorem length_header (minor : UInt8) (len : ℕ) : (header minor len).length = 5 := by
  simp [header]

/-- What a record's header makes of the bytes after it. -/
theorem records_header (hminor : minor ≤ 0x04) (hpos : 0 < len) (hlen : len ≤ MAX_RECORD)
    (payload : List UInt8) :
    records limit pos handshake (header minor len ++ payload) =
      match told limit (handshake ++ payload.take len) with
      | some reassembled => reassembled
      | none =>
        if payload.length < len then
          if pos + 5 + (wanted (handshake ++ payload.take len) - handshake.length) ≤
              pos + 5 + len then
            .NeedMore (pos + 5 + (wanted (handshake ++ payload.take len) - handshake.length))
          else .NeedMore (pos + 5 + (wanted (handshake ++ payload.take len) - handshake.length) + 5)
        else records limit (pos + 5 + len) (handshake ++ payload.take len) (payload.drop len) := by
  obtain ⟨high, low, hbytes⟩ : ∃ high low, BigEndian.toBytes 2 len = [high, low] := ⟨_, _, rfl⟩
  have hvalue : BigEndian.ofBytes [high, low] = len := by
    rw [← hbytes, BigEndian.ofBytes_toBytes, Nat.mod_eq_of_lt]
    exact hlen.trans_lt (by decide)
  have hgood : ¬ (HANDSHAKE_RECORD ≠ HANDSHAKE_RECORD ∨ (0x03 : UInt8) ≠ 0x03 ∨ 0x04 < minor ∨
      len < 1 ∨ MAX_RECORD < len) := by
    rintro (hkind | hmajor | hminor' | hless | hmore)
    · exact hkind rfl
    · exact hmajor rfl
    · exact UInt8.not_lt.2 hminor hminor'
    · omega
    · omega
  rw [header, hbytes]
  simp only [List.cons_append, List.nil_append]
  rewrite [records, hvalue, if_neg hgood]
  rfl

/-- What is told of a message, and of its beginnings: nothing until it is whole. -/
theorem told_message (hparse : parse_client_hello message = some hello)
    (hle : message.length ≤ limit) : told limit message = some (.Hello hello) := by
  obtain ⟨hhead, htotal⟩ := parse_client_hello_some hparse
  have hheader : ¬ message.length < HANDSHAKE_HEADER :=
    not_lt.2 (htotal ▸ header_le_wanted message)
  rw [told, if_neg hheader, if_neg (not_not.2 hhead), htotal, if_neg (not_lt.2 hle), if_pos le_rfl,
    List.take_length, hparse]

theorem told_beginning (hparse : parse_client_hello message = some hello)
    (hle : message.length ≤ limit) {more : List UInt8} (hmessage : message = handshake ++ more)
    (hmore : more ≠ []) : told limit handshake = none := by
  obtain ⟨hhead, htotal⟩ := parse_client_hello_some hparse
  have hless : handshake.length < message.length := by
    rw [hmessage, List.length_append]
    exact Nat.lt_add_of_pos_right (List.length_pos_iff.2 hmore)
  unfold told
  by_cases hshort : handshake.length < HANDSHAKE_HEADER
  · rw [if_pos hshort]
  · have hwanted : wanted handshake = message.length := by
      rw [← htotal, hmessage, wanted_append (not_lt.1 hshort)]
    have hhead' : handshake.head? = some CLIENT_HELLO := by
      rcases handshake with _ | ⟨b, handshake⟩
      · simp [HANDSHAKE_HEADER] at hshort
      · rw [hmessage] at hhead
        exact hhead
    rw [if_neg hshort, if_neg (not_not.2 hhead'), hwanted, if_neg (not_lt.2 hle),
      if_neg (not_le.2 hless)]

/-- A record of the message that is not its last. -/
theorem records_record (r : Record) (hparse : parse_client_hello message = some hello)
    (hle : message.length ≤ limit) {more : List UInt8}
    (hmessage : message = handshake ++ r.payload ++ more) (hmore : more ≠ []) (rest : List UInt8) :
    records limit pos handshake (r.bytes ++ rest) =
      records limit (pos + 5 + r.payload.length) (handshake ++ r.payload) rest := by
  rw [Record.bytes, List.append_assoc, records_header r.minor_le r.pos r.le_max]
  rw [List.take_left, told_beginning hparse hle hmessage hmore]
  simp only
  rw [if_neg (by simp), List.drop_left]

/-- **A ClientHello that is there** is found, however it is cut into records. -/
theorem records_whole (rs : List Record) (hminor : minor ≤ 0x04) (hlast : last ≠ [])
    (hlen : last.length ≤ len) (hmax : len ≤ MAX_RECORD)
    (hparse : parse_client_hello (handshake ++ (carried rs ++ last)) = some hello)
    (hle : (handshake ++ (carried rs ++ last)).length ≤ limit) (more : List UInt8) :
    records limit pos handshake (bytes rs ++ (header minor len ++ (last ++ more))) =
      .Hello hello := by
  induction rs generalizing pos handshake with
  | nil =>
    have hpos : 0 < len := (List.length_pos_iff.2 hlast).trans_le hlen
    have htold := (told_append (told_message hparse hle) (more.take (len - last.length))).1
    simp only [carried, List.map_nil, List.flatten_nil, List.nil_append] at htold
    simp only [bytes, List.map_nil, List.flatten_nil, List.nil_append]
    rw [records_header hminor hpos hmax, whole_append, List.take_of_length_le hlen, htold]
  | cons r rs ih =>
    have hcarried : carried (r :: rs) = r.payload ++ carried rs := List.flatten_cons
    have hbytes : bytes (r :: rs) = r.bytes ++ bytes rs := List.flatten_cons
    rw [hcarried] at hparse hle
    have hmessage : handshake ++ (r.payload ++ carried rs ++ last) =
        handshake ++ r.payload ++ (carried rs ++ last) := by simp
    rw [hbytes, List.append_assoc, records_record r hparse hle hmessage (by simp [hlast])]
    rw [hmessage] at hparse hle
    exact ih hparse hle

/-- Bytes that do not make a header tell no ClientHello. -/
theorem records_no_header (h : rest.length < 5) :
    records limit pos handshake rest ≠ .Hello hello := by
  intro heq
  rw [records.eq_def] at heq
  split at heq
  · simp at h
    omega
  · split_ifs at heq

/-- A record that is not all there, of a message that is not whole. -/
theorem records_part (hminor : minor ≤ 0x04) (hpos : 0 < len) (hmax : len ≤ MAX_RECORD)
    (hparse : parse_client_hello message = some hello) (hle : message.length ≤ limit)
    {payload : List UInt8} (hmessage : message = handshake ++ payload ++ more) (hmore : more ≠ [])
    (hshort : payload.length < len) (hello' : ClientHello) :
    records limit pos handshake (header minor len ++ payload) ≠ .Hello hello' := by
  rw [records_header hminor hpos hmax, List.take_of_length_le hshort.le,
    told_beginning hparse hle hmessage hmore]
  simp only
  rw [if_pos hshort]
  split_ifs <;> simp

/-- **A ClientHello that is not whole** is not found. -/
theorem records_short (rs : List Record) (hminor : minor ≤ 0x04) (hlast : last ≠ [])
    (hlen : last.length ≤ len) (hmax : len ≤ MAX_RECORD)
    (hparse : parse_client_hello (handshake ++ (carried rs ++ last)) = some hello)
    (hle : (handshake ++ (carried rs ++ last)).length ≤ limit) {a : ℕ}
    (ha : a < (bytes rs).length + 5 + last.length) (hello' : ClientHello) :
    records limit pos handshake ((bytes rs ++ (header minor len ++ (last ++ more))).take a) ≠
      .Hello hello' := by
  induction rs generalizing pos handshake a with
  | nil =>
    simp only [bytes, carried, List.map_nil, List.flatten_nil, List.nil_append, List.length_nil]
      at *
    by_cases hfive : a < 5
    · exact records_no_header (by rw [List.length_take]; omega)
    · have hpos : 0 < len := (List.length_pos_iff.2 hlast).trans_le hlen
      have htake : (header minor len ++ (last ++ more)).take a =
          header minor len ++ last.take (a - 5) := by
        rw [List.take_append, length_header, List.take_of_length_le (by rw [length_header]; omega),
          List.take_append_of_le_length (by omega)]
      have hsplit : handshake ++ last = handshake ++ last.take (a - 5) ++ last.drop (a - 5) := by
        rw [List.append_assoc, List.take_append_drop]
      rw [htake]
      refine records_part hminor hpos hmax hparse hle hsplit ?_ ?_ hello'
      · rw [ne_eq, List.drop_eq_nil_iff]
        omega
      · rw [List.length_take]
        omega
  | cons r rs ih =>
    have hcarried : carried (r :: rs) = r.payload ++ carried rs := List.flatten_cons
    have hbytes : bytes (r :: rs) = r.bytes ++ bytes rs := List.flatten_cons
    have hlength : r.bytes.length = 5 + r.payload.length := by
      rw [Record.bytes, List.length_append, length_header]
    have hmessage : handshake ++ (r.payload ++ carried rs ++ last) =
        handshake ++ r.payload ++ (carried rs ++ last) := by simp
    rw [hcarried] at hparse hle
    rw [hbytes, List.length_append, hlength] at ha
    rw [hbytes, List.append_assoc]
    by_cases hall : a < r.bytes.length
    · rw [List.take_append_of_le_length hall.le]
      by_cases hfive : a < 5
      · exact records_no_header (by rw [List.length_take]; omega)
      · have htake : r.bytes.take a =
            header r.minor r.payload.length ++ r.payload.take (a - 5) := by
          rw [Record.bytes, List.take_append, length_header,
            List.take_of_length_le (by rw [length_header]; omega)]
        have hsplit : handshake ++ (r.payload ++ carried rs ++ last) =
            handshake ++ r.payload.take (a - 5) ++
              (r.payload.drop (a - 5) ++ (carried rs ++ last)) := by
          simp only [List.append_assoc]
          rw [← List.append_assoc (r.payload.take _), List.take_append_drop]
        rw [htake]
        refine records_part r.minor_le r.pos r.le_max hparse hle hsplit (by simp [hlast]) ?_ hello'
        rw [List.length_take]
        omega
    · rw [List.take_append, List.take_of_length_le (not_lt.1 hall),
        records_record r hparse hle hmessage (by simp [hlast])]
      rw [hmessage] at hparse hle
      exact ih hparse hle (by omega)

theorem told_hello {whole : List UInt8} (h : told limit whole = some (.Hello hello)) :
    parse_client_hello (whole.take (wanted whole)) = some hello ∧ wanted whole ≤ whole.length ∧
      wanted whole ≤ limit := by
  unfold told at h
  split_ifs at h with hshort hkind hover hwhole
  · cases h
  · cases h
  · split at h
    · rename_i hello' hparse
      cases h
      exact ⟨hparse, hwhole, not_lt.1 hover⟩
    · cases h

/-- **A ClientHello that is found** is there. -/
theorem records_hello (h : handshake.length < wanted handshake)
    (heq : records limit pos handshake rest = .Hello hello) :
    ∃ (rs : List Record) (minor : UInt8) (len : ℕ) (last more : List UInt8),
      rest = bytes rs ++ (header minor len ++ (last ++ more)) ∧ minor ≤ 0x04 ∧ last ≠ [] ∧
        last.length ≤ len ∧ len ≤ MAX_RECORD ∧
        parse_client_hello (handshake ++ (carried rs ++ last)) = some hello ∧
        (handshake ++ (carried rs ++ last)).length ≤ limit := by
  have hheader : ∀ {kind major minor high low : UInt8} (payload : List UInt8),
      ¬ (kind ≠ HANDSHAKE_RECORD ∨ major ≠ 0x03 ∨ 0x04 < minor ∨
        BigEndian.ofBytes [high, low] < 1 ∨ MAX_RECORD < BigEndian.ofBytes [high, low]) →
      minor ≤ 0x04 ∧ 0 < BigEndian.ofBytes [high, low] ∧
        BigEndian.ofBytes [high, low] ≤ MAX_RECORD ∧
        kind :: major :: minor :: high :: low :: payload =
          header minor (BigEndian.ofBytes [high, low]) ++ payload := by
    intro kind major minor high low payload hgood
    simp only [not_or, not_not] at hgood
    obtain ⟨rfl, rfl, hminor, hpos, hmax⟩ := hgood
    have hbytes : BigEndian.toBytes 2 (BigEndian.ofBytes [high, low]) = [high, low] :=
      BigEndian.toBytes_ofBytes [high, low]
    refine ⟨UInt8.not_lt.1 hminor, by omega, by omega, ?_⟩
    rw [header, hbytes]
    rfl
  fun_induction records limit pos handshake rest with
  | case1 => cases heq
  | case2 pos handshake kind major minor high low payload len hgood whole reassembled htold =>
    subst heq
    obtain ⟨hminor, hpos, hmax, hsplit⟩ := hheader payload hgood
    obtain ⟨hparse, hwhole, hlimit⟩ := told_hello htold
    have hless : handshake.length < wanted whole := h.trans_le (wanted_le_append _ _)
    have hlength : whole.length = handshake.length + min len payload.length := by
      simp only [whole, List.length_append, List.length_take]
    have htake : whole.take (wanted whole) =
        handshake ++ payload.take (wanted whole - handshake.length) := by
      simp only [whole] at *
      rw [List.take_append, List.take_of_length_le (by omega), List.take_take,
        min_eq_left (by omega)]
    have hlast : (payload.take (wanted whole - handshake.length)).length =
        wanted whole - handshake.length := by
      rw [List.length_take]
      omega
    refine ⟨[], minor, len, payload.take (wanted whole - handshake.length),
      payload.drop (wanted whole - handshake.length), ?_, hminor, ?_, by omega, hmax, ?_, ?_⟩
    · rw [List.take_append_drop]
      exact hsplit
    · rw [← List.length_pos_iff, hlast]
      omega
    · rw [htake] at hparse
      exact hparse
    · simp only [carried, List.map_nil, List.flatten_nil, List.nil_append, List.length_append,
        hlast]
      omega
  | case3 => cases heq
  | case4 => cases heq
  | case5 pos handshake kind major minor high low payload len hgood whole htold hlong ih =>
    obtain ⟨hminor, hpos, hmax, hsplit⟩ := hheader payload hgood
    obtain ⟨rs, minor', len', last, more, hrest, hminor', hlast, hlen', hmax', hparse, hle⟩ :=
      ih (lt_wanted htold) heq
    have htake : (payload.take len).length = len := by
      rw [List.length_take]
      omega
    refine ⟨⟨minor, payload.take len, hminor, by omega, by omega⟩ :: rs, minor', len', last, more,
      ?_, hminor', hlast, hlen', hmax', ?_, ?_⟩
    · rw [hsplit, bytes, List.map_cons, List.flatten_cons, List.append_assoc]
      change _ = Record.bytes _ ++ (bytes rs ++ _)
      rw [← hrest, Record.bytes, List.append_assoc, List.take_append_drop]
      simp only [htake]
      rfl
    · simp only [carried, List.map_cons, List.flatten_cons] at hparse ⊢
      simpa only [whole, List.append_assoc] using hparse
    · simp only [carried, List.map_cons, List.flatten_cons] at hle ⊢
      simpa only [whole, List.append_assoc] using hle
  | case6 => cases heq
  | case7 => cases heq

/-! ### Judging a longer prefix -/

/-- What the records came to, as a judgement. -/
def Reassembled.judged : Reassembled → Judged
  | .Hello hello => .Tls hello
  | .NeedMore n => .NeedMore n
  | .Other => .Other

variable {p : List UInt8}

theorem judge_records (h : p.head? = some HANDSHAKE_RECORD) :
    judge p = ((records MAX_PREFIX 0 [] p).need MAX_PREFIX).judged := by
  rcases p with _ | ⟨first, p⟩
  · cases h
  · rw [judge, if_pos (Option.some_inj.1 h)]
    unfold reassemble
    cases (records MAX_PREFIX 0 [] (first :: p)).need MAX_PREFIX <;> rfl

theorem judge_http_eq (hne : p ≠ []) (h : p.head? ≠ some HANDSHAKE_RECORD) :
    judge p = judge_http p := by
  rcases p with _ | ⟨first, p⟩
  · exact absurd rfl hne
  · rw [judge, if_neg fun heq => h (congrArg some heq)]

/-- What is judged of a method stays; and one byte more is asked for at a time, for as long as a
method may be. -/
theorem judge_method_append (seen rest more : List UInt8) (hseen : seen.length ≤ MAX_METHOD) :
    ((∀ n, judge_method seen rest ≠ .NeedMore n) ∧
        judge_method seen (rest ++ more) = judge_method seen rest ∨
      judge_method seen rest = .NeedMore (seen.length + rest.length + 1) ∧
        seen.length + rest.length ≤ MAX_METHOD) ∧
    ∀ hello, judge_method seen rest ≠ .Tls hello := by
  induction rest generalizing seen with
  | nil => exact ⟨.inr ⟨rfl, hseen⟩, fun hello => by simp [judge_method]⟩
  | cons byte rest ih =>
    rw [List.cons_append, judge_method, judge_method]
    split_ifs with hspace hempty hpri hfits
    · exact ⟨.inl ⟨by simp, rfl⟩, by simp⟩
    · exact ⟨.inl ⟨by simp, rfl⟩, by simp⟩
    · exact ⟨.inl ⟨by simp, rfl⟩, by simp⟩
    · exact ⟨.inl ⟨by simp, rfl⟩, by simp⟩
    · have hless : seen.length < MAX_METHOD := not_le.1 fun hle => hfits (.inr hle)
      have hih := ih (seen ++ [byte]) (by simpa using hless)
      simp only [List.length_append, List.length_cons] at hih ⊢
      rwa [show seen.length + (rest.length + 1) = seen.length + 1 + rest.length by omega]

/-- **A wait** is for more bytes than are there and for `MAX_PREFIX` at most, and no longer prefix
is judged to be TLS or HTTP before they are there. -/
theorem judge_needMore {n : ℕ} (h : judge p = .NeedMore n) :
    p.length < n ∧ n ≤ MAX_PREFIX ∧ ∀ more, (p ++ more).length < n →
      (∀ hello, judge (p ++ more) ≠ .Tls hello) ∧ judge (p ++ more) ≠ .Http := by
  by_cases hempty : p = []
  · subst hempty
    obtain rfl : 1 = n := by
      rw [judge] at h
      injection h
    refine ⟨by simp, by decide, fun more hmore => ?_⟩
    have hnil : more = [] := List.length_eq_zero_iff.1 (by simpa using hmore)
    subst hnil
    simp [judge]
  · have happend : ∀ more, (p ++ more).head? = p.head? := fun more => by
      rcases p with _ | ⟨first, p⟩
      · exact absurd rfl hempty
      · rfl
    by_cases hhead : p.head? = some HANDSHAKE_RECORD
    · rw [judge_records hhead] at h
      have hrecords : records MAX_PREFIX 0 [] p = .NeedMore n ∧ n ≤ MAX_PREFIX := by
        cases hp : records MAX_PREFIX 0 [] p with
        | Hello hello => rw [hp] at h; cases h
        | Other => rw [hp] at h; cases h
        | NeedMore m =>
          rw [hp, Reassembled.need] at h
          split_ifs at h with hover
          · cases h
          · cases h
            exact ⟨rfl, not_lt.1 hover⟩
      obtain ⟨hp, hn⟩ := hrecords
      refine ⟨by simpa using ((records_lower (by decide)).2 n hp).2, hn, fun more hmore => ?_⟩
      have hextends := @records_append MAX_PREFIX 0 [] p (by decide) more
      rw [hp] at hextends
      rw [judge_records ((happend more).trans hhead)]
      refine ⟨fun hello heq => ?_, fun heq => ?_⟩
      · cases hq : records MAX_PREFIX 0 [] (p ++ more) with
        | Hello hello' =>
          have hle := hextends.1 hello' hq
          omega
        | Other => rw [hq] at heq; cases heq
        | NeedMore m =>
          rw [hq, Reassembled.need] at heq
          split_ifs at heq <;> cases heq
      · cases hq : (records MAX_PREFIX 0 [] (p ++ more)).need MAX_PREFIX <;> rw [hq] at heq <;>
          cases heq
    · rw [judge_http_eq hempty hhead, judge_http] at h
      rcases (judge_method_append [] p [] (Nat.zero_le _)).1 with ⟨hnot, -⟩ | ⟨hsame, hle⟩
      · exact absurd h (hnot n)
      · rw [hsame] at h
        cases h
        simp only [List.length_nil, Nat.zero_add] at hle ⊢
        refine ⟨Nat.lt_succ_self _, hle.trans_lt (by decide), fun more hmore => ?_⟩
        have hnil : more = [] := by
          rw [List.length_append] at hmore
          exact List.length_eq_zero_iff.1 (by omega)
        subst hnil
        rw [List.append_nil, judge_http_eq hempty hhead, judge_http, hsame]
        simp

/-- **What is judged stays**, but for what is judged `Other` because its ClientHello is whole only
past the limit. -/
theorem judge_append (h : ∀ n, judge p ≠ .NeedMore n) (more : List UInt8) :
    judge (p ++ more) = judge p ∨
      p.head? = some HANDSHAKE_RECORD ∧
      (∃ n, records MAX_PREFIX 0 [] p = .NeedMore n ∧ MAX_PREFIX < n) ∧
      ∃ hello, records MAX_PREFIX 0 [] (p ++ more) = .Hello hello := by
  have hempty : p ≠ [] := by
    rintro rfl
    exact h 1 rfl
  have happend : (p ++ more).head? = p.head? := by
    rcases p with _ | ⟨first, p⟩
    · exact absurd rfl hempty
    · rfl
  by_cases hhead : p.head? = some HANDSHAKE_RECORD
  · have hextends := @records_append MAX_PREFIX 0 [] p (by decide) more
    rw [judge_records hhead] at h
    rw [judge_records hhead, judge_records (happend.trans hhead)]
    cases hp : records MAX_PREFIX 0 [] p with
    | Hello hello =>
      rw [hp] at hextends
      exact .inl (by rw [hextends])
    | Other =>
      rw [hp] at hextends
      exact .inl (by rw [hextends])
    | NeedMore n =>
      rw [hp] at hextends h
      have hover : MAX_PREFIX < n := by
        by_contra hle
        refine h n ?_
        rw [Reassembled.need, if_neg hle]
        rfl
      cases hq : records MAX_PREFIX 0 [] (p ++ more) with
      | Hello hello => exact .inr ⟨hhead, ⟨n, rfl, hover⟩, hello, rfl⟩
      | Other =>
        left
        simp only [Reassembled.need, if_pos hover]
      | NeedMore n' =>
        left
        have hover' : MAX_PREFIX < n' := hover.trans_le (hextends.2 n' hq)
        simp only [Reassembled.need, if_pos hover, if_pos hover']
  · left
    have hne : p ++ more ≠ [] := by simp [hempty]
    rw [judge_http_eq hempty hhead] at h ⊢
    rw [judge_http_eq hne (happend ▸ hhead)]
    rcases (judge_method_append [] p more (Nat.zero_le _)).1 with ⟨-, hsame⟩ | ⟨hsame, -⟩
    · exact hsame
    · exact absurd hsame (h _)

/-! ### A ClientHello of a stream -/

variable {s : List UInt8} {n : ℕ}

theorem HelloAt.head (h : HelloAt s n hello) : s.head? = some HANDSHAKE_RECORD := by
  obtain ⟨rs, minor, len, last, more, rfl, -⟩ := h
  cases rs <;> rfl

theorem HelloAt.le_length (h : HelloAt s n hello) : n ≤ s.length := by
  obtain ⟨rs, minor, len, last, more, rfl, -, -, -, -, -, -, rfl⟩ := h
  simp only [List.length_append, length_header]
  omega

theorem HelloAt.append (h : HelloAt s n hello) (more : List UInt8) :
    HelloAt (s ++ more) n hello := by
  obtain ⟨rs, minor, len, last, more', rfl, hrest⟩ := h
  exact ⟨rs, minor, len, last, more' ++ more, by simp, hrest⟩

/-- The ClientHello is found as soon as its last byte is there. -/
theorem HelloAt.found (h : HelloAt s n hello) :
    records MAX_PREFIX 0 [] (s.take n) = .Hello hello := by
  obtain ⟨rs, minor, len, last, more, rfl, hminor, hlast, hlen, hmax, hparse, hle, rfl⟩ := h
  have htake : (bytes rs ++ (header minor len ++ (last ++ more))).take
      ((bytes rs).length + 5 + last.length) = bytes rs ++ (header minor len ++ (last ++ [])) := by
    have hlength : (bytes rs).length + 5 + last.length =
        (bytes rs ++ (header minor len ++ last)).length := by
      simp only [List.length_append, length_header]
      omega
    have hsplit : bytes rs ++ (header minor len ++ (last ++ more)) =
        bytes rs ++ (header minor len ++ last) ++ more := by simp
    rw [List.append_nil, hlength, hsplit, List.take_left]
  rw [htake]
  exact records_whole rs hminor hlast hlen hmax hparse hle []

theorem HelloAt.not_before (h : HelloAt s n hello) {a : ℕ} (ha : a < n) (hello' : ClientHello) :
    records MAX_PREFIX 0 [] (s.take a) ≠ .Hello hello' := by
  obtain ⟨rs, minor, len, last, more, rfl, hminor, hlast, hlen, hmax, hparse, hle, rfl⟩ := h
  exact records_short rs hminor hlast hlen hmax hparse hle ha hello'

theorem helloAt_of_records (h : records MAX_PREFIX 0 [] s = .Hello hello) :
    ∃ n, HelloAt s n hello := by
  obtain ⟨rs, minor, len, last, more, hs, hminor, hlast, hlen, hmax, hparse, hle⟩ :=
    records_hello (by decide) h
  exact ⟨_, rs, minor, len, last, more, hs, hminor, hlast, hlen, hmax, hparse, hle, rfl⟩

/-- A stream whose ClientHello is whole only past `MAX_PREFIX`. -/
def Late (s : List UInt8) : Prop := ∃ n hello, HelloAt s n hello ∧ MAX_PREFIX < n

/-- Every wait is for more bytes than are there, for `MAX_PREFIX` at most, and not too long for what
is TLS or HTTP. -/
def Bounded (s : List UInt8) : Prop :=
  ∀ a n, judge (s.take a) = .NeedMore n → (s.take a).length < n ∧ n ≤ MAX_PREFIX ∧
    ∀ b, a ≤ b → (s.take b).length < n →
      (∀ hello, judge (s.take b) ≠ .Tls hello) ∧ judge (s.take b) ≠ .Http

/-- What is judged of a prefix is judged of the longer ones. -/
def Settled (s : List UInt8) : Prop :=
  ∀ a b, a ≤ b → (∀ n, judge (s.take a) ≠ .NeedMore n) → judge (s.take b) = judge (s.take a)

theorem take_of_le {a b : ℕ} (h : a ≤ b) : s.take b = s.take a ++ (s.drop a).take (b - a) := by
  rw [← List.take_add, Nat.add_sub_cancel' h]

theorem bounded (s : List UInt8) : Bounded s := by
  intro a n h
  obtain ⟨hless, hle, hmore⟩ := judge_needMore h
  refine ⟨hless, hle, fun b hb hshort => ?_⟩
  rw [take_of_le hb] at hshort ⊢
  exact hmore _ hshort

/-- **What is judged stays**, of a stream whose ClientHello is not late. -/
theorem settled_of_not_late (h : ¬ Late s) : Settled s := by
  intro a b hab hdecided
  rw [take_of_le hab]
  rcases judge_append hdecided ((s.drop a).take (b - a)) with
    hsame | ⟨-, ⟨n, hp, hover⟩, hello, hq⟩
  · exact hsame
  · refine absurd ?_ h
    obtain ⟨m, hat⟩ := helloAt_of_records hq
    have hfound := hat.found
    have hat' : HelloAt s m hello := by
      rw [← take_of_le hab] at hat
      have happend := hat.append (s.drop b)
      rwa [List.take_append_drop] at happend
    refine ⟨m, hello, hat', hover.trans_le ?_⟩
    by_cases hm : (s.take a).length ≤ m
    · rw [List.take_append, List.take_of_length_le hm] at hfound
      have hextends := @records_append MAX_PREFIX 0 [] (s.take a) (by decide)
        (((s.drop a).take (b - a)).take (m - (s.take a).length))
      rw [hp] at hextends
      refine (hextends.1 hello hfound).trans ?_
      simp only [List.length_append, List.length_take, Nat.zero_add] at hm ⊢
      omega
    · rw [List.take_append_of_le_length (not_le.1 hm).le] at hfound
      have hextends := @records_append MAX_PREFIX 0 [] ((s.take a).take m) (by decide)
        ((s.take a).drop m)
      rw [hfound, List.take_append_drop, hp] at hextends
      cases hextends

/-- A late ClientHello is judged `Other` while `MAX_PREFIX` bytes are there, and found later. -/
theorem HelloAt.judged (h : HelloAt s n hello) (hover : MAX_PREFIX < n) :
    judge (s.take MAX_PREFIX) = .Other ∧ judge (s.take n) = .Tls hello := by
  have hhead : ∀ a, 0 < a → (s.take a).head? = some HANDSHAKE_RECORD := by
    intro a ha
    have hhead := h.head
    rcases s with _ | ⟨first, s⟩
    · cases hhead
    · obtain ⟨a, rfl⟩ := Nat.exists_eq_succ_of_ne_zero ha.ne'
      exact hhead
  constructor
  · rw [judge_records (hhead _ (by decide))]
    have hnot := h.not_before hover
    cases hp : records MAX_PREFIX 0 [] (s.take MAX_PREFIX) with
    | Hello hello' => exact absurd hp (hnot hello')
    | Other => rfl
    | NeedMore k =>
      have hmore := ((records_lower (by decide)).2 k hp).2
      have hlength : (s.take MAX_PREFIX).length = MAX_PREFIX :=
        List.length_take_of_le (hover.le.trans h.le_length)
      rw [Reassembled.need, if_pos (by omega)]
      rfl
  · rw [judge_records (hhead _ (by omega)), h.found]
    rfl

/-! ### Whole sniffs -/

/-- The bytes a fill read. -/
def Filled.bytes : Filled → List UInt8
  | .read bytes => bytes
  | _ => []

/-- The bytes of fills, one after another. -/
def filled (fills : List Filled) : List UInt8 := (fills.map Filled.bytes).flatten

/-- What a judgement ends a sniff with, if it does. -/
def Judged.sniffed : Judged → Option Sniffed
  | .Tls hello => some (.Tls hello)
  | .Http => some .Http
  | .Other => some .Other
  | .NeedMore _ => none

/-- Whether a sniff ended by judging the bytes. -/
def Sniffed.verdict : Sniffed → Bool
  | .Tls _ => true
  | .Http => true
  | .Other => true
  | _ => false

/-- A sniff that ends in a verdict judged a prefix of what it was given. -/
theorem sniff_verdict {buffered : List UInt8} {enough : ℕ} {fills : List Filled} {v : Sniffed}
    (h : sniff buffered enough fills = some v) (hv : v.verdict = true) :
    ∃ fills', fills' <+: fills ∧ (judge (buffered ++ filled fills')).sniffed = some v := by
  have hdecided : ∀ {judged : Judged}, (∀ n, judged ≠ .NeedMore n) →
      (if enough ≤ buffered.length then judge buffered else .NeedMore enough) = judged →
      judge buffered = judged := by
    intro judged hnot hjudged
    split_ifs at hjudged with henough
    · exact hjudged
    · exact absurd hjudged.symm (hnot _)
  have hnone : judge (buffered ++ filled []) = judge buffered := by
    rw [filled, List.map_nil, List.flatten_nil, List.append_nil]
  induction fills generalizing buffered enough with
  | nil =>
    rw [sniff] at h
    cases hjudged : (if enough ≤ buffered.length then judge buffered else .NeedMore enough) with
    | NeedMore n => rw [hjudged] at h; cases h
    | Tls hello =>
      rw [hjudged] at h
      exact ⟨[], List.prefix_rfl, by rw [hnone, hdecided (by simp) hjudged]; exact h⟩
    | Http =>
      rw [hjudged] at h
      exact ⟨[], List.prefix_rfl, by rw [hnone, hdecided (by simp) hjudged]; exact h⟩
    | Other =>
      rw [hjudged] at h
      exact ⟨[], List.prefix_rfl, by rw [hnone, hdecided (by simp) hjudged]; exact h⟩
  | cons fill fills ih =>
    rw [sniff] at h
    cases hjudged : (if enough ≤ buffered.length then judge buffered else .NeedMore enough) with
    | Tls hello =>
      rw [hjudged] at h
      exact ⟨[], List.nil_prefix, by rw [hnone, hdecided (by simp) hjudged]; exact h⟩
    | Http =>
      rw [hjudged] at h
      exact ⟨[], List.nil_prefix, by rw [hnone, hdecided (by simp) hjudged]; exact h⟩
    | Other =>
      rw [hjudged] at h
      exact ⟨[], List.nil_prefix, by rw [hnone, hdecided (by simp) hjudged]; exact h⟩
    | NeedMore n =>
      rw [hjudged] at h
      cases fill with
      | timed_out => cases h; cases hv
      | failed => cases h; cases hv
      | read bytes =>
        simp only at h
        split_ifs at h with hempty
        · cases h
          cases hv
        · obtain ⟨fills', hprefix, hsniffed⟩ := ih h (fun hnot hjudged => by
            split_ifs at hjudged with henough
            · exact hjudged
            · exact absurd hjudged.symm (hnot _)) (by
            rw [filled, List.map_nil, List.flatten_nil, List.append_nil])
          refine ⟨.read bytes :: fills', (List.prefix_cons_inj _).2 hprefix, ?_⟩
          rw [List.append_assoc] at hsniffed
          exact hsniffed

/-- Two sniffs of a stream that end in a verdict end in the same. -/
def Agree (s : List UInt8) : Prop :=
  ∀ f g : List Filled, filled f <+: s → filled g <+: s →
    (∀ fill ∈ f ++ g, fill.bytes.length ≤ FILL) → ∀ v w, sniff [] 0 f = some v →
      sniff [] 0 g = some w → v.verdict = true → w.verdict = true → v = w

theorem agree_of_settled (h : Settled s) : Agree s := by
  have hjudge : ∀ {f : List Filled} {v : Sniffed}, filled f <+: s → sniff [] 0 f = some v →
      v.verdict = true → ∃ a, (judge (s.take a)).sniffed = some v := by
    intro f v hf hsniff hv
    obtain ⟨fills', ⟨fills, rfl⟩, hsniffed⟩ := sniff_verdict hsniff hv
    refine ⟨(filled fills').length, ?_⟩
    have hprefix : filled fills' <+: s := by
      refine List.IsPrefix.trans ?_ hf
      rw [filled, filled, List.map_append, List.flatten_append]
      exact List.prefix_append _ _
    rwa [List.prefix_iff_eq_take.1 hprefix, List.nil_append] at hsniffed
  have hsame : ∀ {a b : ℕ} {v w : Sniffed}, a ≤ b → (judge (s.take a)).sniffed = some v →
      (judge (s.take b)).sniffed = some w → v = w := by
    intro a b v w hab hv hw
    have hdecided : ∀ n, judge (s.take a) ≠ .NeedMore n := by
      intro n hn
      rw [hn] at hv
      cases hv
    rw [h a b hab hdecided, hv] at hw
    exact Option.some_inj.1 hw
  intro f g hf hg _ v w hv hw hverdict hverdict'
  obtain ⟨a, ha⟩ := hjudge hf hv hverdict
  obtain ⟨b, hb⟩ := hjudge hg hw hverdict'
  rcases le_total a b with hab | hab
  · exact hsame hab ha hb
  · exact (hsame hab hb ha).symm

/-- A message cut into records is found, whatever comes after them. -/
theorem judge_bytes (hle : message.length ≤ MAX_PREFIX)
    (hparse : parse_client_hello message = some hello) (rs : List Record)
    (hcarried : carried rs = message) (more : List UInt8) :
    judge (bytes rs ++ more) = .Tls hello := by
  rcases List.eq_nil_or_concat rs with rfl | ⟨rs, r, rfl⟩
  · subst hcarried
    cases hparse
  · have hcarried' : carried rs ++ r.payload = message := by
      rw [← hcarried]
      simp [carried]
    have hbytes : bytes (rs ++ [r]) ++ more =
        bytes rs ++ (header r.minor r.payload.length ++ (r.payload ++ more)) := by
      simp [bytes, Record.bytes]
    have hwhole := @records_whole MAX_PREFIX 0 r.payload.length [] r.payload r.minor hello rs
      r.minor_le (List.length_pos_iff.1 r.pos) le_rfl r.le_max
      (by rw [hcarried']; exact hparse) (by rw [hcarried']; exact hle) more
    rw [List.concat_eq_append, hbytes, judge_records, hwhole]
    · rfl
    · cases rs <;> rfl

/-- **Sniffing and how the bytes arrive**: what is judged of a stream does not depend on how it is
cut, and stays, exactly where its ClientHello is not whole only past `MAX_PREFIX` bytes; and a
message of `MAX_PREFIX` bytes at most is found, however it is cut into records. -/
theorem sniff_settled (s : List UInt8) :
    (Agree s ∧ Bounded s ∧ Settled s ↔ ¬ Late s) ∧
    ∀ message hello, message.length ≤ MAX_PREFIX → parse_client_hello message = some hello →
      ∀ rs, carried rs = message → ∀ more, judge (bytes rs ++ more) = .Tls hello := by
  refine ⟨⟨?_, fun h => ?_⟩, fun message hello hle hparse rs hcarried more =>
    judge_bytes hle hparse rs hcarried more⟩
  · rintro ⟨-, -, hsettled⟩ hlate
    obtain ⟨n, hello, hat, hover⟩ := hlate
    obtain ⟨hother, htls⟩ := hat.judged hover
    have hsame := hsettled MAX_PREFIX n hover.le (by simp [hother])
    rw [hother, htls] at hsame
    cases hsame
  · have hsettled := settled_of_not_late h
    exact ⟨agree_of_settled hsettled, bounded s, hsettled⟩

/-! ### A ClientHello in full records -/

/-- A ClientHello of 65519 bytes where `suites` are 65476; it has no extensions. -/
def wide_hello (suites : List UInt8) : List UInt8 :=
  [CLIENT_HELLO] ++ ([0x00, 0xff, 0xeb] ++ ([0x03, 0x03] ++ (List.replicate 32 0 ++ ([0x00] ++
    ([0xff, 0xc4] ++ (suites ++ ([0x01] ++ [0x00])))))))

theorem length_wide_hello {suites : List UInt8} (h : suites.length = 65476) :
    (wide_hello suites).length = 65519 := by
  simp only [wide_hello, List.length_append, List.length_replicate, h, List.length_cons,
    List.length_nil]

theorem parse_wide_hello {suites : List UInt8} (h : suites.length = 65476) :
    parse_client_hello (wide_hello suites) = some ⟨none, []⟩ := by
  have hbytes : ∀ {n : ℕ} {bytes : List UInt8}, bytes.length = n → ∀ rest : List UInt8,
      Reader.take n (bytes ++ rest) = some (bytes, rest) := by
    rintro n bytes rfl rest
    exact Reader.take_append bytes rest
  have hbody : read_client_hello ([0x03, 0x03] ++ (List.replicate 32 0 ++ ([0x00] ++
      ([0xff, 0xc4] ++ (suites ++ ([0x01] ++ [0x00])))))) = some ⟨none, []⟩ := by
    have hversion := @hbytes 2 [0x03, 0x03] rfl
    have hrandom := @hbytes 32 (List.replicate 32 0) List.length_replicate
    have hsession := @Reader.number_append 1 [0x00] rfl
    have hnone : ∀ rest : List UInt8, Reader.take 0 rest = some ([], rest) := fun rest => rfl
    have hcount := @Reader.number_append 2 [0xff, 0xc4] rfl
    have hsuites := hbytes h
    have hcompression := @Reader.number_append 1 [0x01] rfl
    have hlast : Reader.take 1 [0x00] = some ([0x00], []) := rfl
    have hnumbers : BigEndian.ofBytes [0x00] = 0 ∧ BigEndian.ofBytes [0xff, 0xc4] = 65476 ∧
        BigEndian.ofBytes [0x01] = 1 := ⟨rfl, rfl, rfl⟩
    obtain ⟨hzero, hmany, hone⟩ := hnumbers
    simp only [read_client_hello, Reader.u8, Reader.u16, Option.bind_eq_bind, hversion, hrandom,
      hsession, hzero, hnone, hcount, hmany, hsuites, hcompression, hone, hlast, Option.bind_some]
    rfl
  have hcount := @Reader.number_append 3 [0x00, 0xff, 0xeb] rfl
  have hmany : BigEndian.ofBytes [0x00, 0xff, 0xeb] = 65515 := rfl
  have hwhole : ∀ body : List UInt8, body.length = 65515 →
      Reader.take 65515 body = some (body, []) := fun body hlen => by simpa using hbytes hlen []
  have hlength : (CLIENT_HELLO :: ([0x00, 0xff, 0xeb] ++ ([0x03, 0x03] ++ (List.replicate 32 0 ++
      ([0x00] ++ ([0xff, 0xc4] ++ (suites ++ ([0x01] ++ [0x00])))))))).length = 65519 :=
    length_wide_hello h
  rw [wide_hello, List.singleton_append, parse_client_hello, if_neg (by simp), hlength, Reader.u24,
    hcount, hmany, Option.bind_eq_bind, Option.bind_some]
  have htotal : ¬ 65515 + HANDSHAKE_HEADER ≠ 65519 := not_not.2 rfl
  have hbody_length : ([0x03, 0x03] ++ (List.replicate 32 0 ++ ([0x00] ++ ([0xff, 0xc4] ++
      (suites ++ ([0x01] ++ [0x00])))))).length = 65515 := by
    simp only [List.length_append, List.length_replicate, h, List.length_cons, List.length_nil]
  simp only
  rw [if_neg htotal, hwhole _ hbody_length, Option.bind_eq_bind, Option.bind_some]
  exact hbody

/-- A message in records of 16384 bytes, with one more for the rest of it. -/
def full_records (message : List UInt8) : List UInt8 :=
  header 0x03 16384 ++ (message.take 16384 ++
    (header 0x03 16384 ++ ((message.drop 16384).take 16384 ++
      (header 0x03 16384 ++ ((message.drop 32768).take 16384 ++
        (header 0x03 16367 ++ (message.drop 49152 ++ [])))))))

/-- The message is there once the records are. -/
theorem helloAt_full_records (hparse : parse_client_hello message = some hello)
    (hlength : message.length = 65519) : HelloAt (full_records message) 65539 hello := by
  have hpayload : ∀ a, a + 16384 ≤ 65519 → ((message.drop a).take 16384).length = 16384 := by
    intro a ha
    rw [List.length_take, List.length_drop]
    omega
  have hrecord : ∀ a, a + 16384 ≤ 65519 → ∃ r : Record, r.payload = (message.drop a).take 16384 ∧
      r.bytes = header 0x03 16384 ++ (message.drop a).take 16384 := by
    intro a ha
    have hlen := hpayload a ha
    exact ⟨⟨0x03, (message.drop a).take 16384, by decide, by omega, hlen.le⟩, rfl,
      congrArg (header 0x03 · ++ (message.drop a).take 16384) hlen⟩
  obtain ⟨r₁, hpayload₁, hbytes₁⟩ := hrecord 0 (by omega)
  obtain ⟨r₂, hpayload₂, hbytes₂⟩ := hrecord 16384 (by omega)
  obtain ⟨r₃, hpayload₃, hbytes₃⟩ := hrecord 32768 (by omega)
  have hlast : (message.drop 49152).length = 16367 := by
    rw [List.length_drop, hlength]
  have hcarried : carried [r₁, r₂, r₃] ++ message.drop 49152 = message := by
    have hsplit (a : ℕ) :
        (message.drop a).take 16384 ++ message.drop (a + 16384) = message.drop a := by
      rw [← List.drop_drop, List.take_append_drop]
    simp only [carried, List.map_cons, List.map_nil, List.flatten_cons, List.flatten_nil,
      List.append_nil, List.append_assoc, hpayload₁, hpayload₂, hpayload₃]
    rw [hsplit 32768, hsplit 16384, hsplit 0, List.drop_zero]
  refine ⟨[r₁, r₂, r₃], 0x03, 16367, message.drop 49152, [], ?_, by decide, ?_, hlast.le,
    by decide, ?_, ?_, ?_⟩
  · simp only [full_records, bytes, List.map_cons, List.map_nil, List.flatten_cons,
      List.flatten_nil, List.append_nil, List.append_assoc, hbytes₁, hbytes₂, hbytes₃,
      List.drop_zero]
  · rw [← List.length_pos_iff, hlast]
    decide
  · rw [hcarried]
    exact hparse
  · rw [hcarried, hlength]
    decide
  · simp only [bytes, List.map_cons, List.map_nil, List.flatten_cons, List.flatten_nil,
      List.append_nil, hbytes₁, hbytes₂, hbytes₃, List.length_append, length_header, hlast,
      hpayload 0 (by omega), hpayload 16384 (by omega), hpayload 32768 (by omega)]

/-- After the first fill the whole message is waited for, and a record's header. -/
theorem judge_first_fill (hparse : parse_client_hello message = some hello)
    (hlength : message.length = 65519) :
    judge ((full_records message).take 16384) = .NeedMore 65529 := by
  have htake : (full_records message).take 16384 = header 0x03 16384 ++ message.take 16379 := by
    rw [full_records, List.take_append, length_header,
      List.take_of_length_le (by rw [length_header]; decide), List.take_append_of_le_length,
      List.take_take]
    · rfl
    · rw [List.length_take, hlength]
      decide
  have hshort : (message.take 16379).length = 16379 := by
    rw [List.length_take, hlength]
    rfl
  have hwanted : wanted (message.take 16379) = 65519 := by
    have happend := @wanted_append (message.take 16379) (by rw [hshort]; decide)
      (message.drop 16379)
    rw [List.take_append_drop, (parse_client_hello_some hparse).2, hlength] at happend
    exact happend.symm
  have hmore : message.drop 16379 ≠ [] := by
    rw [ne_eq, List.drop_eq_nil_iff, hlength]
    decide
  have htold : told MAX_PREFIX (message.take 16379) = none :=
    told_beginning hparse (by rw [hlength]; decide) (List.take_append_drop 16379 message).symm hmore
  rw [htake, judge_records rfl,
    @records_header MAX_PREFIX 0 16384 [] 0x03 (by decide) (by decide) le_rfl,
    List.take_of_length_le (by rw [hshort]; decide), List.nil_append, htold]
  simp only
  rw [hshort, hwanted]
  rfl

/-- A stream in fills of these lengths. -/
def cut : List ℕ → List UInt8 → List Filled
  | [], _ => []
  | n :: cuts, bytes => .read (bytes.take n) :: cut cuts (bytes.drop n)

theorem filled_cut (cuts : List ℕ) (s : List UInt8) : filled (cut cuts s) <+: s := by
  induction cuts generalizing s with
  | nil => exact List.nil_prefix
  | cons n cuts ih =>
    have hprefix : s.take n ++ filled (cut cuts (s.drop n)) <+: s.take n ++ s.drop n :=
      (List.prefix_append_right_inj _).2 (ih (s.drop n))
    rw [List.take_append_drop] at hprefix
    exact hprefix

theorem cut_le_fill {cuts : List ℕ} (h : ∀ n ∈ cuts, n ≤ FILL) (s : List UInt8) :
    ∀ fill ∈ cut cuts s, fill.bytes.length ≤ FILL := by
  induction cuts generalizing s with
  | nil => exact fun fill hfill => absurd hfill List.not_mem_nil
  | cons n cuts ih =>
    intro fill hfill
    rcases List.mem_cons.1 hfill with rfl | hfill
    · exact (List.length_take_le _ _).trans (h n List.mem_cons_self)
    · exact ih (fun n hn => h n (List.mem_cons_of_mem _ hn)) (s.drop n) fill hfill

/-- A fill while more bytes are waited for. -/
theorem sniff_cut {a enough n m : ℕ} {cuts : List ℕ} (hn : 0 < n) (ha : a < s.length)
    (h : (if enough ≤ a then judge (s.take a) else .NeedMore enough) = .NeedMore m) :
    sniff (s.take a) enough (cut (n :: cuts) (s.drop a)) =
      sniff (s.take (a + n)) m (cut cuts (s.drop (a + n))) := by
  have hlength : (s.take a).length = a := List.length_take_of_le ha.le
  have hread : (s.drop a).take n ≠ [] := by
    rw [← List.length_pos_iff, List.length_take, List.length_drop]
    omega
  rw [cut, sniff, hlength, h]
  simp only
  rw [if_neg hread, ← List.take_add, List.drop_drop]

/-- A verdict on what is there. -/
theorem sniff_judged {buffered : List UInt8} {enough : ℕ} {v : Sniffed}
    (h : enough ≤ buffered.length) (hv : (judge buffered).sniffed = some v) (fills : List Filled) :
    sniff buffered enough fills = some v := by
  rw [sniff, if_pos h]
  cases hjudged : judge buffered with
  | NeedMore m => rw [hjudged] at hv; cases hv
  | Tls hello => rw [hjudged] at hv; exact hv
  | Http => rw [hjudged] at hv; exact hv
  | Other => rw [hjudged] at hv; exact hv

/-- A late ClientHello is missed by a sniff that reads `MAX_PREFIX` bytes, and found by one that
reads a few bytes less first. -/
theorem HelloAt.sniffs (h : HelloAt s 65539 hello)
    (hfirst : judge (s.take 16384) = .NeedMore 65529) :
    sniff [] 0 (cut [16384, 16384, 16384, 16384, 3] s) = some .Other ∧
      sniff [] 0 (cut [16384, 16384, 16384, 16376, 11] s) = some (.Tls hello) := by
  have hlength := h.le_length
  have hstart : judge (s.take 0) = .NeedMore 1 := rfl
  obtain ⟨hother, htls⟩ := h.judged (by decide)
  have hthree : ∀ cuts, sniff [] 0 (cut (16384 :: 16384 :: 16384 :: cuts) s) =
      sniff (s.take 49152) 65529 (cut cuts (s.drop 49152)) := by
    intro cuts
    refine (sniff_cut (a := 0) (by decide) (by omega) (by rw [if_pos le_rfl, hstart])).trans ?_
    refine (sniff_cut (a := 16384) (by decide) (by omega)
      (by rw [if_pos (by decide), hfirst])).trans ?_
    exact sniff_cut (by decide) (by omega) (if_neg (by decide))
  rw [hthree, hthree]
  constructor
  · refine (sniff_cut (a := 49152) (by decide) (by omega) (if_neg (by decide))).trans ?_
    have hlimit : MAX_PREFIX = 65536 := rfl
    refine sniff_judged ?_ (congrArg Judged.sniffed hother) _
    rw [List.length_take_of_le (by omega)]
    decide
  · refine (sniff_cut (a := 49152) (by decide) (by omega) (if_neg (by decide))).trans ?_
    refine (sniff_cut (a := 65528) (by decide) (by omega) (if_neg (by decide))).trans ?_
    refine sniff_judged ?_ (congrArg Judged.sniffed htls) _
    rw [List.length_take_of_le (by omega)]
    decide

/-- **A late ClientHello**, cut into fills in two ways: one sniff ends before it is whole, and one
finds it. -/
theorem sniffs_disagree : ∃ s, s = full_records (wide_hello (List.replicate 65476 0)) ∧
    sniff [] 0 (cut [16384, 16384, 16384, 16384, 3] s) = some .Other ∧
    sniff [] 0 (cut [16384, 16384, 16384, 16376, 11] s) = some (.Tls ⟨none, []⟩) ∧
    ¬ Agree s := by
  have hmessage := parse_wide_hello (@List.length_replicate UInt8 65476 0)
  have hlength := length_wide_hello (@List.length_replicate UInt8 65476 0)
  obtain ⟨hother, htls⟩ := (helloAt_full_records hmessage hlength).sniffs
    (judge_first_fill hmessage hlength)
  refine ⟨_, rfl, hother, htls, fun hagree => ?_⟩
  have hcuts : ∀ n ∈ [16384, 16384, 16384, 16384, 3] ++ [16384, 16384, 16384, 16376, 11],
      n ≤ FILL := by decide
  have hsame := hagree _ _ (filled_cut _ _) (filled_cut _ _) (fun fill hfill =>
    (List.mem_append.1 hfill).elim
      (cut_le_fill (fun n hn => hcuts n (List.mem_append_left _ hn)) _ fill)
      (cut_le_fill (fun n hn => hcuts n (List.mem_append_right _ hn)) _ fill))
    _ _ hother htls rfl rfl
  cases hsame

end Sniffing

end Rurge
