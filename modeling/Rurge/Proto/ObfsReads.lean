import Rurge.Proto.ObfsWrites

/-!
# What comes in through simple-obfs

Whatever the reads of the stream below cut the server's answer into, and whatever the buffers, what
is handed over is the payload of the answer, each byte once and in order.  The end is given where
the answer may end, a close anywhere else is an error, and nothing else is (`reads_spec`,
`simple_obfs_spec`).
-/

namespace Rurge

namespace SimpleObfs

open BigEndian (toBytes)
open Runs

/-! ### The answer of a server -/

/-- A record of a version and of a size that the client accepts. -/
structure ServerRecord where
  minor : UInt8
  body : Bytes
  version : 0x01 ≤ minor ∧ minor ≤ 0x04
  sized : body.length ≤ MAX_RECORD

namespace ServerRecord

def header (phase : Phase) (r : ServerRecord) : Bytes :=
  [phase.kind, 0x03, r.minor] ++ put_u16 r.body.length

/-- The records from `phase` on. -/
def encode (phase : Phase) : List ServerRecord → Bytes
  | [] => []
  | r :: rest => r.header phase ++ r.body ++ encode phase.next rest

/-- The data in the records from `phase` on. -/
def payload (phase : Phase) : List ServerRecord → Bytes
  | [] => []
  | r :: rest => (if phase.delivers then r.body else []) ++ payload phase.next rest

theorem encode_append (phase : Phase) (rs rs' : List ServerRecord) :
    encode phase (rs ++ rs') = encode phase rs ++ encode (Phase.next^[rs.length] phase) rs' := by
  induction rs generalizing phase with
  | nil => rfl
  | cons r rs ih =>
    simp only [List.cons_append, encode, ih, List.append_assoc, List.length_cons,
      Function.iterate_succ_apply]

theorem payload_append (phase : Phase) (rs rs' : List ServerRecord) :
    payload phase (rs ++ rs') = payload phase rs ++ payload (Phase.next^[rs.length] phase) rs' := by
  induction rs generalizing phase with
  | nil => rfl
  | cons r rs ih =>
    rw [List.cons_append, payload, payload, ih, List.append_assoc, List.length_cons,
      Function.iterate_succ_apply]

@[simp] theorem length_header (phase : Phase) (r : ServerRecord) :
    (r.header phase).length = HEADER_LEN := by
  rw [header, List.length_append, length_put_u16]
  rfl

theorem begin_record_header (phase : Phase) (r : ServerRecord) :
    Records.begin_record phase (r.header phase) =
      .ok ⟨phase.next, [], r.body.length, phase.delivers, by decide⟩ := by
  have hlen : BigEndian.ofBytes (put_u16 r.body.length) = r.body.length := by
    rw [put_u16, BigEndian.ofBytes_toBytes]
    have hsized := r.sized
    unfold MAX_RECORD at hsized
    exact Nat.mod_eq_of_lt (by omega)
  have haccepted : record_len (r.header phase) phase.kind = some r.body.length := by
    rw [header]
    generalize hbytes : put_u16 r.body.length = bytes at hlen
    have htwo : bytes.length = 2 := by rw [← hbytes, length_put_u16]
    obtain ⟨high, low, rfl⟩ := List.length_eq_two.1 htwo
    simp only [List.cons_append, List.nil_append, record_len, hlen]
    rw [if_pos ⟨trivial, trivial, r.version, r.sized⟩]
  rw [Records.begin_record, haccepted]

end ServerRecord

namespace Phase

/-- How many records come before the data may end. -/
def before : Phase → ℕ
  | ServerHello => 3
  | ChangeCipherSpec => 2
  | FirstData => 1
  | AppData => 0

theorem iterate_next {n : ℕ} : next^[n] .ServerHello = .AppData → 3 ≤ n := by
  intro h
  by_contra hlt
  interval_cases n <;> cases h

theorem iterate_next_zero {n : ℕ} (h : next^[n] .ServerHello = .ServerHello) : n = 0 := by
  cases n with
  | zero => rfl
  | succ n =>
    rw [Function.iterate_succ_apply'] at h
    cases hphase : next^[n] .ServerHello <;> simp [hphase, next] at h

end Phase

/-- What an obfs server answers: a head that is accepted and raw bytes, or the records of a
handshake with the first data, and the data records after them. -/
inductive Answer : Kind → Type
  | Http {uri host : Str} (head payload : Bytes) (whole : head_end head = some head.length)
    (accepted : is_upgrade_answer head = true) (sized : head.length ≤ MAX_RESPONSE_HEAD) :
    Answer (.Http uri host)
  | Tls {host : Str} (records : List ServerRecord) (enough : 3 ≤ records.length) :
    Answer (.Tls host)

namespace Answer

variable {kind : Kind}

def bytes : Answer kind → Bytes
  | .Http head payload .. => head ++ payload
  | .Tls records _ => ServerRecord.encode .ServerHello records

def payload : Answer kind → Bytes
  | .Http _ payload .. => payload
  | .Tls records _ => ServerRecord.payload .ServerHello records

end Answer

/-! ### Inside the records -/

/-- What is still to be gone through is `rest`, with the data `due` in it: what is left of a body
and the records after it, the last ones of `all`. -/
structure Records.Awaits (all : List ServerRecord) (r : Records) (rest due : Bytes) (body : Bytes)
    (records : List ServerRecord) : Prop where
  left : body.length = r.left
  header : r.left ≠ 0 → r.header = []
  follows : r.header ++ rest = body ++ ServerRecord.encode r.phase records
  owes : due = (if r.deliver then body else []) ++ ServerRecord.payload r.phase records
  enough : r.phase.before ≤ records.length
  start : r.phase = .ServerHello → body = []
  last : ∃ done, all = done ++ records ∧ r.phase = Phase.next^[done.length] .ServerHello

namespace Records

variable {all : List ServerRecord} {r : Records} {rest due body : Bytes}
  {records : List ServerRecord}

theorem awaits_new {records : List ServerRecord} (h : 3 ≤ records.length) :
    Records.new.Awaits records (ServerRecord.encode .ServerHello records)
      (ServerRecord.payload .ServerHello records) [] records :=
  ⟨rfl, fun h => absurd rfl h, rfl, rfl, h, fun _ => rfl, [], rfl, rfl⟩

/-- Some bytes of the body are gone through. -/
theorem Awaits.gone {n : ℕ} (h : r.Awaits all rest due body records) (hleft : 0 < r.left)
    (hn : n ≤ r.left) :
    rest.take n = body.take n ∧
      Awaits all { r with left := r.left - n } (rest.drop n)
        ((if r.deliver then body.drop n else []) ++ ServerRecord.payload r.phase records)
        (body.drop n) records := by
  have hheader := h.header hleft.ne'
  have hrest := h.follows
  rw [hheader, List.nil_append] at hrest
  have hle : n ≤ body.length := h.left ▸ hn
  refine ⟨by rw [hrest, List.take_append_of_le_length hle], ?_, fun _ => hheader, ?_, rfl,
    h.enough, fun hphase => ?_, h.last⟩
  · rw [List.length_drop, h.left]
  · simp only [hheader, List.nil_append]
    rw [hrest, List.drop_append_of_le_length hle]
  · have hnil := h.start hphase
    have := h.left
    rw [hnil, List.length_nil] at this
    omega

/-- What is left of the header and of what comes after it. -/
theorem Awaits.header_cons (h : r.Awaits all rest due body records) (hleft : r.left = 0)
    (hrest : rest ≠ []) :
    ∃ record records', records = record :: records' ∧
      r.header ++ rest =
        record.header r.phase ++ (record.body ++ ServerRecord.encode r.phase.next records') := by
  have hbody : body = [] := List.eq_nil_of_length_eq_zero (h.left.trans hleft)
  have heq := h.follows
  rw [hbody, List.nil_append] at heq
  cases records with
  | nil => exact absurd (List.append_eq_nil_iff.1 heq).2 hrest
  | cons record records' =>
    exact ⟨record, records', rfl, by rw [heq, ServerRecord.encode, List.append_assoc]⟩

/-- Some bytes of a header are gone through, and there are more. -/
theorem Awaits.shorter {buffered later : Bytes} {n : ℕ}
    (h : r.Awaits all (buffered ++ later) due body records) (hleft : ¬0 < r.left)
    (hshort : (r.header ++ buffered.take n).length < HEADER_LEN) :
    Awaits all { r with header := r.header ++ buffered.take n, short := hshort }
      (buffered.drop n ++ later) due body records := by
  have hsame : (r.header ++ buffered.take n) ++ (buffered.drop n ++ later) =
      r.header ++ (buffered ++ later) := by
    rw [List.append_assoc, ← List.append_assoc (buffered.take n), List.take_append_drop]
  refine ⟨h.left, fun hne => absurd (Nat.pos_of_ne_zero hne) hleft, hsame.trans h.follows, h.owes,
    h.enough, h.start, h.last⟩

/-- A header is whole. -/
theorem Awaits.whole {buffered later : Bytes} {n : ℕ}
    (h : r.Awaits all (buffered ++ later) due body records) (hleft : ¬0 < r.left)
    (hwhole : (r.header ++ buffered.take n).length = HEADER_LEN) :
    ∃ record records' next, begin_record r.phase (r.header ++ buffered.take n) = .ok next ∧
      next.Awaits all (buffered.drop n ++ later) due record records' := by
  have hleft := Nat.eq_zero_of_not_pos hleft
  have hne : buffered ++ later ≠ [] := by
    intro hnil
    have := r.short
    rw [(List.append_eq_nil_iff.1 hnil).1, List.take_nil, List.append_nil] at hwhole
    omega
  obtain ⟨record, records', rfl, heq⟩ := h.header_cons hleft hne
  have hbody : body = [] := List.eq_nil_of_length_eq_zero (h.left.trans hleft)
  rw [← List.take_append_drop n buffered, List.append_assoc, ← List.append_assoc] at heq
  obtain ⟨hheader, hdrop⟩ := List.append_inj heq (by rw [hwhole, record.length_header])
  refine ⟨record.body, records', _, by rw [hheader, record.begin_record_header], ?_⟩
  refine ⟨rfl, fun _ => rfl, hdrop, ?_, ?_, fun hphase => ?_, ?_⟩
  · rw [h.owes, hbody, ServerRecord.payload]
    simp
  · have := h.enough
    rw [List.length_cons] at this
    cases hphase : r.phase <;> simp only [hphase, Phase.before, Phase.next] at * <;> omega
  · cases hnext : r.phase <;> simp [hnext, Phase.next] at hphase
  · obtain ⟨done, rfl, hphase⟩ := h.last
    refine ⟨done ++ [record], by simp, ?_⟩
    rw [List.length_append, List.length_singleton, Function.iterate_succ_apply', ← hphase]

/-- What `chew` makes of a buffer. -/
inductive Outcome (all : List ServerRecord) (later due : Bytes) : Chewed → Prop
  | Give {bytes buffered due' body : Bytes} {r : Records} {records : List ServerRecord}
    (some : bytes ≠ []) (owes : due = bytes ++ due')
    (awaits : r.Awaits all (buffered ++ later) due' body records) :
    Outcome all later due (.Give bytes r buffered)
  | More {r : Records} {body : Bytes} {records : List ServerRecord}
    (awaits : r.Awaits all later due body records) : Outcome all later due (.More r)

/-- A header that is not short of bytes is whole. -/
theorem length_header (r : Records) {buffered : Bytes}
    (h : ¬(r.header ++
      buffered.take (min (HEADER_LEN - r.header.length) buffered.length)).length < HEADER_LEN) :
    (r.header ++
      buffered.take (min (HEADER_LEN - r.header.length) buffered.length)).length = HEADER_LEN := by
  have hshort := r.short
  rw [List.length_append, List.length_take] at h ⊢
  omega

/-- **The bytes in the buffer give the data that is due**, whatever they are cut into. -/
theorem chew_spec (room : ℕ) (hroom : 0 < room) {buffered later : Bytes}
    (h : r.Awaits all (buffered ++ later) due body records) :
    Outcome all later due (r.chew room buffered) := by
  fun_induction chew r room buffered generalizing due body records with
  | case1 r => exact .More h
  | case2 =>
    rename_i r buffered hnone hleft n hdeliver m
    have hm : m ≤ min r.left buffered.length := min_le_left _ _
    have hpos : 0 < m := lt_min (lt_min hleft (List.length_pos_iff.2 hnone)) hroom
    obtain ⟨htaken, hgone⟩ := h.gone hleft (hm.trans (min_le_left _ _))
    have hfits : m ≤ buffered.length := hm.trans (min_le_right _ _)
    rw [List.take_append_of_le_length hfits] at htaken
    rw [List.drop_append_of_le_length hfits] at hgone
    refine .Give ?_ ?_ hgone
    · intro hnil
      rcases List.take_eq_nil_iff.1 hnil with hzero | hnil
      · exact hpos.ne' hzero
      · exact hnone hnil
    · rw [h.owes, hdeliver, if_pos rfl, if_pos rfl, htaken, ← List.append_assoc,
        List.take_append_drop]
  | case3 =>
    rename_i r buffered hnone hleft n hdeliver ih
    obtain ⟨-, hgone⟩ := h.gone hleft (min_le_left r.left buffered.length)
    rw [List.drop_append_of_le_length (min_le_right _ _), if_neg hdeliver] at hgone
    have hdue : due = [] ++ ServerRecord.payload r.phase records := by
      rw [h.owes, if_neg hdeliver]
    rw [hdue]
    exact ih hgone
  | case4 =>
    rename_i hleft n header hshort ih
    exact ih (h.shorter hleft hshort)
  | case5 =>
    rename_i r buffered hnone hleft n header hwhole record hrecord ih
    obtain ⟨body', records', next, hnext, hawaits⟩ := h.whole hleft (r.length_header hwhole)
    obtain rfl := Except.ok.inj (hrecord.symm.trans hnext)
    exact ih hawaits
  | case6 =>
    rename_i r buffered hnone hleft n header hwhole message hrecord
    obtain ⟨body', records', next, hnext, -⟩ := h.whole hleft (r.length_header hwhole)
    cases hrecord.symm.trans hnext

/-- The end of what comes, where the records may end: nothing came, or what came is whole. -/
theorem Awaits.ends (h : r.Awaits all rest due body records) (hend : r.at_end = true) :
    rest = ServerRecord.encode .ServerHello all ∨
      ∃ done, 3 ≤ done.length ∧
        ServerRecord.encode .ServerHello done ++ rest = ServerRecord.encode .ServerHello all ∧
        ServerRecord.payload .ServerHello done ++ due = ServerRecord.payload .ServerHello all := by
  obtain ⟨done, rfl, hphase⟩ := h.last
  simp only [at_end, Bool.or_eq_true, Bool.and_eq_true, decide_eq_true_eq] at hend
  have hfollows := h.follows
  rcases hend with ⟨hstart, hheader⟩ | ⟨⟨hdata, hheader⟩, hleft⟩
  · have hnone : done = [] :=
      List.eq_nil_of_length_eq_zero (Phase.iterate_next_zero (hphase ▸ hstart))
    rw [hheader, h.start hstart, hstart, List.nil_append, List.nil_append] at hfollows
    exact .inl (by rw [hfollows, hnone, List.nil_append])
  · have hbody : body = [] := List.eq_nil_of_length_eq_zero (h.left.trans hleft)
    rw [hheader, hbody, List.nil_append, List.nil_append] at hfollows
    have hdue := h.owes
    rw [hbody, ite_self, List.nil_append] at hdue
    refine .inr ⟨done, Phase.iterate_next (hphase ▸ hdata), ?_, ?_⟩
    · rw [ServerRecord.encode_append, ← hphase, hfollows]
    · rw [ServerRecord.payload_append, ← hphase, hdue]

/-- Nothing is missing: the records may end, and nothing is due. -/
theorem Awaits.at_end (h : r.Awaits all [] due body records) : r.at_end = true ∧ due = [] := by
  have hfollows := h.follows
  rw [List.append_nil] at hfollows
  have hbody : body = [] := by
    by_contra hne
    have hleft : r.left ≠ 0 := h.left ▸ fun hzero => hne (List.eq_nil_of_length_eq_zero hzero)
    rw [h.header hleft] at hfollows
    exact hne (List.append_eq_nil_iff.1 hfollows.symm).1
  have hleft : r.left = 0 := by rw [← h.left, hbody, List.length_nil]
  cases records with
  | cons record records =>
    have hshort := r.short
    rw [hfollows, hbody, List.nil_append, ServerRecord.encode, List.append_assoc,
      List.length_append, ServerRecord.length_header] at hshort
    omega
  | nil =>
    rw [hbody] at hfollows
    have henough := h.enough
    have hdata : r.phase = .AppData := by
      cases hphase : r.phase <;> simp [hphase, Phase.before] at henough ⊢
    refine ⟨by simp [Records.at_end, hdata, hleft, hfollows, ServerRecord.encode], ?_⟩
    rw [h.owes, hbody, ite_self]
    rfl

end Records

/-! ### The head of an answer -/

theorem head_end_le {data : Bytes} {n : ℕ} (h : head_end data = some n) :
    4 ≤ n ∧ n ≤ data.length := by
  induction data generalizing n with
  | nil => cases h
  | cons b data ih =>
    rw [head_end] at h
    split_ifs at h with hcrlf
    · obtain rfl := Option.some.inj h
      have hlength := congrArg List.length hcrlf
      rw [List.length_take] at hlength
      exact ⟨le_rfl, by simpa using hlength⟩
    · obtain ⟨m, hm, rfl⟩ := Option.map_eq_some_iff.1 h
      have := ih hm
      rw [List.length_cons]
      omega

theorem head_end_append {data : Bytes} {n : ℕ} (h : head_end data = some n) (rest : Bytes) :
    head_end (data ++ rest) = some n := by
  induction data generalizing n with
  | nil => cases h
  | cons b data ih =>
    have hle := (head_end_le h).1.trans (head_end_le h).2
    have htake : (b :: (data ++ rest)).take 4 = (b :: data).take 4 := by
      rw [← List.cons_append, List.take_append_of_le_length hle]
    rw [head_end] at h
    rw [List.cons_append, head_end, htake]
    split_ifs at h ⊢ with hcrlf
    · exact h
    · obtain ⟨m, hm, rfl⟩ := Option.map_eq_some_iff.1 h
      rw [ih hm, Option.map_some]

/-- Part of an answer with a head: the head is found when it is there. -/
theorem head_end_of_append {head payload buffered later : Bytes}
    (whole : head_end head = some head.length) (h : buffered ++ later = head ++ payload) :
    head_end buffered = some head.length ∧ buffered.take head.length = head ∧
        buffered.drop head.length ++ later = payload ∨
      head_end buffered = none ∧ buffered.length < head.length := by
  by_cases hle : head.length ≤ buffered.length
  · have htake : buffered.take head.length = head := by
      rw [← List.take_append_of_le_length hle, h, List.take_left]
    have hdrop : buffered.drop head.length ++ later = payload := by
      rw [← List.drop_append_of_le_length hle, h, List.drop_left]
    refine .inl ⟨?_, htake, hdrop⟩
    rw [← List.take_append_drop head.length buffered, htake]
    exact head_end_append whole _
  · refine .inr ⟨?_, Nat.lt_of_not_le hle⟩
    cases hfound : head_end buffered with
    | none => rfl
    | some n =>
      have hsame := (head_end_append hfound later).symm.trans (h ▸ head_end_append whole payload)
      have hn := (head_end_le hfound).2
      rw [Option.some.inj hsame] at hn
      exact absurd hn hle

/-! ### A read -/

/-- The reader in the middle of an answer: behind its buffer comes `later`, and `due` is the data
that is to be handed over. -/
inductive Follows : {kind : Kind} → Answer kind → Reader → Bytes → Bytes → Prop
  | Head {uri host : Str} {head payload buffered later : Bytes}
    {whole : head_end head = some head.length} {accepted : is_upgrade_answer head = true}
    {sized : head.length ≤ MAX_RESPONSE_HEAD} (answer : buffered ++ later = head ++ payload)
    (fits : buffered.length ≤ MAX_RESPONSE_HEAD) :
    @Follows (.Http uri host) (.Http head payload whole accepted sized) ⟨.HttpHead, buffered⟩ later
      payload
  | Raw {uri host : Str} {head payload buffered later gone : Bytes}
    {whole : head_end head = some head.length} {accepted : is_upgrade_answer head = true}
    {sized : head.length ≤ MAX_RESPONSE_HEAD} (answer : gone ++ (buffered ++ later) = payload) :
    @Follows (.Http uri host) (.Http head payload whole accepted sized) ⟨.Raw, buffered⟩ later
      (buffered ++ later)
  | Records {host : Str} {all records : List ServerRecord} {enough : 3 ≤ all.length}
    {r : Records} {buffered later due body : Bytes}
    (awaits : r.Awaits all (buffered ++ later) due body records) :
    @Follows (.Tls host) (.Tls all enough) ⟨.Records r, buffered⟩ later due

section

variable {kind : Kind}

/-- What a read makes of an answer: `coming` is what comes of it, and `missing` does not. -/
inductive Read (answer : Answer kind) (coming missing due : Bytes) (answers : List Gave) :
    Reader × Bytes × Poll Bytes → Prop
  | Pending {r : Reader} {coming' : Bytes} (follows : Follows answer r (coming' ++ missing) due)
    (suffix : coming' <:+ coming) (waits : .Pending ∈ answers ∨ answers.length ≤ coming.length) :
    Read answer coming missing due answers (r, coming', .Pending)
  | Give {r : Reader} {coming' bytes due' : Bytes}
    (follows : Follows answer r (coming' ++ missing) due') (suffix : coming' <:+ coming)
    (some : bytes ≠ []) (gives : due = bytes ++ due') :
    Read answer coming missing due answers (r, coming', .Ready (.ok bytes))
  | End {r : Reader} (follows : Follows answer r missing due)
    (ends : missing = answer.bytes ∨ ∃ whole : Answer kind,
      whole.bytes ++ missing = answer.bytes ∧ whole.payload ++ due = answer.payload)
    (all : missing = [] → due = []) :
    Read answer coming missing due answers (r, [], .Ready (.ok []))
  | Cut {r : Reader} {message : String} (follows : Follows answer r missing due)
    (cut : missing ≠ []) :
    Read answer coming missing due answers (r, [], .Ready (.error ⟨.UnexpectedEof, message⟩))

variable {answer : Answer kind} {coming missing due : Bytes}

theorem Read.later {answers : List Gave} {coming' : Bytes} {n : ℕ}
    {result : Reader × Bytes × Poll Bytes}
    (h : Read answer coming' missing due answers result) (hsuffix : coming' <:+ coming)
    (hshort : coming'.length < coming.length) :
    Read answer coming missing due (.Some n :: answers) result := by
  cases h with
  | Pending follows suffix waits =>
    refine .Pending follows (suffix.trans hsuffix) ?_
    rcases waits with hpending | hlength
    · exact .inl (List.mem_cons_of_mem _ hpending)
    · exact .inr (by rw [List.length_cons]; omega)
  | Give follows suffix some gives => exact .Give follows (suffix.trans hsuffix) some gives
  | End follows ends all => exact .End follows ends all
  | Cut follows cut => exact .Cut follows cut

/-- What the stream below gives. -/
theorem fill_spec {limit : ℕ} (hlimit : 0 < limit) (coming : Bytes) (n : ℕ) :
    (fill limit coming n).1 ++ (fill limit coming n).2 = coming ∧
      (fill limit coming n).1.length ≤ limit ∧
      ((fill limit coming n).1 = [] → coming = []) := by
  refine ⟨List.take_append_drop _ _, ?_, fun hnil => ?_⟩
  · exact (List.length_take_le _ _).trans (min_le_right _ _)
  · rcases List.take_eq_nil_iff.1 hnil with hzero | hnil
    · omega
    · exact hnil

theorem fill_shorter {limit n : ℕ} {coming : Bytes} (h : (fill limit coming n).1 ≠ []) :
    (fill limit coming n).2 <:+ coming ∧ (fill limit coming n).2.length < coming.length := by
  refine ⟨List.drop_suffix _ _, ?_⟩
  have hpos := List.length_pos_iff.2 h
  simp only [fill, List.length_take, List.length_drop] at hpos ⊢
  omega

end

section

variable {uri host : Str} {head payload coming missing : Bytes}
  {whole : head_end head = some head.length} {accepted : is_upgrade_answer head = true}
  {sized : head.length ≤ MAX_RESPONSE_HEAD}

/-- Behind the head. -/
theorem poll_raw_spec {room : ℕ} (hroom : 0 < room) {gone buffered : Bytes}
    (h : gone ++ (buffered ++ (coming ++ missing)) = payload) (answers : List Gave) :
    Read (.Http head payload whole accepted sized : Answer (.Http uri host)) coming missing
      (buffered ++ (coming ++ missing)) answers
      (Reader.poll_raw room buffered coming answers) := by
  unfold Reader.poll_raw
  split_ifs with hbuffered
  · have hraw : gone ++ buffered.take room ++ (buffered.drop room ++ (coming ++ missing)) =
        payload := by
      rw [List.append_assoc, ← List.append_assoc (buffered.take room), List.take_append_drop, h]
    refine .Give (.Raw hraw) List.suffix_rfl ?_ ?_
    · intro hnil
      rcases List.take_eq_nil_iff.1 hnil with hzero | hnil
      · exact hroom.ne' hzero
      · exact hbuffered hnil
    · rw [← List.append_assoc (buffered.take room), List.take_append_drop]
  · obtain rfl := not_not.1 hbuffered
    rcases answers with - | ⟨- | n, answers⟩
    · exact .Pending (.Raw h) List.suffix_rfl (.inr (Nat.zero_le _))
    · exact .Pending (.Raw h) List.suffix_rfl (.inl List.mem_cons_self)
    · obtain ⟨hcoming, -, hnone⟩ := fill_spec hroom coming n
      by_cases hnil : (fill room coming n).1 = []
      · obtain rfl := hnone hnil
        have hempty : (fill room [] n).2 = [] := List.drop_nil
        simp only [hnil, hempty]
        exact .End (.Raw h) (.inr ⟨.Http head gone whole accepted sized, by
          rw [Answer.bytes, Answer.bytes, List.append_assoc]
          simpa using h, h⟩) id
      · have hraw : gone ++ (fill room coming n).1 ++ ([] ++ ((fill room coming n).2 ++ missing)) =
            payload := by
          rw [List.nil_append, List.append_assoc, ← List.append_assoc (fill room coming n).1,
            hcoming]
          exact h
        refine .Give (.Raw hraw) (fill_shorter hnil).1 hnil ?_
        rw [List.nil_append, List.nil_append, ← List.append_assoc, hcoming]

/-- The head is there. -/
theorem poll_head_found {room : ℕ} (hroom : 0 < room) {buffered : Bytes}
    (hfound : head_end buffered = some head.length) (htake : buffered.take head.length = head)
    (hdrop : buffered.drop head.length ++ (coming ++ missing) = payload) (answers : List Gave) :
    Read (.Http head payload whole accepted sized : Answer (.Http uri host)) coming missing
      payload answers (Reader.poll_head room buffered coming answers) := by
  have hraw : Read (.Http head payload whole accepted sized : Answer (.Http uri host)) coming
      missing (buffered.drop head.length ++ (coming ++ missing)) answers
      (Reader.poll_raw room (buffered.drop head.length) coming answers) :=
    poll_raw_spec hroom
      (show [] ++ (buffered.drop head.length ++ (coming ++ missing)) = payload from hdrop) answers
  rw [hdrop] at hraw
  unfold Reader.poll_head
  simp only [hfound, htake, accepted, if_true]
  exact hraw

/-- In the head. -/
theorem poll_head_spec {room : ℕ} (hroom : 0 < room) (answers : List Gave) {buffered : Bytes}
    (h : buffered ++ (coming ++ missing) = head ++ payload)
    (hfits : buffered.length ≤ MAX_RESPONSE_HEAD) :
    Read (.Http head payload whole accepted sized : Answer (.Http uri host)) coming missing
      payload answers (Reader.poll_head room buffered coming answers) := by
  induction answers generalizing buffered coming with
  | nil =>
    rcases head_end_of_append whole h with ⟨hfound, htake, hdrop⟩ | ⟨hnone, hshort⟩
    · exact poll_head_found hroom hfound htake hdrop []
    · have hspace : buffered.length ≠ MAX_RESPONSE_HEAD := by omega
      unfold Reader.poll_head
      simp only [hnone, if_neg hspace]
      exact .Pending (.Head h hfits) List.suffix_rfl (.inr (Nat.zero_le _))
  | cons answer answers ih =>
    rcases head_end_of_append whole h with ⟨hfound, htake, hdrop⟩ | ⟨hnone, hshort⟩
    · exact poll_head_found hroom hfound htake hdrop _
    have hspace : buffered.length ≠ MAX_RESPONSE_HEAD := by omega
    unfold Reader.poll_head
    simp only [hnone, if_neg hspace]
    cases answer with
    | Pending => exact .Pending (.Head h hfits) List.suffix_rfl (.inl List.mem_cons_self)
    | Some n =>
      have hlimit : 0 < MAX_RESPONSE_HEAD - buffered.length := by omega
      obtain ⟨hcoming, hlength, hend⟩ := fill_spec hlimit coming n
      simp only
      split_ifs with hnil hnothing
      · -- the end before the first byte
        obtain rfl := hend hnil
        subst hnothing
        refine .End (.Head h hfits) (.inl h) ?_
        rintro rfl
        exact (List.append_eq_nil_iff.1 h.symm).2
      · -- the end in the middle of the head
        obtain rfl := hend hnil
        refine .Cut (.Head h hfits) ?_
        rintro rfl
        have hlengths := congrArg List.length h
        simp only [List.length_append, List.length_nil] at hlengths
        omega
      · obtain ⟨hsuffix, hless⟩ := fill_shorter hnil
        refine Read.later (ih ?_ ?_) hsuffix hless
        · rw [← h, List.append_assoc, ← List.append_assoc (fill _ coming n).1, hcoming]
        · rw [List.length_append]
          omega

end

/-- Inside the records. -/
theorem poll_records_spec {host : Str} {all : List ServerRecord} {enough : 3 ≤ all.length}
    {room : ℕ} (hroom : 0 < room) (answers : List Gave) {coming missing due buffered body : Bytes}
    {r : Records} {records : List ServerRecord}
    (h : r.Awaits all (buffered ++ (coming ++ missing)) due body records) :
    Read (.Tls all enough : Answer (.Tls host)) coming missing due answers
      (Reader.poll_records room r buffered coming answers) := by
  induction answers generalizing buffered coming r body records with
  | nil =>
    have hchewed := Records.chew_spec room hroom h
    unfold Reader.poll_records
    generalize r.chew room buffered = chewed at hchewed
    cases hchewed with
    | Give some owes awaits => exact .Give (.Records awaits) List.suffix_rfl some owes
    | More awaits =>
      exact .Pending (.Records awaits) List.suffix_rfl (.inr (Nat.zero_le _))
  | cons answer answers ih =>
    have hchewed := Records.chew_spec room hroom h
    unfold Reader.poll_records
    generalize r.chew room buffered = chewed at hchewed
    cases hchewed with
    | Give some owes awaits => exact .Give (.Records awaits) List.suffix_rfl some owes
    | @More r body records awaits =>
      cases answer with
      | Pending =>
        exact .Pending (.Records awaits) List.suffix_rfl (.inl List.mem_cons_self)
      | Some n =>
        obtain ⟨hcoming, hlength, hend⟩ := fill_spec (show 0 < MAX_RECORD by decide) coming n
        by_cases hnil : (fill MAX_RECORD coming n).1 = []
        · obtain rfl := hend hnil
          simp only [if_pos hnil]
          split_ifs with hends
          · refine .End (.Records awaits) ?_ ?_
            swap
            · rintro rfl
              exact awaits.at_end.2
            rcases awaits.ends hends with hnone | ⟨done, hthree, hbytes, hpayload⟩
            · exact .inl hnone
            · exact .inr ⟨.Tls done hthree, hbytes, hpayload⟩
          all_goals
            refine .Cut (.Records awaits) ?_
            rintro rfl
            exact hends awaits.at_end.1
        · simp only [if_neg hnil]
          obtain ⟨hsuffix, hless⟩ := fill_shorter hnil
          have hmore : r.Awaits all
              ((fill MAX_RECORD coming n).1 ++ ((fill MAX_RECORD coming n).2 ++ missing)) due body
              records := by
            rw [← List.append_assoc, hcoming]
            exact awaits
          exact (ih hmore).later hsuffix hless

/-- **One read** goes on with the answer. -/
theorem read_spec {kind : Kind} {answer : Answer kind} {r : Reader}
    {coming missing due : Bytes} (h : Follows answer r (coming ++ missing) due) {room : ℕ}
    (hroom : 0 < room) (answers : List Gave) :
    Read answer coming missing due answers (r.poll_read room coming answers) := by
  generalize hlater : coming ++ missing = later at h
  cases h with
  | Head bytes fits => subst hlater; exact poll_head_spec hroom answers bytes fits
  | Raw bytes => subst hlater; exact poll_raw_spec hroom bytes answers
  | Records awaits => subst hlater; exact poll_records_spec hroom answers awaits

/-! ### The reads of a run -/

/-- The reads so far: what comes, what of it is still to come, and what was handed over. -/
structure Reading where
  reader : Reader
  coming : Bytes
  delivered : Bytes

namespace Reading

def new (kind : Kind) (sent : Bytes) : Reading := ⟨.new kind, sent, []⟩

/-- A read into a buffer of `room + 1` bytes. -/
def step (s : Reading) (read : ℕ × List Gave) : Reading :=
  let polled := s.reader.poll_read (read.1 + 1) s.coming read.2
  let delivered := match polled.2.2 with
    | .Ready (.ok bytes) => s.delivered ++ bytes
    | _ => s.delivered
  ⟨polled.1, polled.2.1, delivered⟩

end Reading

section

variable {kind : Kind}

/-- The reader goes on behind what was handed over. -/
def Goes (answer : Answer kind) (missing : Bytes) (s : Reading) : Prop :=
  ∃ due, s.delivered ++ due = answer.payload ∧ Follows answer s.reader (s.coming ++ missing) due

theorem Goes.step {answer : Answer kind} {missing : Bytes} {s : Reading}
    (h : Goes answer missing s) (read : ℕ × List Gave) : Goes answer missing (s.step read) := by
  obtain ⟨due, hdelivered, hfollows⟩ := h
  have hread := read_spec hfollows (Nat.succ_pos read.1) read.2
  unfold Reading.step
  generalize s.reader.poll_read (read.1 + 1) s.coming read.2 = polled at hread
  cases hread with
  | Pending follows suffix waits => exact ⟨due, hdelivered, follows⟩
  | @Give r coming' bytes due' follows suffix some gives =>
    exact ⟨due', by rw [List.append_assoc, ← gives, hdelivered], follows⟩
  | End follows ends all =>
    refine ⟨due, ?_, follows⟩
    show s.delivered ++ [] ++ due = answer.payload
    rw [List.append_nil, hdelivered]
  | Cut follows cut => exact ⟨due, hdelivered, follows⟩

theorem goes_new (answer : Answer kind) {sent missing : Bytes}
    (h : sent ++ missing = answer.bytes) : Goes answer missing (.new kind sent) := by
  refine ⟨answer.payload, rfl, ?_⟩
  cases answer with
  | Http head payload whole accepted sized => exact .Head h (Nat.zero_le _)
  | Tls records enough =>
    have hnew := Records.awaits_new enough
    rw [show ServerRecord.encode .ServerHello records = [] ++ (sent ++ missing) from h.symm] at hnew
    exact .Records hnew

theorem goes_run (answer : Answer kind) {sent missing : Bytes}
    (h : sent ++ missing = answer.bytes) (reads : List (ℕ × List Gave)) :
    Goes answer missing (run Reading.step (.new kind sent) reads) :=
  run_invariant (I := Goes answer missing) (fun _ read h => h.step read) (goes_new answer h) reads

/-- What was handed over, and what the next read may give, when `sent` is what comes of an answer
with `payload` in it. -/
structure Reads (kind : Kind) (sent payload : Bytes) (s : Reading) : Prop where
  delivered : s.delivered <+: payload
  gives : ∀ room answers bytes, bytes ≠ [] →
    (s.reader.poll_read (room + 1) s.coming answers).2.2 = .Ready (.ok bytes) →
    s.delivered ++ bytes <+: payload
  waits : ∀ room answers, (s.reader.poll_read (room + 1) s.coming answers).2.2 = .Pending →
    .Pending ∈ answers ∨ answers.length ≤ s.coming.length
  ends : ∀ room answers, (s.reader.poll_read (room + 1) s.coming answers).2.2 = .Ready (.ok []) →
    (sent = [] ∨ ∃ whole : Answer kind, whole.bytes = sent) ∧
      ∀ whole : Answer kind, whole.bytes = sent → whole.payload = s.delivered
  fails : ∀ room answers e,
    (s.reader.poll_read (room + 1) s.coming answers).2.2 = .Ready (.error e) →
    e.kind = .UnexpectedEof ∧ ¬∃ whole : Answer kind, whole.bytes = sent

/-- **What comes in is the data of the answer**, in any run, wherever the answer is cut. -/
theorem reads_spec (answer : Answer kind) {sent missing : Bytes}
    (h : sent ++ missing = answer.bytes) (reads : List (ℕ × List Gave)) :
    Reads kind sent answer.payload (run Reading.step (.new kind sent) reads) := by
  -- what comes may be a whole answer itself
  have hwhole : ∀ whole : Answer kind, whole.bytes = sent →
      Goes whole [] (run Reading.step (.new kind sent) reads) := fun whole hbytes =>
    goes_run whole (by rw [hbytes, List.append_nil]) reads
  obtain ⟨due, hdelivered, hfollows⟩ := goes_run answer h reads
  generalize run Reading.step (.new kind sent) reads = s at *
  have hread := fun room => read_spec hfollows (Nat.succ_pos room)
  refine ⟨⟨due, hdelivered⟩, ?_, ?_, ?_, ?_⟩
  · intro room answers bytes hne hresult
    have hread := hread room answers
    generalize s.reader.poll_read (room + 1) s.coming answers = polled at hread hresult
    cases hread with
    | @Give r coming' bytes' due' follows suffix some gives =>
      obtain rfl : bytes' = bytes := by simpa using hresult
      exact ⟨due', by rw [List.append_assoc, ← gives, hdelivered]⟩
    | End follows ends all => exact absurd (by simpa using hresult) hne
    | Pending => cases hresult
    | Cut => cases hresult
  · intro room answers hresult
    have hread := hread room answers
    generalize s.reader.poll_read (room + 1) s.coming answers = polled at hread hresult
    cases hread with
    | Pending follows suffix waits => exact waits
    | Give => cases hresult
    | End => cases hresult
    | Cut => cases hresult
  · intro room answers hresult
    refine ⟨?_, fun whole hbytes => ?_⟩
    · have hread := hread room answers
      generalize s.reader.poll_read (room + 1) s.coming answers = polled at hread hresult
      cases hread with
      | Give follows suffix some gives => exact absurd (by simpa using hresult) some
      | End follows ends all =>
        rcases ends with hnone | ⟨whole, hbytes, -⟩
        · rw [hnone] at h
          exact .inl (List.append_left_eq_self.1 h)
        · exact .inr ⟨whole, List.append_cancel_right (hbytes.trans h.symm)⟩
      | Pending => cases hresult
      | Cut => cases hresult
    · obtain ⟨due, hdelivered, hfollows⟩ := hwhole whole hbytes
      have hread := read_spec hfollows (Nat.succ_pos room) answers
      generalize s.reader.poll_read (room + 1) s.coming answers = polled at hread hresult
      cases hread with
      | Give follows suffix some gives => exact absurd (by simpa using hresult) some
      | End follows ends all => rw [← hdelivered, all rfl, List.append_nil]
      | Pending => cases hresult
      | Cut => cases hresult
  · intro room answers e hresult
    refine ⟨?_, ?_⟩
    · have hread := hread room answers
      generalize s.reader.poll_read (room + 1) s.coming answers = polled at hread hresult
      cases hread with
      | Cut follows cut =>
        obtain rfl : _ = e := by simpa using hresult
        rfl
      | Pending => cases hresult
      | Give => cases hresult
      | End => cases hresult
    · rintro ⟨whole, hbytes⟩
      obtain ⟨due, hdelivered, hfollows⟩ := hwhole whole hbytes
      have hread := read_spec hfollows (Nat.succ_pos room) answers
      generalize s.reader.poll_read (room + 1) s.coming answers = polled at hread hresult
      cases hread with
      | Cut follows cut => exact cut rfl
      | Pending => cases hresult
      | Give => cases hresult
      | End => cases hresult

end

/-- **simple-obfs is transparent**: for every client, what goes below is a first packet and the
packets after it, with what was written in them; and what is handed over of an answer, cut anywhere,
is the data in it. -/
theorem simple_obfs_spec (client : ObfsClient) (drawn : Drawn) (calls : List Call)
    (answer : Answer client.kind) (cut : ℕ) (reads : List (ℕ × List Gave)) :
    (∃ payloads, Transparent client.kind drawn
      (run (Writing.step drawn) (.new client.kind) calls) payloads) ∧
    Reads client.kind (answer.bytes.take cut) answer.payload
      (run Reading.step (.new client.kind (answer.bytes.take cut)) reads) :=
  ⟨writes_spec client drawn calls, reads_spec answer (List.take_append_drop cut _) reads⟩

end SimpleObfs

end Rurge
