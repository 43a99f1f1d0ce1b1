import Mathlib
import Rurge.Lib.BigEndian
import Rurge.Quic.Bytes

/-!
# Messages on the wire

How a DNS message is walked where it stands: past its questions, then from record to record, no
further than their names, types and data lengths.  `Message` is what a message that reads to its
last record is made of; `Message.bytes` writes it out, and the walk finds exactly such bytes.
-/

namespace Rurge

namespace Dns

open BigEndian
open Quic (slice slice_of_drop drop_of_slice drop_add getElem?_of_drop drop_of_getElem?)

/-- The type of the OPT pseudo-record. -/
def OPT : UInt16 := 41

/-- The 16-bit number at `at_`. -/
def wire_u16 (wire : List UInt8) (at_ : ℕ) : Option UInt16 :=
  (slice wire at_ (at_ + 2)).map from_u16

/-- Where the name at `at_` ends: after its root label, or after the pointer that stands for the
rest of it. -/
def name_end (wire : List UInt8) (at_ : ℕ) : Option ℕ :=
  if h : at_ < wire.length then
    let len := wire[at_]
    if len = 0 then some (at_ + 1)
    else if len ≤ 0x3f then name_end wire (at_ + (1 + len.toNat))
    else if 0xc0 ≤ len then some (at_ + 2)
    else none
  else none
termination_by wire.length - at_

/-- Past `n` questions: QTYPE and QCLASS follow the name. -/
def skip_questions (wire : List UInt8) : ℕ → ℕ → Option ℕ
  | 0, at_ => some at_
  | n + 1, at_ => do skip_questions wire n ((← name_end wire at_) + 4)

/-- From record to record, `mark` taken of the place of each one's TYPE: CLASS, TTL and RDLENGTH
follow it, the data follows them. -/
def walk_records (wire : List UInt8) (mark : ℕ → Option (List ℕ)) :
    ℕ → ℕ → Option (List ℕ × ℕ)
  | 0, at_ => some ([], at_)
  | n + 1, at_ => do
    let at_ ← name_end wire at_
    let marks ← mark at_
    let (rest, end_) ← walk_records wire mark n (at_ + (10 + (← wire_u16 wire (at_ + 8)).toNat))
    return (marks ++ rest, end_)

/-- The walk over a message: its marks, and where it comes to an end. -/
def walk (wire : List UInt8) (mark : ℕ → Option (List ℕ)) : Option (List ℕ × ℕ) := do
  let questions ← wire_u16 wire 4
  let answers ← wire_u16 wire 6
  let authorities ← wire_u16 wire 8
  let additionals ← wire_u16 wire 10
  let at_ ← skip_questions wire questions.toNat 12
  walk_records wire mark (answers.toNat + authorities.toNat + additionals.toNat) at_

/-- The marks of a message that reads to its last record. -/
def marks_to_end (wire : List UInt8) (mark : ℕ → Option (List ℕ)) : Option (List ℕ) :=
  (walk wire mark).bind fun (marks, at_) => if at_ ≤ wire.length then some marks else none

/-- Where the TTL of a record stands whose TYPE stands at `at_`, none for the OPT pseudo-record. -/
def ttl_mark (wire : List UInt8) (at_ : ℕ) : Option (List ℕ) :=
  (wire_u16 wire at_).map fun rtype => if rtype ≠ OPT then [at_ + 4] else []

/-- Where the TTLs of `wire`'s records stand, the OPT pseudo-record's field left out. -/
def ttl_offsets (wire : List UInt8) : Option (List ℕ) := marks_to_end wire (ttl_mark wire)

/-- Where the TYPE field of each record of `wire` stands. -/
def record_types (wire : List UInt8) : Option (List ℕ) := marks_to_end wire fun at_ => some [at_]

/-! ### What a message is made of -/

/-- A name as it is written: its labels, then the root or a pointer to the rest of it. -/
inductive IsName : List UInt8 → Prop
  | root : IsName [0]
  | pointer {high low : UInt8} (h : 0xc0 ≤ high) : IsName [high, low]
  | label {len : UInt8} {label rest : List UInt8} (hlen : label.length = len.toNat)
      (hpos : len ≠ 0) (hshort : len ≤ 0x3f) (hrest : IsName rest) :
      IsName (len :: (label ++ rest))

/-- A question. -/
structure Question where
  name : List UInt8
  qtype : UInt16
  qclass : UInt16
  name_ok : IsName name

/-- A record. -/
structure Record where
  name : List UInt8
  rtype : UInt16
  rclass : UInt16
  ttl : UInt32
  data : List UInt8
  name_ok : IsName name
  data_lt : data.length < 2 ^ 16

/-- A message: the header's first four bytes, the four sections, and what stands behind them. -/
structure Message where
  id : UInt16
  flags : UInt8
  code : UInt8
  questions : List Question
  answers : List Record
  authorities : List Record
  additionals : List Record
  rest : List UInt8
  questions_lt : questions.length < 2 ^ 16
  answers_lt : answers.length < 2 ^ 16
  authorities_lt : authorities.length < 2 ^ 16
  additionals_lt : additionals.length < 2 ^ 16

/-- A question, written out. -/
def Question.bytes (q : Question) : List UInt8 := q.name ++ (u16 q.qtype ++ u16 q.qclass)

/-- What follows the name of a record. -/
def Record.body (r : Record) : List UInt8 :=
  u16 r.rtype ++ (u16 r.rclass ++ (u32 r.ttl ++ (u16 (.ofNat r.data.length) ++ r.data)))

/-- A record, written out. -/
def Record.bytes (r : Record) : List UInt8 := r.name ++ r.body

namespace Message

/-- The records of the three sections, one after the other. -/
def records (m : Message) : List Record := m.answers ++ (m.authorities ++ m.additionals)

/-- The header, written out. -/
def header (m : Message) : List UInt8 :=
  u16 m.id ++ ([m.flags, m.code] ++ (u16 (.ofNat m.questions.length) ++
    (u16 (.ofNat m.answers.length) ++ (u16 (.ofNat m.authorities.length) ++
      u16 (.ofNat m.additionals.length)))))

/-- A message, written out. -/
def bytes (m : Message) : List UInt8 :=
  m.header ++ (m.questions.flatMap Question.bytes ++ (m.records.flatMap Record.bytes ++ m.rest))

end Message

/-! ### Names -/

theorem wire_u16_of_drop {wire t : List UInt8} {a : ℕ} {n : UInt16}
    (h : wire.drop a = u16 n ++ t) : wire_u16 wire a = some n := by
  have hne : u16 n ≠ [] := List.ne_nil_of_length_pos (by simp)
  have hslice := slice_of_drop h hne
  rw [length_u16] at hslice
  rw [wire_u16, hslice, Option.map_some, from_u16_u16]

theorem drop_of_wire_u16 {wire : List UInt8} {a : ℕ} {n : UInt16} (h : wire_u16 wire a = some n) :
    wire.drop a = u16 n ++ wire.drop (a + 2) := by
  obtain ⟨bytes, hslice, rfl⟩ := Option.map_eq_some_iff.1 h
  have hlength := Quic.length_slice hslice
  rw [u16_from_u16 (by omega)]
  exact drop_of_slice hslice

theorem le_of_wire_u16 {wire : List UInt8} {a : ℕ} {n : UInt16} (h : wire_u16 wire a = some n) :
    a + 2 ≤ wire.length := by
  obtain ⟨bytes, hslice, -⟩ := Option.map_eq_some_iff.1 h
  exact (Quic.slice_eq_some.1 hslice).2.1

theorem name_end_of_drop {wire name t : List UInt8} {a : ℕ} (hname : IsName name)
    (h : wire.drop a = name ++ t) : name_end wire a = some (a + name.length) := by
  induction hname generalizing a with
  | root =>
    obtain ⟨hlt, hbyte⟩ := List.getElem?_eq_some_iff.1 (getElem?_of_drop h)
    rw [name_end, dif_pos hlt]
    simp [hbyte]
  | @pointer high low hhigh =>
    obtain ⟨hlt, hbyte⟩ := List.getElem?_eq_some_iff.1 (getElem?_of_drop h)
    have hzero : high ≠ 0 := fun h0 => absurd (h0 ▸ hhigh) (by decide)
    have hlong : ¬ high ≤ 0x3f := fun hle => absurd (UInt8.le_trans hhigh hle) (by decide)
    rw [name_end, dif_pos hlt]
    simp [hbyte, hzero, hlong, hhigh]
  | @label len label rest hlen hpos hshort hrest ih =>
    obtain ⟨hlt, hbyte⟩ := List.getElem?_eq_some_iff.1 (getElem?_of_drop h)
    have hdrop : wire.drop (a + (len :: label).length) = rest ++ t := drop_add (s := len :: label)
      (by rw [h]; simp)
    rw [List.length_cons, hlen, Nat.add_comm len.toNat] at hdrop
    rw [name_end, dif_pos hlt]
    simp only [hbyte, if_neg hpos, if_pos hshort, ih hdrop, List.length_cons, List.length_append,
      hlen]
    congr 1
    omega

theorem lt_of_name_end {wire : List UInt8} {a e : ℕ} (h : name_end wire a = some e) : a < e := by
  fun_induction name_end wire a with
  | case1 a hlt len hzero => cases h; omega
  | case2 a hlt len hzero hshort ih => have := ih h; omega
  | case3 a hlt len hzero hshort hpointer => cases h; omega
  | case4 => cases h
  | case5 => cases h

/-- A name that ends within the bytes is one as it is written. -/
theorem name_of_name_end {wire : List UInt8} {a e : ℕ} (h : name_end wire a = some e)
    (he : e ≤ wire.length) :
    ∃ name, IsName name ∧ e = a + name.length ∧ wire.drop a = name ++ wire.drop e := by
  fun_induction name_end wire a with
  | case1 a hlt len hzero =>
    cases h
    refine ⟨[0], .root, rfl, ?_⟩
    rw [← hzero]
    exact List.drop_eq_getElem_cons hlt
  | case2 a hlt len hzero hshort ih =>
    obtain ⟨rest, hrest, rfl, hdrop⟩ := ih h
    obtain ⟨label, hlabel, hcut⟩ := Quic.exists_drop wire (a := a + 1) (n := len.toNat) (by omega)
    refine ⟨len :: (label ++ rest), .label hlabel hzero hshort hrest, ?_, ?_⟩
    · rw [List.length_cons, List.length_append, hlabel]
      omega
    · rw [List.drop_eq_getElem_cons hlt, hcut, Nat.add_assoc, hdrop]
      simp [len]
  | case3 a hlt len hzero hshort hpointer =>
    cases h
    refine ⟨[len, wire[a + 1]], .pointer hpointer, rfl, ?_⟩
    rw [List.drop_eq_getElem_cons hlt, List.drop_eq_getElem_cons (by omega : a + 1 < wire.length)]
    rfl
  | case4 => cases h
  | case5 => cases h

/-! ### Questions and records -/

theorem Record.length_body (r : Record) : r.body.length = 10 + r.data.length := by
  simp only [Record.body, List.length_append, length_u16, length_u32]
  omega

theorem Record.toNat_length (r : Record) :
    (UInt16.ofNat r.data.length).toNat = r.data.length :=
  UInt16.toNat_ofNat_of_lt' r.data_lt

/-- The records with the places of their TYPE fields, the first record standing at `a`. -/
def places : ℕ → List Record → List (Record × ℕ)
  | _, [] => []
  | a, r :: rs => (r, a + r.name.length) :: places (a + r.bytes.length) rs

theorem Record.drop_bytes {wire t : List UInt8} {a : ℕ} {r : Record}
    (h : wire.drop a = r.bytes ++ t) : wire.drop (a + r.name.length) = r.body ++ t :=
  drop_add (by rw [h, Record.bytes, List.append_assoc])

/-- What stands behind a TYPE field. -/
theorem Record.fields {wire t : List UInt8} {a : ℕ} {r : Record} (h : wire.drop a = r.body ++ t) :
    wire_u16 wire a = some r.rtype ∧ wire_u16 wire (a + 2) = some r.rclass ∧
      wire.drop (a + 4) = u32 r.ttl ++ (u16 (.ofNat r.data.length) ++ (r.data ++ t)) ∧
      wire_u16 wire (a + 8) = some (.ofNat r.data.length) := by
  simp only [Record.body, List.append_assoc] at h
  have hclass := drop_add h
  rw [length_u16] at hclass
  have httl := drop_add hclass
  rw [length_u16] at httl
  have hlength := drop_add httl
  rw [length_u32] at hlength
  exact ⟨wire_u16_of_drop h, wire_u16_of_drop hclass, httl, wire_u16_of_drop hlength⟩

theorem fields_of_places {wire t : List UInt8} {a : ℕ} {rs : List Record}
    (h : wire.drop a = rs.flatMap Record.bytes ++ t) {x : Record × ℕ} (hx : x ∈ places a rs) :
    ∃ t', wire.drop x.2 = x.1.body ++ t' := by
  induction rs generalizing a with
  | nil => cases hx
  | cons r rs ih =>
    rw [List.flatMap_cons, List.append_assoc] at h
    rcases List.mem_cons.1 hx with rfl | hx
    · exact ⟨_, Record.drop_bytes h⟩
    · exact ih (drop_add h) hx

theorem skip_questions_of_drop {wire t : List UInt8} {a : ℕ} {qs : List Question}
    (h : wire.drop a = qs.flatMap Question.bytes ++ t) :
    skip_questions wire qs.length a = some (a + (qs.flatMap Question.bytes).length) := by
  induction qs generalizing a with
  | nil => rfl
  | cons q qs ih =>
    rw [List.flatMap_cons, List.append_assoc] at h
    have hname := name_end_of_drop q.name_ok
      (by rw [h, Question.bytes, List.append_assoc])
    have hlength : q.bytes.length = q.name.length + 4 := by simp [Question.bytes]
    have hrest := ih (drop_add h)
    rw [hlength, ← Nat.add_assoc] at hrest
    rw [List.length_cons, skip_questions, hname, Option.bind_eq_bind, Option.bind_some, hrest,
      List.flatMap_cons, List.length_append, hlength, Nat.add_assoc, Nat.add_assoc, Nat.add_assoc]

/-- The walk over records that stand there. -/
theorem walk_records_of_drop {wire t : List UInt8} {mark : ℕ → Option (List ℕ)}
    {f : Record × ℕ → List ℕ} {a : ℕ} {rs : List Record}
    (h : wire.drop a = rs.flatMap Record.bytes ++ t)
    (hmark : ∀ x ∈ places a rs, mark x.2 = some (f x)) :
    walk_records wire mark rs.length a =
      some ((places a rs).flatMap f, a + (rs.flatMap Record.bytes).length) := by
  induction rs generalizing a with
  | nil => rfl
  | cons r rs ih =>
    rw [List.flatMap_cons, List.append_assoc] at h
    have hname := name_end_of_drop r.name_ok (by rw [h, Record.bytes, List.append_assoc])
    have hfields := Record.fields (Record.drop_bytes h)
    have hend : a + r.name.length + (10 + r.data.length) = a + r.bytes.length := by
      rw [Record.bytes, List.length_append, Record.length_body, Nat.add_assoc]
    have hrest := ih (drop_add h) fun x hx => hmark x (List.mem_cons_of_mem _ hx)
    have hhere := hmark (r, a + r.name.length) List.mem_cons_self
    rw [List.length_cons, walk_records]
    simp only [Option.bind_eq_bind, hname, Option.bind_some, hhere, hfields.2.2.2,
      Record.toNat_length, hend, hrest, Option.pure_def, places, List.flatMap_cons,
      List.length_append, Nat.add_assoc a r.bytes.length]

theorem le_of_skip_questions {wire : List UInt8} {n a e : ℕ}
    (h : skip_questions wire n a = some e) : a ≤ e := by
  induction n generalizing a with
  | zero => exact (Option.some.inj h).le
  | succ n ih =>
    obtain ⟨p, hp, hrest⟩ := Option.bind_eq_some_iff.1 h
    have := lt_of_name_end hp
    have := ih hrest
    omega

theorem questions_of_skip {wire : List UInt8} {n a e : ℕ}
    (h : skip_questions wire n a = some e) (he : e ≤ wire.length) :
    ∃ qs : List Question, qs.length = n ∧
      wire.drop a = qs.flatMap Question.bytes ++ wire.drop e := by
  induction n generalizing a with
  | zero =>
    obtain rfl := Option.some.inj h
    exact ⟨[], rfl, rfl⟩
  | succ n ih =>
    obtain ⟨p, hp, hrest⟩ := Option.bind_eq_some_iff.1 h
    have hle := le_of_skip_questions hrest
    obtain ⟨name, hname, rfl, hdrop⟩ := name_of_name_end hp (by omega)
    obtain ⟨qs, rfl, hqs⟩ := ih hrest
    obtain ⟨fields, hlength, hfields⟩ := Quic.exists_drop wire (a := a + name.length) (n := 4)
      (by omega)
    have hcut : fields = u16 (from_u16 (fields.take 2)) ++ u16 (from_u16 (fields.drop 2)) := by
      rw [u16_from_u16 (by simp [hlength]), u16_from_u16 (by simp [hlength]),
        List.take_append_drop]
    refine ⟨⟨name, from_u16 (fields.take 2), from_u16 (fields.drop 2), hname⟩ :: qs, rfl, ?_⟩
    rw [hdrop, hfields, hqs, List.flatMap_cons, Question.bytes, ← hcut, List.append_assoc,
      List.append_assoc]

theorem le_of_walk_records {wire : List UInt8} {mark : ℕ → Option (List ℕ)} {n a e : ℕ}
    {marks : List ℕ} (h : walk_records wire mark n a = some (marks, e)) : a ≤ e := by
  induction n generalizing a marks with
  | zero =>
    cases h
    exact le_rfl
  | succ n ih =>
    simp only [walk_records, Option.bind_eq_bind, Option.bind_eq_some_iff, Option.pure_def,
      Option.some.injEq, Prod.mk.injEq] at h
    obtain ⟨p, hp, here, -, size, -, ⟨rest, e'⟩, hrest, -, rfl⟩ := h
    have := lt_of_name_end hp
    have := ih hrest
    omega

theorem records_of_walk {wire : List UInt8} {mark : ℕ → Option (List ℕ)} {n a e : ℕ}
    {marks : List ℕ} (h : walk_records wire mark n a = some (marks, e)) (he : e ≤ wire.length) :
    ∃ rs : List Record, rs.length = n ∧ wire.drop a = rs.flatMap Record.bytes ++ wire.drop e := by
  induction n generalizing a marks with
  | zero =>
    cases h
    exact ⟨[], rfl, rfl⟩
  | succ n ih =>
    simp only [walk_records, Option.bind_eq_bind, Option.bind_eq_some_iff, Option.pure_def,
      Option.some.injEq, Prod.mk.injEq] at h
    obtain ⟨p, hp, here, -, size, hsize, ⟨rest, e'⟩, hrest, -, rfl⟩ := h
    have hle := le_of_walk_records hrest
    obtain ⟨name, hname, rfl, hdrop⟩ := name_of_name_end hp (by omega)
    obtain ⟨rs, rfl, hrs⟩ := ih hrest
    obtain ⟨head, hlength, hhead⟩ := Quic.exists_drop wire (a := a + name.length) (n := 8)
      (by omega)
    obtain ⟨data, hdata, htail⟩ := Quic.exists_drop wire (a := a + name.length + 8 + 2)
      (n := size.toNat) (by omega)
    have hcut : head = u16 (from_u16 (head.take 2)) ++ (u16 (from_u16 ((head.drop 2).take 2)) ++
        u32 (from_u32 (head.drop 4))) := by
      rw [u16_from_u16 (by simp [hlength]), u16_from_u16 (by simp [hlength]),
        u32_from_u32 (by simp [hlength]), show head.drop 4 = (head.drop 2).drop 2 by
          rw [List.drop_drop], List.take_append_drop, List.take_append_drop]
    have hsize' : UInt16.ofNat data.length = size := by rw [hdata, UInt16.ofNat_toNat]
    refine ⟨⟨name, from_u16 (head.take 2), from_u16 ((head.drop 2).take 2),
      from_u32 (head.drop 4), data, hname, hdata ▸ size.toNat_lt⟩ :: rs, rfl, ?_⟩
    have hend : a + name.length + 8 + 2 + size.toNat = a + name.length + (10 + size.toNat) := by
      omega
    rw [hdrop, hhead, drop_of_wire_u16 hsize, htail, hend, hrs, List.flatMap_cons, Record.bytes,
      Record.body, hsize']
    nth_rewrite 1 [hcut]
    simp only [List.append_assoc]

/-! ### Messages -/

namespace Message

theorem length_header (m : Message) : m.header.length = 12 := by
  simp [header]

/-- The header, count by count. -/
theorem header_counts {m : Message} {wire t : List UInt8} (h : wire = m.header ++ t) :
    wire_u16 wire 4 = some (.ofNat m.questions.length) ∧
      wire_u16 wire 6 = some (.ofNat m.answers.length) ∧
      wire_u16 wire 8 = some (.ofNat m.authorities.length) ∧
      wire_u16 wire 10 = some (.ofNat m.additionals.length) := by
  have hid : wire.drop 0 = u16 m.id ++ (([m.flags, m.code] ++ (u16 (.ofNat m.questions.length) ++
      (u16 (.ofNat m.answers.length) ++ (u16 (.ofNat m.authorities.length) ++
        (u16 (.ofNat m.additionals.length) ++ t)))))) := by
    rw [h, header]
    simp only [List.append_assoc, List.drop_zero]
  have hflags := drop_add hid
  have hquestions := drop_add hflags
  have hanswers := drop_add hquestions
  have hauthorities := drop_add hanswers
  have hadditionals := drop_add hauthorities
  simp only [length_u16, List.length_cons, List.length_nil] at *
  exact ⟨wire_u16_of_drop hquestions, wire_u16_of_drop hanswers, wire_u16_of_drop hauthorities,
    wire_u16_of_drop hadditionals⟩

/-- Where the first record stands. -/
def records_at (m : Message) : ℕ := 12 + (m.questions.flatMap Question.bytes).length

theorem drop_questions (m : Message) : m.bytes.drop 12 =
    m.questions.flatMap Question.bytes ++ (m.records.flatMap Record.bytes ++ m.rest) := by
  rw [bytes, ← m.length_header, List.drop_left]

theorem drop_records (m : Message) :
    m.bytes.drop m.records_at = m.records.flatMap Record.bytes ++ m.rest :=
  drop_add m.drop_questions

/-- **The walk finds what a message is made of.** -/
theorem walk_bytes (m : Message) {mark : ℕ → Option (List ℕ)} {f : Record × ℕ → List ℕ}
    (hmark : ∀ x ∈ places m.records_at m.records, mark x.2 = some (f x)) :
    walk m.bytes mark = some ((places m.records_at m.records).flatMap f,
      m.records_at + (m.records.flatMap Record.bytes).length) := by
  obtain ⟨hquestions, hanswers, hauthorities, hadditionals⟩ := @header_counts m m.bytes _ rfl
  have hskip := skip_questions_of_drop m.drop_questions
  have hcount : m.answers.length + m.authorities.length + m.additionals.length =
      m.records.length := by
    rw [records, List.length_append, List.length_append, Nat.add_assoc]
  rw [walk, hquestions, hanswers, hauthorities, hadditionals]
  simp only [Option.bind_eq_bind, Option.bind_some, UInt16.toNat_ofNat_of_lt' m.questions_lt,
    UInt16.toNat_ofNat_of_lt' m.answers_lt, UInt16.toNat_ofNat_of_lt' m.authorities_lt,
    UInt16.toNat_ofNat_of_lt' m.additionals_lt, hskip, hcount]
  exact walk_records_of_drop m.drop_records hmark

theorem marks_bytes (m : Message) {mark : ℕ → Option (List ℕ)} {f : Record × ℕ → List ℕ}
    (hmark : ∀ x ∈ places m.records_at m.records, mark x.2 = some (f x)) :
    marks_to_end m.bytes mark = some ((places m.records_at m.records).flatMap f) := by
  rw [marks_to_end, m.walk_bytes hmark, Option.bind_some]
  refine if_pos ?_
  rw [bytes, List.length_append, List.length_append, List.length_append, length_header, records_at]
  omega

/-- **A message that reads to its last record is made so.** -/
theorem exists_of_marks {wire : List UInt8} {mark : ℕ → Option (List ℕ)} {marks : List ℕ}
    (h : marks_to_end wire mark = some marks) : ∃ m : Message, m.bytes = wire := by
  obtain ⟨⟨marks', e⟩, hwalk, hend⟩ := Option.bind_eq_some_iff.1 h
  have he : e ≤ wire.length := by
    by_contra hlong
    cases hend.symm.trans (if_neg hlong)
  simp only [walk, Option.bind_eq_bind, Option.bind_eq_some_iff] at hwalk
  obtain ⟨questions, hquestions, answers, hanswers, authorities, hauthorities, additionals,
    hadditionals, at_, hskip, hrecords⟩ := hwalk
  have hle := le_of_walk_records hrecords
  have hlength := le_of_wire_u16 hadditionals
  obtain ⟨qs, hqs, hqdrop⟩ := questions_of_skip hskip (by omega)
  obtain ⟨rs, hrs, hrdrop⟩ := records_of_walk hrecords he
  obtain ⟨first, hfirst, hhead⟩ := Quic.exists_drop wire (a := 0) (n := 4) (by omega)
  obtain ⟨a, b, flags, code, rfl⟩ : ∃ a b flags code, first = [a, b, flags, code] := by
    match first, hfirst with
    | [a, b, flags, code], _ => exact ⟨a, b, flags, code, rfl⟩
  let m : Message :=
    { id := from_u16 [a, b]
      flags := flags
      code := code
      questions := qs
      answers := rs.take answers.toNat
      authorities := (rs.drop answers.toNat).take authorities.toNat
      additionals := (rs.drop answers.toNat).drop authorities.toNat
      rest := wire.drop e
      questions_lt := hqs ▸ questions.toNat_lt
      answers_lt := (List.length_take_le _ _).trans_lt answers.toNat_lt
      authorities_lt := (List.length_take_le _ _).trans_lt authorities.toNat_lt
      additionals_lt := by
        have := additionals.toNat_lt
        simp only [List.length_drop]
        omega }
  have hall : m.records = rs := by simp [m, records]
  have hcounts : UInt16.ofNat m.questions.length = questions ∧
      UInt16.ofNat m.answers.length = answers ∧ UInt16.ofNat m.authorities.length = authorities ∧
      UInt16.ofNat m.additionals.length = additionals := by
    have h1 : m.questions.length = questions.toNat := hqs
    have h2 : m.answers.length = answers.toNat := by simp [m]; omega
    have h3 : m.authorities.length = authorities.toNat := by simp [m]; omega
    have h4 : m.additionals.length = additionals.toNat := by simp [m]; omega
    rw [h1, h2, h3, h4]
    simp
  refine ⟨m, ?_⟩
  rw [bytes, header, hall, hcounts.1, hcounts.2.1, hcounts.2.2.1, hcounts.2.2.2,
    show u16 m.id = [a, b] from u16_from_u16 rfl]
  have hwire : wire = wire.drop 0 := rfl
  rw [hwire, hhead, drop_of_wire_u16 hquestions, drop_of_wire_u16 hanswers,
    drop_of_wire_u16 hauthorities, drop_of_wire_u16 hadditionals, hqdrop, hrdrop]
  simp [m]

/-- The walk over types takes every message that reads to its last record. -/
theorem record_types_bytes (m : Message) :
    record_types m.bytes = some ((places m.records_at m.records).map Prod.snd) := by
  rw [record_types, m.marks_bytes (f := fun x => [x.2]) fun x _ => rfl, List.map_eq_flatMap]

end Message

end Dns

end Rurge
