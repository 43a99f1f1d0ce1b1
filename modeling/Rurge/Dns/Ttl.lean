import Mathlib
import Rurge.Dns.Wire

/-!
# Lowering the TTLs of a response

`lower_ttls` rewrites the TTLs of a message where they stand.  On a message that reads to its last
record it is the lowering of the records' TTLs, all else as it was, so lowering twice is lowering
once by the sum; a message that does not read so far is left alone.
-/

namespace Rurge

namespace Dns

open BigEndian
open Quic (slice slice_of_drop drop_add)

/-- `u32::saturating_sub`. -/
def saturating_sub (a b : UInt32) : UInt32 := .ofNat (a.toNat - b.toNat)

/-- `u32::saturating_add`. -/
def saturating_add (a b : UInt32) : UInt32 := .ofNat (min (a.toNat + b.toNat) (2 ^ 32 - 1))

/-- One TTL, lowered where it stands; nothing where the four bytes are not all there. -/
def lower_at (seconds : UInt32) (wire : List UInt8) (at_ : ℕ) : Option (List UInt8) :=
  (slice wire at_ (at_ + 4)).map fun ttl =>
    wire.take at_ ++ (u32 (saturating_sub (from_u32 ttl) seconds) ++ wire.drop (at_ + 4))

/-- Lowers the TTL of every record of the response `wire` by `seconds`, no further than 0. -/
def lower_ttls (wire : List UInt8) (seconds : UInt32) : Option (List UInt8) :=
  if seconds = 0 then some wire
  else ((ttl_offsets wire).getD []).foldlM (lower_at seconds) wire

/-! ### What it is for -/

/-- The record that many seconds later. -/
def Record.lowered (seconds : UInt32) (r : Record) : Record :=
  if r.rtype ≠ OPT then { r with ttl := saturating_sub r.ttl seconds } else r

/-- The message that many seconds later. -/
def Message.lowered (seconds : UInt32) (m : Message) : Message :=
  { m with
    answers := m.answers.map (Record.lowered seconds)
    authorities := m.authorities.map (Record.lowered seconds)
    additionals := m.additionals.map (Record.lowered seconds)
    answers_lt := (List.length_map _).symm ▸ m.answers_lt
    authorities_lt := (List.length_map _).symm ▸ m.authorities_lt
    additionals_lt := (List.length_map _).symm ▸ m.additionals_lt }

theorem saturating_sub_zero (a : UInt32) : saturating_sub a 0 = a := by
  simp [saturating_sub]

theorem saturating_sub_sub (a b c : UInt32) :
    saturating_sub (saturating_sub a b) c = saturating_sub a (saturating_add b c) := by
  have ha := a.toNat_lt
  have hsub : (saturating_sub a b).toNat = a.toNat - b.toNat :=
    UInt32.toNat_ofNat_of_lt' (by show a.toNat - b.toNat < 2 ^ 32; omega)
  have hadd : (saturating_add b c).toNat = min (b.toNat + c.toNat) (2 ^ 32 - 1) :=
    UInt32.toNat_ofNat_of_lt' (by show min (b.toNat + c.toNat) (2 ^ 32 - 1) < 2 ^ 32; omega)
  unfold saturating_sub at hsub ⊢
  rw [hsub, hadd]
  congr 1
  omega

theorem Record.lowered_zero (r : Record) : r.lowered 0 = r := by
  unfold lowered
  split_ifs
  · rw [saturating_sub_zero]
  · rfl

theorem Record.lowered_lowered (a b : UInt32) (r : Record) :
    (r.lowered a).lowered b = r.lowered (saturating_add a b) := by
  by_cases hopt : r.rtype = OPT
  · simp [lowered, hopt]
  · simp [lowered, hopt, saturating_sub_sub]

theorem Message.lowered_zero (m : Message) : m.lowered 0 = m := by
  have hsame : Record.lowered 0 = fun r => r := funext Record.lowered_zero
  simp [lowered, hsame]

theorem Message.lowered_lowered (a b : UInt32) (m : Message) :
    (m.lowered a).lowered b = m.lowered (saturating_add a b) := by
  simp [lowered, Record.lowered_lowered]

theorem Message.lowered_bytes (seconds : UInt32) (m : Message) :
    (m.lowered seconds).bytes = m.header ++ (m.questions.flatMap Question.bytes ++
      ((m.records.map (Record.lowered seconds)).flatMap Record.bytes ++ m.rest)) := by
  simp [bytes, header, records, lowered]

/-! ### The lowering, record by record -/

/-- Where the TTL of a record with its TYPE at a place is lowered. -/
def ttl_places (x : Record × ℕ) : List ℕ := if x.1.rtype ≠ OPT then [x.2 + 4] else []

theorem ttl_mark_places {wire t : List UInt8} {a : ℕ} {rs : List Record}
    (h : wire.drop a = rs.flatMap Record.bytes ++ t) {x : Record × ℕ} (hx : x ∈ places a rs) :
    ttl_mark wire x.2 = some (ttl_places x) := by
  obtain ⟨t', ht'⟩ := fields_of_places h hx
  rw [ttl_mark, (Record.fields ht').1]
  rfl

/-- One record lowered where it stands. -/
theorem lower_at_record (seconds : UInt32) (before t : List UInt8) {r : Record}
    (hopt : r.rtype ≠ OPT) :
    lower_at seconds (before ++ (r.bytes ++ t)) (before.length + r.name.length + 4) =
      some (before ++ ((r.lowered seconds).bytes ++ t)) := by
  let wire := before ++ (r.bytes ++ t)
  let front := before ++ (r.name ++ (u16 r.rtype ++ u16 r.rclass))
  let back := u16 (.ofNat r.data.length) ++ (r.data ++ t)
  have hwire : before ++ (r.bytes ++ t) = front ++ (u32 r.ttl ++ back) := by
    simp [front, back, Record.bytes, Record.body]
  have hfront : before.length + r.name.length + 4 = front.length := by
    simp [front]
    omega
  have hslice : slice (front ++ (u32 r.ttl ++ back)) front.length (front.length + 4) =
      some (u32 r.ttl) := by
    have hdrop : (front ++ (u32 r.ttl ++ back)).drop front.length = u32 r.ttl ++ back :=
      List.drop_left
    have := slice_of_drop hdrop (List.ne_nil_of_length_pos (by simp))
    rwa [length_u32] at this
  have hback : (front ++ (u32 r.ttl ++ back)).drop (front.length + 4) = back := by
    rw [← List.drop_drop, List.drop_left, ← length_u32 r.ttl, List.drop_left]
  rw [hwire, hfront, lower_at, hslice, Option.map_some, from_u32_u32, List.take_left, hback]
  simp [front, back, Record.lowered, hopt, Record.bytes, Record.body]

theorem Record.length_lowered (seconds : UInt32) (r : Record) :
    (r.lowered seconds).bytes.length = r.bytes.length := by
  unfold lowered
  split_ifs
  · simp [bytes, body]
  · rfl

/-- The records stand where they stood, and are of the types they were of. -/
theorem places_lowered (seconds : UInt32) (a : ℕ) (rs : List Record) :
    places a (rs.map (Record.lowered seconds)) =
      (places a rs).map fun x => (x.1.lowered seconds, x.2) := by
  induction rs generalizing a with
  | nil => rfl
  | cons r rs ih =>
    have hname : (r.lowered seconds).name = r.name := by
      unfold Record.lowered
      split_ifs <;> rfl
    rw [List.map_cons, places, places, r.length_lowered, ih, hname]
    rfl

theorem lower_records (seconds : UInt32) (before t : List UInt8) (rs : List Record) :
    ((places before.length rs).flatMap ttl_places).foldlM (lower_at seconds)
        (before ++ (rs.flatMap Record.bytes ++ t)) =
      some (before ++ ((rs.map (Record.lowered seconds)).flatMap Record.bytes ++ t)) := by
  induction rs generalizing before with
  | nil => rfl
  | cons r rs ih =>
    have hrest := ih (before ++ (r.lowered seconds).bytes)
    rw [List.length_append, r.length_lowered] at hrest
    have hfirst : (ttl_places (r, before.length + r.name.length)).foldlM (lower_at seconds)
        (before ++ (r.bytes ++ (rs.flatMap Record.bytes ++ t))) =
          some (before ++ ((r.lowered seconds).bytes ++ (rs.flatMap Record.bytes ++ t))) := by
      by_cases hopt : r.rtype = OPT
      · simp [ttl_places, hopt, Record.lowered]
      · simp [ttl_places, hopt, lower_at_record seconds before _ hopt]
    simp only [places, List.flatMap_cons, List.foldlM_append, List.map_cons, List.append_assoc,
      hfirst, Option.bind_eq_bind, Option.bind_some]
    simpa only [List.append_assoc] using hrest

theorem ttl_offsets_bytes (m : Message) :
    ttl_offsets m.bytes = some ((places m.records_at m.records).flatMap ttl_places) :=
  m.marks_bytes fun _ hx => ttl_mark_places m.drop_records hx

/-- The walk goes the same way over a message and over its lowering. -/
theorem Message.walked_alike (m : Message) (seconds : UInt32) :
    ttl_offsets (m.lowered seconds).bytes = ttl_offsets m.bytes ∧
      record_types (m.lowered seconds).bytes = record_types m.bytes := by
  have hat : (m.lowered seconds).records_at = m.records_at := rfl
  have hrecords : (m.lowered seconds).records = m.records.map (Record.lowered seconds) := by
    simp [records, lowered]
  have hplaces : ∀ x : Record × ℕ, ttl_places (x.1.lowered seconds, x.2) = ttl_places x := by
    intro x
    have htype : (x.1.lowered seconds).rtype = x.1.rtype := by
      unfold Record.lowered
      split_ifs <;> rfl
    rw [ttl_places, ttl_places, htype]
  rw [ttl_offsets_bytes, ttl_offsets_bytes, record_types_bytes, record_types_bytes, hat, hrecords,
    places_lowered, List.flatMap_map, List.map_map]
  exact ⟨congrArg _ (List.flatMap_congr fun x _ => hplaces x), rfl⟩

theorem lower_ttls_bytes (m : Message) (seconds : UInt32) :
    lower_ttls m.bytes seconds = some (m.lowered seconds).bytes := by
  unfold lower_ttls
  split_ifs with hzero
  · rw [hzero, m.lowered_zero]
  · let before := m.header ++ m.questions.flatMap Question.bytes
    have hbefore : m.records_at = before.length := by
      rw [List.length_append, m.length_header, Message.records_at]
    have hbytes : m.bytes = before ++ (m.records.flatMap Record.bytes ++ m.rest) := by
      rw [Message.bytes, List.append_assoc]
    rw [ttl_offsets_bytes, Option.getD_some, hbefore, hbytes, lower_records, m.lowered_bytes,
      List.append_assoc]

theorem lower_ttls_unread {wire : List UInt8} (h : ¬ ∃ m : Message, m.bytes = wire)
    (seconds : UInt32) : lower_ttls wire seconds = some wire := by
  unfold lower_ttls
  split_ifs
  · rfl
  · have hoffsets : ttl_offsets wire = none := by
      by_contra hsome
      obtain ⟨marks, hmarks⟩ := Option.ne_none_iff_exists'.1 hsome
      exact h (Message.exists_of_marks hmarks)
    rw [hoffsets]
    rfl

/-- **Lowering the TTLs.**  No byte outside the message is touched; of a message that reads to its
last record exactly the TTLs of the records that are not the OPT pseudo-record are lowered, any
other is left alone; the walk goes the same way afterwards; and lowering twice is lowering once by
the sum. -/
theorem lower_ttls_spec (wire : List UInt8) (seconds : UInt32) :
    (∃ wire', lower_ttls wire seconds = some wire' ∧
      (∀ m : Message, m.bytes = wire → wire' = (m.lowered seconds).bytes) ∧
      ((¬ ∃ m : Message, m.bytes = wire) → wire' = wire) ∧
      ttl_offsets wire' = ttl_offsets wire ∧ record_types wire' = record_types wire) ∧
    ∀ a b, (lower_ttls wire a).bind (lower_ttls · b) = lower_ttls wire (saturating_add a b) := by
  by_cases hread : ∃ m : Message, m.bytes = wire
  · obtain ⟨m, rfl⟩ := hread
    refine ⟨⟨_, lower_ttls_bytes m seconds, fun m' hm' => ?_, fun h => (h ⟨m, rfl⟩).elim,
      m.walked_alike seconds⟩, fun a b => ?_⟩
    · have h := lower_ttls_bytes m' seconds
      rw [hm', lower_ttls_bytes m seconds] at h
      exact Option.some.inj h
    · rw [lower_ttls_bytes, Option.bind_some, lower_ttls_bytes, m.lowered_lowered,
        lower_ttls_bytes]
  · refine ⟨⟨wire, lower_ttls_unread hread seconds, fun m hm => (hread ⟨m, hm⟩).elim, fun _ => rfl,
      rfl, rfl⟩, fun a b => ?_⟩
    rw [lower_ttls_unread hread, Option.bind_some, lower_ttls_unread hread, lower_ttls_unread hread]

end Dns

end Rurge
