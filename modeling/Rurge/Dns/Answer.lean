import Mathlib
import Rurge.Net.Addr
import Rurge.Dns.Names

/-!
# Reading a query and answering it

`read_request` reads a query where it stands, `answer` writes the answer to it byte by byte.  What
is written is a whole message: the question as it came, a record for each address of the family
that was asked for, its name a pointer to the question's, and an OPT record where the query had
one.
-/

namespace Rurge

namespace Dns

open BigEndian
open Quic (slice slice_of_drop drop_add)

/-! ### Header and OPT record -/

def QR : UInt8 := 0x80
def AA : UInt8 := 0x04
def RD : UInt8 := 0x01
def RA : UInt8 := 0x80

def TYPE_A : UInt16 := 1
def TYPE_AAAA : UInt16 := 28
def CLASS_IN : UInt16 := 1

/-- What the header of a message tells whoever answers it. -/
structure Header where
  id : UInt16
  opcode : UInt8
  recursion_desired : Bool
  deriving DecidableEq

/-- The header's fields, or nothing for fewer than 12 bytes. -/
def wire_header (bytes : List UInt8) : Option Header :=
  if h : 12 ≤ bytes.length then
    some ⟨from_u16 [bytes[0], bytes[1]], (bytes[2] >>> 3) &&& 0x0f, bytes[2] &&& RD ≠ 0⟩
  else none

/-- Whether the QR bit says that the message is a response. -/
def wire_is_response (bytes : List UInt8) : Bool :=
  if h : 12 ≤ bytes.length then bytes[2] &&& QR ≠ 0 else false

/-- Where the OPT record stands among the records `types` of `wire`. -/
def opt_in (wire : List UInt8) (types : List ℕ) : Option ℕ :=
  types.find? fun at_ => wire_u16 wire at_ = some OPT

/-- The UDP payload size the message's OPT record announces, if it has one. -/
def opt_size (bytes : List UInt8) : Option UInt16 := do
  let at_ ← opt_in bytes (← record_types bytes)
  wire_u16 bytes (at_ + 2)

/-! ### Queries -/

/-- The UDP payload size the answers made here announce. -/
def ANSWER_UDP_SIZE : UInt16 := 1232

/-- A query read by `read_request`. -/
structure Request where
  id : UInt16
  recursion_desired : Bool
  name : Str
  qtype : UInt16
  qclass : UInt16
  udp_size : Option UInt16
  question : List UInt8
  deriving DecidableEq

/-- What `read_request` makes of a message that is no query to answer. -/
inductive RequestError
  | NotAQuery
  | NotImplemented (header : Header)
  | Malformed (header : Header)
  deriving DecidableEq

/-- The query behind a header that is a query's. -/
def read_query (bytes : List UInt8) (header : Header) : Option Request := do
  let question ← first_question bytes
  let types ← record_types bytes
  return {
    id := header.id
    recursion_desired := header.recursion_desired
    name := question.name
    qtype := question.qtype
    qclass := question.qclass
    udp_size := (opt_in bytes types).bind fun at_ => wire_u16 bytes (at_ + 2)
    question := (bytes.drop 12).take (question.end_ - 12) }

/-- The query in `bytes`, if it is one to answer. -/
def read_request (bytes : List UInt8) : Except RequestError Request :=
  match wire_header bytes with
  | none => .error .NotAQuery
  | some header =>
    if wire_is_response bytes then .error .NotAQuery
    else if header.opcode ≠ 0 then .error (.NotImplemented header)
    else if wire_u16 bytes 4 ≠ some 1 then .error (.Malformed header)
    else
      match read_query bytes header with
      | none => .error (.Malformed header)
      | some request => .ok request

/-! ### Answers -/

/-- A response code. -/
inductive Rcode
  | NoError
  | NxDomain
  | ServFail
  | Refused
  | FormErr
  | NotImp
  | Other (code : UInt8)

/-- The response codes of the message library. -/
structure Hickory (ResponseCode : Type) where
  NoError : ResponseCode
  NXDomain : ResponseCode
  ServFail : ResponseCode
  Refused : ResponseCode
  FormErr : ResponseCode
  NotImp : ResponseCode
  from_low : UInt8 → ResponseCode
  low : ResponseCode → UInt8

variable {ResponseCode : Type} (hickory : Hickory ResponseCode)

/-- The code as the message library has it. -/
def Rcode.to_hickory : Rcode → ResponseCode
  | NoError => hickory.NoError
  | NxDomain => hickory.NXDomain
  | ServFail => hickory.ServFail
  | Refused => hickory.Refused
  | FormErr => hickory.FormErr
  | NotImp => hickory.NotImp
  | Other n => hickory.from_low n

/-- The four bits the header holds. -/
def Rcode.code (rcode : Rcode) : UInt8 := hickory.low (rcode.to_hickory hickory)

/-- An OPT record that announces `ANSWER_UDP_SIZE`, with no flags and no options. -/
def opt_record : List UInt8 := [0, 0, 41] ++ (u16 ANSWER_UDP_SIZE ++ [0, 0, 0, 0, 0, 0])

/-- The answer to `req`: QR, RA and `flags` set, RD as the request had it, the code `rcode`, the
question as it came, the `count` records in `records`, and the OPT record when the request had
one. -/
def write_reply (req : Request) (flags : UInt8) (rcode : Rcode) (count : UInt16)
    (records : List UInt8) : List UInt8 :=
  u16 req.id ++ ([QR ||| flags ||| (if req.recursion_desired then RD else 0),
    RA ||| rcode.code hickory] ++ (u16 1 ++ (u16 count ++ (u16 0 ++
      (u16 (if req.udp_size.isSome then 1 else 0) ++ (req.question ++ (records ++
        (if req.udp_size.isSome then opt_record else []))))))))

/-- One record of class IN added to `out`: its name is a pointer to the twelfth byte. -/
def push_record (out : List UInt8) (rtype : UInt16) (ttl : UInt32) (data : List UInt8) :
    List UInt8 :=
  out ++ ([0xc0, 0x0c] ++ (u16 rtype ++ (u16 CLASS_IN ++ (u32 ttl ++
    (u16 (.ofNat data.length) ++ data)))))

/-- The bytes of an address. -/
def octets : IpAddr → List UInt8
  | .v4 a => toBytes 4 a.toNat
  | .v6 a => toBytes 16 a.toNat

/-- Whether an address is of the family a question of the type asks for. -/
def asked (qtype : UInt16) : IpAddr → Bool
  | .v4 _ => qtype = TYPE_A
  | .v6 _ => qtype = TYPE_AAAA

/-- The records of the addresses, added to `records` and counted; no more than a `u16` counts. -/
def push_addrs (req : Request) (ttl : UInt32) :
    List IpAddr → List UInt8 → UInt16 → List UInt8 × UInt16
  | [], records, count => (records, count)
  | addr :: addrs, records, count =>
    if asked req.qtype addr then
      let records := push_record records req.qtype ttl (octets addr)
      if count + 1 = 0xffff then (records, count + 1)
      else push_addrs req ttl addrs records (count + 1)
    else push_addrs req ttl addrs records count

/-- An answer built here: the addresses as records of the type that was asked for, each with
`ttl`. -/
def answer (req : Request) (rcode : Rcode) (addrs : List IpAddr) (ttl : UInt32) : List UInt8 :=
  let (records, count) := push_addrs req ttl addrs [] 0
  write_reply hickory req AA rcode count records

/-! ### The OPT record of a message -/

theorem places_fst (a : ℕ) (rs : List Record) : (places a rs).map Prod.fst = rs := by
  induction rs generalizing a with
  | nil => rfl
  | cons r rs ih => rw [places, List.map_cons, ih]

/-- The size the OPT record announces is its class. -/
theorem opt_size_bytes (m : Message) :
    (opt_in m.bytes ((places m.records_at m.records).map Prod.snd)).bind
        (fun at_ => wire_u16 m.bytes (at_ + 2)) =
      (m.records.find? fun r => r.rtype = OPT).map Record.rclass := by
  have hplace : ∀ x ∈ places m.records_at m.records,
      wire_u16 m.bytes x.2 = some x.1.rtype ∧ wire_u16 m.bytes (x.2 + 2) = some x.1.rclass := by
    intro x hx
    obtain ⟨t, ht⟩ := fields_of_places m.drop_records hx
    have hfields := Record.fields ht
    exact ⟨hfields.1, hfields.2.1⟩
  have hlist : ∀ l : List (Record × ℕ), (∀ x ∈ l, wire_u16 m.bytes x.2 = some x.1.rtype ∧
      wire_u16 m.bytes (x.2 + 2) = some x.1.rclass) →
      (opt_in m.bytes (l.map Prod.snd)).bind (fun at_ => wire_u16 m.bytes (at_ + 2)) =
        ((l.map Prod.fst).find? fun r => r.rtype = OPT).map Record.rclass := by
    intro l hl
    induction l with
    | nil => rfl
    | cons x l ih =>
      obtain ⟨htype, hclass⟩ := hl x List.mem_cons_self
      rw [List.map_cons, List.map_cons, opt_in]
      by_cases hopt : x.1.rtype = OPT
      · rw [List.find?_cons_of_pos (by simp [htype, hopt]), List.find?_cons_of_pos (by simp [hopt])]
        exact hclass
      · rw [List.find?_cons_of_neg (by simp [htype, hopt]), List.find?_cons_of_neg (by simp [hopt])]
        exact ih fun y hy => hl y (List.mem_cons_of_mem _ hy)
  rw [hlist _ hplace, places_fst]

/-- Whether the message has an OPT record. -/
def Message.HasOpt (m : Message) : Prop := ∃ r ∈ m.records, r.rtype = OPT

/-! ### The query that is read -/

/-- What a query that is read is made of. -/
structure Asked (bytes : List UInt8) (req : Request) (m : Message) (n : Name) (header : Header) :
    Prop where
  message : m.bytes = bytes
  read_header : wire_header bytes = some header
  id : req.id = header.id
  recursion_desired : req.recursion_desired = header.recursion_desired
  name : req.name = n.present
  question : req.question = n.bytes ++ (u16 req.qtype ++ u16 req.qclass)
  echoed : bytes.drop 12 = req.question ++ bytes.drop (12 + req.question.length)
  udp_size : req.udp_size.isSome ↔ m.HasOpt

theorem asked_of_query {bytes : List UInt8} {header : Header} {req : Request}
    (hheader : wire_header bytes = some header) (h : read_query bytes header = some req) :
    ∃ m n, Asked bytes req m n header := by
  simp only [read_query, Option.bind_eq_bind, Option.bind_eq_some_iff, Option.pure_def,
    Option.some.injEq] at h
  obtain ⟨q, hq, types, htypes, rfl⟩ := h
  obtain ⟨n, hdrop, hname, hend⟩ := question_of_first hq
  obtain ⟨m, rfl⟩ := Message.exists_of_marks htypes
  rw [m.record_types_bytes] at htypes
  obtain rfl := Option.some.inj htypes
  have hstands : m.bytes.drop 12 =
      (n.bytes ++ (u16 q.qtype ++ u16 q.qclass)) ++ m.bytes.drop q.end_ := by
    rw [hdrop, List.append_assoc, List.append_assoc]
  have hlength : (n.bytes ++ (u16 q.qtype ++ u16 q.qclass)).length = q.end_ - 12 := by
    simp only [List.length_append, length_u16]
    omega
  have hquestion : (m.bytes.drop 12).take (q.end_ - 12) =
      n.bytes ++ (u16 q.qtype ++ u16 q.qclass) := by
    rw [hstands, ← hlength, List.take_left]
  refine ⟨m, n, rfl, hheader, rfl, rfl, hname, hquestion, ?_, ?_⟩
  · simp only [hquestion, hlength]
    rw [hstands, show 12 + (q.end_ - 12) = q.end_ by omega]
  · simp only [opt_size_bytes, Option.isSome_map, List.find?_isSome, Message.HasOpt,
      decide_eq_true_eq]

theorem asked_of_request {bytes : List UInt8} {req : Request}
    (h : read_request bytes = .ok req) : ∃ m n header, Asked bytes req m n header := by
  unfold read_request at h
  split at h
  · cases h
  · rename_i header hheader
    split_ifs at h
    split at h
    · cases h
    · rename_i request hquery
      cases h
      obtain ⟨m, n, hasked⟩ := asked_of_query hheader hquery
      exact ⟨m, n, header, hasked⟩

/-! ### The answer that is written -/

theorem length_octets_lt (addr : IpAddr) : (octets addr).length < 2 ^ 16 := by
  cases addr <;> simp [octets]

/-- The record of an address: its name the question's. -/
def address_record (qtype : UInt16) (ttl : UInt32) (addr : IpAddr) : Record where
  name := [0xc0, 0x0c]
  rtype := qtype
  rclass := CLASS_IN
  ttl := ttl
  data := octets addr
  name_ok := .pointer (UInt8.le_refl _)
  data_lt := length_octets_lt addr

/-- The OPT record of an answer. -/
def answer_opt : Record where
  name := [0]
  rtype := OPT
  rclass := ANSWER_UDP_SIZE
  ttl := 0
  data := []
  name_ok := .root
  data_lt := by decide

theorem answer_opt_bytes : answer_opt.bytes = opt_record := by decide

theorem push_record_bytes (out : List UInt8) (qtype : UInt16) (ttl : UInt32) (addr : IpAddr) :
    push_record out qtype ttl (octets addr) = out ++ (address_record qtype ttl addr).bytes :=
  rfl

/-- The records are those of the addresses of the family that was asked for, as many as the count
counts. -/
theorem push_addrs_spec (req : Request) (ttl : UInt32) (addrs : List IpAddr)
    (records : List UInt8) (count : UInt16) (hcount : count.toNat < 65535) :
    push_addrs req ttl addrs records count =
      (records ++ (((addrs.filter (asked req.qtype)).take (65535 - count.toNat)).map
          (address_record req.qtype ttl)).flatMap Record.bytes,
        .ofNat (count.toNat + ((addrs.filter (asked req.qtype)).take
          (65535 - count.toNat)).length)) := by
  induction addrs generalizing records count with
  | nil => simp [push_addrs]
  | cons addr addrs ih =>
    rw [push_addrs]
    by_cases hasked : asked req.qtype addr = true
    · have hnext : (count + 1).toNat = count.toNat + 1 := by
        rw [UInt16.toNat_add, show (1 : UInt16).toNat = 1 from rfl]
        omega
      obtain ⟨room, hroom⟩ : ∃ room, 65535 - count.toNat = room + 1 :=
        ⟨65534 - count.toNat, by omega⟩
      rw [if_pos hasked, List.filter_cons_of_pos hasked, hroom, List.take_succ_cons, List.map_cons,
        List.flatMap_cons, List.length_cons, push_record_bytes]
      split_ifs with hfull
      · have hlast : room = 0 := by
          have : (count + 1).toNat = 65535 := by rw [hfull]; rfl
          omega
        subst hlast
        rw [List.take_zero, List.map_nil, List.flatMap_nil, List.append_nil, List.length_nil]
        refine Prod.ext rfl (UInt16.toNat_inj.1 ?_)
        rw [hnext, UInt16.toNat_ofNat_of_lt' (show _ < 2 ^ 16 by omega)]
      · have hless : (count + 1).toNat < 65535 := by
          have hne : (count + 1).toNat ≠ 65535 := fun h => hfull (UInt16.toNat_inj.1 h)
          omega
        rw [ih _ _ hless, hnext, show 65535 - (count.toNat + 1) = room by omega, List.append_assoc,
          show count.toNat + 1 + _ = count.toNat + (_ + 1) by rw [Nat.add_assoc, Nat.add_comm 1]]
    · rw [if_neg hasked, List.filter_cons_of_neg hasked]
      exact ih records count hcount

theorem Message.wire_header_bytes (m : Message) :
    wire_header m.bytes =
        some ⟨m.id, (m.flags >>> 3) &&& 0x0f, m.flags &&& RD ≠ 0⟩ ∧
      wire_is_response m.bytes = decide (m.flags &&& QR ≠ 0) := by
  obtain ⟨a, b, hid⟩ : ∃ a b, u16 m.id = [a, b] := ⟨_, _, rfl⟩
  have hread : from_u16 [a, b] = m.id := by rw [← hid, from_u16_u16]
  have hlength : 12 ≤ m.bytes.length := by
    rw [bytes, List.length_append, m.length_header]
    omega
  obtain ⟨t, ht⟩ : ∃ t, m.bytes = a :: b :: m.flags :: m.code :: t := by
    rw [bytes, header, hid]
    exact ⟨_, rfl⟩
  rw [ht] at hlength ⊢
  rw [wire_header, wire_is_response, dif_pos hlength, dif_pos hlength, ← hread]
  exact ⟨rfl, rfl⟩

theorem Message.opt_size_eq (m : Message) :
    opt_size m.bytes = (m.records.find? fun r => r.rtype = OPT).map Record.rclass := by
  rw [← opt_size_bytes, opt_size, m.record_types_bytes]
  rfl

theorem Message.hasOpt_iff (m : Message) : m.HasOpt ↔ (opt_size m.bytes).isSome := by
  simp only [m.opt_size_eq, Option.isSome_map, List.find?_isSome, HasOpt, decide_eq_true_eq]

theorem Message.walk_to_end {m : Message} (h : m.rest = []) :
    (walk m.bytes fun at_ => some [at_]).map Prod.snd = some m.bytes.length := by
  rw [m.walk_bytes fun x _ => rfl, Option.map_some, bytes, h, records_at, List.append_nil,
    List.length_append, List.length_append, m.length_header, Nat.add_assoc]

/-- What the answer to a query is made of. -/
def answer_message (req : Request) (n : Name) (rcode : Rcode) (addrs : List IpAddr)
    (ttl : UInt32) : Message where
  id := req.id
  flags := QR ||| AA ||| (if req.recursion_desired then RD else 0)
  code := RA ||| rcode.code hickory
  questions := [⟨n.bytes, req.qtype, req.qclass, isName_spell n.labels_ok⟩]
  answers := ((addrs.filter (asked req.qtype)).take 65535).map (address_record req.qtype ttl)
  authorities := []
  additionals := if req.udp_size.isSome then [answer_opt] else []
  rest := []
  questions_lt := (by decide : 1 < 2 ^ 16)
  answers_lt := by
    rw [List.length_map]
    exact lt_of_le_of_lt (List.length_take_le _ _) (by decide)
  authorities_lt := by decide
  additionals_lt := by split_ifs <;> decide

theorem answer_bytes {req : Request} {n : Name}
    (hquestion : req.question = n.bytes ++ (u16 req.qtype ++ u16 req.qclass)) (rcode : Rcode)
    (addrs : List IpAddr) (ttl : UInt32) :
    answer hickory req rcode addrs ttl = (answer_message hickory req n rcode addrs ttl).bytes := by
  have hpushed := push_addrs_spec req ttl addrs [] 0 (by decide)
  rw [show (0 : UInt16).toNat = 0 from rfl, Nat.sub_zero, Nat.zero_add, List.nil_append] at hpushed
  rw [answer, hpushed]
  by_cases hopt : req.udp_size.isSome = true
  · simp [write_reply, Message.bytes, Message.header, Message.records, answer_message, hopt,
      hquestion, Question.bytes, answer_opt_bytes]
  · simp [write_reply, Message.bytes, Message.header, Message.records, answer_message, hopt,
      hquestion, Question.bytes]

theorem answer_name_stands (req : Request) (n : Name) (rcode : Rcode) (addrs : List IpAddr)
    (ttl : UInt32) : ∃ t, (answer_message hickory req n rcode addrs ttl).bytes.drop 12 =
      n.bytes ++ (u16 req.qtype ++ (u16 req.qclass ++ t)) := by
  have hquestions := (answer_message hickory req n rcode addrs ttl).drop_questions
  have hone : (answer_message hickory req n rcode addrs ttl).questions.flatMap Question.bytes =
      n.bytes ++ (u16 req.qtype ++ u16 req.qclass) := List.append_nil _
  rw [hone, List.append_assoc, List.append_assoc] at hquestions
  exact ⟨_, hquestions⟩

theorem answer_question (req : Request) (n : Name) (rcode : Rcode) (addrs : List IpAddr)
    (ttl : UInt32) : wire_question (answer_message hickory req n rcode addrs ttl).bytes =
      some (n.present, req.qtype, req.qclass) := by
  obtain ⟨t, hstands⟩ := answer_name_stands hickory req n rcode addrs ttl
  have hcount := (@Message.header_counts (answer_message hickory req n rcode addrs ttl)
    (answer_message hickory req n rcode addrs ttl).bytes _ rfl).1
  rw [wire_question, first_of_question n hcount (by decide : (1 : UInt16) ≠ 0) hstands]
  rfl

/-- The records of addresses are no OPT records: the answer has one where it is put. -/
theorem answer_opt_size (req : Request) (n : Name) (rcode : Rcode) (addrs : List IpAddr)
    (ttl : UInt32) : opt_size (answer_message hickory req n rcode addrs ttl).bytes =
      if req.udp_size.isSome then some ANSWER_UDP_SIZE else none := by
  have haddresses : ((answer_message hickory req n rcode addrs ttl).answers.find? fun r =>
      r.rtype = OPT) = none := by
    rw [List.find?_eq_none]
    intro r hr
    obtain ⟨addr, haddr, rfl⟩ := List.mem_map.1 hr
    have hasked := (List.mem_filter.1 (List.mem_of_mem_take haddr)).2
    have htype : req.qtype = TYPE_A ∨ req.qtype = TYPE_AAAA := by
      cases addr with
      | v4 _ => exact .inl (of_decide_eq_true hasked)
      | v6 _ => exact .inr (of_decide_eq_true hasked)
    rcases htype with h | h <;> simp [address_record, h, TYPE_A, TYPE_AAAA, OPT]
  rw [Message.opt_size_eq, Message.records, List.find?_append, haddresses, Option.none_or]
  simp only [answer_message, List.nil_append]
  split_ifs <;> rfl

theorem answer_flags (b : Bool) :
    (QR ||| AA ||| (if b then RD else 0)) &&& QR ≠ 0 ∧
      decide ((QR ||| AA ||| (if b then RD else 0)) &&& RD ≠ 0) = b := by
  cases b <;> decide

/-- A well-formed answer `out`, made of `reply`, to the query in the bytes `query`. -/
structure IsAnswer (query : List UInt8) (req : Request) (addrs : List IpAddr) (ttl : UInt32)
    (out : List UInt8) (reply : Message) : Prop where
  written : reply.bytes = out
  response : wire_is_response out = true
  header : ∃ asking answering, wire_header query = some asking ∧ wire_header out = some answering ∧
    answering.id = asking.id ∧ answering.recursion_desired = asking.recursion_desired
  question : wire_question out = some (req.name, req.qtype, req.qclass)
  echoed : reply.questions.flatMap Question.bytes = req.question ∧ req.question <+: query.drop 12
  walked : (walk out fun at_ => some [at_]).map Prod.snd = some out.length
  rest : reply.rest = []
  name : ∃ n : Name, n.StandsAt out 12 ∧ req.name = n.present
  answers : reply.answers =
    ((addrs.filter (asked req.qtype)).take 65535).map (address_record req.qtype ttl)
  authorities : reply.authorities = []
  opt : ∀ m : Message, m.bytes = query →
    (m.HasOpt → opt_size out = some ANSWER_UDP_SIZE) ∧ (¬ m.HasOpt → opt_size out = none)

/-- **A query that is read is answered well.**  Whatever the code, the addresses and the TTL, the
bytes written are a message whose walk comes out at its end, with the question as it came, the
query's ID and RD bit, a record for each of the first 65535 addresses of the family that was asked
for, its name a pointer to the question's, and an OPT record of its own exactly when the query had
one. -/
theorem answer_well_formed {bytes : List UInt8} {req : Request}
    (h : read_request bytes = .ok req) (rcode : Rcode) (addrs : List IpAddr) (ttl : UInt32) :
    ∃ reply : Message,
      IsAnswer bytes req addrs ttl (answer hickory req rcode addrs ttl) reply := by
  obtain ⟨m, n, header, hasked⟩ := asked_of_request h
  have hheader := (answer_message hickory req n rcode addrs ttl).wire_header_bytes
  have hflags := answer_flags req.recursion_desired
  rw [answer_bytes hickory hasked.question rcode addrs ttl]
  refine ⟨answer_message hickory req n rcode addrs ttl,
    { written := rfl
      response := hheader.2.trans (decide_eq_true hflags.1)
      header := ⟨header, _, hasked.read_header, hheader.1, hasked.id,
        hflags.2.trans hasked.recursion_desired⟩
      question := ?_
      echoed := ⟨?_, ⟨_, hasked.echoed.symm⟩⟩
      walked := Message.walk_to_end rfl
      rest := rfl
      name := ?_
      answers := rfl
      authorities := rfl
      opt := fun q hq => ?_ }⟩
  · rw [answer_question, hasked.name]
  · rw [hasked.question]
    exact List.append_nil _
  · obtain ⟨t, ht⟩ := answer_name_stands hickory req n rcode addrs ttl
    exact ⟨n, ⟨_, ht⟩, hasked.name⟩
  · have hsame : q.HasOpt ↔ req.udp_size.isSome = true := by
      rw [hasked.udp_size, q.hasOpt_iff, m.hasOpt_iff, hq, hasked.message]
    rw [answer_opt_size]
    exact ⟨fun hopt => if_pos (hsame.1 hopt), fun hopt => if_neg fun h => hopt (hsame.2 h)⟩

/-- A query for the address of `a`, answered with one. -/
theorem answer_well_formed_a : ∃ (req : Request) (reply : Message),
    read_request [0, 7, 1, 0, 0, 1, 0, 0, 0, 0, 0, 0, 1, 0x41, 0, 0, 1, 0, 1] = .ok req ∧
      IsAnswer [0, 7, 1, 0, 0, 1, 0, 0, 0, 0, 0, 0, 1, 0x41, 0, 0, 1, 0, 1] req
        [.v6 1, .v4 0xc6120001] 60 (answer ⟨0, 3, 2, 5, 1, 4, fun n => n &&& 15, fun c => c⟩ req
          .NoError [.v6 1, .v4 0xc6120001] 60) reply := by
  have hread : read_request [0, 7, 1, 0, 0, 1, 0, 0, 0, 0, 0, 0, 1, 0x41, 0, 0, 1, 0, 1] =
      .ok ⟨7, true, ['a'], 1, 1, none, [1, 0x41, 0, 0, 1, 0, 1]⟩ := by decide +kernel
  obtain ⟨reply, hreply⟩ := answer_well_formed
    (⟨0, 3, 2, 5, 1, 4, fun n => n &&& 15, fun c => c⟩ : Hickory UInt8) hread .NoError
    [.v6 1, .v4 0xc6120001] 60
  exact ⟨_, reply, hread, hreply⟩

end Dns

end Rurge
