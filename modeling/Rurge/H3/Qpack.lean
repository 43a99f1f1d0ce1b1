import Rurge.H3.Huffman
import Rurge.Lib.Readers

/-!
# QPACK with the static table alone

`h3/qpack.rs`: the field sections that the HTTP/3 client sends (`encode`) and takes (`decode`).  A
sum that could pass the machine's integers is checked: where the code would overflow, the model
fails with `Overflow`.  A length is a word of 64 bits.
-/

namespace Rurge

namespace H3

namespace Qpack

/-- The bytes of a text in ASCII. -/
def ascii (s : String) : List UInt8 := s.toList.map fun c => .ofNat c.toNat

/-- The static table. -/
def STATIC_TABLE : List (List UInt8 × List UInt8) :=
  [(":authority", ""), (":path", "/"), ("age", "0"), ("content-disposition", ""),
   ("content-length", "0"), ("cookie", ""), ("date", ""), ("etag", ""), ("if-modified-since", ""),
   ("if-none-match", ""), ("last-modified", ""), ("link", ""), ("location", ""), ("referer", ""),
   ("set-cookie", ""), (":method", "CONNECT"), (":method", "DELETE"), (":method", "GET"),
   (":method", "HEAD"), (":method", "OPTIONS"), (":method", "POST"), (":method", "PUT"),
   (":scheme", "http"), (":scheme", "https"), (":status", "103"), (":status", "200"),
   (":status", "304"), (":status", "404"), (":status", "503"), ("accept", "*/*"),
   ("accept", "application/dns-message"), ("accept-encoding", "gzip, deflate, br"),
   ("accept-ranges", "bytes"), ("access-control-allow-headers", "cache-control"),
   ("access-control-allow-headers", "content-type"), ("access-control-allow-origin", "*"),
   ("cache-control", "max-age=0"), ("cache-control", "max-age=2592000"),
   ("cache-control", "max-age=604800"), ("cache-control", "no-cache"),
   ("cache-control", "no-store"), ("cache-control", "public, max-age=31536000"),
   ("content-encoding", "br"), ("content-encoding", "gzip"),
   ("content-type", "application/dns-message"), ("content-type", "application/javascript"),
   ("content-type", "application/json"), ("content-type", "application/x-www-form-urlencoded"),
   ("content-type", "image/gif"), ("content-type", "image/jpeg"), ("content-type", "image/png"),
   ("content-type", "text/css"), ("content-type", "text/html; charset=utf-8"),
   ("content-type", "text/plain"), ("content-type", "text/plain;charset=utf-8"),
   ("range", "bytes=0-"), ("strict-transport-security", "max-age=31536000"),
   ("strict-transport-security", "max-age=31536000; includesubdomains"),
   ("strict-transport-security", "max-age=31536000; includesubdomains; preload"),
   ("vary", "accept-encoding"), ("vary", "origin"), ("x-content-type-options", "nosniff"),
   ("x-xss-protection", "1; mode=block"), (":status", "100"), (":status", "204"),
   (":status", "206"), (":status", "302"), (":status", "400"), (":status", "403"),
   (":status", "421"), (":status", "425"), (":status", "500"), ("accept-language", ""),
   ("access-control-allow-credentials", "FALSE"), ("access-control-allow-credentials", "TRUE"),
   ("access-control-allow-headers", "*"), ("access-control-allow-methods", "get"),
   ("access-control-allow-methods", "get, post, options"),
   ("access-control-allow-methods", "options"),
   ("access-control-expose-headers", "content-length"),
   ("access-control-request-headers", "content-type"), ("access-control-request-method", "get"),
   ("access-control-request-method", "post"), ("alt-svc", "clear"), ("authorization", ""),
   ("content-security-policy", "script-src 'none'; object-src 'none'; base-uri 'none'"),
   ("early-data", "1"), ("expect-ct", ""), ("forwarded", ""), ("if-range", ""), ("origin", ""),
   ("purpose", "prefetch"), ("server", ""), ("timing-allow-origin", "*"),
   ("upgrade-insecure-requests", "1"), ("user-agent", ""), ("x-forwarded-for", ""),
   ("x-frame-options", "deny"),
   ("x-frame-options", "sameorigin")].map fun e => (ascii e.1, ascii e.2)

/-- A field line: its name and its value. -/
abbrev Field := List UInt8 × List UInt8

/-- Why a field section was not taken. -/
inductive Refused
  | Invalid
  | TooLarge
  deriving DecidableEq

/-- How a reading fails: the section is refused, or a sum passes its integer. -/
inductive Fault
  | Refused (why : Refused)
  | Overflow
  deriving DecidableEq

/-- The largest integer of QUIC. -/
def VARINT_MAX : ℕ := 2 ^ 62 - 1

/-- A value made, when it is a word. -/
def word (n : ℕ) : Except Fault ℕ := if n < 2 ^ 64 then .ok n else .error .Overflow

/-! ### Reading -/

/-- `Err(Refused::Invalid)`. -/
def invalid : Fault := .Refused .Invalid

/-- The bytes of an integer past its prefix, seven bits each, the least significant first. -/
def get_more (value shift : ℕ) : List UInt8 → Except Fault (ℕ × List UInt8)
  | [] => .error invalid
  | byte :: rest => do
    let value ← word (value + (byte &&& 0x7f).toNat <<< shift)
    if byte &&& 0x80 = 0 then return (value, rest)
    else if 56 < shift + 7 then throw invalid
    else get_more value (shift + 7) rest

/-- The integer with an `n`-bit prefix, and the bits of its first byte above the prefix. -/
def get_int (n : ℕ) : Reader UInt8 Fault (UInt8 × ℕ) := do
  let first ← Reader.next invalid
  let max := 2 ^ n - 1
  let value := first.toNat &&& max
  if value = max then
    let value ← get_more value 0
    if VARINT_MAX < value then throw invalid else return (first &&& ~~~(.ofNat max), value)
  else return (first &&& ~~~(.ofNat max), value)

/-- `huffman::decode`, which first sets aside room for what comes out. -/
def huffman (bytes : List UInt8) : Except Fault (List UInt8) := do
  let _ ← word (bytes.length * 8)
  match Huffman.decode bytes with
  | some out => return out
  | none => throw invalid

/-- The string literal whose length has an `n`-bit prefix. -/
def get_string (n : ℕ) : Reader UInt8 Fault (List UInt8) := do
  let (flags, len) ← get_int n
  let bytes ← Reader.take invalid len
  if flags &&& (1 : UInt8) <<< .ofNat n ≠ 0 then huffman bytes else return bytes

/-- The entry at `index` of the static table. -/
def entry (index : ℕ) : Except Fault Field :=
  match STATIC_TABLE[index]? with
  | some entry => .ok entry
  | none => .error invalid

/-- The field line that begins with the byte `first`. -/
def get_field (first : UInt8) : Reader UInt8 Fault Field := do
  if first &&& 0x80 ≠ 0 then
    let (flags, index) ← get_int 6
    if flags &&& 0x40 = 0 then throw invalid
    else entry index
  else if first &&& 0x40 ≠ 0 then
    let (flags, index) ← get_int 4
    if flags &&& 0x10 = 0 then throw invalid
    else
      let (name, _) ← entry index
      return (name, ← get_string 7)
  else if first &&& 0x20 ≠ 0 then
    let name ← get_string 3
    return (name, ← get_string 7)
  else throw invalid

/-! ### What is left -/

theorem length_of_get_more {value shift v : ℕ} {src rest : List UInt8}
    (h : get_more value shift src = .ok (v, rest)) : rest.length < src.length := by
  induction src generalizing value shift with
  | nil => cases h
  | cons byte src ih =>
    rw [get_more] at h
    cases hword : word (value + (byte &&& 0x7f).toNat <<< shift) with
    | error e =>
      rw [hword] at h
      cases h
    | ok w =>
      rw [hword] at h
      change (if byte &&& 0x80 = 0 then Except.ok (w, src)
        else if 56 < shift + 7 then Except.error invalid else get_more w (shift + 7) src) = _ at h
      split_ifs at h
      · cases h
        exact Nat.lt_succ_self _
      · exact (ih h).trans (Nat.lt_succ_self _)

/-- The bits of the first byte of an integer that are not the integer's. -/
def flags_of (n : ℕ) (first : UInt8) : UInt8 := first &&& ~~~(.ofNat (2 ^ n - 1))

/-- An integer is its prefix, unless that is all ones. -/
theorem get_int_cases {n value : ℕ} {flags : UInt8} {src rest : List UInt8}
    (h : get_int n src = .ok ((flags, value), rest)) :
    ∃ first tail, src = first :: tail ∧ flags = flags_of n first ∧
      (first.toNat &&& (2 ^ n - 1) ≠ 2 ^ n - 1 ∧ value = first.toNat &&& (2 ^ n - 1) ∧ rest = tail ∨
        get_more (2 ^ n - 1) 0 tail = .ok (value, rest)) := by
  obtain ⟨first, tail, hnext, hread⟩ := Reader.bind_eq_ok.1 h
  cases src with
  | nil => cases hnext
  | cons b src =>
    cases hnext
    refine ⟨first, tail, rfl, ?_⟩
    rw [Reader.ite_apply] at hread
    split_ifs at hread with hmax
    · obtain ⟨v, left, hmore, hread⟩ := Reader.bind_eq_ok.1 hread
      rw [Reader.ite_apply] at hread
      split_ifs at hread
      · cases hread
      · cases hread
        rw [hmax] at hmore
        exact ⟨rfl, .inr hmore⟩
    · cases hread
      exact ⟨rfl, .inl ⟨hmax, rfl, rfl⟩⟩

/-- A string is as many bytes as its length says, decoded or as they are. -/
theorem get_string_cases {n : ℕ} {out src rest : List UInt8}
    (h : get_string n src = .ok (out, rest)) :
    ∃ flags len tail, get_int n src = .ok ((flags, len), tail) ∧ len ≤ tail.length ∧
      rest = tail.drop len ∧
      ((flags &&& (1 : UInt8) <<< .ofNat n ≠ 0 ∧ huffman (tail.take len) = .ok out) ∨
        out = tail.take len) := by
  obtain ⟨⟨flags, len⟩, tail, hint, hread⟩ := Reader.bind_eq_ok.1 h
  obtain ⟨bytes, left, htake, hread⟩ := Reader.bind_eq_ok.1 hread
  unfold Reader.take at htake
  split_ifs at htake with hlength
  cases htake
  refine ⟨flags, len, tail, hint, not_lt.1 hlength, ?_⟩
  rw [Reader.ite_apply] at hread
  split_ifs at hread with hflag
  · rw [Reader.lift_apply] at hread
    cases hout : huffman (tail.take len) with
    | error e =>
      rw [hout] at hread
      cases hread
    | ok bytes =>
      rw [hout] at hread
      cases hread
      exact ⟨rfl, .inl ⟨hflag, rfl⟩⟩
  · cases hread
    exact ⟨rfl, .inr rfl⟩

theorem length_of_get_int {n value : ℕ} {flags : UInt8} {src rest : List UInt8}
    (h : get_int n src = .ok ((flags, value), rest)) : rest.length < src.length := by
  obtain ⟨first, tail, rfl, -, ⟨-, -, rfl⟩ | hmore⟩ := get_int_cases h
  · exact Nat.lt_succ_self _
  · exact (length_of_get_more hmore).trans (Nat.lt_succ_self _)

theorem length_of_get_string {n : ℕ} {out src rest : List UInt8}
    (h : get_string n src = .ok (out, rest)) : rest.length < src.length := by
  obtain ⟨flags, len, tail, hint, -, rfl, -⟩ := get_string_cases h
  rw [List.length_drop]
  exact (Nat.sub_le _ _).trans_lt (length_of_get_int hint)

/-- A field line is an entry of the table, the name of one with a value, or a name and a value. -/
theorem get_field_cases {first : UInt8} {field : Field} {src rest : List UInt8}
    (h : get_field first src = .ok (field, rest)) :
    (∃ flags index, get_int 6 src = .ok ((flags, index), rest) ∧ entry index = .ok field) ∨
    (∃ flags index tail named, get_int 4 src = .ok ((flags, index), tail) ∧
      entry index = .ok named ∧ field.1 = named.1 ∧ get_string 7 tail = .ok (field.2, rest)) ∨
    ∃ tail, get_string 3 src = .ok (field.1, tail) ∧ get_string 7 tail = .ok (field.2, rest) := by
  unfold get_field at h
  rw [Reader.ite_apply, Reader.ite_apply, Reader.ite_apply] at h
  split_ifs at h
  · obtain ⟨⟨flags, index⟩, tail, hint, hread⟩ := Reader.bind_eq_ok.1 h
    dsimp only at hread
    rw [Reader.ite_apply] at hread
    split_ifs at hread
    · cases hread
    · rw [Reader.lift_apply] at hread
      cases hentry : entry index with
      | error e =>
        rw [hentry] at hread
        cases hread
      | ok named =>
        rw [hentry] at hread
        cases hread
        exact .inl ⟨flags, index, hint, hentry⟩
  · obtain ⟨⟨flags, index⟩, tail, hint, hread⟩ := Reader.bind_eq_ok.1 h
    dsimp only at hread
    rw [Reader.ite_apply] at hread
    split_ifs at hread
    · cases hread
    · obtain ⟨named, left, hlift, hread⟩ := Reader.bind_eq_ok.1 hread
      rw [Reader.lift_apply] at hlift
      cases hentry : entry index with
      | error e =>
        rw [hentry] at hlift
        cases hlift
      | ok e =>
        rw [hentry] at hlift
        cases hlift
        obtain ⟨value, left, hvalue, hread⟩ := Reader.bind_eq_ok.1 hread
        cases hread
        exact .inr (.inl ⟨flags, index, _, _, hint, hentry, rfl, hvalue⟩)
  · obtain ⟨name, tail, hname, hread⟩ := Reader.bind_eq_ok.1 h
    obtain ⟨value, left, hvalue, hread⟩ := Reader.bind_eq_ok.1 hread
    cases hread
    exact .inr (.inr ⟨tail, hname, hvalue⟩)
  · cases h

theorem length_of_get_field {first : UInt8} {field : Field} {src rest : List UInt8}
    (h : get_field first src = .ok (field, rest)) : rest.length < src.length := by
  obtain ⟨_, _, hint, -⟩ | ⟨_, _, _, _, hint, -, -, hvalue⟩ | ⟨_, hname, hvalue⟩ :=
    get_field_cases h
  · exact length_of_get_int hint
  · exact (length_of_get_string hvalue).trans (length_of_get_int hint)
  · exact (length_of_get_string hvalue).trans (length_of_get_string hname)

/-! ### The section -/

/-- The size so far with one field more, unless it passes the limit. -/
def counted (limit size : ℕ) (field : Field) : Except Fault ℕ := do
  let both ← word (field.1.length + field.2.length)
  let cost ← word (both + 32)
  let size ← word (size + cost)
  if limit < size then throw (.Refused .TooLarge) else return size

/-- The field lines up to the end, with the size of those before. -/
def get_fields (limit size : ℕ) (src : List UInt8) : Except Fault (List Field) :=
  match src with
  | [] => .ok []
  | first :: rest =>
    match _h : get_field first (first :: rest) with
    | .error e => .error e
    | .ok (field, left) =>
      match counted limit size field with
      | .error e => .error e
      | .ok size => (get_fields limit size left).map (field :: ·)
termination_by src.length
decreasing_by exact length_of_get_field _h

/-- The Required Insert Count, which is 0 without a dynamic table, and the Base. -/
def get_prefix : Reader UInt8 Fault Unit := do
  let (_, required) ← get_int 8
  let (sign, _) ← get_int 7
  if required ≠ 0 ∨ sign ≠ 0 then throw invalid else return ()

/-- The fields of `section`, whose size must not pass `limit`. -/
def decode (src : List UInt8) (limit : ℕ) : Except Fault (List Field) :=
  match get_prefix src with
  | .error e => .error e
  | .ok (_, rest) => get_fields limit 0 rest

/-! ### Writing -/

/-- What an integer has past its prefix. -/
def put_more (rest : ℕ) : List UInt8 :=
  if _h : 0x80 ≤ rest then (0x80 ||| .ofNat (rest &&& 0x7f)) :: put_more (rest >>> 7)
  else [.ofNat rest]
termination_by rest
decreasing_by
  rw [Nat.shiftRight_eq_div_pow]
  omega

/-- `value` as an integer with an `n`-bit prefix, `flags` in the bits of the first byte above. -/
def put_int (flags : UInt8) (n value : ℕ) : List UInt8 :=
  let max := 2 ^ n - 1
  if value < max then [flags ||| .ofNat value]
  else (flags ||| .ofNat max) :: put_more (value - max)

/-- `bytes` as a string literal, not encoded. -/
def put_string (flags : UInt8) (n : ℕ) (bytes : List UInt8) : List UInt8 :=
  put_int flags n bytes.length ++ bytes

/-- A field: its exact entry, else a literal value with the entry of its name, else literals.  A
sensitive value is always a literal, marked never to be indexed. -/
def put_field (field : Field) (sensitive : Bool) : List UInt8 :=
  let exact_ := STATIC_TABLE.findIdx? fun e => e.1 == field.1 && e.2 == field.2
  let named := STATIC_TABLE.findIdx? fun e => e.1 == field.1
  match if sensitive then none else exact_, named with
  | some index, _ => put_int 0xc0 6 index
  | none, some index =>
    put_int (0x50 ||| if sensitive then 0x20 else 0) 4 index ++ put_string 0 7 field.2
  | none, none =>
    put_string (0x20 ||| if sensitive then 0x10 else 0) 3 field.1 ++ put_string 0 7 field.2

/-- The field section of `fields`, in order. -/
def encode (fields : List (Field × Bool)) : List UInt8 :=
  [0, 0] ++ fields.flatMap fun f => put_field f.1 f.2

end Qpack

end H3

end Rurge
