import Rurge.Shadowsocks.Udp

/-!
# UDP over one byte stream

trojan's UDP ASSOCIATE and the UDP over TCP of AnyTLS: each datagram goes as its address, its length
and the payload, and the request head goes out with the first of them
(`rurge_proto::stream_udp`, `rurge_proto::addr`).  What makes A-labels of a name is a parameter.
-/

namespace Rurge

namespace StreamUdp

open BigEndian

inductive ErrorKind
  | InvalidInput
  | InvalidData
  | UnexpectedEof
  deriving DecidableEq

/-- `io::Error`. -/
structure IoError where
  kind : ErrorKind
  message : String
  deriving DecidableEq

/-! ### Addresses -/

inductive AddrError
  | Unsendable
  | TooLong
  deriving DecidableEq

/-- The bytes of a text in UTF-8. -/
def utf8 (s : Str) : List UInt8 := s.flatMap String.utf8EncodeChar

section

-- `idna::domain_to_ascii`
variable (idna : Str → Option Str)

/-- A name in the form a proxy request carries. -/
def to_ascii (name : Str) : Option Str :=
  let ascii := if name.all fun c => c.toNat < 128 then some name else idna name
  ascii.filter fun ascii =>
    ascii ≠ [] && ascii.all fun c => c.isAlphanum || c == '-' || c == '.' || c == '_'

/-- `ATYP ADDR PORT`. -/
def socks_addr (target : Target) : Except AddrError (List UInt8) :=
  let addr : Except AddrError (List UInt8) := match target.host with
    | .ip (.v4 ip) => .ok (1 :: toBytes 4 ip.toNat)
    | .ip (.v6 ip) => .ok (4 :: toBytes 16 ip.toNat)
    | .domain name =>
      match to_ascii idna name with
      | none => .error .Unsendable
      | some name =>
        if (utf8 name).length ≤ 255 then .ok (3 :: UInt8.ofNat (utf8 name).length :: utf8 name)
        else .error .TooLong
  addr.map (· ++ u16 target.port)

end

/-! ### Framing -/

/-- How a datagram is framed: trojan's way, or that of sing's UDP over TCP. -/
inductive Framing
  | Trojan
  | Uot
  deriving DecidableEq

namespace Framing

def label : Framing → String
  | .Trojan => "trojan"
  | .Uot => "anytls"

/-- A datagram's address type on the wire, for SOCKS5's. -/
def wire_type (framing : Framing) (atyp : UInt8) : UInt8 :=
  match framing with
  | .Trojan => atyp
  | .Uot => if atyp = 1 then 0 else if atyp = 4 then 1 else if atyp = 3 then 2 else atyp

/-- SOCKS5's address type for a datagram's on the wire. -/
def socks_type (framing : Framing) (wire : UInt8) : Option UInt8 :=
  match framing with
  | .Trojan => if wire = 1 ∨ wire = 3 ∨ wire = 4 then some wire else none
  | .Uot =>
    if wire = 0 then some 1 else if wire = 1 then some 4 else if wire = 2 then some 3 else none

/-- The bytes between the length and the payload. -/
def gap : Framing → List UInt8
  | .Trojan => [13, 10]
  | .Uot => []

def unsendable (framing : Framing) (e : AddrError) : IoError :=
  let what := match e with
    | .Unsendable => "the host name cannot be sent to the server"
    | .TooLong => "the host name is longer than 255 bytes"
  ⟨.InvalidInput, framing.label ++ ": " ++ what⟩

def closed (framing : Framing) : IoError :=
  ⟨.UnexpectedEof, framing.label ++ ": the server closed the UDP connection"⟩

def unknown_type (framing : Framing) : IoError :=
  ⟨.InvalidData, framing.label ++ ": a datagram of an unknown address type"⟩

def no_crlf : IoError := ⟨.InvalidData, "trojan: a datagram without its CRLF"⟩

section

variable (idna : Str → Option Str) (framing : Framing)

/-- What follows the head's fixed part. -/
def head_tail (first : Target) : Except IoError (List UInt8) :=
  match socks_addr idna first with
  | .error e => .error (framing.unsendable e)
  | .ok addr => .ok (addr ++ framing.gap)

/-- A payload for `to_`, framed. -/
def encode (to_ : Target) (payload : List UInt8) : Except IoError (List UInt8) :=
  if payload.length ≤ 65535 then
    match socks_addr idna to_ with
    | .error e => .error (framing.unsendable e)
    | .ok addr =>
      .ok (addr.modifyHead framing.wire_type ++ u16 (UInt16.ofNat payload.length) ++ framing.gap ++
        payload)
  else .error ⟨.InvalidInput, framing.label ++ ": a datagram longer than 65535 bytes"⟩

end

end Framing

/-! ### Sending -/

/-- What was written to the stream, and the head's fixed part until a datagram took it along. -/
structure Writer where
  written : List UInt8
  head : Option (List UInt8)
  deriving DecidableEq

section

variable (idna : Str → Option Str) (framing : Framing)

/-- A datagram sent: what the call returns, and the writer after it. -/
def send_to (w : Writer) (buf : List UInt8) (to_ : Target) : Except IoError Unit × Writer :=
  let start : Except IoError (List UInt8) := match w.head with
    | none => .ok []
    | some head => (framing.head_tail idna to_).map (head ++ ·)
  match start with
  | .error e => (.error e, w)
  | .ok start =>
    match framing.encode idna to_ buf with
    | .error e => (.error e, w)
    | .ok framed => (.ok (), ⟨w.written ++ (start ++ framed), none⟩)

end

/-! ### Receiving -/

/-- What the stream still gives, as it is cut into reads. -/
abbrev Reads := List (List UInt8)

/-- `read_exact` of `n` bytes: what was read and what is left, or nothing at the stream's end. -/
def read_exact : ℕ → Reads → Option (List UInt8 × Reads)
  | 0, reads => some ([], reads)
  | _ + 1, [] => none
  | n + 1, chunk :: reads =>
    if chunk.length ≤ n + 1 then
      (read_exact (n + 1 - chunk.length) reads).map fun (bytes, reads) => (chunk ++ bytes, reads)
    else some (chunk.take (n + 1), chunk.drop (n + 1) :: reads)

/-- Fills a buffer of `n` bytes. -/
def fill (framing : Framing) (n : ℕ) (reads : Reads) : Except IoError (List UInt8 × Reads) :=
  match read_exact n reads with
  | some read => .ok read
  | none => .error framing.closed

section

variable {σ : Type*}

variable (fill : ℕ → σ → Except IoError (List UInt8 × σ)) (framing : Framing) (size : ℕ)

/-- What follows the first two bytes of a datagram: the rest of the address, the port, the length
and the gap, then the payload. -/
def recv_rest (atyp : UInt8) (second : List UInt8) (rest : ℕ) (s : σ) :
    Except IoError (Option (List UInt8 × Target) × σ) :=
  match fill (rest + 2 + 2 + framing.gap.length) s with
  | .error e => .error e
  | .ok (tail, s) =>
    let addr := atyp :: second ++ tail.take (rest + 2)
    let len := (from_u16 ((tail.drop (rest + 2)).take 2)).toNat
    if framing = .Trojan ∧ tail.drop (rest + 2 + 2) ≠ [13, 10] then .error Framing.no_crlf
    else
      match fill len s with
      | .error e => .error e
      | .ok (payload, s) =>
        if len > size then .ok (none, s)
        else .ok ((Shadowsocks.parse_socks_addr addr).map fun (source, _) => (payload, source), s)

/-- One datagram read with what fills a buffer: the payload and its source if it fits `size` bytes
and its source is one, nothing if it is dropped. -/
def recv_one (s : σ) : Except IoError (Option (List UInt8 × Target) × σ) :=
  match fill 2 s with
  | .error e => .error e
  | .ok (addr, s) =>
    match framing.socks_type (addr.getD 0 0) with
    | none => .error framing.unknown_type
    | some atyp =>
      let rest := if atyp = 1 then 4 - 1 else if atyp = 4 then 16 - 1 else (addr.getD 1 0).toNat
      recv_rest fill framing size atyp (addr.drop 1) rest s

end

/-- How many bytes the stream still gives. -/
def size_left (reads : Reads) : ℕ := reads.flatten.length

theorem read_exact_size {n : ℕ} {reads : Reads} {bytes : List UInt8} {reads' : Reads}
    (h : read_exact n reads = some (bytes, reads')) :
    reads.flatten = bytes ++ reads'.flatten ∧ bytes.length = n := by
  fun_induction read_exact n reads generalizing bytes reads' with
  | case1 reads =>
    rw [Option.some.injEq, Prod.mk.injEq] at h
    obtain ⟨rfl, rfl⟩ := h
    exact ⟨rfl, rfl⟩
  | case2 n => cases h
  | case3 n chunk reads hle ih =>
    obtain ⟨⟨more, left⟩, hmore, heq⟩ := Option.map_eq_some_iff.1 h
    rw [Prod.mk.injEq] at heq
    obtain ⟨rfl, rfl⟩ := heq
    obtain ⟨hflat, hlength⟩ := ih hmore
    refine ⟨by rw [List.flatten_cons, hflat, List.append_assoc], ?_⟩
    rw [List.length_append, hlength]
    omega
  | case4 n chunk reads hle =>
    rw [Option.some.injEq, Prod.mk.injEq] at h
    obtain ⟨rfl, rfl⟩ := h
    refine ⟨?_, ?_⟩
    · rw [List.flatten_cons, List.flatten_cons, ← List.append_assoc, List.take_append_drop]
    · rw [List.length_take]
      omega

theorem read_exact_none {n : ℕ} {reads : Reads} (h : read_exact n reads = none) :
    size_left reads < n := by
  fun_induction read_exact n reads with
  | case1 reads => cases h
  | case2 n => simp [size_left]
  | case3 n chunk reads hle ih =>
    have := ih (Option.map_eq_none_iff.1 h)
    simp only [size_left, List.flatten_cons, List.length_append] at this ⊢
    omega
  | case4 n chunk reads hle => cases h

theorem fill_size {framing : Framing} {n : ℕ} {reads reads' : Reads} {bytes : List UInt8}
    (h : fill framing n reads = .ok (bytes, reads')) :
    size_left reads = n + size_left reads' := by
  unfold fill at h
  split at h
  · rename_i read hread
    rw [Except.ok.injEq] at h
    subst h
    obtain ⟨hflat, hlength⟩ := read_exact_size hread
    rw [size_left, size_left, hflat, List.length_append, hlength]
  · cases h

theorem recv_rest_size {framing : Framing} {size : ℕ} {atyp : UInt8} {second : List UInt8}
    {rest : ℕ} {reads reads' : Reads} {d : Option (List UInt8 × Target)}
    (h : recv_rest (fill framing) framing size atyp second rest reads = .ok (d, reads')) :
    size_left reads' ≤ size_left reads := by
  unfold recv_rest at h
  split at h
  · cases h
  · rename_i tail s hfirst
    have hfirst := fill_size hfirst
    dsimp only at h
    split at h
    · cases h
    · split at h
      · cases h
      · rename_i payload s' hsecond
        have hsecond := fill_size hsecond
        have hs : s' = reads' := by
          split_ifs at h with hlen
          · exact congrArg Prod.snd (Except.ok.inj h)
          · exact congrArg Prod.snd (Except.ok.inj h)
        rw [← hs]
        omega

theorem recv_one_size {framing : Framing} {size : ℕ} {reads reads' : Reads}
    {d : Option (List UInt8 × Target)}
    (h : recv_one (fill framing) framing size reads = .ok (d, reads')) :
    size_left reads' < size_left reads := by
  unfold recv_one at h
  split at h
  · cases h
  · rename_i addr s hfirst
    have hfirst := fill_size hfirst
    split at h
    · cases h
    · have hrest := recv_rest_size h
      omega

/-- A datagram received with a buffer of `size` bytes. -/
def recv_from (framing : Framing) (size : ℕ) (reads : Reads) :
    Except IoError ((List UInt8 × Target) × Reads) :=
  match _h : recv_one (fill framing) framing size reads with
  | .error e => .error e
  | .ok (some d, reads') => .ok (d, reads')
  | .ok (none, reads') => recv_from framing size reads'
termination_by size_left reads
decreasing_by exact recv_one_size _h

end StreamUdp

end Rurge
