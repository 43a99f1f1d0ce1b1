import Rurge.Lib.BigEndian
import Rurge.Text

/-!
# Reading a ClientHello

One whole handshake message read as a ClientHello (`rurge_http::tls`): its type, its length and its
body, with the server name and the protocols of the two extensions that are looked at.
-/

namespace Rurge

namespace Sniffing

/-- The handshake message type of a ClientHello. -/
def CLIENT_HELLO : UInt8 := 1

/-- The bytes before a handshake message's body: its type and its 24-bit length. -/
def HANDSHAKE_HEADER : ℕ := 4

/-- The most a `legacy_session_id` may be. -/
def MAX_SESSION_ID : ℕ := 32

def EXT_SERVER_NAME : ℕ := 0

def EXT_ALPN : ℕ := 16

/-- What the engine takes from a TLS ClientHello. -/
structure ClientHello where
  sni : Option Str
  alpn : List (List UInt8)
  deriving DecidableEq

/-! ### Reading bytes -/

namespace Reader

/-- The next `n` bytes and the rest. -/
def take (n : ℕ) (rest : List UInt8) : Option (List UInt8 × List UInt8) :=
  if n ≤ rest.length then some (rest.take n, rest.drop n) else none

/-- The number in the next `n` bytes. -/
def number (n : ℕ) (rest : List UInt8) : Option (ℕ × List UInt8) :=
  (take n rest).map fun (bytes, rest) => (BigEndian.ofBytes bytes, rest)

def u8 (rest : List UInt8) : Option (ℕ × List UInt8) := number 1 rest

def u16 (rest : List UInt8) : Option (ℕ × List UInt8) := number 2 rest

def u24 (rest : List UInt8) : Option (ℕ × List UInt8) := number 3 rest

theorem take_append (bytes rest : List UInt8) :
    take bytes.length (bytes ++ rest) = some (bytes, rest) := by
  rw [take, if_pos (by simp), List.take_left, List.drop_left]

theorem number_append {n : ℕ} {bytes : List UInt8} (h : bytes.length = n) (rest : List UInt8) :
    number n (bytes ++ rest) = some (BigEndian.ofBytes bytes, rest) := by
  rw [number, ← h, take_append]
  rfl

end Reader

/-! ### Extensions -/

/-- The bytes of the first `host_name` of a list of names, where there is one. -/
def host_name (list : List UInt8) (name : Option (List UInt8)) : Option (Option (List UInt8)) :=
  match list with
  | [] => some name
  | kind :: high :: low :: rest =>
    let len := BigEndian.ofBytes [high, low]
    if len ≤ rest.length then
      host_name (rest.drop len) (if kind = 0 ∧ name = none then some (rest.take len) else name)
    else none
  | _ => none
termination_by list.length
decreasing_by simp; omega

/-- The first `host_name` of a `server_name` list; `some none` when there is none, or its name is
empty or not all ASCII. -/
def read_server_name (body : List UInt8) : Option (Option Str) := do
  let (names, rest) ← Reader.u16 body
  let (list, rest) ← Reader.take names rest
  if rest ≠ [] then none
  else
    let name ← host_name list none
    return name.bind fun name =>
      if name = [] ∨ name.any (fun b => 128 ≤ b) then none
      else some (Str.toAsciiLowercase (name.map fun b => Char.ofNat b.toNat))

/-- The protocol names of a list, in order. -/
def protocol_names (list : List UInt8) : Option (List (List UInt8)) :=
  match list with
  | [] => some []
  | len :: rest =>
    if len = 0 then none
    else if len.toNat ≤ rest.length then
      (protocol_names (rest.drop len.toNat)).map (rest.take len.toNat :: ·)
    else none
termination_by list.length
decreasing_by simp only [List.length_drop, List.length_cons]; omega

/-- Every protocol name of an `application_layer_protocol_negotiation` list. -/
def read_alpn (body : List UInt8) : Option (List (List UInt8)) := do
  let (names, rest) ← Reader.u16 body
  let (list, rest) ← Reader.take names rest
  if rest ≠ [] then none else protocol_names list

/-- The extensions: the first one of a kind counts. -/
def read_extensions (block : List UInt8) (hello : ClientHello) (server_name alpn : Bool) :
    Option ClientHello :=
  match block with
  | [] => some hello
  | kind₁ :: kind₂ :: len₁ :: len₂ :: rest =>
    let kind := BigEndian.ofBytes [kind₁, kind₂]
    let len := BigEndian.ofBytes [len₁, len₂]
    if len ≤ rest.length then
      let body := rest.take len
      if kind = EXT_SERVER_NAME ∧ server_name = false then
        match read_server_name body with
        | none => none
        | some sni => read_extensions (rest.drop len) { hello with sni } true alpn
      else if kind = EXT_ALPN ∧ alpn = false then
        match read_alpn body with
        | none => none
        | some names =>
          read_extensions (rest.drop len) { hello with alpn := names } server_name true
      else read_extensions (rest.drop len) hello server_name alpn
    else none
  | _ => none
termination_by block.length
decreasing_by all_goals simp; omega

/-! ### The message -/

/-- The ClientHello body: the fixed fields, then the extensions. -/
def read_client_hello (body : List UInt8) : Option ClientHello := do
  let (_, rest) ← Reader.take 2 body -- legacy_version
  let (_, rest) ← Reader.take 32 rest -- random
  let (session, rest) ← Reader.u8 rest
  if MAX_SESSION_ID < session then none
  else
    let (_, rest) ← Reader.take session rest -- legacy_session_id
    let (suites, rest) ← Reader.u16 rest
    if suites < 2 ∨ suites % 2 ≠ 0 then none
    else
      let (_, rest) ← Reader.take suites rest -- cipher_suites
      let (compression, rest) ← Reader.u8 rest
      if compression < 1 then none
      else
        let (_, rest) ← Reader.take compression rest -- legacy_compression_methods
        if rest = [] then return ⟨none, []⟩
        else
          let (extensions, rest) ← Reader.u16 rest
          let (block, rest) ← Reader.take extensions rest
          if rest ≠ [] then none else read_extensions block ⟨none, []⟩ false false

/-- A ClientHello read from one whole handshake message. -/
def parse_client_hello (message : List UInt8) : Option ClientHello :=
  match message with
  | [] => none
  | kind :: rest =>
    if kind ≠ CLIENT_HELLO then none
    else do
      let (len, rest) ← Reader.u24 rest
      if len + HANDSHAKE_HEADER ≠ message.length then none
      else
        let (body, _) ← Reader.take len rest
        read_client_hello body

/-- How many bytes the handshake message has in all: its header and body once four bytes are there,
and four bytes until then. -/
def wanted : List UInt8 → ℕ
  | _ :: b₁ :: b₂ :: b₃ :: _ => HANDSHAKE_HEADER + BigEndian.ofBytes [b₁, b₂, b₃]
  | _ => HANDSHAKE_HEADER

/-- A message that is read has its type, and the length it says. -/
theorem parse_client_hello_some {message : List UInt8} {hello : ClientHello}
    (h : parse_client_hello message = some hello) :
    message.head? = some CLIENT_HELLO ∧ wanted message = message.length := by
  unfold parse_client_hello at h
  rcases message with _ | ⟨kind, rest⟩
  · cases h
  · simp only at h
    split_ifs at h with hkind
    obtain ⟨⟨len, rest'⟩, hlen, h⟩ := Option.bind_eq_some_iff.1 h
    simp only at h
    split_ifs at h with htotal
    push Not at htotal hkind
    refine ⟨congrArg some hkind, ?_⟩
    unfold Reader.u24 Reader.number Reader.take at hlen
    rw [Option.map_eq_some_iff] at hlen
    obtain ⟨⟨bytes, rest''⟩, hbytes, heq⟩ := hlen
    split_ifs at hbytes with hthree
    cases hbytes
    cases heq
    rcases rest with _ | ⟨b₁, _ | ⟨b₂, _ | ⟨b₃, rest⟩⟩⟩
    · simp at hthree
    · simp at hthree
    · simp at hthree
    · rw [← htotal]
      exact Nat.add_comm _ _

end Sniffing

end Rurge
