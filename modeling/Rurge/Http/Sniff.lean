import Rurge.Http.ClientHello

/-!
# Judging the first bytes of a connection

The handshake records at the start of a prefix are put together until a ClientHello is whole, and a
method token makes a prefix HTTP; where a prefix does not tell, it says how many bytes would
(`rurge_http::tls::reassemble`, `rurge_http::sniff`).  A sniff judges what it read so far, once as
many bytes as were asked for are there.
-/

namespace Rurge

namespace Sniffing

/-- The content type of a TLS handshake record. -/
def HANDSHAKE_RECORD : UInt8 := 0x16

/-- The most a record's payload may be. -/
def MAX_RECORD : ℕ := 16384

/-- The most of a prefix that is read to judge it. -/
def MAX_PREFIX : ℕ := 64 * 1024

/-- The most bytes a method token may have. -/
def MAX_METHOD : ℕ := 20

/-! ### Records -/

/-- What putting the TLS records at the start of a prefix together came to. -/
inductive Reassembled
  | Hello (hello : ClientHello)
  | NeedMore (n : ℕ)
  | Other
  deriving DecidableEq

/-- A wait for `n` bytes, unless a prefix is never read that far. -/
def Reassembled.need (limit : ℕ) : Reassembled → Reassembled
  | .NeedMore n => if limit < n then .Other else .NeedMore n
  | reassembled => reassembled

/-- Whether the bytes of a header that came fit a handshake record. -/
def fits : List UInt8 → Bool
  | [] => true
  | [kind] => kind = HANDSHAKE_RECORD
  | [kind, major] => kind = HANDSHAKE_RECORD ∧ major = 0x03
  | kind :: major :: minor :: _ => kind = HANDSHAKE_RECORD ∧ major = 0x03 ∧ minor ≤ 0x04

/-- What the handshake bytes so far tell, once the message's header is there: that it is no
ClientHello, or too long, or what it is once it is whole. -/
def told (limit : ℕ) (handshake : List UInt8) : Option Reassembled :=
  if handshake.length < HANDSHAKE_HEADER then none
  else if handshake.head? ≠ some CLIENT_HELLO then some .Other
  else if limit < wanted handshake then some .Other
  else if wanted handshake ≤ handshake.length then
    match parse_client_hello (handshake.take (wanted handshake)) with
    | some hello => some (.Hello hello)
    | none => some .Other
  else none

/-- The records from `pos` on, `handshake` being what those before it carry.  Each number of bytes
that is asked for is checked against the limit of a prefix afterwards (`need`). -/
def records (limit pos : ℕ) (handshake rest : List UInt8) : Reassembled :=
  match rest with
  | kind :: major :: minor :: high :: low :: payload =>
    let len := BigEndian.ofBytes [high, low]
    if kind ≠ HANDSHAKE_RECORD ∨ major ≠ 0x03 ∨ 0x04 < minor ∨ len < 1 ∨ MAX_RECORD < len then
      .Other
    else
      let whole := handshake ++ payload.take len
      match told limit whole with
      | some reassembled => reassembled
      | none =>
        if payload.length < len then
          -- where the message can first be whole, were the rest of this record its bytes
          let stop := pos + 5 + (wanted whole - handshake.length)
          if stop ≤ pos + 5 + len then .NeedMore stop else .NeedMore (stop + 5)
        else records limit (pos + 5 + len) whole (payload.drop len)
  | rest =>
    if fits rest then .NeedMore (pos + 5 + (wanted handshake - handshake.length)) else .Other
termination_by rest.length
decreasing_by simp only [List.length_drop, List.length_cons]; omega

/-- The handshake bytes of the records at the start of a prefix put together, and the ClientHello
read out of them. -/
def reassemble (bytes : List UInt8) (limit : ℕ) : Reassembled :=
  (records limit 0 [] bytes).need limit

/-! ### Judging -/

/-- What the bytes at the start of a connection are. -/
inductive Judged
  | NeedMore (n : ℕ)
  | Tls (hello : ClientHello)
  | Http
  | Other
  deriving DecidableEq

/-- A byte a method token may have. -/
def method_byte (byte : UInt8) : Bool :=
  (0x41 ≤ byte ∧ byte ≤ 0x5a) ∨ byte = 0x2d ∨ byte = 0x5f

/-- The bytes after `seen`, all of which a method token may have. -/
def judge_method (seen : List UInt8) : List UInt8 → Judged
  | [] => .NeedMore (seen.length + 1)
  | byte :: rest =>
    if byte = 0x20 then
      if seen.length = 0 ∨ MAX_METHOD < seen.length then .Other
      else if seen = [0x50, 0x52, 0x49] then .Other
      else .Http
    else if method_byte byte = false ∨ MAX_METHOD ≤ seen.length then .Other
    else judge_method (seen ++ [byte]) rest

def judge_http (bytes : List UInt8) : Judged := judge_method [] bytes

/-- What the bytes at the start of a connection are, or how many bytes in all would tell. -/
def judge (bytes : List UInt8) : Judged :=
  match bytes with
  | [] => .NeedMore 1
  | first :: _ =>
    if first = HANDSHAKE_RECORD then
      match reassemble bytes MAX_PREFIX with
      | .Hello hello => .Tls hello
      | .NeedMore n => .NeedMore n
      | .Other => .Other
    else judge_http bytes

/-! ### Sniffing -/

/-- The most one fill reads. -/
def FILL : ℕ := 16 * 1024

/-- What one fill came to: the bytes read, none at the end of the stream; or no bytes. -/
inductive Filled
  | read (bytes : List UInt8)
  | timed_out
  | failed

/-- How a sniff ended. -/
inductive Sniffed
  | Tls (hello : ClientHello)
  | Http
  | Other
  | Timeout
  | Closed
  | Failed
  deriving DecidableEq

/-- The prefix `buffered` judged, once it has as many bytes as were asked for, and filled until it
can be; nothing while a fill is waited for. -/
def sniff (buffered : List UInt8) (enough : ℕ) (fills : List Filled) : Option Sniffed :=
  match if enough ≤ buffered.length then judge buffered else .NeedMore enough with
  | .Tls hello => some (.Tls hello)
  | .Http => some .Http
  | .Other => some .Other
  | .NeedMore n =>
    match fills with
    | [] => none
    | .timed_out :: _ => some .Timeout
    | .failed :: _ => some .Failed
    | .read bytes :: fills =>
      if bytes = [] then some .Closed else sniff (buffered ++ bytes) n fills

end Sniffing

end Rurge
