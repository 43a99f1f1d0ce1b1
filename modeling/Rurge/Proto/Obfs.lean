import Rurge.Proto.StreamUdp
import Rurge.SystemProxy.Settings

/-!
# simple-obfs

The camouflage of `obfs=http` and `obfs=tls`: the hosts and paths a client is made with, the first
packet and the records after it, and the stream that writes and reads them.  What the stream below
makes of each poll is left to the run: a write takes some of the bytes, or none yet, and a read
gives some of what the server sent.  The bytes drawn at random are given.
-/

namespace Rurge

namespace SimpleObfs

open BigEndian (toBytes)
open StreamUdp (utf8)

abbrev Bytes := List UInt8

/-! ### Texts and sizes -/

def NOT_OBFS : String := "obfs: the server did not answer as an obfs server"

def MALFORMED : String := "obfs: the server sent a malformed record"

def CUT_SHORT : String := "obfs: the server closed the connection in the middle of a record"

/-- The longest `obfs-host`. -/
def MAX_HOST : ℕ := 255

/-- The largest record body either side accepts. -/
def MAX_RECORD : ℕ := 16 * 1024

def HEADER_LEN : ℕ := 5

def HANDSHAKE : UInt8 := 0x16

def CHANGE_CIPHER_SPEC : UInt8 := 0x14

def APPLICATION_DATA : UInt8 := 0x17

/-- The hello's size without the ticket and the host name. -/
def HELLO_OVERHEAD : ℕ := 217

/-- The longest server answer head that is read. -/
def MAX_RESPONSE_HEAD : ℕ := 8 * 1024

/-! ### The client -/

inductive ObfsMode
  | Http
  | Tls
  deriving DecidableEq

structure ObfsOpts where
  mode : ObfsMode
  host : Option Str
  uri : Str

/-- `is_ascii_graphic`; of a character beyond ASCII no byte is. -/
def is_ascii_graphic (c : Char) : Bool := 0x21 ≤ c.toNat && c.toNat ≤ 0x7e

/-- What can go into a request line or a header as it is. -/
def printable (text : Str) : Bool := text ≠ [] && text.all is_ascii_graphic

/-- What a connection's packets are made with; the host of `Http` carries the port unless it is
80. -/
inductive Kind
  | Http (uri host : Str)
  | Tls (host : Str)

/-- What the camouflage can be written with. -/
def Kind.Writable : Kind → Prop
  | .Http uri host => uri.head? = some '/' ∧ printable uri = true ∧ printable host = true
  | .Tls host => printable host = true ∧ (utf8 host).length ≤ MAX_HOST

/-- Everything that is prepared ahead of a connection. -/
structure ObfsClient where
  kind : Kind
  writable : kind.Writable

theorem printable_append {s t : Str} (hs : printable s = true)
    (ht : t.all is_ascii_graphic = true) :
    printable (s ++ t) = true := by
  simp only [printable, Bool.and_eq_true, decide_eq_true_eq] at hs ⊢
  exact ⟨List.append_ne_nil_of_left_ne_nil hs.1 t, by rw [List.all_append, hs.2, ht]; rfl⟩

theorem graphic_digit {c : Char} (h : c.isDigit = true) : is_ascii_graphic c = true := by
  have hbounds : 48 ≤ c.toNat ∧ c.toNat ≤ 57 := by
    simpa [Char.isDigit, UInt32.le_iff_toNat_le] using h
  simp only [is_ascii_graphic, Bool.and_eq_true, decide_eq_true_eq]
  omega

theorem graphic_decimal (n : ℕ) : (Str.decimal n).all is_ascii_graphic = true :=
  List.all_eq_true.2 fun _ hc => graphic_digit (Str.isDigit_of_mem_decimal hc)

theorem graphic_port (n : ℕ) : (':' :: Str.decimal n).all is_ascii_graphic = true := by
  rw [List.all_cons, graphic_decimal]
  rfl

theorem graphic_hex (n : ℕ) : (Nat.toDigits 16 n).all is_ascii_graphic = true := by
  have hdigit : ∀ d, d < 16 → is_ascii_graphic d.digitChar = true := by decide
  induction n using Nat.strongRecOn with
  | ind n ih =>
    rw [Nat.toDigits_eq_if (by norm_num)]
    split_ifs with hlt
    · simp [hdigit n hlt]
    · rw [List.all_append, ih _ (by omega)]
      simp [hdigit (n % 16) (Nat.mod_lt _ (by norm_num))]

theorem graphic_v4 (n : ℕ) : (IpAddr.textV4 n).all is_ascii_graphic = true := by
  have hdot : is_ascii_graphic '.' = true := rfl
  simp [IpAddr.textV4, graphic_decimal, hdot, -List.all_eq_true]

theorem graphic_colons (gs : List ℕ) : (IpAddr.colons gs).all is_ascii_graphic = true := by
  have hcolon : is_ascii_graphic ':' = true := rfl
  induction gs with
  | nil => rfl
  | cons g gs ih =>
    cases gs with
    | nil => simpa [IpAddr.colons, -List.all_eq_true] using graphic_hex g
    | cons g' gs =>
      have hcons : IpAddr.colons (g :: g' :: gs) =
          Nat.toDigits 16 g ++ ':' :: IpAddr.colons (g' :: gs) := by
        simp [IpAddr.colons, List.intercalate_cons_cons]
      rw [hcons, List.all_append, List.all_cons, graphic_hex, hcolon, ih]
      rfl

theorem graphic_ip (ip : IpAddr) : (IpAddr.toText ip).all is_ascii_graphic = true := by
  cases ip with
  | v4 ip => exact graphic_v4 _
  | v6 ip =>
    unfold IpAddr.toText IpAddr.textV6
    simp only
    split_ifs
    · rw [List.all_append, graphic_v4]
      rfl
    · rw [List.all_append, List.all_append, graphic_colons, graphic_colons]
      rfl
    · exact graphic_colons _

theorem colons_ne_nil (g : ℕ) (gs : List ℕ) : IpAddr.colons (g :: gs) ≠ [] := by
  cases gs with
  | nil => simp [IpAddr.colons]
  | cons g' gs => simp [IpAddr.colons, List.intercalate_cons_cons]

theorem printable_ip (ip : IpAddr) : printable (IpAddr.toText ip) = true := by
  have hne : IpAddr.toText ip ≠ [] := by
    cases ip with
    | v4 ip => simp [IpAddr.toText, IpAddr.textV4]
    | v6 ip =>
      unfold IpAddr.toText IpAddr.textV6
      simp only
      split_ifs
      · simp
      · simp
      · exact colons_ne_nil _ _
  simp only [printable, graphic_ip, Bool.and_true, decide_eq_true_eq]
  exact hne

theorem graphic_name {c : Char} (h : (c.isAlphanum || c == '-' || c == '.' || c == '_') = true) :
    is_ascii_graphic c = true := by
  simp only [Bool.or_eq_true, beq_iff_eq] at h
  rcases h with ((h | rfl) | rfl) | rfl
  · simp only [Char.isAlphanum, Char.isAlpha, Char.isUpper, Char.isLower, Char.isDigit,
      Bool.or_eq_true, Bool.and_eq_true, decide_eq_true_eq, UInt32.le_iff_toNat_le] at h
    simp only [is_ascii_graphic, Bool.and_eq_true, decide_eq_true_eq]
    have hA : 'A'.val.toNat = 65 := rfl
    have hZ : 'Z'.val.toNat = 90 := rfl
    have ha : 'a'.val.toNat = 97 := rfl
    have hz : 'z'.val.toNat = 122 := rfl
    have h0 : '0'.val.toNat = 48 := rfl
    have h9 : '9'.val.toNat = 57 := rfl
    rw [show c.toNat = c.val.toNat from rfl]
    omega
  · rfl
  · rfl
  · rfl

section

-- `idna::domain_to_ascii`
variable (idna : Str → Option Str)

/-- The host text a request line or a `Host` header may carry. -/
def wire_host (target : Target) : Option Str :=
  match target.host with
  | .ip (.v6 ip) => some ('[' :: IpAddr.toText (.v6 ip) ++ [']'])
  | .ip (.v4 ip) => some (IpAddr.toText (.v4 ip))
  | .domain name => StreamUdp.to_ascii idna name

/-- The server's name, in the place of a host that is not given. -/
def server_name (mode : ObfsMode) (server : Target) : Option Str :=
  match server.host, mode with
  | .ip ip, .Tls => some (IpAddr.toText ip)
  | _, _ => wire_host idna server

/-- A host that the camouflage can be written with. -/
abbrev Named := { host : Str // printable host = true ∧ (utf8 host).length ≤ MAX_HOST }

def CANNOT_HOST : String := "`obfs-host` cannot be written into the camouflage"

def CANNOT_NAME : String :=
  "the server's host name cannot be written into the camouflage"

def CANNOT_URI : String := "`obfs-uri` cannot be written into the camouflage"

theorem printable_server_name {mode : ObfsMode} {server : Target} {name : Str}
    (h : server_name idna mode server = some name) : printable name = true := by
  have hwire : ∀ {name}, wire_host idna server = some name → printable name = true := by
    intro name h
    unfold wire_host at h
    split at h
    · rw [← Option.some.inj h, List.cons_append]
      simp only [printable, List.all_cons, List.all_append, graphic_ip]
      rfl
    · rw [← Option.some.inj h]
      exact printable_ip _
    · obtain ⟨-, hname⟩ := Option.filter_eq_some_iff.1 h
      simp only [Bool.and_eq_true, List.all_eq_true] at hname
      simp only [printable, Bool.and_eq_true, List.all_eq_true]
      exact ⟨hname.1, fun c hc => graphic_name (hname.2 c hc)⟩
  unfold server_name at h
  split at h
  · rw [← Option.some.inj h]
    exact printable_ip _
  · exact hwire h

/-- The host that the camouflage names. -/
def named_host (opts : ObfsOpts) (server : Target) : Except String Named :=
  match opts.host with
  | some host =>
    if h : printable host = true ∧ (utf8 host).length ≤ MAX_HOST then .ok ⟨host, h⟩
    else .error CANNOT_HOST
  | none =>
    match hname : server_name idna opts.mode server with
    | some name =>
      if h : (utf8 name).length ≤ MAX_HOST then
        .ok ⟨name, printable_server_name idna hname, h⟩
      else .error CANNOT_NAME
    | none => .error CANNOT_NAME

def ObfsClient.new (opts : ObfsOpts) (server : Target) : Except String ObfsClient :=
  match named_host idna opts server with
  | .error e => .error e
  | .ok host =>
    match opts.mode with
    | .Tls => .ok ⟨.Tls host, host.2⟩
    | .Http =>
      if huri : opts.uri.head? = some '/' ∧ printable opts.uri = true then
        if server.port = 80 then .ok ⟨.Http opts.uri host, huri.1, huri.2, host.2.1⟩
        else
          .ok ⟨.Http opts.uri (host ++ ':' :: Str.decimal server.port.toNat), huri.1, huri.2,
            printable_append host.2.1 (graphic_port _)⟩
      else .error CANNOT_URI

end

/-! ### Packets -/

/-- What is drawn at random for a connection, and the time. -/
structure Drawn where
  agent : UInt8 × UInt8
  key : Bytes
  now : UInt32
  random : Bytes
  random_length : random.length = 28 + 32

/-- The alphabet of base64. -/
def BASE64 : Str := "ABCDEFGHIJKLMNOPQRSTUVWXYZabcdefghijklmnopqrstuvwxyz0123456789+/".toList

def sextet (n : ℕ) : Char := BASE64.getD (n % 64) 'A'

/-- Base64 with padding. -/
def base64 : Bytes → Str
  | a :: b :: c :: rest =>
    let n := a.toNat * 65536 + b.toNat * 256 + c.toNat
    sextet (n / 262144) :: sextet (n / 4096) :: sextet (n / 64) :: sextet n :: base64 rest
  | [a, b] =>
    let n := a.toNat * 1024 + b.toNat * 4
    [sextet (n / 4096), sextet (n / 64), sextet n, '=']
  | [a] =>
    let n := a.toNat * 16
    [sextet (n / 64), sextet n, '=', '=']
  | [] => []

def user_agent (drawn : Drawn) : Str :=
  "curl/7.".toList ++ Str.decimal (drawn.agent.1.toNat % 51) ++ '.' ::
    Str.decimal (drawn.agent.2.toNat % 2)

def CRLF : Str := ['\r', '\n']

/-- The request head for a first payload of `len` bytes. -/
def request_head (drawn : Drawn) (uri host : Str) (len : ℕ) : Bytes :=
  utf8 ("GET ".toList ++ uri ++ " HTTP/1.1".toList ++ CRLF ++
    "Host: ".toList ++ host ++ CRLF ++
    "User-Agent: ".toList ++ user_agent drawn ++ CRLF ++
    "Upgrade: websocket".toList ++ CRLF ++
    "Connection: Upgrade".toList ++ CRLF ++
    "Sec-WebSocket-Key: ".toList ++ base64 drawn.key ++ CRLF ++
    "Content-Length: ".toList ++ Str.decimal len ++ CRLF ++
    CRLF)

/-- What the reference server reads for the whole hello: the first payload is cut to fit in it. -/
def max_first_payload (host : Str) : ℕ := MAX_RECORD - HELLO_OVERHEAD - (utf8 host).length

def CIPHER_SUITES : List ℕ :=
  [0xc02c, 0xc030, 0x009f, 0xcca9, 0xcca8, 0xccaa, 0xc02b, 0xc02f, 0x009e, 0xc024, 0xc028, 0x006b,
    0xc023, 0xc027, 0x0067, 0xc00a, 0xc014, 0x0039, 0xc009, 0xc013, 0x0033, 0x009d, 0x009c, 0x003d,
    0x003c, 0x0035, 0x002f, 0x00ff]

/-- The extensions after the server name. -/
def TAIL_EXTENSIONS : Bytes :=
  [0x00, 0x0b, 0x00, 0x04, 0x03, 0x01, 0x00, 0x02,
    0x00, 0x0a, 0x00, 0x0a, 0x00, 0x08, 0x00, 0x1d, 0x00, 0x17, 0x00, 0x19, 0x00, 0x18,
    0x00, 0x0d, 0x00, 0x20, 0x00, 0x1e, 0x06, 0x01, 0x06, 0x02, 0x06, 0x03, 0x05, 0x01, 0x05, 0x02,
    0x05, 0x03, 0x04, 0x01, 0x04, 0x02, 0x04, 0x03, 0x03, 0x01, 0x03, 0x02, 0x03, 0x03, 0x02, 0x01,
    0x02, 0x02, 0x02, 0x03,
    0x00, 0x16, 0x00, 0x00,
    0x00, 0x17, 0x00, 0x00]

def put_u16 (n : ℕ) : Bytes := toBytes 2 n

/-- The first packet of `obfs=tls`: the first payload is its session ticket. -/
def client_hello (drawn : Drawn) (host : Str) (ticket : Bytes) : Bytes :=
  let host := utf8 host
  let total := HELLO_OVERHEAD + ticket.length + host.length
  [HANDSHAKE, 0x03, 0x01] ++ put_u16 (total - HEADER_LEN) ++
    [0x01, 0x00] ++ put_u16 (total - HEADER_LEN - 4) ++
    [0x03, 0x03] ++ toBytes 4 drawn.now.toNat ++ drawn.random.take 28 ++
    [32] ++ drawn.random.drop 28 ++
    put_u16 (CIPHER_SUITES.length * 2) ++ CIPHER_SUITES.flatMap put_u16 ++
    [0x01, 0x00] ++
    put_u16 (total - 138) ++
    [0x00, 0x23] ++ put_u16 ticket.length ++ ticket ++
    [0x00, 0x00] ++ put_u16 (host.length + 5) ++ put_u16 (host.length + 3) ++ [0x00] ++
    put_u16 host.length ++ host ++
    TAIL_EXTENSIONS

/-- One application data record. -/
def app_data (data : Bytes) : Bytes :=
  [APPLICATION_DATA, 0x03, 0x03] ++ put_u16 data.length ++ data

/-- The length of the body after a record header that the client accepts. -/
def record_len (header : Bytes) (kind : UInt8) : Option ℕ :=
  match header with
  | [type, major, minor, high, low] =>
    let len := BigEndian.ofBytes [high, low]
    if type = kind ∧ major = 0x03 ∧ (0x01 ≤ minor ∧ minor ≤ 0x04) ∧ len ≤ MAX_RECORD then some len
    else none
  | _ => none

/-! ### The stream that writes -/

inductive ErrorKind
  | InvalidData
  | UnexpectedEof
  | WriteZero
  | Below
  deriving DecidableEq

/-- `io::Error`; the stream below has its own. -/
structure IoError where
  kind : ErrorKind
  message : String
  deriving DecidableEq

inductive Poll (α : Type)
  | Pending
  | Ready (result : Except IoError α)

/-- What the stream below makes of a write: nothing yet, the first `n` bytes of it, an error. -/
inductive Wrote
  | Pending
  | Took (n : ℕ)
  | Failed (e : IoError)

/-- What of the stream the writes look at. -/
structure Writer where
  first : Option Kind
  tls : Bool
  out : Bytes
  sent : ℕ
  accepted : ℕ

namespace Writer

def new (kind : Kind) : Writer :=
  let tls := match kind with
    | .Http _ _ => false
    | .Tls _ => true
  ⟨some kind, tls, [], 0, 0⟩

/-- Builds the next packet from a prefix of `data`; with its length. -/
def encode (w : Writer) (drawn : Drawn) (data : Bytes) : Writer × ℕ :=
  match w.first with
  | some (.Http uri host) =>
    let n := min data.length MAX_RECORD
    ({ w with first := none, out := request_head drawn uri host n ++ data.take n }, n)
  | some (.Tls host) =>
    let n := min data.length (max_first_payload host)
    ({ w with first := none, out := client_hello drawn host (data.take n) }, n)
  | none =>
    let n := min data.length MAX_RECORD
    ({ w with out := w.out ++ app_data (data.take n) }, n)

/-- Drives `out` into the stream below; with the bytes it took. -/
def poll_out (w : Writer) : List Wrote → Writer × Bytes × Poll Unit
  | [] =>
    if w.sent < w.out.length then (w, [], .Pending)
    else ({ w with out := [], sent := 0 }, [], .Ready (.ok ()))
  | answer :: answers =>
    if w.sent < w.out.length then
      match answer with
      | .Pending => (w, [], .Pending)
      | .Failed e => (w, [], .Ready (.error e))
      | .Took n =>
        let n := min n (w.out.length - w.sent)
        if n = 0 then (w, [], .Ready (.error ⟨.WriteZero, ""⟩))
        else
          let rest := { w with sent := w.sent + n }.poll_out answers
          (rest.1, (w.out.drop w.sent).take n ++ rest.2.1, rest.2.2)
    else ({ w with out := [], sent := 0 }, [], .Ready (.ok ()))

/-- One write of the stream below itself. -/
def pass_on (w : Writer) (data : Bytes) : List Wrote → Writer × Bytes × Poll ℕ
  | [] | .Pending :: _ => (w, [], .Pending)
  | .Failed e :: _ => (w, [], .Ready (.error e))
  | .Took n :: _ => (w, data.take n, .Ready (.ok (min n data.length)))

/-- The packet driven out, and the bytes it carries reported once it is; a flush may have finished
it, and the retry learns it here. -/
def finish (w : Writer) (data : Bytes) (answers : List Wrote) : Writer × Bytes × Poll ℕ :=
  match w.poll_out answers with
  | (w, taken, .Pending) => (w, taken, .Pending)
  | (w, taken, .Ready (.error e)) => (w, taken, .Ready (.error e))
  | (w, taken, .Ready (.ok ())) =>
    ({ w with accepted := 0 }, taken, .Ready (.ok (min w.accepted data.length)))

def poll_write (w : Writer) (drawn : Drawn) (data : Bytes) (answers : List Wrote) :
    Writer × Bytes × Poll ℕ :=
  if data = [] then (w, [], .Ready (.ok 0))
  else if w.out = [] ∧ w.accepted = 0 then
    if w.first.isNone ∧ w.tls = false then w.pass_on data answers
    else
      let encoded := w.encode drawn data
      { encoded.1 with accepted := encoded.2 }.finish data answers
  else w.finish data answers

/-- A flush; `below` is what the stream below makes of it. -/
def poll_flush (w : Writer) (answers : List Wrote) (below : Poll Unit) :
    Writer × Bytes × Poll Unit :=
  match w.poll_out answers with
  | (w, taken, .Ready (.ok ())) => (w, taken, below)
  | unfinished => unfinished

/-- A shutdown, as a flush. -/
def poll_shutdown (w : Writer) (answers : List Wrote) (below : Poll Unit) :
    Writer × Bytes × Poll Unit :=
  w.poll_flush answers below

end Writer

/-! ### The stream that reads -/

/-- Which record the server sends next. -/
inductive Phase
  | ServerHello
  | ChangeCipherSpec
  | FirstData
  | AppData
  deriving DecidableEq

namespace Phase

def kind : Phase → UInt8
  | ServerHello | FirstData => HANDSHAKE
  | ChangeCipherSpec => CHANGE_CIPHER_SPEC
  | AppData => APPLICATION_DATA

def next : Phase → Phase
  | ServerHello => ChangeCipherSpec
  | ChangeCipherSpec => FirstData
  | FirstData | AppData => AppData

/-- The record carries data. -/
def delivers : Phase → Bool
  | FirstData | AppData => true
  | _ => false

end Phase

/-- Inside the records: the one whose header comes next, what is there of that header, what is left
of the body of the one before, and whether that is data. -/
structure Records where
  phase : Phase
  header : Bytes
  left : ℕ
  deliver : Bool
  short : header.length < HEADER_LEN

inductive ReadState
  | HttpHead
  | Records (records : Records)
  | Raw

/-- What of the stream the reads look at: `buffered` are the bytes read and not taken. -/
structure Reader where
  read : ReadState
  buffered : Bytes

/-- What the stream below makes of a read: nothing yet, or up to `n + 1` bytes of what comes. -/
inductive Gave
  | Pending
  | Some (n : ℕ)

/-- A read of the stream below, of `limit` bytes at most: what it gives, nothing at the end, and
what comes after. -/
def fill (limit : ℕ) (coming : Bytes) (n : ℕ) : Bytes × Bytes :=
  let n := min (n + 1) limit
  (coming.take n, coming.drop n)

/-- Where the server's answer head ends. -/
def head_end : Bytes → Option ℕ
  | [] => none
  | b :: data =>
    if (b :: data).take 4 = [13, 10, 13, 10] then some 4 else (head_end data).map (· + 1)

/-- The bytes up to the first `b`, and those after it. -/
def split_byte (b : UInt8) (data : Bytes) : Bytes × Bytes :=
  (data.takeWhile (· ≠ b), (data.dropWhile (· ≠ b)).tail)

/-- An upgrade, or any success. -/
def is_upgrade_answer (head : Bytes) : Bool :=
  let line := (split_byte 13 head).1
  let version := (split_byte 32 line).1
  let code := (split_byte 32 (split_byte 32 line).2).1
  let code := (from_utf8 code).bind (Str.parseUnsigned 65535)
  (utf8 "HTTP/1.".toList).isPrefixOf version &&
    code.any fun code => code = 101 || (200 ≤ code && code ≤ 299)

/-- How the bytes in the buffer are gone through: some are handed over, a record is refused, or
they are used up. -/
inductive Chewed
  | Give (bytes : Bytes) (records : Records) (buffered : Bytes)
  | Refuse (message : String)
  | More (records : Records)

namespace Records

def new : Records := ⟨.ServerHello, [], 0, false, by decide⟩

/-- A header that is whole: the record it begins. -/
def begin_record (phase : Phase) (header : Bytes) : Except String Records :=
  match record_len header phase.kind with
  | some len => .ok ⟨phase.next, [], len, phase.delivers, by decide⟩
  | none => .error (if phase = .AppData then MALFORMED else NOT_OBFS)

/-- The bytes in the buffer, gone through for a buffer of `room` bytes. -/
def chew (r : Records) (room : ℕ) (buffered : Bytes) : Chewed :=
  if _hnone : buffered = [] then .More r
  else if 0 < r.left then
    let n := min r.left buffered.length
    if r.deliver then
      let n := min n room
      .Give (buffered.take n) { r with left := r.left - n } (buffered.drop n)
    else chew { r with left := r.left - n } room (buffered.drop n)
  else
    let n := min (HEADER_LEN - r.header.length) buffered.length
    let header := r.header ++ buffered.take n
    if hshort : header.length < HEADER_LEN then
      chew { r with header := header, short := hshort } room (buffered.drop n)
    else
      match begin_record r.phase header with
      | .ok record => chew record room (buffered.drop n)
      | .error message => .Refuse message
termination_by buffered.length
decreasing_by
  all_goals
    have := List.length_pos_iff.2 _hnone
    have := r.short
    rw [List.length_drop]
    omega

/-- Nothing of the records has begun, or nothing of another one. -/
def at_end (r : Records) : Bool :=
  (r.phase = .ServerHello && r.header = []) ||
    (r.phase = .AppData && r.header = [] && r.left = 0)

end Records

namespace Reader

def new : Kind → Reader
  | .Http _ _ => ⟨.HttpHead, []⟩
  | .Tls _ => ⟨.Records .new, []⟩

/-- Bytes of the buffer, or of the stream below itself. -/
def poll_raw (room : ℕ) (buffered coming : Bytes) :
    List Gave → Reader × Bytes × Poll Bytes
  | answers =>
    if buffered ≠ [] then
      (⟨.Raw, buffered.drop room⟩, coming, .Ready (.ok (buffered.take room)))
    else
      match answers with
      | [] | .Pending :: _ => (⟨.Raw, []⟩, coming, .Pending)
      | .Some n :: _ =>
        let filled := fill room coming n
        (⟨.Raw, []⟩, filled.2, .Ready (.ok filled.1))

/-- A read of the head of the server's answer, and of what follows it. -/
def poll_head (room : ℕ) : Bytes → Bytes → List Gave → Reader × Bytes × Poll Bytes
  | buffered, coming, answers =>
    match head_end buffered with
    | some end_ =>
      if is_upgrade_answer (buffered.take end_) then
        poll_raw room (buffered.drop end_) coming answers
      else (⟨.HttpHead, buffered⟩, coming, .Ready (.error ⟨.InvalidData, NOT_OBFS⟩))
    | none =>
      if buffered.length = MAX_RESPONSE_HEAD then
        (⟨.HttpHead, buffered⟩, coming, .Ready (.error ⟨.InvalidData, NOT_OBFS⟩))
      else
        match answers with
        | [] | .Pending :: _ => (⟨.HttpHead, buffered⟩, coming, .Pending)
        | .Some n :: answers =>
          let filled := fill (MAX_RESPONSE_HEAD - buffered.length) coming n
          if filled.1 = [] then
            (⟨.HttpHead, buffered⟩, coming,
              if buffered = [] then .Ready (.ok []) else .Ready (.error ⟨.UnexpectedEof, NOT_OBFS⟩))
          else poll_head room (buffered ++ filled.1) filled.2 answers

/-- A read of the records. -/
def poll_records (room : ℕ) : Records → Bytes → Bytes → List Gave →
    Reader × Bytes × Poll Bytes
  | records, buffered, coming, answers =>
    match records.chew room buffered with
    | .Give bytes records buffered => (⟨.Records records, buffered⟩, coming, .Ready (.ok bytes))
    | .Refuse message =>
      (⟨.Records records, buffered⟩, coming, .Ready (.error ⟨.InvalidData, message⟩))
    | .More records =>
      match answers with
      | [] | .Pending :: _ => (⟨.Records records, []⟩, coming, .Pending)
      | .Some n :: answers =>
        let filled := fill MAX_RECORD coming n
        if filled.1 = [] then
          (⟨.Records records, []⟩, coming,
            if records.at_end then .Ready (.ok [])
            else .Ready (.error ⟨.UnexpectedEof,
              if records.phase ≠ .AppData then NOT_OBFS else CUT_SHORT⟩))
        else poll_records room records filled.1 filled.2 answers

/-- A read into a buffer of `room` bytes, with what comes from the stream below. -/
def poll_read (r : Reader) (room : ℕ) (coming : Bytes) (answers : List Gave) :
    Reader × Bytes × Poll Bytes :=
  match r.read with
  | .Raw => poll_raw room r.buffered coming answers
  | .HttpHead => poll_head room r.buffered coming answers
  | .Records records => poll_records room records r.buffered coming answers

end Reader

end SimpleObfs

end Rurge
