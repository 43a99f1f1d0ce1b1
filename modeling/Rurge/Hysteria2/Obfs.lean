import Rurge.Hysteria2.GeckoRuns
import Rurge.Lib.Chunks
import Rurge.Lib.Runs

/-!
# An obfuscated socket

One layer over a connection's socket: what is sent is sealed, a long-header packet in fragments
where Gecko is on; what is read, a datagram or several put together, is opened one by one and handed
on.  What the inner socket does with a datagram, what it reads, when quinn polls and with which
buffers, is left to the run.
-/

namespace Rurge

namespace Obfs

/-- A connection's socket, obfuscated: Salamander, and Gecko over it or not. -/
structure Obfuscated where
  salamander : Salamander
  gecko : Bool

/-! ### Sending -/

/-- What the inner socket does with a datagram. -/
inductive Outcome
  | went
  | blocks
  | fails
  deriving DecidableEq

/-- A packet quinn sends, when, and what is drawn and done for it. -/
structure Attempt where
  packet : Bytes
  at_ : ℕ
  count : Option UInt32
  draws : ℕ → Draw
  outcomes : ℕ → Outcome

/-- What was made of a packet: in which fragments it was cut, if it was, its datagrams, and which of
them went out. -/
structure Sent where
  packet : Bytes
  at_ : ℕ
  cut : Option Cut
  datagrams : List Bytes
  out : List ℕ

/-- The datagrams that go out: a failure loses one, one that would block is the last. -/
def going (outcomes : ℕ → Outcome) : List ℕ → List ℕ
  | [] => []
  | n :: rest =>
    match outcomes n with
    | .went => n :: going outcomes rest
    | .fails => going outcomes rest
    | .blocks => []

/-- The sending side: the message the next long-header packet goes in, and all that was sent. -/
structure Sender where
  messages : UInt8
  sent : List Sent

theorem count_ok (random : Option UInt32) :
    MIN_FRAGMENTS ≤ fragment_count random ∧ fragment_count random ≤ MAX_FRAGMENTS := by
  have hbelow : below random ((MAX_FRAGMENTS - MIN_FRAGMENTS).toNat + 1) < 7 :=
    below_lt random (by decide)
  have hall : ∀ n < 7, MIN_FRAGMENTS ≤ MIN_FRAGMENTS + .ofNat n ∧
      MIN_FRAGMENTS + .ofNat n ≤ MAX_FRAGMENTS := by decide
  exact hall _ hbelow

namespace Obfuscated

variable (o : Obfuscated)

/-- What a long-header packet is cut in. -/
def cut (message : UInt8) (a : Attempt) : Cut :=
  ⟨a.packet, message, fragment_count a.count, count_ok a.count⟩

/-- What is made of a packet that goes whole. -/
def whole (a : Attempt) : Sent where
  packet := a.packet
  at_ := a.at_
  cut := none
  datagrams := [o.salamander.seal_ (a.draws 0).salt (List.replicate SALT 0 ++ a.packet)]
  out := going a.outcomes [0]

/-- What is made of one that goes in fragments. -/
def fragmented (message : UInt8) (a : Attempt) : Sent where
  packet := a.packet
  at_ := a.at_
  cut := some (cut message a)
  datagrams := fragments o.salamander a.draws a.packet (fragment_count a.count) message
  out := going a.outcomes (List.range (fragment_count a.count).toNat)

/-- A packet is sent; `false` where quinn is to try again. -/
def try_send (s : Sender) (a : Attempt) : Sender × Bool :=
  if o.gecko && is_long_header a.packet then
    (⟨s.messages + 1, s.sent ++ [o.fragmented s.messages a]⟩, a.outcomes 0 != .blocks)
  else (⟨s.messages, s.sent ++ [o.whole a]⟩, a.outcomes 0 != .blocks)

/-- All that was made of the packets a source sends. -/
def sends (attempts : List Attempt) : Sender :=
  attempts.foldl (fun s a => (o.try_send s a).1) ⟨0, []⟩

/-- The QUIC packet `datagram` brings, or the one it makes whole. -/
def open_ (now : ℕ) (datagram : Bytes) (source : SocketAddr) (r : Reassembly) :
    Reassembly × Option Bytes :=
  match o.salamander.open_ datagram with
  | none => (r, none)
  | some packet =>
    if !o.gecko || !is_long_header packet then (r, some packet)
    else match parse packet with
      | none => (r, none)
      | some frame => r.feed now source frame

end Obfuscated

/-! ### Receiving -/

/-- A read of the inner socket: a datagram, or several `stride` apart, with which of the source's
datagrams they are. -/
structure Read where
  bytes : Bytes
  stride : ℕ
  source : SocketAddr
  labels : List (ℕ × ℕ)

/-- `RecvMeta::default`. -/
def Read.default : Read := ⟨[], 0, ⟨.v6 0, 0⟩, []⟩

/-- A datagram that was opened: when, where it came from, which of the source's it was, the room
there was, and the packet that was handed on. -/
structure Opened where
  now : ℕ
  source : SocketAddr
  datagram : Bytes
  label : ℕ × ℕ
  room : ℕ
  packet : Option Bytes

/-- What a read brought and quinn has not had yet, and every datagram that was opened. -/
structure Received where
  read : Read
  at_ : ℕ
  reassembly : Reassembly
  opened : List Opened

namespace Received

variable (o : Obfuscated) (clock : ℕ → ℕ)

/-- Where the read's next datagram ends. -/
def end_ (s : Received) : ℕ := min s.read.bytes.length (s.at_ + s.read.stride)

/-- The read's next datagram opened, for a buffer of `room` bytes. -/
def next (s : Received) (room : ℕ) : Received × Option Bytes :=
  let datagram := (s.read.bytes.take s.end_).drop s.at_
  let now := clock s.opened.length
  let opened := o.open_ now datagram s.read.source s.reassembly
  let packet := opened.2.filter fun packet => packet.length ≤ room
  (⟨{ s.read with labels := s.read.labels.tail }, s.end_, opened.1,
    s.opened ++ [⟨now, s.read.source, datagram, s.read.labels.headD (0, 0), room, packet⟩]⟩, packet)

/-- The read's datagrams opened, as long as there are any and there is a buffer for one; nothing if
that never comes to an end. -/
def take_read (s : Received) (rooms : List ℕ) : Option (Received × List (Bytes × SocketAddr)) :=
  match rooms with
  | [] => some (s, [])
  | room :: rest =>
    if _h : s.at_ < s.read.bytes.length then
      if _hs : 0 < s.read.stride then
        match (s.next o clock room).2 with
        | none => take_read (s.next o clock room).1 (room :: rest)
        | some packet => (take_read (s.next o clock room).1 rest).map fun found =>
          (found.1, (packet, s.read.source) :: found.2)
      else none
    else some (s, [])
termination_by s.read.bytes.length - s.at_
decreasing_by all_goals simp only [next, end_]; omega

end Received

/-- What a poll comes to. -/
inductive Polled
  | Pending
  | Failed (e : Str)
  | Ready (packets : List (Bytes × SocketAddr))

/-- The receiving side: what the inner socket holds, all that arrived and all that was handed on. -/
structure Socket where
  received : Received
  inbox : List (Except Str Read)
  arrived : List Read
  handed : List (Bytes × SocketAddr)

namespace Socket

variable (o : Obfuscated) (clock : ℕ → ℕ)

def new : Socket := ⟨⟨Read.default, 0, [], []⟩, [], [], []⟩

/-- quinn polls, with buffers of these sizes: what it is given, and what is left. -/
def poll_recv (rooms : List ℕ) (s : Received) (inbox : List (Except Str Read)) :
    Option (Polled × Received × List (Except Str Read)) :=
  match s.take_read o clock rooms with
  | none => none
  | some (s, packet :: packets) => some (.Ready (packet :: packets), s, inbox)
  | some (s, []) =>
    match inbox with
    | [] => some (.Pending, { s with read := Read.default, at_ := 0 }, [])
    | .error e :: inbox => some (.Failed e, { s with read := Read.default, at_ := 0 }, inbox)
    | .ok read :: inbox => poll_recv rooms { s with read := read, at_ := 0 } inbox
termination_by inbox.length

end Socket

/-- What happens to the receiving side: a read arrives, or a failure, and quinn polls. -/
inductive Action
  | arrive (read : Read)
  | fail (e : Str)
  | poll (rooms : List ℕ)

namespace Socket

def given : Polled → List (Bytes × SocketAddr)
  | .Ready packets => packets
  | _ => []

def step (o : Obfuscated) (clock : ℕ → ℕ) (s : Socket) : Action → Socket
  | .arrive read => { s with inbox := s.inbox ++ [.ok read], arrived := s.arrived ++ [read] }
  | .fail e => { s with inbox := s.inbox ++ [.error e] }
  | .poll rooms =>
    match poll_recv o clock rooms s.received s.inbox with
    | none => s
    | some (polled, received, inbox) =>
      { s with received := received, inbox := inbox, handed := s.handed ++ given polled }

end Socket

end Obfs

end Rurge
