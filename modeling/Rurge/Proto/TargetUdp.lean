import Rurge.Lib.Assoc
import Rurge.Lib.Fifo
import Rurge.Lib.Runs
import Rurge.Hysteria2.Varint

/-!
# UDP over one connection for each target

VMess UDP and CONNECT-UDP over HTTP/2: the table has a slot for each target, a cell that one of
those who wait for it fills with a connection.  Between two steps of a sender, whatever it waits for
or locks, others take theirs; a sender may be dropped wherever it waits.  A reader ends at any
moment, also before the cell of its connection is set, and leaves the table in a step after that.
How long a reader waits is left out: it may end whenever it is idle.
-/

namespace Rurge

namespace TargetUdp

inductive Carrier
  | Vmess
  | H2
  deriving DecidableEq

/-- The longest datagram. -/
def Carrier.MAX_PAYLOAD : Carrier → ℕ
  | .Vmess => 16384 - 16
  | .H2 => 65527

/-- A DATAGRAM capsule. -/
def datagram (payload : List UInt8) : List UInt8 :=
  Varint.put 0 ++ Varint.put (payload.length + 1) ++ Varint.put 0 ++ payload

/-- What is written for a datagram. -/
def Carrier.frame : Carrier → List UInt8 → List UInt8
  | .Vmess, buf => buf
  | .H2, buf => datagram buf

/-- The writing side of a connection: the chunks sealed, or the pieces sent, and how many bytes the
chunk has that is not out yet. -/
structure Writer where
  parked : Option ℕ
  wire : List (List UInt8)
  deriving DecidableEq

/-- A write of `data` where the connection takes `room` bytes, none where it is full: how many bytes
were taken.  VMess seals one chunk and keeps it until it is out; HTTP/2 sends what there is room
for. -/
def poll_write (carrier : Carrier) (writer : Writer) (data : List UInt8) (room : ℕ) :
    Writer × Option ℕ :=
  match carrier with
  | .Vmess =>
    let n := min data.length carrier.MAX_PAYLOAD
    let (accepted, wire) := match writer.parked with
      | some accepted => (accepted, writer.wire)
      | none => (n, writer.wire ++ [data.take n])
    if room = 0 then (⟨some accepted, wire⟩, none)
    else (⟨none, wire⟩, some (min accepted data.length))
  | .H2 =>
    if room = 0 then (writer, none)
    else (⟨none, writer.wire ++ [data.take room]⟩, some (min room data.length))

inductive Error
  | InvalidInput
  | Dial
  | ConnectionAborted
  | Write
  deriving DecidableEq

/-- The cell of a slot: nobody fills it, a sender does, or it is set. -/
inductive Cell
  | Empty
  | Filling (sender : ℕ)
  | Set (conn : ℕ)
  deriving DecidableEq

/-- A slot; `failed` says whether a dial for it has failed. -/
structure Slot (Target : Type*) where
  target : Target
  cell : Cell
  failed : Bool
  deriving DecidableEq

/-- A connection; `left` says whether its reader has left the table, `sent` whose datagrams went
out, and `cut` whether a write failed or was dropped in the middle. -/
structure Conn (Target : Type*) where
  target : Target
  ended : Bool
  left : Bool
  writer : Writer
  lock : Option ℕ
  sent : List ℕ
  cut : Bool
  deriving DecidableEq

/-- Where a sender is: it looks for its slot, waits for the cell, dials, has a connection to put
into the cell, is to forget the slot its dial failed for, has the cell's connection, waits for its
writer, writes, is to forget the slot its write failed for, or is through. -/
inductive Phase
  | Asks
  | Waits (slot : ℕ)
  | Dials (slot : ℕ)
  | Fills (slot conn : ℕ)
  | Failed (slot : ℕ)
  | Has (slot conn : ℕ)
  | Locks (slot conn : ℕ)
  | Writes (slot conn : ℕ) (left : List UInt8)
  | Forgets (slot conn : ℕ)
  | Done (result : Except Error Unit)
  | Dropped

/-- A call of `send_to`; `redials` says how often it redialled, and `dead` which connections had
ended when it came. -/
structure Sender (Target : Type*) where
  target : Target
  buf : List UInt8
  phase : Phase
  redialled : Bool
  redials : ℕ
  dead : List ℕ

/-- The table, with every slot, connection and sender there ever was. -/
structure World (Target : Type*) where
  carrier : Carrier
  table : Assoc Target ℕ
  slots : List (Slot Target)
  conns : List (Conn Target)
  senders : List (Sender Target)

/-- A datagram comes, a sender makes its next step, its dial is through, its write finds room or
fails, or it is dropped; a reader ends, and leaves the table. -/
inductive Action (Target : Type*)
  | send_to (target : Target) (buf : List UInt8)
  | poll (sender : ℕ)
  | dialled (sender : ℕ) (ok : Bool)
  | write (sender : ℕ) (room : Option ℕ)
  | drop (sender : ℕ)
  | ends (conn : ℕ)
  | leaves (conn : ℕ)

namespace World

variable {Target : Type*} [DecidableEq Target]

def new (carrier : Carrier) : World Target := ⟨carrier, ∅, [], [], []⟩

variable (w : World Target)

/-- The sender `k` in another state. -/
def put (k : ℕ) (s : Sender Target) : World Target := { w with senders := w.senders.set k s }

/-- The cell of the slot `i` set. -/
def fill (i : ℕ) (cell : Cell) : World Target :=
  { w with slots := w.slots.modify i fun slot => { slot with cell := cell } }

def touch (c : ℕ) (f : Conn Target → Conn Target) : World Target :=
  { w with conns := w.conns.modify c f }

def ended (c : ℕ) : Bool := (w.conns[c]?.map Conn.ended).getD false

/-- The connection in the cell of the slot `i`. -/
def get (i : ℕ) : Option ℕ :=
  match w.slots[i]?.map Slot.cell with
  | some (.Set c) => some c
  | _ => none

/-- The slot of a target; one whose connection has ended is replaced. -/
def slot (k : ℕ) (s : Sender Target) : World Target :=
  let fresh : World Target := { w with
    table := w.table.insert s.target w.slots.length
    slots := w.slots ++ [⟨s.target, .Empty, false⟩]
    senders := w.senders.set k { s with phase := .Waits w.slots.length } }
  match w.table.lookup s.target with
  | some i => if (w.get i).any w.ended then fresh else w.put k { s with phase := .Waits i }
  | none => fresh

/-- Forgets a slot, unless another has taken its place. -/
def forget (target : Target) (i : ℕ) : World Target :=
  if w.table.lookup target = some i then { w with table := w.table.erase target } else w

/-- Waits for a cell: its connection is there, or nobody fills it and the sender does, or it goes on
waiting. -/
def wait (k : ℕ) (s : Sender Target) (i : ℕ) : World Target :=
  match w.slots[i]?.map Slot.cell with
  | some (.Set c) => w.put k { s with phase := .Has i c }
  | some .Empty => (w.fill i (.Filling k)).put k { s with phase := .Dials i }
  | _ => w

/-- What a sender makes of the connection it was given: one that has ended is dialled again, once,
and one that is not in the table is put there, or left for the one that is. -/
def check (k : ℕ) (s : Sender Target) (i c : ℕ) : World Target :=
  if w.ended c then
    if s.redialled then w.put k { s with phase := .Done (.error .ConnectionAborted) }
    else w.put k { s with phase := .Asks, redialled := true, redials := s.redials + 1 }
  else match w.table.lookup s.target with
    | none =>
      { w with
        table := w.table.insert s.target i
        senders := w.senders.set k { s with phase := .Locks i c } }
    | some j =>
      if j = i then w.put k { s with phase := .Locks i c } else w.put k { s with phase := .Asks }

/-- The next step of a sender that waits for nothing but a cell or a lock. -/
def poll (k : ℕ) (s : Sender Target) : World Target :=
  match s.phase with
  | .Asks => w.slot k s
  | .Waits i => w.wait k s i
  | .Fills i c => (w.fill i (.Set c)).put k { s with phase := .Has i c }
  | .Failed i => (w.forget s.target i).put k { s with phase := .Done (.error .Dial) }
  | .Has i c => w.check k s i c
  | .Locks i c =>
    match w.conns[c]?.map Conn.lock with
    | some none =>
      (w.touch c fun conn => { conn with lock := some k }).put k
        { s with phase := .Writes i c (w.carrier.frame s.buf) }
    | _ => w
  | .Forgets i c =>
    ((w.forget s.target i).touch c fun conn => { conn with lock := none }).put k
      { s with phase := .Done (.error .Write) }
  | _ => w

/-- A dial is through: its connection has a reader from now on. -/
def dialled (k : ℕ) (s : Sender Target) (i : ℕ) (ok : Bool) : World Target :=
  if ok then
    { w with
      conns := w.conns ++ [⟨s.target, false, false, ⟨none, []⟩, none, [], false⟩]
      senders := w.senders.set k { s with phase := .Fills i w.conns.length } }
  else
    { w with
      slots := w.slots.modify i fun slot => { slot with cell := .Empty, failed := true }
      senders := w.senders.set k { s with phase := .Failed i } }

/-- A write of what is left; once nothing is, the datagram is out. -/
def write (k : ℕ) (s : Sender Target) (i c : ℕ) (left : List UInt8) (conn : Conn Target) :
    Option ℕ → World Target
  | none =>
    (w.touch c fun conn => { conn with cut := true }).put k { s with phase := .Forgets i c }
  | some room =>
    if left = [] then
      if room = 0 then w
      else (w.touch c fun conn => { conn with lock := none, sent := conn.sent ++ [k] }).put k
        { s with phase := .Done (.ok ()) }
    else
      let (writer, taken) := poll_write w.carrier conn.writer left room
      (w.touch c fun conn => { conn with writer := writer }).put k
        { s with phase := .Writes i c (left.drop (taken.getD 0)) }

/-- A sender dropped while it has the writer: its datagram is out, or cut, or was not begun. -/
def cut (k : ℕ) (s : Sender Target) (c : ℕ) (left : List UInt8) : World Target :=
  (w.touch c fun conn =>
    if left = [] then { conn with lock := none, sent := conn.sent ++ [k] }
    else if left = w.carrier.frame s.buf ∧ conn.writer.parked = none then { conn with lock := none }
    else { conn with lock := none, cut := true }).put k { s with phase := .Dropped }

/-- A sender dropped where it waits. -/
def drop (k : ℕ) (s : Sender Target) : World Target :=
  match s.phase with
  | .Waits _ | .Locks _ _ => w.put k { s with phase := .Dropped }
  | .Dials i => (w.fill i .Empty).put k { s with phase := .Dropped }
  | .Writes _ c left => w.cut k s c left
  | _ => w

/-- The reader of a connection leaves the table, unless a newer connection has taken the place. -/
def leave (c : ℕ) (conn : Conn Target) : World Target :=
  let w := w.touch c fun conn => { conn with left := true }
  match w.table.lookup conn.target with
  | some i => if w.get i = some c then { w with table := w.table.erase conn.target } else w
  | none => w

/-- A datagram that comes: one that is too long is refused, and an empty one is no chunk. -/
def call (target : Target) (buf : List UInt8) : Sender Target where
  target := target
  buf := buf
  phase :=
    if w.carrier.MAX_PAYLOAD < buf.length then .Done (.error .InvalidInput)
    else if w.carrier = .Vmess ∧ buf = [] then .Done (.ok ())
    else .Asks
  redialled := false
  redials := 0
  dead := (List.range w.conns.length).filter w.ended

def step : Action Target → World Target
  | .send_to target buf => { w with senders := w.senders ++ [w.call target buf] }
  | .poll k =>
    match w.senders[k]? with
    | some s => w.poll k s
    | none => w
  | .dialled k ok =>
    match w.senders[k]? with
    | some s =>
      match s.phase with
      | .Dials i => w.dialled k s i ok
      | _ => w
    | none => w
  | .write k room =>
    match w.senders[k]? with
    | some s =>
      match s.phase with
      | .Writes i c left =>
        match w.conns[c]? with
        | some conn => w.write k s i c left conn room
        | none => w
      | _ => w
    | none => w
  | .drop k =>
    match w.senders[k]? with
    | some s => w.drop k s
    | none => w
  | .ends c => w.touch c fun conn => { conn with ended := true }
  | .leaves c =>
    match w.conns[c]? with
    | some conn => if conn.ended && !conn.left then w.leave c conn else w
    | none => w

end World

end TargetUdp

end Rurge
