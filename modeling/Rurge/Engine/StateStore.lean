import Rurge.Lib.Assoc
import Rurge.Lib.Fifo
import Rurge.Lib.Runs
import Rurge.Text

/-!
# The state file

What outlives the configuration is kept in `state.json` (`rurge_engine::state`): a `StateStore` has
a copy in memory, behind an async mutex, and writes the file anew at each change.  The write runs on
another thread, through a temporary file under one name for all writes, and goes on when the call
that began it is dropped; the lock is the call's and goes with it.

* `update` changes the copy and then writes it; a write that fails is only logged.
* `try_update` writes what is to be the copy, and changes it where the write went through.
* How a state is written as text and read again is a parameter (`Codec`).
* Files are places in a list of contents with names for them, since a write goes on into the place
  it opened whatever the names say by then.
-/

namespace Rurge

namespace StateStore

abbrev Bytes := List UInt8

def STATE_VERSION : ℕ := 2

structure Features where
  system_proxy : Bool
  enhanced_mode : Bool
  /-- Never set, on, or off. -/
  mitm : Option Bool
  capture : Option Bool
  rewrite : Option Bool
  scripting : Option Bool
  deriving DecidableEq

structure State (Json : Type) where
  version : ℕ
  outbound_mode : Option Str
  global_policy : Option Str
  features : Features
  /-- By the profile's file name, the member selected in each group. -/
  group_selections : Assoc Str (Assoc Str Str)
  system_proxy_backup : Option Json
  enhanced_backup : Option Json
  current_profile : Option Str

variable {Json : Type}

namespace State

/-- `State::default`. -/
def default : State Json where
  version := STATE_VERSION
  outbound_mode := none
  global_policy := none
  features := ⟨false, false, none, none, none, none⟩
  group_selections := ∅
  system_proxy_backup := none
  enhanced_backup := none
  current_profile := none

/-- A file of the first version never held a choice of the four switches. -/
def migrate (s : State Json) : State Json :=
  if s.version < STATE_VERSION then
    { s with
      version := STATE_VERSION
      features :=
        { s.features with mitm := none, capture := none, rewrite := none, scripting := none } }
  else s

end State

/-- How a state is written and read: what is written is always read, and a `Plain` state is read as
it was written. -/
structure Codec (Json : Type) where
  to_string : State Json → Bytes
  from_str : Bytes → Option (State Json)
  Plain : State Json → Prop
  reads : ∀ s, (from_str (to_string s)).isSome = true
  from_to : ∀ s, Plain s → from_str (to_string s) = some s

/-! ### Files -/

/-- The names in the directory. -/
inductive Name
  | File
  | Tmp
  | Broken
  deriving DecidableEq

/-- The contents there are, and which of them each name is for. -/
structure Fs where
  contents : List Bytes
  names : Name → Option ℕ

namespace Fs

/-- A directory with these files in it. -/
def ofTexts (texts : Name → Option Bytes) : Fs where
  contents := [(texts .File).getD [], (texts .Tmp).getD [], (texts .Broken).getD []]
  names
    | .File => (texts .File).map fun _ => 0
    | .Tmp => (texts .Tmp).map fun _ => 1
    | .Broken => (texts .Broken).map fun _ => 2

def text (fs : Fs) (name : Name) : Option Bytes := (fs.names name).bind (fs.contents[·]?)

/-- `File::create`: the file is there and empty. -/
def create (fs : Fs) (name : Name) : ℕ × Fs :=
  match fs.names name with
  | some i => (i, { fs with contents := fs.contents.set i [] })
  | none =>
    (fs.contents.length,
      ⟨fs.contents ++ [[]], Function.update fs.names name (some fs.contents.length)⟩)

/-- Bytes written at a place of a file. -/
def write (fs : Fs) (i place : ℕ) (bytes : Bytes) : Fs :=
  { fs with
    contents := fs.contents.modify i fun content =>
      content.take place ++ List.replicate (place - content.length) 0 ++ bytes ++
        content.drop (place + bytes.length) }

/-- `std::fs::rename`. -/
def rename (fs : Fs) (old new : Name) : Fs :=
  { fs with names := Function.update (Function.update fs.names new (fs.names old)) old none }

end Fs

/-- `read_state`; `fails` says that the file cannot be read. -/
def read_state (codec : Codec Json) (fs : Fs) (fails : Bool) : State Json × Fs :=
  match fs.text .File with
  | none => (.default, fs)
  | some text =>
    if fails then (.default, fs)
    else
      match codec.from_str text with
      | some state => (state.migrate, fs)
      | none => (.default, fs.rename .File .Broken)

/-! ### Calls -/

inductive Op (Json : Type)
  | update (f : State Json → State Json)
  | try_update (f : State Json → State Json)
  | snapshot

namespace Op

def closure : Op Json → State Json → State Json
  | update f => f
  | try_update f => f
  | snapshot => id

def tries : Op Json → Bool
  | try_update _ => true
  | update _ | snapshot => false

end Op

/-- Where a call is: it waits for the lock, has it and waits for its write, or is through. -/
inductive Phase
  | Waits
  | Writes
  | Done (ok : Bool)
  | Dropped
  deriving DecidableEq

/-- Where a write is: `write_atomic` makes the directory, creates the temporary file, writes it,
from a place on, and renames it. -/
inductive Job
  | Dir
  | Create
  | Write (i place : ℕ)
  | Rename
  | Ended (ok : Bool)
  deriving DecidableEq

/-- A write that has not ended. -/
def Job.underway : Job → Bool
  | Ended _ => false
  | _ => true

/-- A call, the state its closure made, and its write. -/
structure Call (Json : Type) where
  op : Op Json
  phase : Phase
  made : Option (State Json)
  job : Option Job

namespace Call

def busy (c : Call Json) : Bool := c.job.any Job.underway

/-- What its write is to put into the file. -/
def text (c : Call Json) (codec : Codec Json) : Bytes := codec.to_string (c.made.getD .default)

end Call

/-- The store, its file and the calls.  Kept beside: the state and the text that `open` found, whose
closures were applied, who changed the state and whose writes went through, in order, and how the
last write ended. -/
structure World (Json : Type) where
  fs : Fs
  state : State Json
  lock : Option ℕ
  calls : List (Call Json)
  first : State Json
  left : Option Bytes
  applied : List ℕ
  changes : List ℕ
  renames : List ℕ
  last : Option Bool

/-- `StateStore::open`. -/
def open_ (codec : Codec Json) (texts : Name → Option Bytes) (fails : Bool) : World Json :=
  let r := read_state codec (.ofTexts texts) fails
  { fs := r.2
    state := r.1
    lock := none
    calls := []
    first := r.1
    left := r.2.text .File
    applied := []
    changes := []
    renames := []
    last := none }

namespace World

variable (codec : Codec Json) (w : World Json) (k : ℕ) (c : Call Json)

def put (c : Call Json) : World Json := { w with calls := w.calls.set k c }

/-- A call with the lock: its closure is applied and its write begun. -/
def begin_ : World Json :=
  match c.op with
  | .update f =>
    { w with
      state := f w.state
      lock := some k
      calls := w.calls.set k { c with phase := .Writes, made := some (f w.state), job := some .Dir }
      applied := w.applied ++ [k]
      changes := w.changes ++ [k] }
  | .try_update f =>
    { w with
      lock := some k
      calls := w.calls.set k { c with phase := .Writes, made := some (f w.state), job := some .Dir }
      applied := w.applied ++ [k] }
  | .snapshot => w.put k { c with phase := .Done true }

/-- A call whose write has ended. -/
def finish (ok : Bool) : World Json :=
  match c.op with
  | .try_update _ =>
    if ok then
      { w with
        state := c.made.getD .default
        lock := none
        calls := w.calls.set k { c with phase := .Done true }
        changes := w.changes ++ [k] }
    else { w with lock := none, calls := w.calls.set k { c with phase := .Done false } }
  | _ => { w with lock := none, calls := w.calls.set k { c with phase := .Done true } }

def poll : World Json :=
  match c.phase with
  | .Waits => if w.lock = none then w.begin_ k c else w
  | .Writes =>
    match c.job with
    | some (.Ended ok) => w.finish k c ok
    | _ => w
  | _ => w

/-- The call goes away, and the lock with it; its write does not. -/
def drop : World Json :=
  match c.phase with
  | .Waits => w.put k { c with phase := .Dropped }
  | .Writes => { w with lock := none, calls := w.calls.set k { c with phase := .Dropped } }
  | _ => w

/-- A write goes on. -/
def goes (fs : Fs) (job : Job) : World Json :=
  { w with fs := fs, calls := w.calls.set k { c with job := some job } }

def ends (ok : Bool) : World Json :=
  { w with calls := w.calls.set k { c with job := some (.Ended ok) }, last := some ok }

/-- One step of a write: `went` says that it is done, and of bytes how many at most, or that it
failed. -/
def work (went : Option ℕ) (job : Job) : World Json :=
  match job, went with
  | .Dir, some _ => w.goes k c w.fs .Create
  | .Create, some _ => w.goes k c (w.fs.create .Tmp).2 (.Write (w.fs.create .Tmp).1 0)
  | .Write i place, went =>
    if (c.text codec).length ≤ place then w.goes k c w.fs .Rename
    else
      match went with
      | some n =>
        let bytes := ((c.text codec).drop place).take (n + 1)
        w.goes k c (w.fs.write i place bytes) (.Write i (place + bytes.length))
      | none => w.ends k c false
  | .Rename, some _ =>
    if (w.fs.names .Tmp).isSome then
      { w.ends k c true with fs := w.fs.rename .Tmp .File, renames := w.renames ++ [k] }
    else w.ends k c false
  | .Ended _, _ => w
  | _, none => w.ends k c false

end World

inductive Action (Json : Type)
  | call (op : Op Json)
  | poll (k : ℕ)
  | work (k : ℕ) (went : Option ℕ)
  | drop (k : ℕ)

def World.step (codec : Codec Json) (w : World Json) : Action Json → World Json
  | .call op => { w with calls := w.calls ++ [⟨op, .Waits, none, none⟩] }
  | .poll k =>
    match w.calls[k]? with
    | some c => w.poll k c
    | none => w
  | .work k went =>
    match w.calls[k]? with
    | some c =>
      match c.job with
      | some job => w.work codec k c went job
      | none => w
    | none => w
  | .drop k =>
    match w.calls[k]? with
    | some c => w.drop k c
    | none => w

end StateStore

end Rurge
