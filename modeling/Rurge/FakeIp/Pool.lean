import Rurge.FakeIp.File
import Rurge.Lib.Recency
import Rurge.Net.Addr

/-!
# The fake-IP pool

The addresses handed out in place of real ones, each an index.  A name that has an index keeps it; a
new name gets what was held back and is let go, then an index nobody has had, then the one used
longest ago that nobody holds a lease on.

Maps are functions here and the recency order is the list of its keys, the one used longest ago
first: `Lib.Recency` stands for `lru`'s unbounded cache, its entries in order, `put` and `promote`.
Time counts nanoseconds.
-/

namespace Rurge

namespace FakeIp

/-- How many addresses there are: `198.18.1.1` to `198.19.255.254`. -/
def FAKE_COUNT : ℕ := 130814

/-- How long what an open holds back stays unused: 120 s. -/
def QUARANTINE : ℕ := 120 * 10 ^ 9

/-- How many indices an unclean stop holds back. -/
def QUARANTINE_COUNT : ℕ := 2048

/-- What a `u32` holds at most. -/
def U32_MAX : ℕ := 2 ^ 32 - 1

/-! ### Addresses -/

/-- `198.18.1.1`, the address of index 0. -/
def FIRST : ℕ := ((198 * 256 + 18) * 256 + 1) * 256 + 1

def v4Of (index : ℕ) : Ipv4Addr := BitVec.ofNat 32 (FIRST + index)

/-- `fd00:6152::` and, in the low 32 bits, the IPv4 address. -/
def v6Of (index : ℕ) : Ipv6Addr := BitVec.ofNat 128 (0xfd006152 * 2 ^ 96 + (v4Of index).toNat)

/-- The index an address stands for. -/
def indexOf (ip : IpAddr) : Option ℕ :=
  let v4Bits := match ip with
    | .v4 v4 => some v4.toNat
    | .v6 v6 => if v6.toNat / 2 ^ 32 = 0xfd006152 * 2 ^ 64 then some (v6.toNat % 2 ^ 32) else none
  v4Bits.bind fun bits =>
    if FIRST ≤ bits ∧ bits - FIRST < FAKE_COUNT then some (bits - FIRST) else none

theorem indexOf_v4Of {i : ℕ} (hi : i < FAKE_COUNT) : indexOf (.v4 (v4Of i)) = some i := by
  have hbits : (v4Of i).toNat = FIRST + i := by
    unfold v4Of
    rw [BitVec.toNat_ofNat, Nat.mod_eq_of_lt]
    simp only [FIRST, FAKE_COUNT] at *
    omega
  unfold indexOf
  simp [hbits, hi]

/-! ### The state -/

inductive AssignError
  | notAName
  /-- Every address is leased or held back. -/
  | exhausted
  deriving DecidableEq

inductive Loaded
  | missing
  | clean
  | unclean
  | notRead (reason : Str)
  deriving DecidableEq

structure State where
  /-- How many indices there are. -/
  count : ℕ
  names : ℕ → Option Str
  indices : Str → Option ℕ
  /-- The indices that have a name and no lease, in the order they were used. -/
  idle : List ℕ
  /-- How many leases each leased index has. -/
  leases : ℕ → Option ℕ
  /-- The next index nobody has had, unless `wrapped`. -/
  cursor : ℕ
  wrapped : Bool
  /-- Indices held back, the one held longest first. -/
  held : List ℕ
  heldUntil : Option ℕ
  dirty : Bool

namespace State

def new (count : ℕ) : State where
  count := min count FAKE_COUNT
  names := fun _ => none
  indices := fun _ => none
  idle := []
  leases := fun _ => none
  cursor := 0
  wrapped := false
  held := []
  heldUntil := none
  dirty := false

/-- A name and its index entered, as `restore` and `give` do. -/
def enter (s : State) (index : ℕ) (name : Str) : State :=
  { s with
    names := Function.update s.names index (some name)
    indices := Function.update s.indices name (some index)
    idle := Recency.put s.idle index }

/-- The indices that were had: those below the cursor, all of them once it has wrapped. -/
def bound (s : State) : ℕ := if s.wrapped then s.count else s.cursor

/-- The table a file held. -/
def restore (count : ℕ) (table : Table) : State :=
  let s := State.new count
  let s := { s with
    cursor := table.cursor
    wrapped := table.wrapped || s.count ≤ table.cursor }
  let s := table.entries.foldl (fun s e => s.enter e.1 e.2) s
  { s with held := (List.range s.bound).filter fun index => s.names index = none }

def takeFresh (s : State) : Option ℕ × State :=
  if s.wrapped || s.count ≤ s.cursor then (none, s)
  else (some s.cursor, { s with
    cursor := s.cursor + 1
    wrapped := s.cursor + 1 = s.count })

def takeIdle (s : State) : Option ℕ × State :=
  match s.idle with
  | [] => (none, s)
  | index :: idle =>
    let s := { s with idle := idle }
    match s.names index with
    | some name => (some index, { s with
        names := Function.update s.names index none
        indices := Function.update s.indices name none })
    | none => (some index, s)

/-- `take_fresh().or_else(|| take_idle())`. -/
def takeNext (s : State) : Option ℕ × State :=
  match s.takeFresh with
  | (some index, s) => (some index, s)
  | (none, s) => s.takeIdle

/-- The loop of `hold_back`. -/
def holdNext : ℕ → State → State
  | 0, s => s
  | want + 1, s =>
    match s.takeNext with
    | (some index, s) => holdNext want { s with held := s.held ++ [index] }
    | (none, s) => s

/-- Holds back the next `want` indices the allocator would hand out. -/
def holdBack (s : State) (want now : ℕ) : State :=
  let s := holdNext want s
  if s.held = [] then s else { s with heldUntil := some (now + QUARANTINE) }

/-- The index for a new name. -/
def take (s : State) (now : ℕ) : Option ℕ × State :=
  match (if s.heldUntil.any (· ≤ now) then s.held else []) with
  | index :: held => (some index, { s with held := held })
  | [] => s.takeNext

/-- Gives `name` the free index `index`. -/
def give (s : State) (index : ℕ) (name : Str) : State :=
  { s.enter index name with dirty := true }

/-- Uses an address. -/
def refresh (s : State) (index : ℕ) : State := { s with idle := Recency.promote s.idle index }

/-- A lease is dropped.  No count is 0: the subtraction there would panic. -/
def release (s : State) (index : ℕ) : State :=
  match s.leases index with
  | none | some 0 => s
  | some 1 =>
    { s with
      leases := Function.update s.leases index none
      idle := if (s.names index).isSome then Recency.put s.idle index else s.idle }
  | some (held + 2) => { s with leases := Function.update s.leases index (some (held + 1)) }

/-- The indices with a lease, in order. -/
def leasedIndices (s : State) : List ℕ :=
  (List.range s.count).filter fun index => (s.leases index).isSome

/-- What the file holds. -/
def table (s : State) : Table where
  cursor := s.cursor
  wrapped := s.wrapped
  entries := (s.idle ++ s.leasedIndices).filterMap fun index =>
    (s.names index).map fun name => (index, name)

/-- The table, if a mapping or the cursor changed since it was last taken. -/
def takeIfDirty (s : State) : Option Table × State :=
  (if s.dirty then some s.table else none, { s with dirty := false })

/-! ### The pool -/

/-- The index of `name`, a new one if it has none. -/
def assign (s : State) (name : Str) (now : ℕ) : Except AssignError ℕ × State :=
  match normalize name with
  | none => (.error .notAName, s)
  | some name =>
    match s.indices name with
    | some index => (.ok index, s.refresh index)
    | none =>
      match s.take now with
      | (some index, s) => (.ok index, s.give index name)
      | (none, s) => (.error .exhausted, s)

/-- The index of an address that has a name, with the name. -/
def lookup (s : State) (ip : IpAddr) : Option (ℕ × Str) :=
  (indexOf ip).bind fun index =>
    if index < s.count then (s.names index).map (index, ·) else none

/-- The name behind an address, which is used by it. -/
def nameOf (s : State) (ip : IpAddr) : Option Str × State :=
  match s.lookup ip with
  | some (index, name) => (some name, s.refresh index)
  | none => (none, s)

/-- The name behind an address and the index a lease is taken on.  Where a `u32` no longer holds
the count, at 2^32 leases of one index, none is made: a build without overflow checks would wrap. -/
def lease (s : State) (ip : IpAddr) : Option (Str × ℕ) × State :=
  match s.lookup ip with
  | some (index, name) =>
    let held := (s.leases index).getD 0
    if held = U32_MAX then (none, s)
    else (some (name, index), { s with
      leases := Function.update s.leases index (some (held + 1))
      idle := s.idle.erase index })
  | none => (none, s)

/-- The index of a name, if it has one. -/
def addressOf (s : State) (name : Str) : Option ℕ := (normalize name).bind s.indices

/-- What a file was found to hold. -/
inductive File
  | missing
  | bytes (content : ByteArray)
  | unreadable (reason : Str)

/-- `open_sized`: the state a file left behind, what was found and the text written back, if any;
`written` is whether the writing succeeds. -/
def openSized (file : File) (now count quarantine : ℕ) (written : Bool) :
    State × Loaded × Option Str :=
  let count := min count FAKE_COUNT
  let (s, loaded) := match file with
    | .bytes content => match parse content count with
      | .ok (table, true) => (restore count table, Loaded.clean)
      | .ok (table, false) => (restore count table, .unclean)
      | .error reason => (State.new count, .notRead reason)
    | .missing => (State.new count, .missing)
    | .unreadable reason => (State.new count, .notRead reason)
  let want := match loaded with
    | .unclean | .notRead _ => quarantine
    | .missing | .clean => 0
  let s := s.holdBack want now
  match loaded with
  | .notRead _ => ({ s with dirty := true }, loaded, none)
  | _ => ({ s with dirty := !written }, loaded, some (render s.table false))

end State

end FakeIp

end Rurge
