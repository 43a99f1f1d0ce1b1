import Rurge.FakeIp.Standing
import Rurge.Lib.Runs

/-!
# Runs of the fake-IP pool

A pool with the leases outstanding on it and the record of which index it gave to which name.  A run
starts from an empty pool or from a table that was read, with any number of indices held back, and
takes any assignments, look-ups, leases and drops of leases in any order; time passes by the moments
the assignments are made at, in any order too.  `pool_safe` says what holds all along.
-/

namespace Rurge

namespace FakeIp

/-! ### The system -/

structure System where
  pool : State
  /-- The leases outstanding, each by its index. -/
  out : List ℕ
  /-- Which index was given to which name, in order. -/
  given : List (ℕ × Str)

inductive Op
  | assign (name : Str) (now : ℕ)
  | nameOf (ip : IpAddr)
  | lease (ip : IpAddr)
  /-- A lease on the index is dropped, if there is one. -/
  | drop (index : ℕ)
  /-- The table is taken to be saved, if it changed. -/
  | save

/-- The index an assignment gives to a name that has none. -/
def State.gives (s : State) (name : Str) (now : ℕ) : Option (ℕ × Str) :=
  (normalize name).bind fun n => if s.indices n = none then (s.take now).1.map (·, n) else none

namespace System

def step (y : System) : Op → System
  | .assign name now =>
    { y with
      pool := (y.pool.assign name now).2
      given := y.given ++ (y.pool.gives name now).toList }
  | .nameOf ip => { y with pool := (y.pool.nameOf ip).2 }
  | .lease ip =>
    match y.pool.lease ip with
    | (some (_, index), pool) => { y with pool := pool, out := index :: y.out }
    | (none, pool) => { y with pool := pool }
  | .drop index =>
    if index ∈ y.out then { y with pool := y.pool.release index, out := y.out.erase index } else y
  | .save => { y with pool := y.pool.takeIfDirty.2 }

/-- The invariant of a system. -/
def Ok (y : System) : Prop := y.pool.Inv y.out none

end System

/-! ### Leases -/

namespace State

variable {s : State} {out : List ℕ}

theorem lookup_some {ip : IpAddr} {i : ℕ} {n : Str} (h : s.lookup ip = some (i, n)) :
    s.names i = some n := by
  unfold lookup at h
  obtain ⟨j, -, hj⟩ := Option.bind_eq_some_iff.1 h
  split_ifs at hj
  obtain ⟨m, hm, heq⟩ := Option.map_eq_some_iff.1 hj
  cases heq
  exact hm

theorem lookup_index {ip : IpAddr} {i : ℕ} {n : Str} (h : s.lookup ip = some (i, n)) :
    indexOf ip = some i := by
  unfold lookup at h
  obtain ⟨j, hj, h⟩ := Option.bind_eq_some_iff.1 h
  split_ifs at h
  obtain ⟨m, -, heq⟩ := Option.map_eq_some_iff.1 h
  cases heq
  exact hj

/-- A look-up finds nothing, or uses the address it finds. -/
theorem nameOf_cases (s : State) (ip : IpAddr) :
    s.nameOf ip = (none, s) ∨
    ∃ i n, s.lookup ip = some (i, n) ∧ s.nameOf ip = (some n, s.refresh i) := by
  unfold nameOf
  cases hl : s.lookup ip with
  | none => exact Or.inl rfl
  | some e => exact Or.inr ⟨e.1, e.2, rfl, rfl⟩

/-- The state with one more lease on the index. -/
def addLease (s : State) (i : ℕ) : State :=
  { s with
    leases := Function.update s.leases i (some ((s.leases i).getD 0 + 1))
    idle := s.idle.erase i }

/-- A lease is on a named index, or there is none. -/
theorem lease_cases (s : State) (ip : IpAddr) :
    s.lease ip = (none, s) ∨
    ∃ i n, s.names i = some n ∧ s.lease ip = (some (n, i), s.addLease i) := by
  unfold lease
  cases hl : s.lookup ip with
  | none => exact Or.inl rfl
  | some e =>
    obtain ⟨i, n⟩ := e
    dsimp only
    by_cases hmax : (s.leases i).getD 0 = U32_MAX
    · exact Or.inl (if_pos hmax)
    · exact Or.inr ⟨i, n, lookup_some hl, if_neg hmax⟩

@[simp] theorem release_names (s : State) (i : ℕ) : (s.release i).names = s.names := by
  unfold release
  split <;> rfl

/-- One more lease on a named index. -/
theorem Inv.addLease (h : s.Inv out none) {i : ℕ} (hi : (s.names i).isSome = true) :
    (s.addLease i).Inv (i :: out) none := by
  unfold State.addLease
  refine { h with idleNodup := h.idleNodup.erase i, idle := ?_, leases := ?_, leased := ?_ }
  · intro j
    rw [h.idleNodup.mem_erase_iff, h.idle, List.mem_cons, not_or]
    tauto
  · intro j
    by_cases hji : j = i
    · subst hji
      dsimp only
      rw [Function.update_self, h.leases, List.count_cons_self]
      by_cases h0 : out.count j = 0 <;> simp [h0]
    · dsimp only
      rw [Function.update_of_ne hji, h.leases, List.count_cons_of_ne (Ne.symm hji)]
  · intro j hj
    rcases List.mem_cons.1 hj with rfl | hj
    · exact hi
    · exact h.leased j hj

/-- One lease less. -/
theorem Inv.release (h : s.Inv out none) {i : ℕ} (hi : i ∈ out) :
    (s.release i).Inv (out.erase i) none := by
  have hname := h.leased i hi
  have hpos : 0 < out.count i := List.count_pos_iff.2 hi
  have hleases : s.leases i = some (out.count i) := by rw [h.leases, if_neg hpos.ne']
  have hother : ∀ j, j ≠ i → (out.erase i).count j = out.count j := fun j hj =>
    List.count_erase_of_ne hj
  have hmem : ∀ j, j ≠ i → (j ∈ out.erase i ↔ j ∈ out) := fun j hj => List.mem_erase_of_ne hj
  unfold State.release
  rw [hleases]
  obtain ⟨k, hk⟩ : ∃ k, out.count i = k + 1 := ⟨out.count i - 1, by omega⟩
  have hcount : (out.erase i).count i = k := by rw [List.count_erase_self, hk]; rfl
  rw [hk]
  cases k with
  | zero =>
    have hgone : i ∉ out.erase i := List.count_eq_zero.1 hcount
    dsimp only
    rw [if_pos hname]
    refine { h with
      idleNodup := Recency.nodup_put h.idleNodup i, idle := ?_, leases := ?_, leased := ?_ }
    · intro j
      rw [Recency.mem_put h.idleNodup, h.idle]
      by_cases hji : j = i
      · subst hji
        simp [hgone, hname]
      · simp [hji, hmem j hji]
    · intro j
      by_cases hji : j = i
      · subst hji
        simp [hcount]
      · dsimp only
        rw [Function.update_of_ne hji, h.leases, hother j hji]
    · exact fun j hj => h.leased j (List.mem_of_mem_erase hj)
  | succ k =>
    have hstill : i ∈ out.erase i := List.count_pos_iff.1 (by omega)
    dsimp only
    refine { h with idle := ?_, leases := ?_, leased := ?_ }
    · intro j
      rw [h.idle]
      by_cases hji : j = i
      · subst hji
        simp [hstill, hi]
      · rw [hmem j hji]
    · intro j
      by_cases hji : j = i
      · subst hji
        simp [hcount]
      · dsimp only
        rw [Function.update_of_ne hji, h.leases, hother j hji]
    · exact fun j hj => h.leased j (List.mem_of_mem_erase hj)

/-! ### Assignments -/

/-- **What an assignment does**: nothing with a text that is no name; a use of the index a name has;
a new index for a name; or nothing, when there is none. -/
theorem assign_cases (s : State) (name : Str) (now : ℕ) :
    (normalize name = none ∧ s.assign name now = (.error .notAName, s) ∧
      s.gives name now = none) ∨
    ∃ n, normalize name = some n ∧
      ((∃ i, s.indices n = some i ∧ s.assign name now = (.ok i, s.refresh i) ∧
        s.gives name now = none) ∨
      s.indices n = none ∧
        ((∃ i s', s.take now = (some i, s') ∧ s.assign name now = (.ok i, s'.give i n) ∧
          s.gives name now = some (i, n)) ∨
        ∃ s', s.take now = (none, s') ∧ s.assign name now = (.error .exhausted, s') ∧
          s.gives name now = none)) := by
  unfold assign gives
  cases hn : normalize name with
  | none => exact Or.inl ⟨rfl, rfl, rfl⟩
  | some n =>
    refine Or.inr ⟨n, rfl, ?_⟩
    dsimp only
    cases hi : s.indices n with
    | some i => exact Or.inl ⟨i, rfl, rfl, by simp [hi]⟩
    | none =>
      refine Or.inr ⟨rfl, ?_⟩
      cases ht : s.take now with
      | mk r s' =>
        cases r with
        | some i => exact Or.inl ⟨i, s', rfl, rfl, by simp [hi]⟩
        | none => exact Or.inr ⟨s', rfl, rfl, by simp⟩

theorem Inv.assign (h : s.Inv out none) (name : Str) (now : ℕ) :
    (s.assign name now).2.Inv out none := by
  rcases s.assign_cases name now with ⟨-, heq, -⟩ | ⟨n, hn, ⟨i, -, heq, -⟩ | ⟨hnew, hcase⟩⟩
  · rw [heq]
    exact h
  · rw [heq]
    exact h.refresh i
  · rcases hcase with ⟨i, s', ht, heq, -⟩ | ⟨s', ht, heq, -⟩
    · rw [heq]
      obtain ⟨h', hframe⟩ := h.take ht
      exact h'.give (normalize_normal hn) (hframe.indices n hnew)
    · rw [heq]
      exact (h.take_none ht).1 ▸ h

end State

/-! ### Every step -/

namespace System

variable {y : System}

theorem step_nameOf (ip : IpAddr) :
    y.step (.nameOf ip) = { y with pool := (y.pool.nameOf ip).2 } := rfl

theorem step_lease_none {ip : IpAddr} (h : y.pool.lease ip = (none, y.pool)) :
    y.step (.lease ip) = y := by
  simp only [step, h]

theorem step_lease_some {ip : IpAddr} {i : ℕ} {n : Str} {pool : State}
    (h : y.pool.lease ip = (some (n, i), pool)) :
    y.step (.lease ip) = { y with pool := pool, out := i :: y.out } := by
  simp only [step, h]

theorem step_drop (i : ℕ) : y.step (.drop i) =
    if i ∈ y.out then { y with pool := y.pool.release i, out := y.out.erase i } else y := rfl

/-- **Every step keeps the invariant.** -/
theorem Ok.step (h : y.Ok) (op : Op) : (y.step op).Ok := by
  unfold Ok at h ⊢
  cases op with
  | assign name now => exact h.assign name now
  | nameOf ip =>
    rw [step_nameOf]
    rcases y.pool.nameOf_cases ip with heq | ⟨i, n, -, heq⟩
    · rw [heq]
      exact h
    · rw [heq]
      exact h.refresh i
  | lease ip =>
    rcases y.pool.lease_cases ip with heq | ⟨i, n, hn, heq⟩
    · rw [step_lease_none heq]
      exact h
    · rw [step_lease_some heq]
      exact h.addLease (by simp [hn])
  | drop i =>
    rw [step_drop]
    split_ifs with hi
    · exact h.release hi
    · exact h
  | save => exact h.takeIfDirty

/-- **A leased index keeps its name**, whatever the step. -/
theorem Ok.leased_keeps (h : y.Ok) {i : ℕ} (hi : i ∈ y.out) (op : Op) :
    (y.pool.names i).isSome = true ∧ (y.step op).pool.names i = y.pool.names i := by
  have hname : (y.pool.names i).isSome = true := h.leased i hi
  refine ⟨hname, ?_⟩
  cases op with
  | assign name now =>
    unfold System.step
    dsimp only
    rcases y.pool.assign_cases name now with
      ⟨-, heq, -⟩ | ⟨n, -, ⟨j, -, heq, -⟩ | ⟨-, ⟨j, s', ht, heq, -⟩ | ⟨s', ht, heq, -⟩⟩⟩
    · rw [heq]
    · rw [heq]
      rfl
    · rw [heq]
      obtain ⟨h', hframe⟩ := State.Inv.take h ht
      have hij : i ≠ j := by
        rintro rfl
        exact h'.not_leased_of_unnamed (h'.free i rfl).2.1 hi
      exact (Function.update_of_ne hij ..).trans (hframe.names i hij)
    · rw [heq, (State.Inv.take_none h ht).1]
  | nameOf ip =>
    rw [step_nameOf]
    rcases y.pool.nameOf_cases ip with heq | ⟨j, n, -, heq⟩
    · rw [heq]
    · rw [heq]
      rfl
  | lease ip =>
    rcases y.pool.lease_cases ip with heq | ⟨j, n, -, heq⟩
    · rw [step_lease_none heq]
    · rw [step_lease_some heq]
      rfl
  | drop j =>
    rw [step_drop]
    split_ifs <;> simp
  | save => rfl

end System

/-! ### Where a run starts -/

/-- What a pool starts from: nothing, or a table that was read; with `want` indices held back at
`now`. -/
inductive Start
  | empty (count want now : ℕ)
  | file (count : ℕ) (bytes : ByteArray) (table : Table) (clean : Bool)
      (read : parse bytes (min count FAKE_COUNT) = .ok (table, clean)) (want now : ℕ)

def Start.system : Start → System
  | empty count want now => ⟨(State.new count).holdBack want now, [], []⟩
  | file count _ table _ _ want now => ⟨(State.restore count table).holdBack want now, [], []⟩

namespace State

theorem inv_new (count : ℕ) : (State.new count).Inv [] none where
  count := min_le_right _ _
  cursor := Nat.zero_le _
  inverse := PartialInverse.empty
  normal := by simp [State.new]
  named := by simp [State.new]
  heldBelow := by simp [State.new]
  heldNodup := List.nodup_nil
  split := by simp [State.new, bound]
  free := by simp
  idleNodup := List.nodup_nil
  idle := by simp [State.new]
  leases := by simp [State.new]
  leased := by simp

/-- What is known while the entries of a table are entered; nothing is held back yet. -/
structure Entering (count : ℕ) (table : Table) (entries : List (ℕ × Str)) (s : State) : Prop where
  count : s.count = min count FAKE_COUNT
  cursor : s.cursor = table.cursor
  wrapped : s.wrapped = (table.wrapped || s.count ≤ table.cursor)
  inverse : PartialInverse s.names s.indices
  names : ∀ i n, s.names i = some n ↔ (i, n) ∈ entries
  idle : s.idle = entries.map (·.1)
  leases : s.leases = fun _ => none
  heldUntil : s.heldUntil = none

theorem Entering.enter {count : ℕ} {table : Table} {entries : List (ℕ × Str)} {s : State}
    (h : Entering count table entries s) {e : ℕ × Str} (hi : e.1 ∉ entries.map (·.1))
    (hn : e.2 ∉ entries.map (·.2)) :
    Entering count table (entries ++ [e]) (s.enter e.1 e.2) := by
  obtain ⟨i, n⟩ := e
  have hname : s.names i = none := by
    rw [Option.eq_none_iff_forall_ne_some]
    intro m hm
    exact hi (List.mem_map.2 ⟨(i, m), (h.names i m).1 hm, rfl⟩)
  have hindex : s.indices n = none := by
    rw [Option.eq_none_iff_forall_ne_some]
    intro j hj
    exact hn (List.mem_map.2 ⟨(j, n), (h.names j n).1 ((h.inverse j n).2 hj), rfl⟩)
  refine { h with inverse := h.inverse.insert hname hindex, names := ?_, idle := ?_ }
  · intro j m
    rw [List.mem_append, List.mem_singleton, ← h.names]
    by_cases hji : j = i
    · subst hji
      rw [show (s.enter j n).names j = some n from Function.update_self .., hname]
      simp [eq_comm]
    · rw [show (s.enter i n).names j = s.names j from Function.update_of_ne hji ..]
      simp [hji]
  · rw [show (s.enter i n).idle = Recency.put s.idle i from rfl, h.idle, Recency.put_new hi,
      List.map_append, List.map_singleton]

theorem entering_foldl {count : ℕ} {table : Table} {s : State} (h : Entering count table [] s)
    {entries : List (ℕ × Str)} (hi : (entries.map (·.1)).Nodup) (hn : (entries.map (·.2)).Nodup) :
    Entering count table entries (entries.foldl (fun s e => s.enter e.1 e.2) s) := by
  induction entries using List.reverseRecOn with
  | nil => exact h
  | append_singleton entries e ih =>
    rw [List.map_append, List.nodup_append] at hi hn
    rw [List.foldl_append]
    refine (ih hi.1 hn.1).enter ?_ ?_
    · exact fun hm => hi.2.2 _ hm _ (List.mem_singleton_self _) rfl
    · exact fun hm => hn.2.2 _ hm _ (List.mem_singleton_self _) rfl

/-- A restored state: the entries of the table, and the holes between them held back. -/
theorem restore_entering {count : ℕ} {table : Table}
    (h : table.Valid (min count FAKE_COUNT)) :
    ∃ s, Entering count table table.entries s ∧ State.restore count table =
      { s with held := (List.range s.bound).filter fun index => s.names index = none } := by
  refine ⟨_, entering_foldl ?_ h.indices h.names, rfl⟩
  exact {
    count := rfl
    cursor := rfl
    wrapped := rfl
    inverse := PartialInverse.empty
    names := by simp [State.new]
    idle := rfl
    leases := rfl
    heldUntil := rfl }

theorem inv_restore {count : ℕ} {table : Table} (h : table.Valid (min count FAKE_COUNT)) :
    (State.restore count table).Inv [] none := by
  obtain ⟨s, hs, heq⟩ := restore_entering h
  have hbound : ∀ e ∈ table.entries, e.1 < s.bound := by
    intro e he
    obtain ⟨hlt, hcursor, -⟩ := h.entries e he
    unfold bound
    split_ifs with hw
    · exact hs.count ▸ hlt
    · rw [hs.wrapped, Bool.or_eq_true, not_or, Bool.not_eq_true] at hw
      exact hs.cursor ▸ hcursor hw.1
  rw [heq]
  constructor
  · exact hs.count.trans_le (min_le_right _ _)
  · exact (hs.cursor.trans_le h.cursor).trans_eq hs.count.symm
  · exact hs.inverse
  · exact fun i n hi => (h.entries (i, n) ((hs.names i n).1 hi)).2.2
  · intro i hi
    obtain ⟨n, hn⟩ := Option.isSome_iff_exists.1 hi
    exact hbound (i, n) ((hs.names i n).1 hn)
  · intro i hi
    exact List.mem_range.1 (List.mem_filter.1 hi).1
  · exact List.nodup_range.filter _
  · intro i hi _
    have hlt : i < s.bound := hi
    simp [hlt]
  · simp
  · exact hs.idle ▸ h.indices
  · intro i
    dsimp only
    rw [hs.idle, Option.isSome_iff_exists]
    simp [hs.names]
  · simp [hs.leases]
  · simp

/-- Holding back the next indices keeps the invariant. -/
theorem Inv.holdNext {s : State} {out : List ℕ} (h : s.Inv out none) (want : ℕ) :
    (holdNext want s).Inv out none := by
  induction want generalizing s with
  | zero => exact h
  | succ want ih =>
    unfold State.holdNext
    split
    · rename_i i s' ht
      exact ih (h.takeNext ht).1.hold
    · rename_i s' ht
      rcases takeNext_cases h with ⟨heq, -⟩ | ⟨-, -, heq⟩ | ⟨j, n, idle, -, -, -, heq⟩
      · rw [heq] at ht
        cases ht
        exact h
      · rw [heq] at ht
        cases ht
      · rw [heq] at ht
        cases ht

theorem Inv.holdBack {s : State} {out : List ℕ} (h : s.Inv out none) (want now : ℕ) :
    (s.holdBack want now).Inv out none := by
  unfold State.holdBack
  dsimp only
  split_ifs
  · exact h.holdNext want
  · exact { h.holdNext want with }

end State

theorem Start.ok (start : Start) : start.system.Ok := by
  cases start with
  | empty count want now => exact (State.inv_new count).holdBack want now
  | file count bytes table clean read want now =>
    exact (State.inv_restore (parse_valid read)).holdBack want now

/-! ### Safety -/

/-- What the pool promises of a state and of each step from it. -/
structure System.Safe (y : System) : Prop where
  /-- Names and indices are inverse: no two names share an index, no name has two. -/
  inverse : ∀ i n, y.pool.names i = some n ↔ y.pool.indices n = some i
  /-- An index that was had is named or held back and not both, and stands once among the held. -/
  split : (∀ i < y.pool.bound, Xor ((y.pool.names i).isSome = true) (i ∈ y.pool.held)) ∧
    y.pool.held.Nodup
  /-- The recency order holds the named indices without a lease, each once. -/
  idle : (∀ i, i ∈ y.pool.idle ↔ (y.pool.names i).isSome = true ∧ y.pool.leases i = none) ∧
    y.pool.idle.Nodup
  /-- The counts are those of the leases outstanding. -/
  leases : ∀ i, (y.pool.leases i).getD 0 = y.out.count i ∧ (y.pool.leases i = none ↔ i ∉ y.out)
  /-- An index with a lease outstanding keeps its name. -/
  leased : ∀ i ∈ y.out, ∀ op, (y.pool.names i).isSome = true ∧
    (y.step op).pool.names i = y.pool.names i
  /-- `Exhausted` only when no index is fresh, none held back is let go and none is idle. -/
  exhausted : ∀ name now, (y.pool.assign name now).1 = .error .exhausted →
    y.pool.bound = y.pool.count ∧ y.pool.idle = [] ∧
      ¬ (y.pool.held ≠ [] ∧ ∃ until_, y.pool.heldUntil = some until_ ∧ until_ ≤ now)

theorem System.Ok.safe {y : System} (h : y.Ok) : y.Safe := by
  constructor
  · exact h.inverse
  · refine ⟨fun i hi => ?_, h.heldNodup⟩
    have := h.split i hi (by simp)
    rw [this]
    cases y.pool.names i <;> simp [Xor]
  · refine ⟨fun i => ?_, h.idleNodup⟩
    rw [State.Inv.leases_eq_none h]
    exact h.idle i
  · refine fun i => ⟨?_, State.Inv.leases_eq_none h⟩
    rw [h.leases]
    split_ifs with h0 <;> simp [h0]
  · exact fun i hi op => h.leased_keeps hi op
  · intro name now hex
    rcases y.pool.assign_cases name now with
      ⟨-, heq, -⟩ | ⟨n, -, ⟨j, -, heq, -⟩ | ⟨-, ⟨j, s', -, heq, -⟩ | ⟨s', ht, -, -⟩⟩⟩
    · rw [heq] at hex
      cases hex
    · rw [heq] at hex
      cases hex
    · rw [heq] at hex
      cases hex
    · exact (State.Inv.take_none h ht).2

/-- **Every run of the pool is safe**, from whatever it starts. -/
theorem pool_safe (start : Start) (ops : List Op) :
    (Runs.run System.step start.system ops).Safe := by
  have hrun : (Runs.run System.step start.system ops).Ok :=
    Runs.run_invariant (I := System.Ok) (fun _ op h => h.step op) start.ok ops
  exact hrun.safe

end FakeIp

end Rurge
