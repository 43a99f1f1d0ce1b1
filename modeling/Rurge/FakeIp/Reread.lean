import Rurge.FakeIp.Crash

/-!
# The file of the fake-IP pool, read again

What a pool writes is read back as it was written, and a pool restored from it knows the same names:
`reread` says so of every state a run reaches, and what every file that is read does to a pool.
-/

namespace Rurge

namespace FakeIp

namespace State

/-- A cursor at the end has wrapped, if there is any index at all. -/
def Ended (s : State) : Prop :=
  s.cursor ≤ s.count ∧ (s.cursor = s.count → s.wrapped = true ∨ s.count = 0)

variable {s s' : State} {out : List ℕ}

theorem Ended.same (h : s.Ended) (hsame : s.SameAllocator s') : s'.Ended := by
  unfold Ended
  rw [hsame.cursor, hsame.count, hsame.wrapped]
  exact h

theorem Ended.fresh (hlt : s.cursor < s.count) :
    Ended { s with cursor := s.cursor + 1, wrapped := s.cursor + 1 = s.count } :=
  ⟨hlt, fun heq => Or.inl (decide_eq_true heq)⟩

theorem Ended.holdNext (hs : s.Ended) (h : s.Inv out none) (want : ℕ) :
    (holdNext want s).Ended := by
  induction want generalizing s with
  | zero => exact hs
  | succ want ih =>
    unfold State.holdNext
    rcases takeNext_cases h with ⟨heq, -⟩ | ⟨hw, hlt, heq⟩ | ⟨i, n, idle, -, -, -, heq⟩
    · rw [heq]
      exact hs
    · have hinv := (h.takeNext heq).1.hold
      rw [heq]
      exact ih (Ended.fresh hlt) hinv
    · have hinv := (h.takeNext heq).1.hold
      rw [heq]
      exact ih hs hinv

theorem Ended.holdBack (hs : s.Ended) (h : s.Inv out none) (want now : ℕ) :
    (s.holdBack want now).Ended := by
  unfold State.holdBack
  dsimp only
  split_ifs <;> exact hs.holdNext h want

end State

theorem Start.ended (start : Start) : start.system.pool.Ended := by
  cases start with
  | empty count want now =>
    refine State.Ended.holdBack ⟨Nat.zero_le _, fun h => ?_⟩ (State.inv_new count) want now
    exact Or.inr h.symm
  | file count bytes table clean read want now =>
    have hvalid := parse_valid read
    refine State.Ended.holdBack ?_ (State.inv_restore hvalid) want now
    obtain ⟨r, hr, heq⟩ := State.restore_entering hvalid
    rw [heq]
    refine ⟨(hr.cursor.trans_le hvalid.cursor).trans_eq hr.count.symm, fun h => Or.inl ?_⟩
    dsimp only at h ⊢
    rw [hr.wrapped, ← hr.cursor, h]
    simp

namespace System

theorem ended_step {y : System} (hok : y.Ok) (h : y.pool.Ended) (op : Op) :
    (y.step op).pool.Ended := by
  by_cases hassign : ∃ name now, op = .assign name now
  · obtain ⟨name, now, rfl⟩ := hassign
    rcases State.Inv.assign_allocator hok name now with ⟨-, hsame⟩ | ⟨i, n, -, hcase⟩
    · exact h.same hsame
    · rcases hcase with ⟨-, held, -, hsame⟩ | ⟨-, rfl, hlt, hsame⟩ | ⟨-, hsame⟩
      · exact State.Ended.same (show State.Ended { y.pool with held := held } from h) hsame
      · exact (State.Ended.fresh hlt).same hsame
      · exact h.same hsame
  · exact h.same (y.step_quiet fun name now (heq : op = _) => hassign ⟨name, now, heq⟩).1

end System

/-! ### A pool restored from what was written -/

/-- What the pool `r` keeps of the pool `s` whose table it was restored from. -/
structure Restored (s r : State) : Prop where
  count : r.count = s.count
  cursor : r.cursor = s.cursor
  /-- The flag is the same, but for a pool of no addresses, which is restored as wrapped. -/
  wrapped : r.wrapped = (s.wrapped || decide (s.count = 0))
  names : r.names = s.names
  indices : r.indices = s.indices
  /-- What was idle leads, in its order; what was leased follows, by number. -/
  idle : ∃ leased, r.idle = s.idle ++ leased ∧ leased.Pairwise (· < ·) ∧
    ∀ i, i ∈ leased ↔ (s.leases i).isSome = true
  leases : ∀ i, r.leases i = none
  held : ∀ i, i ∈ r.held ↔ i < s.bound ∧ s.names i = none
  ordered : r.held.Pairwise (· < ·)

theorem State.Inv.leasedIndices_iff {s : State} {out : List ℕ} (h : s.Inv out none) {i : ℕ} :
    i ∈ s.leasedIndices ↔ (s.leases i).isSome = true := by
  rw [h.mem_leasedIndices, Option.isSome_iff_ne_none, ne_eq, h.leases_eq_none, not_not]

theorem restored_of_inv {s : State} {out : List ℕ} (h : s.Inv out none) (hend : s.Ended) :
    Restored s (State.restore s.count s.table) := by
  obtain ⟨r, hr, heq⟩ := State.restore_entering h.table_valid_min
  have hcount : r.count = s.count := hr.count.trans (min_eq_left h.count)
  have hcursor : r.cursor = s.cursor := hr.cursor
  have hwrapped : r.wrapped = (s.wrapped || decide (s.count = 0)) := by
    have hfull : r.wrapped = (s.wrapped || decide (s.count ≤ s.cursor)) := by
      rw [hr.wrapped, hcount]
      rfl
    rw [hfull]
    rcases hend.1.lt_or_eq with hlt | heq
    · simp [not_le.2 hlt, (Nat.zero_le _).trans_lt hlt |>.ne']
    · rcases hend.2 heq with hw | h0
      · simp [hw]
      · simp [h0]
  have hnames : r.names = s.names := by
    funext i
    ext n
    exact (hr.names i n).trans h.mem_table
  have hindices : r.indices = s.indices := by
    funext n
    ext i
    rw [← hr.inverse, ← h.inverse, hnames]
  have hbound : r.bound = s.bound := by
    unfold State.bound
    rw [hwrapped, hcount, hcursor]
    have hle := hend.1
    by_cases hw : s.wrapped = true
    · simp [hw]
    · by_cases h0 : s.count = 0
      · simp [hw, h0, show s.cursor = 0 by omega]
      · simp [hw, h0]
  rw [heq]
  refine ⟨hcount, hcursor, hwrapped, hnames, hindices, ?_, ?_, ?_, ?_⟩
  · refine ⟨s.leasedIndices, ?_, ?_, fun i => h.leasedIndices_iff⟩
    · exact hr.idle.trans h.table_indices
    · exact List.pairwise_lt_range.filter _
  · intro i
    exact congrFun hr.leases i
  · intro i
    dsimp only
    rw [List.mem_filter, List.mem_range, hbound, hnames, decide_eq_true_eq]
  · exact List.pairwise_lt_range.filter _

/-- What a table does to a pool of `count` indices that is restored from it: every index that is
used is in range, and names and indices are inverse. -/
structure Sound (count : ℕ) (table : Table) : Prop where
  inRange : ∀ e ∈ table.entries, e.1 < (State.new count).count
  bound : (State.restore count table).bound ≤ (State.restore count table).count
  inverse : ∀ i n, (State.restore count table).names i = some n ↔
    (State.restore count table).indices n = some i
  entered : ∀ i n, (State.restore count table).names i = some n ↔ (i, n) ∈ table.entries

theorem sound_of_valid {count : ℕ} {table : Table} (h : table.Valid (min count FAKE_COUNT)) :
    Sound count table := by
  have hinv := State.inv_restore h
  refine ⟨fun e he => (h.entries e he).1, hinv.bound_le, hinv.inverse, ?_⟩
  obtain ⟨r, hr, heq⟩ := State.restore_entering h
  rw [heq]
  exact hr.names

/-- **The file of a pool is read back**, in every state a run reaches, and the pool restored from it
is the pool that wrote it; and whatever file is read, a pool can be restored from it. -/
theorem reread (start : Start) (ops : List Op) (clean : Bool) (bytes : ByteArray)
    (count : ℕ) :
    let s := (Runs.run System.step start.system ops).pool
    parse (contents s.table clean) s.count = .ok (s.table, clean) ∧
    Restored s (State.restore s.count s.table) ∧
    ∀ table flag, parse bytes (min count FAKE_COUNT) = .ok (table, flag) → Sound count table := by
  intro s
  obtain ⟨hok, hend⟩ : (Runs.run System.step start.system ops).Ok ∧ s.Ended :=
    Runs.run_invariant (I := fun y : System => y.Ok ∧ y.pool.Ended)
      (fun _ op h => ⟨h.1.step op, System.ended_step h.1 h.2 op⟩) ⟨start.ok, start.ended⟩ ops
  have hinv : s.Inv _ none := hok
  have hcount : s.count < 2 ^ 32 := hinv.count.trans_lt (by decide)
  refine ⟨parse_render hcount hinv.table_valid clean, restored_of_inv hinv hend, ?_⟩
  exact fun table flag hread => sound_of_valid (parse_valid hread)

/-- A pool of no addresses has not wrapped, and is restored as one that has. -/
theorem none_not_restored :
    let s := (Start.empty 0 0 0).system.pool
    (State.restore s.count s.table).wrapped ≠ s.wrapped := by
  decide

end FakeIp

end Rurge
