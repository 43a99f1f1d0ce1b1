import Rurge.FakeIp.Safety

/-!
# A crash of the fake-IP pool

What a run gives out after its last save is not in the file.  A pool reopened after a crash holds
back the holes of the file and the indices it would hand out next, and `crash_safe` says when this
covers what was given: the uses and the leases since the save are not in the file either, so what
was recycled need not be what the file says is recycled next.
-/

namespace Rurge

namespace FakeIp

/-! ### What a reopening holds back -/

/-- The indices that were had when the table was taken. -/
def Table.bound (t : Table) (count : ℕ) : ℕ := if t.wrapped then count else t.cursor

/-- The holes of the table, and the first `want` of the indices it leaves: those that were never
had, then the named ones in the order of the table. -/
def Table.heldBack (t : Table) (count want : ℕ) : List ℕ :=
  ((List.range (t.bound count)).filter fun i => i ∉ t.entries.map (·.1)) ++
    (List.range' (t.bound count) (count - t.bound count) ++ t.entries.map (·.1)).take want

namespace State

variable {s : State} {out : List ℕ}

/-- What the allocator hands out, in order. -/
def next (s : State) : List ℕ := List.range' s.bound (s.count - s.bound) ++ s.idle

theorem bound_fresh (hw : s.wrapped = false) :
    s.bound = s.cursor ∧ State.bound { s with
      cursor := s.cursor + 1
      wrapped := s.cursor + 1 = s.count } = s.cursor + 1 := by
  unfold bound
  dsimp only
  constructor
  · simp [hw]
  · split_ifs with heq
    · simpa using (of_decide_eq_true heq).symm
    · rfl

theorem takeNext_next (h : s.Inv out none) :
    (s.takeNext = (none, s) ∧ s.next = []) ∨
    ∃ i s', s.takeNext = (some i, s') ∧ s.next = i :: s'.next := by
  rcases takeNext_cases h with
    ⟨heq, hbound, hidle⟩ | ⟨hw, hlt, heq⟩ | ⟨i, n, idle, hbound, hidle, -, heq⟩
  · exact Or.inl ⟨heq, by simp [next, hbound, hidle]⟩
  · refine Or.inr ⟨_, _, heq, ?_⟩
    obtain ⟨hb, hb'⟩ := bound_fresh hw
    unfold next
    rw [hb, hb', show s.count - s.cursor = (s.count - (s.cursor + 1)) + 1 by omega,
      List.range'_succ, List.cons_append]
  · refine Or.inr ⟨_, _, heq, ?_⟩
    have hsame : (s.dropOldest i n idle).bound = s.bound := rfl
    have hcount : (s.dropOldest i n idle).count = s.count := rfl
    unfold next
    rw [hsame, hcount, hbound, hidle]
    simp [dropOldest]

theorem holdNext_held (h : s.Inv out none) (want : ℕ) :
    (holdNext want s).held = s.held ++ s.next.take want := by
  induction want generalizing s with
  | zero => simp [holdNext]
  | succ want ih =>
    unfold holdNext
    rcases takeNext_next h with ⟨heq, hnext⟩ | ⟨i, s', heq, hnext⟩
    · rw [heq, hnext]
      simp
    · obtain ⟨h', -, hheld, -⟩ := h.takeNext heq
      rw [heq]
      dsimp only
      rw [ih h'.hold, hnext, List.take_succ_cons]
      simp [next, hheld, bound]

/-- What is not held back keeps its name. -/
theorem holdNext_names (h : s.Inv out none) (want : ℕ) {i : ℕ}
    (hi : i ∉ (holdNext want s).held) : (holdNext want s).names i = s.names i := by
  induction want generalizing s with
  | zero => rfl
  | succ want ih =>
    unfold holdNext at hi ⊢
    rcases takeNext_next h with ⟨heq, -⟩ | ⟨j, s', heq, -⟩
    · rw [heq]
    · obtain ⟨h', hframe, -, -⟩ := h.takeNext heq
      rw [heq] at hi ⊢
      dsimp only at hi ⊢
      rw [ih h'.hold hi]
      refine hframe.names i ?_
      rintro rfl
      rw [holdNext_held h'.hold] at hi
      simp at hi

theorem holdBack_held (want now : ℕ) : (s.holdBack want now).held = (holdNext want s).held := by
  unfold holdBack
  dsimp only
  split_ifs <;> rfl

theorem holdBack_names (want now : ℕ) : (s.holdBack want now).names = (holdNext want s).names := by
  unfold holdBack
  dsimp only
  split_ifs <;> rfl

theorem holdBack_heldUntil {want now : ℕ} (h : (s.holdBack want now).held ≠ []) :
    (s.holdBack want now).heldUntil = some (now + QUARANTINE) := by
  rw [holdBack_held] at h
  unfold holdBack
  dsimp only
  rw [if_neg h]

/-! ### The saved table -/

theorem Inv.mem_leasedIndices (h : s.Inv out none) {i : ℕ} : i ∈ s.leasedIndices ↔ i ∈ out := by
  have hout : (s.leases i).isSome = true ↔ i ∈ out := by
    rw [Option.isSome_iff_ne_none, ne_eq, h.leases_eq_none, not_not]
  unfold leasedIndices
  rw [List.mem_filter, List.mem_range, hout]
  refine ⟨And.right, fun hi => ⟨?_, hi⟩⟩
  exact (h.named i (h.leased i hi)).trans_le h.bound_le

theorem Inv.table_order (h : s.Inv out none) {i : ℕ} :
    i ∈ s.idle ++ s.leasedIndices ↔ (s.names i).isSome = true := by
  rw [List.mem_append, h.idle, h.mem_leasedIndices]
  constructor
  · rintro (⟨hi, -⟩ | hi)
    · exact hi
    · exact h.leased i hi
  · intro hi
    by_cases ho : i ∈ out
    · exact Or.inr ho
    · exact Or.inl ⟨hi, ho⟩

theorem Inv.mem_table (h : s.Inv out none) {i : ℕ} {n : Str} :
    (i, n) ∈ s.table.entries ↔ s.names i = some n := by
  unfold table
  rw [List.mem_filterMap]
  constructor
  · rintro ⟨j, -, hj⟩
    obtain ⟨m, hm, heq⟩ := Option.map_eq_some_iff.1 hj
    cases heq
    exact hm
  · exact fun hi => ⟨i, h.table_order.2 (by simp [hi]), by simp [hi]⟩

theorem Inv.table_indices (h : s.Inv out none) :
    s.table.entries.map (·.1) = s.idle ++ s.leasedIndices := by
  unfold table
  have hall : ∀ i ∈ s.idle ++ s.leasedIndices, (s.names i).isSome = true := fun i hi =>
    h.table_order.1 hi
  generalize s.idle ++ s.leasedIndices = l at hall ⊢
  dsimp only
  induction l with
  | nil => rfl
  | cons i l ih =>
    obtain ⟨n, hn⟩ := Option.isSome_iff_exists.1 (hall i List.mem_cons_self)
    rw [List.filterMap_cons_some (by rw [hn]; rfl), List.map_cons,
      ih fun j hj => hall j (List.mem_cons_of_mem _ hj)]

theorem Inv.table_valid (h : s.Inv out none) : s.table.Valid s.count := by
  have hindices : (s.table.entries.map (·.1)).Nodup := by
    rw [h.table_indices, List.nodup_append]
    refine ⟨h.idleNodup, List.nodup_range.filter _, ?_⟩
    rintro i hi j hj rfl
    exact ((h.idle i).1 hi).2 (h.mem_leasedIndices.1 hj)
  constructor
  · exact h.cursor
  · rintro ⟨i, n⟩ he
    have hn := h.mem_table.1 he
    have hlt : i < s.bound := h.named i (by simp [hn])
    refine ⟨hlt.trans_le h.bound_le, fun hw => ?_, h.normal i n hn⟩
    have hw : s.wrapped = false := hw
    exact hlt.trans_eq (if_neg (by simp [hw]))
  · exact hindices
  · rw [List.nodup_map_iff_inj_on hindices.of_map]
    rintro ⟨i, n⟩ hi ⟨j, m⟩ hj rfl
    rw [h.inverse.injective (h.mem_table.1 hi) (h.mem_table.1 hj)]

theorem Inv.table_valid_min (h : s.Inv out none) : s.table.Valid (min s.count FAKE_COUNT) := by
  rw [min_eq_left h.count]
  exact h.table_valid

/-! ### The reopened pool -/

/-- The pool reopened from the file that was saved in the state `s`, by a run that did not end. -/
def reopen (s : State) (now want : ℕ) (written : Bool) : State :=
  (openSized (.bytes (contents s.table false)) now s.count want written).1

theorem Inv.reopen_eq (h : s.Inv out none) (now want : ℕ) (written : Bool) :
    s.reopen now want written =
      { (restore s.count s.table).holdBack want now with dirty := !written } := by
  have hcount : s.count < 2 ^ 32 := h.count.trans_lt (by decide)
  unfold reopen openSized
  dsimp only
  rw [min_eq_left h.count, parse_render hcount h.table_valid]

theorem Inv.restored (h : s.Inv out none) : (restore s.count s.table).Inv [] none :=
  inv_restore h.table_valid_min

theorem Inv.reopen (h : s.Inv out none) (now want : ℕ) (written : Bool) :
    (s.reopen now want written).Inv [] none := by
  rw [h.reopen_eq]
  exact { h.restored.holdBack want now with }

theorem Inv.restored_next (h : s.Inv out none) :
    (restore s.count s.table).held =
      ((List.range (s.table.bound s.count)).filter fun i => i ∉ s.table.entries.map (·.1)) ∧
    (restore s.count s.table).next =
      List.range' (s.table.bound s.count) (s.count - s.table.bound s.count) ++
        s.table.entries.map (·.1) := by
  obtain ⟨r, hr, heq⟩ := restore_entering h.table_valid_min
  have hcount : r.count = s.count := hr.count.trans (min_eq_left h.count)
  have hbound : r.bound = s.table.bound s.count := by
    have hle : s.table.cursor ≤ s.count := h.cursor
    unfold bound Table.bound
    rw [hr.wrapped, hcount, hr.cursor]
    by_cases hw : s.table.wrapped = true
    · simp [hw]
    · by_cases hfull : s.count ≤ s.table.cursor
      · simp [hw, le_antisymm hle hfull]
      · simp [hw, hfull]
  rw [heq]
  constructor
  · dsimp only
    rw [hbound]
    refine List.filter_congr fun i _ => decide_eq_decide.2 ?_
    rw [Option.eq_none_iff_forall_ne_some]
    simp [hr.names]
  · rw [← hbound, ← hr.idle, ← hcount]
    rfl

theorem holdNext_count (h : s.Inv out none) (want : ℕ) : (holdNext want s).count = s.count := by
  induction want generalizing s with
  | zero => rfl
  | succ want ih =>
    unfold holdNext
    rcases takeNext_next h with ⟨heq, -⟩ | ⟨i, s', heq, -⟩
    · rw [heq]
    · obtain ⟨h', hframe, -, -⟩ := h.takeNext heq
      rw [heq]
      exact (ih h'.hold).trans hframe.count

theorem Inv.reopen_count (h : s.Inv out none) (now want : ℕ) (written : Bool) :
    (s.reopen now want written).count = s.count := by
  have hrestored : (restore s.count s.table).count = s.count := by
    obtain ⟨r, hr, heq⟩ := restore_entering h.table_valid_min
    rw [heq]
    exact hr.count.trans (min_eq_left h.count)
  rw [h.reopen_eq]
  dsimp only
  unfold State.holdBack
  dsimp only
  split_ifs <;> exact (holdNext_count h.restored want).trans hrestored

/-- **What a reopening holds back**, by the table it reads. -/
theorem Inv.reopen_held (h : s.Inv out none) (now want : ℕ) (written : Bool) :
    (s.reopen now want written).held = s.table.heldBack s.count want := by
  obtain ⟨hheld, hnext⟩ := h.restored_next
  rw [h.reopen_eq]
  dsimp only
  rw [holdBack_held, holdNext_held h.restored, hheld, hnext]
  rfl

theorem Inv.reopen_heldUntil (h : s.Inv out none) {now want : ℕ} {written : Bool}
    (hne : s.table.heldBack s.count want ≠ []) :
    (s.reopen now want written).heldUntil = some (now + QUARANTINE) := by
  rw [← h.reopen_held now want written] at hne
  rw [h.reopen_eq] at hne ⊢
  exact holdBack_heldUntil hne

/-- What a reopening does not hold back keeps the name it has in the table. -/
theorem Inv.reopen_names (h : s.Inv out none) {now want i : ℕ} {written : Bool}
    (hi : i ∉ s.table.heldBack s.count want) :
    (s.reopen now want written).names i = s.names i := by
  obtain ⟨r, hr, heq⟩ := restore_entering h.table_valid_min
  have hnames : (restore s.count s.table).names i = s.names i := by
    rw [heq]
    ext n
    exact (hr.names i n).trans h.mem_table
  rw [← h.reopen_held now want written, h.reopen_eq] at hi
  dsimp only at hi
  rw [holdBack_held] at hi
  rw [h.reopen_eq]
  dsimp only
  rw [holdBack_names, holdNext_names h.restored want hi, hnames]

end State

/-! ### What was given out -/

/-- The assignment recycles the index `i`: the name is new, nothing is let go of what is held back,
every index was had, and `i` is the one used longest ago. -/
structure State.Recycles (s : State) (name : Str) (now i : ℕ) : Prop where
  new : ∃ n, normalize name = some n ∧ s.indices n = none
  held : ¬ (s.held ≠ [] ∧ s.heldUntil.any (· ≤ now) = true)
  full : s.bound = s.count
  oldest : s.idle.head? = some i

/-- Nothing that the allocator goes by differs but the recency order. -/
structure State.SameAllocator (s s' : State) : Prop where
  count : s'.count = s.count
  cursor : s'.cursor = s.cursor
  wrapped : s'.wrapped = s.wrapped
  held : s'.held = s.held
  heldUntil : s'.heldUntil = s.heldUntil

/-- **Where the index of an assignment comes from**: nowhere, when none is given; from what was
held back and is let go; from the cursor; or from the name used longest ago. -/
theorem State.Inv.assign_allocator {s : State} {out : List ℕ} (h : s.Inv out none) (name : Str)
    (now : ℕ) :
    (s.gives name now = none ∧ s.SameAllocator (s.assign name now).2) ∨
    ∃ i n, s.gives name now = some (i, n) ∧
      ((s.heldUntil.any (· ≤ now) = true ∧ ∃ held, s.held = i :: held ∧
        State.SameAllocator { s with held := held } (s.assign name now).2) ∨
      (s.wrapped = false ∧ i = s.cursor ∧ i < s.count ∧
        State.SameAllocator { s with cursor := s.cursor + 1, wrapped := s.cursor + 1 = s.count }
          (s.assign name now).2) ∨
      s.Recycles name now i ∧ s.SameAllocator (s.assign name now).2) := by
  have hsame : s.SameAllocator s := ⟨rfl, rfl, rfl, rfl, rfl⟩
  rcases s.assign_cases name now with
    ⟨-, heq, hg⟩ | ⟨m, hn, ⟨j, -, heq, hg⟩ | ⟨hnew, ⟨j, s', ht, heq, hg⟩ | ⟨s', ht, heq, hg⟩⟩⟩
  · exact Or.inl ⟨hg, heq ▸ hsame⟩
  · refine Or.inl ⟨hg, ?_⟩
    rw [heq]
    exact ⟨rfl, rfl, rfl, rfl, rfl⟩
  · refine Or.inr ⟨j, m, hg, ?_⟩
    rw [heq]
    unfold State.take at ht
    split at ht
    · rename_i k held hheld
      cases ht
      split_ifs at hheld with huntil
      exact Or.inl ⟨huntil, held, hheld, rfl, rfl, rfl, rfl, rfl⟩
    · rename_i hheld
      refine Or.inr ?_
      rcases State.takeNext_cases h with
        ⟨heq, -⟩ | ⟨hw, hlt, heq⟩ | ⟨k, m, idle, hfull, hidle, -, heq⟩
      · rw [heq] at ht
        cases ht
      · rw [heq] at ht
        cases ht
        exact Or.inl ⟨hw, rfl, hlt, rfl, rfl, rfl, rfl, rfl⟩
      · rw [heq] at ht
        cases ht
        refine Or.inr ⟨⟨⟨_, hn, hnew⟩, ?_, hfull, by simp [hidle]⟩, rfl, rfl, rfl, rfl, rfl⟩
        rintro ⟨hne, huntil⟩
        rw [if_pos huntil] at hheld
        exact hne hheld
  · refine Or.inl ⟨hg, ?_⟩
    rw [heq, (h.take_none ht).1]
    exact hsame

namespace System

/-- The system with the record of what is given begun anew, as it is saved. -/
def saved (y : System) : System := { y with given := [] }

/-- No step recycles an index that a reopening from `t` does not hold back. -/
def Foreseen (t : Table) (count want : ℕ) (y : System) (op : Op) : Prop :=
  ∀ name now i, op = .assign name now → y.pool.Recycles name now i → i ∈ t.heldBack count want

/-- What holds since the table of `s` was saved: nothing was held back since, at most one index
became had with each that was given, and what was given a reopening holds back. -/
structure Since (s : State) (want : ℕ) (y : System) : Prop where
  ok : y.Ok
  count : y.pool.count = s.count
  held : y.pool.held ⊆ s.held
  wrapped : y.pool.wrapped = false → s.wrapped = false
  cursor : s.cursor ≤ y.pool.cursor ∧ y.pool.cursor ≤ s.cursor + y.given.length
  given : y.given.length ≤ want → ∀ e ∈ y.given, e.1 ∈ s.table.heldBack s.count want

variable {s : State} {want : ℕ} {y : System}

/-- An index that was held back when the table was saved is held back. -/
theorem mem_heldBack_of_held {out : List ℕ} (h : s.Inv out none) {i : ℕ} (hi : i ∈ s.held) :
    i ∈ s.table.heldBack s.count want := by
  refine List.mem_append_left _ (List.mem_filter.2 ⟨List.mem_range.2 (h.heldBelow i hi), ?_⟩)
  have hname := (h.split i (h.heldBelow i hi) (by simp)).1 hi
  rw [decide_eq_true_eq, h.table_indices, h.table_order, hname]
  simp

/-- An index that was fresh when the table was saved is held back, if it is near the cursor. -/
theorem mem_heldBack_of_fresh {i : ℕ} (hw : s.wrapped = false) (hle : s.cursor ≤ i)
    (hlt : i < s.count) (hnear : i < s.cursor + want) :
    i ∈ s.table.heldBack s.count want := by
  have hbound : s.table.bound s.count = s.cursor := if_neg (by simp [State.table, hw])
  refine List.mem_append_right _ ?_
  rw [hbound, List.take_append, List.mem_append]
  refine Or.inl (List.mem_take_iff_getElem.2 ⟨i - s.cursor, ?_, ?_⟩)
  · rw [List.length_range']
    omega
  · rw [List.getElem_range']
    omega

/-- A step that assigns nothing leaves the allocator and the record as they were. -/
theorem step_quiet (y : System) {op : Op} (hop : ∀ name now, op ≠ .assign name now) :
    y.pool.SameAllocator (y.step op).pool ∧ (y.step op).given = y.given := by
  cases op with
  | assign name now => exact absurd rfl (hop name now)
  | nameOf ip =>
    rw [step_nameOf]
    refine ⟨?_, rfl⟩
    rcases y.pool.nameOf_cases ip with heq | ⟨i, n, -, heq⟩ <;> rw [heq] <;>
      exact ⟨rfl, rfl, rfl, rfl, rfl⟩
  | lease ip =>
    rcases y.pool.lease_cases ip with heq | ⟨i, n, -, heq⟩
    · rw [step_lease_none heq]
      exact ⟨⟨rfl, rfl, rfl, rfl, rfl⟩, rfl⟩
    · rw [step_lease_some heq]
      exact ⟨⟨rfl, rfl, rfl, rfl, rfl⟩, rfl⟩
  | drop i =>
    rw [step_drop]
    split_ifs
    · refine ⟨?_, rfl⟩
      dsimp only
      unfold State.release
      split <;> exact ⟨rfl, rfl, rfl, rfl, rfl⟩
    · exact ⟨⟨rfl, rfl, rfl, rfl, rfl⟩, rfl⟩
  | save => exact ⟨⟨rfl, rfl, rfl, rfl, rfl⟩, rfl⟩

/-- The record of one more index given, that a reopening holds back if few were given. -/
theorem Since.record {e : ℕ × Str} (h : Since s want y)
    (he : y.given.length + 1 ≤ want → e.1 ∈ s.table.heldBack s.count want) :
    (y.given ++ [e]).length ≤ want →
      ∀ e' ∈ y.given ++ [e], e'.1 ∈ s.table.heldBack s.count want := by
  intro hfew e' he'
  rw [List.length_append, List.length_singleton] at hfew
  rcases List.mem_append.1 he' with he' | he'
  · exact h.given (by omega) e' he'
  · exact List.mem_singleton.1 he' ▸ he hfew

theorem Since.same {y' : System} (h : Since s want y) (hok : y'.Ok)
    (hsame : y.pool.SameAllocator y'.pool) (hgiven : y'.given = y.given) : Since s want y' where
  ok := hok
  count := hsame.count.trans h.count
  held := hsame.held ▸ h.held
  wrapped := hsame.wrapped ▸ h.wrapped
  cursor := by
    rw [hsame.cursor, hgiven]
    exact h.cursor
  given := hgiven ▸ h.given

/-- **A step keeps what holds since the save**, if it recycles nothing unforeseen. -/
theorem Since.step {out : List ℕ} (hs : s.Inv out none) (h : Since s want y) {op : Op}
    (hop : Foreseen s.table s.count want y op) : Since s want (y.step op) := by
  have hok := h.ok.step op
  by_cases hassign : ∃ name now, op = .assign name now
  · obtain ⟨name, now, rfl⟩ := hassign
    obtain ⟨hlow, hhigh⟩ := h.cursor
    rcases State.Inv.assign_allocator h.ok name now with ⟨hg, hsame⟩ | ⟨i, n, hg, hcase⟩
    · exact h.same hok hsame (by simp [System.step, hg])
    · have hgiven : (y.step (.assign name now)).given = y.given ++ [(i, n)] := by
        simp [System.step, hg]
      have hlength : (y.given ++ [(i, n)]).length = y.given.length + 1 := List.length_append
      rcases hcase with ⟨-, held, hheld, hsame⟩ | ⟨hw, rfl, hlt, hsame⟩ | ⟨hrec, hsame⟩
      · refine ⟨hok, hsame.count.trans h.count, ?_, hsame.wrapped ▸ h.wrapped, ?_, ?_⟩
        · rw [show (y.step (.assign name now)).pool.held = held from hsame.held]
          exact fun j hj => h.held (by simp [hheld, hj])
        · rw [show (y.step (.assign name now)).pool.cursor = y.pool.cursor from hsame.cursor,
            hgiven, hlength]
          omega
        · rw [hgiven]
          exact h.record fun _ => mem_heldBack_of_held hs (h.held (by simp [hheld]))
      · have hcursor : (y.step (.assign name now)).pool.cursor = y.pool.cursor + 1 := hsame.cursor
        refine ⟨hok, hsame.count.trans h.count, ?_, fun _ => h.wrapped hw, ?_, ?_⟩
        · rw [show (y.step (.assign name now)).pool.held = y.pool.held from hsame.held]
          exact h.held
        · rw [hcursor, hgiven, hlength]
          omega
        · rw [hgiven]
          refine h.record fun hfew => mem_heldBack_of_fresh (h.wrapped hw) hlow ?_ ?_
          · exact h.count ▸ hlt
          · dsimp only
            omega
      · refine ⟨hok, hsame.count.trans h.count, ?_, hsame.wrapped ▸ h.wrapped, ?_, ?_⟩
        · rw [show (y.step (.assign name now)).pool.held = y.pool.held from hsame.held]
          exact h.held
        · rw [show (y.step (.assign name now)).pool.cursor = y.pool.cursor from hsame.cursor,
            hgiven, hlength]
          omega
        · rw [hgiven]
          exact h.record fun _ => hop name now i rfl hrec
  · obtain ⟨hsame, hgiven⟩ := y.step_quiet fun name now (heq : op = _) => hassign ⟨name, now, heq⟩
    exact h.same hok hsame hgiven

/-! ### The reopened pool runs -/

end System

/-- The operation comes before the moment, if it comes at one. -/
def Op.Before (until_ : ℕ) : Op → Prop
  | .assign _ now => now < until_
  | _ => True

namespace System

/-- The reopened pool: what is held back at the reopening is held back still, and is not given. -/
structure Quiet (kept : List ℕ) (until_ : ℕ) (y : System) : Prop where
  ok : y.Ok
  held : y.pool.held = kept
  heldUntil : kept ≠ [] → y.pool.heldUntil = some until_
  given : ∀ e ∈ y.given, e.1 ∉ kept

variable {y : System}

theorem Quiet.step {kept : List ℕ} {until_ : ℕ} (h : Quiet kept until_ y) {op : Op}
    (hop : op.Before until_) : Quiet kept until_ (y.step op) := by
  have hok := h.ok.step op
  have hsame : y.pool.SameAllocator (y.step op).pool → (y.step op).given = y.given →
      Quiet kept until_ (y.step op) := fun hsame hgiven =>
    ⟨hok, hsame.held.trans h.held, fun hne => hsame.heldUntil.trans (h.heldUntil hne),
      hgiven ▸ h.given⟩
  by_cases hassign : ∃ name now, op = .assign name now
  · obtain ⟨name, now, rfl⟩ := hassign
    have hnow : now < until_ := hop
    rcases State.Inv.assign_allocator h.ok name now with ⟨hg, heq⟩ | ⟨i, n, hg, hcase⟩
    · exact hsame heq (by simp [System.step, hg])
    · have hgiven : (y.step (.assign name now)).given = y.given ++ [(i, n)] := by
        simp [System.step, hg]
      have hrecord : i ∉ kept → ∀ e ∈ (y.step (.assign name now)).given, e.1 ∉ kept := by
        intro hi e he
        rw [hgiven] at he
        rcases List.mem_append.1 he with he | he
        · exact h.given e he
        · exact List.mem_singleton.1 he ▸ hi
      rcases hcase with ⟨huntil, rest, hheld, -⟩ | ⟨hw, rfl, hlt, heq⟩ | ⟨hrec, heq⟩
      · -- nothing is let go before the moment
        rw [h.heldUntil (by simp [← h.held, hheld])] at huntil
        simp only [Option.any_some, decide_eq_true_eq] at huntil
        omega
      · refine ⟨hok, heq.held.trans h.held, fun hne => heq.heldUntil.trans (h.heldUntil hne),
          hrecord fun hi => ?_⟩
        have hbelow := h.ok.heldBelow _ (h.held ▸ hi)
        have hbound := (State.bound_fresh hw).1
        omega
      · refine ⟨hok, heq.held.trans h.held, fun hne => heq.heldUntil.trans (h.heldUntil hne),
          hrecord fun hi => ?_⟩
        have hidle : i ∈ y.pool.idle := List.mem_of_head? hrec.oldest
        have hheld := h.held ▸ hi
        have hname := (h.ok.split i (h.ok.heldBelow i hheld) (by simp)).1 hheld
        exact h.ok.not_idle_of_unnamed hname hidle
  · obtain ⟨heq, hgiven⟩ := y.step_quiet fun name now (heq : op = _) => hassign ⟨name, now, heq⟩
    exact hsame heq hgiven

end System

/-- **What a crash must leave alone**: whatever the reopened pool `r` is asked before `until_`, it
answers no other name for the index of `e`, and gives it to no other name. -/
def Survives (r : State) (until_ : ℕ) (e : ℕ × Str) : Prop :=
  ∀ ops : List Op, (∀ op ∈ ops, op.Before until_) →
    (∀ ip n, indexOf ip = some e.1 →
      ((Runs.run System.step ⟨r, [], []⟩ ops).pool.nameOf ip).1 = some n → n = e.2) ∧
    ∀ n, (e.1, n) ∈ (Runs.run System.step ⟨r, [], []⟩ ops).given → n = e.2

/-- The pool that ran `before`, was saved, ran `since` and crashed, reopened at `now`: if at most
`want` indices were given since the save, each of them survives. -/
def CrashSafe (start : Start) (before since : List Op) (now want : ℕ) (written : Bool) : Prop :=
  let saved := (Runs.run System.step start.system before).saved
  let crashed := Runs.run System.step saved since
  crashed.given.length ≤ want →
    ∀ e ∈ crashed.given, Survives (saved.pool.reopen now want written) (now + QUARANTINE) e

/-- What the reopened pool holds back survives. -/
theorem survives_of_held {r : State} (hr : r.Inv [] none) {until_ : ℕ}
    (huntil : r.held ≠ [] → r.heldUntil = some until_) {e : ℕ × Str} (he : e.1 ∈ r.held) :
    Survives r until_ e := by
  intro ops hops
  have hquiet : System.Quiet r.held until_ (Runs.run System.step ⟨r, [], []⟩ ops) :=
    Runs.Along.invariant (fun _ _ h hop => h.step hop) (Runs.along_of_forall hops)
      ⟨hr, rfl, huntil, by simp⟩
  refine ⟨fun ip n hip hn => ?_, fun n hn => absurd he (hquiet.given (e.1, n) hn)⟩
  rcases State.nameOf_cases _ ip with heq | ⟨i, m, hl, -⟩
  · rw [heq] at hn
    cases hn
  · have hi : i = e.1 := Option.some.inj ((State.lookup_index hl).symm.trans hip)
    have hheld : i ∈ (Runs.run System.step ⟨r, [], []⟩ ops).pool.held :=
      hquiet.held.symm ▸ hi.symm ▸ he
    have hname := (hquiet.ok.split i (hquiet.ok.heldBelow i hheld) (by simp)).1 hheld
    rw [State.lookup_some hl] at hname
    cases hname

/-- **What was given since the save survives a crash**, in every run that recycles no index but
those that a reopening of the saved table holds back. -/
theorem crash_safe (start : Start) (before since : List Op) (now want : ℕ) (written : Bool)
    (h : Runs.Along System.step
      (System.Foreseen (Runs.run System.step start.system before).pool.table
        (Runs.run System.step start.system before).pool.count want)
      (Runs.run System.step start.system before).saved since) :
    CrashSafe start before since now want written := by
  have hok : (Runs.run System.step start.system before).Ok :=
    Runs.run_invariant (I := System.Ok) (fun _ op h => h.step op) start.ok before
  unfold CrashSafe
  intro saved crashed hfew e he
  have hsaved : saved.pool.Inv saved.out none := hok
  have hsince : System.Since saved.pool want crashed := by
    refine h.invariant (fun _ _ hs hop => hs.step hok hop) ⟨hok, rfl, fun i hi => hi, id, ?_, ?_⟩
    · exact ⟨le_rfl, le_rfl⟩
    · simp [System.saved]
  have hheld : e.1 ∈ (saved.pool.reopen now want written).held := by
    rw [hsaved.reopen_held]
    exact hsince.given hfew e he
  refine survives_of_held (hsaved.reopen ..) (fun hne => ?_) hheld
  rw [hsaved.reopen_held] at hne
  exact hsaved.reopen_heldUntil hne

/-- One address, given to `a` and saved, then recycled for `b`: the file names it. -/
theorem crash_safe_one : CrashSafe (.empty 1 0 0) [.assign "a".toList 0] [.assign "b".toList 0]
    0 1 true := by
  refine crash_safe _ _ _ _ _ _ ⟨?_, trivial⟩
  intro name now i hop hrec
  have hidle : (Runs.run System.step (Start.empty 1 0 0).system
      [.assign "a".toList 0]).pool.idle.head? = some 0 := by decide +kernel
  obtain rfl : 0 = i := Option.some.inj (hidle.symm.trans hrec.oldest)
  decide +kernel

/-! ### What a crash can lose -/

/-- A short word of label characters is a name. -/
theorem normalize_label {n : Str} (hne : n ≠ []) (hlabel : ∀ c ∈ n, isLabelChar c = true)
    (hlower : n.toAsciiLowercase = n) (hshort : n.length ≤ 253) : normalize n = some n := by
  have hdot : '.' ∉ n := fun h => by
    have := hlabel _ h
    revert this
    decide
  have hstrip : stripDot n = n := by
    unfold stripDot
    rw [if_neg]
    exact fun hlast => hdot (List.mem_of_getLast? hlast)
  have hbytes : n.byteLen ≤ 253 := by
    rwa [byteLen_eq_length fun c hc => utf8Size_of_label (Or.inr (hlabel c hc))]
  unfold normalize
  dsimp only
  rw [hstrip, if_neg (not_lt.2 hbytes), hlower, List.splitOn_eq_singleton hdot, if_pos]
  simp only [List.all_cons, List.all_nil, Bool.and_true, aLabel, Bool.and_eq_true,
    decide_eq_true_eq, List.all_eq_true]
  exact ⟨hne, hlabel⟩

theorem isLabelChar_of_isDigit {c : Char} (h : c.isDigit = true) : isLabelChar c = true := by
  simp only [Char.isDigit, Bool.and_eq_true, decide_eq_true_eq, ge_iff_le] at h
  have h0 : '0' ≤ c := h.1
  have h9 : c ≤ '9' := h.2
  simp [isLabelChar, h0, h9]

theorem normalize_numbered {i : ℕ} (hi : i < FAKE_COUNT) :
    normalize ('n' :: Str.decimal i) = some ('n' :: Str.decimal i) := by
  apply normalize_label
  · simp
  · intro c hc
    rcases List.mem_cons.1 hc with rfl | hc
    · decide
    · exact isLabelChar_of_isDigit (Str.isDigit_of_mem_decimal hc)
  · exact congrArg ('n' :: ·) (Str.toAsciiLowercase_decimal i)
  · have hlength : (Str.decimal i).length ≤ 6 := by
      unfold Str.decimal
      rw [Nat.length_toDigits_le_iff (by decide) (by decide)]
      exact hi.trans (by decide)
    rw [List.length_cons]
    omega

/-- A table of `count` addresses, all of them named. -/
def fullTable (count : ℕ) : Table where
  cursor := count
  wrapped := true
  entries := (List.range count).map fun i => (i, 'n' :: Str.decimal i)

section

variable {count : ℕ}

theorem fullTable_indices : (fullTable count).entries.map (·.1) = List.range count := by
  unfold fullTable
  rw [List.map_map]
  exact List.map_id _

theorem mem_fullTable {i : ℕ} {n : Str} :
    (i, n) ∈ (fullTable count).entries ↔ i < count ∧ n = 'n' :: Str.decimal i := by
  simp only [fullTable, List.mem_map, List.mem_range, Prod.mk.injEq]
  constructor
  · rintro ⟨j, hj, rfl, rfl⟩
    exact ⟨hj, rfl⟩
  · rintro ⟨hi, rfl⟩
    exact ⟨i, hi, rfl, rfl⟩

theorem fullTable_valid (hcount : count ≤ FAKE_COUNT) : (fullTable count).Valid count := by
  constructor
  · exact le_rfl
  · rintro ⟨i, n⟩ he
    obtain ⟨hi, rfl⟩ := mem_fullTable.1 he
    exact ⟨hi, by simp [fullTable], normalize_numbered (hi.trans_le hcount)⟩
  · rw [fullTable_indices]
    exact List.nodup_range
  · have hnames : (fullTable count).entries.map (·.2) =
        (List.range count).map fun i => 'n' :: Str.decimal i := by
      unfold fullTable
      rw [List.map_map]
      rfl
    rw [hnames]
    exact List.nodup_range.map fun i j h => Str.decimal_injective (List.cons.inj h).2

theorem fullTable_read (hcount : count ≤ FAKE_COUNT) :
    parse (contents (fullTable count) true) (min count FAKE_COUNT) =
      .ok (fullTable count, true) := by
  rw [min_eq_left hcount]
  exact parse_render (hcount.trans_lt (by decide)) (fullTable_valid hcount) true

/-- A pool whose addresses all have names, after a clean stop. -/
def full (hcount : count ≤ FAKE_COUNT) : Start :=
  .file count (contents (fullTable count) true) (fullTable count) true (fullTable_read hcount) 0 0

/-- The first `k` addresses, each asked for once. -/
def uses (k : ℕ) : List Op := (List.range k).map fun i => .nameOf (.v4 (v4Of i))

/-- What is known of the full pool while its first addresses are used. -/
structure Used (count k : ℕ) (y : System) : Prop where
  ok : y.pool.Inv [] none
  size : y.pool.count = count
  wrapped : y.pool.wrapped = true
  names : ∀ i n, y.pool.names i = some n ↔ (i, n) ∈ (fullTable count).entries
  idle : y.pool.idle = List.range' k (count - k) ++ List.range k
  held : y.pool.held = []
  given : y.given = []

theorem used_zero (hcount : count ≤ FAKE_COUNT) : Used count 0 (full hcount).system.saved := by
  obtain ⟨r, hr, heq⟩ := State.restore_entering
    (show (fullTable count).Valid (min count FAKE_COUNT) by
      rw [min_eq_left hcount]
      exact fullTable_valid hcount)
  have hsame : r.count = count := hr.count.trans (min_eq_left hcount)
  have hwrapped : r.wrapped = true := by
    rw [hr.wrapped]
    rfl
  have hheld : (State.restore count (fullTable count)).held = [] := by
    rw [heq]
    refine List.filter_eq_nil_iff.2 fun i hi => ?_
    have hlt : i < count := by
      have := List.mem_range.1 hi
      rwa [State.bound, if_pos hwrapped, hsame] at this
    rw [(hr.names i _).2 (mem_fullTable.2 ⟨hlt, rfl⟩)]
    simp
  have hpool : (full hcount).system.saved.pool = State.restore count (fullTable count) := by
    show (State.restore count (fullTable count)).holdBack 0 0 = _
    unfold State.holdBack
    exact if_pos hheld
  have hok : (full hcount).system.Ok := (full hcount).ok
  constructor
  · exact hok
  · rw [hpool, heq]
    exact hsame
  · rw [hpool, heq]
    exact hwrapped
  · rw [hpool, heq]
    exact hr.names
  · rw [hpool, heq]
    dsimp only
    rw [hr.idle, fullTable_indices, List.range_eq_range']
    simp
  · rw [hpool, hheld]
  · rfl

theorem Used.use {k : ℕ} {y : System} (h : Used count k y) (hcount : count ≤ FAKE_COUNT)
    (hk : k < count) : Used count (k + 1) (y.step (.nameOf (.v4 (v4Of k)))) := by
  have hname : y.pool.names k = some ('n' :: Str.decimal k) :=
    (h.names k _).2 (mem_fullTable.2 ⟨hk, rfl⟩)
  have hlookup : y.pool.lookup (.v4 (v4Of k)) = some (k, 'n' :: Str.decimal k) := by
    unfold State.lookup
    rw [indexOf_v4Of (hk.trans_le hcount), Option.bind_some, if_pos (h.size ▸ hk), hname]
    rfl
  have hpool : (y.pool.nameOf (.v4 (v4Of k))).2 = y.pool.refresh k := by
    unfold State.nameOf
    rw [hlookup]
  rw [System.step_nameOf, hpool]
  refine ⟨h.ok.refresh k, h.size, h.wrapped, h.names, ?_, h.held, h.given⟩
  show Recency.promote y.pool.idle k = _
  rw [h.idle, show count - k = (count - (k + 1)) + 1 by omega, List.range'_succ,
    List.cons_append, Recency.promote_cons, List.append_assoc, List.range_succ]

theorem used_uses (hcount : count ≤ FAKE_COUNT) {k : ℕ} (hk : k ≤ count) :
    Used count k (Runs.run System.step (full hcount).system.saved (uses k)) := by
  induction k with
  | zero => exact used_zero hcount
  | succ k ih =>
    have hsplit : uses (k + 1) = uses k ++ [.nameOf (.v4 (v4Of k))] := by
      simp [uses, List.range_succ]
    rw [hsplit, Runs.run_append]
    exact (ih (by omega)).use hcount hk

/-- A new name takes the address that was used longest ago. -/
theorem Used.gives {k : ℕ} {y : System} (h : Used count k y) (hk : k < count) :
    y.pool.gives ['x'] 0 = some (k, ['x']) := by
  have hindex : y.pool.indices ['x'] = none := by
    rw [Option.eq_none_iff_forall_ne_some]
    intro i hi
    have := (mem_fullTable.1 ((h.names i _).1 ((h.ok.inverse i _).2 hi))).2
    revert this
    simp
  have hidle : y.pool.idle = k :: (List.range' (k + 1) (count - (k + 1)) ++ List.range k) := by
    rw [h.idle, show count - k = (count - (k + 1)) + 1 by omega, List.range'_succ,
      List.cons_append]
  have htake : (y.pool.take 0).1 = some k := by
    unfold State.take
    rw [h.held, ite_self]
    rcases State.takeNext_cases h.ok with ⟨-, -, hnil⟩ | ⟨hw, -⟩ | ⟨i, n, idle, -, hcons, -, heq⟩
    · rw [hidle] at hnil
      cases hnil
    · rw [h.wrapped] at hw
      cases hw
    · rw [hidle] at hcons
      cases hcons
      rw [heq]
  unfold State.gives
  rw [show normalize ['x'] = some ['x'] by decide +kernel, Option.bind_some,
    if_pos hindex, htake]
  rfl

/-- A reopening of the full pool holds back its first addresses. -/
theorem Used.not_mem_heldBack {y : System} (h : Used count 0 y) {k want : ℕ} (hk : k < count)
    (hwant : want ≤ k) : k ∉ y.pool.table.heldBack y.pool.count want := by
  have hleased : y.pool.leasedIndices = [] := by
    rw [List.eq_nil_iff_forall_not_mem]
    exact fun i hi => List.not_mem_nil (h.ok.mem_leasedIndices.1 hi)
  have hindices : y.pool.table.entries.map (·.1) = List.range count := by
    rw [h.ok.table_indices, hleased, h.idle]
    simp [List.range_eq_range']
  have hbound : y.pool.table.bound y.pool.count = y.pool.count := if_pos h.wrapped
  unfold Table.heldBack
  rw [hbound, hindices, Nat.sub_self, List.range'_zero, List.nil_append, List.mem_append, not_or]
  constructor
  · simp [hk]
  · rw [List.take_range, List.mem_range]
    omega

/-- **An address given after the use of `k` others does not survive**, if a reopening holds back
no more than `k`: the file still says that those others are recycled next. -/
theorem full_loses (hcount : count ≤ FAKE_COUNT) {k want : ℕ} (hk : k < count) (hwant : want ≤ k)
    (hpos : 0 < want) (written : Bool) :
    ¬ CrashSafe (full hcount) [] (uses k ++ [.assign ['x'] 0]) 0 want written := by
  intro h
  have hzero := used_zero hcount
  have hgiven : (Runs.run System.step (full hcount).system.saved
      (uses k ++ [.assign ['x'] 0])).given = [(k, ['x'])] := by
    have hused := used_uses hcount hk.le
    rw [Runs.run_append, Runs.run_cons, Runs.run_nil]
    simp [System.step, hused.given, hused.gives hk]
  have hsurvives : Survives ((full hcount).system.saved.pool.reopen 0 want written)
      (0 + QUARANTINE) (k, ['x']) := by
    refine h ?_ (k, ['x']) ?_
    · rw [Runs.run_nil, hgiven]
      exact hpos
    · rw [Runs.run_nil, hgiven]
      exact List.mem_singleton_self _
  have hname : ((full hcount).system.saved.pool.reopen 0 want written).names k =
      some ('n' :: Str.decimal k) := by
    rw [hzero.ok.reopen_names (hzero.not_mem_heldBack hk hwant)]
    exact (hzero.names k _).2 (mem_fullTable.2 ⟨hk, rfl⟩)
  have hlookup : ((full hcount).system.saved.pool.reopen 0 want written).lookup (.v4 (v4Of k)) =
      some (k, 'n' :: Str.decimal k) := by
    unfold State.lookup
    rw [indexOf_v4Of (hk.trans_le hcount), Option.bind_some, hzero.ok.reopen_count, hzero.size,
      if_pos hk, hname]
    rfl
  have hanswer : (((full hcount).system.saved.pool.reopen 0 want written).nameOf
      (.v4 (v4Of k))).1 = some ('n' :: Str.decimal k) := by
    rw [State.nameOf, hlookup]
  obtain ⟨hnames, -⟩ := hsurvives [] (fun _ hop => absurd hop List.not_mem_nil)
  rw [Runs.run_nil] at hnames
  have heq : 'n' :: Str.decimal k = ['x'] :=
    hnames (.v4 (v4Of k)) ('n' :: Str.decimal k) (indexOf_v4Of (hk.trans_le hcount)) hanswer
  exact absurd (List.cons.inj heq).1 (by decide)

end

/-- **A pool as it is shipped loses an address**: all are named, as many as a reopening holds back
are used after the save, and the next one is recycled for a new name. -/
theorem full_not_crashSafe :
    ¬ CrashSafe (full le_rfl) [] (uses QUARANTINE_COUNT ++ [.assign ['x'] 0]) 0
      QUARANTINE_COUNT true :=
  full_loses le_rfl (by decide) le_rfl (by decide) true

end FakeIp

end Rurge
