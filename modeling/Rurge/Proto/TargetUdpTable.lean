import Rurge.Proto.TargetUdpRuns

/-!
# What stays in the table

A slot whose dial failed is in the table only until whoever dialled forgets it, unless another dial
has set its cell; and a connection whose reader has left is in the table only where somebody has it
from the cell and is still to look at it, or is about to ask for its target again, or has failed
because of it.
-/

namespace Rurge

namespace TargetUdp

namespace World

variable {Target : Type*} [DecidableEq Target] {w w' : World Target} {k i c : ℕ}
  {s s' : Sender Target} {t : Target}

/-- Somebody is to look at the connection `c` of the slot `i`, or to ask for the target, or has
failed. -/
def Owes (w : World Target) (t : Target) (i c : ℕ) : Prop :=
  ∃ (k : ℕ) (s : Sender Target), w.senders[k]? = some s ∧ (s.phase = .Has i c ∨
    s.target = t ∧ (s.phase = .Asks ∨ s.phase = .Done (.error .ConnectionAborted)))

/-- The reader of the connection `c` has left the table. -/
def Left (w : World Target) (c : ℕ) : Prop :=
  ∃ conn : Conn Target, w.conns[c]? = some conn ∧ conn.left = true

/-- A dial for the slot `i` failed, and no other has set its cell. -/
def Fails (w : World Target) (i : ℕ) : Prop :=
  ∃ slot : Slot Target, w.slots[i]? = some slot ∧ slot.failed = true ∧ ∀ c, slot.cell ≠ .Set c

/-- A dial for the slot `i` failed that is still to be forgotten. -/
def Failing (w : World Target) (i : ℕ) : Prop :=
  ∃ (k : ℕ) (s : Sender Target), w.senders[k]? = some s ∧ s.phase = .Failed i

/-- What holds of the table at all times. -/
structure Kept (w : World Target) : Prop where
  forgotten : ∀ t i, w.table.lookup t = some i → w.Fails i → w.Failing i
  clean : ∀ t i c, w.table.lookup t = some i → w.CellIs i (.Set c) → w.Left c → w.Owes t i c

theorem kept_new (carrier : Carrier) : (new carrier : World Target).Kept where
  forgotten := fun t i h => by cases h
  clean := fun t i c h => by cases h

omit [DecidableEq Target] in
/-- Somebody else still owes it, or `k` did. -/
theorem Owes.next (h : w.Owes t i c) (hs : w.senders[k]? = some s)
    (hothers : ∀ j, j ≠ k → w'.senders[j]? = w.senders[j]?) :
    w'.Owes t i c ∨ s.phase = .Has i c ∨
      s.target = t ∧ (s.phase = .Asks ∨ s.phase = .Done (.error .ConnectionAborted)) := by
  obtain ⟨j, u, hu, howes⟩ := h
  by_cases hj : j = k
  · subst hj
    rw [hs] at hu
    cases hu
    exact .inr howes
  · exact .inl ⟨j, u, (hothers j hj).trans hu, howes⟩

omit [DecidableEq Target] in
theorem Failing.next (h : w.Failing i) (hs : w.senders[k]? = some s)
    (hothers : ∀ j, j ≠ k → w'.senders[j]? = w.senders[j]?) :
    w'.Failing i ∨ s.phase = .Failed i := by
  obtain ⟨j, u, hu, hphase⟩ := h
  by_cases hj : j = k
  · subst hj
    rw [hs] at hu
    cases hu
    exact .inr hphase
  · exact .inl ⟨j, u, (hothers j hj).trans hu, hphase⟩

/-- A step of `k` that fails nothing, sets no cell and lets no reader leave: what the table has more
is no slot of those, and `k` hands on what it owed. -/
theorem Kept.next (h : w.Kept) (hs : w.senders[k]? = some s)
    (hothers : ∀ j, j ≠ k → w'.senders[j]? = w.senders[j]?)
    (htable : ∀ t i, w'.table.lookup t = some i → w.table.lookup t = some i ∨
      ¬ w'.Fails i ∧ ∀ c, w'.CellIs i (.Set c) → ¬ w'.Left c)
    (hfails : ∀ i, w'.Fails i → w.Fails i)
    (hset : ∀ i c, w'.CellIs i (.Set c) → w.CellIs i (.Set c))
    (hleft : ∀ c, w'.Left c → w.Left c)
    (hfailed : ∀ t i, s.phase = .Failed i → w'.table.lookup t = some i → w'.Failing i)
    (hhas : ∀ t i c, s.phase = .Has i c → w'.table.lookup t = some i → w.table.lookup t = some i →
      w'.CellIs i (.Set c) → w'.Left c → w'.Owes t i c)
    (hasks : ∀ i c, s.phase = .Asks ∨ s.phase = .Done (.error .ConnectionAborted) →
      w'.table.lookup s.target = some i → w'.CellIs i (.Set c) → w'.Left c →
        w'.Owes s.target i c) : w'.Kept where
  forgotten := fun t i hlookup hfail => by
    rcases htable t i hlookup with hold | hnew
    · rcases (h.forgotten t i hold (hfails i hfail)).next hs hothers with hothers | hk
      · exact hothers
      · exact hfailed t i hk hlookup
    · exact absurd hfail hnew.1
  clean := fun t i c hlookup hcell hgone => by
    rcases htable t i hlookup with hold | hnew
    · rcases (h.clean t i c hold (hset i c hcell) (hleft c hgone)).next hs hothers with
        hothers | hk | ⟨ht, hk⟩
      · exact hothers
      · exact hhas t i c hk hlookup hold hcell hgone
      · subst ht
        exact hasks i c hk hlookup hcell hgone
    · exact absurd hgone (hnew.2 c hcell)

/-- A step of a sender that owes nothing. -/
theorem Kept.idle (h : w.Kept) (hs : w.senders[k]? = some s)
    (hidle : (∀ i, s.phase ≠ .Failed i) ∧ (∀ i c, s.phase ≠ .Has i c) ∧ s.phase ≠ .Asks ∧
      ∀ r, s.phase ≠ .Done r)
    (hothers : ∀ j, j ≠ k → w'.senders[j]? = w.senders[j]?)
    (htable : ∀ t i, w'.table.lookup t = some i → w.table.lookup t = some i)
    (hfails : ∀ i, w'.Fails i → w.Fails i)
    (hset : ∀ i c, w'.CellIs i (.Set c) → w.CellIs i (.Set c))
    (hleft : ∀ c, w'.Left c → w.Left c) : w'.Kept := by
  refine h.next hs hothers (fun t i hi => .inl (htable t i hi)) hfails hset hleft
    (fun t i hi => absurd hi (hidle.1 i)) (fun t i c hc => absurd hc (hidle.2.1 i c))
    fun i c hk => ?_
  rcases hk with hk | hk
  · exact absurd hk hidle.2.2.1
  · exact absurd hk (hidle.2.2.2 _)

omit [DecidableEq Target] in
theorem left_touch {f : Conn Target → Conn Target} (hf : ∀ conn, (f conn).left = conn.left) {c' : ℕ}
    (h : (w.touch c f).Left c') : w.Left c' := by
  obtain ⟨conn', hconn', hleft⟩ := h
  simp only [touch, List.getElem?_modify, Option.map_eq_map, Option.map_eq_some_iff] at hconn'
  obtain ⟨conn, hconn, rfl⟩ := hconn'
  refine ⟨conn, hconn, ?_⟩
  split_ifs at hleft
  · exact (hf conn).symm.trans hleft
  · exact hleft

omit [DecidableEq Target] in
/-- A cell that is not set where it was changed. -/
theorem set_modify {f : Slot Target → Slot Target} (hf : ∀ slot c, (f slot).cell ≠ .Set c) {j c : ℕ}
    (h : ({ w with slots := w.slots.modify i f } : World Target).CellIs j (.Set c)) :
    w.CellIs j (.Set c) := by
  obtain ⟨slot', hslot', hcell⟩ := h
  simp only [List.getElem?_modify, Option.map_eq_map, Option.map_eq_some_iff] at hslot'
  obtain ⟨slot, hslot, rfl⟩ := hslot'
  split_ifs at hcell
  · exact absurd hcell (hf slot c)
  · exact ⟨slot, hslot, hcell⟩

omit [DecidableEq Target] in
/-- What fails where a cell was changed that was not set. -/
theorem fails_modify {f : Slot Target → Slot Target} (hf : ∀ slot, (f slot).failed = slot.failed)
    {cell : Cell} (hcell : w.slots[i]?.map Slot.cell = some cell) (hnot : ∀ c, cell ≠ .Set c)
    {j : ℕ}
    (h : ({ w with slots := w.slots.modify i f } : World Target).Fails j) : w.Fails j := by
  obtain ⟨slot', hslot', hfailed, hset⟩ := h
  simp only [List.getElem?_modify, Option.map_eq_map, Option.map_eq_some_iff] at hslot'
  obtain ⟨slot, hslot, rfl⟩ := hslot'
  refine ⟨slot, hslot, ?_, fun c hc => ?_⟩
  · split_ifs at hfailed
    · exact (hf slot).symm.trans hfailed
    · exact hfailed
  · split_ifs at hset with hij
    · subst hij
      rw [hslot, Option.map_some, Option.some_inj] at hcell
      exact hnot c (hcell.symm.trans hc)
    · exact hset c hc

omit [DecidableEq Target] in
theorem SlotFor.eq {t' : Target} (h : w.SlotFor i t) (h' : w.SlotFor i t') : t = t' := by
  obtain ⟨slot, hslot, rfl⟩ := h
  obtain ⟨slot', hslot', rfl⟩ := h'
  rw [hslot] at hslot'
  cases hslot'
  rfl

omit [DecidableEq Target] in
theorem CellIs.eq {cell cell' : Cell} (h : w.CellIs i cell) (h' : w.CellIs i cell') :
    cell = cell' := by
  obtain ⟨slot, hslot, rfl⟩ := h
  obtain ⟨slot', hslot', rfl⟩ := h'
  rw [hslot] at hslot'
  cases hslot'
  rfl

/-- A connection that has not ended is there. -/
theorem Placed.not_left (h : w.Placed) (hended : w.ended c = false) : ¬ w.Left c := by
  rintro ⟨conn, hconn, hleft⟩
  have := h.left c conn hconn hleft
  rw [World.ended, hconn, Option.map_some, Option.getD_some, this] at hended
  cases hended

theorem Kept.fresh (h : w.Kept) (hs : w.senders[k]? = some s) (hphase : s.phase = .Asks) :
    Kept { w with
      table := w.table.insert s.target w.slots.length
      slots := w.slots ++ [⟨s.target, .Empty, false⟩]
      senders := w.senders.set k { s with phase := .Waits w.slots.length } } := by
  set v : World Target := { w with
    table := w.table.insert s.target w.slots.length
    slots := w.slots ++ [⟨s.target, .Empty, false⟩]
    senders := w.senders.set k { s with phase := .Waits w.slots.length } } with hv
  have hcases : ∀ {j : ℕ} {slot : Slot Target}, v.slots[j]? = some slot →
      w.slots[j]? = some slot ∨ j = w.slots.length ∧ slot = ⟨s.target, .Empty, false⟩ :=
    Fifo.getElem?_concat_cases
  have hnew : ¬ v.Fails w.slots.length ∧ ∀ c, ¬ v.CellIs w.slots.length (.Set c) := by
    constructor
    · rintro ⟨slot, hslot, hfailed, -⟩
      rcases hcases hslot with hold | ⟨-, rfl⟩
      · exact (List.getElem?_eq_some_iff.1 hold).1.false
      · cases hfailed
    · rintro c ⟨slot, hslot, hcell⟩
      rcases hcases hslot with hold | ⟨-, rfl⟩
      · exact (List.getElem?_eq_some_iff.1 hold).1.false
      · cases hcell
  refine h.next hs (fun j hj => List.getElem?_set_ne (Ne.symm hj)) (fun t i hi => ?_)
    (fun i hfail => ?_) (fun i c hcell => ?_) (fun c hc => hc) (fun t i hi => ?_)
    (fun t i c hc => ?_) (fun i c _ hlookup hcell => ?_)
  · rw [hv, Assoc.lookup_insert_apply] at hi
    split_ifs at hi
    · cases hi
      exact .inr ⟨hnew.1, fun c hc => absurd hc (hnew.2 c)⟩
    · exact .inl hi
  · obtain ⟨slot, hslot, hfailed, hset⟩ := hfail
    rcases hcases hslot with hold | ⟨-, rfl⟩
    · exact ⟨slot, hold, hfailed, hset⟩
    · cases hfailed
  · obtain ⟨slot, hslot, hc⟩ := hcell
    rcases hcases hslot with hold | ⟨-, rfl⟩
    · exact ⟨slot, hold, hc⟩
    · cases hc
  · rw [hphase] at hi
    cases hi
  · rw [hphase] at hc
    cases hc
  · rw [hv, Assoc.lookup_insert_apply, if_pos rfl] at hlookup
    cases hlookup
    exact absurd hcell (hnew.2 c)

/-- A dial fails: whoever dialled is to forget the slot. -/
theorem Kept.fails (h : w.Kept) (hs : w.senders[k]? = some s) (hphase : s.phase = .Dials i) :
    (w.dialled k s i false).Kept := by
  set v : World Target := w.dialled k s i false with hv
  have hslots : v.slots = w.slots.modify i fun slot =>
    { slot with cell := .Empty, failed := true } := rfl
  have hself : v.senders[k]? = some { s with phase := .Failed i } := getElem?_set_self hs _
  have hothers : ∀ j, j ≠ k → v.senders[j]? = w.senders[j]? := fun j hj =>
    List.getElem?_set_ne (Ne.symm hj)
  constructor
  · intro t j hlookup hfail
    by_cases hij : i = j
    · exact ⟨k, _, hself, hij ▸ rfl⟩
    · have hold : w.Fails j := by
        obtain ⟨slot, hslot, hfailed, hset⟩ := hfail
        rw [hslots, List.getElem?_modify_ne _ _ hij] at hslot
        exact ⟨slot, hslot, hfailed, hset⟩
      rcases (h.forgotten t j hlookup hold).next hs hothers with hothers | hk
      · exact hothers
      · rw [hphase] at hk
        cases hk
  · intro t j c hlookup hcell hleft
    have hold : w.CellIs j (.Set c) :=
      set_modify (f := fun slot => { slot with cell := .Empty, failed := true })
        (fun _ _ => nofun) hcell
    rcases (h.clean t j c hlookup hold hleft).next hs hothers with hothers | hk | ⟨-, hk | hk⟩
    · exact hothers
    all_goals
      rw [hphase] at hk
      cases hk

/-- A cell is set: whoever set it is still to look at its connection. -/
theorem Kept.fills (h : w.Kept) (hs : w.senders[k]? = some s) (hphase : s.phase = .Fills i c)
    (hcell : w.slots[i]?.map Slot.cell = some (.Filling k)) :
    ((w.fill i (.Set c)).put k { s with phase := .Has i c }).Kept := by
  set v : World Target := (w.fill i (.Set c)).put k { s with phase := .Has i c } with hv
  have hslots : v.slots = w.slots.modify i fun slot => { slot with cell := .Set c } := rfl
  have hself : v.senders[k]? = some { s with phase := .Has i c } := getElem?_set_self hs _
  have hothers : ∀ j, j ≠ k → v.senders[j]? = w.senders[j]? := fun j hj =>
    List.getElem?_set_ne (Ne.symm hj)
  constructor
  · intro t j hlookup hfail
    have hold : w.Fails j := fails_modify (f := fun slot => { slot with cell := .Set c })
      (fun _ => rfl) hcell (fun _ => nofun) hfail
    rcases (h.forgotten t j hlookup hold).next hs hothers with hothers | hk
    · exact hothers
    · rw [hphase] at hk
      cases hk
  · intro t j c' hlookup hset hleft
    by_cases hij : i = j
    · subst hij
      have hc : c' = c := by
        obtain ⟨slot, hslot, hc'⟩ := hset
        rw [hslots, List.getElem?_modify] at hslot
        simp only [if_true, Option.map_eq_map, Option.map_eq_some_iff] at hslot
        obtain ⟨old, -, rfl⟩ := hslot
        cases hc'
        rfl
      exact ⟨k, _, hself, .inl (by rw [hc])⟩
    · have hold : w.CellIs j (.Set c') := by
        obtain ⟨slot, hslot, hc'⟩ := hset
        rw [hslots, List.getElem?_modify_ne _ _ hij] at hslot
        exact ⟨slot, hslot, hc'⟩
      rcases (h.clean t j c' hlookup hold hleft).next hs hothers with hothers | hk | ⟨-, hk | hk⟩
      · exact hothers
      all_goals
        rw [hphase] at hk
        cases hk

/-- A reader leaves: its connection's slot is no more the table's. -/
theorem Kept.leaves (h : w.Kept) (hplaced : w.Placed) {conn : Conn Target}
    (hconn : w.conns[c]? = some conn) : (w.leave c conn).Kept := by
  have hsame : (w.leave c conn).slots = w.slots ∧ (w.leave c conn).senders = w.senders := by
    simp only [leave]
    split
    case h_1 => split_ifs <;> exact ⟨rfl, rfl⟩
    case h_2 => exact ⟨rfl, rfl⟩
  have hconns :
      (w.leave c conn).conns = w.conns.modify c fun conn => { conn with left := true } := by
    simp only [leave]
    split
    case h_1 => split_ifs <;> rfl
    case h_2 => rfl
  have htable : ∀ {t i}, (w.leave c conn).table.lookup t = some i →
      w.table.lookup t = some i ∧ (t = conn.target → ¬ w.CellIs i (.Set c)) := by
    intro t i hlookup
    simp only [leave] at hlookup
    split at hlookup
    case h_1 j hj =>
      split_ifs at hlookup with hget
      · have hold := lookup_erase_imp hlookup
        refine ⟨hold, fun ht => ?_⟩
        rw [ht, show (w.touch c fun conn => { conn with left := true }).table = w.table from rfl,
          Assoc.lookup_erase_apply, if_pos rfl] at hlookup
        cases hlookup
      · refine ⟨hlookup, fun ht hcell => hget ?_⟩
        rw [ht] at hlookup
        have heq : some i = some j := hlookup.symm.trans hj
        cases heq
        obtain ⟨slot, hslot, hc⟩ := hcell
        exact get_eq (by rw [show (w.touch c fun conn => { conn with left := true }).slots = w.slots
          from rfl, hslot, Option.map_some, hc])
    case h_2 hnone =>
      refine ⟨hlookup, fun ht => ?_⟩
      rw [ht] at hlookup
      have heq : some i = none := hlookup.symm.trans hnone
      cases heq
  constructor
  · intro t i hlookup hfail
    obtain ⟨slot, hslot, hfail⟩ := hfail
    obtain ⟨k, s, hs, hphase⟩ := h.forgotten t i (htable hlookup).1 ⟨slot, hsame.1 ▸ hslot, hfail⟩
    exact ⟨k, s, hsame.2 ▸ hs, hphase⟩
  · intro t i c' hlookup hcell hleft
    obtain ⟨hold, hnot⟩ := htable hlookup
    have hcell' : w.CellIs i (.Set c') := by
      obtain ⟨slot, hslot, hc'⟩ := hcell
      exact ⟨slot, hsame.1 ▸ hslot, hc'⟩
    by_cases hc : c' = c
    · subst hc
      refine absurd hcell' (hnot ?_)
      obtain ⟨slot, hslot, hc'⟩ := hcell'
      obtain ⟨conn', hconn', htarget⟩ := hplaced.set i c' slot hslot hc'
      rw [hconn] at hconn'
      cases hconn'
      have hslotFor := hplaced.table t i hold
      rw [htarget]
      exact hslotFor.eq ⟨slot, hslot, rfl⟩
    · have hleft' : w.Left c' := by
        obtain ⟨conn', hconn', hleft⟩ := hleft
        rw [hconns, List.getElem?_modify_ne _ _ (Ne.symm hc)] at hconn'
        exact ⟨conn', hconn', hleft⟩
      obtain ⟨k, s, hs, howes⟩ := h.clean t i c' hold hcell' hleft'
      exact ⟨k, s, hsame.2 ▸ hs, howes⟩

/-- A step of a sender that owes nothing, at a connection. -/
theorem Kept.idle_touch (h : w.Kept) (hs : w.senders[k]? = some s)
    (hidle : (∀ i, s.phase ≠ .Failed i) ∧ (∀ i c, s.phase ≠ .Has i c) ∧ s.phase ≠ .Asks ∧
      ∀ r, s.phase ≠ .Done r) {f : Conn Target → Conn Target}
    (hf : ∀ conn, (f conn).left = conn.left) (s' : Sender Target) :
    ((w.touch c f).put k s').Kept :=
  h.idle hs hidle (fun _ hj => List.getElem?_set_ne (Ne.symm hj)) (fun _ _ hi => hi)
    (fun _ hfail => hfail) (fun _ _ hcell => hcell) fun _ hleft => left_touch (c := c) hf hleft

/-- A step of a sender that looked at its connection. -/
theorem Kept.looks (h : w.Kept) (hplaced : w.Placed) (hs : w.senders[k]? = some s)
    (hphase : s.phase = .Has i c) (s' : Sender Target)
    (hs' : w.ended c = false ∨ s'.target = s.target ∧
      (s'.phase = .Asks ∨ s'.phase = .Done (.error .ConnectionAborted))) : (w.put k s').Kept := by
  refine h.next hs (fun j hj => List.getElem?_set_ne (Ne.symm hj)) (fun t i hi => .inl hi)
    (fun i hfail => hfail) (fun i c hcell => hcell) (fun c hleft => hleft) (fun t i hi => ?_)
    (fun t j c' hc' _ hlookup _ hleft => ?_) (fun j c' hk => ?_)
  · rw [hphase] at hi
    cases hi
  · rw [hphase] at hc'
    cases hc'
    rcases hs' with hended | ⟨htarget, hnext⟩
    · exact absurd hleft (hplaced.not_left hended)
    · have hslot := (hplaced.sender k s hs).slot i (by rw [hphase]; rfl)
      have ht := (hplaced.table t i hlookup).eq hslot
      exact ⟨k, s', getElem?_set_self hs s', .inr ⟨htarget.trans ht.symm, hnext⟩⟩
  · rw [hphase] at hk
    rcases hk with hk | hk <;> cases hk

/-- **Every step keeps what holds of the table.** -/
theorem Kept.step (h : w.Kept) (hplaced : w.Placed) (hmoves : w.Moves w') : w'.Kept := by
  have hidle : ∀ {s : Sender Target}, s.phase.filling.isSome = true ∨ s.phase.given.isSome = true ∨
      (∃ i, s.phase = .Waits i) → (∀ i, s.phase ≠ .Failed i) ∧ (∀ i c, s.phase ≠ .Has i c) ∧
        s.phase ≠ .Asks ∧ ∀ r, s.phase ≠ .Done r := by
    intro s hbusy
    refine ⟨fun i hp => ?_, fun i c hp => ?_, fun hp => ?_, fun r hp => ?_⟩ <;>
      simp [hp, Phase.filling, Phase.given] at hbusy
  cases hmoves with
  | stays => exact h
  | calls target buf =>
    have hgrow : ∀ {k s}, w.senders[k]? = some s →
        (w.senders ++ [w.call target buf])[k]? = some s := fun {k s} hs => by
      rw [List.getElem?_append_left (List.getElem?_eq_some_iff.1 hs).1, hs]
    constructor
    · intro t i hi hfail
      obtain ⟨k, s, hs, hphase⟩ := h.forgotten t i hi hfail
      exact ⟨k, s, hgrow hs, hphase⟩
    · intro t i c hi hcell hleft
      obtain ⟨k, s, hs, howes⟩ := h.clean t i c hi hcell hleft
      exact ⟨k, s, hgrow hs, howes⟩
  | fresh hs hphase _ => exact h.fresh hs hphase
  | @joins k i s hs hphase hlookup hlive =>
    refine h.next hs (fun j hj => List.getElem?_set_ne (Ne.symm hj)) (fun t i hi => .inl hi)
      (fun i hfail => hfail) (fun i c hcell => hcell) (fun c hleft => hleft) (fun t j hj => ?_)
      (fun t j c hc => ?_) (fun j c _ hj hcell hleft => ?_)
    · rw [hphase] at hj
      cases hj
    · rw [hphase] at hc
      cases hc
    · have heq : some j = some i := hj.symm.trans hlookup
      cases heq
      obtain ⟨slot, hslot, hc⟩ := hcell
      have hget : w.get i = some c := get_eq (by
        rw [show w.slots[i]? = some slot from hslot, Option.map_some, hc])
      exact absurd hleft (hplaced.not_left (hlive c hget))
  | gets hs hphase hget =>
    exact h.idle hs (hidle (.inr (.inr ⟨_, hphase⟩)))
      (fun _ hj => List.getElem?_set_ne (Ne.symm hj)) (fun _ _ hi => hi) (fun _ hfail => hfail)
      (fun _ _ hcell => hcell) fun _ hleft => hleft
  | @takes k i s hs hphase hcell =>
    exact h.idle hs (hidle (.inr (.inr ⟨_, hphase⟩)))
      (fun _ hj => List.getElem?_set_ne (Ne.symm hj)) (fun _ _ hi => hi)
      (fun _ hfail => fails_modify (f := fun slot => { slot with cell := .Filling k })
        (fun _ => rfl) hcell (fun _ hset => by cases hset) hfail)
      (fun _ _ hset => set_modify (f := fun slot => { slot with cell := .Filling k })
        (fun _ _ hset => by cases hset) hset) fun _ hleft => hleft
  | @connects k i s hs hphase =>
    refine h.idle hs (hidle (.inl (by rw [hphase]; rfl)))
      (fun _ hj => List.getElem?_set_ne (Ne.symm hj)) (fun _ _ hi => hi) (fun _ hfail => hfail)
      (fun _ _ hcell => hcell) fun c hleft => ?_
    obtain ⟨conn, hconn, hgone⟩ := hleft
    rcases Fifo.getElem?_concat_cases hconn with hconn | ⟨-, rfl⟩
    · exact ⟨conn, hconn, hgone⟩
    · cases hgone
  | fails hs hphase => exact h.fails hs hphase
  | fills hs hphase => exact h.fills hs hphase (hplaced.cell hs (by rw [hphase]; rfl))
  | @forgets k i s hs hphase =>
    have hslot := (hplaced.sender k s hs).slot i (by rw [hphase]; rfl)
    refine h.next hs (fun j hj => ?_) (fun t j hj => .inl (lookup_forget_imp hj))
      (fun j hfail => ?_) (fun j c hcell => ?_) (fun c hleft => ?_) (fun t j hj hlookup => ?_)
      (fun t j c hc => ?_) (fun j c hk => ?_)
    · exact (List.getElem?_set_ne (Ne.symm hj)).trans (by rw [senders_forget])
    · obtain ⟨slot, hslot, hfail⟩ := hfail
      exact ⟨slot, slots_forget (w := w) s.target i ▸ hslot, hfail⟩
    · obtain ⟨slot, hslot, hc⟩ := hcell
      exact ⟨slot, slots_forget (w := w) s.target i ▸ hslot, hc⟩
    · obtain ⟨conn, hconn, hgone⟩ := hleft
      exact ⟨conn, conns_forget (w := w) s.target i ▸ hconn, hgone⟩
    · rw [hphase] at hj
      cases hj
      have hold := lookup_forget_imp hlookup
      have ht := (hplaced.table t i hold).eq hslot
      subst ht
      rw [show ((w.forget s.target i).put k { s with phase := .Done (.error .Dial) }).table =
        (w.forget s.target i).table from rfl, forget, if_pos hold, Assoc.lookup_erase_apply,
        if_pos rfl] at hlookup
      cases hlookup
    · rw [hphase] at hc
      cases hc
    · rw [hphase] at hk
      rcases hk with hk | hk <;> cases hk
  | aborts hs hphase _ _ => exact h.looks hplaced hs hphase _ (.inr ⟨rfl, .inr rfl⟩)
  | redials hs hphase _ _ => exact h.looks hplaced hs hphase _ (.inr ⟨rfl, .inl rfl⟩)
  | @enters k i c s hs hphase hended hlookup =>
    have hset := (hplaced.sender k s hs).has i c (by rw [hphase]; rfl) (by rw [hphase]; rfl)
    have hgone := hplaced.not_left hended
    refine h.next hs (fun j hj => List.getElem?_set_ne (Ne.symm hj)) (fun t j hj => ?_)
      (fun i hfail => hfail) (fun i c hcell => hcell) (fun c hleft => hleft) (fun t j hj => ?_)
      (fun t j c' hc' _ _ _ hleft => ?_) (fun j c' hk => ?_)
    · rw [Assoc.lookup_insert_apply] at hj
      split_ifs at hj
      · cases hj
        refine .inr ⟨?_, fun c' hc' hleft => ?_⟩
        · rintro ⟨slot, hslot, -, hnot⟩
          obtain ⟨slot', hslot', hc⟩ := hset
          have heq : some slot = some slot' := hslot.symm.trans hslot'
          cases heq
          exact hnot c hc
        · have heq : Cell.Set c' = .Set c := CellIs.eq hc' hset
          cases heq
          exact hgone hleft
      · exact .inl hj
    · rw [hphase] at hj
      cases hj
    · rw [hphase] at hc'
      cases hc'
      exact absurd hleft hgone
    · rw [hphase] at hk
      rcases hk with hk | hk <;> cases hk
  | keeps hs hphase hended _ => exact h.looks hplaced hs hphase _ (.inl hended)
  | goes hs hphase hended _ _ => exact h.looks hplaced hs hphase _ (.inl hended)
  | locks hs hphase hconn hlock =>
    refine h.idle_touch hs (hidle (.inr (.inl (by rw [hphase]; rfl)))) (fun conn => ?_) _
    rfl
  | @gives_up k i c s hs hphase =>
    refine h.idle hs (hidle (.inr (.inl (by rw [hphase]; rfl)))) (fun j hj => ?_)
      (fun t j hj => lookup_forget_imp hj) (fun j hfail => ?_) (fun j c hcell => ?_)
      fun c' hleft => ?_
    · refine (List.getElem?_set_ne (Ne.symm hj)).trans ?_
      rw [touch, senders_forget]
    · obtain ⟨slot, hslot, hfail⟩ := hfail
      exact ⟨slot, slots_forget (w := w) s.target i ▸ hslot, hfail⟩
    · obtain ⟨slot, hslot, hc⟩ := hcell
      exact ⟨slot, slots_forget (w := w) s.target i ▸ hslot, hc⟩
    · obtain ⟨conn, hconn, hgone⟩ : (w.forget s.target i).Left c' :=
        left_touch (c := c) (f := fun conn => { conn with lock := none }) (fun _ => rfl) hleft
      exact ⟨conn, conns_forget (w := w) s.target i ▸ hconn, hgone⟩
  | errs hs hphase =>
    refine h.idle_touch hs (hidle (.inr (.inl (by rw [hphase]; rfl)))) (fun conn => ?_) _
    rfl
  | sends hs hphase =>
    refine h.idle_touch hs (hidle (.inr (.inl (by rw [hphase]; rfl)))) (fun conn => ?_) _
    rfl
  | writes hs hphase hconn hleft =>
    refine h.idle_touch hs (hidle (.inr (.inl (by rw [hphase]; rfl)))) (fun conn => ?_) _
    rfl
  | drops hs hphase =>
    refine h.idle hs (hidle ?_) (fun _ hj => List.getElem?_set_ne (Ne.symm hj)) (fun _ _ hi => hi)
      (fun _ hfail => hfail) (fun _ _ hcell => hcell) fun _ hleft => hleft
    rcases hphase with hwaits | ⟨i, c, hlocks⟩
    · exact .inr (.inr hwaits)
    · exact .inr (.inl (by rw [hlocks]; rfl))
  | @stops k i s hs hphase =>
    have hcell := hplaced.cell hs (i := i) (by rw [hphase]; rfl)
    exact h.idle hs (hidle (.inl (by rw [hphase]; rfl)))
      (fun _ hj => List.getElem?_set_ne (Ne.symm hj)) (fun _ _ hi => hi)
      (fun _ hfail => fails_modify (f := fun slot => { slot with cell := .Empty })
        (fun _ => rfl) hcell (fun _ hset => by cases hset) hfail)
      (fun _ _ hset => set_modify (f := fun slot => { slot with cell := .Empty })
        (fun _ _ hset => by cases hset) hset) fun _ hleft => hleft
  | cuts hs hphase =>
    refine h.idle_touch hs (hidle (.inr (.inl (by rw [hphase]; rfl)))) (fun conn => ?_) _
    split_ifs <;> rfl
  | ends c =>
    exact ⟨h.forgotten, fun t i c' hi hcell hleft =>
      h.clean t i c' hi hcell
        (left_touch (c := c) (f := fun conn => { conn with ended := true }) (fun _ => rfl) hleft)⟩
  | leaves hconn _ => exact h.leaves hplaced hconn

end World

end TargetUdp

end Rurge
