import Rurge.Proto.TargetUdp

/-!
# Who has which slot and connection

What one step of a sender or of a reader makes of the table, the cells and the connections, and what
holds of them at all times: each slot and connection is one of its target's, a cell is filled by one
sender at a time, and once it is set it stays so.
-/

namespace Rurge

namespace TargetUdp

namespace World

variable {Target : Type*} [DecidableEq Target] {w w' w'' : World Target} {k i c : ℕ}
  {s s' : Sender Target}

/-! ### What a step does -/

/-- What an action makes of the world, case by case. -/
inductive Moves (w : World Target) : World Target → Prop
  | stays : Moves w w
  | calls (target : Target) (buf : List UInt8) :
      Moves w { w with senders := w.senders ++ [w.call target buf] }
  | fresh {k : ℕ} {s : Sender Target} (hs : w.senders[k]? = some s) (hphase : s.phase = .Asks)
      (hdead : ∀ i, w.table.lookup s.target = some i → ∃ c, w.get i = some c ∧ w.ended c = true) :
      Moves w { w with
        table := w.table.insert s.target w.slots.length
        slots := w.slots ++ [⟨s.target, .Empty, false⟩]
        senders := w.senders.set k { s with phase := .Waits w.slots.length } }
  | joins {k i : ℕ} {s : Sender Target} (hs : w.senders[k]? = some s) (hphase : s.phase = .Asks)
      (hlookup : w.table.lookup s.target = some i)
      (hlive : ∀ c, w.get i = some c → w.ended c = false) :
      Moves w (w.put k { s with phase := .Waits i })
  | gets {k i c : ℕ} {s : Sender Target} (hs : w.senders[k]? = some s)
      (hphase : s.phase = .Waits i) (hget : w.get i = some c) :
      Moves w (w.put k { s with phase := .Has i c })
  | takes {k i : ℕ} {s : Sender Target} (hs : w.senders[k]? = some s)
      (hphase : s.phase = .Waits i) (hcell : w.slots[i]?.map Slot.cell = some .Empty) :
      Moves w ((w.fill i (.Filling k)).put k { s with phase := .Dials i })
  | connects {k i : ℕ} {s : Sender Target} (hs : w.senders[k]? = some s)
      (hphase : s.phase = .Dials i) : Moves w (w.dialled k s i true)
  | fails {k i : ℕ} {s : Sender Target} (hs : w.senders[k]? = some s)
      (hphase : s.phase = .Dials i) : Moves w (w.dialled k s i false)
  | fills {k i c : ℕ} {s : Sender Target} (hs : w.senders[k]? = some s)
      (hphase : s.phase = .Fills i c) :
      Moves w ((w.fill i (.Set c)).put k { s with phase := .Has i c })
  | forgets {k i : ℕ} {s : Sender Target} (hs : w.senders[k]? = some s)
      (hphase : s.phase = .Failed i) :
      Moves w ((w.forget s.target i).put k { s with phase := .Done (.error .Dial) })
  | aborts {k i c : ℕ} {s : Sender Target} (hs : w.senders[k]? = some s)
      (hphase : s.phase = .Has i c) (hended : w.ended c = true) (hredialled : s.redialled = true) :
      Moves w (w.put k { s with phase := .Done (.error .ConnectionAborted) })
  | redials {k i c : ℕ} {s : Sender Target} (hs : w.senders[k]? = some s)
      (hphase : s.phase = .Has i c) (hended : w.ended c = true) (hredialled : s.redialled = false) :
      Moves w (w.put k { s with phase := .Asks, redialled := true, redials := s.redials + 1 })
  | enters {k i c : ℕ} {s : Sender Target} (hs : w.senders[k]? = some s)
      (hphase : s.phase = .Has i c) (hended : w.ended c = false)
      (hlookup : w.table.lookup s.target = none) :
      Moves w { w with
        table := w.table.insert s.target i
        senders := w.senders.set k { s with phase := .Locks i c } }
  | keeps {k i c : ℕ} {s : Sender Target} (hs : w.senders[k]? = some s)
      (hphase : s.phase = .Has i c) (hended : w.ended c = false)
      (hlookup : w.table.lookup s.target = some i) :
      Moves w (w.put k { s with phase := .Locks i c })
  | goes {k i j c : ℕ} {s : Sender Target} (hs : w.senders[k]? = some s)
      (hphase : s.phase = .Has i c) (hended : w.ended c = false)
      (hlookup : w.table.lookup s.target = some j) (hne : j ≠ i) :
      Moves w (w.put k { s with phase := .Asks })
  | locks {k i c : ℕ} {s : Sender Target} {conn : Conn Target} (hs : w.senders[k]? = some s)
      (hphase : s.phase = .Locks i c) (hconn : w.conns[c]? = some conn) (hlock : conn.lock = none) :
      Moves w ((w.touch c fun conn => { conn with lock := some k }).put k
        { s with phase := .Writes i c (w.carrier.frame s.buf) })
  | gives_up {k i c : ℕ} {s : Sender Target} (hs : w.senders[k]? = some s)
      (hphase : s.phase = .Forgets i c) :
      Moves w (((w.forget s.target i).touch c fun conn => { conn with lock := none }).put k
        { s with phase := .Done (.error .Write) })
  | errs {k i c : ℕ} {left : List UInt8} {s : Sender Target} (hs : w.senders[k]? = some s)
      (hphase : s.phase = .Writes i c left) :
      Moves w ((w.touch c fun conn => { conn with cut := true }).put k
        { s with phase := .Forgets i c })
  | sends {k i c : ℕ} {s : Sender Target} (hs : w.senders[k]? = some s)
      (hphase : s.phase = .Writes i c []) :
      Moves w ((w.touch c fun conn => { conn with lock := none, sent := conn.sent ++ [k] }).put k
        { s with phase := .Done (.ok ()) })
  | writes {k i c room : ℕ} {left : List UInt8} {s : Sender Target} {conn : Conn Target}
      (hs : w.senders[k]? = some s) (hphase : s.phase = .Writes i c left)
      (hconn : w.conns[c]? = some conn) (hleft : left ≠ []) :
      Moves w ((w.touch c fun other =>
        { other with writer := (poll_write w.carrier conn.writer left room).1 }).put k
        { s with
          phase := .Writes i c
            (left.drop ((poll_write w.carrier conn.writer left room).2.getD 0)) })
  | drops {k : ℕ} {s : Sender Target} (hs : w.senders[k]? = some s)
      (hphase : (∃ i, s.phase = .Waits i) ∨ ∃ i c, s.phase = .Locks i c) :
      Moves w (w.put k { s with phase := .Dropped })
  | stops {k i : ℕ} {s : Sender Target} (hs : w.senders[k]? = some s)
      (hphase : s.phase = .Dials i) : Moves w ((w.fill i .Empty).put k { s with phase := .Dropped })
  | cuts {k i c : ℕ} {left : List UInt8} {s : Sender Target} (hs : w.senders[k]? = some s)
      (hphase : s.phase = .Writes i c left) : Moves w (w.cut k s c left)
  | ends (c : ℕ) : Moves w (w.touch c fun conn => { conn with ended := true })
  | leaves {c : ℕ} {conn : Conn Target} (hconn : w.conns[c]? = some conn)
      (hended : conn.ended = true) : Moves w (w.leave c conn)

theorem slot_moves (hs : w.senders[k]? = some s) (hphase : s.phase = .Asks) :
    w.Moves (w.slot k s) := by
  have hdead : ∀ {i}, (w.get i).any w.ended = true →
      ∃ c, w.get i = some c ∧ w.ended c = true := fun {i} hany => by
    cases hget : w.get i with
    | none => simp [hget] at hany
    | some c => exact ⟨c, rfl, by simpa [hget] using hany⟩
  unfold slot
  split
  case h_1 i hlookup =>
    split_ifs with hany
    · exact .fresh hs hphase fun j hj => by
        rw [hlookup] at hj
        cases hj
        exact hdead hany
    · refine .joins hs hphase hlookup fun c hget => ?_
      simpa [hget] using hany
  case h_2 hlookup =>
    refine .fresh hs hphase fun j hj => ?_
    rw [hlookup] at hj
    cases hj

theorem check_moves (hs : w.senders[k]? = some s) (hphase : s.phase = .Has i c) :
    w.Moves (w.check k s i c) := by
  unfold check
  split_ifs with hended hredialled
  · exact .aborts hs hphase hended hredialled
  · exact .redials hs hphase hended (Bool.eq_false_iff.2 hredialled)
  · have hended := Bool.eq_false_iff.2 hended
    split
    case h_1 hlookup => exact .enters hs hphase hended hlookup
    case h_2 j hlookup =>
      split_ifs with hji
      · exact .keeps hs hphase hended (hji ▸ hlookup)
      · exact .goes hs hphase hended hlookup hji

omit [DecidableEq Target] in
theorem get_eq (hcell : w.slots[i]?.map Slot.cell = some (.Set c)) : w.get i = some c := by
  rw [get, hcell]

theorem poll_moves (hs : w.senders[k]? = some s) : w.Moves (w.poll k s) := by
  unfold poll
  split
  case h_1 hphase => exact slot_moves hs hphase
  case h_2 i hphase =>
    unfold wait
    split
    case h_1 c hcell => exact .gets hs hphase (get_eq hcell)
    case h_2 hcell => exact .takes hs hphase hcell
    case h_3 => exact .stays
  case h_3 i c hphase => exact .fills hs hphase
  case h_4 i hphase => exact .forgets hs hphase
  case h_5 i c hphase => exact check_moves hs hphase
  case h_6 i c hphase =>
    split
    case h_1 hlock =>
      obtain ⟨conn, hconn, hlock⟩ := Option.map_eq_some_iff.1 hlock
      exact .locks hs hphase hconn hlock
    case h_2 => exact .stays
  case h_7 i c hphase => exact .gives_up hs hphase
  case h_8 => exact .stays

theorem write_moves (hs : w.senders[k]? = some s) {left : List UInt8} {conn : Conn Target}
    (hphase : s.phase = .Writes i c left) (hconn : w.conns[c]? = some conn) (room : Option ℕ) :
    w.Moves (w.write k s i c left conn room) := by
  unfold write
  split
  case h_1 => exact .errs hs hphase
  case h_2 room =>
    split_ifs with hleft
    · exact .stays
    · exact .sends hs (hleft ▸ hphase)
    · exact .writes hs hphase hconn hleft

theorem drop_moves (hs : w.senders[k]? = some s) : w.Moves (w.drop k s) := by
  unfold drop
  split
  case h_1 i hphase => exact .drops hs (.inl ⟨i, hphase⟩)
  case h_2 i c hphase => exact .drops hs (.inr ⟨i, c, hphase⟩)
  case h_3 i hphase => exact .stops hs hphase
  case h_4 i c left hphase => exact .cuts hs hphase
  case h_5 => exact .stays

theorem moves (w : World Target) (a : Action Target) : w.Moves (w.step a) := by
  cases a with
  | send_to target buf => exact .calls target buf
  | poll k =>
    simp only [step]
    split
    case h_1 s hs => exact poll_moves hs
    case h_2 => exact .stays
  | dialled k ok =>
    simp only [step]
    split
    case h_1 s hs =>
      split
      case h_1 i hphase =>
        cases ok with
        | true => exact .connects hs hphase
        | false => exact .fails hs hphase
      case h_2 => exact .stays
    case h_2 => exact .stays
  | write k room =>
    simp only [step]
    split
    case h_1 s hs =>
      split
      case h_1 i c left hphase =>
        split
        case h_1 conn hconn => exact write_moves hs hphase hconn room
        case h_2 => exact .stays
      case h_2 => exact .stays
    case h_2 => exact .stays
  | drop k =>
    simp only [step]
    split
    case h_1 s hs => exact drop_moves hs
    case h_2 => exact .stays
  | ends c => exact .ends c
  | leaves c =>
    simp only [step]
    split
    case h_1 conn hconn =>
      split_ifs with hleft
      · exact .leaves hconn (Bool.and_eq_true_iff.1 hleft).1
      · exact .stays
    case h_2 => exact .stays

/-! ### What stays as it is -/

/-- What stays as it is where only the sender `k` makes a step: slots and connections keep their
targets, a cell that is set stays set, and one that another sender fills is its own. -/
structure Frame (w w' : World Target) (k : ℕ) : Prop where
  slot : ∀ (i : ℕ) (slot : Slot Target), w.slots[i]? = some slot → ∃ slot' : Slot Target,
    w'.slots[i]? = some slot' ∧ slot'.target = slot.target ∧
      (∀ c, slot.cell = .Set c → slot'.cell = .Set c) ∧
      ∀ j, j ≠ k → slot.cell = .Filling j → slot'.cell = .Filling j
  conn : ∀ (c : ℕ) (conn : Conn Target), w.conns[c]? = some conn → ∃ conn' : Conn Target,
    w'.conns[c]? = some conn' ∧ conn'.target = conn.target ∧
      (conn.ended = true → conn'.ended = true)
  others : ∀ j, j ≠ k → w'.senders[j]? = w.senders[j]?

omit [DecidableEq Target] in
theorem Frame.trans (h : Frame w w' k) (h' : Frame w' w'' k) : Frame w w'' k where
  slot := fun i slot hslot => by
    obtain ⟨slot', hslot', htarget, hset, hfilling⟩ := h.slot i slot hslot
    obtain ⟨slot'', hslot'', htarget', hset', hfilling'⟩ := h'.slot i slot' hslot'
    exact ⟨slot'', hslot'', htarget'.trans htarget, fun c hc => hset' c (hset c hc),
      fun j hj hc => hfilling' j hj (hfilling j hj hc)⟩
  conn := fun c conn hconn => by
    obtain ⟨conn', hconn', htarget, hended⟩ := h.conn c conn hconn
    obtain ⟨conn'', hconn'', htarget', hended'⟩ := h'.conn c conn' hconn'
    exact ⟨conn'', hconn'', htarget'.trans htarget, fun he => hended' (hended he)⟩
  others := fun j hj => (h'.others j hj).trans (h.others j hj)

omit [DecidableEq Target] in
/-- Nothing of the slots and the connections changes. -/
theorem Frame.of_eq (hslots : w'.slots = w.slots) (hconns : w'.conns = w.conns)
    (hothers : ∀ j, j ≠ k → w'.senders[j]? = w.senders[j]?) : Frame w w' k where
  slot := fun _ slot hslot => ⟨slot, hslots ▸ hslot, rfl, fun _ hc => hc, fun _ _ hc => hc⟩
  conn := fun _ conn hconn => ⟨conn, hconns ▸ hconn, rfl, fun he => he⟩
  others := hothers

omit [DecidableEq Target] in
theorem Frame.refl (w : World Target) (k : ℕ) : Frame w w k := .of_eq rfl rfl fun _ _ => rfl

omit [DecidableEq Target] in
theorem frame_put (w : World Target) (k : ℕ) (s' : Sender Target) : Frame w (w.put k s') k :=
  .of_eq rfl rfl fun _ hj => List.getElem?_set_ne (Ne.symm hj)

theorem frame_forget (w : World Target) (t : Target) (i k : ℕ) : Frame w (w.forget t i) k := by
  unfold forget
  split_ifs
  · exact .of_eq rfl rfl fun _ _ => rfl
  · exact .refl w k

omit [DecidableEq Target] in
/-- A cell that `k` may change: nobody fills it, or `k` does. -/
theorem frame_fill {cell : Cell} {f : Slot Target → Slot Target}
    (hf : ∀ slot, (f slot).target = slot.target)
    (hcell : w.slots[i]?.map Slot.cell = some cell) (hmine : cell = .Empty ∨ cell = .Filling k) :
    Frame w { w with slots := w.slots.modify i f } k where
  slot := fun j slot hslot => by
    refine ⟨if i = j then f slot else slot, ?_, ?_, fun _ hc => ?_, fun _ hj' hc => ?_⟩
    · simp only [List.getElem?_modify, hslot, Option.map_eq_map, Option.map_some]
    · split_ifs
      · exact hf slot
      · rfl
    · split_ifs with hij
      · subst hij
        rw [hslot, Option.map_some, Option.some_inj] at hcell
        rw [hcell] at hc
        rcases hmine with h | h <;> rw [h] at hc <;> cases hc
      · exact hc
    · split_ifs with hij
      · subst hij
        rw [hslot, Option.map_some, Option.some_inj] at hcell
        rw [hcell] at hc
        rcases hmine with h | h
        · rw [h] at hc
          cases hc
        · rw [h] at hc
          cases hc
          exact absurd rfl hj'
      · exact hc
  conn := fun c conn hconn => ⟨conn, hconn, rfl, fun he => he⟩
  others := fun _ _ => rfl

omit [DecidableEq Target] in
theorem frame_touch (w : World Target) (c k : ℕ) {f : Conn Target → Conn Target}
    (hf : ∀ conn, (f conn).target = conn.target ∧ (conn.ended = true → (f conn).ended = true)) :
    Frame w (w.touch c f) k where
  slot := fun i slot hslot => ⟨slot, hslot, rfl, fun _ hc => hc, fun _ _ hc => hc⟩
  conn := fun c' conn hconn => by
    refine ⟨if c = c' then f conn else conn, ?_, ?_⟩
    · simp only [touch, List.getElem?_modify, hconn, Option.map_eq_map, Option.map_some]
    · split_ifs
      · exact hf conn
      · exact ⟨rfl, fun he => he⟩
  others := fun _ _ => rfl

/-! ### Who has which slot and connection -/

end World

/-- The slot a sender is at. -/
def Phase.slot : Phase → Option ℕ
  | .Waits i | .Dials i | .Fills i _ | .Failed i => some i
  | .Has i _ | .Locks i _ | .Writes i _ _ | .Forgets i _ => some i
  | _ => none

/-- The slot whose cell a sender fills. -/
def Phase.filling : Phase → Option ℕ
  | .Dials i | .Fills i _ => some i
  | _ => none

/-- The connection a sender has of its slot's cell. -/
def Phase.conn : Phase → Option ℕ
  | .Has _ c | .Locks _ c | .Writes _ c _ | .Forgets _ c => some c
  | _ => none

/-- The connection a sender was given to write on. -/
def Phase.given : Phase → Option ℕ
  | .Locks _ c | .Writes _ c _ | .Forgets _ c => some c
  | _ => none

namespace World

variable {Target : Type*} [DecidableEq Target] {w w' w'' : World Target} {k i c : ℕ}
  {s s' : Sender Target}

/-- The slot `i` is one for the target. -/
def SlotFor (w : World Target) (i : ℕ) (target : Target) : Prop :=
  ∃ slot : Slot Target, w.slots[i]? = some slot ∧ slot.target = target

/-- The cell of the slot `i`. -/
def CellIs (w : World Target) (i : ℕ) (cell : Cell) : Prop :=
  ∃ slot : Slot Target, w.slots[i]? = some slot ∧ slot.cell = cell

/-- The connection `c` is one to the target. -/
def ConnTo (w : World Target) (c : ℕ) (target : Target) : Prop :=
  ∃ conn : Conn Target, w.conns[c]? = some conn ∧ conn.target = target

/-- What holds of a sender at all times. -/
structure SenderOk (w : World Target) (k : ℕ) (s : Sender Target) : Prop where
  slot : ∀ i, s.phase.slot = some i → w.SlotFor i s.target
  /-- it fills the cell alone -/
  filling : ∀ i, s.phase.filling = some i → w.CellIs i (.Filling k)
  fills : ∀ i c, s.phase = .Fills i c → w.ConnTo c s.target
  has : ∀ i c, s.phase.slot = some i → s.phase.conn = some c → w.CellIs i (.Set c)
  redials : s.redials = if s.redialled then 1 else 0
  dead : ∀ c ∈ s.dead, w.ended c = true
  /-- what it was given had not ended when it came -/
  given : ∀ c, s.phase.given = some c → c ∉ s.dead

omit [DecidableEq Target] in
theorem Frame.ended (h : Frame w w' k) (hended : w.ended c = true) : w'.ended c = true := by
  cases hconn : w.conns[c]? with
  | none => simp [World.ended, hconn] at hended
  | some conn =>
    obtain ⟨conn', hconn', -, he⟩ := h.conn c conn hconn
    have : conn.ended = true := by simpa [World.ended, hconn] using hended
    simpa [World.ended, hconn'] using he this

omit [DecidableEq Target] in
theorem Frame.slotFor (h : Frame w w' k) {t : Target} (hslot : w.SlotFor i t) : w'.SlotFor i t := by
  obtain ⟨slot, hslot, ht⟩ := hslot
  obtain ⟨slot', hslot', htarget, -⟩ := h.slot i slot hslot
  exact ⟨slot', hslot', htarget.trans ht⟩

omit [DecidableEq Target] in
theorem Frame.set (h : Frame w w' k) (hcell : w.CellIs i (.Set c)) : w'.CellIs i (.Set c) := by
  obtain ⟨slot, hslot, hc⟩ := hcell
  obtain ⟨slot', hslot', -, hset, -⟩ := h.slot i slot hslot
  exact ⟨slot', hslot', hset c hc⟩

omit [DecidableEq Target] in
theorem Frame.connTo (h : Frame w w' k) {t : Target} (hconn : w.ConnTo c t) : w'.ConnTo c t := by
  obtain ⟨conn, hconn, ht⟩ := hconn
  obtain ⟨conn', hconn', htarget, -⟩ := h.conn c conn hconn
  exact ⟨conn', hconn', htarget.trans ht⟩

omit [DecidableEq Target] in
/-- What holds of the others stays. -/
theorem SenderOk.frame (hframe : Frame w w' k) {j : ℕ} (hj : j ≠ k) (h : w.SenderOk j s) :
    w'.SenderOk j s where
  slot := fun i hi => hframe.slotFor (h.slot i hi)
  filling := fun i hi => by
    obtain ⟨slot, hslot, hc⟩ := h.filling i hi
    obtain ⟨slot', hslot', -, -, hfilling⟩ := hframe.slot i slot hslot
    exact ⟨slot', hslot', hfilling j hj hc⟩
  fills := fun i c hc => hframe.connTo (h.fills i c hc)
  has := fun i c hi hc => hframe.set (h.has i c hi hc)
  redials := h.redials
  dead := fun c hc => hframe.ended (h.dead c hc)
  given := h.given

omit [DecidableEq Target] in
theorem SenderOk.congr (h : w.SenderOk k s) (hslots : w'.slots = w.slots)
    (hconns : w'.conns = w.conns) : w'.SenderOk k s := by
  obtain ⟨hslot, hfilling, hfills, hhas, hredials, hdead, hgiven⟩ := h
  simp only [SlotFor, CellIs, ConnTo, ← hslots, ← hconns] at hslot hfilling hfills
  simp only [CellIs, World.ended, ← hslots, ← hconns] at hhas hdead
  exact ⟨hslot, hfilling, hfills, hhas, hredials, hdead, hgiven⟩

/-- What holds of the table, the senders, the cells and the connections at all times. -/
structure Placed (w : World Target) : Prop where
  table : ∀ t i, w.table.lookup t = some i → w.SlotFor i t
  sender : ∀ (k : ℕ) (s : Sender Target), w.senders[k]? = some s → w.SenderOk k s
  set : ∀ (i c : ℕ) (slot : Slot Target), w.slots[i]? = some slot → slot.cell = .Set c →
    w.ConnTo c slot.target
  left : ∀ (c : ℕ) (conn : Conn Target), w.conns[c]? = some conn → conn.left = true →
    conn.ended = true

/-- A step of the sender `k`: the table has nothing new but slots of their targets, and the cells
and connections are those of before but for what is shown. -/
theorem Placed.next (h : w.Placed) (hframe : Frame w w' k)
    (htable : ∀ t i, w'.table.lookup t = some i → w.table.lookup t = some i ∨ w'.SlotFor i t)
    (hsender : ∀ s', w'.senders[k]? = some s' → w'.SenderOk k s')
    (hset : ∀ (i c : ℕ) (slot : Slot Target), w'.slots[i]? = some slot → slot.cell = .Set c →
      (∃ old : Slot Target, w.slots[i]? = some old ∧ old.cell = .Set c ∧
        old.target = slot.target) ∨ w'.ConnTo c slot.target)
    (hleft : ∀ (c : ℕ) (conn : Conn Target), w'.conns[c]? = some conn → conn.left = true →
      conn.ended = true) : w'.Placed where
  table := fun t i hlookup => by
    rcases htable t i hlookup with hold | hnew
    · exact hframe.slotFor (h.table t i hold)
    · exact hnew
  sender := fun j s hs => by
    by_cases hj : j = k
    · subst hj
      exact hsender s hs
    · rw [hframe.others j hj] at hs
      exact (h.sender j s hs).frame hframe hj
  set := fun i c slot hslot hc => by
    rcases hset i c slot hslot hc with ⟨old, hold, hc, htarget⟩ | hnew
    · rw [← htarget]
      exact hframe.connTo (h.set i c old hold hc)
    · exact hnew
  left := hleft

omit [DecidableEq Target] in
/-- A sender in another phase. -/
theorem SenderOk.go (h : w.SenderOk k s) (hframe : Frame w w' k) {phase : Phase}
    (hslot : ∀ i, phase.slot = some i → w'.SlotFor i s.target)
    (hfilling : ∀ i, phase.filling = some i → w'.CellIs i (.Filling k))
    (hfills : ∀ i c, phase = .Fills i c → w'.ConnTo c s.target)
    (hhas : ∀ i c, phase.slot = some i → phase.conn = some c → w'.CellIs i (.Set c))
    (hgiven : ∀ c, phase.given = some c → c ∉ s.dead) :
    w'.SenderOk k { s with phase := phase } where
  slot := hslot
  filling := hfilling
  fills := hfills
  has := hhas
  redials := h.redials
  dead := fun c hc => hframe.ended (h.dead c hc)
  given := hgiven

omit [DecidableEq Target] in
/-- A sender that goes on with the slot and the connection it has. -/
theorem SenderOk.keep (h : w.SenderOk k s) (hframe : Frame w w' k) {phase : Phase}
    (hslot : ∀ i, phase.slot = some i → s.phase.slot = some i) (hfilling : phase.filling = none)
    (hconn : ∀ c, phase.conn = some c → s.phase.conn = some c)
    (hgiven : ∀ c, phase.given = some c → c ∉ s.dead) :
    w'.SenderOk k { s with phase := phase } := by
  refine h.go hframe (fun i hi => hframe.slotFor (h.slot i (hslot i hi))) (fun i hi => ?_)
    (fun i c hc => ?_) (fun i c hi hc => hframe.set (h.has i c (hslot i hi) (hconn c hc))) hgiven
  · rw [hfilling] at hi
    cases hi
  · rw [hc] at hfilling
    cases hfilling

theorem Placed.cell (h : w.Placed) (hs : w.senders[k]? = some s) (hi : s.phase.filling = some i) :
    w.slots[i]?.map Slot.cell = some (.Filling k) := by
  obtain ⟨slot, hslot, hc⟩ := (h.sender k s hs).filling i hi
  rw [hslot, Option.map_some, hc]

theorem lookup_erase_imp {t t' : Target} {i : ℕ} {table : Assoc Target ℕ}
    (h : (table.erase t).lookup t' = some i) : table.lookup t' = some i := by
  rw [Assoc.lookup_erase_apply] at h
  split_ifs at h
  exact h

theorem lookup_forget_imp {t t' : Target} {i j : ℕ}
    (h : (w.forget t i).table.lookup t' = some j) : w.table.lookup t' = some j := by
  unfold forget at h
  split_ifs at h
  · exact lookup_erase_imp h
  · exact h

@[simp] theorem slots_forget (t : Target) (i : ℕ) : (w.forget t i).slots = w.slots := by
  unfold forget
  split_ifs <;> rfl

@[simp] theorem conns_forget (t : Target) (i : ℕ) : (w.forget t i).conns = w.conns := by
  unfold forget
  split_ifs <;> rfl

@[simp] theorem senders_forget (t : Target) (i : ℕ) : (w.forget t i).senders = w.senders := by
  unfold forget
  split_ifs <;> rfl

/-- A step of a sender that changes no cell. -/
theorem Placed.go (h : w.Placed) (hframe : Frame w w' k) (hslots : w'.slots = w.slots)
    (hconns : ∀ (c : ℕ) (conn' : Conn Target), w'.conns[c]? = some conn' →
      ∃ conn : Conn Target, w.conns[c]? = some conn ∧ conn'.left = conn.left ∧
        conn'.ended = conn.ended)
    (htable : ∀ t i, w'.table.lookup t = some i → w.table.lookup t = some i ∨ w'.SlotFor i t)
    (hsender : w'.senders[k]? = some s') (hok : w'.SenderOk k s') : w'.Placed := by
  refine h.next hframe htable (fun s hs => ?_) (fun i c slot hslot hc => ?_)
    fun c conn' hconn' => ?_
  · rw [hsender] at hs
    cases hs
    exact hok
  · exact .inl ⟨slot, hslots ▸ hslot, hc, rfl⟩
  · obtain ⟨conn, hconn, hleft, hended⟩ := hconns c conn' hconn'
    rw [hleft, hended]
    exact h.left c conn hconn

omit [DecidableEq Target] in
theorem conns_touch {f : Conn Target → Conn Target}
    (hf : ∀ conn, (f conn).left = conn.left ∧ (f conn).ended = conn.ended) (c' : ℕ)
    (conn' : Conn Target) (hconn' : (w.touch c f).conns[c']? = some conn') :
    ∃ conn : Conn Target, w.conns[c']? = some conn ∧ conn'.left = conn.left ∧
      conn'.ended = conn.ended := by
  simp only [touch, List.getElem?_modify, Option.map_eq_map, Option.map_eq_some_iff] at hconn'
  obtain ⟨conn, hconn, rfl⟩ := hconn'
  refine ⟨conn, hconn, ?_⟩
  split_ifs
  · exact hf conn
  · exact ⟨rfl, rfl⟩

omit [DecidableEq Target] in
theorem getElem?_set_self (hs : w.senders[k]? = some s) (s' : Sender Target) :
    (w.senders.set k s')[k]? = some s' :=
  List.getElem?_set_self (List.getElem?_eq_some_iff.1 hs).1

/-- A sender of which only the phase changes, with the slot and connection it has. -/
theorem Placed.put (h : w.Placed) (hs : w.senders[k]? = some s) (hok : w.SenderOk k s') :
    (w.put k s').Placed := by
  refine h.go (frame_put w k s') rfl (fun c conn hconn => ⟨conn, hconn, rfl, rfl⟩)
    (fun t i hi => .inl hi) (getElem?_set_self hs s') ?_
  exact ⟨hok.slot, hok.filling, hok.fills, hok.has, hok.redials, hok.dead, hok.given⟩

/-- A step of a sender at a connection. -/
theorem Placed.put_touch (h : w.Placed) (hs : w.senders[k]? = some s)
    {f : Conn Target → Conn Target}
    (hf : ∀ conn, (f conn).target = conn.target ∧ (f conn).left = conn.left ∧
      (f conn).ended = conn.ended)
    (hok : ∀ {v : World Target}, Frame w v k → v.SenderOk k s') :
    ((w.touch c f).put k s').Placed := by
  have hframe : Frame w ((w.touch c f).put k s') k :=
    (frame_touch w c k fun conn => ⟨(hf conn).1, fun he => (hf conn).2.2.trans he⟩).trans
      (frame_put _ k s')
  exact h.go hframe rfl (conns_touch fun conn => (hf conn).2) (fun t i hi => .inl hi)
    (getElem?_set_self hs s') (hok hframe)

/-- A sender that goes on with the slot and the connection it has. -/
theorem Placed.keep (h : w.Placed) (hs : w.senders[k]? = some s) {phase : Phase}
    (hslot : ∀ i, phase.slot = some i → s.phase.slot = some i) (hfilling : phase.filling = none)
    (hconn : ∀ c, phase.conn = some c → s.phase.conn = some c)
    (hgiven : ∀ c, phase.given = some c → c ∉ s.dead) :
    (w.put k { s with phase := phase }).Placed :=
  h.put hs ((h.sender k s hs).keep (.refl w k) hslot hfilling hconn hgiven)

/-- The cell that a sender fills is changed, or one that nobody fills. -/
theorem Placed.modify (h : w.Placed) (hs : w.senders[k]? = some s) {cell : Cell}
    {f : Slot Target → Slot Target} (hf : ∀ slot, (f slot).target = slot.target)
    (hcell : w.slots[i]?.map Slot.cell = some cell) (hmine : cell = .Empty ∨ cell = .Filling k)
    (hnew : ∀ slot : Slot Target, w.slots[i]? = some slot → ∀ c, (f slot).cell = .Set c →
      w.ConnTo c slot.target)
    (hok : ({ w with slots := w.slots.modify i f, senders := w.senders.set k s' } :
      World Target).SenderOk k s') :
    Placed { w with slots := w.slots.modify i f, senders := w.senders.set k s' } := by
  have hframe : Frame w { w with slots := w.slots.modify i f, senders := w.senders.set k s' } k :=
    (frame_fill hf hcell hmine).trans (frame_put _ k s')
  refine h.next hframe (fun t j hj => .inl hj) (fun t ht => ?_) (fun j c slot hslot hc => ?_)
    h.left
  · rw [show ({ w with slots := w.slots.modify i f, senders := w.senders.set k s' } :
      World Target).senders[k]? = some s' from getElem?_set_self hs s'] at ht
    cases ht
    exact hok
  · simp only [List.getElem?_modify, Option.map_eq_map, Option.map_eq_some_iff] at hslot
    obtain ⟨old, hold, rfl⟩ := hslot
    split_ifs at hc ⊢ with hij
    · subst hij
      rw [hf]
      exact .inr (hframe.connTo (hnew old hold c hc))
    · exact .inl ⟨old, hold, hc, rfl⟩

omit [DecidableEq Target] in
theorem cellIs_modify {f : Slot Target → Slot Target} (hslot : ∃ t, w.SlotFor i t) {cell : Cell}
    (hf : ∀ slot, (f slot).cell = cell) (senders : List (Sender Target)) :
    ({ w with slots := w.slots.modify i f, senders := senders } : World Target).CellIs i cell := by
  obtain ⟨t, slot, hslot, -⟩ := hslot
  exact ⟨f slot, by simp [hslot], hf slot⟩

theorem placed_new (carrier : Carrier) : (new carrier : World Target).Placed where
  table := fun t i h => by cases h
  sender := fun k s h => by cases h
  set := fun i c slot h => by cases h
  left := fun c conn h => by cases h

/-- A datagram comes. -/
theorem Placed.calls (h : w.Placed) (target : Target) (buf : List UInt8) :
    Placed { w with senders := w.senders ++ [w.call target buf] } := by
  have hframe :
      Frame w { w with senders := w.senders ++ [w.call target buf] } w.senders.length := by
    refine .of_eq rfl rfl fun j hj => ?_
    rw [List.getElem?_append]
    split_ifs with hlt
    · rfl
    · rw [List.getElem?_eq_none (by simpa using by omega), List.getElem?_eq_none (by omega)]
  refine h.go hframe rfl (fun c conn hconn => ⟨conn, hconn, rfl, rfl⟩) (fun t i hi => .inl hi)
    (List.getElem?_concat_length ..) ?_
  have hslot : (w.call target buf).phase.slot = none := by
    simp only [call]
    split_ifs <;> rfl
  have hfilling : (w.call target buf).phase.filling = none := by
    simp only [call]
    split_ifs <;> rfl
  have hgiven : (w.call target buf).phase.given = none := by
    simp only [call]
    split_ifs <;> rfl
  refine ⟨fun i hi => ?_, fun i hi => ?_, fun i c hc => ?_, fun i c hi => ?_, rfl, fun c hc => ?_,
    fun c hc => ?_⟩
  · rw [hslot] at hi
    cases hi
  · rw [hfilling] at hi
    cases hi
  · rw [hc] at hfilling
    cases hfilling
  · rw [hslot] at hi
    cases hi
  · exact (List.mem_filter.1 hc).2
  · rw [hgiven] at hc
    cases hc

/-- A new slot for the sender's target. -/
theorem Placed.fresh (h : w.Placed) (hs : w.senders[k]? = some s) :
    Placed { w with
      table := w.table.insert s.target w.slots.length
      slots := w.slots ++ [⟨s.target, .Empty, false⟩]
      senders := w.senders.set k { s with phase := .Waits w.slots.length } } := by
  set v : World Target := { w with
    table := w.table.insert s.target w.slots.length
    slots := w.slots ++ [⟨s.target, .Empty, false⟩]
    senders := w.senders.set k { s with phase := .Waits w.slots.length } } with hv
  have hframe : Frame w v k := by
    refine ⟨fun i slot hslot => ⟨slot, ?_, rfl, fun _ hc => hc, fun _ _ hc => hc⟩,
      fun c conn hconn => ⟨conn, hconn, rfl, fun he => he⟩,
      fun j hj => List.getElem?_set_ne (Ne.symm hj)⟩
    rw [hv, List.getElem?_append_left (List.getElem?_eq_some_iff.1 hslot).1, hslot]
  have hnew : v.SlotFor w.slots.length s.target :=
    ⟨_, List.getElem?_concat_length .., rfl⟩
  refine h.next hframe (fun t i hi => ?_) (fun s' hs' => ?_) (fun i c slot hslot hc => ?_) h.left
  · rw [hv, Assoc.lookup_insert_apply] at hi
    split_ifs at hi with ht
    · cases hi
      rw [ht]
      exact .inr hnew
    · exact .inl hi
  · rw [hv, getElem?_set_self hs] at hs'
    cases hs'
    refine (h.sender k s hs).go hframe (fun i hi => ?_) (fun i => nofun) (fun i c => nofun)
      (fun i c _ => nofun) (fun c => nofun)
    cases hi
    exact hnew
  · rcases Fifo.getElem?_concat_cases hslot with hslot | ⟨-, rfl⟩
    · exact .inl ⟨slot, hslot, hc, rfl⟩
    · cases hc

/-- A dial is through. -/
theorem Placed.connects (h : w.Placed) (hs : w.senders[k]? = some s)
    (hphase : s.phase = .Dials i) : (w.dialled k s i true).Placed := by
  set v : World Target := w.dialled k s i true with hv
  have hconns : v.conns = w.conns ++ [⟨s.target, false, false, ⟨none, []⟩, none, [], false⟩] := rfl
  have hframe : Frame w v k := by
    refine ⟨fun i slot hslot => ⟨slot, hslot, rfl, fun _ hc => hc, fun _ _ hc => hc⟩,
      fun c conn hconn => ⟨conn, ?_, rfl, fun he => he⟩,
      fun j hj => List.getElem?_set_ne (Ne.symm hj)⟩
    rw [hconns, List.getElem?_append_left (List.getElem?_eq_some_iff.1 hconn).1, hconn]
  have hok := h.sender k s hs
  refine h.next hframe (fun t j hj => .inl hj) (fun s' hs' => ?_)
    (fun j c slot hslot hc => .inl ⟨slot, hslot, hc, rfl⟩) fun c conn hconn hleft => ?_
  · rw [show v.senders[k]? = some { s with phase := .Fills i w.conns.length } from
      getElem?_set_self hs _] at hs'
    cases hs'
    refine hok.go hframe (fun j hj => ?_) (fun j hj => ?_) (fun j c hc => ?_) (fun j c _ => nofun)
      (fun c => nofun)
    · refine hframe.slotFor (hok.slot j ?_)
      rw [hphase]
      exact hj
    · have := hok.filling j (by rw [hphase]; exact hj)
      exact this
    · cases hc
      exact ⟨_, hconns ▸ List.getElem?_concat_length .., rfl⟩
  · rcases Fifo.getElem?_concat_cases hconn with hconn | ⟨-, rfl⟩
    · exact h.left c conn hconn hleft
    · cases hleft

/-- A connection is touched. -/
theorem Placed.touch (h : w.Placed) {f : Conn Target → Conn Target}
    (hf : ∀ conn, (f conn).target = conn.target ∧ (conn.ended = true → (f conn).ended = true))
    (hleft : ∀ conn, w.conns[c]? = some conn → (f conn).left = true → (f conn).ended = true) :
    (w.touch c f).Placed := by
  refine h.next (frame_touch w c w.senders.length hf) (fun t i hi => .inl hi) (fun s hs => ?_)
    (fun i c slot hslot hc => .inl ⟨slot, hslot, hc, rfl⟩) fun c' conn' hconn' hgone => ?_
  · have := (List.getElem?_eq_some_iff.1 hs).1
    exact absurd this (lt_irrefl _)
  · simp only [World.touch, List.getElem?_modify, Option.map_eq_map,
      Option.map_eq_some_iff] at hconn'
    obtain ⟨old, hold, rfl⟩ := hconn'
    split_ifs at hgone ⊢ with hc
    · exact hleft old (hc ▸ hold) hgone
    · exact h.left c' old hold hgone

/-- A reader leaves the table. -/
theorem Placed.leaves (h : w.Placed) {conn : Conn Target} (hconn : w.conns[c]? = some conn)
    (hended : conn.ended = true) : (w.leave c conn).Placed := by
  have htouch : (w.touch c fun conn => { conn with left := true }).Placed := by
    refine h.touch (fun conn => ⟨rfl, fun he => he⟩) fun old hold _ => ?_
    rw [hconn] at hold
    cases hold
    exact hended
  simp only [leave]
  split
  case h_1 i hlookup =>
    split_ifs
    · refine ⟨fun t j hj => htouch.table t j (lookup_erase_imp hj), fun k s hs => ?_, htouch.set,
        htouch.left⟩
      have hok := htouch.sender k s hs
      exact ⟨hok.slot, hok.filling, hok.fills, hok.has, hok.redials, hok.dead, hok.given⟩
    · exact htouch
  case h_2 => exact htouch

omit [DecidableEq Target] in
theorem not_ended (hended : w.ended c = false) {dead : List ℕ}
    (hdead : ∀ c ∈ dead, w.ended c = true) : c ∉ dead := fun hin => by
  have := hdead c hin
  rw [hended] at this
  cases this

/-- **Every step keeps the slots and connections those of their targets.** -/
theorem Placed.step (h : w.Placed) (hmoves : w.Moves w') : w'.Placed := by
  cases hmoves with
  | stays => exact h
  | calls target buf => exact h.calls target buf
  | fresh hs hphase _ => exact h.fresh hs
  | joins hs hphase hlookup _ =>
    refine h.put hs ((h.sender _ _ hs).go (.refl w _) (fun j hj => ?_) (fun j => nofun)
      (fun j c => nofun) (fun j c _ => nofun) (fun c => nofun))
    cases hj
    exact h.table _ _ hlookup
  | @gets k i c s hs hphase hget =>
    have hok := h.sender k s hs
    refine h.put hs (hok.go (.refl w _) (fun j hj => ?_) (fun j => nofun) (fun j c => nofun)
      (fun j c hj hc => ?_) (fun c => nofun))
    · exact hok.slot j (by rw [hphase]; exact hj)
    · cases hj
      cases hc
      unfold get at hget
      split at hget
      case h_1 c' hcell =>
        cases hget
        obtain ⟨slot, hslot, hc⟩ := Option.map_eq_some_iff.1 hcell
        exact ⟨slot, hslot, hc⟩
      case h_2 => cases hget
  | @takes k i s hs hphase hcell =>
    have hok := h.sender k s hs
    have hslot := hok.slot i (by rw [hphase]; rfl)
    have hframe := frame_fill (w := w) (k := k) (i := i)
      (f := fun slot => { slot with cell := .Filling k }) (fun _ => rfl) hcell (.inl rfl)
    refine h.modify hs (fun _ => rfl) hcell (.inl rfl) (fun slot _ c => nofun) ?_
    refine hok.go (hframe.trans (frame_put _ k _)) (fun j hj => ?_) (fun j hj => ?_)
      (fun j c => nofun) (fun j c _ => nofun) (fun c => nofun)
    · cases hj
      exact (hframe.trans (frame_put _ k _)).slotFor hslot
    · cases hj
      exact cellIs_modify (f := fun slot => { slot with cell := .Filling k }) ⟨_, hslot⟩
        (fun _ => rfl) _
  | connects hs hphase => exact h.connects hs hphase
  | @fails k i s hs hphase =>
    have hok := h.sender k s hs
    have hcell := h.cell hs (i := i) (by rw [hphase]; rfl)
    have hframe := frame_fill (w := w) (k := k) (i := i)
      (f := fun slot => { slot with cell := .Empty, failed := true }) (fun _ => rfl) hcell
      (.inr rfl)
    refine h.modify hs (fun _ => rfl) hcell (.inr rfl) (fun slot _ c => nofun) ?_
    refine hok.keep (hframe.trans (frame_put _ k _)) (fun j hj => ?_) rfl (fun c => nofun)
      (fun c => nofun)
    rw [hphase]
    exact hj
  | @fills k i c s hs hphase =>
    have hok := h.sender k s hs
    have hcell := h.cell hs (i := i) (by rw [hphase]; rfl)
    have hslot := hok.slot i (by rw [hphase]; rfl)
    have hframe := frame_fill (w := w) (k := k) (i := i)
      (f := fun slot => { slot with cell := .Set c }) (fun _ => rfl) hcell (.inr rfl)
    refine h.modify hs (fun _ => rfl) hcell (.inr rfl) (fun slot hslot' c' hc' => ?_) ?_
    · cases hc'
      obtain ⟨slot', hslot'', ht⟩ := hslot
      rw [hslot'] at hslot''
      cases hslot''
      rw [ht]
      exact hok.fills i c hphase
    · refine hok.go (hframe.trans (frame_put _ k _)) (fun j hj => ?_) (fun j => nofun)
        (fun j c => nofun) (fun j c' hj hc' => ?_) (fun c => nofun)
      · cases hj
        exact (hframe.trans (frame_put _ k _)).slotFor hslot
      · cases hj
        cases hc'
        exact cellIs_modify (f := fun slot => { slot with cell := .Set c }) ⟨_, hslot⟩
          (fun _ => rfl) _
  | @forgets k i s hs hphase =>
    have hframe := (frame_forget w s.target i k).trans
      (frame_put _ k { s with phase := .Done (.error .Dial) })
    have hs' : ((w.forget s.target i).put k { s with phase := .Done (.error .Dial) }).senders[k]? =
        some { s with phase := .Done (.error .Dial) } :=
      getElem?_set_self (senders_forget (w := w) s.target i ▸ hs) _
    refine h.go hframe (slots_forget ..) (fun c conn hconn => ⟨conn, ?_, rfl, rfl⟩)
      (fun t j hj => .inl (lookup_forget_imp hj)) hs'
      ((h.sender k s hs).keep hframe (fun i => nofun) rfl (fun c => nofun) (fun c => nofun))
    exact conns_forget (w := w) s.target i ▸ hconn
  | aborts hs hphase _ _ =>
    exact h.keep hs (fun i => nofun) rfl (fun c => nofun) (fun c => nofun)
  | @redials k i c s hs hphase _ hredialled =>
    have hok := h.sender k s hs
    refine h.put hs ⟨fun i => nofun, fun i => nofun, fun i c => nofun, fun i c => nofun, ?_,
      hok.dead, fun c => nofun⟩
    simp [hok.redials, hredialled]
  | @enters k i c s hs hphase hended hlookup =>
    have hok := h.sender k s hs
    have hframe : Frame w { w with
        table := w.table.insert s.target i
        senders := w.senders.set k { s with phase := .Locks i c } } k :=
      .of_eq rfl rfl fun _ hj => List.getElem?_set_ne (Ne.symm hj)
    have hslot := hok.slot i (by rw [hphase]; rfl)
    refine h.go hframe rfl (fun c conn hconn => ⟨conn, hconn, rfl, rfl⟩) (fun t j hj => ?_)
      (getElem?_set_self hs _) (hok.keep hframe (fun j hj => ?_) rfl (fun c' hc' => ?_) ?_)
    · rw [Assoc.lookup_insert_apply] at hj
      split_ifs at hj with ht
      · cases hj
        rw [ht]
        exact .inr (hframe.slotFor hslot)
      · exact .inl hj
    · rw [hphase]
      exact hj
    · rw [hphase]
      exact hc'
    · rintro c' ⟨⟩
      exact not_ended hended hok.dead
  | @keeps k i c s hs hphase hended hlookup =>
    refine h.keep hs (fun j hj => ?_) rfl (fun c' hc' => ?_) ?_
    · rw [hphase]
      exact hj
    · rw [hphase]
      exact hc'
    · rintro c' ⟨⟩
      exact not_ended hended (h.sender k s hs).dead
  | goes hs hphase _ _ _ =>
    exact h.keep hs (fun i => nofun) rfl (fun c => nofun) (fun c => nofun)
  | @locks k i c s conn hs hphase hconn hlock =>
    have hok := h.sender k s hs
    refine h.put_touch hs (fun conn => ⟨rfl, rfl, rfl⟩) fun hframe => hok.keep hframe
      (fun j hj => ?_) rfl (fun c' hc' => ?_) fun c' hc' => ?_
    · rw [hphase]
      exact hj
    · rw [hphase]
      exact hc'
    · exact hok.given c' (by rw [hphase]; exact hc')
  | @gives_up k i c s hs hphase =>
    have hforget : (w.forget s.target i).Placed := by
      refine ⟨fun t j hj => ?_, fun j t ht => ?_, ?_, ?_⟩
      · exact (frame_forget w s.target i k).slotFor (h.table t j (lookup_forget_imp hj))
      · rw [senders_forget] at ht
        exact (h.sender j t ht).congr (slots_forget ..) (conns_forget ..)
      · rw [slots_forget]
        intro j c slot hslot hc
        exact (frame_forget w s.target i k).connTo (h.set j c slot hslot hc)
      · rw [conns_forget]
        exact h.left
    have hs' : (w.forget s.target i).senders[k]? = some s := by rwa [senders_forget]
    exact hforget.put_touch hs' (fun conn => ⟨rfl, rfl, rfl⟩) fun hframe =>
      (hforget.sender k s hs').keep hframe (fun j => nofun) rfl (fun c => nofun) fun c => nofun
  | @errs k i c left s hs hphase =>
    have hok := h.sender k s hs
    refine h.put_touch hs (fun conn => ⟨rfl, rfl, rfl⟩) fun hframe => hok.keep hframe
      (fun j hj => ?_) rfl (fun c' hc' => ?_) fun c' hc' => ?_
    · rw [hphase]
      exact hj
    · rw [hphase]
      exact hc'
    · exact hok.given c' (by rw [hphase]; exact hc')
  | @sends k i c s hs hphase =>
    exact h.put_touch hs (fun conn => ⟨rfl, rfl, rfl⟩) fun hframe =>
      (h.sender k s hs).keep hframe (fun j => nofun) rfl (fun c => nofun) fun c => nofun
  | @writes k i c room left s conn hs hphase hconn hleft =>
    have hok := h.sender k s hs
    refine h.put_touch hs (fun conn => ⟨rfl, rfl, rfl⟩) fun hframe => hok.keep hframe
      (fun j hj => ?_) rfl (fun c' hc' => ?_) fun c' hc' => ?_
    · rw [hphase]
      exact hj
    · rw [hphase]
      exact hc'
    · exact hok.given c' (by rw [hphase]; exact hc')
  | drops hs hphase =>
    exact h.keep hs (fun i => nofun) rfl (fun c => nofun) (fun c => nofun)
  | @stops k i s hs hphase =>
    have hok := h.sender k s hs
    have hcell := h.cell hs (i := i) (by rw [hphase]; rfl)
    have hframe := frame_fill (w := w) (k := k) (i := i)
      (f := fun slot => { slot with cell := .Empty }) (fun _ => rfl) hcell (.inr rfl)
    refine h.modify hs (fun _ => rfl) hcell (.inr rfl) (fun slot _ c => nofun) ?_
    exact hok.keep (hframe.trans (frame_put _ k _)) (fun j => nofun) rfl (fun c => nofun)
      (fun c => nofun)
  | @cuts k i c left s hs hphase =>
    refine h.put_touch hs (fun conn => ?_) fun hframe =>
      (h.sender k s hs).keep hframe (fun j => nofun) rfl (fun c => nofun) fun c => nofun
    split_ifs <;> exact ⟨rfl, rfl, rfl⟩
  | ends c => exact h.touch (fun conn => ⟨rfl, fun _ => rfl⟩) fun _ _ _ => rfl
  | leaves hconn hended => exact h.leaves hconn hended

end World

end TargetUdp

end Rurge
