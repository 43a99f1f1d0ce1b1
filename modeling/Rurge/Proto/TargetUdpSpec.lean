import Rurge.Proto.TargetUdpTable
import Rurge.Proto.TargetUdpWrites

/-!
# One connection for each target

What every interleaving of senders, dials and readers keeps.  A sender that waits where a dial
failed dials again, for a slot that may have been forgotten: another that comes meanwhile dials too
(`two_dials`).  And a reader that leaves before the cell of its connection is set leaves the
connection in the table, until somebody who has it from the cell, or asks for its target, replaces
it.
-/

namespace Rurge

namespace TargetUdp

namespace World

variable {Target : Type*} [DecidableEq Target] {w : World Target}

/-- A sender that is through without having met two connections that had ended. -/
def Through (s : Sender Target) : Prop :=
  s.phase = .Dropped ∨ ∃ r, s.phase = .Done r ∧ r ≠ .error .ConnectionAborted

/-- What holds of the carrier in every state. -/
structure Carried (w : World Target) : Prop where
  /-- a target's slot is one for it -/
  table : ∀ t i, w.table.lookup t = some i → w.SlotFor i t
  /-- a sender writes on a connection dialled for its target -/
  own : ∀ (k i c : ℕ) (s : Sender Target), w.senders[k]? = some s → s.phase.slot = some i →
    s.phase.given = some c → w.ConnTo c s.target
  sent : ∀ (c : ℕ) (conn : Conn Target), w.conns[c]? = some conn → ∀ k ∈ conn.sent,
    ∃ s : Sender Target, w.senders[k]? = some s ∧ s.target = conn.target
  /-- its datagram is out whole, as one chunk or capsule, or the rest is still being written, unless
  a write on the connection failed or was dropped in the middle -/
  whole : ∀ (c : ℕ) (conn : Conn Target), w.conns[c]? = some conn → conn.cut = false →
    w.WriterOk c conn
  /-- a sender that comes gets the table's slot, where its connection has not ended -/
  shares : ∀ (k i : ℕ) (s : Sender Target), w.senders[k]? = some s → s.phase = .Asks →
    w.table.lookup s.target = some i → (∀ c, w.CellIs i (.Set c) → w.ended c = false) →
      w.step (.poll k) = w.put k { s with phase := .Waits i }
  /-- it waits while another dials, and then has that one's connection -/
  waits : ∀ (k i : ℕ) (s : Sender Target), w.senders[k]? = some s → s.phase = .Waits i →
    (∀ j, w.CellIs i (.Filling j) → w.step (.poll k) = w) ∧
      ∀ c, w.CellIs i (.Set c) → w.step (.poll k) = w.put k { s with phase := .Has i c }
  /-- one sender at a time dials for a slot -/
  dials : ∀ (k k' i : ℕ) (s s' : Sender Target), w.senders[k]? = some s →
    w.senders[k']? = some s' → s.phase.filling = some i → s'.phase.filling = some i → k = k'
  /-- a slot whose dial failed is forgotten -/
  forgotten : ∀ t i, w.table.lookup t = some i → w.Fails i → w.Failing i
  redials : ∀ (k : ℕ) (s : Sender Target), w.senders[k]? = some s → s.redials ≤ 1
  /-- a connection that had ended when a sender came is not given to it -/
  alive : ∀ (k c : ℕ) (s : Sender Target), w.senders[k]? = some s → s.phase.given = some c →
    c ∉ s.dead
  /-- no connection whose reader has left stays in the table -/
  clean : ∀ t i c, w.table.lookup t = some i → w.CellIs i (.Set c) →
    (∀ s ∈ w.senders, s.target = t → Through s) → ¬ w.Left c

theorem wait_eq {k i : ℕ} {s : Sender Target} (hs : w.senders[k]? = some s)
    (hphase : s.phase = .Waits i) : w.step (.poll k) = w.wait k s i := by
  simp only [step, hs, poll, hphase]

theorem Placed.carried (h : w.Placed) (hkept : w.Kept) (hwritten : w.Written) : w.Carried where
  table := h.table
  own := fun k i c s hs hi hc => by
    have hconn : s.phase.conn = some c := by
      cases hphase : s.phase <;> rw [hphase] at hc <;> cases hc <;> rfl
    obtain ⟨slot, hslot, hcell⟩ := (h.sender k s hs).has i c hi hconn
    obtain ⟨slot', hslot', ht⟩ := (h.sender k s hs).slot i hi
    rw [hslot] at hslot'
    cases hslot'
    rw [← ht]
    exact h.set i c slot hslot hcell
  sent := hwritten.sent
  whole := hwritten.writer
  shares := fun k i s hs hphase hlookup hlive => by
    simp only [World.step, hs, poll, hphase, World.slot, hlookup]
    refine if_neg fun hany => ?_
    cases hget : w.get i with
    | none => simp [hget] at hany
    | some c =>
      rw [hget, Option.any_some] at hany
      have hcell : w.CellIs i (.Set c) := by
        unfold get at hget
        split at hget
        case h_1 c' hcell =>
          cases hget
          exact Option.map_eq_some_iff.1 hcell
        case h_2 => cases hget
      rw [hlive c hcell] at hany
      cases hany
  waits := fun k i s hs hphase => by
    rw [wait_eq hs hphase]
    constructor
    · rintro j ⟨slot, hslot, hc⟩
      simp only [wait, hslot, Option.map_some, hc]
    · rintro c ⟨slot, hslot, hc⟩
      simp only [wait, hslot, Option.map_some, hc]
  dials := fun k k' i s s' hs hs' hi hi' => by
    have heq := ((h.sender k s hs).filling i hi).eq ((h.sender k' s' hs').filling i hi')
    cases heq
    rfl
  forgotten := hkept.forgotten
  redials := fun k s hs => by
    rw [(h.sender k s hs).redials]
    split_ifs <;> omega
  alive := fun k c s hs hc => (h.sender k s hs).given c hc
  clean := fun t i c hlookup hcell hall hleft => by
    obtain ⟨k, s, hs, howes⟩ := hkept.clean t i c hlookup hcell hleft
    have ht : s.target = t := by
      rcases howes with hphase | ⟨ht, -⟩
      · have hslot := (h.sender k s hs).slot i (by rw [hphase]; rfl)
        exact hslot.eq (h.table t i hlookup)
      · exact ht
    have hnot : ¬ Through s := by
      rintro (hdropped | ⟨r, hdone, hr⟩)
      · rcases howes with hphase | ⟨-, hphase | hphase⟩ <;> rw [hdropped] at hphase <;> cases hphase
      · rcases howes with hphase | ⟨-, hphase | hphase⟩ <;> rw [hdone] at hphase <;> cases hphase
        exact hr rfl
    exact hnot (hall s (List.mem_of_getElem? hs) ht)

end World

open World

/-- **However sends, dials and readers' ends are interleaved, a target has one slot at most, a
datagram goes out whole and on a connection of its target, those who come share the table's dial,
and what failed or ended does not stay.** -/
theorem targets_carried {Target : Type*} [DecidableEq Target] (carrier : Carrier)
    (as : List (Action Target)) : (Runs.run step (new carrier) as).Carried := by
  have h : (fun w : World Target => w.Placed ∧ w.Kept ∧ w.Written)
      (Runs.run step (new carrier) as) :=
    Runs.run_invariant (I := fun w : World Target => w.Placed ∧ w.Kept ∧ w.Written)
      (fun w a hw => ⟨hw.1.step (moves w a), hw.2.1.step hw.1 (moves w a),
        hw.2.2.step hw.1 (moves w a)⟩)
      ⟨placed_new carrier, kept_new carrier, written_new carrier⟩ as
  exact h.1.carried h.2.1 h.2.2

/-- The dial of the first sender fails, and the second, which waited for it, dials on in the slot
that was forgotten: the third, to the same target, comes while it dials, and dials too. -/
theorem two_dials : ∃ acts : List (Action ℕ),
    acts = [.send_to 53 [1], .poll 0, .poll 0, .send_to 53 [2], .poll 1, .dialled 0 false, .poll 0,
      .poll 1, .send_to 53 [3], .poll 2, .poll 2] ∧
    (Runs.run step (new .Vmess) acts).senders.map (fun s => (s.target, s.phase)) =
      [(53, .Done (.error .Dial)), (53, .Dials 0), (53, .Dials 1)] :=
  ⟨_, rfl, rfl⟩

-- both readers leave before their connections are in their cells: the second stays in the table
example : (Runs.run step (new .H2 : World ℕ) [.send_to 53 [1], .poll 0, .poll 0, .dialled 0 true,
    .ends 0, .leaves 0, .poll 0, .poll 0, .poll 0, .poll 0, .dialled 0 true, .ends 1, .leaves 1,
    .poll 0, .poll 0]).table.lookup 53 = some 1 := rfl

-- a write is dropped in the middle: the next datagram loses as many bytes as that one had
example : ((Runs.run step (new .Vmess : World ℕ) [.send_to 53 [1, 2, 3], .poll 0, .poll 0,
    .dialled 0 true, .poll 0, .poll 0, .poll 0, .write 0 (some 0), .drop 0,
    .send_to 53 [4, 5, 6, 7],
    .poll 1, .poll 1, .poll 1, .poll 1, .write 1 (some 1), .write 1 (some 1),
    .write 1 (some 1)]).conns.map fun conn => conn.writer.wire) = [[[1, 2, 3], [7]]] := rfl

end TargetUdp

end Rurge
