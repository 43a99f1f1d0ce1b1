import Rurge.Lib.Runs

/-!
# A window of packet ids

A ring of 128 blocks of 64 bits remembers the ids seen of the last 8128: the blocks the newest id
moves over are cleared, so a bit that is set is always of an id seen (`Tracks`).
-/

namespace Rurge

namespace Shadowsocks

open Runs

def BLOCK_BITS : ℕ := 64

abbrev RING_BLOCKS : ℕ := 128

/-- Ids this far behind the newest are still told apart. -/
def WINDOW : ℕ := (RING_BLOCKS - 1) * BLOCK_BITS

/-- Packet ids already seen from one server session. -/
structure Window where
  last : ℕ
  ring : Vector (BitVec 64) RING_BLOCKS
  deriving DecidableEq

namespace Window

def new : Window := ⟨0, .replicate RING_BLOCKS 0⟩

/-- The ring with the `moved` blocks behind block `current` cleared. -/
def cleared (ring : Vector (BitVec 64) RING_BLOCKS) (current moved : ℕ) :
    Vector (BitVec 64) RING_BLOCKS :=
  (List.range moved).foldl (fun ring i =>
    ring.set ((current + (i + 1)) % RING_BLOCKS) 0 (Nat.mod_lt _ (by decide))) ring

/-- The bit of `packet` set, and whether it was not. -/
def mark (w : Window) (packet : ℕ) : Window × Bool :=
  let index := packet / BLOCK_BITS % RING_BLOCKS
  have hindex : index < RING_BLOCKS := Nat.mod_lt _ (by decide)
  let bit := 1#64 <<< (packet % BLOCK_BITS)
  let old := w.ring[index]
  ({ w with ring := w.ring.set index (old ||| bit) }, old &&& bit == 0)

/-- Whether `packet` is new (then it is seen from now on): not seen before, and not too far behind
the newest. -/
def accept (w : Window) (packet : ℕ) : Window × Bool :=
  if w.last < packet then
    let current := w.last / BLOCK_BITS
    let moved := min (packet / BLOCK_BITS - current) RING_BLOCKS
    mark ⟨packet, cleared w.ring current moved⟩ packet
  else if WINDOW < w.last - packet then (w, false)
  else mark w packet

/-! ### One bit -/

/-- Whether the bit of `packet` is set. -/
def bit (w : Window) (packet : ℕ) : Bool :=
  have hindex : packet / BLOCK_BITS % RING_BLOCKS < RING_BLOCKS := Nat.mod_lt _ (by decide)
  w.ring[packet / BLOCK_BITS % RING_BLOCKS].getLsbD (packet % BLOCK_BITS)

theorem getLsbD_one_shiftLeft {k j : ℕ} (hj : j < 64) :
    (1#64 <<< k).getLsbD j = decide (j = k) := by
  rw [Bool.eq_iff_iff]
  simp only [BitVec.getLsbD_shiftLeft, BitVec.getLsbD_one, Bool.and_eq_true, decide_eq_true_eq,
    Bool.not_eq_true', decide_eq_false_iff_not]
  omega

/-- A bit is not set where the block has nothing in common with it. -/
theorem and_bit_eq_zero (old : BitVec 64) {k : ℕ} (hk : k < 64) :
    (old &&& 1#64 <<< k == 0) = !old.getLsbD k := by
  rw [Bool.eq_iff_iff, beq_iff_eq, Bool.not_eq_true']
  constructor
  · intro h
    have := congrArg (fun block => block.getLsbD k) h
    simpa [BitVec.getLsbD_and, getLsbD_one_shiftLeft hk] using this
  · intro h
    refine BitVec.eq_of_getLsbD_eq fun j hj => ?_
    rw [BitVec.getLsbD_and, getLsbD_one_shiftLeft hj]
    by_cases hjk : j = k
    · simp [hjk, h]
    · simp [hjk]

/-- What marking an id answers, and does: the bits of the other blocks, and of the same one, are
left but for its own. -/
theorem mark_spec (w : Window) (packet : ℕ) :
    (w.mark packet).2 = !w.bit packet ∧ (w.mark packet).1.last = w.last ∧
      ∀ q, q / BLOCK_BITS % RING_BLOCKS ≠ packet / BLOCK_BITS % RING_BLOCKS ∨
          q / BLOCK_BITS = packet / BLOCK_BITS →
        (w.mark packet).1.bit q = (w.bit q || decide (q = packet)) := by
  refine ⟨and_bit_eq_zero _ (Nat.mod_lt _ (by decide)), rfl, fun q hq => ?_⟩
  simp only [mark, bit]
  rcases hq with hne | hblock
  · have hother : q ≠ packet := fun h => hne (by rw [h])
    rw [Vector.getElem_set_ne _ _ (Ne.symm hne), decide_eq_false hother, Bool.or_false]
  · have hsame : (q % BLOCK_BITS = packet % BLOCK_BITS) ↔ q = packet := by
      simp only [BLOCK_BITS] at hblock ⊢
      omega
    have hbit : q % BLOCK_BITS < 64 := Nat.mod_lt _ (by decide)
    simp only [hblock, Vector.getElem_set_self, BitVec.getLsbD_or, getLsbD_one_shiftLeft hbit,
      hsame]

/-- Marking an id that is marked changes nothing. -/
theorem mark_of_bit {w : Window} {packet : ℕ} (h : w.bit packet = true) :
    (w.mark packet).1 = w := by
  have hindex : packet / BLOCK_BITS % RING_BLOCKS < RING_BLOCKS := Nat.mod_lt _ (by decide)
  have hsame : w.ring[packet / BLOCK_BITS % RING_BLOCKS] ||| 1#64 <<< (packet % BLOCK_BITS) =
      w.ring[packet / BLOCK_BITS % RING_BLOCKS] := by
    refine BitVec.eq_of_getLsbD_eq fun j hj => ?_
    rw [BitVec.getLsbD_or, getLsbD_one_shiftLeft hj]
    by_cases hjk : j = packet % BLOCK_BITS
    · subst hjk
      rw [decide_eq_true rfl, Bool.or_true]
      exact h.symm
    · rw [decide_eq_false hjk, Bool.or_false]
  simp only [mark, hsame, Vector.set_getElem_self]

/-! ### The blocks cleared -/

theorem getElem_cleared (ring : Vector (BitVec 64) RING_BLOCKS) (current moved : ℕ) {k : ℕ}
    (hk : k < RING_BLOCKS) :
    (cleared ring current moved)[k] =
      if ∃ i < moved, (current + (i + 1)) % RING_BLOCKS = k then 0 else ring[k] := by
  induction moved with
  | zero => simp [cleared]
  | succ moved ih =>
    have hstep : cleared ring current (moved + 1) =
        (cleared ring current moved).set ((current + (moved + 1)) % RING_BLOCKS) 0
          (Nat.mod_lt _ (by decide)) := by
      rw [cleared, List.range_succ, List.foldl_append]
      rfl
    rw [hstep]
    by_cases hlast : (current + (moved + 1)) % RING_BLOCKS = k
    · subst hlast
      rw [Vector.getElem_set_self, if_pos ⟨moved, Nat.lt_succ_self _, rfl⟩]
    · rw [Vector.getElem_set_ne _ _ hlast, ih]
      refine if_congr ⟨fun ⟨i, hi, h⟩ => ⟨i, by omega, h⟩, fun ⟨i, hi, h⟩ => ⟨i, ?_, h⟩⟩ rfl rfl
      rcases Nat.lt_succ_iff_lt_or_eq.1 hi with hi | rfl
      · exact hi
      · exact absurd h hlast

/-! ### What the ring stands for -/

/-- The window stands for the ids seen: the newest of them, and a bit for each id that is still told
apart. -/
structure Tracks (seen : List ℕ) (w : Window) : Prop where
  le_last : ∀ q ∈ seen, q ≤ w.last
  last_mem : seen = [] ∧ w.last = 0 ∨ w.last ∈ seen
  bit : ∀ q, w.last / BLOCK_BITS ≤ q / BLOCK_BITS + (RING_BLOCKS - 1) →
    q / BLOCK_BITS ≤ w.last / BLOCK_BITS → (w.bit q = true ↔ q ∈ seen)

theorem tracks_new : Tracks [] new where
  le_last q hq := by cases hq
  last_mem := .inl ⟨rfl, rfl⟩
  bit q _ _ := by simp [Window.bit, new]

/-- The window moved on to `packet`: what is not told apart any more is forgotten. -/
theorem bit_moved {seen : List ℕ} {w : Window} (h : Tracks seen w) {packet : ℕ}
    (hnew : w.last < packet) {q : ℕ}
    (hback : packet / BLOCK_BITS ≤ q / BLOCK_BITS + (RING_BLOCKS - 1))
    (hfront : q / BLOCK_BITS ≤ packet / BLOCK_BITS) :
    bit ⟨packet, cleared w.ring (w.last / BLOCK_BITS)
      (min (packet / BLOCK_BITS - w.last / BLOCK_BITS) RING_BLOCKS)⟩ q = true ↔ q ∈ seen := by
  have hstep : w.last / BLOCK_BITS ≤ packet / BLOCK_BITS := Nat.div_le_div_right hnew.le
  simp only [Window.bit]
  rw [getElem_cleared]
  generalize hlast : w.last / BLOCK_BITS = current at *
  generalize hblock : packet / BLOCK_BITS = block at *
  by_cases hold : q / BLOCK_BITS ≤ current
  · -- a block that was there, and is not run over
    rw [if_neg, ← h.bit q (by omega) (by omega)]
    · rfl
    · rintro ⟨i, hi, heq⟩
      rw [lt_min_iff] at hi
      simp only [RING_BLOCKS] at hback heq
      omega
  · -- a block that is new
    rw [if_pos]
    · refine iff_of_false (by simp) fun hmem => hold ?_
      rw [← hlast]
      exact Nat.div_le_div_right (h.le_last q hmem)
    · simp only [RING_BLOCKS] at *
      by_cases hfar : block - current ≤ 128
      · exact ⟨q / BLOCK_BITS - current - 1, by omega, by congr 1; omega⟩
      · refine ⟨(q / BLOCK_BITS + 127 - current % 128) % 128, by omega, by omega⟩

/-- **One id.**  It is accepted exactly when it was not seen and is no more than `WINDOW` behind the
newest; then it is seen, and else the window is as it was. -/
theorem Tracks.accept {seen : List ℕ} {w : Window} (h : Tracks seen w) (packet : ℕ) :
    ((w.accept packet).2 = true ↔ packet ∉ seen ∧ ∀ q ∈ seen, q ≤ packet + WINDOW) ∧
    ((w.accept packet).2 = true → Tracks (seen ++ [packet]) (w.accept packet).1) ∧
    ((w.accept packet).2 = false → (w.accept packet).1 = w) := by
  have hindex : ∀ {w : Window} {q : ℕ}, w.last / BLOCK_BITS ≤ q / BLOCK_BITS + (RING_BLOCKS - 1) →
      q / BLOCK_BITS ≤ w.last / BLOCK_BITS → packet / BLOCK_BITS ≤ w.last / BLOCK_BITS →
      w.last / BLOCK_BITS ≤ packet / BLOCK_BITS + (RING_BLOCKS - 1) →
      q / BLOCK_BITS % RING_BLOCKS ≠ packet / BLOCK_BITS % RING_BLOCKS ∨
        q / BLOCK_BITS = packet / BLOCK_BITS := by
    intro w q hq hq' hp hp'
    simp only [RING_BLOCKS] at *
    omega
  unfold Window.accept
  by_cases hnew : w.last < packet
  · simp only [if_pos hnew]
    set moved : Window := ⟨packet, cleared w.ring (w.last / BLOCK_BITS)
      (min (packet / BLOCK_BITS - w.last / BLOCK_BITS) RING_BLOCKS)⟩ with hmoved
    have hunseen : packet ∉ seen := fun hmem => absurd (h.le_last packet hmem) (not_le.2 hnew)
    have hclear : moved.bit packet = false := by
      rw [← Bool.not_eq_true, bit_moved h hnew (Nat.le_add_right _ _) le_rfl]
      exact hunseen
    obtain ⟨hanswer, hlast, hbits⟩ := mark_spec moved packet
    rw [hclear] at hanswer
    refine ⟨iff_of_true hanswer ⟨hunseen, fun q hq => ?_⟩, fun _ => ?_, fun hno => ?_⟩
    · exact (h.le_last q hq).trans (hnew.le.trans (Nat.le_add_right _ _))
    · refine ⟨fun q hq => ?_, .inr (by rw [hlast]; simp [hmoved]), fun q hback hfront => ?_⟩
      · rw [hlast]
        rcases List.mem_append.1 hq with hq | hq
        · exact (h.le_last q hq).trans hnew.le
        · exact (List.mem_singleton.1 hq).le
      · rw [hlast] at hback hfront
        rw [hbits q (hindex hback hfront le_rfl (Nat.le_add_right _ _)), Bool.or_eq_true,
          bit_moved h hnew hback hfront, decide_eq_true_eq, List.mem_append, List.mem_singleton]
    · rw [hanswer] at hno
      cases hno
  by_cases hfar : WINDOW < w.last - packet
  · simp only [if_neg hnew, if_pos hfar]
    refine ⟨iff_of_false (by simp) fun hp => ?_, by simp, fun _ => trivial⟩
    rcases h.last_mem with ⟨-, hzero⟩ | hmem
    · omega
    · have := hp.2 _ hmem
      omega
  · simp only [if_neg hnew, if_neg hfar]
    have hback : w.last / BLOCK_BITS ≤ packet / BLOCK_BITS + (RING_BLOCKS - 1) := by
      simp only [WINDOW, RING_BLOCKS, BLOCK_BITS] at hfar ⊢
      omega
    have hfront : packet / BLOCK_BITS ≤ w.last / BLOCK_BITS :=
      Nat.div_le_div_right (not_lt.1 hnew)
    have hseen := h.bit packet hback hfront
    obtain ⟨hanswer, hlast, hbits⟩ := mark_spec w packet
    refine ⟨?_, fun hyes => ?_, fun hno => ?_⟩
    · rw [hanswer, Bool.not_eq_true', ← Bool.not_eq_true, hseen]
      refine ⟨fun hp => ⟨hp, fun q hq => ?_⟩, And.left⟩
      have := h.le_last q hq
      omega
    · refine ⟨fun q hq => ?_, ?_, fun q hq hq' => ?_⟩
      · rw [hlast]
        rcases List.mem_append.1 hq with hq | hq
        · exact h.le_last q hq
        · exact (List.mem_singleton.1 hq).trans_le (not_lt.1 hnew)
      · rw [hlast]
        refine .inr ?_
        rcases h.last_mem with ⟨-, hzero⟩ | hmem
        · exact List.mem_append_right _ (List.mem_singleton.2 (by omega))
        · exact List.mem_append_left _ hmem
      · rw [hlast] at hq hq'
        rw [hbits q (hindex hq hq' hfront hback), Bool.or_eq_true, h.bit q hq hq',
          decide_eq_true_eq, List.mem_append, List.mem_singleton]
    · rw [hanswer, Bool.not_eq_false'] at hno
      exact mark_of_bit hno

/-! ### Runs -/

/-- A window with the ids it accepted. -/
structure History where
  window : Window
  accepted : List ℕ

def call (h : History) (packet : ℕ) : History where
  window := (h.window.accept packet).1
  accepted := if (h.window.accept packet).2 then h.accepted ++ [packet] else h.accepted

/-- In every run the window tracks the ids it accepted. -/
theorem tracks_run (packets : List ℕ) :
    Tracks (run call ⟨new, []⟩ packets).accepted (run call ⟨new, []⟩ packets).window := by
  refine run_invariant (I := fun h : History => Tracks h.accepted h.window) (fun h packet hh => ?_)
    tracks_new packets
  obtain ⟨-, hyes, hno⟩ := hh.accept packet
  unfold call
  cases hanswer : (h.window.accept packet).2 with
  | true => exact hyes hanswer
  | false =>
    simp only [hno hanswer, Bool.false_eq_true, if_false]
    exact hh

/-- **Replays.**  After any ids, an id is accepted exactly when it was not accepted before and is no
more than 8128 behind the largest accepted. -/
theorem accept_iff (packets : List ℕ) (packet : ℕ) :
    ((run call ⟨new, []⟩ packets).window.accept packet).2 = true ↔
      packet ∉ (run call ⟨new, []⟩ packets).accepted ∧
        ∀ q ∈ (run call ⟨new, []⟩ packets).accepted, q ≤ packet + 8128 :=
  ((tracks_run packets).accept packet).1

end Window

end Shadowsocks

end Rurge
