import Rurge.Lib.Transducer
import Rurge.Shadowsocks.Stream

/-!
# The stream ciphers and their definitions

CFB128 and CTR as SP 800-38A has them, block after block, and RC4 as a permutation that is stirred
for each byte.  However the bytes are cut into calls, `Cfb`, `Ctr` and `Rc4` encrypt to what the
definitions say, and decrypting gives the bytes back (`ciphers_uncut`).
-/

namespace Rurge.Shadowsocks

open Transducer

variable (aes : Block → Block)

/-! ### CFB byte by byte -/

namespace Cfb

/-- One byte, from a block that has keystream left. -/
def mixed (decrypt : Bool) (c : Cfb) (h : c.pos < BLOCK) (input : UInt8) : Cfb × UInt8 :=
  let byte := input ^^^ byte_at c.block c.pos
  (⟨c.block.setIfInBounds c.pos (if decrypt then input else byte), c.pos + 1, h⟩, byte)

def step (decrypt : Bool) (c : Cfb) (input : UInt8) : Cfb × UInt8 :=
  mixed decrypt (c.refill aes) (refill_lt aes c) input

theorem refill_of_lt {c : Cfb} (h : c.pos < BLOCK) : c.refill aes = c := if_neg h.ne

theorem feed_refill (decrypt : Bool) (c : Cfb) {data : Bytes} (h : data ≠ []) :
    feed (step aes decrypt) c data = feed (step aes decrypt) (c.refill aes) data := by
  obtain ⟨b, data, rfl⟩ := List.exists_cons_of_ne_nil h
  have hstep : step aes decrypt (c.refill aes) b = step aes decrypt c b := by
    simp only [step, refill_of_lt aes (refill_lt aes c)]
  rw [feed_cons, feed_cons, hstep]

theorem mix_eq_feed {decrypt : Bool} {block : Block} {at_ : ℕ} {now : Bytes}
    (h : at_ + now.length ≤ BLOCK) :
    feed (step aes decrypt) ⟨block, at_, by omega⟩ now =
      (⟨(mix decrypt block at_ now).1, at_ + now.length, h⟩, (mix decrypt block at_ now).2) := by
  induction now generalizing block at_ with
  | nil => rfl
  | cons input now ih =>
    rw [List.length_cons] at h
    have hlt : at_ < BLOCK := by omega
    have hstep : step aes decrypt ⟨block, at_, hlt.le⟩ input =
        mixed decrypt ⟨block, at_, hlt.le⟩ hlt input := by
      simp only [step, refill_of_lt aes (c := ⟨block, at_, hlt.le⟩) hlt]
    rw [feed_cons, hstep, mixed, ih (show at_ + 1 + now.length ≤ BLOCK by omega)]
    simp [mix, Nat.add_assoc, Nat.add_comm 1]

theorem apply_eq_feed (decrypt : Bool) (c : Cfb) (data : Bytes) :
    c.apply aes decrypt data = feed (step aes decrypt) c data := by
  fun_induction apply aes decrypt c data with
  | case1 => rfl
  | case2 c data h n hn hlt block out hmix c' rest hrest ih =>
    have hlength : (data.take n).length = n := List.length_take_of_le (Nat.min_le_left ..)
    have hfirst : feed (step aes decrypt) (c.refill aes) (data.take n) =
        (⟨block, (c.refill aes).pos + n, hn⟩, out) := by
      have hfeed := @mix_eq_feed aes decrypt (c.refill aes).block (c.refill aes).pos (data.take n)
        (by rw [hlength]; exact hn)
      simpa only [hmix, hlength] using hfeed
    rw [hrest] at ih
    rw [feed_refill aes decrypt c h]
    conv_rhs => rw [← List.take_append_drop n data, feed_append, hfirst, ← ih]

/-- What the loop makes of the bytes, and of the block. -/
theorem mix_spec {block : Block} {at_ : ℕ} {now : Bytes} (h : at_ + now.length ≤ BLOCK) :
    (mix false block at_ now).2 = List.zipWith (· ^^^ ·) now (block.toList.drop at_) ∧
      (mix false block at_ now).1.toList =
        block.toList.take at_ ++ (mix false block at_ now).2 ++
          block.toList.drop (at_ + now.length) := by
  induction now generalizing block at_ with
  | nil => simp [mix]
  | cons input now ih =>
    rw [List.length_cons] at h
    have hlt : at_ < block.toList.length := by
      rw [Vector.length_toList]
      omega
    have hbyte : byte_at block at_ = block.toList[at_] := by
      rw [byte_at, ← Vector.getElem?_toList, List.getElem?_eq_getElem hlt, Option.getD_some]
    have hset (v : UInt8) : (block.setIfInBounds at_ v).toList = block.toList.set at_ v :=
      Vector.toList_setIfInBounds
    obtain ⟨hout, hblock⟩ := @ih (block.setIfInBounds at_ (input ^^^ byte_at block at_)) (at_ + 1)
      (by omega)
    simp only [mix, Bool.false_eq_true, if_false]
    refine ⟨?_, ?_⟩
    · rw [hout, hset, List.drop_eq_getElem_cons hlt, hbyte, List.zipWith_cons_cons,
        List.drop_set_of_lt (Nat.lt_succ_self _)]
    · have htake (v : UInt8) : (block.toList.set at_ v).take (at_ + 1) =
          block.toList.take at_ ++ [v] := by
        rw [List.take_add_one, List.take_set_of_le le_rfl, List.getElem?_set_self hlt,
          Option.toList_some]
      rw [hblock, hset, htake, List.drop_set_of_lt (by omega), List.length_cons]
      simp [Nat.add_assoc, Nat.add_comm 1]

end Cfb

/-! ### CFB128 -/

/-- The block of sixteen bytes. -/
def block_of (bytes : Bytes) : Block := .ofFn fun i => bytes.getD i 0

/-- CFB with a feedback of the whole block: each block of the text is added to the encryption of the
ciphertext block before it, the first one to that of the IV. -/
def cfb (feedback : Block) (plain : Bytes) : Bytes :=
  if h : plain = [] then []
  else
    let ciphertext := List.zipWith (· ^^^ ·) (plain.take BLOCK) (aes feedback).toList
    have hlt : (plain.drop BLOCK).length < plain.length := by
      have hpos := List.length_pos_iff.2 h
      rw [List.length_drop, BLOCK]
      omega
    ciphertext ++ cfb (block_of ciphertext) (plain.drop BLOCK)
termination_by plain.length
decreasing_by exact hlt

theorem block_of_toList (block : Block) : block_of block.toList = block := by
  ext i hi
  simp [block_of, List.getD_eq_getElem?_getD]

/-- **`Cfb` at the end of a block encrypts as CFB128 does after that block.** -/
theorem cfb_spec (feedback : Block) (plain : Bytes) :
    (Cfb.apply aes false (.new feedback) plain).2 = cfb aes feedback plain := by
  fun_induction cfb aes feedback plain with
  | case1 feedback =>
    rw [Cfb.apply]
    rfl
  | case2 feedback plain h ciphertext hlt ih =>
    have hrefill : (Cfb.new feedback).refill aes = ⟨aes feedback, 0, Nat.zero_le _⟩ := if_pos rfl
    rw [Cfb.apply_eq_feed, Cfb.feed_refill aes false _ h, hrefill]
    have hlength : (plain.take BLOCK).length ≤ BLOCK := List.length_take_le ..
    obtain ⟨hout, hblock⟩ := @Cfb.mix_spec (aes feedback) 0 (plain.take BLOCK) (by omega)
    have hfirst := @Cfb.mix_eq_feed aes false (aes feedback) 0 (plain.take BLOCK) (by omega)
    conv_lhs => rw [← List.take_append_drop BLOCK plain, feed_append, hfirst]
    rw [hout, List.drop_zero]
    refine congrArg (ciphertext ++ ·) ?_
    by_cases hlast : plain.length ≤ BLOCK
    · rw [List.drop_eq_nil_of_le hlast, feed_nil, cfb]
      rfl
    · have hfull : (plain.take BLOCK).length = BLOCK := List.length_take_of_le (not_le.1 hlast).le
      have hnext : block_of ciphertext = (Cfb.mix false (aes feedback) 0 (plain.take BLOCK)).1 := by
        have hdrop : (aes feedback).toList.drop (0 + BLOCK) = [] :=
          List.drop_eq_nil_of_le (by rw [Vector.length_toList, Nat.zero_add])
        rw [hout, hfull, hdrop, List.take_zero, List.nil_append, List.append_nil,
          List.drop_zero] at hblock
        rw [← block_of_toList (Cfb.mix false (aes feedback) 0 (plain.take BLOCK)).1, hblock]
      rw [← ih, Cfb.apply_eq_feed, hnext]
      simp only [Cfb.new, hfull, Nat.zero_add]

/-! ### CTR -/

namespace Ctr

/-- One byte, from a block that has keystream left. -/
def padded (c : Ctr) (h : c.pos < BLOCK) (byte : UInt8) : Ctr × UInt8 :=
  (⟨c.counter, c.pad, c.pos + 1, h⟩, byte ^^^ byte_at c.pad c.pos)

def step (c : Ctr) (byte : UInt8) : Ctr × UInt8 := padded (c.refill aes) (refill_lt aes c) byte

theorem refill_of_lt {c : Ctr} (h : c.pos < BLOCK) : c.refill aes = c := if_neg h.ne

theorem feed_refill (c : Ctr) {data : Bytes} (h : data ≠ []) :
    feed (step aes) c data = feed (step aes) (c.refill aes) data := by
  obtain ⟨b, data, rfl⟩ := List.exists_cons_of_ne_nil h
  have hstep : step aes (c.refill aes) b = step aes c b := by
    simp only [step, refill_of_lt aes (refill_lt aes c)]
  rw [feed_cons, feed_cons, hstep]

theorem mix_eq_feed {counter : BitVec 128} {pad : Block} {at_ : ℕ} {now : Bytes}
    (h : at_ + now.length ≤ BLOCK) :
    feed (step aes) ⟨counter, pad, at_, by omega⟩ now =
      (⟨counter, pad, at_ + now.length, h⟩, mix pad at_ now) := by
  induction now generalizing at_ with
  | nil => rfl
  | cons byte now ih =>
    rw [List.length_cons] at h
    have hlt : at_ < BLOCK := by omega
    have hstep : step aes ⟨counter, pad, at_, hlt.le⟩ byte =
        padded ⟨counter, pad, at_, hlt.le⟩ hlt byte := by
      simp only [step, refill_of_lt aes (c := ⟨counter, pad, at_, hlt.le⟩) hlt]
    rw [feed_cons, hstep, padded, ih (show at_ + 1 + now.length ≤ BLOCK by omega)]
    simp [mix, Nat.add_assoc, Nat.add_comm 1]

theorem apply_eq_feed (c : Ctr) (data : Bytes) : c.apply aes data = feed (step aes) c data := by
  fun_induction apply aes c data with
  | case1 => rfl
  | case2 c data h n hn hlt out c' rest hrest ih =>
    have hlength : (data.take n).length = n := List.length_take_of_le (Nat.min_le_left ..)
    have hfirst : feed (step aes) (c.refill aes) (data.take n) =
        (⟨(c.refill aes).counter, (c.refill aes).pad, (c.refill aes).pos + n, hn⟩, out) := by
      have hfeed := @mix_eq_feed aes (c.refill aes).counter (c.refill aes).pad (c.refill aes).pos
        (data.take n) (by rw [hlength]; exact hn)
      simpa only [hlength] using hfeed
    rw [hrest] at ih
    rw [feed_refill aes c h]
    conv_rhs => rw [← List.take_append_drop n data, feed_append, hfirst, ← ih]

end Ctr

/-- The keystream block of the counter block `j` after the IV, the counter a number of 128 bits. -/
def ctr_block (iv : Block) (j : ℕ) : Block :=
  aes (to_be_bytes (from_be_bytes iv + .ofNat 128 j))

/-- CTR: the text is added to the encryptions of the counter blocks. -/
def ctr (iv : Block) (plain : Bytes) : Bytes :=
  plain.mapIdx fun i byte => byte ^^^ byte_at (ctr_block aes iv (i / BLOCK)) (i % BLOCK)

/-- The cipher after `k` bytes. -/
structure Ctr.At (iv : Block) (k : ℕ) (c : Ctr) : Prop where
  counter : c.counter = from_be_bytes iv + .ofNat 128 ((k + 15) / BLOCK)
  pos : c.pos = if k % BLOCK = 0 then BLOCK else k % BLOCK
  pad : k % BLOCK ≠ 0 → c.pad = ctr_block aes iv (k / BLOCK)

/-- Before a byte the block it is added to is there, `k % BLOCK` bytes of it used. -/
theorem Ctr.At.refill {iv : Block} {k : ℕ} {c : Ctr} (h : Ctr.At aes iv k c) :
    (c.refill aes).counter = from_be_bytes iv + .ofNat 128 (k / BLOCK + 1) ∧
      (c.refill aes).pos = k % BLOCK ∧ (c.refill aes).pad = ctr_block aes iv (k / BLOCK) := by
  have hcounter := h.counter
  have hpos := h.pos
  by_cases hk : k % BLOCK = 0
  · have hdiv : (k + 15) / BLOCK = k / BLOCK := by
      rw [BLOCK] at hk ⊢
      omega
    rw [if_pos hk] at hpos
    rw [hdiv] at hcounter
    rw [Ctr.refill, if_pos hpos, hcounter, hk]
    refine ⟨?_, rfl, rfl⟩
    rw [BitVec.ofNat_add, ← add_assoc]
    rfl
  · have hdiv : (k + 15) / BLOCK = k / BLOCK + 1 := by
      rw [BLOCK] at hk ⊢
      omega
    rw [if_neg hk] at hpos
    rw [hdiv] at hcounter
    have hlt : c.pos < BLOCK := hpos ▸ Nat.mod_lt _ (Nat.zero_lt_succ 15)
    rw [Ctr.refill_of_lt aes hlt]
    exact ⟨hcounter, hpos, h.pad hk⟩

theorem Ctr.At.step {iv : Block} {k : ℕ} {c : Ctr} (h : Ctr.At aes iv k c) (byte : UInt8) :
    Ctr.At aes iv (k + 1) (Ctr.step aes c byte).1 ∧ (Ctr.step aes c byte).2 =
      byte ^^^ byte_at (ctr_block aes iv (k / BLOCK)) (k % BLOCK) := by
  obtain ⟨hcounter, hpos, hpad⟩ := h.refill
  refine ⟨⟨?_, ?_, fun hk => ?_⟩, ?_⟩
  · have hdiv : (k + 1 + 15) / BLOCK = k / BLOCK + 1 := by
      rw [BLOCK]
      omega
    exact hcounter.trans (by rw [hdiv])
  · have hnext : (Ctr.step aes c byte).1.pos = (c.refill aes).pos + 1 := rfl
    rw [hnext, hpos, BLOCK]
    split_ifs <;> omega
  · have hdiv : (k + 1) / BLOCK = k / BLOCK := by
      rw [BLOCK] at hk ⊢
      omega
    exact hpad.trans (by rw [hdiv])
  · have hout : (Ctr.step aes c byte).2 = byte ^^^ byte_at (c.refill aes).pad (c.refill aes).pos :=
      rfl
    rw [hout, hpos, hpad]

/-- **`Ctr` encrypts as CTR does.** -/
theorem ctr_spec (iv : Block) (plain : Bytes) :
    (Ctr.apply aes (.new iv) plain).2 = ctr aes iv plain := by
  have hstart : Ctr.At aes iv 0 (.new iv) := ⟨by simp [Ctr.new, BLOCK], rfl, nofun⟩
  have hstep (k : ℕ) (c : Ctr) (byte : UInt8) (h : Ctr.At aes iv k c) :=
    Ctr.At.step aes h byte
  rw [Ctr.apply_eq_feed, feed_eq_mapIdx hstep hstart]
  simp only [Nat.zero_add]
  rfl

/-! ### RC4 -/

/-- The state of RC4: a permutation of the bytes and two places in it. -/
structure Rc4State where
  s : Equiv.Perm UInt8
  i : UInt8
  j : UInt8

/-- A place of the permutation is swapped with one that the key says. -/
def rc4_schedule (key : Bytes) (state : Equiv.Perm UInt8 × UInt8) (i : ℕ) :
    Equiv.Perm UInt8 × UInt8 :=
  let (s, j) := state
  let j := j + s (.ofNat i) + key.getD (i % key.length) 0
  (s * Equiv.swap (.ofNat i) j, j)

/-- The key schedule, from the identity on. -/
def rc4_start (key : Bytes) : Rc4State :=
  ⟨((List.range 256).foldl (rc4_schedule key) (1, 0)).1, 0, 0⟩

/-- The permutation is stirred. -/
def rc4_next (st : Rc4State) : Rc4State :=
  let i := st.i + 1
  let j := st.j + st.s i
  ⟨st.s * Equiv.swap i j, i, j⟩

/-- The byte that the stirred permutation gives. -/
def rc4_byte (st : Rc4State) : UInt8 := st.s (st.s st.i + st.s st.j)

/-- RC4: the text is added to the bytes of the keystream. -/
def rc4 (key : Bytes) (plain : Bytes) : Bytes :=
  plain.mapIdx fun n byte => byte ^^^ rc4_byte (rc4_next^[n + 1] (rc4_start key))

namespace Rc4

def step (r : Rc4) (byte : UInt8) : Rc4 × UInt8 :=
  let i := r.i + 1
  let a := at_ r.s i
  let j := r.j + a
  (⟨swap r.s i j, i, j⟩, byte ^^^ at_ (swap r.s i j) (a + at_ r.s j))

theorem apply_eq_feed (r : Rc4) (data : Bytes) : r.apply data = feed step r data := by
  induction data generalizing r with
  | nil => rfl
  | cons byte data ih => simp [apply, step, ih]

theorem at_swap (s : Vector UInt8 256) (i j k : UInt8) :
    at_ (swap s i j) k = at_ s (Equiv.swap i j k) := by
  simp only [at_, swap, Vector.get_eq_getElem, Vector.getElem_swap, Equiv.swap_apply_def,
    UInt8.toNat_inj]
  split_ifs <;> rfl

/-- The table holds the permutation. -/
def Holds (s : Vector UInt8 256) (p : Equiv.Perm UInt8) : Prop := ∀ k, at_ s k = p k

theorem Holds.swap {s : Vector UInt8 256} {p : Equiv.Perm UInt8} (h : Holds s p) (i j : UInt8) :
    Holds (swap s i j) (p * Equiv.swap i j) := fun k => by
  rw [at_swap, h, Equiv.Perm.mul_apply]

/-- The state is that of RC4. -/
structure Is (st : Rc4State) (r : Rc4) : Prop where
  s : Holds r.s st.s
  i : r.i = st.i
  j : r.j = st.j

theorem holds_schedule (key : Bytes) (places : List ℕ) {s : Vector UInt8 256}
    {p : Equiv.Perm UInt8} (h : Holds s p) (j : UInt8) :
    Holds (places.foldl (schedule key) (s, j)).1 (places.foldl (rc4_schedule key) (p, j)).1 := by
  induction places generalizing s p j with
  | nil => exact h
  | cons i places ih =>
    rw [List.foldl_cons, List.foldl_cons, schedule, rc4_schedule, h]
    exact ih (h.swap _ _) _

theorem is_start (key : Bytes) : Is (rc4_start key) (new key) := by
  have hid : Holds identity 1 := fun k => by
    simp [at_, identity]
  have hs := holds_schedule key (List.range 256) hid 0
  refine ⟨?_, rfl, rfl⟩
  simp only [new, rc4_start]
  exact hs

theorem Is.step {st : Rc4State} {r : Rc4} (h : Is st r) (byte : UInt8) :
    Is (rc4_next st) (Rc4.step r byte).1 ∧
      (Rc4.step r byte).2 = byte ^^^ rc4_byte (rc4_next st) := by
  have hi : r.i + 1 = (rc4_next st).i := congrArg (· + 1) h.i
  have hj : r.j + at_ r.s (rc4_next st).i = (rc4_next st).j := by
    rw [h.j, h.s]
    rfl
  have hs : Holds (Rc4.swap r.s (rc4_next st).i (rc4_next st).j) (rc4_next st).s := h.s.swap _ _
  have hswap_i : (rc4_next st).s (rc4_next st).i = st.s (rc4_next st).j :=
    congrArg st.s (Equiv.swap_apply_left ..)
  have hswap_j : (rc4_next st).s (rc4_next st).j = st.s (rc4_next st).i :=
    congrArg st.s (Equiv.swap_apply_right ..)
  simp only [Rc4.step, hi, hj]
  refine ⟨⟨hs, rfl, rfl⟩, ?_⟩
  rw [hs, h.s, h.s, rc4_byte, hswap_i, hswap_j, add_comm]

end Rc4

/-- **`Rc4` encrypts as RC4 does.** -/
theorem rc4_spec (key plain : Bytes) : (Rc4.apply (.new key) plain).2 = rc4 key plain := by
  have hstart : Rc4.Is (rc4_next^[0] (rc4_start key)) (.new key) := by
    rw [Function.iterate_zero, id]
    exact Rc4.is_start key
  have hstep (k : ℕ) (r : Rc4) (byte : UInt8) (h : Rc4.Is (rc4_next^[k] (rc4_start key)) r) :
      Rc4.Is (rc4_next^[k + 1] (rc4_start key)) (Rc4.step r byte).1 ∧
        (Rc4.step r byte).2 = byte ^^^ rc4_byte (rc4_next^[k + 1] (rc4_start key)) := by
    rw [Function.iterate_succ_apply']
    exact h.step byte
  rw [Rc4.apply_eq_feed, feed_eq_mapIdx hstep hstart]
  simp only [Nat.zero_add]
  rfl

/-! ### Decrypting -/

theorem Cfb.step_back (c : Cfb) (byte : UInt8) :
    (Cfb.step aes true c (Cfb.step aes false c byte).2).1 = (Cfb.step aes false c byte).1 ∧
      (Cfb.step aes true c (Cfb.step aes false c byte).2).2 = byte := by
  simp [Cfb.step, Cfb.mixed]

theorem Ctr.step_back (c : Ctr) (byte : UInt8) :
    (Ctr.step aes c (Ctr.step aes c byte).2).1 = (Ctr.step aes c byte).1 ∧
      (Ctr.step aes c (Ctr.step aes c byte).2).2 = byte := by
  simp [Ctr.step, Ctr.padded]

theorem Rc4.step_back (r : Rc4) (byte : UInt8) :
    (Rc4.step r (Rc4.step r byte).2).1 = (Rc4.step r byte).1 ∧
      (Rc4.step r (Rc4.step r byte).2).2 = byte := by
  simp [Rc4.step]

/-! ### Either direction, in pieces -/

namespace Keystream

def step (decrypt : Bool) : Keystream → UInt8 → Keystream × UInt8
  | .Cfb cfb, byte => (cfb.step aes decrypt byte).map .Cfb id
  | .Ctr ctr, byte => (ctr.step aes byte).map .Ctr id
  | .Rc4 rc4, byte => (rc4.step byte).map .Rc4 id

theorem apply_eq_feed (decrypt : Bool) (k : Keystream) (data : Bytes) :
    k.apply aes decrypt data = feed (step aes decrypt) k data := by
  induction data generalizing k with
  | nil => cases k <;> simp [apply, Cfb.apply_eq_feed, Ctr.apply_eq_feed, Rc4.apply_eq_feed]
  | cons byte data ih =>
    rw [feed_cons, ← ih]
    cases k <;>
      simp [apply, step, Cfb.apply_eq_feed, Ctr.apply_eq_feed, Rc4.apply_eq_feed]

theorem step_back (k : Keystream) (byte : UInt8) :
    (step aes true k (step aes false k byte).2).1 = (step aes false k byte).1 ∧
      (step aes true k (step aes false k byte).2).2 = byte := by
  cases k with
  | Cfb cfb =>
    have hback := cfb.step_back aes byte
    exact ⟨congrArg Keystream.Cfb hback.1, hback.2⟩
  | Ctr ctr =>
    have hback := ctr.step_back aes byte
    exact ⟨congrArg Keystream.Ctr hback.1, hback.2⟩
  | Rc4 rc4 =>
    have hback := rc4.step_back byte
    exact ⟨congrArg Keystream.Rc4 hback.1, hback.2⟩

/-- What a cipher does however the bytes are cut: it encrypts as its definition says, and decrypting
from the same start gives the bytes back. -/
structure Uncut (start : Keystream) (definition : Bytes → Bytes) : Prop where
  encrypts : ∀ calls_, (calls (encrypt aes) start calls_).2 = definition calls_.flatten
  decrypts : ∀ plain calls_, calls_.flatten = definition plain →
    (calls (decrypt aes) start calls_).2 = plain

theorem uncut {start : Keystream} {definition : Bytes → Bytes}
    (h : ∀ plain, (start.encrypt aes plain).2 = definition plain) :
    Uncut aes start definition where
  encrypts calls_ := by
    have hfeed : calls (encrypt aes) start calls_ = feed (step aes false) start calls_.flatten :=
      calls_eq_feed (apply_eq_feed aes false) start calls_
    rw [hfeed, ← h, encrypt, apply_eq_feed]
  decrypts plain calls_ hcut := by
    have hfeed : calls (decrypt aes) start calls_ = feed (step aes true) start calls_.flatten :=
      calls_eq_feed (apply_eq_feed aes true) start calls_
    rw [hfeed, hcut, ← h, encrypt, apply_eq_feed]
    refine feed_feed (R := fun k k' => k = k') ?_ rfl plain
    rintro k _ byte rfl
    have hback := step_back aes k byte
    exact ⟨hback.1.symm, hback.2⟩

/-- **However the bytes are cut, the ciphers encrypt as CFB128, CTR and RC4 do, and decrypting gives
the bytes back.** -/
theorem ciphers_uncut (iv : Block) (key : Bytes) :
    Uncut aes (.Cfb (.new iv)) (cfb aes iv) ∧ Uncut aes (.Ctr (.new iv)) (ctr aes iv) ∧
      Uncut aes (.Rc4 (.new key)) (rc4 key) :=
  ⟨uncut aes (cfb_spec aes iv), uncut aes (ctr_spec aes iv), uncut aes (rc4_spec key)⟩

end Keystream

end Rurge.Shadowsocks
