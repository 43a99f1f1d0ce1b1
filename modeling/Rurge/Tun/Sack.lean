import Mathlib

/-!
# Taking SACK-permitted out of a SYN

`strip_sack_permitted` walks the option table of a TCP SYN and turns each SACK-permitted option
into two no-operations.  Where the table begins and ends is read by the packet types of the stack,
which stand here as `Wire`, with what is relied on of them in `Wire.Reads`.
-/

namespace Rurge

namespace Tun

namespace Sack

def OPTION_END : UInt8 := 0

def OPTION_NOP : UInt8 := 1

def OPTION_SACK_PERMITTED : UInt8 := 4

/-- The kind and the length of the option at `at_`; nothing for one whose length is under two, or
past the end. -/
def option_at (options : List UInt8) (at_ : ℕ) : Option (UInt8 × ℕ) := do
  let kind ← options[at_]?
  if kind = OPTION_END ∨ kind = OPTION_NOP then return (kind, 1)
  else
    let length := (← options[at_ + 1]?).toNat
    if 2 ≤ length ∧ at_ + length ≤ options.length then return (kind, length) else none

/-- What is read of an option: a byte that is its kind, or its kind and its length. -/
theorem option_at_eq_some {options : List UInt8} {at_ length : ℕ} {kind : UInt8} :
    option_at options at_ = some (kind, length) ↔ options[at_]? = some kind ∧
      (((kind = OPTION_END ∨ kind = OPTION_NOP) ∧ length = 1) ∨
        (kind ≠ OPTION_END ∧ kind ≠ OPTION_NOP ∧
          ∃ b, options[at_ + 1]? = some b ∧ b.toNat = length ∧ 2 ≤ length ∧
            at_ + length ≤ options.length)) := by
  unfold option_at
  cases hkind : options[at_]? with
  | none => simp
  | some k =>
    simp only [Option.bind_eq_bind, Option.bind_some, Option.some.injEq, Option.pure_def]
    by_cases hone : k = OPTION_END ∨ k = OPTION_NOP
    · rw [if_pos hone]
      simp only [Option.some.injEq, Prod.mk.injEq]
      constructor
      · rintro ⟨rfl, rfl⟩
        exact ⟨rfl, .inl ⟨hone, rfl⟩⟩
      · rintro ⟨rfl, ⟨-, rfl⟩ | ⟨hend, hnop, -⟩⟩
        · exact ⟨rfl, rfl⟩
        · exact absurd hone (by simp [hend, hnop])
    · rw [if_neg hone]
      push Not at hone
      constructor
      · intro h
        obtain ⟨b, hb, h⟩ := Option.bind_eq_some_iff.1 h
        split_ifs at h with hfits
        cases h
        exact ⟨rfl, .inr ⟨hone.1, hone.2, b, hb, rfl, hfits⟩⟩
      · rintro ⟨rfl, ⟨hend, -⟩ | ⟨-, -, b, hb, rfl, hfits⟩⟩
        · exact absurd hend (by simp [hone])
        · rw [hb, Option.bind_some, if_pos hfits]

/-- An option takes a byte at least, and stands within the table. -/
theorem option_at_bounds {options : List UInt8} {at_ length : ℕ} {kind : UInt8}
    (h : option_at options at_ = some (kind, length)) :
    0 < length ∧ at_ + length ≤ options.length := by
  obtain ⟨hkind, ⟨-, rfl⟩ | ⟨-, -, b, -, -, hfits⟩⟩ := option_at_eq_some.1 h
  · have := (List.getElem?_eq_some_iff.1 hkind).1
    omega
  · omega

/-- Whether every option up to the end of the list is whole. -/
def sound (options : List UInt8) (at_ : ℕ) : Bool :=
  if at_ < options.length then
    match _h : option_at options at_ with
    | none => false
    | some (kind, length) => if kind = OPTION_END then true else sound options (at_ + length)
  else true
termination_by options.length - at_
decreasing_by
  have := option_at_bounds ‹_›
  omega

/-- The SACK-permitted options from `at_` on, each turned into two no-operations. -/
def stripped (options : List UInt8) (at_ : ℕ) : List UInt8 :=
  if at_ < options.length then
    match _h : option_at options at_ with
    | none => options
    | some (kind, length) =>
      if kind = OPTION_END then options
      else if kind = OPTION_SACK_PERMITTED ∧ length = 2 then
        stripped ((options.set at_ OPTION_NOP).set (at_ + 1) OPTION_NOP) (at_ + length)
      else stripped options (at_ + length)
  else options
termination_by options.length - at_
decreasing_by
  · have := option_at_bounds ‹_›
    rw [List.length_set, List.length_set]
    omega
  · have := option_at_bounds ‹_›
    omega

/-- The options from `at_` to the end of the list, each with its place and its bytes. -/
def walk (options : List UInt8) (at_ : ℕ) : Option (List (ℕ × List UInt8)) :=
  if at_ < options.length then
    match _h : option_at options at_ with
    | none => none
    | some (kind, length) =>
      if kind = OPTION_END then some []
      else (walk options (at_ + length)).map (((at_, (options.drop at_).take length)) :: ·)
  else some []
termination_by options.length - at_
decreasing_by
  have := option_at_bounds ‹_›
  omega

/-! ### Walking a table -/

theorem walk_of_le {options : List UInt8} {at_ : ℕ} (h : options.length ≤ at_) :
    walk options at_ = some [] := by
  rw [walk, if_neg (not_lt.2 h)]

theorem walk_none {options : List UInt8} {at_ : ℕ} (hlt : at_ < options.length)
    (h : option_at options at_ = none) : walk options at_ = none := by
  rw [walk, if_pos hlt]
  split
  · rfl
  · rename_i hsome
    rw [h] at hsome
    cases hsome

theorem walk_end {options : List UInt8} {at_ length : ℕ}
    (h : option_at options at_ = some (OPTION_END, length)) : walk options at_ = some [] := by
  have hlt : at_ < options.length := by
    have := option_at_bounds h
    omega
  rw [walk, if_pos hlt]
  split
  · rename_i hnone
    rw [h] at hnone
    cases hnone
  · rename_i hsome
    rw [h] at hsome
    cases hsome
    rfl

theorem walk_cons {options : List UInt8} {at_ length : ℕ} {kind : UInt8}
    (h : option_at options at_ = some (kind, length)) (hend : kind ≠ OPTION_END) :
    walk options at_ =
      (walk options (at_ + length)).map (((at_, (options.drop at_).take length)) :: ·) := by
  have hlt : at_ < options.length := by
    have := option_at_bounds h
    omega
  conv_lhs => rw [walk, if_pos hlt]
  split
  · rename_i hnone
    rw [h] at hnone
    cases hnone
  · rename_i hsome
    rw [h] at hsome
    cases hsome
    rw [if_neg hend]

/-- A table is sound where it can be walked. -/
theorem sound_eq_isSome (options : List UInt8) (at_ : ℕ) :
    sound options at_ = (walk options at_).isSome := by
  fun_induction sound options at_ with
  | case1 at_ hlt h => rw [walk_none hlt h]; rfl
  | case2 at_ hlt length h => rw [walk_end h]; rfl
  | case3 at_ hlt kind length h hend ih => rw [walk_cons h hend, Option.isSome_map, ih]
  | case4 at_ hlt => rw [walk_of_le (not_lt.1 hlt)]; rfl

/-! ### What becomes of a table -/

/-- A SACK-permitted option. -/
def IsSackPermitted (option : ℕ × List UInt8) : Prop :=
  option.2.head? = some OPTION_SACK_PERMITTED ∧ option.2.length = 2

instance (option : ℕ × List UInt8) : Decidable (IsSackPermitted option) := by
  unfold IsSackPermitted
  infer_instance

/-- What an option becomes: SACK-permitted two no-operations, any other itself. -/
def without (option : ℕ × List UInt8) : List (ℕ × List UInt8) :=
  if IsSackPermitted option then [(option.1, [OPTION_NOP]), (option.1 + 1, [OPTION_NOP])]
  else [option]

theorem not_isSackPermitted_of_mem_without {option o : ℕ × List UInt8} (h : o ∈ without option) :
    ¬ IsSackPermitted o := by
  unfold without at h
  split_ifs at h with hsack
  · rcases List.mem_pair.1 h with rfl | rfl <;> exact fun h => absurd h.2 (by simp)
  · rwa [List.mem_singleton.1 h]

theorem option_at_congr {options other : List UInt8} {at_ : ℕ}
    (hlength : other.length = options.length) (h : other.drop at_ = options.drop at_) :
    option_at other at_ = option_at options at_ := by
  have hget : ∀ k, other[at_ + k]? = options[at_ + k]? := fun k => by
    rw [← List.getElem?_drop, h, List.getElem?_drop]
  have hfirst := hget 0
  rw [Nat.add_zero] at hfirst
  simp only [option_at, hfirst, hget 1, hlength]

/-- The options from a place on depend on what stands there alone. -/
theorem walk_congr {options other : List UInt8} {at_ : ℕ} (hlength : other.length = options.length)
    (h : other.drop at_ = options.drop at_) : walk other at_ = walk options at_ := by
  fun_induction walk options at_ with
  | case1 at_ hlt hnone =>
    exact walk_none (hlength ▸ hlt) ((option_at_congr hlength h).trans hnone)
  | case2 at_ hlt length hsome =>
    exact walk_end ((option_at_congr hlength h).trans hsome)
  | case3 at_ hlt kind length hsome hend ih =>
    have hrest : other.drop (at_ + length) = options.drop (at_ + length) := by
      rw [← List.drop_drop, h, List.drop_drop]
    rw [walk_cons ((option_at_congr hlength h).trans hsome) hend, ih hrest, h]
  | case4 at_ hlt => exact walk_of_le (hlength.trans_le (not_lt.1 hlt))

theorem length_stripped (options : List UInt8) (at_ : ℕ) :
    (stripped options at_).length = options.length := by
  fun_induction stripped options at_ with
  | case1 => rfl
  | case2 => rfl
  | case3 options at_ hlt kind length h hend hsack ih => simpa using ih
  | case4 options at_ hlt kind length h hend hsack ih => exact ih
  | case5 => rfl

/-- What stands before the place is left. -/
theorem take_stripped (options : List UInt8) (at_ : ℕ) :
    (stripped options at_).take at_ = options.take at_ := by
  fun_induction stripped options at_ with
  | case1 => rfl
  | case2 => rfl
  | case3 options at_ hlt kind length h hend hsack ih =>
    have := congrArg (List.take at_) ih
    rw [List.take_take, List.take_take, min_eq_left (Nat.le_add_right _ _)] at this
    rw [this, List.take_set_of_le (Nat.le_succ at_), List.take_set_of_le le_rfl]
  | case4 options at_ hlt kind length h hend hsack ih =>
    have := congrArg (List.take at_) ih
    rwa [List.take_take, List.take_take, min_eq_left (Nat.le_add_right _ _)] at this
  | case5 => rfl

/-- An option is read the same where its bytes are. -/
theorem option_at_of_take {options other : List UInt8} {at_ length : ℕ} {kind : UInt8}
    (hlength : other.length = options.length)
    (htake : other.take (at_ + length) = options.take (at_ + length))
    (h : option_at options at_ = some (kind, length)) :
    option_at other at_ = some (kind, length) := by
  have hget : ∀ i < at_ + length, other[i]? = options[i]? := fun i hi => by
    rw [← List.getElem?_take_of_lt hi, htake, List.getElem?_take_of_lt hi]
  obtain ⟨hkind, hrest⟩ := option_at_eq_some.1 h
  refine option_at_eq_some.2 ⟨?_, ?_⟩
  · rw [hget at_ (by have := option_at_bounds h; omega)]
    exact hkind
  · rcases hrest with hone | ⟨hend, hnop, b, hb, hlen, hfits⟩
    · exact .inl hone
    · refine .inr ⟨hend, hnop, b, ?_, hlen, hfits.1, by omega⟩
      rw [hget (at_ + 1) (by omega)]
      exact hb

/-- The bytes of an option. -/
theorem take_drop_of_take {options other : List UInt8} {at_ length : ℕ}
    (htake : other.take (at_ + length) = options.take (at_ + length)) :
    (other.drop at_).take length = (options.drop at_).take length := by
  have := congrArg (List.drop at_) htake
  rwa [List.drop_take, List.drop_take, Nat.add_sub_cancel_left] at this

/-- An option's bytes are as many as its length, and the first is its kind. -/
theorem option_bytes {options : List UInt8} {at_ length : ℕ} {kind : UInt8}
    (h : option_at options at_ = some (kind, length)) :
    ((options.drop at_).take length).head? = some kind ∧
      ((options.drop at_).take length).length = length := by
  obtain ⟨hpos, hfits⟩ := option_at_bounds h
  refine ⟨?_, by rw [List.length_take, List.length_drop]; omega⟩
  rw [List.head?_take, if_neg hpos.ne', List.head?_drop]
  exact (option_at_eq_some.1 h).1

theorem isSackPermitted_iff {options : List UInt8} {at_ length : ℕ} {kind : UInt8}
    (h : option_at options at_ = some (kind, length)) :
    IsSackPermitted (at_, (options.drop at_).take length) ↔
      kind = OPTION_SACK_PERMITTED ∧ length = 2 := by
  obtain ⟨hhead, hlength⟩ := option_bytes h
  rw [IsSackPermitted, hhead, hlength, Option.some.injEq]

/-- A byte that is a no-operation is read as one. -/
theorem option_at_nop {options : List UInt8} {at_ : ℕ} (h : options[at_]? = some OPTION_NOP) :
    option_at options at_ = some (OPTION_NOP, 1) :=
  option_at_eq_some.2 ⟨h, .inl ⟨.inr rfl, rfl⟩⟩

/-- **The table that is left.**  Its options are those that were there, at the same places, each
SACK-permitted option two no-operations. -/
theorem walk_stripped {options : List UInt8} {at_ : ℕ} {w : List (ℕ × List UInt8)}
    (hw : walk options at_ = some w) :
    walk (stripped options at_) at_ = some (w.flatMap without) := by
  fun_induction stripped options at_ generalizing w with
  | case1 options at_ hlt h =>
    rw [walk_none hlt h] at hw
    cases hw
  | case2 options at_ hlt length h =>
    rw [walk_end h] at hw ⊢
    cases hw
    rfl
  | case3 options at_ hlt kind length h hend hsack ih =>
    rw [walk_cons h hend, Option.map_eq_some_iff] at hw
    obtain ⟨w', hw', rfl⟩ := hw
    have hin := (isSackPermitted_iff h).2 hsack
    obtain ⟨rfl, rfl⟩ := hsack
    have hlong := option_at_bounds h
    set cleared := (options.set at_ OPTION_NOP).set (at_ + 1) OPTION_NOP with hcleared
    have hlength : cleared.length = options.length := by simp [hcleared]
    have hbehind : cleared.drop (at_ + 2) = options.drop (at_ + 2) := by
      rw [hcleared, List.drop_set_of_lt (by omega), List.drop_set_of_lt (by omega)]
    have hrest := ih (by rw [walk_congr hlength hbehind]; exact hw')
    have hget : ∀ i < at_ + 2, (stripped cleared (at_ + 2))[i]? = cleared[i]? := fun i hi => by
      rw [← List.getElem?_take_of_lt hi, take_stripped, List.getElem?_take_of_lt hi]
    have hfirst : (stripped cleared (at_ + 2))[at_]? = some OPTION_NOP := by
      rw [hget at_ (by omega), hcleared, List.getElem?_set_ne (by omega),
        List.getElem?_set_self (by omega)]
    have hsecond : (stripped cleared (at_ + 2))[at_ + 1]? = some OPTION_NOP := by
      rw [hget (at_ + 1) (by omega), hcleared,
        List.getElem?_set_self (by rw [List.length_set]; omega)]
    have hone : ∀ {k}, (stripped cleared (at_ + 2))[k]? = some OPTION_NOP →
        ((stripped cleared (at_ + 2)).drop k).take 1 = [OPTION_NOP] := fun {k} hk => by
      rw [List.take_one, List.head?_drop, hk]
      rfl
    rw [walk_cons (option_at_nop hfirst) (by decide), walk_cons (option_at_nop hsecond) (by decide),
      hrest, hone hfirst, hone hsecond, List.flatMap_cons, without, if_pos hin]
    rfl
  | case4 options at_ hlt kind length h hend hsack ih =>
    rw [walk_cons h hend, Option.map_eq_some_iff] at hw
    obtain ⟨w', hw', rfl⟩ := hw
    have hin := mt (isSackPermitted_iff h).1 hsack
    have htake := take_stripped options (at_ + length)
    have hsame := option_at_of_take (length_stripped options (at_ + length)) htake h
    rw [walk_cons hsame hend, ih hw', take_drop_of_take htake, List.flatMap_cons, without,
      if_neg hin]
    rfl
  | case5 options at_ hlt =>
    rw [walk_of_le (not_lt.1 hlt)] at hw ⊢
    cases hw
    rfl

/-- Only the bytes of SACK-permitted options change. -/
theorem getElem?_stripped {options : List UInt8} {at_ : ℕ} {w : List (ℕ × List UInt8)}
    (hw : walk options at_ = some w) {i : ℕ}
    (hi : ∀ o ∈ w, IsSackPermitted o → i ≠ o.1 ∧ i ≠ o.1 + 1) :
    (stripped options at_)[i]? = options[i]? := by
  fun_induction stripped options at_ generalizing w with
  | case1 => rfl
  | case2 => rfl
  | case3 options at_ hlt kind length h hend hsack ih =>
    rw [walk_cons h hend, Option.map_eq_some_iff] at hw
    obtain ⟨w', hw', rfl⟩ := hw
    have hnot := hi _ List.mem_cons_self ((isSackPermitted_iff h).2 hsack)
    have hbehind : ((options.set at_ OPTION_NOP).set (at_ + 1) OPTION_NOP).drop (at_ + length) =
        options.drop (at_ + length) := by
      rw [List.drop_set_of_lt (by omega), List.drop_set_of_lt (by omega)]
    rw [ih (by rw [walk_congr (by simp) hbehind]; exact hw')
      (fun o ho => hi o (List.mem_cons_of_mem _ ho)), List.getElem?_set_ne (Ne.symm hnot.2),
      List.getElem?_set_ne (Ne.symm hnot.1)]
  | case4 options at_ hlt kind length h hend hsack ih =>
    rw [walk_cons h hend, Option.map_eq_some_iff] at hw
    obtain ⟨w', hw', rfl⟩ := hw
    exact ih hw' fun o ho => hi o (List.mem_cons_of_mem _ ho)
  | case5 => rfl

/-- Once is enough. -/
theorem stripped_stripped {options : List UInt8} {at_ : ℕ} {w : List (ℕ × List UInt8)}
    (hw : walk options at_ = some w) :
    stripped (stripped options at_) at_ = stripped options at_ := by
  refine List.ext_getElem? fun i => getElem?_stripped (walk_stripped hw) fun o ho hsack => ?_
  obtain ⟨option, -, ho⟩ := List.mem_flatMap.1 ho
  exact absurd hsack (not_isSackPermitted_of_mem_without ho)

/-! ### The table of a packet -/

/-- The stack's packet types: of an IP packet that is whole, its header's length and whether its
protocol is TCP; of a TCP segment that is whole, whether it is a SYN and its header's length. -/
structure Wire where
  ipv4 : List UInt8 → Option (ℕ × Bool)
  ipv6 : List UInt8 → Option (ℕ × Bool)
  tcp : List UInt8 → Option (Bool × ℕ)

/-- What is relied on of them: they read the fixed header and how long the bytes are, an IPv6 header
is 40 bytes, and a TCP header is 20 bytes at least and within the segment. -/
structure Wire.Reads (s : Wire) : Prop where
  ipv4 : ∀ p q, p.length = q.length → p.take 20 = q.take 20 → s.ipv4 p = s.ipv4 q
  ipv6 : ∀ p q, p.length = q.length → p.take 40 = q.take 40 → s.ipv6 p = s.ipv6 q
  ipv6_header : ∀ p n t, s.ipv6 p = some (n, t) → n = 40
  tcp : ∀ p q, p.length = q.length → p.take 20 = q.take 20 → s.tcp p = s.tcp q
  tcp_header : ∀ p syn n, s.tcp p = some (syn, n) → 20 ≤ n ∧ n ≤ p.length

def IPV4_HEADER_LEN : ℕ := 20

/-- Where the TCP header begins, in a packet of the protocol TCP. -/
def tcp_start (s : Wire) (packet : List UInt8) : Option ℕ := do
  let version := (← packet.head?) >>> 4
  if version = 4 then
    let (header, tcp) ← s.ipv4 packet
    if IPV4_HEADER_LEN ≤ header ∧ tcp = true then some header else none
  else if version = 6 then
    let (header, tcp) ← s.ipv6 packet
    if tcp = true then some header else none
  else none

/-- The packet with the SACK-permitted options taken out, if it is a SYN of a sound table. -/
def strip_sack_permitted (s : Wire) (packet : List UInt8) : List UInt8 :=
  match tcp_start s packet with
  | none => packet
  | some start =>
    if packet.length < start then packet
    else
      match s.tcp (packet.drop start) with
      | none => packet
      | some (syn, header) =>
        if syn = false then packet
        else
          let options := ((packet.drop start).take header).drop 20
          if sound options 0 = false then packet
          else packet.take (start + 20) ++ stripped options 0 ++ packet.drop (start + header)

/-- Where the option table of a SYN begins and ends. -/
def syn_table (s : Wire) (packet : List UInt8) : Option (ℕ × ℕ) := do
  let start ← tcp_start s packet
  if packet.length < start then none
  else
    let (syn, header) ← s.tcp (packet.drop start)
    if syn = false then none else some (start + 20, start + header)

/-- The bytes from `a` to `b`. -/
def between (packet : List UInt8) (a b : ℕ) : List UInt8 := (packet.take b).drop a

variable {s : Wire} {packet : List UInt8} {a b : ℕ}

/-- What is done, in terms of the table alone. -/
theorem strip_eq (s : Wire) (packet : List UInt8) :
    strip_sack_permitted s packet = match syn_table s packet with
      | none => packet
      | some (a, b) =>
        if sound (between packet a b) 0 = false then packet
        else packet.take a ++ stripped (between packet a b) 0 ++ packet.drop b := by
  unfold strip_sack_permitted syn_table
  cases tcp_start s packet with
  | none => rfl
  | some start =>
    simp only [Option.bind_eq_bind, Option.bind_some]
    by_cases hlt : packet.length < start
    · rw [if_pos hlt, if_pos hlt]
    rw [if_neg hlt, if_neg hlt]
    cases s.tcp (packet.drop start) with
    | none => rfl
    | some r =>
      obtain ⟨syn, header⟩ := r
      simp only [Option.bind_some]
      cases syn with
      | false => rfl
      | true =>
        have hbetween : between packet (start + 20) (start + header) =
            ((packet.drop start).take header).drop 20 := by
          rw [between, ← List.drop_drop, List.drop_take, Nat.add_sub_cancel_left]
        simp only [Bool.true_eq_false, if_false, hbetween]

/-- A table stands within its packet, behind 20 bytes of the IP header and 20 of the TCP header; and
what has the same bytes in front of the table has it in the same place. -/
theorem syn_table_spec (hs : s.Reads) (h : syn_table s packet = some (a, b)) :
    a ≤ b ∧ b ≤ packet.length ∧
      ∀ other : List UInt8, other.length = packet.length → other.take a = packet.take a →
        syn_table s other = some (a, b) := by
  unfold syn_table at h
  simp only [Option.bind_eq_bind, Option.bind_eq_some_iff] at h
  obtain ⟨start, hstart, h⟩ := h
  split_ifs at h with hlt
  obtain ⟨⟨syn, header⟩, htcp, h⟩ := Option.bind_eq_some_iff.1 h
  simp only at h
  split_ifs at h with hsyn
  simp only [Option.some.injEq, Prod.mk.injEq] at h
  obtain ⟨rfl, rfl⟩ := h
  obtain ⟨hmin, hmax⟩ := hs.tcp_header _ _ _ htcp
  rw [List.length_drop] at hmax
  refine ⟨by omega, by omega, fun other hlength htake => ?_⟩
  have hless : ∀ n ≤ start + 20, other.take n = packet.take n := fun n hn => by
    have := congrArg (List.take n) htake
    rwa [List.take_take, List.take_take, min_eq_left hn] at this
  have hstart' : tcp_start s other = some start := by
    have hhead : other.head? = packet.head? := by
      have := congrArg List.head? (hless 1 (by omega))
      rwa [List.head?_take, List.head?_take, if_neg one_ne_zero, if_neg one_ne_zero] at this
    unfold tcp_start at hstart ⊢
    rw [hhead]
    cases hfirst : packet.head? with
    | none =>
      rw [hfirst] at hstart
      cases hstart
    | some first =>
      simp only [hfirst, Option.bind_eq_bind, Option.bind_some] at hstart ⊢
      split_ifs at hstart ⊢ with hfour hsix
      · obtain ⟨⟨n, t⟩, hread, hn⟩ := Option.bind_eq_some_iff.1 hstart
        simp only at hn
        split_ifs at hn with hgood
        obtain rfl := Option.some.inj hn
        have := hgood.1
        rw [hs.ipv4 other packet hlength (hless 20 (by omega)), hread, Option.bind_some]
        exact if_pos hgood
      · obtain ⟨⟨n, t⟩, hread, hn⟩ := Option.bind_eq_some_iff.1 hstart
        simp only at hn
        split_ifs at hn with hgood
        obtain rfl := Option.some.inj hn
        obtain rfl := hs.ipv6_header _ _ _ hread
        rw [hs.ipv6 other packet hlength (hless 40 (by omega)), hread, Option.bind_some]
        exact if_pos hgood
  have htcp' : s.tcp (other.drop start) = s.tcp (packet.drop start) := by
    refine hs.tcp _ _ (by rw [List.length_drop, List.length_drop, hlength]) ?_
    have := congrArg (List.drop start) htake
    rwa [List.drop_take, List.drop_take, Nat.add_sub_cancel_left] at this
  simp only [syn_table, hstart', Option.bind_eq_bind, Option.bind_some, hlength, if_neg hlt, htcp',
    htcp, if_neg hsyn]

/-- The table replaced by one as long. -/
theorem between_replaced {t : List UInt8} (hab : a ≤ b) (hb : b ≤ packet.length)
    (ht : t.length = b - a) :
    (packet.take a ++ t ++ packet.drop b).length = packet.length ∧
      (packet.take a ++ t ++ packet.drop b).take a = packet.take a ∧
      (packet.take a ++ t ++ packet.drop b).drop b = packet.drop b ∧
      between (packet.take a ++ t ++ packet.drop b) a b = t := by
  have ha : (packet.take a).length = a := by
    rw [List.length_take]
    omega
  have hfront : (packet.take a ++ t).length = b := by
    rw [List.length_append, ha, ht]
    omega
  refine ⟨?_, ?_, ?_, ?_⟩
  · rw [List.length_append, hfront, List.length_drop]
    omega
  · rw [List.append_assoc, List.take_left' ha]
  · rw [List.drop_left' hfront]
  · rw [between, List.take_left' hfront, List.drop_left' ha]

/-- **SACK-permitted is taken out, and nothing else.**  The packet is as long as it was, and once is
enough; what is no SYN is left.  Of a SYN the bytes outside its option table are left; where the
table is not sound nothing changes; where it is, the options that are left are those that were
there, at the same places, each SACK-permitted option two no-operations, so that none is found any
more, and no byte but theirs has changed. -/
theorem strip_sack_permitted_spec (hs : s.Reads) (packet : List UInt8) :
    (strip_sack_permitted s packet).length = packet.length ∧
    strip_sack_permitted s (strip_sack_permitted s packet) = strip_sack_permitted s packet ∧
    (syn_table s packet = none → strip_sack_permitted s packet = packet) ∧
    ∀ a b, syn_table s packet = some (a, b) →
      syn_table s (strip_sack_permitted s packet) = some (a, b) ∧
      (∀ i, i < a ∨ b ≤ i → (strip_sack_permitted s packet)[i]? = packet[i]?) ∧
      (walk (between packet a b) 0 = none → strip_sack_permitted s packet = packet) ∧
      ∀ w, walk (between packet a b) 0 = some w →
        walk (between (strip_sack_permitted s packet) a b) 0 = some (w.flatMap without) ∧
        (∀ o ∈ w.flatMap without, ¬ IsSackPermitted o) ∧
        ∀ i, (∀ o ∈ w, IsSackPermitted o → i ≠ o.1 ∧ i ≠ o.1 + 1) →
          (between (strip_sack_permitted s packet) a b)[i]? = (between packet a b)[i]? := by
  cases htable : syn_table s packet with
  | none =>
    have hsame : strip_sack_permitted s packet = packet := by rw [strip_eq, htable]
    refine ⟨by rw [hsame], by rw [hsame, hsame], fun _ => hsame, fun a b h => by cases h⟩
  | some r =>
    obtain ⟨a, b⟩ := r
    obtain ⟨hab, hb, hplace⟩ := syn_table_spec hs htable
    cases hw : walk (between packet a b) 0 with
    | none =>
      have hsound : sound (between packet a b) 0 = false := by
        rw [sound_eq_isSome, hw]
        rfl
      have hsame : strip_sack_permitted s packet = packet := by
        rw [strip_eq, htable]
        exact if_pos hsound
      refine ⟨by rw [hsame], by rw [hsame, hsame], fun _ => hsame, fun a' b' h => ?_⟩
      obtain ⟨rfl, rfl⟩ := Prod.mk.inj (Option.some.inj h)
      refine ⟨by rw [hsame, htable], fun i _ => by rw [hsame], fun _ => hsame, fun w h => ?_⟩
      rw [hw] at h
      cases h
    | some w =>
      have hsound : ¬ sound (between packet a b) 0 = false := by
        rw [sound_eq_isSome, hw]
        simp
      have hstrip : strip_sack_permitted s packet =
          packet.take a ++ stripped (between packet a b) 0 ++ packet.drop b := by
        rw [strip_eq, htable]
        exact if_neg hsound
      have hlength : (stripped (between packet a b) 0).length = b - a := by
        rw [length_stripped, between, List.length_drop, List.length_take]
        omega
      obtain ⟨hlen, htake, hdrop, hbetween⟩ := between_replaced hab hb hlength
      rw [← hstrip] at hlen htake hdrop hbetween
      have htable' := hplace _ hlen htake
      have hagain : strip_sack_permitted s (strip_sack_permitted s packet) =
          strip_sack_permitted s packet := by
        have hsound' : ¬ sound (stripped (between packet a b) 0) 0 = false := by
          rw [sound_eq_isSome, walk_stripped hw]
          simp
        rw [strip_eq, htable']
        simp only [hbetween, if_neg hsound', stripped_stripped hw, htake, hdrop]
        exact hstrip.symm
      refine ⟨hlen, hagain, by simp, fun a' b' h => ?_⟩
      obtain ⟨rfl, rfl⟩ := Prod.mk.inj (Option.some.inj h)
      refine ⟨htable', fun i hi => ?_, fun h => ?_, fun w' h => ?_⟩
      · rcases hi with hi | hi
        · rw [← List.getElem?_take_of_lt hi, htake, List.getElem?_take_of_lt hi]
        · obtain ⟨k, rfl⟩ := Nat.exists_eq_add_of_le hi
          rw [← List.getElem?_drop, hdrop, List.getElem?_drop]
      · rw [hw] at h
        cases h
      · obtain rfl := Option.some.inj (hw.symm.trans h)
        rw [hbetween]
        refine ⟨walk_stripped hw, fun o ho => ?_, fun i hi => getElem?_stripped hw hi⟩
        obtain ⟨option, -, ho⟩ := List.mem_flatMap.1 ho
        exact not_isSackPermitted_of_mem_without ho

/-- The packet types as smoltcp has them. -/
def smoltcp : Wire where
  ipv4 p :=
    let header := p.take 20
    let len := (header.getD 0 0).toNat % 16 * 4
    let total := (header.getD 2 0).toNat * 256 + (header.getD 3 0).toNat
    if p.length < 20 ∨ p.length < len ∨ total < len ∨ p.length < total then none
    else some (len, header.getD 9 0 == 6)
  ipv6 p :=
    let header := p.take 40
    let payload := (header.getD 4 0).toNat * 256 + (header.getD 5 0).toNat
    if p.length < 40 ∨ p.length < 40 + payload then none else some (40, header.getD 6 0 == 6)
  tcp p :=
    let header := p.take 20
    let len := (header.getD 12 0).toNat / 16 * 4
    if p.length < 20 ∨ p.length < len ∨ len < 20 then none
    else some ((header.getD 13 0).toNat / 2 % 2 == 1, len)

theorem reads_smoltcp : smoltcp.Reads where
  ipv4 p q hlength htake := by simp only [smoltcp, hlength, htake]
  ipv6 p q hlength htake := by simp only [smoltcp, hlength, htake]
  ipv6_header p n t h := by
    simp only [smoltcp] at h
    split_ifs at h
    exact (Prod.mk.inj (Option.some.inj h)).1.symm
  tcp p q hlength htake := by simp only [smoltcp, hlength, htake]
  tcp_header p syn n h := by
    simp only [smoltcp] at h
    split_ifs at h with hbad
    obtain rfl := (Prod.mk.inj (Option.some.inj h)).2
    omega

/-- A SYN whose table is a window scale and SACK-permitted. -/
def a_syn : List UInt8 :=
  [0x45, 0, 0, 48, 0, 0, 0, 0, 64, 6, 0, 0, 198, 18, 0, 1, 192, 0, 2, 1,
    0x9c, 0x40, 0, 80, 0, 0, 0, 1, 0, 0, 0, 0, 0x70, 2, 0xff, 0xff, 0, 0, 0, 0,
    3, 3, 7, 1, 4, 2, 1, 0]

theorem strip_sack_permitted_syn :
    walk (between a_syn 40 48) 0 = some [(0, [3, 3, 7]), (3, [1]), (4, [4, 2]), (6, [1])] ∧
      walk (between (strip_sack_permitted smoltcp a_syn) 40 48) 0 =
        some [(0, [3, 3, 7]), (3, [1]), (4, [1]), (5, [1]), (6, [1])] := by
  have hwalk : walk (between a_syn 40 48) 0 =
      some [(0, [3, 3, 7]), (3, [1]), (4, [4, 2]), (6, [1])] := by decide +kernel
  have htable : syn_table smoltcp a_syn = some (40, 48) := by decide +kernel
  exact ⟨hwalk,
    (((strip_sack_permitted_spec reads_smoltcp a_syn).2.2.2 40 48 htable).2.2.2 _ hwalk).1⟩

end Sack

end Tun

end Rurge
