import Rurge.H3.Qpack

/-!
# What QPACK reads is what was written

A section that `encode` writes is read as its fields, when their sizes are within the limit, and is
too large otherwise (`decode_encode`).  Of any section that is cut fewer fields are read, or none
(`decode_cut`); what is read of it is within the limit (`size_of_decode`), and no sum passes its
integer while the section fits in memory (`decode_ne_overflow`).
-/

namespace Rurge

namespace H3

namespace Qpack

/-- A field's part in the size of a section: its name, its value and 32 bytes. -/
def cost (field : Field) : ℕ := field.1.length + field.2.length + 32

/-- The size of a section. -/
def size (fields : List Field) : ℕ := (fields.map cost).sum

@[simp] theorem size_nil : size [] = 0 := rfl

@[simp] theorem size_cons (field : Field) (fields : List Field) :
    size (field :: fields) = cost field + size fields := List.sum_cons

theorem word_of_lt {n : ℕ} (h : n < 2 ^ 64) : word n = .ok n := if_pos h

theorem word_of_ge {n : ℕ} (h : 2 ^ 64 ≤ n) : word n = .error .Overflow := if_neg (not_lt.2 h)

/-! ### Integers -/

theorem last_byte : ∀ n < 128, (UInt8.ofNat n &&& 0x7f).toNat = n ∧
    UInt8.ofNat n &&& 0x80 = 0 := by
  decide

theorem inner_byte : ∀ n < 128, ((0x80 ||| UInt8.ofNat n) &&& 0x7f).toNat = n ∧
    (0x80 ||| UInt8.ofNat n) &&& 0x80 ≠ 0 := by
  decide

/-- What an integer has past its prefix is read back, seven bits a byte. -/
theorem get_more_put_more {rest value k : ℕ} (hrest : rest * 2 ^ (7 * k) < 2 ^ 63)
    (hvalue : value + rest * 2 ^ (7 * k) < 2 ^ 64) (hk : k ≤ 8) (src : List UInt8) :
    get_more value (7 * k) (put_more rest ++ src) = .ok (value + rest * 2 ^ (7 * k), src) := by
  induction rest using Nat.strong_induction_on generalizing value k with
  | _ rest ih =>
    rw [put_more]
    split_ifs with hmore
    · have hmod : rest &&& 0x7f = rest % 128 := Nat.and_two_pow_sub_one_eq_mod rest 7
      have hdiv : rest >>> 7 = rest / 128 := Nat.shiftRight_eq_div_pow rest 7
      obtain ⟨hlow, hhigh⟩ := inner_byte (rest % 128) (Nat.mod_lt _ (by decide))
      have hpow : 2 ^ (7 * (k + 1)) = 128 * 2 ^ (7 * k) := by
        rw [Nat.mul_succ, pow_add, mul_comm]
        rfl
      have hsplit : rest * 2 ^ (7 * k) =
          rest % 128 * 2 ^ (7 * k) + rest / 128 * 2 ^ (7 * (k + 1)) := by
        rw [hpow, ← mul_assoc, ← add_mul, mul_comm (rest / 128), Nat.mod_add_div]
      have hshort : k + 1 ≤ 8 := by
        by_contra hlong
        have hle : 2 ^ 56 ≤ 2 ^ (7 * k) := Nat.pow_le_pow_right (by decide) (by omega)
        have := Nat.mul_le_mul hmore hle
        omega
      rw [hmod, hdiv, List.cons_append, get_more, hlow, Nat.shiftLeft_eq,
        word_of_lt (by omega)]
      show (if (0x80 ||| UInt8.ofNat (rest % 128)) &&& 0x80 = 0 then _
        else if 56 < 7 * k + 7 then _ else _) = _
      rw [if_neg hhigh, if_neg (by omega), ← Nat.mul_succ,
        ih _ (by omega) (by omega) (by omega) hshort, hsplit, add_assoc]
    · obtain ⟨hlow, hhigh⟩ := last_byte rest (by omega)
      rw [List.singleton_append, get_more, hlow, Nat.shiftLeft_eq, word_of_lt hvalue]
      exact if_pos hhigh

/-- The flags stand above an `n`-bit prefix. -/
def Above (n : ℕ) (flags : UInt8) : Prop :=
  ∀ v < 2 ^ n, (flags ||| .ofNat v).toNat &&& (2 ^ n - 1) = v ∧
    flags_of n (flags ||| .ofNat v) = flags

instance (n : ℕ) (flags : UInt8) : Decidable (Above n flags) :=
  inferInstanceAs (Decidable (∀ v < 2 ^ n, _ ∧ _))

theorem get_int_short {n : ℕ} {first : UInt8} (src : List UInt8)
    (h : first.toNat &&& (2 ^ n - 1) ≠ 2 ^ n - 1) :
    get_int n (first :: src) = .ok ((flags_of n first, first.toNat &&& (2 ^ n - 1)), src) := by
  unfold get_int
  rw [Reader.bind_ok (Reader.next_cons invalid first src), if_neg h]
  rfl

theorem get_int_long {n value : ℕ} {first : UInt8} {src rest : List UInt8}
    (h : first.toNat &&& (2 ^ n - 1) = 2 ^ n - 1)
    (hmore : get_more (2 ^ n - 1) 0 src = .ok (value, rest)) (hvalue : value ≤ VARINT_MAX) :
    get_int n (first :: src) = .ok ((flags_of n first, value), rest) := by
  unfold get_int
  rw [Reader.bind_ok (Reader.next_cons invalid first src), if_pos h, h, Reader.bind_ok hmore,
    if_neg (not_lt.2 hvalue)]
  rfl

/-- An integer is read back. -/
theorem get_int_put_int {n value : ℕ} {flags : UInt8} (h : Above n flags) (hn : n ≤ 8)
    (hvalue : value < 2 ^ 62) (src : List UInt8) :
    get_int n (put_int flags n value ++ src) = .ok ((flags, value), src) := by
  have hpow : 2 ^ n ≤ 2 ^ 8 := Nat.pow_le_pow_right (by decide) hn
  have hpos : 0 < 2 ^ n := Nat.two_pow_pos n
  unfold put_int
  dsimp only
  split_ifs with hshort
  · obtain ⟨hlow, hflags⟩ := h value (by omega)
    rw [List.singleton_append, get_int_short src (by omega), hlow, hflags]
  · obtain ⟨hlow, hflags⟩ := h (2 ^ n - 1) (by omega)
    have hmore := @get_more_put_more (value - (2 ^ n - 1)) (2 ^ n - 1) 0 (by omega) (by omega)
      (by decide) src
    have hsum : 2 ^ n - 1 + (value - (2 ^ n - 1)) * 2 ^ (7 * 0) = value := by omega
    rw [hsum] at hmore
    have hmax : value ≤ VARINT_MAX := Nat.le_sub_one_of_lt hvalue
    rw [List.cons_append, get_int_long hlow hmore hmax, hflags]

/-! ### Strings -/

theorem get_string_put_string {n : ℕ} {flags : UInt8} {bytes : List UInt8} (h : Above n flags)
    (hn : n ≤ 8) (hflag : flags &&& (1 : UInt8) <<< .ofNat n = 0) (hbytes : bytes.length < 2 ^ 62)
    (src : List UInt8) : get_string n (put_string flags n bytes ++ src) = .ok (bytes, src) := by
  unfold get_string put_string
  have htake : Reader.take invalid bytes.length (bytes ++ src) = .ok (bytes, src) := by
    unfold Reader.take
    rw [if_neg (by rw [List.length_append]; omega), List.take_left, List.drop_left]
  rw [List.append_assoc, Reader.bind_ok (get_int_put_int h hn hbytes _)]
  dsimp only
  rw [Reader.bind_ok htake, if_neg (not_not.2 hflag)]
  rfl

/-! ### Fields -/

theorem put_int_head (flags : UInt8) (n value : ℕ) :
    ∃ v < 2 ^ n, ∃ rest, put_int flags n value = (flags ||| .ofNat v) :: rest := by
  have hpos : 0 < 2 ^ n := Nat.two_pow_pos n
  unfold put_int
  dsimp only
  split_ifs with hshort
  · exact ⟨value, by omega, [], rfl⟩
  · exact ⟨2 ^ n - 1, by omega, _, rfl⟩

theorem entry_of_findIdx? {p : Field → Bool} {index : ℕ}
    (h : STATIC_TABLE.findIdx? p = some index) :
    ∃ e, entry index = .ok e ∧ p e = true ∧ index < 99 := by
  obtain ⟨hlt, hp, -⟩ := List.findIdx?_eq_some_iff_getElem.1 h
  refine ⟨STATIC_TABLE[index], ?_, hp, hlt⟩
  unfold entry
  rw [List.getElem?_eq_getElem hlt]

theorem get_field_indexed {index : ℕ} {field : Field} (hentry : entry index = .ok field)
    (hindex : index < 99) (src : List UInt8) :
    ∃ first rest, put_int 0xc0 6 index = first :: rest ∧
      get_field first (put_int 0xc0 6 index ++ src) = .ok (field, src) := by
  have hfirst : ∀ v < 64, (0xc0 ||| UInt8.ofNat v) &&& 0x80 ≠ 0 := by decide
  obtain ⟨v, hv, rest, hput⟩ := put_int_head 0xc0 6 index
  refine ⟨_, rest, hput, ?_⟩
  unfold get_field
  rw [if_pos (hfirst v hv), Reader.bind_ok (get_int_put_int (by decide) (by decide) (by omega) src)]
  dsimp only
  rw [if_neg (by decide), Reader.lift_apply, hentry]
  rfl

theorem get_field_named {index : ℕ} {named : Field} {value : List UInt8} {flags : UInt8}
    (hflags : flags = 0x50 ∨ flags = 0x70) (hentry : entry index = .ok named) (hindex : index < 99)
    (hvalue : value.length < 2 ^ 62) (src : List UInt8) :
    ∃ first rest, put_int flags 4 index ++ put_string 0 7 value = first :: rest ∧
      get_field first (put_int flags 4 index ++ put_string 0 7 value ++ src) =
        .ok ((named.1, value), src) := by
  have hfirst : ∀ v < 16, (flags ||| UInt8.ofNat v) &&& 0x80 = 0 ∧
      (flags ||| UInt8.ofNat v) &&& 0x40 ≠ 0 := by
    rcases hflags with rfl | rfl <;> decide
  have habove : Above 4 flags := by rcases hflags with rfl | rfl <;> decide
  have htable : flags &&& 0x10 ≠ 0 := by rcases hflags with rfl | rfl <;> decide
  obtain ⟨v, hv, rest, hput⟩ := put_int_head flags 4 index
  refine ⟨flags ||| .ofNat v, rest ++ put_string 0 7 value, by rw [hput]; rfl, ?_⟩
  unfold get_field
  rw [if_neg (not_not.2 (hfirst v hv).1), if_pos (hfirst v hv).2, List.append_assoc,
    Reader.bind_ok (get_int_put_int habove (by decide) (by omega) _)]
  dsimp only
  rw [if_neg htable, Reader.bind_ok (show (liftM (entry index) : Reader UInt8 Fault Field) _ =
    .ok (named, _) by rw [Reader.lift_apply, hentry]; rfl),
    Reader.bind_ok (get_string_put_string (by decide) (by decide) (by decide) hvalue src)]
  rfl

theorem get_field_literal {name value : List UInt8} {flags : UInt8}
    (hflags : flags = 0x20 ∨ flags = 0x30) (hname : name.length < 2 ^ 62)
    (hvalue : value.length < 2 ^ 62) (src : List UInt8) :
    ∃ first rest, put_string flags 3 name ++ put_string 0 7 value = first :: rest ∧
      get_field first (put_string flags 3 name ++ put_string 0 7 value ++ src) =
        .ok ((name, value), src) := by
  have hfirst : ∀ v < 8, (flags ||| UInt8.ofNat v) &&& 0x80 = 0 ∧
      (flags ||| UInt8.ofNat v) &&& 0x40 = 0 ∧ (flags ||| UInt8.ofNat v) &&& 0x20 ≠ 0 := by
    rcases hflags with rfl | rfl <;> decide
  have habove : Above 3 flags := by rcases hflags with rfl | rfl <;> decide
  have hplain : flags &&& (1 : UInt8) <<< .ofNat 3 = 0 := by rcases hflags with rfl | rfl <;> decide
  obtain ⟨v, hv, rest, hput⟩ := put_int_head flags 3 name.length
  obtain ⟨hindexed, hnamed, hliteral⟩ := hfirst v hv
  refine ⟨flags ||| .ofNat v, rest ++ name ++ put_string 0 7 value, ?_, ?_⟩
  · rw [put_string, hput]
    rfl
  · unfold get_field
    rw [if_neg (not_not.2 hindexed), if_neg (not_not.2 hnamed), if_pos hliteral, List.append_assoc,
      Reader.bind_ok (get_string_put_string habove (by decide) hplain hname _),
      Reader.bind_ok (get_string_put_string (by decide) (by decide) (by decide) hvalue src)]
    rfl

/-- A field that is written is read back. -/
theorem get_field_put_field {field : Field} (hname : field.1.length < 2 ^ 62)
    (hvalue : field.2.length < 2 ^ 62) (sensitive : Bool) (src : List UInt8) :
    ∃ first rest, put_field field sensitive = first :: rest ∧
      get_field first (put_field field sensitive ++ src) = .ok (field, src) := by
  unfold put_field
  dsimp only
  split
  case h_1 index hexact =>
    have hposition : STATIC_TABLE.findIdx? (fun e => e.1 == field.1 && e.2 == field.2) =
        some index := by
      cases sensitive with
      | false => exact hexact
      | true => cases hexact
    obtain ⟨e, hentry, hfound, hindex⟩ := entry_of_findIdx? hposition
    have heq : e = field := by
      rw [Bool.and_eq_true, beq_iff_eq, beq_iff_eq] at hfound
      exact Prod.ext hfound.1 hfound.2
    exact get_field_indexed (heq ▸ hentry) hindex src
  case h_2 index hexact hnamed =>
    obtain ⟨e, hentry, hfound, hindex⟩ := entry_of_findIdx? hnamed
    have heq : (e.1, field.2) = field := Prod.ext (beq_iff_eq.1 hfound) rfl
    have hflags : (0x50 ||| if sensitive then 0x20 else 0 : UInt8) = 0x50 ∨
        (0x50 ||| if sensitive then 0x20 else 0 : UInt8) = 0x70 := by cases sensitive <;> decide
    have hread := get_field_named hflags hentry hindex hvalue src
    rwa [heq] at hread
  case h_3 hexact hnamed =>
    exact get_field_literal (by cases sensitive <;> decide) hname hvalue src

theorem counted_of_lt {limit s : ℕ} {field : Field} (h : s + cost field < 2 ^ 64) :
    counted limit s field =
      if limit < s + cost field then .error (.Refused .TooLarge) else .ok (s + cost field) := by
  have hcost : field.1.length + field.2.length + 32 = cost field := rfl
  have hboth := word_of_lt (show field.1.length + field.2.length < 2 ^ 64 by omega)
  have hown : word (field.1.length + field.2.length + 32) = .ok (cost field) :=
    word_of_lt (by omega)
  simp only [counted, hboth, hown, word_of_lt h, bind, Except.bind]
  rfl

theorem counted_of_ge {limit s : ℕ} {field : Field} (h : 2 ^ 64 ≤ s + cost field) :
    counted limit s field = .error .Overflow := by
  have hcost : field.1.length + field.2.length + 32 = cost field := rfl
  rcases Nat.lt_or_ge (field.1.length + field.2.length) (2 ^ 64) with hboth | hboth
  · rcases Nat.lt_or_ge (cost field) (2 ^ 64) with hown | hown
    · have hword : word (field.1.length + field.2.length + 32) = .ok (cost field) := word_of_lt hown
      simp only [counted, word_of_lt hboth, hword, word_of_ge h, bind, Except.bind]
    · have hword : word (field.1.length + field.2.length + 32) = .error .Overflow := word_of_ge hown
      simp only [counted, word_of_lt hboth, hword, bind, Except.bind]
  · simp only [counted, word_of_ge hboth, bind, Except.bind]

theorem get_fields_cons {limit s : ℕ} {first : UInt8} {rest left : List UInt8} {field : Field}
    (h : get_field first (first :: rest) = .ok (field, left)) :
    get_fields limit s (first :: rest) = (counted limit s field).bind fun s' =>
      (get_fields limit s' left).map (field :: ·) := by
  rw [get_fields]
  split
  case h_1 e hread => cases h.symm.trans hread
  case h_2 field' left' hread =>
    cases h.symm.trans hread
    cases counted limit s field <;> rfl

theorem get_fields_error {limit s : ℕ} {first : UInt8} {rest : List UInt8} {e : Fault}
    (h : get_field first (first :: rest) = .error e) :
    get_fields limit s (first :: rest) = .error e := by
  rw [get_fields]
  split
  case h_1 e' hread =>
    cases h.symm.trans hread
    rfl
  case h_2 field left hread => cases h.symm.trans hread

/-! ### The round trip -/

/-- No sum of sizes up to the first past the limit reaches 2^64. -/
def Summed (limit s : ℕ) (fields : List Field) : Prop :=
  ∀ before field after, fields = before ++ field :: after → s + size before ≤ limit →
    s + size before + cost field < 2 ^ 64

theorem Summed.tail {limit s : ℕ} {field : Field} {fields : List Field}
    (h : Summed limit s (field :: fields)) : Summed limit (s + cost field) fields := by
  intro before f after heq hle
  have hsize : s + cost field + size before = s + size (field :: before) := by
    rw [size_cons, add_assoc]
  rw [hsize] at hle ⊢
  exact h (field :: before) f after (by rw [heq, List.cons_append]) hle

/-- The lines that were written are read back as far as the limit lets. -/
theorem get_fields_put_fields {limit : ℕ} {fields : List (Field × Bool)} {s : ℕ}
    (hshort : ∀ f ∈ fields, f.1.1.length < 2 ^ 62 ∧ f.1.2.length < 2 ^ 62)
    (hsummed : Summed limit s (fields.map (·.1))) (hs : s ≤ limit) :
    get_fields limit s (fields.flatMap fun f => put_field f.1 f.2) =
      if s + size (fields.map (·.1)) ≤ limit then .ok (fields.map (·.1))
      else .error (.Refused .TooLarge) := by
  induction fields generalizing s with
  | nil =>
    rw [List.flatMap_nil, get_fields, List.map_nil, size_nil, Nat.add_zero, if_pos hs]
  | cons f fields ih =>
    obtain ⟨field, sensitive⟩ := f
    obtain ⟨hname, hvalue⟩ := hshort _ List.mem_cons_self
    obtain ⟨first, rest, hput, hread⟩ := get_field_put_field hname hvalue sensitive
      (fields.flatMap fun f => put_field f.1 f.2)
    have hcost : s + cost field < 2 ^ 64 := hsummed [] field _ rfl hs
    rw [List.map_cons, size_cons, ← add_assoc, List.flatMap_cons]
    dsimp only
    rw [hput, List.cons_append] at hread ⊢
    rw [get_fields_cons hread, counted_of_lt hcost]
    by_cases hlarge : limit < s + cost field
    · rw [if_pos hlarge, if_neg (by omega)]
      rfl
    · rw [if_neg hlarge]
      show (get_fields limit (s + cost field) _).map (field :: ·) = _
      rw [ih (fun f hf => hshort f (List.mem_cons_of_mem _ hf)) hsummed.tail (not_lt.1 hlarge)]
      split_ifs <;> rfl

/-- **A section that is written is read back**, or is too large. -/
theorem decode_encode {fields : List (Field × Bool)} {limit : ℕ}
    (hshort : ∀ f ∈ fields, f.1.1.length < 2 ^ 62 ∧ f.1.2.length < 2 ^ 62)
    (hsummed : Summed limit 0 (fields.map (·.1))) :
    decode (encode fields) limit =
      if size (fields.map (·.1)) ≤ limit then .ok (fields.map (·.1))
      else .error (.Refused .TooLarge) := by
  have hprefix : get_prefix (encode fields) =
      .ok ((), fields.flatMap fun f => put_field f.1 f.2) := rfl
  rw [decode, hprefix]
  dsimp only
  rw [get_fields_put_fields hshort hsummed (Nat.zero_le _), Nat.zero_add]

example : decode (encode [(([0x78], [0x31]), true)]) 34 = .ok [([0x78], [0x31])] := by
  decide +kernel

/-! ### A section that is cut -/

theorem stable_get_more (value shift : ℕ) :
    Reader.Stable (get_more value shift : Reader UInt8 Fault ℕ) := by
  refine ⟨fun {src v rest} q h => ?_⟩
  induction src generalizing value shift with
  | nil => cases h
  | cons byte src ih =>
    rw [List.cons_append]
    rw [get_more] at h ⊢
    cases hword : word (value + (byte &&& 0x7f).toNat <<< shift) with
    | error e =>
      rw [hword] at h
      cases h
    | ok w =>
      rw [hword] at h
      change (if byte &&& 0x80 = 0 then Except.ok (w, src)
        else if 56 < shift + 7 then Except.error invalid else get_more w (shift + 7) src) = _ at h
      show (if byte &&& 0x80 = 0 then Except.ok (w, src ++ q)
        else if 56 < shift + 7 then Except.error invalid
        else get_more w (shift + 7) (src ++ q)) = _
      split_ifs at h ⊢
      · cases h
        rfl
      · exact ih _ _ h

theorem stable_get_int (n : ℕ) : Reader.Stable (get_int n) :=
  (Reader.stable_next _).bind fun _ => ((stable_get_more _ _).bind fun _ =>
    (Reader.stable_throw _).ite (Reader.stable_pure _)).ite (Reader.stable_pure _)

theorem stable_get_string (n : ℕ) : Reader.Stable (get_string n) :=
  (stable_get_int n).bind fun _ => (Reader.stable_take _ _).bind fun _ =>
    (Reader.stable_lift _).ite (Reader.stable_pure _)

theorem stable_get_field (first : UInt8) : Reader.Stable (get_field first) := by
  refine ((stable_get_int 6).bind fun _ =>
    (Reader.stable_throw _).ite (Reader.stable_lift _)).ite ?_
  refine Reader.Stable.ite ((stable_get_int 4).bind fun _ => (Reader.stable_throw _).ite ?_) ?_
  · exact (Reader.stable_lift _).bind fun _ =>
      (stable_get_string 7).bind fun _ => Reader.stable_pure _
  · exact ((stable_get_string 3).bind fun _ =>
      (stable_get_string 7).bind fun _ => Reader.stable_pure _).ite (Reader.stable_throw _)

theorem stable_get_prefix : Reader.Stable get_prefix :=
  (stable_get_int 8).bind fun _ => (stable_get_int 7).bind fun _ =>
    (Reader.stable_throw _).ite (Reader.stable_pure _)

/-- Lines are read one after the other. -/
theorem get_fields_eq_ok {limit s : ℕ} {first : UInt8} {rest : List UInt8} {fields : List Field}
    (h : get_fields limit s (first :: rest) = .ok fields) :
    ∃ field left s' more, get_field first (first :: rest) = .ok (field, left) ∧
      counted limit s field = .ok s' ∧ get_fields limit s' left = .ok more ∧
      fields = field :: more := by
  cases hread : get_field first (first :: rest) with
  | error e => cases (get_fields_error hread).symm.trans h
  | ok p =>
    obtain ⟨field, left⟩ := p
    rw [get_fields_cons hread] at h
    cases hcount : counted limit s field with
    | error e =>
      rw [hcount] at h
      cases h
    | ok s' =>
      rw [hcount] at h
      change (get_fields limit s' left).map (field :: ·) = _ at h
      cases hmore : get_fields limit s' left with
      | error e =>
        rw [hmore] at h
        cases h
      | ok more =>
        rw [hmore] at h
        cases h
        exact ⟨field, left, s', more, rfl, hcount, hmore, rfl⟩

/-- Of lines that are cut fewer fields are read, whatever the limit, or none. -/
theorem get_fields_cut {limit s : ℕ} {p q : List UInt8} {fields : List Field}
    (h : get_fields limit s (p ++ q) = .ok fields) (hq : q ≠ []) (limit' s' : ℕ) :
    (∃ e, get_fields limit' s' p = .error e) ∨
      ∃ some_ more, get_fields limit' s' p = .ok some_ ∧ more ≠ [] ∧ fields = some_ ++ more := by
  induction hn : p.length using Nat.strong_induction_on generalizing p s s' fields with
  | _ n ih =>
    subst hn
    cases p with
    | nil =>
      obtain ⟨first, rest, rfl⟩ := List.exists_cons_of_ne_nil hq
      obtain ⟨field, left, _, more, -, -, -, rfl⟩ := get_fields_eq_ok h
      exact .inr ⟨[], field :: more, by rw [get_fields], List.cons_ne_nil _ _, rfl⟩
    | cons first p =>
      obtain ⟨field, left, s₁, more, hread, -, hmore, rfl⟩ := get_fields_eq_ok h
      rcases (stable_get_field first).cut (p := first :: p) hread with ⟨t, ht, rfl⟩ | ⟨e, he⟩
      · cases hcount : counted limit' s' field with
        | error e => exact .inl ⟨e, by rw [get_fields_cons ht, hcount]; rfl⟩
        | ok s₂ =>
          rcases ih t.length (length_of_get_field ht) hmore s₂ rfl with
            ⟨e, he⟩ | ⟨some_, rest, hsome, hrest, rfl⟩
          · exact .inl ⟨e, by rw [get_fields_cons ht, hcount, Except.bind, he]; rfl⟩
          · exact .inr ⟨field :: some_, rest,
              by rw [get_fields_cons ht, hcount, Except.bind, hsome]; rfl, hrest, rfl⟩
      · exact .inl ⟨e, get_fields_error he⟩

/-- **Of a section that is cut fewer fields are read, or none.** -/
theorem decode_cut {p q : List UInt8} {limit : ℕ} {fields : List Field}
    (h : decode (p ++ q) limit = .ok fields) (hq : q ≠ []) (limit' : ℕ) :
    (∃ e, decode p limit' = .error e) ∨
      ∃ some_ more, decode p limit' = .ok some_ ∧ more ≠ [] ∧ fields = some_ ++ more := by
  unfold decode at h ⊢
  split at h
  case h_1 e hprefix => cases h
  case h_2 rest hprefix =>
    rcases stable_get_prefix.cut hprefix with ⟨t, ht, rfl⟩ | ⟨e, he⟩
    · rw [ht]
      exact get_fields_cut h hq limit' 0
    · rw [he]
      exact .inl ⟨e, rfl⟩

/-! ### Sizes -/

theorem counted_eq_ok {limit s s' : ℕ} {field : Field} (h : counted limit s field = .ok s') :
    s' = s + cost field ∧ s' ≤ limit := by
  rcases Nat.lt_or_ge (s + cost field) (2 ^ 64) with hlt | hge
  · rw [counted_of_lt hlt] at h
    split_ifs at h with hlarge
    cases h
    exact ⟨rfl, not_lt.1 hlarge⟩
  · cases (counted_of_ge hge).symm.trans h

theorem size_of_get_fields {limit s : ℕ} {src : List UInt8} {fields : List Field}
    (h : get_fields limit s src = .ok fields) (hs : s ≤ limit) : s + size fields ≤ limit := by
  induction hn : src.length using Nat.strong_induction_on generalizing src s fields with
  | _ n ih =>
    subst hn
    cases src with
    | nil =>
      rw [get_fields] at h
      cases h
      exact hs
    | cons first rest =>
      obtain ⟨field, left, s', more, hread, hcount, hmore, rfl⟩ := get_fields_eq_ok h
      obtain ⟨rfl, hle⟩ := counted_eq_ok hcount
      have := ih left.length (length_of_get_field hread) hmore hle rfl
      rw [size_cons]
      omega

/-- What is read is within the limit. -/
theorem size_of_decode {src : List UInt8} {limit : ℕ} {fields : List Field}
    (h : decode src limit = .ok fields) : size fields ≤ limit := by
  unfold decode at h
  split at h
  case h_1 e hprefix => cases h
  case h_2 rest hprefix =>
    have := size_of_get_fields h (Nat.zero_le _)
    omega

/-! ### No overflow -/

theorem entry_within {index : ℕ} {e : Field} (h : entry index = .ok e) :
    cost e ≤ 108 ∧ e.1.length ≤ 32 := by
  have hall : ∀ e ∈ STATIC_TABLE, cost e ≤ 108 ∧ e.1.length ≤ 32 := by decide +kernel
  unfold entry at h
  split at h
  case h_1 e' hentry =>
    cases h
    exact hall _ (List.mem_of_getElem? hentry)
  case h_2 => cases h

theorem length_of_huffman {bytes out : List UInt8} (h : huffman bytes = .ok out) :
    out.length ≤ 8 * bytes.length := by
  unfold huffman at h
  cases hword : word (bytes.length * 8) with
  | error e =>
    rw [hword] at h
    cases h
  | ok w =>
    rw [hword] at h
    cases hdecode : Huffman.decode bytes with
    | none =>
      rw [hdecode] at h
      cases h
    | some out' =>
      rw [hdecode] at h
      cases h
      exact Huffman.length_of_decode hdecode

/-- A string is at most eight times as long as what it is read from, but for its length. -/
theorem get_string_within {n : ℕ} {out src rest : List UInt8}
    (h : get_string n src = .ok (out, rest)) :
    out.length + 8 + 8 * rest.length ≤ 8 * src.length := by
  obtain ⟨flags, len, tail, hint, hlen, rfl, hout⟩ := get_string_cases h
  have hshorter := length_of_get_int hint
  have hdrop : (tail.drop len).length = tail.length - len := List.length_drop
  have htake : (tail.take len).length = len := List.length_take_of_le hlen
  have hle : out.length ≤ 8 * len := by
    rcases hout with ⟨-, hout⟩ | rfl
    · exact htake ▸ length_of_huffman hout
    · omega
  omega

/-- A field's part in the size is at most 108 times as long as its line. -/
theorem cost_of_get_field {first : UInt8} {field : Field} {src rest : List UInt8}
    (h : get_field first src = .ok (field, rest)) :
    cost field + 108 * rest.length ≤ 108 * src.length := by
  have hcost : cost field = field.1.length + field.2.length + 32 := rfl
  obtain ⟨_, _, hint, hentry⟩ | ⟨_, _, tail, named, hint, hentry, hname, hvalue⟩ |
    ⟨tail, hname, hvalue⟩ := get_field_cases h
  · have := length_of_get_int hint
    have := (entry_within hentry).1
    omega
  · have := length_of_get_int hint
    have := (entry_within hentry).2
    have := get_string_within hvalue
    rw [hcost, hname]
    omega
  · have := get_string_within hname
    have := get_string_within hvalue
    omega

theorem get_more_ne_overflow {value k : ℕ} (hvalue : value < 2 ^ 8 + 2 ^ (7 * k)) (hk : k ≤ 8)
    (src : List UInt8) : get_more value (7 * k) src ≠ .error .Overflow := by
  induction src generalizing value k with
  | nil =>
    intro h
    cases h
  | cons byte src ih =>
    have hlow : (byte &&& 0x7f).toNat ≤ 127 := by
      rw [UInt8.toNat_and]
      exact Nat.and_le_right
    have hpow : 2 ^ (7 * (k + 1)) = 128 * 2 ^ (7 * k) := by
      rw [Nat.mul_succ, pow_add, mul_comm]
      rfl
    have htop : 2 ^ (7 * k) ≤ 2 ^ 56 := Nat.pow_le_pow_right (by decide) (by omega)
    have hnext : value + (byte &&& 0x7f).toNat * 2 ^ (7 * k) < 2 ^ 8 + 2 ^ (7 * (k + 1)) := by
      have := Nat.mul_le_mul_right (2 ^ (7 * k)) hlow
      omega
    rw [get_more, Nat.shiftLeft_eq, word_of_lt (by omega)]
    show (if byte &&& 0x80 = 0 then Except.ok _ else if 56 < 7 * k + 7 then Except.error invalid
      else get_more _ (7 * k + 7) src) ≠ _
    split_ifs with hlast hlong
    · exact Reader.ok_ne_error _ _
    · intro h
      cases h
    · exact ih hnext (by omega)

theorem invalid_ne_overflow : invalid ≠ .Overflow := by decide

theorem get_int_ne_overflow {n : ℕ} (hn : n ≤ 8) (src : List UInt8) :
    get_int n src ≠ .error .Overflow := by
  have hpow : 2 ^ n ≤ 2 ^ 8 := Nat.pow_le_pow_right (by decide) hn
  refine Reader.bind_ne_error ?_ fun first tail _ => ?_
  · cases src with
    | nil =>
      intro h
      cases h
    | cons b src => exact Reader.ok_ne_error _ _
  · refine Reader.ite_ne_error (fun hmax => ?_) fun _ => Reader.pure_ne_error _ _ _
    refine Reader.bind_ne_error ?_ fun value left _ => ?_
    · rw [hmax]
      exact get_more_ne_overflow (k := 0) (by omega) (by decide) tail
    · exact Reader.ite_ne_error (fun _ => Reader.throw_ne_error invalid_ne_overflow _)
        fun _ => Reader.pure_ne_error _ _ _

theorem huffman_ne_overflow {bytes : List UInt8} (h : bytes.length * 8 < 2 ^ 64) :
    huffman bytes ≠ .error .Overflow := by
  unfold huffman
  rw [word_of_lt h]
  intro herror
  cases hout : Huffman.decode bytes with
  | none =>
    rw [hout] at herror
    cases herror
  | some out =>
    rw [hout] at herror
    cases herror

theorem get_string_ne_overflow {n : ℕ} (hn : n ≤ 8) {src : List UInt8}
    (h : src.length * 8 < 2 ^ 64) : get_string n src ≠ .error .Overflow := by
  refine Reader.bind_ne_error (get_int_ne_overflow hn src) fun p tail hint => ?_
  have hshorter := length_of_get_int hint
  refine Reader.bind_ne_error ?_ fun bytes left htake => ?_
  · unfold Reader.take
    split_ifs
    · intro h
      cases h
    · exact Reader.ok_ne_error _ _
  · unfold Reader.take at htake
    split_ifs at htake with hlength
    cases htake
    have hbytes : (tail.take p.2).length ≤ tail.length := List.length_take_le' _ _
    exact Reader.ite_ne_error (fun _ => Reader.lift_ne_error (huffman_ne_overflow (by omega)) _)
      fun _ => Reader.pure_ne_error _ _ _

theorem entry_ne_overflow (index : ℕ) : entry index ≠ .error .Overflow := by
  unfold entry
  split
  case h_1 e hentry => exact Reader.ok_ne_error _ _
  case h_2 =>
    intro h
    cases h

theorem get_field_ne_overflow {first : UInt8} {src : List UInt8} (h : src.length * 8 < 2 ^ 64) :
    get_field first src ≠ .error .Overflow := by
  refine Reader.ite_ne_error (fun _ => ?_) fun _ => Reader.ite_ne_error (fun _ => ?_) fun _ =>
    Reader.ite_ne_error (fun _ => ?_) fun _ => Reader.throw_ne_error invalid_ne_overflow _
  · refine Reader.bind_ne_error (get_int_ne_overflow (by decide) src) fun p tail hint => ?_
    exact Reader.ite_ne_error (fun _ => Reader.throw_ne_error invalid_ne_overflow _)
      fun _ => Reader.lift_ne_error (entry_ne_overflow _) _
  · refine Reader.bind_ne_error (get_int_ne_overflow (by decide) src) fun p tail hint => ?_
    refine Reader.ite_ne_error (fun _ => Reader.throw_ne_error invalid_ne_overflow _) fun _ => ?_
    refine Reader.bind_ne_error (Reader.lift_ne_error (entry_ne_overflow _) _)
      fun named left hlift => ?_
    have hshorter := length_of_get_int hint
    rw [Reader.lift_apply] at hlift
    obtain rfl : left = tail := by
      cases hentry : entry p.2 with
      | error e =>
        rw [hentry] at hlift
        cases hlift
      | ok e =>
        rw [hentry] at hlift
        cases hlift
        rfl
    exact Reader.bind_ne_error (get_string_ne_overflow (by decide) (by omega))
      fun _ _ _ => Reader.pure_ne_error _ _ _
  · refine Reader.bind_ne_error (get_string_ne_overflow (by decide) h) fun name tail hname => ?_
    have hshorter := length_of_get_string hname
    exact Reader.bind_ne_error (get_string_ne_overflow (by decide) (by omega))
      fun _ _ _ => Reader.pure_ne_error _ _ _

theorem get_fields_ne_overflow {limit s : ℕ} {src : List UInt8}
    (h : s + 108 * src.length < 2 ^ 64) : get_fields limit s src ≠ .error .Overflow := by
  induction hn : src.length using Nat.strong_induction_on generalizing src s with
  | _ n ih =>
    subst hn
    cases src with
    | nil =>
      rw [get_fields]
      exact Reader.ok_ne_error _ _
    | cons first rest =>
      cases hread : get_field first (first :: rest) with
      | error e =>
        rw [get_fields_error hread]
        intro he
        cases he
        exact get_field_ne_overflow (by omega) hread
      | ok p =>
        obtain ⟨field, left⟩ := p
        have hcost := cost_of_get_field hread
        rw [get_fields_cons hread, counted_of_lt (by omega)]
        split_ifs
        · intro h
          cases h
        · show (get_fields limit (s + cost field) left).map (field :: ·) ≠ _
          have hmore := ih left.length (length_of_get_field hread)
            (s := s + cost field) (by omega) rfl
          cases hfields : get_fields limit (s + cost field) left with
          | error e =>
            intro he
            cases he
            exact hmore hfields
          | ok more => exact Reader.ok_ne_error _ _

/-- No sum passes its integer in a section that fits in memory. -/
theorem decode_ne_overflow {src : List UInt8} (h : src.length < 2 ^ 57) (limit : ℕ) :
    decode src limit ≠ .error .Overflow := by
  unfold decode
  split
  case h_1 e hprefix =>
    intro he
    cases he
    revert hprefix
    refine Reader.bind_ne_error (get_int_ne_overflow (by decide) src) fun _ tail _ => ?_
    refine Reader.bind_ne_error (get_int_ne_overflow (by decide) tail) fun _ _ _ => ?_
    exact Reader.ite_ne_error (fun _ => Reader.throw_ne_error invalid_ne_overflow _)
      fun _ => Reader.pure_ne_error _ _ _
  case h_2 rest hprefix =>
    have hshorter : rest.length ≤ src.length := by
      obtain ⟨⟨_, required⟩, tail, hrequired, hread⟩ := Reader.bind_eq_ok.1 hprefix
      obtain ⟨⟨sign, _⟩, left, hbase, hread⟩ := Reader.bind_eq_ok.1 hread
      dsimp only at hread
      rw [Reader.ite_apply] at hread
      split_ifs at hread
      · cases hread
      · cases hread
        exact ((length_of_get_int hbase).trans (length_of_get_int hrequired)).le
    exact get_fields_ne_overflow (by omega)

/-! ### What is too long -/

theorem get_int_past {n value : ℕ} {first : UInt8} {src rest : List UInt8}
    (h : first.toNat &&& (2 ^ n - 1) = 2 ^ n - 1)
    (hmore : get_more (2 ^ n - 1) 0 src = .ok (value, rest)) (hvalue : VARINT_MAX < value) :
    get_int n (first :: src) = .error invalid := by
  unfold get_int
  rw [Reader.bind_ok (Reader.next_cons invalid first src), if_pos h, h, Reader.bind_ok hmore,
    if_pos hvalue]
  rfl

/-- A name of 2^62 bytes is written, but no integer of QPACK is that long. -/
theorem decode_long_name {name value : List UInt8} (h : 2 ^ 62 ≤ name.length)
    (hlt : name.length < 2 ^ 63) (limit : ℕ) :
    decode (encode [((name, value), false)]) limit = .error (.Refused .Invalid) := by
  have hnone (p : Field → Bool) (hp : ∀ e, p e = true → e.1 = name) :
      STATIC_TABLE.findIdx? p = none := by
    refine List.findIdx?_eq_none_iff.2 fun e he => Bool.eq_false_iff.2 fun hfound => ?_
    have hall : ∀ e ∈ STATIC_TABLE, e.1.length ≤ 32 := by decide +kernel
    have := hall e he
    rw [hp e hfound] at this
    omega
  have hput : put_field (name, value) false = put_string 0x20 3 name ++ put_string 0 7 value := by
    unfold put_field
    dsimp only
    rw [hnone _ fun e he => beq_iff_eq.1 (Bool.and_eq_true_iff.1 he).1,
      hnone _ fun e he => beq_iff_eq.1 he]
    rfl
  have hmore := @get_more_put_more (name.length - 7) 7 0 (by omega) (by omega) (by decide)
    (name ++ (put_string 0 7 value ++ []))
  rw [show 7 + (name.length - 7) * 2 ^ (7 * 0) = name.length by omega] at hmore
  have hint : get_int 3 (0x27 :: (put_more (name.length - 7) ++ (name ++
      (put_string 0 7 value ++ [])))) = .error invalid :=
    get_int_past (by decide) hmore (by unfold VARINT_MAX; omega)
  have hlong : put_int 0x20 3 name.length = 0x27 :: put_more (name.length - 7) := by
    unfold put_int
    exact if_neg (by omega)
  have hsection : encode [((name, value), false)] = 0 :: 0 :: (0x27 ::
      (put_more (name.length - 7) ++ (name ++ (put_string 0 7 value ++ [])))) := by
    rw [encode, List.flatMap_cons, List.flatMap_nil, hput, put_string, hlong]
    simp only [List.cons_append, List.append_assoc, List.nil_append]
  have hfield : get_field 0x27 (0x27 :: (put_more (name.length - 7) ++ (name ++
      (put_string 0 7 value ++ [])))) = .error invalid := by
    unfold get_field
    rw [if_neg (by decide), if_neg (by decide), if_pos (by decide)]
    exact Reader.bind_error (Reader.bind_error hint)
  rw [hsection]
  exact get_fields_error hfield

/-- Enough lines of 101 bytes each pass a word. -/
theorem get_fields_overflow {s n : ℕ} (hs : s < 2 ^ 64) (h : 2 ^ 64 ≤ s + 101 * n) :
    get_fields (2 ^ 64 - 1) s (List.replicate n 0xfa) = .error .Overflow := by
  induction n generalizing s with
  | zero => omega
  | succ n ih =>
    obtain ⟨field, hentry, hcost⟩ : ∃ field, entry 58 = .ok field ∧ cost field = 101 :=
      ⟨_, rfl, by decide⟩
    have hread : get_field 0xfa (0xfa :: List.replicate n 0xfa) =
        .ok (field, List.replicate n 0xfa) := by
      obtain ⟨first, rest, hput, hread⟩ :=
        get_field_indexed hentry (by decide) (List.replicate n 0xfa)
      have hbyte : put_int 0xc0 6 58 = [0xfa] := by decide
      rw [hbyte] at hput hread
      cases hput
      exact hread
    rw [List.replicate_succ, get_fields_cons hread]
    rcases Nat.lt_or_ge (s + cost field) (2 ^ 64) with hlt | hge
    · rw [counted_of_lt hlt, if_neg (by omega)]
      show (get_fields (2 ^ 64 - 1) (s + cost field) _).map (field :: ·) = _
      rw [ih hlt (by omega)]
      rfl
    · rw [counted_of_ge hge]
      rfl

theorem decode_overflow {n : ℕ} (h : 2 ^ 64 ≤ 101 * n) :
    decode ([0, 0] ++ List.replicate n 0xfa) (2 ^ 64 - 1) = .error .Overflow := by
  have hprefix (src : List UInt8) : get_prefix ([0, 0] ++ src) = .ok ((), src) := rfl
  rw [decode, hprefix]
  exact get_fields_overflow (by decide) (by omega)

/-- **What QPACK reads is what was written.** -/
structure Faithful : Prop where
  /-- A section that is written is read as its fields, or is too large, when no name or value has
  2^62 bytes and no sum of sizes passes a word. -/
  round_trip (fields : List (Field × Bool)) (limit : ℕ)
    (hshort : ∀ f ∈ fields, f.1.1.length < 2 ^ 62 ∧ f.1.2.length < 2 ^ 62)
    (hsummed : Summed limit 0 (fields.map (·.1))) :
    decode (encode fields) limit =
      if size (fields.map (·.1)) ≤ limit then .ok (fields.map (·.1))
      else .error (.Refused .TooLarge)
  /-- What is read is within the limit. -/
  within (src : List UInt8) (limit : ℕ) (fields : List Field) (h : decode src limit = .ok fields) :
    size fields ≤ limit
  /-- Of a section that is cut fewer fields are read, whatever the limit, or none. -/
  cut (p q : List UInt8) (limit : ℕ) (fields : List Field) (h : decode (p ++ q) limit = .ok fields)
    (hq : q ≠ []) (limit' : ℕ) : (∃ e, decode p limit' = .error e) ∨
      ∃ some_ more, decode p limit' = .ok some_ ∧ more ≠ [] ∧ fields = some_ ++ more
  /-- No sum passes a word in a section of less than 2^57 bytes. -/
  summed (src : List UInt8) (limit : ℕ) (h : src.length < 2 ^ 57) :
    decode src limit ≠ .error .Overflow
  /-- What the Huffman decoder looks up stands in its tables, and its bits fit their word. -/
  in_tables (bs : List Bool) (r : Huffman.Reading) (bit : Bool)
    (h : bs.foldlM Huffman.push_bit ⟨[], 0, 0⟩ = some r) :
    r.len + 1 < 31 ∧ r.code <<< 1 ||| bit.toNat < 2 ^ 32 ∧
      ∀ at_ < Huffman.canonical.count.getD (r.len + 1) 0,
        Huffman.canonical.start.getD (r.len + 1) 0 + at_ < 257

theorem qpack_faithful : Faithful where
  round_trip _ _ hshort hsummed := decode_encode hshort hsummed
  within _ _ _ h := size_of_decode h
  cut _ _ _ _ h hq limit' := decode_cut h hq limit'
  summed _ limit h := decode_ne_overflow h limit
  in_tables _ _ bit h := Huffman.next_bit_within h bit

theorem size_of_name {name : List UInt8} (h : name.length < 2 ^ 63 - 32) :
    size [(name, [])] ≤ 2 ^ 63 := by
  have hsize : size [(name, [])] = name.length + 32 := rfl
  omega

/-- A name of 2^62 bytes is not read back, though its size is within the limit; and the sizes of
2^58 lines pass a word. -/
theorem long_sections :
    (size [(List.replicate (2 ^ 62) 0, [])] ≤ 2 ^ 63 ∧
      decode (encode [((List.replicate (2 ^ 62) 0, []), false)]) (2 ^ 63) =
        .error (.Refused .Invalid)) ∧
      decode ([0, 0] ++ List.replicate (2 ^ 58) 0xfa) (2 ^ 64 - 1) = .error .Overflow := by
  have hlength : (List.replicate (2 ^ 62) (0 : UInt8)).length = 2 ^ 62 := List.length_replicate
  refine ⟨⟨size_of_name (hlength.trans_lt (by norm_num)), ?_⟩, decode_overflow (by norm_num)⟩
  exact decode_long_name hlength.ge (hlength.trans_lt (by norm_num)) _

end Qpack

end H3

end Rurge
