import Mathlib
import Rurge.Text
import Rurge.Lib.PrefixCode
import Rurge.Dns.Wire

/-!
# Names of questions

The first question of a message, read where it stands, and its name as text: dots between the
labels, a backslash before a dot or a backslash in one, three digits for what does not print,
letters lowercased.  Two names come out as the same text exactly when their labels are the same up
to the case of letters.
-/

namespace Rurge

namespace Dns

open BigEndian
open Quic (slice slice_of_drop drop_of_slice drop_add getElem?_of_drop)

/-- The most a name takes on the wire. -/
def MAX_NAME : ℕ := 255

/-- `char::from` of a byte. -/
def char (byte : UInt8) : Char := Char.ofNat byte.toNat

/-- `u8::to_ascii_lowercase`. -/
def to_ascii_lowercase (byte : UInt8) : UInt8 :=
  if 0x41 ≤ byte ∧ byte ≤ 0x5a then byte + 0x20 else byte

/-- A decimal digit. -/
def digit (n : ℕ) : Char := Char.ofNat (48 + n)

/-- A byte of a label as text. -/
def push_byte (byte : UInt8) : Str :=
  if byte = 0x2e ∨ byte = 0x5c then ['\\', char byte]
  else if byte ≤ 0x20 ∨ 0x7f ≤ byte then
    ['\\', digit (byte.toNat / 100), digit (byte.toNat / 10 % 10), digit (byte.toNat % 10)]
  else [char (to_ascii_lowercase byte)]

/-- `label` as text, lowercased, added to `out`. -/
def push_label (out : Str) (label : List UInt8) : Str :=
  label.foldl (fun out byte => out ++ push_byte byte) out

/-- A label added to the name before it: a dot between them, if there is a name before. -/
def push_next (name : Str) (label : List UInt8) : Str :=
  push_label (if name ≠ [] then name ++ ['.'] else name) label

/-- The labels from `at_` on, added to `name`, and where they end. -/
def read_name (bytes : List UInt8) (name : Str) (at_ : ℕ) : Option (Str × ℕ) :=
  if h : at_ < bytes.length then
    let len := bytes[at_].toNat
    if len = 0 then some (name, at_ + 1)
    else if len ≤ 0x3f then
      match slice bytes (at_ + 1) (at_ + 1 + len) with
      | none => none
      | some label =>
        if MAX_NAME ≤ at_ + 1 + len - 12 then none
        else read_name bytes (push_next name label) (at_ + 1 + len)
    else none
  else none
termination_by bytes.length - at_

/-- The first question of a message. -/
structure FirstQuestion where
  name : Str
  qtype : UInt16
  qclass : UInt16
  end_ : ℕ
  deriving DecidableEq

/-- The first question of `bytes`. -/
def first_question (bytes : List UInt8) : Option FirstQuestion := do
  if (← wire_u16 bytes 4) = 0 then none
  else
    let (name, at_) ← read_name bytes [] 12
    let qtype ← wire_u16 bytes at_
    let qclass ← wire_u16 bytes (at_ + 2)
    return ⟨name, qtype, qclass, at_ + 4⟩

/-- The first question: its name, its type, its class. -/
def wire_question (bytes : List UInt8) : Option (Str × UInt16 × UInt16) :=
  (first_question bytes).map fun question => (question.name, question.qtype, question.qclass)

/-! ### Names that point nowhere -/

/-- The labels, each behind its length, and the root. -/
def spell (labels : List (List UInt8)) : List UInt8 :=
  labels.flatMap (fun label => UInt8.ofNat label.length :: label) ++ [0]

/-- A label that is one: of one to 63 bytes. -/
def IsLabel (label : List UInt8) : Prop := 0 < label.length ∧ label.length ≤ 63

/-- A name that is written out, as its labels. -/
structure Name where
  labels : List (List UInt8)
  labels_ok : ∀ label ∈ labels, IsLabel label
  short : (spell labels).length ≤ MAX_NAME

namespace Name

/-- The name on the wire. -/
def bytes (n : Name) : List UInt8 := spell n.labels

/-- The name as text. -/
def present (n : Name) : Str := n.labels.foldl push_next []

/-- The labels, letters lowercased. -/
def folded (n : Name) : List (List UInt8) := n.labels.map (List.map to_ascii_lowercase)

end Name

/-! ### The text of a name is read from the left -/

theorem toNat_ofNat {n : ℕ} (h : n < 0xd800) : (Char.ofNat n).toNat = n := by
  rw [Char.ofNat, dif_pos (Or.inl h)]
  rfl

theorem char_toNat (byte : UInt8) : (char byte).toNat = byte.toNat := by
  have := byte.toNat_lt
  exact toNat_ofNat (by omega)

theorem digit_toNat {n : ℕ} (h : n < 10) : (digit n).toNat = 48 + n := toNat_ofNat (by omega)

theorem digit_isDigit {n : ℕ} (h : n < 10) : (digit n).isDigit = true := by
  interval_cases n <;> rfl

theorem char_ne {byte : UInt8} {c : Char} (h : byte.toNat ≠ c.toNat) : char byte ≠ c :=
  fun heq => h (by rw [← heq, char_toNat])

/-- What the text is made of: the bytes of labels, and the dots between them. -/
def symbol : Option UInt8 → Str
  | none => ['.']
  | some byte => push_byte byte

/-- How long the word is that a text begins with. -/
def word_length : Str → ℕ
  | '\\' :: c :: _ => if c.isDigit then 4 else 2
  | _ => 1

/-- The byte a word stands for, lowercased; none for a dot between labels. -/
def symbol_of : Str → Option UInt8
  | [_, a, b, c] => some (.ofNat ((a.toNat - 48) * 100 + (b.toNat - 48) * 10 + (c.toNat - 48)))
  | [_, c] => some (.ofNat c.toNat)
  | [c] => if c = '.' then none else some (.ofNat c.toNat)
  | _ => none

/-- A byte that prints is no backslash, lowercased or not. -/
theorem lowered_ne {byte : UInt8} (hspecial : ¬ (byte = 0x2e ∨ byte = 0x5c)) :
    (to_ascii_lowercase byte).toNat ≠ 0x5c ∧ (to_ascii_lowercase byte).toNat ≠ 0x2e := by
  push Not at hspecial
  have hdot : byte.toNat ≠ 0x2e := fun h => hspecial.1 (UInt8.toNat_inj.1 h)
  have hslash : byte.toNat ≠ 0x5c := fun h => hspecial.2 (UInt8.toNat_inj.1 h)
  unfold to_ascii_lowercase
  split_ifs with hupper
  · have hlow : 0x41 ≤ byte.toNat := UInt8.le_iff_toNat_le.1 hupper.1
    have hhigh : byte.toNat ≤ 0x5a := UInt8.le_iff_toNat_le.1 hupper.2
    rw [UInt8.toNat_add, show (0x20 : UInt8).toNat = 32 from rfl]
    omega
  · exact ⟨hslash, hdot⟩

theorem push_letter {byte : UInt8} (hlow : 0x41 ≤ byte.toNat) (hhigh : byte.toNat < 0x7f)
    (hslash : byte.toNat ≠ 0x5c) : push_byte byte = [char (to_ascii_lowercase byte)] := by
  have hspecial : ¬ (byte = 0x2e ∨ byte = 0x5c) := by
    rintro (rfl | rfl)
    · exact absurd hlow (by decide)
    · exact hslash rfl
  have hcoded : ¬ (byte ≤ 0x20 ∨ 0x7f ≤ byte) := by
    rintro (h | h)
    · have : byte.toNat ≤ 0x20 := UInt8.le_iff_toNat_le.1 h
      omega
    · have : 0x7f ≤ byte.toNat := UInt8.le_iff_toNat_le.1 h
      omega
  rw [push_byte, if_neg hspecial, if_neg hcoded]

theorem push_byte_lowered (byte : UInt8) :
    push_byte (to_ascii_lowercase byte) = push_byte byte := by
  by_cases hupper : 0x41 ≤ byte ∧ byte ≤ 0x5a
  · have hlow : 0x41 ≤ byte.toNat := UInt8.le_iff_toNat_le.1 hupper.1
    have hhigh : byte.toNat ≤ 0x5a := UInt8.le_iff_toNat_le.1 hupper.2
    have hlower : to_ascii_lowercase byte = byte + 0x20 := if_pos hupper
    have hvalue : (byte + 0x20).toNat = byte.toNat + 0x20 := by
      rw [UInt8.toNat_add, show (0x20 : UInt8).toNat = 32 from rfl]
      omega
    have hagain : to_ascii_lowercase (byte + 0x20) = byte + 0x20 := by
      refine if_neg fun h => ?_
      have : (byte + 0x20).toNat ≤ 0x5a := UInt8.le_iff_toNat_le.1 h.2
      omega
    rw [push_letter hlow (by omega) (by omega), hlower,
      push_letter (by omega) (by omega) (by omega), hagain]
  · rw [to_ascii_lowercase, if_neg hupper]

theorem length_word (x : Option UInt8) (t : Str) :
    word_length (symbol x ++ t) = (symbol x).length := by
  cases x with
  | none => rfl
  | some byte =>
    rw [symbol, push_byte]
    split_ifs with hspecial hcoded
    · rcases hspecial with rfl | rfl <;> rfl
    · have hlt := byte.toNat_lt
      simp only [List.cons_append, word_length, List.length_cons, List.length_nil]
      rw [if_pos (digit_isDigit (by omega))]
    · have hslash : char (to_ascii_lowercase byte) ≠ '\\' := char_ne (lowered_ne hspecial).1
      rw [List.singleton_append, word_length.eq_2 _ (fun c rest h => hslash (List.cons.inj h).1)]
      rfl

/-- **No symbol's text begins another's.** -/
theorem symbol_prefixFree : PrefixFree symbol where
  ne_nil x := by
    cases x with
    | none => exact List.cons_ne_nil _ _
    | some byte =>
      rw [symbol, push_byte]
      split_ifs <;> exact List.cons_ne_nil _ _
  eq_of_prefix x y h := by
    obtain ⟨t, ht⟩ := h
    have hlength := length_word y []
    rw [List.append_nil, ← ht, length_word] at hlength
    refine List.IsPrefix.eq_of_length ⟨t, ht⟩ ?_
    rw [hlength, ht]

theorem symbol_of_symbol (x : Option UInt8) : symbol_of (symbol x) = x.map to_ascii_lowercase := by
  cases x with
  | none => rfl
  | some byte =>
    rw [symbol, push_byte]
    split_ifs with hspecial hcoded
    · rcases hspecial with rfl | rfl <;> rfl
    · have hlt := byte.toNat_lt
      have hlower : to_ascii_lowercase byte = byte := by
        refine if_neg fun hupper => ?_
        have hlow := UInt8.le_iff_toNat_le.1 hupper.1
        have hhigh := UInt8.le_iff_toNat_le.1 hupper.2
        rcases hcoded with h | h
        · have := UInt8.le_iff_toNat_le.1 h
          exact absurd (hlow.trans this) (by decide)
        · have := UInt8.le_iff_toNat_le.1 h
          exact absurd (this.trans hhigh) (by decide)
      have hvalue : UInt8.ofNat ((48 + byte.toNat / 100 - 48) * 100 +
          (48 + byte.toNat / 10 % 10 - 48) * 10 + (48 + byte.toNat % 10 - 48)) = byte := by
        apply UInt8.toNat_inj.1
        have htens : byte.toNat / 10 / 10 = byte.toNat / 100 := Nat.div_div_eq_div_mul _ _ _
        rw [Nat.add_sub_cancel_left, Nat.add_sub_cancel_left, Nat.add_sub_cancel_left,
          UInt8.toNat_ofNat']
        omega
      simp only [symbol_of, digit_toNat (show byte.toNat / 100 < 10 by omega),
        digit_toNat (show byte.toNat / 10 % 10 < 10 by omega),
        digit_toNat (show byte.toNat % 10 < 10 by omega), hvalue, Option.map_some, hlower]
    · have hdot : char (to_ascii_lowercase byte) ≠ '.' := char_ne (lowered_ne hspecial).2
      simp only [symbol_of, if_neg hdot, char_toNat, UInt8.ofNat_toNat, Option.map_some]

/-- Two symbols have one text exactly when they are the same up to the case of letters. -/
theorem symbol_eq_iff {x y : Option UInt8} :
    symbol x = symbol y ↔ x.map to_ascii_lowercase = y.map to_ascii_lowercase := by
  constructor
  · intro h
    rw [← symbol_of_symbol, ← symbol_of_symbol, h]
  · have hlower : ∀ z : Option UInt8, symbol (z.map to_ascii_lowercase) = symbol z := by
      intro z
      cases z with
      | none => rfl
      | some byte => exact push_byte_lowered byte
    intro h
    rw [← hlower x, h, hlower]

/-! ### The name as text -/

/-- The labels, each behind the mark of a new one. -/
def marked (labels : List (List UInt8)) : List (Option UInt8) :=
  labels.flatMap fun label => none :: label.map some

theorem marked_eq (labels : List (List UInt8)) :
    marked labels = [none].intercalate ([] :: labels.map (List.map some)) := by
  have h : ∀ first : List (Option UInt8),
      first ++ marked labels = [none].intercalate (first :: labels.map (List.map some)) := by
    induction labels with
    | nil =>
      intro first
      rw [List.map_nil, List.intercalate_singleton]
      exact List.append_nil _
    | cons label labels ih =>
      intro first
      rw [List.map_cons, List.intercalate_cons_cons, ← ih, List.append_assoc]
      rfl
  exact h []

/-- The labels are read off the marks. -/
theorem marked_inj {l m : List (List UInt8)} (h : marked l = marked m) : l = m := by
  have hclean : ∀ ls : List (List UInt8), ∀ x ∈ [] :: ls.map (List.map some),
      (none : Option UInt8) ∉ x := by
    intro ls x hx
    rcases List.mem_cons.1 hx with rfl | hx
    · simp
    · obtain ⟨label, -, rfl⟩ := List.mem_map.1 hx
      simp
  have hsplit := congrArg (List.splitOn none) h
  rw [marked_eq, marked_eq, List.splitOn_intercalate _ (hclean l) (by simp),
    List.splitOn_intercalate _ (hclean m) (by simp)] at hsplit
  exact List.map_injective_iff.2 (List.map_injective_iff.2 (Option.some_injective _))
    (List.cons.inj hsplit).2

theorem push_label_eq (out : Str) (label : List UInt8) :
    push_label out label = out ++ (label.map some).flatMap symbol := by
  induction label generalizing out with
  | nil => exact (List.append_nil out).symm
  | cons byte label ih =>
    rw [push_label, List.foldl_cons]
    change push_label (out ++ push_byte byte) label = _
    rw [ih, List.append_assoc]
    rfl

theorem push_next_eq {name : Str} (h : name ≠ []) (label : List UInt8) :
    push_next name label = name ++ (none :: label.map some).flatMap symbol := by
  rw [push_next, if_pos h, push_label_eq, List.append_assoc]
  rfl

theorem push_next_ne {name : Str} {label : List UInt8} (h : 0 < label.length) :
    push_next name label ≠ [] := by
  cases label with
  | nil => cases h
  | cons byte label =>
    rw [push_next, push_label_eq, List.map_cons, List.flatMap_cons]
    intro hnil
    have := (List.append_eq_nil_iff.1 (List.append_eq_nil_iff.1 hnil).2).1
    exact symbol_prefixFree.ne_nil _ this

/-- The labels of a name as text, behind what there is of it. -/
theorem pushed_eq {name : Str} (h : name ≠ []) {labels : List (List UInt8)}
    (hlabels : ∀ label ∈ labels, IsLabel label) :
    labels.foldl push_next name = name ++ (marked labels).flatMap symbol := by
  induction labels generalizing name with
  | nil => exact (List.append_nil name).symm
  | cons label labels ih =>
    have hlabel := hlabels label List.mem_cons_self
    rw [List.foldl_cons,
      ih (push_next_ne hlabel.1) fun l hl => hlabels l (List.mem_cons_of_mem _ hl), push_next_eq h,
      List.append_assoc, ← List.flatMap_append]
    rfl

/-- A name of some labels as text, with a dot before it, is its marked labels as text. -/
theorem Name.present_eq (n : Name) (h : n.labels ≠ []) :
    '.' :: n.present = (marked n.labels).flatMap symbol := by
  obtain ⟨labels, hlabels, hshort⟩ := n
  cases labels with
  | nil => exact absurd rfl h
  | cons label labels =>
    have hlabel := hlabels label List.mem_cons_self
    have hfirst : push_next [] label = (label.map some).flatMap symbol := by
      rw [push_next, if_neg (by simp), push_label_eq, List.nil_append]
    rw [present, List.foldl_cons, pushed_eq (push_next_ne hlabel.1)
      fun l hl => hlabels l (List.mem_cons_of_mem _ hl), hfirst, ← List.flatMap_append]
    rfl

theorem Name.present_nil {n : Name} (h : n.labels = []) : n.present = [] := by
  rw [present, h, List.foldl_nil]

theorem Name.present_ne {n : Name} (h : n.labels ≠ []) : n.present ≠ [] := by
  intro hnil
  have hdot := n.present_eq h
  obtain ⟨label, labels, hlabels⟩ := List.exists_cons_of_ne_nil h
  have hlabel := n.labels_ok label (hlabels ▸ List.mem_cons_self)
  obtain ⟨byte, rest, rfl⟩ := List.exists_cons_of_length_pos hlabel.1
  have hlength := congrArg List.length hdot
  rw [hnil, hlabels, marked, List.flatMap_cons] at hlength
  have hbyte := List.length_pos_iff.2 (symbol_prefixFree.ne_nil (some byte))
  simp only [List.map_cons, List.cons_append, List.flatMap_cons, List.length_cons,
    List.length_nil, List.length_append, symbol] at hlength hbyte
  omega

theorem map_symbol_iff {l m : List (Option UInt8)} :
    l.map symbol = m.map symbol ↔
      l.map (Option.map to_ascii_lowercase) = m.map (Option.map to_ascii_lowercase) := by
  induction l generalizing m with
  | nil => simp
  | cons x l ih =>
    cases m with
    | nil => simp
    | cons y m => simp only [List.map_cons, List.cons.injEq, ih, symbol_eq_iff]

theorem marked_folded (n : Name) :
    marked n.folded = (marked n.labels).map (Option.map to_ascii_lowercase) := by
  simp only [marked, Name.folded, List.flatMap_map, List.map_flatMap, List.map_cons, List.map_map,
    Option.map_none]
  rfl

/-- **The text of a name tells its labels, up to the case of letters.** -/
theorem Name.present_iff (n m : Name) : n.present = m.present ↔ n.folded = m.folded := by
  by_cases hn : n.labels = []
  · by_cases hm : m.labels = []
    · simp [folded, present_nil hn, present_nil hm, hn, hm]
    · refine iff_of_false (fun h => present_ne hm ?_) fun h => hm ?_
      · rw [← h, present_nil hn]
      · rw [folded, hn, folded] at h
        exact List.map_eq_nil_iff.1 h.symm
  · by_cases hm : m.labels = []
    · refine iff_of_false (fun h => present_ne hn ?_) fun h => hn ?_
      · rw [h, present_nil hm]
      · rw [folded, folded, hm] at h
        exact List.map_eq_nil_iff.1 h
    · have hsame : n.present = m.present ↔
          (marked n.labels).flatMap symbol = (marked m.labels).flatMap symbol := by
        rw [← n.present_eq hn, ← m.present_eq hm, List.cons.injEq, and_iff_right rfl]
      have hcode : (marked n.labels).flatMap symbol = (marked m.labels).flatMap symbol ↔
          (marked n.labels).map symbol = (marked m.labels).map symbol := by
        refine ⟨symbol_prefixFree.map_eq, fun h => ?_⟩
        rw [List.flatMap_def, List.flatMap_def, h]
      rw [hsame, hcode, map_symbol_iff, ← marked_folded, ← marked_folded]
      exact ⟨marked_inj, congrArg marked⟩

/-! ### The name that is read -/

theorem spell_cons (label : List UInt8) (labels : List (List UInt8)) :
    spell (label :: labels) = UInt8.ofNat label.length :: (label ++ spell labels) := by
  simp [spell]

theorem length_spell_cons (label : List UInt8) (labels : List (List UInt8)) :
    (spell (label :: labels)).length = 1 + label.length + (spell labels).length := by
  rw [spell_cons, List.length_cons, List.length_append]
  omega

theorem toNat_length {label : List UInt8} (h : IsLabel label) :
    (UInt8.ofNat label.length).toNat = label.length :=
  UInt8.toNat_ofNat_of_lt' (lt_of_le_of_lt h.2 (by decide))

theorem length_ne_zero {label : List UInt8} (h : IsLabel label) :
    UInt8.ofNat label.length ≠ 0 := by
  intro hzero
  have := toNat_length h
  rw [hzero] at this
  exact h.1.ne this

/-- A name that is written out is one as it is written. -/
theorem isName_spell {labels : List (List UInt8)} (h : ∀ label ∈ labels, IsLabel label) :
    IsName (spell labels) := by
  induction labels with
  | nil => exact .root
  | cons label labels ih =>
    have hlabel := h label List.mem_cons_self
    rw [spell_cons]
    refine .label (toNat_length hlabel).symm (length_ne_zero hlabel) ?_
      (ih fun l hl => h l (List.mem_cons_of_mem _ hl))
    rw [UInt8.le_iff_toNat_le, toNat_length hlabel]
    exact hlabel.2

/-- What is read is a name that stands there. -/
theorem spelled_of_read {bytes : List UInt8} {name name' : Str} {a e : ℕ} (ha : 12 ≤ a)
    (h : read_name bytes name a = some (name', e)) :
    ∃ labels, (∀ label ∈ labels, IsLabel label) ∧ bytes.drop a = spell labels ++ bytes.drop e ∧
      e = a + (spell labels).length ∧ name' = labels.foldl push_next name ∧
      (labels ≠ [] → e ≤ 12 + MAX_NAME) := by
  fun_induction read_name bytes name a with
  | case1 name a hlt len hzero =>
    cases h
    refine ⟨[], by simp, ?_, rfl, rfl, fun h => absurd rfl h⟩
    have hbyte : bytes[a] = 0 := UInt8.toNat_inj.1 hzero
    rw [List.drop_eq_getElem_cons hlt, hbyte]
    rfl
  | case2 => cases h
  | case3 => cases h
  | case4 name a hlt len hpos hshort label hslice hroom ih =>
    obtain ⟨labels, hlabels, hdrop, rfl, rfl, hmax⟩ := ih (by omega) h
    have hlength : label.length = len := by
      rw [Quic.length_slice hslice]
      omega
    have hbyte : UInt8.ofNat label.length = bytes[a] := by
      rw [hlength]
      exact UInt8.ofNat_toNat
    refine ⟨label :: labels, ?_, ?_, ?_, rfl, fun _ => ?_⟩
    · intro l hl
      rcases List.mem_cons.1 hl with rfl | hl
      · exact ⟨by omega, by omega⟩
      · exact hlabels l hl
    · rw [List.drop_eq_getElem_cons hlt, drop_of_slice hslice, hdrop, spell_cons, hbyte,
        List.cons_append, List.append_assoc]
    · rw [length_spell_cons, hlength]
      omega
    · by_cases hlast : labels = []
      · rw [hlast, show (spell []).length = 1 from rfl]
        omega
      · exact hmax hlast
  | case5 => cases h
  | case6 => cases h

/-- A name that stands there is read. -/
theorem read_of_spelled {bytes t : List UInt8} {name : Str} {a : ℕ} {labels : List (List UInt8)}
    (ha : 12 ≤ a) (hlabels : ∀ label ∈ labels, IsLabel label)
    (hmax : a + (spell labels).length ≤ 12 + MAX_NAME) (h : bytes.drop a = spell labels ++ t) :
    read_name bytes name a = some (labels.foldl push_next name, a + (spell labels).length) := by
  induction labels generalizing name a with
  | nil =>
    obtain ⟨hlt, hbyte⟩ := List.getElem?_eq_some_iff.1 (getElem?_of_drop h)
    rw [read_name, dif_pos hlt]
    simp [hbyte, spell]
  | cons label labels ih =>
    have hlabel := hlabels label List.mem_cons_self
    rw [spell_cons, List.cons_append, List.append_assoc] at h
    rw [length_spell_cons] at hmax
    obtain ⟨hlt, hbyte⟩ := List.getElem?_eq_some_iff.1 (getElem?_of_drop h)
    have hdrop : bytes.drop (a + 1) = label ++ (spell labels ++ t) :=
      drop_add (s := [UInt8.ofNat label.length]) h
    have hslice := slice_of_drop hdrop (List.ne_nil_of_length_pos hlabel.1)
    have hroot : 0 < (spell labels).length := by simp [spell]
    have hrest := @ih (push_next name label) (a + 1 + label.length) (by omega)
      (fun l hl => hlabels l (List.mem_cons_of_mem _ hl)) (by omega) (drop_add hdrop)
    rw [read_name, dif_pos hlt]
    simp only [hbyte, toNat_length hlabel, if_neg hlabel.1.ne', if_pos hlabel.2, hslice]
    rw [if_neg (by omega), hrest, List.foldl_cons, length_spell_cons]
    simp only [Nat.add_assoc]

/-- The name stands at `a`. -/
def Name.StandsAt (n : Name) (bytes : List UInt8) (a : ℕ) : Prop :=
  ∃ t, bytes.drop a = n.bytes ++ t

/-- **The first question as it stands**: the name, written out, then its type and its class. -/
theorem question_of_first {bytes : List UInt8} {q : FirstQuestion}
    (h : first_question bytes = some q) :
    ∃ n : Name, bytes.drop 12 =
        n.bytes ++ (u16 q.qtype ++ (u16 q.qclass ++ bytes.drop q.end_)) ∧
      q.name = n.present ∧ q.end_ = 12 + n.bytes.length + 4 := by
  simp only [first_question, Option.bind_eq_bind, Option.bind_eq_some_iff] at h
  obtain ⟨count, -, hread⟩ := h
  have hcount : count ≠ 0 := by
    intro hzero
    rw [if_pos hzero] at hread
    cases hread
  rw [if_neg hcount] at hread
  simp only [Option.bind_eq_some_iff, Option.pure_def, Option.some.injEq] at hread
  obtain ⟨⟨name, at_⟩, hname, qtype, hqtype, qclass, hqclass, rfl⟩ := hread
  obtain ⟨labels, hlabels, hdrop, rfl, rfl, hmax⟩ := spelled_of_read le_rfl hname
  have hshort : (spell labels).length ≤ MAX_NAME := by
    by_cases hnil : labels = []
    · subst hnil
      exact (by decide : (1 : ℕ) ≤ 255)
    · have := hmax hnil
      omega
  refine ⟨⟨labels, hlabels, hshort⟩, ?_, rfl, rfl⟩
  rw [hdrop, drop_of_wire_u16 hqtype, drop_of_wire_u16 hqclass]
  rfl

theorem first_of_question {bytes t : List UInt8} {count qtype qclass : UInt16} (n : Name)
    (hcount : wire_u16 bytes 4 = some count) (hsome : count ≠ 0)
    (h : bytes.drop 12 = n.bytes ++ (u16 qtype ++ (u16 qclass ++ t))) :
    first_question bytes = some ⟨n.present, qtype, qclass, 12 + n.bytes.length + 4⟩ := by
  have hname := @read_of_spelled _ _ [] _ _ le_rfl n.labels_ok (by have := n.short; omega) h
  have hfields := drop_add h
  have hqtype := wire_u16_of_drop hfields
  have hqclass := drop_add hfields
  rw [length_u16] at hqclass
  rw [first_question, hcount]
  simp only [Option.bind_eq_bind, Option.bind_some, if_neg hsome, hname]
  change (wire_u16 bytes (12 + n.bytes.length)).bind _ = _
  rw [hqtype, Option.bind_some]
  change (wire_u16 bytes (12 + n.bytes.length + 2)).bind _ = _
  rw [wire_u16_of_drop hqclass]
  rfl

/-- One name only stands at a place. -/
theorem spell_inj {l m : List (List UInt8)} {t u : List UInt8} (hl : ∀ label ∈ l, IsLabel label)
    (hm : ∀ label ∈ m, IsLabel label) (h : spell l ++ t = spell m ++ u) : l = m := by
  induction l generalizing m with
  | nil =>
    cases m with
    | nil => rfl
    | cons label m =>
      rw [spell_cons] at h
      exact absurd (List.cons.inj h).1.symm (length_ne_zero (hm label List.mem_cons_self))
  | cons label l ih =>
    have hlabel := hl label List.mem_cons_self
    cases m with
    | nil =>
      rw [spell_cons] at h
      exact absurd (List.cons.inj h).1 (length_ne_zero hlabel)
    | cons label' m =>
      have hlabel' := hm label' List.mem_cons_self
      rw [spell_cons, spell_cons] at h
      obtain ⟨hfirst, hrest⟩ := List.cons.inj h
      have hlength : label.length = label'.length := by
        rw [← toNat_length hlabel, hfirst, toNat_length hlabel']
      simp only [List.append_eq, List.append_assoc] at hrest
      obtain ⟨rfl, hafter⟩ := List.append_inj hrest hlength
      rw [ih (fun x hx => hl x (List.mem_cons_of_mem _ hx))
        (fun x hx => hm x (List.mem_cons_of_mem _ hx)) hafter]

theorem Name.StandsAt.unique {n m : Name} {bytes : List UInt8} {a : ℕ} (hn : n.StandsAt bytes a)
    (hm : m.StandsAt bytes a) : n.labels = m.labels := by
  obtain ⟨t, ht⟩ := hn
  obtain ⟨u, hu⟩ := hm
  exact spell_inj n.labels_ok m.labels_ok (ht.symm.trans hu)

/-- **Names of questions.**  Of two messages whose first question can be read, the names read are
the same text exactly when the names that stand there are the same labels up to the case of
letters: the text of a name is no other name's. -/
theorem question_names_tell {b₁ b₂ : List UInt8} {q₁ q₂ : FirstQuestion}
    (h₁ : first_question b₁ = some q₁) (h₂ : first_question b₂ = some q₂) :
    (∃ n : Name, n.StandsAt b₁ 12 ∧ q₁.name = n.present) ∧
      (∃ n : Name, n.StandsAt b₂ 12 ∧ q₂.name = n.present) ∧
      (∀ n₁ n₂ : Name, n₁.StandsAt b₁ 12 → n₂.StandsAt b₂ 12 →
        (q₁.name = q₂.name ↔ n₁.folded = n₂.folded)) ∧
      ∀ n m : Name, n.present = m.present ↔ n.folded = m.folded := by
  obtain ⟨n₁, hdrop₁, hname₁, -⟩ := question_of_first h₁
  obtain ⟨n₂, hdrop₂, hname₂, -⟩ := question_of_first h₂
  refine ⟨⟨n₁, ⟨_, hdrop₁⟩, hname₁⟩, ⟨n₂, ⟨_, hdrop₂⟩, hname₂⟩, fun m₁ m₂ hm₁ hm₂ => ?_,
    Name.present_iff⟩
  have hsame₁ : m₁.labels = n₁.labels := hm₁.unique ⟨_, hdrop₁⟩
  have hsame₂ : m₂.labels = n₂.labels := hm₂.unique ⟨_, hdrop₂⟩
  rw [hname₁, hname₂, n₁.present_iff n₂, Name.folded, Name.folded, Name.folded, Name.folded, hsame₁,
    hsame₂]

/-- Two questions for one name, a letter of it in either case. -/
theorem question_names_tell_a : ∃ q₁ q₂ : FirstQuestion,
    first_question [0, 0, 1, 0, 0, 1, 0, 0, 0, 0, 0, 0, 1, 0x41, 0, 0, 1, 0, 1] = some q₁ ∧
      first_question [0, 0, 1, 0, 0, 1, 0, 0, 0, 0, 0, 0, 1, 0x61, 0, 0, 1, 0, 1] = some q₂ ∧
      ∀ n₁ n₂ : Name,
        n₁.StandsAt [0, 0, 1, 0, 0, 1, 0, 0, 0, 0, 0, 0, 1, 0x41, 0, 0, 1, 0, 1] 12 →
        n₂.StandsAt [0, 0, 1, 0, 0, 1, 0, 0, 0, 0, 0, 0, 1, 0x61, 0, 0, 1, 0, 1] 12 →
          n₁.folded = n₂.folded := by
  have h₁ : first_question [0, 0, 1, 0, 0, 1, 0, 0, 0, 0, 0, 0, 1, 0x41, 0, 0, 1, 0, 1] =
      some ⟨['a'], 1, 1, 19⟩ := by decide +kernel
  have h₂ : first_question [0, 0, 1, 0, 0, 1, 0, 0, 0, 0, 0, 0, 1, 0x61, 0, 0, 1, 0, 1] =
      some ⟨['a'], 1, 1, 19⟩ := by decide +kernel
  exact ⟨_, _, h₁, h₂, fun n₁ n₂ hn₁ hn₂ =>
    ((question_names_tell h₁ h₂).2.2.1 n₁ n₂ hn₁ hn₂).1 rfl⟩

end Dns

end Rurge
