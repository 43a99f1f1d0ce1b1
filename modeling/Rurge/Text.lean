import Mathlib

/-!
# Text

The text the program matches on, as the list of its characters, with the operations of Rust's
`str` that the modelled functions use: ASCII case folding, the `trim` family, substring tests and
splitting.  Whitespace is Unicode `White_Space`, which is what `str::trim` takes off; letters are
folded in ASCII only.
-/

namespace Rurge

/-- A text. -/
abbrev Str := List Char

instance : LawfulBEq Str := inferInstance

namespace Str

/-- Unicode `White_Space`. -/
def isWhiteSpace (c : Char) : Bool :=
  let n := c.toNat
  (9 ≤ n && n ≤ 13) || n == 0x20 || n == 0x85 || n == 0xA0 || n == 0x1680 ||
    (0x2000 ≤ n && n ≤ 0x200A) || n == 0x2028 || n == 0x2029 || n == 0x202F || n == 0x205F ||
    n == 0x3000

/-- `str::to_ascii_lowercase`. -/
def toAsciiLowercase (s : Str) : Str := s.map Char.toLower

/-- `str::to_ascii_uppercase`. -/
def toAsciiUppercase (s : Str) : Str := s.map Char.toUpper

/-- `str::eq_ignore_ascii_case`. -/
def eqIgnoreAsciiCase (s t : Str) : Bool := toAsciiLowercase s == toAsciiLowercase t

/-- `str::trim_start_matches`. -/
def trimStartMatches (c : Char) (s : Str) : Str := s.dropWhile (· == c)

/-- `str::trim_end_matches`. -/
def trimEndMatches (c : Char) (s : Str) : Str := s.rdropWhile (· == c)

/-- `str::trim_matches`. -/
def trimMatches (c : Char) (s : Str) : Str := trimEndMatches c (trimStartMatches c s)

/-- `str::trim`. -/
def trim (s : Str) : Str := (s.dropWhile isWhiteSpace).rdropWhile isWhiteSpace

/-- `str::contains` of a text. -/
def containsStr (k : Str) : Str → Bool
  | [] => k == []
  | c :: s => k.isPrefixOf (c :: s) || containsStr k s

/-- The position of the first occurrence of `k`, as `str::find` gives it. -/
def find (k : Str) : Str → Option ℕ
  | [] => if k == [] then some 0 else none
  | c :: s => if k.isPrefixOf (c :: s) then some 0 else (find k s).map (· + 1)

/-- `str::rsplit_once` at a character: what stands before and after its last occurrence. -/
def rsplitOnce (c : Char) (s : Str) : Option (Str × Str) :=
  if c ∈ s then
    some ((s.reverse.dropWhile (· != c)).tail.reverse, (s.reverse.takeWhile (· != c)).reverse)
  else none

/-- `str::split_once` at a character: what stands before and after its first occurrence. -/
def splitOnce (c : Char) (s : Str) : Option (Str × Str) :=
  if c ∈ s then some (s.takeWhile (· != c), (s.dropWhile (· != c)).tail) else none

/-- `str::len`: how many bytes the text takes in UTF-8. -/
def byteLen (s : Str) : ℕ := (s.map Char.utf8Size).sum

/-- A number in decimal digits. -/
def decimal (n : ℕ) : Str := Nat.toDigits 10 n

/-- `str::parse` of an unsigned number of at most `max`: digits, with or without a plus sign. -/
def parseUnsigned (max : ℕ) (s : Str) : Option ℕ :=
  let digits := match s with
    | '+' :: digits => digits
    | digits => digits
  if digits ≠ [] ∧ digits.all Char.isDigit ∧ Nat.ofDigitChars 10 digits 0 ≤ max then
    some (Nat.ofDigitChars 10 digits 0)
  else none

/-- `str::strip_prefix`. -/
def stripPrefix (start s : Str) : Option Str := start.isPrefixOf? s

/-- `str::strip_suffix`. -/
def stripSuffix (stop s : Str) : Option Str := stop.isSuffixOf? s

/-- `str::replace` of one character by another. -/
def replaceChar (a b : Char) (s : Str) : Str := s.map fun c => if c = a then b else c

@[simp] theorem toAsciiLowercase_nil : toAsciiLowercase [] = [] := rfl

theorem toAsciiLowercase_idem (s : Str) :
    toAsciiLowercase (toAsciiLowercase s) = toAsciiLowercase s := by
  simp [toAsciiLowercase, Function.comp_def, Char.toLower_toLower_eq_toLower]

theorem splitOnce_append {c : Char} {s : Str} (h : c ∉ s) (t : Str) :
    splitOnce c (s ++ c :: t) = some (s, t) := by
  have hne : ∀ a ∈ s, (a != c) = true := by
    intro a ha
    rw [bne_iff_ne]
    rintro rfl
    exact h ha
  unfold splitOnce
  rw [if_pos (by simp), List.takeWhile_append_of_pos hne, List.dropWhile_append_of_pos hne]
  simp

/-- What is left of a text without the white space around it has none around it. -/
theorem trim_trim (s : Str) : trim (trim s) = trim s := by
  have hdrop : (trim s).dropWhile isWhiteSpace = trim s := by
    have hpre : trim s <+: s.dropWhile isWhiteSpace := List.rdropWhile_prefix _ _
    cases hr : trim s with
    | nil => rfl
    | cons c r =>
      obtain ⟨t, ht⟩ := hr ▸ hpre
      have hc : ¬ isWhiteSpace c := by
        have h := List.head?_dropWhile_not isWhiteSpace s
        rw [← ht] at h
        simpa using h
      rw [List.dropWhile_cons_of_neg hc]
  calc trim (trim s) = ((trim s).dropWhile isWhiteSpace).rdropWhile isWhiteSpace := rfl
    _ = (trim s).rdropWhile isWhiteSpace := by rw [hdrop]
    _ = trim s := List.rdropWhile_idempotent _ _

theorem decimal_ne_nil (n : ℕ) : decimal n ≠ [] := Nat.toDigits_ne_nil

theorem isDigit_of_mem_decimal {n : ℕ} {c : Char} (h : c ∈ decimal n) : c.isDigit = true :=
  Nat.isDigit_of_mem_toDigits (by omega) le_rfl h

theorem not_mem_decimal {n : ℕ} {c : Char} (hc : c.isDigit = false) : c ∉ decimal n := by
  intro h
  rw [isDigit_of_mem_decimal h] at hc
  cases hc

theorem decimal_injective : Function.Injective decimal := by
  intro m n h
  simpa [decimal] using congrArg (Nat.ofDigitChars 10 · 0) h

theorem toLower_of_isDigit {c : Char} (h : c.isDigit = true) : c.toLower = c := by
  simp only [Char.isDigit, Bool.and_eq_true, decide_eq_true_eq, ge_iff_le] at h
  unfold Char.toLower
  rw [dif_neg]
  rintro ⟨hA, -⟩
  have := UInt32.le_trans hA h.2
  revert this
  decide

theorem toAsciiLowercase_decimal (n : ℕ) : toAsciiLowercase (decimal n) = decimal n := by
  have hmap : (decimal n).map Char.toLower = (decimal n).map id := List.map_congr_left
    fun _ hc => toLower_of_isDigit (isDigit_of_mem_decimal hc)
  exact hmap.trans (List.map_id _)

end Str

end Rurge
