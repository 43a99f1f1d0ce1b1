import Rurge.Text

/-!
# The file of the fake-IP pool

What the pool keeps between runs, as text and as the table it stands for.  Reading is strict:
`parse_valid` says what a table that was read satisfies, and `parse_render` that such a table is
read back as it was written.
-/

namespace Rurge

namespace FakeIp

/-! ### Names -/

def isLabelChar (c : Char) : Bool :=
  ('a' ≤ c && c ≤ 'z') || ('0' ≤ c && c ≤ '9') || c == '-' || c == '_'

def aLabel (label : Str) : Bool := label ≠ [] && label.all isLabelChar

/-- One trailing dot off. -/
def stripDot (name : Str) : Str := if name.getLast? = some '.' then name.dropLast else name

/-- A name as the pool knows it, or `none` for what the pool gives no address. -/
def normalize (name : Str) : Option Str :=
  let name := stripDot name
  if 253 < name.byteLen then none
  else
    let name := name.toAsciiLowercase
    if (name.splitOn '.').all aLabel then some name else none

theorem mem_of_mem_intercalate {sep c : Char} {l : List Str}
    (h : c ∈ [sep].intercalate l) : c = sep ∨ ∃ w ∈ l, c ∈ w := by
  induction l with
  | nil => simp at h
  | cons w l ih =>
    cases l with
    | nil => exact Or.inr ⟨w, by simp, by simpa using h⟩
    | cons v l =>
      rw [List.intercalate_cons_of_ne_nil (by simp : v :: l ≠ []), List.mem_append,
        List.mem_append] at h
      rcases h with (h | h) | h
      · exact Or.inr ⟨w, by simp, h⟩
      · exact Or.inl (List.mem_singleton.1 h)
      · rcases ih h with h | ⟨u, hu, hc⟩
        · exact Or.inl h
        · exact Or.inr ⟨u, List.mem_cons_of_mem _ hu, hc⟩

/-- A normalized name consists of dots and the characters of labels. -/
theorem mem_normalize {name n : Str} (h : normalize name = some n) {c : Char} (hc : c ∈ n) :
    c = '.' ∨ isLabelChar c = true := by
  unfold normalize at h
  dsimp only at h
  split_ifs at h with hlen hlabels
  obtain rfl := Option.some.inj h
  have hjoined : c ∈ ['.'].intercalate ((Str.toAsciiLowercase (stripDot name)).splitOn '.') := by
    rwa [List.intercalate_splitOn]
  rcases mem_of_mem_intercalate hjoined with hc | ⟨w, hw, hc⟩
  · exact Or.inl hc
  · have := List.all_eq_true.1 hlabels w hw
    simp only [aLabel, Bool.and_eq_true, List.all_eq_true] at this
    exact Or.inr (this.2 c hc)

theorem newline_not_mem {name n : Str} (h : normalize name = some n) : '\n' ∉ n := by
  intro hc
  rcases mem_normalize h hc with h | h
  · cases h
  · revert h; decide

theorem utf8Size_of_label {c : Char} (h : c = '.' ∨ isLabelChar c = true) : c.utf8Size = 1 := by
  rw [Char.utf8Size_eq_one_iff]
  have hle : ∀ d : Char, c ≤ d → d.val ≤ 127 → c.val ≤ 127 := fun d hcd hd =>
    UInt32.le_trans (Char.le_def.1 hcd) hd
  rcases h with rfl | h
  · decide
  · simp only [isLabelChar, Bool.or_eq_true, Bool.and_eq_true, decide_eq_true_eq,
      beq_iff_eq] at h
    rcases h with ((⟨-, h⟩ | ⟨-, h⟩) | rfl) | rfl
    · exact hle 'z' h (by decide)
    · exact hle '9' h (by decide)
    · decide
    · decide

theorem length_le_byteLen (s : Str) : s.length ≤ s.byteLen := by
  induction s with
  | nil => simp [Str.byteLen]
  | cons c s ih =>
    have hpos : 0 < c.utf8Size := c.utf8Size_pos
    simp only [Str.byteLen, List.map_cons, List.sum_cons, List.length_cons] at ih ⊢
    omega

theorem byteLen_eq_length {s : Str} (h : ∀ c ∈ s, c.utf8Size = 1) : s.byteLen = s.length := by
  induction s with
  | nil => rfl
  | cons c s ih =>
    have hs := ih fun d hd => h d (List.mem_cons_of_mem _ hd)
    have hc := h c List.mem_cons_self
    simp only [Str.byteLen, List.map_cons, List.sum_cons, List.length_cons] at hs ⊢
    omega

/-- **A normalized name stays as it is.** -/
theorem normalize_normal {name n : Str} (h : normalize name = some n) : normalize n = some n := by
  have hchars : ∀ c ∈ n, c = '.' ∨ isLabelChar c = true := fun c hc => mem_normalize h hc
  unfold normalize at h
  dsimp only at h
  split_ifs at h with hlen hlabels
  have hn : (stripDot name).toAsciiLowercase = n := Option.some.inj h
  rw [hn] at hlabels
  have hstrip : stripDot n = n := by
    unfold stripDot
    rw [if_neg]
    intro hlast
    have hne : n ≠ [] := by
      rintro rfl
      cases hlast
    have hsplit : n = n.dropLast ++ '.' :: [] := by
      rw [List.getLast?_eq_some_getLast hne, Option.some.injEq] at hlast
      rw [← hlast, List.dropLast_append_getLast hne]
    have hmem : [] ∈ n.splitOn '.' := by
      rw [hsplit, List.splitOn_append_cons_self]
      simp
    have := List.all_eq_true.1 hlabels [] hmem
    simp [aLabel] at this
  have hshort : n.byteLen ≤ 253 := by
    have hle := length_le_byteLen (stripDot name)
    have hlength : n.length = (stripDot name).length := by
      rw [← hn]
      exact List.length_map _
    rw [byteLen_eq_length fun c hc => utf8Size_of_label (hchars c hc)]
    omega
  have hlower : n.toAsciiLowercase = n := by
    rw [← hn, Str.toAsciiLowercase_idem]
  unfold normalize
  dsimp only
  rw [hstrip, if_neg (not_lt.2 hshort), hlower, if_pos hlabels]

/-! ### The table and its text -/

structure Table where
  cursor : ℕ
  wrapped : Bool
  /-- An index and its name; the one to be recycled first leads. -/
  entries : List (ℕ × Str)
  deriving DecidableEq

def MAGIC : Str := "rurge-fake-ip 1".toList

/-- `u8::from`, written out. -/
def flagText (b : Bool) : Str := if b then ['1'] else ['0']

def headerLine (table : Table) (clean : Bool) : Str :=
  "cursor ".toList ++ Str.decimal table.cursor ++ " wrapped ".toList ++ flagText table.wrapped ++
    " clean ".toList ++ flagText clean

def entryLine (e : ℕ × Str) : Str := Str.decimal e.1 ++ ' ' :: e.2

/-- The text of the file for `table`; `clean` says the run ended. -/
def render (table : Table) (clean : Bool) : Str :=
  (MAGIC :: headerLine table clean :: table.entries.map entryLine).flatMap (· ++ ['\n'])

/-- The bytes of the file. -/
def contents (table : Table) (clean : Bool) : ByteArray :=
  (String.ofList (render table clean)).toByteArray

/-! ### Reading -/

/-- A number written with digits and nothing else, at most what a `u32` holds. -/
def number (word : Str) : Option ℕ :=
  if word = [] ∨ word.all Char.isDigit = false then none
  else
    let n := Nat.ofDigitChars 10 word 0
    if n < 2 ^ 32 then some n else none

def flag (word : Str) : Option Bool :=
  if word = ['0'] then some false else if word = ['1'] then some true else none

/-- `cursor <n> wrapped <0|1> clean <0|1>`. -/
def header (line : Str) : Option (ℕ × Bool × Bool) :=
  match line.splitOn ' ' with
  | [w₁, cursor, w₂, wrapped, w₃, clean] =>
    if w₁ = "cursor".toList ∧ w₂ = "wrapped".toList ∧ w₃ = "clean".toList then do
      return (← number cursor, ← flag wrapped, ← flag clean)
    else none
  | _ => none

/-- An empty last line taken off. -/
def popBlank (lines : List Str) : List Str :=
  if lines.getLast? = some [] then lines.dropLast else lines

/-- `<number> <name>`. -/
def entryOf (line : Str) : Option (ℕ × Str) := do
  let (index, name) ← Str.splitOnce ' ' line
  return (← number index, name)

/-- The lines from number `at_` on, after the entries `seen`. -/
def parseEntries (count cursor : ℕ) (wrapped : Bool) :
    ℕ → List (ℕ × Str) → List Str → Except Str (List (ℕ × Str))
  | _, seen, [] => .ok seen
  | at_, seen, line :: lines =>
    match entryOf line with
    | none =>
      .error ("line ".toList ++ Str.decimal at_ ++ " is not `<number> <name>`".toList)
    | some (index, name) =>
      if count ≤ index ∨ (wrapped = false ∧ cursor ≤ index) then
        .error ("line ".toList ++ Str.decimal at_ ++
          ": the address number is out of range".toList)
      else if index ∈ seen.map (·.1) then
        .error ("line ".toList ++ Str.decimal at_ ++ ": the address number comes twice".toList)
      else if normalize name ≠ some name then
        .error ("line ".toList ++ Str.decimal at_ ++
          ": the name is not in its normalized form".toList)
      else if name ∈ seen.map (·.2) then
        .error ("line ".toList ++ Str.decimal at_ ++ ": the name comes twice".toList)
      else parseEntries count cursor wrapped (at_ + 1) (seen ++ [(index, name)]) lines

/-- Reads the bytes of the file for a pool of `count` indices: the table and whether the run
ended. -/
def parse (bytes : ByteArray) (count : ℕ) : Except Str (Table × Bool) :=
  match bytes.utf8Decode? with
  | none => .error "the file is not UTF-8".toList
  | some text =>
    -- the last line's own line feed leaves an empty piece; so may one more
    let lines := popBlank (popBlank (text.toList.splitOn '\n'))
    if lines.head? ≠ some MAGIC then .error "the first line is not `rurge-fake-ip 1`".toList
    else
      match (lines[1]?).bind header with
      | none =>
        .error "the second line is not `cursor <n> wrapped <0|1> clean <0|1>`".toList
      | some (cursor, wrapped, clean) =>
        if count < cursor then .error "the cursor is past the last address".toList
        else (parseEntries count cursor wrapped 3 [] (lines.drop 2)).map
          fun entries => (⟨cursor, wrapped, entries⟩, clean)

/-! ### What was read -/

/-- What `parse` lets through for a pool of `count` indices. -/
structure Table.Valid (count : ℕ) (t : Table) : Prop where
  cursor : t.cursor ≤ count
  entries : ∀ e ∈ t.entries, e.1 < count ∧ (t.wrapped = false → e.1 < t.cursor) ∧
    normalize e.2 = some e.2
  indices : (t.entries.map (·.1)).Nodup
  names : (t.entries.map (·.2)).Nodup

theorem Table.Valid.concat {count cursor : ℕ} {wrapped : Bool} {entries : List (ℕ × Str)}
    {index : ℕ} {name : Str} (h : Valid count ⟨cursor, wrapped, entries⟩)
    (hrange : ¬ (count ≤ index ∨ (wrapped = false ∧ cursor ≤ index)))
    (hindex : index ∉ entries.map (·.1)) (hnorm : normalize name = some name)
    (hname : name ∉ entries.map (·.2)) :
    Valid count ⟨cursor, wrapped, entries ++ [(index, name)]⟩ := by
  rw [not_or, not_and, not_le, not_le] at hrange
  constructor
  · exact h.cursor
  · intro e he
    rcases List.mem_append.1 he with he | he
    · exact h.entries e he
    · obtain rfl := List.mem_singleton.1 he
      exact ⟨hrange.1, hrange.2, hnorm⟩
  · rw [List.map_append, List.nodup_append]
    refine ⟨h.indices, by simp, ?_⟩
    rintro a ha b hb rfl
    obtain rfl : a = index := by simpa using hb
    exact hindex ha
  · rw [List.map_append, List.nodup_append]
    refine ⟨h.names, by simp, ?_⟩
    rintro a ha b hb rfl
    obtain rfl : a = name := by simpa using hb
    exact hname ha

theorem parseEntries_valid {count cursor : ℕ} {wrapped : Bool} {lines : List Str} {at_ : ℕ}
    {seen entries : List (ℕ × Str)} (hseen : Table.Valid count ⟨cursor, wrapped, seen⟩)
    (h : parseEntries count cursor wrapped at_ seen lines = .ok entries) :
    Table.Valid count ⟨cursor, wrapped, entries⟩ := by
  induction lines generalizing at_ seen with
  | nil =>
    cases h
    exact hseen
  | cons line lines ih =>
    unfold parseEntries at h
    cases hentry : entryOf line with
    | none => simp [hentry] at h
    | some e =>
      obtain ⟨index, name⟩ := e
      simp only [hentry] at h
      split_ifs at h with hrange hindex hnorm hname
      exact ih (hseen.concat hrange hindex (not_not.1 hnorm) hname) h

/-- **A table that was read is valid.** -/
theorem parse_valid {bytes : ByteArray} {count : ℕ} {table : Table} {clean : Bool}
    (h : parse bytes count = .ok (table, clean)) : table.Valid count := by
  unfold parse at h
  cases hdecode : bytes.utf8Decode? with
  | none => simp [hdecode] at h
  | some text =>
    simp only [hdecode] at h
    split_ifs at h with hmagic
    split at h
    · cases h
    · rename_i cursor wrapped clean' hheader
      split_ifs at h with hcursor
      cases hentries : parseEntries count cursor wrapped 3 []
          ((popBlank (popBlank (text.toList.splitOn '\n'))).drop 2) with
      | error e => simp [hentries, Except.map] at h
      | ok entries =>
        rw [hentries] at h
        cases h
        refine parseEntries_valid ⟨not_lt.1 hcursor, ?_, ?_, ?_⟩ hentries <;> simp

/-! ### Reading back -/

theorem number_decimal {n : ℕ} (h : n < 2 ^ 32) : number (Str.decimal n) = some n := by
  have hall : (Str.decimal n).all Char.isDigit = true :=
    List.all_eq_true.2 fun c hc => Str.isDigit_of_mem_decimal hc
  have hval : Nat.ofDigitChars 10 (Str.decimal n) 0 = n := Nat.ofDigitChars_ten_toDigits
  unfold number
  rw [if_neg (by simp [Str.decimal_ne_nil, hall])]
  dsimp only
  rw [hval, if_pos h]

theorem flag_flagText (b : Bool) : flag (flagText b) = some b := by cases b <;> rfl

/-- Lines that end in a line feed come apart again, with an empty piece at the end. -/
theorem splitOn_lines {lines : List Str} (h : ∀ line ∈ lines, '\n' ∉ line) :
    (lines.flatMap (· ++ ['\n'])).splitOn '\n' = lines ++ [[]] := by
  induction lines with
  | nil => simp
  | cons line lines ih =>
    rw [List.flatMap_cons, List.append_assoc, List.singleton_append,
      List.splitOn_append_cons_self, ih fun l hl => h l (List.mem_cons_of_mem _ hl),
      List.splitOn_eq_singleton (h line List.mem_cons_self)]
    simp

theorem intercalate_six (sep a b c d e f : Str) :
    a ++ sep ++ b ++ (sep ++ c ++ sep) ++ d ++ (sep ++ e ++ sep) ++ f =
      sep.intercalate [a, b, c, d, e, f] := by
  simp [List.intercalate]

theorem header_words (cursor wrapped clean : Str) :
    "cursor ".toList ++ cursor ++ " wrapped ".toList ++ wrapped ++ " clean ".toList ++ clean =
      [' '].intercalate ["cursor".toList, cursor, "wrapped".toList, wrapped, "clean".toList,
        clean] := by
  have hcursor : "cursor ".toList = "cursor".toList ++ [' '] := by decide +kernel
  have hwrapped : " wrapped ".toList = [' '] ++ "wrapped".toList ++ [' '] := by decide +kernel
  have hclean : " clean ".toList = [' '] ++ "clean".toList ++ [' '] := by decide +kernel
  rw [← intercalate_six]
  rw [hcursor]
  rw [hwrapped]
  rw [hclean]

/-- The header line in its words. -/
theorem headerLine_eq (table : Table) (clean : Bool) : headerLine table clean =
    [' '].intercalate ["cursor".toList, Str.decimal table.cursor, "wrapped".toList,
      flagText table.wrapped, "clean".toList, flagText clean] :=
  header_words _ _ _

theorem splitOn_headerLine (table : Table) (clean : Bool) : (headerLine table clean).splitOn ' ' =
    ["cursor".toList, Str.decimal table.cursor, "wrapped".toList, flagText table.wrapped,
      "clean".toList, flagText clean] := by
  have hdec : ' ' ∉ Str.decimal table.cursor := Str.not_mem_decimal rfl
  have hflag : ∀ b, ' ' ∉ flagText b := by decide
  rw [headerLine_eq]
  refine List.splitOn_intercalate ' ' ?_ (by simp)
  simp only [List.mem_cons, List.not_mem_nil, or_false, forall_eq_or_imp, forall_eq]
  exact ⟨by decide +kernel, hdec, by decide +kernel, hflag _, by decide +kernel, hflag _⟩

theorem header_headerLine {table : Table} (h : table.cursor < 2 ^ 32) (clean : Bool) :
    header (headerLine table clean) = some (table.cursor, table.wrapped, clean) := by
  unfold header
  rw [splitOn_headerLine]
  dsimp only
  rw [if_pos ⟨rfl, rfl, rfl⟩, number_decimal h, flag_flagText, flag_flagText]
  rfl

theorem entryOf_entryLine {e : ℕ × Str} (h : e.1 < 2 ^ 32) : entryOf (entryLine e) = some e := by
  unfold entryOf entryLine
  rw [Str.splitOnce_append (Str.not_mem_decimal rfl), Option.bind_eq_bind, Option.bind_some]
  simp only [number_decimal h]
  rfl

theorem parseEntries_lines {count cursor : ℕ} {wrapped : Bool} (hcount : count ≤ 2 ^ 32)
    (seen : List (ℕ × Str)) {entries : List (ℕ × Str)} (at_ : ℕ)
    (h : Table.Valid count ⟨cursor, wrapped, seen ++ entries⟩) :
    parseEntries count cursor wrapped at_ seen (entries.map entryLine) = .ok (seen ++ entries) := by
  induction entries generalizing seen at_ with
  | nil => simp [parseEntries]
  | cons e entries ih =>
    obtain ⟨index, name⟩ := e
    obtain ⟨hlt, hcursor, hnorm⟩ := h.entries (index, name) (by simp)
    have hindices := h.indices
    have hnames := h.names
    simp only [List.map_append, List.map_cons, List.nodup_append] at hindices hnames
    have hrest := ih (seen ++ [(index, name)]) (at_ + 1) (by simpa using h)
    rw [List.map_cons]
    unfold parseEntries
    rw [entryOf_entryLine (show index < 2 ^ 32 by omega)]
    dsimp only
    rw [if_neg (by rw [not_or, not_and, not_le, not_le]; exact ⟨hlt, hcursor⟩),
      if_neg (fun hm => hindices.2.2 _ hm _ (by simp) rfl), if_neg (not_not.2 hnorm),
      if_neg (fun hm => hnames.2.2 _ hm _ (by simp) rfl), hrest]
    simp

theorem popBlank_concat (lines : List Str) : popBlank (lines ++ [[]]) = lines := by
  simp [popBlank]

theorem popBlank_of_ne {lines : List Str} (h : [] ∉ lines) : popBlank lines = lines := by
  unfold popBlank
  rw [if_neg]
  intro hlast
  exact h (List.mem_of_getLast? hlast)

theorem header_ok {cursor wrapped clean : Str} (hcursor : '\n' ∉ cursor)
    (hwrapped : '\n' ∉ wrapped) (hclean : '\n' ∉ clean) (hne : clean ≠ []) :
    '\n' ∉ "cursor ".toList ++ cursor ++ " wrapped ".toList ++ wrapped ++ " clean ".toList ++
        clean ∧
      "cursor ".toList ++ cursor ++ " wrapped ".toList ++ wrapped ++ " clean ".toList ++ clean ≠
        [] := by
  refine ⟨?_, List.append_ne_nil_of_right_ne_nil _ hne⟩
  simp only [List.mem_append, not_or]
  exact ⟨⟨⟨⟨⟨by decide +kernel, hcursor⟩, by decide +kernel⟩, hwrapped⟩, by decide +kernel⟩,
    hclean⟩

theorem headerLine_ok (table : Table) (clean : Bool) :
    '\n' ∉ headerLine table clean ∧ headerLine table clean ≠ [] := by
  have hflag : ∀ b, '\n' ∉ flagText b ∧ flagText b ≠ [] := by decide
  exact header_ok (Str.not_mem_decimal rfl) (hflag _).1 (hflag _).1 (hflag _).2

/-- **A valid table is read back as it was written.** -/
theorem parse_render {count : ℕ} (hcount : count < 2 ^ 32) {table : Table}
    (h : table.Valid count) (clean : Bool) :
    parse (contents table clean) count = .ok (table, clean) := by
  have hcursor : table.cursor < 2 ^ 32 := lt_of_le_of_lt h.cursor hcount
  have hlines : ∀ line ∈ MAGIC :: headerLine table clean :: table.entries.map entryLine,
      '\n' ∉ line ∧ line ≠ [] := by
    intro line hline
    simp only [List.mem_cons, List.mem_map] at hline
    rcases hline with rfl | rfl | ⟨e, he, rfl⟩
    · decide +kernel
    · exact headerLine_ok table clean
    · refine ⟨?_, by simp [entryLine]⟩
      simp [entryLine, Str.not_mem_decimal (c := '\n') rfl, newline_not_mem (h.entries e he).2.2]
  have htext : popBlank (popBlank ((render table clean).splitOn '\n')) =
      MAGIC :: headerLine table clean :: table.entries.map entryLine := by
    rw [render, splitOn_lines fun line hl => (hlines line hl).1, popBlank_concat,
      popBlank_of_ne fun hm => (hlines [] hm).2 rfl]
  unfold parse contents
  rw [String.toByteArray_ofList, List.utf8Decode?_utf8Encode]
  dsimp only
  simp only [htext, List.head?_cons, ne_eq, not_true_eq_false, if_false, List.getElem?_cons_succ,
    List.getElem?_cons_zero, Option.bind_some, header_headerLine hcursor, not_lt.2 h.cursor,
    List.drop_succ_cons, List.drop_zero]
  rw [parseEntries_lines hcount.le [] 3 (by simpa using h)]
  rfl

end FakeIp

end Rurge
