import Rurge.Config.RequirementGrammar

/-!
# The text of a requirement tree

A tree written with the fewest parentheses, in symbols or in words, and what reading it gives: the
tree, up to the association of equal operators (`parse_text`).
-/

namespace Rurge

namespace Config

namespace Requirement

/-! ### The tokens of a tree -/

def Var.name : Var → Str
  | .CoreVersion => "CORE_VERSION".toList
  | .System => "SYSTEM".toList
  | .SystemVersion => "SYSTEM_VERSION".toList
  | .DeviceModel => "DEVICE_MODEL".toList
  | .Language => "LANGUAGE".toList
  | .DeviceName => "DEVICE_NAME".toList

def CmpOp.text : CmpOp → Str
  | .Eq => "==".toList
  | .Ne => "!=".toList
  | .Gt => ">".toList
  | .Ge => ">=".toList
  | .Lt => "<".toList
  | .Le => "<=".toList

def StrOp.word : StrOp → Str
  | .BeginsWith => "BEGINSWITH".toList
  | .Contains => "CONTAINS".toList
  | .EndsWith => "ENDSWITH".toList
  | .Like => "LIKE".toList
  | .Matches => "MATCHES".toList

def Value.tok : Value → Tok
  | .Int n => .Num n
  | .Str s => .Str s

/-- An operator as a word or as a symbol. -/
def operator (words : Bool) (symbol word : Str) : Tok := if words then .Ident word else .Op symbol

/-- The tokens of a tree at a level, in parentheses where the level is too tight for it. -/
def print (words : Bool) : Level → Expr → List Tok
  | .or, .Or a b =>
    print words .or a ++ operator words "||".toList "OR".toList :: print words .or b
  | _, .Or a b =>
    .LParen :: (print words .or a ++ operator words "||".toList "OR".toList :: print words .or b ++
      [.RParen])
  | .or, .And a b | .and, .And a b =>
    print words .and a ++ operator words "&&".toList "AND".toList :: print words .and b
  | _, .And a b =>
    .LParen :: (print words .and a ++ operator words "&&".toList "AND".toList ::
      print words .and b ++ [.RParen])
  | .primary, .Not a =>
    .LParen :: (operator words "!".toList "NOT".toList :: print words .not a ++ [.RParen])
  | _, .Not a => operator words "!".toList "NOT".toList :: print words .not a
  | _, .Cmp var op value => [.Ident var.name, .Op op.text, value.tok]
  | _, .Str var op s => [.Ident var.name, .Ident op.word, .Str s]

/-! ### Trees that differ in the association of equal operators -/

inductive Same : Expr → Expr → Prop
  | refl (e) : Same e e
  | symm {e e'} : Same e e' → Same e' e
  | trans {e e' e''} : Same e e' → Same e' e'' → Same e e''
  | or {a a' b b'} : Same a a' → Same b b' → Same (.Or a b) (.Or a' b')
  | and {a a' b b'} : Same a a' → Same b b' → Same (.And a b) (.And a' b')
  | not {a a'} : Same a a' → Same (.Not a) (.Not a')
  | or_assoc (a b c) : Same (.Or (.Or a b) c) (.Or a (.Or b c))
  | and_assoc (a b c) : Same (.And (.And a b) c) (.And a (.And b c))

/-- Two OR sentences with an OR between them are an OR sentence. -/
theorem Sentence.or_or {a b : Expr} {ts us : List Tok} {o : Tok} (ha : Sentence .or a ts)
    (ho : o.is_or = true) (hb : Sentence .or b us) :
    ∃ e, Same e (.Or a b) ∧ Sentence .or e (ts ++ o :: us) := by
  generalize hl : Level.or = l at hb
  induction hb with
  | of_and hb _ => exact ⟨_, .refl _, .or ha ho hb⟩
  | @or b c us vs o' hb ho' hc ih _ =>
    obtain ⟨e, he, hsent⟩ := ih rfl
    refine ⟨.Or e c, (Same.or he (.refl c)).trans (.or_assoc a b c), ?_⟩
    have := Sentence.or hsent ho' hc
    rwa [List.append_assoc] at this
  | _ => cases hl

theorem Sentence.and_and {a b : Expr} {ts us : List Tok} {o : Tok} (ha : Sentence .and a ts)
    (ho : o.is_and = true) (hb : Sentence .and b us) :
    ∃ e, Same e (.And a b) ∧ Sentence .and e (ts ++ o :: us) := by
  generalize hl : Level.and = l at hb
  induction hb with
  | of_not hb _ => exact ⟨_, .refl _, .and ha ho hb⟩
  | @and b c us vs o' hb ho' hc ih _ =>
    obtain ⟨e, he, hsent⟩ := ih rfl
    refine ⟨.And e c, (Same.and he (.refl c)).trans (.and_assoc a b c), ?_⟩
    have := Sentence.and hsent ho' hc
    rwa [List.append_assoc] at this
  | _ => cases hl

/-- A sentence of the tightest level is one of every level. -/
theorem Sentence.of_tight {e : Expr} {ts : List Tok} (h : Sentence .primary e ts) :
    ∀ l, Sentence l e ts
  | .or => .of_and (.of_not (.of_primary h))
  | .and => .of_not (.of_primary h)
  | .not => .of_primary h
  | .primary => h

theorem parse_name (var : Var) : Var.parse var.name = some var := by cases var <;> decide

theorem parse_op (op : CmpOp) : CmpOp.parse op.text = some op := by cases op <;> decide

theorem parse_word (op : StrOp) : StrOp.parse (Str.toAsciiUppercase op.word) = some op := by
  cases op <;> decide

theorem value_tok (v : Value) : v.tok.value = some v := by cases v <;> rfl

section

variable (words : Bool)

theorem operator_or : (operator words "||".toList "OR".toList).is_or = true := by
  cases words <;> rfl

theorem operator_and : (operator words "&&".toList "AND".toList).is_and = true := by
  cases words <;> rfl

theorem operator_not : (operator words "!".toList "NOT".toList).is_not = true := by
  cases words <;> rfl

/-- The tokens of a tree are a sentence of the level, with the tree up to association. -/
theorem print_sentence (e : Expr) (l : Level) :
    ∃ e', Same e' e ∧ Sentence l e' (print words l e) := by
  induction e generalizing l with
  | Cmp var op value =>
    refine ⟨_, .refl _, ?_⟩
    have h := (Sentence.cmp (parse_name var) (parse_op op) (value_tok value)).of_tight l
    cases l <;> exact h
  | Str var op s =>
    refine ⟨_, .refl _, ?_⟩
    have htext : Tok.text (.Str s) = some s := rfl
    have h := (Sentence.str (parse_name var) (parse_word op) htext).of_tight l
    cases l <;> exact h
  | Or a b iha ihb =>
    obtain ⟨a', ha, hsa⟩ := iha .or
    obtain ⟨b', hb, hsb⟩ := ihb .or
    obtain ⟨e, he, hsent⟩ := hsa.or_or (operator_or words) hsb
    refine ⟨e, he.trans (.or ha hb), ?_⟩
    have htight := (Sentence.paren hsent).of_tight
    cases l with
    | or => exact hsent
    | _ => simpa [print] using htight _
  | And a b iha ihb =>
    obtain ⟨a', ha, hsa⟩ := iha .and
    obtain ⟨b', hb, hsb⟩ := ihb .and
    obtain ⟨e, he, hsent⟩ := hsa.and_and (operator_and words) hsb
    refine ⟨e, he.trans (.and ha hb), ?_⟩
    have htight := (Sentence.paren (.of_and hsent)).of_tight
    cases l with
    | or => exact .of_and hsent
    | and => exact hsent
    | _ => simpa [print] using htight _
  | Not a iha =>
    obtain ⟨a', ha, hsa⟩ := iha .not
    have hsent := Sentence.not (operator_not words) hsa
    refine ⟨.Not a', .not ha, ?_⟩
    have htight := (Sentence.paren (.of_and (.of_not hsent))).of_tight
    cases l with
    | or => exact .of_and (.of_not hsent)
    | and => exact .of_not hsent
    | not => exact hsent
    | primary => simpa [print] using htight .primary

/-! ### No sentence of the tree has fewer parentheses -/

/-- The parentheses of a sentence. -/
def parens (ts : List Tok) : ℕ := ts.count .LParen

@[simp] theorem parens_nil : parens [] = 0 := rfl

theorem parens_append (ts us : List Tok) : parens (ts ++ us) = parens ts + parens us :=
  List.count_append

theorem parens_cons (tok : Tok) (ts : List Tok) :
    parens (tok :: ts) = parens ts + if tok = .LParen then 1 else 0 := by
  simp [parens, List.count_cons]

theorem tok_ne (v : Value) : v.tok ≠ .LParen := by
  cases v <;> simp [Value.tok]

theorem operator_ne (symbol word : Str) : operator words symbol word ≠ .LParen := by
  cases words <;> simp [operator]

/-- The trees that differ in association alone have the same parentheses. -/
theorem Same.parens_eq {e e' : Expr} (h : Same e e') (l : Level) :
    parens (print words l e) = parens (print words l e') := by
  induction h generalizing l with
  | refl _ => rfl
  | symm _ ih => exact (ih l).symm
  | trans _ _ ih ih' => exact (ih l).trans (ih' l)
  | or _ _ ih ih' => cases l <;> simp [print, parens_append, parens_cons, ih, ih']
  | and _ _ ih ih' => cases l <;> simp [print, parens_append, parens_cons, ih, ih']
  | not _ ih => cases l <;> simp [print, parens_append, parens_cons, ih]
  | or_assoc a b c => cases l <;> simp [print]
  | and_assoc a b c => cases l <;> simp [print]

/-- A tighter level has no fewer parentheses, and one pair makes up for every level. -/
theorem parens_print (e : Expr) :
    parens (print words .or e) ≤ parens (print words .and e) ∧
    parens (print words .and e) ≤ parens (print words .not e) ∧
    parens (print words .not e) ≤ parens (print words .primary e) ∧
    parens (print words .primary e) ≤ parens (print words .or e) + 1 := by
  cases e with
  | Or a b => simp [print, parens_append, parens_cons]
  | And a b => simp [print, parens_append, parens_cons]
  | Not a => simp [print, parens_append, parens_cons]
  | _ => simp [print]

/-- No sentence has fewer parentheses than its tree printed. -/
theorem Sentence.parens_le {l : Level} {e : Expr} {ts : List Tok} (h : Sentence l e ts) :
    parens (print words l e) ≤ parens ts := by
  induction h with
  | @of_and e ts _ ih => exact (parens_print words e).1.trans ih
  | @or a b ts us o _ _ _ iha ihb =>
    have hb := (parens_print words b).1
    simp only [print, parens_append, parens_cons, if_neg (operator_ne words _ _)]
    omega
  | @of_not e ts _ ih => exact (parens_print words e).2.1.trans ih
  | @and a b ts us o _ _ _ iha ihb =>
    have hb := (parens_print words b).2.1
    simp only [print, parens_append, parens_cons, if_neg (operator_ne words _ _)]
    omega
  | @of_primary e ts _ ih => exact (parens_print words e).2.2.1.trans ih
  | @not e ts o _ _ ih =>
    simp only [print, parens_cons, if_neg (operator_ne words _ _)]
    omega
  | @paren e ts _ ih =>
    have he := (parens_print words e).2.2.2
    simp only [parens_append, parens_cons, if_pos]
    omega
  | @cmp _ _ _ _ _ value _ _ _ => simp [print, parens_cons, tok_ne value]
  | str _ _ _ => simp [print, parens_cons]

end

/-! ### The text of the tokens -/

/-- The quotes a text is written in: single ones unless it holds one. -/
def quotes (s : Str) : Char := if '\'' ∈ s then '"' else '\''

/-- A token as it is written. -/
def Tok.write : Tok → Rurge.Str
  | .Ident name => name
  | .Num n => int_text n
  | .Str s => quotes s :: s ++ [quotes s]
  | .Op op => op
  | .LParen => ['(']
  | .RParen => [')']

/-- The text of a tree with the fewest parentheses, a blank between the tokens. -/
def text (words : Bool) (e : Expr) : Str := [' '].intercalate ((print words .or e).map Tok.write)

/-- A value that can be written: a number that is not negative, a text without one of the quotes. -/
def Value.Written : Value → Prop
  | .Int n => 0 ≤ n ∧ n ≤ I64_MAX
  | .Str s => '\'' ∈ s → '"' ∉ s

/-- A tree whose values can be written. -/
def Expr.Written : Expr → Prop
  | .Cmp _ _ value => value.Written
  | .Str _ _ s => '\'' ∈ s → '"' ∉ s
  | .And a b | .Or a b => a.Written ∧ b.Written
  | .Not a => a.Written

/-- The characters of the words of the language. -/
def LETTERS : Str :=
  ['A', 'B', 'C', 'D', 'E', 'F', 'G', 'H', 'I', 'J', 'K', 'L', 'M', 'N', 'O', 'P', 'Q',
    'R', 'S', 'T', 'U', 'V', 'W', 'X', 'Y', 'Z', '_']

/-- The operators a tree is written with. -/
def WRITTEN_OPS : List Str :=
  ["==", "!=", ">", ">=", "<", "<=", "||", "&&", "!"].map String.toList

/-- A token that is read back as it is written. -/
def Tok.Legible : Tok → Prop
  | .Ident name => name ≠ [] ∧ ∀ c ∈ name, c ∈ LETTERS
  | .Num n => 0 ≤ n ∧ n ≤ I64_MAX
  | .Str s => '\'' ∈ s → '"' ∉ s
  | .Op op => op ∈ WRITTEN_OPS
  | _ => True

section

variable (given : Given)

theorem is_word_blank : is_word given ' ' = false := by
  rw [is_word, given.ascii_alphabetic ' ' (by decide), given.ascii_numeric ' ' (by decide)]
  decide

theorem is_word_letter {c : Char} (h : c ∈ LETTERS) : is_word given c = true ∧
    (given.is_alphabetic c || c == '_') = true := by
  have hascii : ∀ c ∈ LETTERS, decide (c.toNat < 128 ∧ (c.isAlpha || c == '_') = true) = true :=
    List.all_eq_true.1 (by decide)
  obtain ⟨hlt, hor⟩ := of_decide_eq_true (hascii c h)
  rw [← given.ascii_alphabetic c hlt] at hor
  refine ⟨?_, hor⟩
  rw [is_word, Bool.or_right_comm, hor, Bool.true_or]

/-- What stops at the end of a text or at a blank takes what comes before it. -/
theorem takeWhile_stop {p : Char → Bool} {s rest : Str} (hs : ∀ c ∈ s, p c = true)
    (hblank : p ' ' = false) (hrest : rest = [] ∨ rest.head? = some ' ') :
    (s ++ rest).takeWhile p = s ∧ (s ++ rest).dropWhile p = rest := by
  rw [List.takeWhile_append_of_pos hs, List.dropWhile_append_of_pos hs]
  rcases hrest with rfl | hhead
  · simp
  · obtain ⟨rest, rfl⟩ := List.head?_eq_some_iff.1 hhead
    simp [hblank]

theorem parse_i64_decimal {n : ℕ} (h : n ≤ I64_MAX) : parse_i64 (Str.decimal n) = some (n : ℤ) := by
  have hdigits : (Str.decimal n).all Char.isDigit = true :=
    List.all_eq_true.2 fun c hc => Str.isDigit_of_mem_decimal hc
  have hval : Nat.ofDigitChars 10 (Str.decimal n) 0 = n := Nat.ofDigitChars_ten_toDigits
  obtain ⟨c, ds, hcs⟩ := List.exists_cons_of_ne_nil (Str.decimal_ne_nil n)
  rw [hcs] at hdigits hval ⊢
  have hc : c.isDigit = true := List.all_eq_true.1 hdigits c List.mem_cons_self
  have hminus : c ≠ '-' := by
    rintro rfl
    simp at hc
  have hplus : c ≠ '+' := by
    rintro rfl
    simp at hc
  have hparse : Str.parseUnsigned I64_MAX (c :: ds) = some n := by
    have hnot : ∀ digits, c :: ds ≠ '+' :: digits := fun _ heq => hplus (List.cons.inj heq).1
    simp [Str.parseUnsigned, hdigits, hval, h]
  unfold parse_i64
  split
  · rename_i s heq
    exact absurd (List.cons.inj heq).1 hminus
  · rw [hparse]
    rfl

theorem digit_plain {c : Char} (h : c.isDigit = true) : Str.isWhiteSpace c = false ∧ c ≠ '(' ∧
    c ≠ ')' ∧ ¬(c = '\'' ∨ c = '"') := by
  have hbounds : 48 ≤ c.toNat ∧ c.toNat ≤ 57 := by
    simpa [Char.isDigit, UInt32.le_iff_toNat_le] using h
  refine ⟨?_, ?_, ?_, ?_⟩
  · simp only [Str.isWhiteSpace, Bool.or_eq_false_iff, Bool.and_eq_false_iff, beq_eq_false_iff_ne,
      decide_eq_false_iff_not]
    omega
  · rintro rfl
    simp at hbounds
  · rintro rfl
    simp at hbounds
  · rintro (rfl | rfl) <;> simp at hbounds

/-- A written operator is the first one in the table that stands there. -/
theorem find_op {op rest : Str} (h : op ∈ WRITTEN_OPS) (hrest : rest = [] ∨ rest.head? = some ' ') :
    OPS.find? (·.isPrefixOf ((op ++ rest).take 2)) = some op := by
  have hblank : ∀ rest : Str, WRITTEN_OPS.all fun op =>
      OPS.find? (·.isPrefixOf ((op ++ ' ' :: rest).take 2)) == some op := fun _ => rfl
  rcases hrest with rfl | hhead
  · have hnil : WRITTEN_OPS.all fun op => OPS.find? (·.isPrefixOf (op.take 2)) == some op := by
      decide
    rw [List.append_nil]
    exact eq_of_beq (List.all_eq_true.1 hnil op h)
  · obtain ⟨rest, rfl⟩ := List.head?_eq_some_iff.1 hhead
    exact eq_of_beq (List.all_eq_true.1 (hblank rest) op h)

theorem tokenize_nil : tokenize given [] = .ok [] := by
  rw [tokenize.eq_def]

theorem tokenize_cons (c : Char) (rest : Str) :
    tokenize given (c :: rest) =
      match token given c rest with
      | .error e => .error e
      | .ok (tok, rest') => (tokenize given rest').map (tok.toList ++ ·) := by
  rw [tokenize.eq_def]
  split
  · rename_i heq
    cases heq
  · rename_i heq
    cases heq
    split <;> rename_i heq <;> rw [heq]

/-- A legible token is read back, at the end of a text or before a blank. -/
theorem tokenize_write {tok : Tok} (h : tok.Legible) {rest : Str}
    (hrest : rest = [] ∨ rest.head? = some ' ') :
    tokenize given (tok.write ++ rest) = (tokenize given rest).map (tok :: ·) := by
  cases tok with
  | LParen => rw [Tok.write, List.cons_append, tokenize_cons]; rfl
  | RParen => rw [Tok.write, List.cons_append, tokenize_cons]; rfl
  | Ident name =>
    obtain ⟨c, name, rfl⟩ := List.exists_cons_of_ne_nil h.1
    have hc := h.2 c List.mem_cons_self
    have hplain : ∀ c ∈ LETTERS, decide (Str.isWhiteSpace c = false ∧ c ≠ '(' ∧ c ≠ ')' ∧
        ¬(c = '\'' ∨ c = '"') ∧ c.isDigit = false) = true := List.all_eq_true.1 (by decide)
    obtain ⟨h1, h2, h3, h4, h5⟩ := of_decide_eq_true (hplain c hc)
    obtain ⟨htake, hdrop⟩ := takeWhile_stop (p := is_word given) (s := name)
      (fun c hmem => (is_word_letter given (h.2 c (List.mem_cons_of_mem _ hmem))).1)
      (is_word_blank given) hrest
    have htoken : token given c (name ++ rest) = .ok (some (.Ident (c :: name)), rest) := by
      unfold token
      rw [if_neg (by simp [h1]), if_neg h2, if_neg h3, if_neg h4, if_neg (by simp [h5]),
        if_pos (is_word_letter given hc).2, htake, hdrop]
    rw [Tok.write, List.cons_append, tokenize_cons, htoken]
    rfl
  | Num n =>
    obtain ⟨m, rfl⟩ := Int.eq_ofNat_of_zero_le h.1
    have hm : m ≤ I64_MAX := by exact_mod_cast h.2
    obtain ⟨c, ds, hcs⟩ := List.exists_cons_of_ne_nil (Str.decimal_ne_nil m)
    have hdigits : ∀ c' ∈ c :: ds, c'.isDigit = true :=
      hcs ▸ fun _ hmem => Str.isDigit_of_mem_decimal hmem
    obtain ⟨h1, h2, h3, h4⟩ := digit_plain (hdigits c List.mem_cons_self)
    obtain ⟨htake, hdrop⟩ := takeWhile_stop (p := Char.isDigit) (s := ds)
      (fun c hmem => hdigits c (List.mem_cons_of_mem _ hmem)) rfl hrest
    have htoken : token given c (ds ++ rest) = .ok (some (.Num m), rest) := by
      unfold token
      rw [if_neg (by simp [h1]), if_neg h2, if_neg h3, if_neg h4,
        if_pos (hdigits c List.mem_cons_self), htake, hdrop, ← hcs]
      simp only [parse_i64_decimal hm]
    have hwrite : Tok.write (.Num (m : ℤ)) = c :: ds := by simp [Tok.write, int_text, hcs]
    rw [hwrite, List.cons_append, tokenize_cons, htoken]
    rfl
  | Str s =>
    have hq : quotes s ∉ s ∧ (quotes s = '\'' ∨ quotes s = '"') := by
      unfold quotes
      split_ifs with hs
      · exact ⟨h hs, .inr rfl⟩
      · exact ⟨hs, .inl rfl⟩
    have hne : ∀ c ∈ s, decide (c ≠ quotes s) = true := fun c hc =>
      decide_eq_true fun heq => hq.1 (heq ▸ hc)
    have htoken : token given (quotes s) (s ++ quotes s :: rest) = .ok (some (.Str s), rest) := by
      unfold token
      have h1 : Str.isWhiteSpace (quotes s) = false ∧ quotes s ≠ '(' ∧ quotes s ≠ ')' := by
        rcases hq.2 with h | h <;> rw [h] <;> decide
      rw [if_neg (by simp [h1.1]), if_neg h1.2.1, if_neg h1.2.2, if_pos hq.2, if_pos (by simp),
        List.takeWhile_append_of_pos hne, List.dropWhile_append_of_pos hne]
      simp
    have hwrite : Tok.write (.Str s) ++ rest = quotes s :: (s ++ quotes s :: rest) := by
      simp [Tok.write]
    rw [hwrite, tokenize_cons, htoken]
    rfl
  | Op op =>
    have hfind : OPS.find? (·.isPrefixOf ((op ++ rest).take 2)) = some op :=
      find_op h hrest
    have hplain : ∀ op ∈ WRITTEN_OPS, (op.head?.any fun c => decide (Str.isWhiteSpace c = false ∧
        c ≠ '(' ∧ c ≠ ')' ∧ ¬(c = '\'' ∨ c = '"') ∧ c.isDigit = false ∧ c.toNat < 128 ∧
        (c.isAlpha || c == '_') = false)) = true := by decide
    have hop := hplain op h
    obtain ⟨c, cs, rfl⟩ : ∃ c cs, op = c :: cs := by
      cases op with
      | nil => simp at hop
      | cons c cs => exact ⟨c, cs, rfl⟩
    obtain ⟨h1, h2, h3, h4, h5, h6, h7⟩ := of_decide_eq_true (show decide _ = true from hop)
    rw [← given.ascii_alphabetic c h6] at h7
    have htoken : token given c (cs ++ rest) = .ok (some (.Op (c :: cs)), rest) := by
      unfold token
      rw [if_neg (by simp [h1]), if_neg h2, if_neg h3, if_neg h4, if_neg (by simp [h5]),
        if_neg (by simp [h7]), ← List.cons_append, hfind]
      simp
    rw [Tok.write, List.cons_append, tokenize_cons, htoken]
    rfl

theorem tokenize_blank (s : Str) : tokenize given (' ' :: s) = tokenize given s := by
  have htoken : token given ' ' s = .ok (none, s) := rfl
  have hread : tokenize given (' ' :: s) = (tokenize given s).map ([] ++ ·) := by
    rw [tokenize_cons, htoken]
    rfl
  rw [hread]
  cases tokenize given s with
  | error _ => rfl
  | ok _ => rfl

/-- Legible tokens are read back from their text. -/
theorem tokenize_join {toks : List Tok} (h : ∀ tok ∈ toks, tok.Legible) :
    tokenize given ([' '].intercalate (toks.map Tok.write)) = .ok toks := by
  induction toks with
  | nil => rw [List.map_nil, List.intercalate_nil, tokenize_nil]
  | cons tok toks ih =>
    have htok := h tok List.mem_cons_self
    have ih := ih fun tok hmem => h tok (List.mem_cons_of_mem _ hmem)
    match toks with
    | [] =>
      have hone := @tokenize_write given _ htok [] (.inl rfl)
      rw [List.append_nil, tokenize_nil] at hone
      rw [List.map_singleton, List.intercalate_singleton, hone]
      rfl
    | tok' :: toks =>
      rw [List.map_cons] at ih
      rw [List.map_cons, List.map_cons, List.intercalate_cons_cons, List.append_assoc,
        tokenize_write given htok (.inr rfl), List.singleton_append, tokenize_blank, ih]
      rfl

end

/-! ### The text of a tree -/

theorem operator_legible (words : Bool) {symbol word : Str} (hsymbol : symbol ∈ WRITTEN_OPS)
    (hword : (Tok.Ident word).Legible) : (operator words symbol word).Legible := by
  cases words with
  | true => exact hword
  | false => exact hsymbol

theorem legible_of_all {word : Str} (h : (!word.isEmpty && word.all LETTERS.contains) = true) :
    (Tok.Ident word).Legible := by
  rw [Bool.and_eq_true, Bool.not_eq_true', List.isEmpty_eq_false_iff, List.all_eq_true] at h
  exact ⟨h.1, fun c hc => List.contains_iff_mem.1 (h.2 c hc)⟩

theorem paren_legible {toks : List Tok} (h : ∀ tok ∈ toks, tok.Legible) :
    ∀ tok ∈ .LParen :: (toks ++ [.RParen]), tok.Legible := by
  rintro tok (_ | ⟨_, hmem⟩)
  · trivial
  · rcases List.mem_append.1 hmem with hmem | hmem
    · exact h tok hmem
    · rw [List.mem_singleton.1 hmem]
      trivial

/-- The tokens of a tree that can be written are legible. -/
theorem print_legible (words : Bool) {e : Expr} (h : e.Written) (l : Level) :
    ∀ tok ∈ print words l e, tok.Legible := by
  induction e generalizing l with
  | Cmp var op value =>
    have hvar : (Tok.Ident var.name).Legible := legible_of_all (by cases var <;> rfl)
    have hop : op.text ∈ WRITTEN_OPS := by cases op <;> decide
    have hvalue : value.tok.Legible := by cases value <;> exact h
    have hop : (Tok.Op op.text).Legible := hop
    cases l <;> simp [print, hvar, hop, hvalue]
  | Str var op s =>
    have hvar : (Tok.Ident var.name).Legible := legible_of_all (by cases var <;> rfl)
    have hop : (Tok.Ident op.word).Legible := legible_of_all (by cases op <;> rfl)
    have hs : (Tok.Str s).Legible := h
    cases l <;> simp [print, hvar, hop, hs]
  | Or a b iha ihb =>
    have ha := iha h.1 .or
    have hb := ihb h.2 .or
    have hop : (operator words "||".toList "OR".toList).Legible :=
      operator_legible words (by decide) (legible_of_all rfl)
    have hall : ∀ tok ∈ print words .or (.Or a b), tok.Legible := by
      simp only [print, List.forall_mem_append, List.forall_mem_cons]
      exact ⟨ha, hop, hb⟩
    cases l with
    | or => exact hall
    | _ => exact paren_legible hall
  | And a b iha ihb =>
    have ha := iha h.1 .and
    have hb := ihb h.2 .and
    have hop : (operator words "&&".toList "AND".toList).Legible :=
      operator_legible words (by decide) (legible_of_all rfl)
    have hall : ∀ tok ∈ print words .and (.And a b), tok.Legible := by
      simp only [print, List.forall_mem_append, List.forall_mem_cons]
      exact ⟨ha, hop, hb⟩
    cases l with
    | or => exact hall
    | and => exact hall
    | _ => exact paren_legible hall
  | Not a iha =>
    have ha := iha h .not
    have hop : (operator words "!".toList "NOT".toList).Legible :=
      operator_legible words (by decide) (legible_of_all rfl)
    have hall : ∀ tok ∈ print words .not (.Not a), tok.Legible := by
      simp only [print, List.forall_mem_cons]
      exact ⟨hop, ha⟩
    cases l with
    | primary => exact paren_legible hall
    | _ => exact hall

/-- A text that begins and ends with something that is no blank. -/
def Ends (s : Str) : Prop :=
  (∃ c, s.head? = some c ∧ Str.isWhiteSpace c = false) ∧
    ∃ c, s.getLast? = some c ∧ Str.isWhiteSpace c = false

theorem ends_of_all {s : Str} (hne : s ≠ []) (h : ∀ c ∈ s, Str.isWhiteSpace c = false) :
    Ends s :=
  ⟨⟨_, List.head?_eq_some_head hne, h _ (List.head_mem hne)⟩,
    _, List.getLast?_eq_some_getLast hne, h _ (List.getLast_mem hne)⟩

theorem Ends.trim {s : Str} (h : Ends s) : Str.trim s = s := by
  obtain ⟨⟨c, hc, hblank⟩, d, hd, hblank'⟩ := h
  obtain ⟨t, rfl⟩ := List.head?_eq_some_iff.1 hc
  have hdrop : (c :: t).dropWhile Str.isWhiteSpace = c :: t := by simp [hblank]
  obtain ⟨u, hu⟩ := List.getLast?_eq_some_iff.1 hd
  rw [Str.trim, hdrop, hu]
  exact List.rdropWhile_concat_neg _ _ _ (by simp [hblank'])

theorem Ends.append {s t : Str} (hs : Ends s) (ht : Ends t) (u : Str) : Ends (s ++ u ++ t) := by
  obtain ⟨⟨c, hc, hblank⟩, -⟩ := hs
  obtain ⟨-, d, hd, hblank'⟩ := ht
  obtain ⟨s, rfl⟩ := List.head?_eq_some_iff.1 hc
  obtain ⟨t, rfl⟩ := List.getLast?_eq_some_iff.1 hd
  exact ⟨⟨c, by simp, hblank⟩, d, by rw [← List.append_assoc, List.getLast?_concat], hblank'⟩

/-- A legible token begins and ends with something that is no blank. -/
theorem write_ends {tok : Tok} (h : tok.Legible) : Ends tok.write := by
  cases tok with
  | LParen => exact ends_of_all (by simp [Tok.write]) (by simp [Tok.write]; decide)
  | RParen => exact ends_of_all (by simp [Tok.write]) (by simp [Tok.write]; decide)
  | Ident name =>
    have hplain : ∀ c ∈ LETTERS, (!Str.isWhiteSpace c) = true := List.all_eq_true.1 (by decide)
    exact ends_of_all h.1 fun c hc => by simpa using hplain c (h.2 c hc)
  | Num n =>
    obtain ⟨m, rfl⟩ := Int.eq_ofNat_of_zero_le h.1
    have hwrite : Tok.write (.Num (m : ℤ)) = Str.decimal m := by simp [Tok.write, int_text]
    rw [hwrite]
    exact ends_of_all (Str.decimal_ne_nil m) fun c hc =>
      (digit_plain (Str.isDigit_of_mem_decimal hc)).1
  | Str s =>
    have hq : Str.isWhiteSpace (quotes s) = false := by
      unfold quotes
      split_ifs <;> rfl
    exact ⟨⟨_, rfl, hq⟩, _, List.getLast?_concat, hq⟩
  | Op op =>
    have hplain : ∀ op ∈ WRITTEN_OPS, (!op.isEmpty && op.all (!Str.isWhiteSpace ·)) = true := by
      decide
    have hop := hplain op h
    rw [Bool.and_eq_true, Bool.not_eq_true', List.isEmpty_eq_false_iff, List.all_eq_true] at hop
    exact ends_of_all hop.1 fun c hc => by simpa using hop.2 c hc

theorem join_ends {toks : List Tok} (hne : toks ≠ []) (h : ∀ tok ∈ toks, tok.Legible) :
    Ends ([' '].intercalate (toks.map Tok.write)) := by
  induction toks with
  | nil => exact absurd rfl hne
  | cons tok toks ih =>
    have htok := write_ends (h tok List.mem_cons_self)
    match toks with
    | [] => rwa [List.map_singleton, List.intercalate_singleton]
    | tok' :: toks =>
      rw [List.map_cons, List.map_cons, List.intercalate_cons_cons]
      exact htok.append (ih (by simp) fun tok hmem => h tok (List.mem_cons_of_mem _ hmem)) _

theorem print_ne_nil (words : Bool) (e : Expr) (l : Level) : print words l e ≠ [] := by
  cases e <;> cases l <;> simp [print]

variable (given : Given)

/-- **Reading what was written.**  The text of a tree is read as the tree, up to the association of
equal operators, and no text of it has fewer parentheses. -/
theorem parse_text (words : Bool) {e : Expr} (h : e.Written) :
    (∃ e', parse given (text words e) = .ok e' ∧ Same e' e) ∧
      ∀ src e' toks, parse given src = .ok e' → Same e' e →
        tokenize given (Str.trim src) = .ok toks → parens (print words .or e) ≤ parens toks := by
  have hlegible := print_legible words h .or
  refine ⟨?_, fun src e' toks hparse hsame htoks => ?_⟩
  · obtain ⟨e', hsame, hsent⟩ := print_sentence words e .or
    refine ⟨e', parse_eq_ok.2 ⟨_, ?_, hsent⟩, hsame⟩
    rw [text, (join_ends (print_ne_nil words e .or) hlegible).trim]
    exact tokenize_join given hlegible
  · obtain ⟨toks', htoks', hsent⟩ := parse_eq_ok.1 hparse
    rw [htoks, Except.ok.injEq] at htoks'
    rw [← hsame.parens_eq words .or, htoks']
    exact hsent.parens_le words

end Requirement

end Config

end Rurge
