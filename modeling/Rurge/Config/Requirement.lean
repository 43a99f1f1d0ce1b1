import Rurge.Config.Glob
import Rurge.Config.Profile

/-!
# Requirement expressions

The tokens of an expression, the parser that goes down from OR to AND to NOT to a comparison, and
the evaluation of the tree it gives (`rurge_config::requirement`).  The parser works on the tokens
that are left, and says of each part how much of them it took.
-/

namespace Rurge

namespace Config

namespace Requirement

/-- What the functions use of the standard library's tables and of `fancy_regex`: which characters
are letters and numbers, how a text is shown with `{:?}`, and what a pattern says of a text. -/
structure Given where
  is_alphabetic : Char → Bool
  is_numeric : Char → Bool
  debug : Str → Str
  regex : Str → Option (Str → Option Bool)
  ascii_alphabetic : ∀ c : Char, c.toNat < 128 → is_alphabetic c = c.isAlpha
  ascii_numeric : ∀ c : Char, c.toNat < 128 → is_numeric c = c.isDigit

structure Environment where
  core_version : ℕ
  system : Str
  system_version : Str
  device_model : Str
  language : Str
  device_name : Str

inductive Var
  | CoreVersion
  | System
  | SystemVersion
  | DeviceModel
  | Language
  | DeviceName
  deriving DecidableEq

inductive Value
  | Int (n : ℤ)
  | Str (s : Str)
  deriving DecidableEq

inductive CmpOp
  | Eq
  | Ne
  | Gt
  | Ge
  | Lt
  | Le
  deriving DecidableEq

inductive StrOp
  | BeginsWith
  | Contains
  | EndsWith
  | Like
  | Matches
  deriving DecidableEq

inductive Expr
  | Cmp (var : Var) (op : CmpOp) (value : Value)
  | Str (var : Var) (op : StrOp) (s : Str)
  | And (a b : Expr)
  | Or (a b : Expr)
  | Not (a : Expr)
  deriving DecidableEq

inductive Tok
  | Ident (name : Str)
  | Num (n : ℤ)
  | Str (s : Str)
  | Op (op : Str)
  | LParen
  | RParen
  deriving DecidableEq

/-- The greatest `i64`. -/
def I64_MAX : ℕ := 2 ^ 63 - 1

/-- A whole number as it is shown. -/
def int_text (n : ℤ) : Str :=
  if n < 0 then '-' :: Str.decimal n.natAbs else Str.decimal n.natAbs

/-- `str::parse` of an `i64`. -/
def parse_i64 : Str → Option ℤ
  | '-' :: s =>
    if s.head?.any Char.isDigit then (Str.parseUnsigned (I64_MAX + 1) s).map fun n : ℕ => -(n : ℤ)
    else none
  | s => (Str.parseUnsigned I64_MAX s).map fun n : ℕ => (n : ℤ)

/-- A `u64` as the `i64` of the same bits. -/
def as_i64 (n : ℕ) : ℤ := (n : ℤ).bmod (2 ^ 64)

/-! ### Tokens -/

/-- The operators, a longer one before one it begins with. -/
def OPS : List Str :=
  ["==", "!=", "<>", ">=", "=>", "<=", "=<", "&&", "||", "=", ">", "<", "!"].map String.toList

/-- What stands between two backquotes in a message. -/
def quote (s : Str) : Str := '`' :: s ++ ['`']

section

variable (given : Given)

/-- A character of a word, after its first. -/
def is_word (c : Char) : Bool := given.is_alphabetic c || given.is_numeric c || c == '_'

/-- The token a text starts with, none for a blank, and the text after it. -/
def token (c : Char) (rest : Str) : Except Str (Option Tok × Str) :=
  if Str.isWhiteSpace c then .ok (none, rest)
  else if c = '(' then .ok (some .LParen, rest)
  else if c = ')' then .ok (some .RParen, rest)
  else if c = '\'' ∨ c = '"' then
    if c ∈ rest then .ok (some (.Str (rest.takeWhile (· ≠ c))), (rest.dropWhile (· ≠ c)).tail)
    else .error "unterminated string".toList
  else if c.isDigit then
    let n := c :: rest.takeWhile Char.isDigit
    match parse_i64 n with
    | some i => .ok (some (.Num i), rest.dropWhile Char.isDigit)
    | none => .error ("bad number ".toList ++ quote n)
  else if given.is_alphabetic c || c == '_' then
    .ok (some (.Ident (c :: rest.takeWhile (is_word given))), rest.dropWhile (is_word given))
  else
    match OPS.find? (·.isPrefixOf ((c :: rest).take 2)) with
    | some op => .ok (some (.Op op), (c :: rest).drop op.length)
    | none => .error ("unexpected ".toList ++ quote [c])

theorem length_dropWhile_le {α : Type*} (p : α → Bool) (l : List α) :
    (l.dropWhile p).length ≤ l.length := (List.dropWhile_suffix p).length_le

/-- A token takes at least one character. -/
theorem token_length {c : Char} {rest : Str} {tok : Option Tok} {rest' : Str}
    (h : token given c rest = .ok (tok, rest')) : rest'.length ≤ rest.length := by
  unfold token at h
  split_ifs at h with h1 h2 h3 h4 h5 h6 h7
  · cases h
    exact le_rfl
  · cases h
    exact le_rfl
  · cases h
    exact le_rfl
  · cases h
    have hle := length_dropWhile_le (fun x => decide (x ≠ c)) rest
    rw [List.length_tail]
    omega
  · simp only at h
    split at h
    · cases h
      exact length_dropWhile_le _ _
    · cases h
  · cases h
    exact length_dropWhile_le _ _
  · split at h
    · rename_i op hop
      cases h
      have hpos : 1 ≤ op.length := by
        have hall : ∀ op ∈ OPS, 1 ≤ op.length := by decide
        exact hall op (List.mem_of_find?_eq_some hop)
      simp only [List.length_drop, List.length_cons]
      omega
    · cases h

/-- The tokens of a text. -/
def tokenize : Str → Except Str (List Tok)
  | [] => .ok []
  | c :: rest =>
    match _h : token given c rest with
    | .error e => .error e
    | .ok (tok, rest') => (tokenize rest').map (tok.toList ++ ·)
termination_by s => s.length
decreasing_by
  have := token_length given _h
  simp only [List.length_cons]
  omega

end

/-! ### The parser -/

def Var.parse (ident : Str) : Option Var :=
  let ident := Str.toAsciiUppercase ident
  if ident = "CORE_VERSION".toList then some .CoreVersion
  else if ident = "SYSTEM".toList then some .System
  else if ident = "SYSTEM_VERSION".toList then some .SystemVersion
  else if ident = "DEVICE_MODEL".toList then some .DeviceModel
  else if ident = "LANGUAGE".toList then some .Language
  else if ident = "DEVICE_NAME".toList then some .DeviceName
  else none

/-- The comparison an operator stands for. -/
def CmpOp.parse (op : Str) : Option CmpOp :=
  if op = "==".toList ∨ op = "=".toList then some .Eq
  else if op = "!=".toList ∨ op = "<>".toList then some .Ne
  else if op = ">".toList then some .Gt
  else if op = ">=".toList ∨ op = "=>".toList then some .Ge
  else if op = "<".toList then some .Lt
  else if op = "<=".toList ∨ op = "=<".toList then some .Le
  else none

/-- The test of a text a word stands for, the word in capitals. -/
def StrOp.parse (kw : Str) : Option StrOp :=
  if kw = "BEGINSWITH".toList then some .BeginsWith
  else if kw = "CONTAINS".toList then some .Contains
  else if kw = "ENDSWITH".toList then some .EndsWith
  else if kw = "LIKE".toList then some .Like
  else if kw = "MATCHES".toList then some .Matches
  else none

namespace Tok

/-- Whether a token is the operator `op` or the keyword `kw`. -/
def reads (op kw : Rurge.Str) : Tok → Bool
  | .Op o => o == op
  | .Ident name => Rurge.Str.eqIgnoreAsciiCase name kw
  | _ => false

def is_or : Tok → Bool := reads "||".toList "OR".toList

def is_and : Tok → Bool := reads "&&".toList "AND".toList

def is_not : Tok → Bool := reads "!".toList "NOT".toList

/-- The value a token stands for after a comparison operator. -/
def value : Tok → Option Value
  | .Num n => some (.Int n)
  | .Str s => some (.Str s)
  | .Ident s => some (.Str s)
  | _ => none

/-- The text a token stands for after a string operator. -/
def text : Tok → Option Rurge.Str
  | .Num n => some (int_text n)
  | .Str s => some s
  | .Ident s => some s
  | _ => none

/-- A token shown with `{:?}`. -/
def debug (given : Given) : Tok → Rurge.Str
  | .Ident name => "Ident(".toList ++ given.debug name ++ [')']
  | .Num n => "Num(".toList ++ int_text n ++ [')']
  | .Str s => "Str(".toList ++ given.debug s ++ [')']
  | .Op op => "Op(".toList ++ given.debug op ++ [')']
  | .LParen => "LParen".toList
  | .RParen => "RParen".toList

end Tok

/-- What is left of tokens of which at least one was taken. -/
abbrev Left (toks : List Tok) : Type := {rest : List Tok // rest.length < toks.length}

/-- What follows a variable. -/
def comparison (name : Str) (var : Var) : (toks : List Tok) → Except Str (Expr × Left toks)
  | .Op op :: toks =>
    match CmpOp.parse op with
    | none => .error ("unexpected operator ".toList ++ quote op)
    | some op =>
      match toks with
      | [] => .error "expected a value after comparison operator".toList
      | tok :: rest =>
        match tok.value with
        | some value => .ok (.Cmp var op value, ⟨rest, by simp⟩)
        | none => .error "expected a value after comparison operator".toList
  | .Ident kw :: toks =>
    match StrOp.parse (Str.toAsciiUppercase kw) with
    | none => .error ("unknown operator ".toList ++ quote (Str.toAsciiUppercase kw))
    | some op =>
      match toks with
      | [] => .error "expected a string after string operator".toList
      | tok :: rest =>
        match tok.text with
        | some s => .ok (.Str var op s, ⟨rest, by simp⟩)
        | none => .error "expected a string after string operator".toList
  | _ => .error ("expected an operator after ".toList ++ quote name)

namespace Parser

variable (given : Given)

mutual

def or (toks : List Tok) : Except Str (Expr × Left toks) :=
  match and toks with
  | .error e => .error e
  | .ok (left, rest) =>
    (or_more left rest.1).map fun (e, rest') => (e, ⟨rest'.1, rest'.2.trans_lt rest.2⟩)
termination_by (toks.length, 4)

/-- The loop of `or`, with what was read so far on its left. -/
def or_more (left : Expr) (toks : List Tok) :
    Except Str (Expr × {rest : List Tok // rest.length ≤ toks.length}) :=
  match toks with
  | [] => .ok (left, ⟨[], le_rfl⟩)
  | tok :: toks =>
    if tok.is_or then
      match and toks with
      | .error e => .error e
      | .ok (right, rest) =>
        (or_more (.Or left right) rest.1).map fun (e, rest') =>
          (e, ⟨rest'.1, (rest'.2.trans_lt rest.2).le.trans (Nat.le_succ _)⟩)
    else .ok (left, ⟨tok :: toks, le_rfl⟩)
termination_by (toks.length, 0)
decreasing_by
  · exact .left _ _ (by simp)
  · exact .left _ _ (rest.2.trans (by simp))

def and (toks : List Tok) : Except Str (Expr × Left toks) :=
  match not toks with
  | .error e => .error e
  | .ok (left, rest) =>
    (and_more left rest.1).map fun (e, rest') => (e, ⟨rest'.1, rest'.2.trans_lt rest.2⟩)
termination_by (toks.length, 3)

/-- The loop of `and`, with what was read so far on its left. -/
def and_more (left : Expr) (toks : List Tok) :
    Except Str (Expr × {rest : List Tok // rest.length ≤ toks.length}) :=
  match toks with
  | [] => .ok (left, ⟨[], le_rfl⟩)
  | tok :: toks =>
    if tok.is_and then
      match not toks with
      | .error e => .error e
      | .ok (right, rest) =>
        (and_more (.And left right) rest.1).map fun (e, rest') =>
          (e, ⟨rest'.1, (rest'.2.trans_lt rest.2).le.trans (Nat.le_succ _)⟩)
    else .ok (left, ⟨tok :: toks, le_rfl⟩)
termination_by (toks.length, 0)
decreasing_by
  · exact .left _ _ (by simp)
  · exact .left _ _ (rest.2.trans (by simp))

def not (toks : List Tok) : Except Str (Expr × Left toks) :=
  match toks with
  | [] => primary []
  | tok :: toks =>
    if tok.is_not then
      (not toks).map fun (e, rest) => (.Not e, ⟨rest.1, rest.2.trans (by simp)⟩)
    else primary (tok :: toks)
termination_by (toks.length, 2)
decreasing_by
  · exact .right _ (by omega)
  · exact .left _ _ (by simp)
  · exact .right _ (by omega)

def primary (toks : List Tok) : Except Str (Expr × Left toks) :=
  match toks with
  | .LParen :: toks =>
    match or toks with
    | .error e => .error e
    | .ok (e, ⟨.RParen :: rest, h⟩) =>
      .ok (e, ⟨rest, by simp only [List.length_cons] at h ⊢; omega⟩)
    | .ok _ => .error "expected `)`".toList
  | .Ident name :: toks =>
    match Var.parse name with
    | none => .error ("unknown variable ".toList ++ quote name)
    | some var =>
      (comparison name var toks).map fun (e, rest) => (e, ⟨rest.1, rest.2.trans (by simp)⟩)
  | tok :: _ => .error ("unexpected token ".toList ++ tok.debug given)
  | [] => .error "unexpected end of expression".toList
termination_by (toks.length, 1)
decreasing_by
  exact .left _ _ (by simp)

end

end Parser

/-- An expression read. -/
def parse (given : Given) (src : Str) : Except Str Expr :=
  match tokenize given (Str.trim src) with
  | .error e => .error e
  | .ok [] => .error "empty expression".toList
  | .ok toks =>
    match Parser.or given toks with
    | .error e => .error e
    | .ok (e, rest) =>
      if rest.1 = [] then .ok e else .error "trailing tokens in expression".toList

/-! ### Evaluation -/

namespace Var

def value (env : Environment) : Var → Value
  | .CoreVersion => .Int (as_i64 env.core_version)
  | .System => .Str env.system
  | .SystemVersion => .Str env.system_version
  | .DeviceModel => .Str env.device_model
  | .Language => .Str env.language
  | .DeviceName => .Str env.device_name

end Var

def value_str : Value → Str
  | .Int n => int_text n
  | .Str s => s

/-- How a value stands to another, none for a number against a text that is no number. -/
def ordering : Value → Value → Option Ordering
  | .Int a, .Int b => some (compareOfLessAndEq a b)
  | .Int a, .Str b => (parse_i64 (Str.trim b)).map fun b => compareOfLessAndEq a b
  | .Str a, b => some (compareOfLessAndEq a (value_str b))

/-- Whether an ordering is one the operator asks for. -/
def CmpOp.is : CmpOp → Ordering → Bool
  | .Eq, ord => ord.isEq
  | .Ne, ord => ord.isNe
  | .Gt, ord => ord.isGT
  | .Ge, ord => ord.isGE
  | .Lt, ord => ord.isLT
  | .Le, ord => ord.isLE

/-- Whether a text passes a test. -/
def StrOp.test (given : Given) (op : StrOp) (lhs rhs : Str) : Bool :=
  match op with
  | .BeginsWith => rhs.isPrefixOf lhs
  | .Contains => Str.containsStr rhs lhs
  | .EndsWith => rhs.isSuffixOf lhs
  | .Like => (Glob.new rhs ⟨false, false⟩).any (·.isMatch lhs)
  | .Matches => (given.regex rhs).any fun re => (re lhs).getD false

/-- Whether a requirement is met. -/
def eval (given : Given) (env : Environment) : Expr → Bool
  | .And a b => eval given env a && eval given env b
  | .Or a b => eval given env a || eval given env b
  | .Not a => !eval given env a
  | .Cmp var op rhs => (ordering (var.value env) rhs).any op.is
  | .Str var op rhs => op.test given (value_str (var.value env)) rhs

end Requirement

end Config

end Rurge
