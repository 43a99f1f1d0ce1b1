import Rurge.Config.Requirement

/-!
# The grammar of requirement expressions

The sentences an expression can be, with the tree of each, and what a sentence means.  The parser
reads exactly the sentences (`parse_eq_ok`), and evaluating the tree gives what the sentence means
(`means_iff`).
-/

namespace Rurge

namespace Config

namespace Requirement

/-! ### Sentences -/

/-- The levels of the grammar, from the loosest to the tightest. -/
inductive Level
  | or
  | and
  | not
  | primary
  deriving DecidableEq

/-- The tokens that are a sentence of a level, with its tree: an OR of ANDs of NOTs of comparisons,
tests and parentheses, a chain of equal operators read from the left. -/
inductive Sentence : Level → Expr → List Tok → Prop
  | of_and {e ts} : Sentence .and e ts → Sentence .or e ts
  | or {a b ts us} {o : Tok} : Sentence .or a ts → o.is_or = true → Sentence .and b us →
      Sentence .or (.Or a b) (ts ++ o :: us)
  | of_not {e ts} : Sentence .not e ts → Sentence .and e ts
  | and {a b ts us} {o : Tok} : Sentence .and a ts → o.is_and = true → Sentence .not b us →
      Sentence .and (.And a b) (ts ++ o :: us)
  | of_primary {e ts} : Sentence .primary e ts → Sentence .not e ts
  | not {e ts} {o : Tok} : o.is_not = true → Sentence .not e ts → Sentence .not (.Not e) (o :: ts)
  | paren {e ts} : Sentence .or e ts → Sentence .primary e (.LParen :: (ts ++ [.RParen]))
  | cmp {name op var o} {tok : Tok} {value} : Var.parse name = some var →
      CmpOp.parse op = some o → tok.value = some value →
      Sentence .primary (.Cmp var o value) [.Ident name, .Op op, tok]
  | str {name kw var o} {tok : Tok} {s} : Var.parse name = some var →
      StrOp.parse (Str.toAsciiUppercase kw) = some o → tok.text = some s →
      Sentence .primary (.Str var o s) [.Ident name, .Ident kw, tok]

/-- A token is never both OR and AND. -/
theorem is_and_of_is_or {o : Tok} (h : o.is_or = true) : o.is_and = false := by
  cases o with
  | Op op =>
    have hop : op = "||".toList := by simpa [Tok.is_or, Tok.reads] using h
    rw [hop]
    rfl
  | Ident name =>
    have hname : Str.toAsciiLowercase name = Str.toAsciiLowercase "OR".toList := by
      simpa [Tok.is_or, Tok.reads, Str.eqIgnoreAsciiCase] using h
    simp only [Tok.is_and, Tok.reads, Str.eqIgnoreAsciiCase, hname]
    rfl
  | Num n => rfl
  | Str s => rfl
  | LParen => rfl
  | RParen => rfl

/-- A variable has another name than NOT. -/
theorem is_not_of_var {name : Str} {var : Var} (h : Var.parse name = some var) :
    Tok.is_not (.Ident name) = false := by
  by_contra hnot
  have hlower : Str.toAsciiLowercase name = Str.toAsciiLowercase "NOT".toList := by
    simpa [Tok.is_not, Tok.reads, Str.eqIgnoreAsciiCase] using hnot
  have hlength : name.length = 3 := by
    have := congrArg List.length hlower
    simpa [Str.toAsciiLowercase] using this
  have hupper : (Str.toAsciiUppercase name).length = 3 := by
    rw [Str.toAsciiUppercase, List.length_map, hlength]
  unfold Var.parse at h
  simp only at h
  split_ifs at h with h1 h2 h3 h4 h5 h6 <;> simp_all

/-- A comparison or a parenthesis does not begin with NOT. -/
theorem Sentence.head {e : Expr} {ts : List Tok} (h : Sentence .primary e ts) :
    ∃ tok us, ts = tok :: us ∧ tok.is_not = false := by
  cases h with
  | paren _ => exact ⟨_, _, rfl, rfl⟩
  | cmp hvar _ _ => exact ⟨_, _, rfl, is_not_of_var hvar⟩
  | str hvar _ _ => exact ⟨_, _, rfl, is_not_of_var hvar⟩

/-! ### What the parser reads -/

/-- What was read, without what is said of how much of the tokens it took. -/
def plain {P : List Tok → Prop} (r : Except Str (Expr × {rest : List Tok // P rest})) :
    Option (Expr × List Tok) :=
  match r with
  | .ok (e, rest) => some (e, rest.1)
  | .error _ => none

theorem plain_map {P Q : List Tok → Prop} (r : Except Str (Expr × {rest : List Tok // P rest}))
    (g : Expr × {rest : List Tok // P rest} → Expr × {rest : List Tok // Q rest}) (f : Expr → Expr)
    (hg : ∀ p, ((g p).1, (g p).2.1) = (f p.1, p.2.1)) :
    plain (r.map g) = (plain r).map fun p => (f p.1, p.2) := by
  cases r with
  | error _ => rfl
  | ok p => exact congrArg some (hg p)

theorem plain_widen {P Q : List Tok → Prop} (r : Except Str (Expr × {rest : List Tok // P rest}))
    (g : Expr × {rest : List Tok // P rest} → Expr × {rest : List Tok // Q rest})
    (hg : ∀ p, ((g p).1, (g p).2.1) = (p.1, p.2.1)) : plain (r.map g) = plain r :=
  (plain_map r g id hg).trans Option.map_id'

theorem plain_eq_some {P : List Tok → Prop} {r : Except Str (Expr × {rest : List Tok // P rest})}
    {e : Expr} {rest : List Tok} (h : plain r = some (e, rest)) : P rest := by
  cases r with
  | error _ => simp [plain] at h
  | ok p =>
    simp only [plain, Option.some.injEq, Prod.mk.injEq] at h
    exact h.2 ▸ p.2.2

namespace Parser

variable (given : Given)

theorem plain_or (toks : List Tok) : plain (or given toks) =
    (plain (and given toks)).bind fun p => plain (or_more given p.1 p.2) := by
  rw [or]
  cases and given toks with
  | error _ => rfl
  | ok p =>
    exact plain_widen _ _ (by intro p; rfl)

theorem plain_or_more_nil (left : Expr) : plain (or_more given left []) = some (left, []) := by
  rw [or_more]
  rfl

theorem plain_or_more_cons (left : Expr) (tok : Tok) (toks : List Tok) :
    plain (or_more given left (tok :: toks)) =
      if tok.is_or then
        (plain (and given toks)).bind fun p => plain (or_more given (.Or left p.1) p.2)
      else some (left, tok :: toks) := by
  rw [or_more]
  split_ifs with hor
  · cases and given toks with
    | error _ => rfl
    | ok p =>
      exact plain_widen _ _ (by intro p; rfl)
  · rfl

theorem plain_and (toks : List Tok) : plain (and given toks) =
    (plain (not given toks)).bind fun p => plain (and_more given p.1 p.2) := by
  rw [and]
  cases not given toks with
  | error _ => rfl
  | ok p =>
    exact plain_widen _ _ (by intro p; rfl)

theorem plain_and_more_nil (left : Expr) : plain (and_more given left []) = some (left, []) := by
  rw [and_more]
  rfl

theorem plain_and_more_cons (left : Expr) (tok : Tok) (toks : List Tok) :
    plain (and_more given left (tok :: toks)) =
      if tok.is_and then
        (plain (not given toks)).bind fun p => plain (and_more given (.And left p.1) p.2)
      else some (left, tok :: toks) := by
  rw [and_more]
  split_ifs with hand
  · cases not given toks with
    | error _ => rfl
    | ok p =>
      exact plain_widen _ _ (by intro p; rfl)
  · rfl

theorem plain_not_nil : plain (not given []) = none := by
  rw [not, primary]
  rfl

theorem plain_not_cons (tok : Tok) (toks : List Tok) : plain (not given (tok :: toks)) =
    if tok.is_not then (plain (not given toks)).map fun p => (.Not p.1, p.2)
    else plain (primary given (tok :: toks)) := by
  rw [not]
  split_ifs with hnot
  · exact plain_map _ _ Expr.Not fun _ => rfl
  · rfl

theorem plain_primary_paren (toks : List Tok) : plain (primary given (.LParen :: toks)) =
    (plain (or given toks)).bind fun p =>
      if p.2.head? = some .RParen then some (p.1, p.2.tail) else none := by
  rw [primary]
  rcases or given toks with _ | ⟨e, ⟨rest, hrest⟩⟩
  · rfl
  · cases rest with
    | nil => rfl
    | cons tok rest => cases tok <;> simp [plain]

theorem plain_primary_ident (name : Str) (toks : List Tok) :
    plain (primary given (.Ident name :: toks)) =
      (Var.parse name).bind fun var => plain (comparison name var toks) := by
  rw [primary]
  cases Var.parse name with
  | none => rfl
  | some var => exact plain_widen _ _ (by intro p; rfl)

/-! ### What is read is a sentence -/

variable {given}

/-- What follows a variable, read, makes a comparison or a test of it. -/
theorem comparison_sound {name : Str} {var : Var} (hvar : Var.parse name = some var)
    {toks : List Tok} {e : Expr} {rest : List Tok}
    (h : plain (comparison name var toks) = some (e, rest)) :
    ∃ ts, toks = ts ++ rest ∧ Sentence .primary e (.Ident name :: ts) := by
  unfold comparison at h
  split at h
  · rename_i op toks
    split at h
    · cases h
    · rename_i o hop
      match toks with
      | [] => cases h
      | tok :: toks =>
        cases hvalue : tok.value with
        | none => simp [hvalue, plain] at h
        | some value =>
          simp only [hvalue, plain, Option.some.injEq, Prod.mk.injEq] at h
          obtain ⟨rfl, rfl⟩ := h
          exact ⟨[.Op op, tok], rfl, .cmp hvar hop hvalue⟩
  · rename_i kw toks
    split at h
    · cases h
    · rename_i o hop
      match toks with
      | [] => cases h
      | tok :: toks =>
        cases htext : tok.text with
        | none => simp [htext, plain] at h
        | some s =>
          simp only [htext, plain, Option.some.injEq, Prod.mk.injEq] at h
          obtain ⟨rfl, rfl⟩ := h
          exact ⟨[.Ident kw, tok], rfl, .str hvar hop htext⟩
  · cases h

mutual

theorem or_sound (toks : List Tok) {e : Expr} {rest : List Tok}
    (h : plain (or given toks) = some (e, rest)) : ∃ ts, toks = ts ++ rest ∧ Sentence .or e ts := by
  rw [plain_or, Option.bind_eq_some_iff] at h
  obtain ⟨⟨left, rest'⟩, hand, hmore⟩ := h
  obtain ⟨ts, rfl, hts⟩ := and_sound toks hand
  have hlt := plain_eq_some hand
  obtain ⟨us, rfl, hus⟩ := or_more_sound left rest' hmore
  exact ⟨ts ++ us, (List.append_assoc ..).symm, hus ts (.of_and hts)⟩
termination_by (toks.length, 4)

theorem or_more_sound (left : Expr) (toks : List Tok) {e : Expr} {rest : List Tok}
    (h : plain (or_more given left toks) = some (e, rest)) :
    ∃ us, toks = us ++ rest ∧ ∀ ts, Sentence .or left ts → Sentence .or e (ts ++ us) := by
  match toks with
  | [] =>
    rw [plain_or_more_nil, Option.some.injEq, Prod.mk.injEq] at h
    obtain ⟨rfl, rfl⟩ := h
    exact ⟨[], rfl, fun ts hts => by rwa [List.append_nil]⟩
  | tok :: toks =>
    rw [plain_or_more_cons] at h
    split_ifs at h with hor
    · obtain ⟨⟨right, rest'⟩, hand, hmore⟩ := Option.bind_eq_some_iff.1 h
      obtain ⟨vs, rfl, hvs⟩ := and_sound toks hand
      have hlt := plain_eq_some hand
      obtain ⟨us, rfl, hus⟩ := or_more_sound (.Or left right) rest' hmore
      refine ⟨tok :: vs ++ us, by simp, fun ts hts => ?_⟩
      have := hus _ (.or hts hor hvs)
      rwa [List.append_assoc] at this
    · rw [Option.some.injEq, Prod.mk.injEq] at h
      obtain ⟨rfl, rfl⟩ := h
      exact ⟨[], rfl, fun ts hts => by rwa [List.append_nil]⟩
termination_by (toks.length, 0)

theorem and_sound (toks : List Tok) {e : Expr} {rest : List Tok}
    (h : plain (and given toks) = some (e, rest)) :
    ∃ ts, toks = ts ++ rest ∧ Sentence .and e ts := by
  rw [plain_and, Option.bind_eq_some_iff] at h
  obtain ⟨⟨left, rest'⟩, hnot, hmore⟩ := h
  obtain ⟨ts, rfl, hts⟩ := not_sound toks hnot
  have hlt := plain_eq_some hnot
  obtain ⟨us, rfl, hus⟩ := and_more_sound left rest' hmore
  exact ⟨ts ++ us, (List.append_assoc ..).symm, hus ts (.of_not hts)⟩
termination_by (toks.length, 3)

theorem and_more_sound (left : Expr) (toks : List Tok) {e : Expr} {rest : List Tok}
    (h : plain (and_more given left toks) = some (e, rest)) :
    ∃ us, toks = us ++ rest ∧ ∀ ts, Sentence .and left ts → Sentence .and e (ts ++ us) := by
  match toks with
  | [] =>
    rw [plain_and_more_nil, Option.some.injEq, Prod.mk.injEq] at h
    obtain ⟨rfl, rfl⟩ := h
    exact ⟨[], rfl, fun ts hts => by rwa [List.append_nil]⟩
  | tok :: toks =>
    rw [plain_and_more_cons] at h
    split_ifs at h with hand
    · obtain ⟨⟨right, rest'⟩, hnot, hmore⟩ := Option.bind_eq_some_iff.1 h
      obtain ⟨vs, rfl, hvs⟩ := not_sound toks hnot
      have hlt := plain_eq_some hnot
      obtain ⟨us, rfl, hus⟩ := and_more_sound (.And left right) rest' hmore
      refine ⟨tok :: vs ++ us, by simp, fun ts hts => ?_⟩
      have := hus _ (.and hts hand hvs)
      rwa [List.append_assoc] at this
    · rw [Option.some.injEq, Prod.mk.injEq] at h
      obtain ⟨rfl, rfl⟩ := h
      exact ⟨[], rfl, fun ts hts => by rwa [List.append_nil]⟩
termination_by (toks.length, 0)

theorem not_sound (toks : List Tok) {e : Expr} {rest : List Tok}
    (h : plain (not given toks) = some (e, rest)) :
    ∃ ts, toks = ts ++ rest ∧ Sentence .not e ts := by
  match toks with
  | [] => simp [plain_not_nil] at h
  | tok :: toks =>
    rw [plain_not_cons] at h
    split_ifs at h with hnot
    · obtain ⟨⟨e, rest⟩, hrec, heq⟩ := Option.map_eq_some_iff.1 h
      rw [Prod.mk.injEq] at heq
      obtain ⟨rfl, rfl⟩ := heq
      obtain ⟨ts, rfl, hts⟩ := not_sound toks hrec
      exact ⟨tok :: ts, rfl, .not hnot hts⟩
    · obtain ⟨ts, hts, hsent⟩ := primary_sound (tok :: toks) h
      exact ⟨ts, hts, .of_primary hsent⟩
termination_by (toks.length, 2)

theorem primary_sound (toks : List Tok) {e : Expr} {rest : List Tok}
    (h : plain (primary given toks) = some (e, rest)) :
    ∃ ts, toks = ts ++ rest ∧ Sentence .primary e ts := by
  match toks with
  | .LParen :: toks =>
    rw [plain_primary_paren, Option.bind_eq_some_iff] at h
    obtain ⟨⟨e', rest'⟩, hor, hclose⟩ := h
    split_ifs at hclose with hparen
    rw [Option.some.injEq, Prod.mk.injEq] at hclose
    obtain ⟨rfl, rfl⟩ := hclose
    obtain ⟨ts, rfl, hts⟩ := or_sound toks hor
    refine ⟨.LParen :: (ts ++ [.RParen]), ?_, .paren hts⟩
    obtain ⟨rest, rfl⟩ := List.head?_eq_some_iff.1 hparen
    simp
  | .Ident name :: toks =>
    rw [plain_primary_ident, Option.bind_eq_some_iff] at h
    obtain ⟨var, hvar, h⟩ := h
    obtain ⟨ts, rfl, hts⟩ := comparison_sound hvar h
    exact ⟨.Ident name :: ts, rfl, hts⟩
  | [] | .Num _ :: _ | .Str _ :: _ | .Op _ :: _ | .RParen :: _ =>
    simp [primary, plain] at h
termination_by (toks.length, 1)

end

/-! ### Every sentence is read -/

/-- How the parser reads a sentence of a level, whatever follows it; what follows an AND sentence
read as an OR does not go on with AND. -/
def Reads (given : Given) : Level → Expr → List Tok → Prop
  | .or, e, ts => ∀ rest : List Tok, rest.head?.any Tok.is_and = false →
      plain (or given (ts ++ rest)) = plain (or_more given e rest)
  | .and, e, ts => ∀ rest, plain (and given (ts ++ rest)) = plain (and_more given e rest)
  | .not, e, ts => ∀ rest, plain (not given (ts ++ rest)) = some (e, rest)
  | .primary, e, ts => ∀ rest, plain (primary given (ts ++ rest)) = some (e, rest)

theorem plain_and_more_stop {left : Expr} {rest : List Tok}
    (h : rest.head?.any Tok.is_and = false) :
    plain (and_more given left rest) = some (left, rest) := by
  match rest with
  | [] => exact plain_and_more_nil given left
  | tok :: rest =>
    rw [plain_and_more_cons, if_neg (by simpa using h)]

theorem reads {l : Level} {e : Expr} {ts : List Tok} (h : Sentence l e ts) :
    Reads given l e ts := by
  induction h with
  | of_and _ ih =>
    intro rest hrest
    rw [plain_or, ih rest, plain_and_more_stop hrest]
    rfl
  | or _ hor _ iha ihb =>
    intro rest hrest
    rw [List.append_assoc, iha _ (by simpa using is_and_of_is_or hor), List.cons_append,
      plain_or_more_cons, if_pos hor, ihb rest, plain_and_more_stop hrest]
    rfl
  | of_not _ ih =>
    intro rest
    rw [plain_and, ih rest]
    rfl
  | and _ hand _ iha ihb =>
    intro rest
    rw [List.append_assoc, iha, List.cons_append, plain_and_more_cons, if_pos hand, ihb rest]
    rfl
  | of_primary hsent ih =>
    intro rest
    obtain ⟨tok, us, rfl, hnot⟩ := hsent.head
    rw [List.cons_append, plain_not_cons, if_neg (by simp [hnot])]
    exact ih rest
  | not hnot _ ih =>
    intro rest
    rw [List.cons_append, plain_not_cons, if_pos hnot, ih rest]
    rfl
  | paren _ ih =>
    intro rest
    have hclose := ih (.RParen :: rest) rfl
    rw [plain_or_more_cons, if_neg (by decide)] at hclose
    rw [List.cons_append, List.append_assoc, plain_primary_paren, List.singleton_append, hclose]
    rfl
  | cmp hvar hop hvalue =>
    intro rest
    rw [List.cons_append, plain_primary_ident, hvar]
    simp [comparison, hop, hvalue, plain]
  | str hvar hop htext =>
    intro rest
    rw [List.cons_append, plain_primary_ident, hvar]
    simp [comparison, hop, htext, plain]

end Parser

/-- **The parser reads the grammar.**  A text is accepted with a tree exactly when its tokens are a
sentence with that tree. -/
theorem parse_eq_ok {given : Given} {src : Str} {e : Expr} : parse given src = .ok e ↔
    ∃ toks, tokenize given (Str.trim src) = .ok toks ∧ Sentence .or e toks := by
  have hor : ∀ toks : List Tok, plain (Parser.or given toks) = some (e, []) ↔
      Sentence .or e toks := by
    intro toks
    constructor
    · intro h
      obtain ⟨ts, hts, hsent⟩ := Parser.or_sound toks h
      rw [hts, List.append_nil]
      exact hsent
    · intro hsent
      have hread : Parser.Reads given .or e toks := Parser.reads hsent
      have := hread [] rfl
      rwa [List.append_nil, Parser.plain_or_more_nil] at this
  unfold parse
  cases htoks : tokenize given (Str.trim src) with
  | error _ => simp
  | ok toks =>
    simp only [Except.ok.injEq, exists_eq_left']
    rw [← hor]
    cases toks with
    | nil => simp [Parser.plain_or, Parser.plain_and, Parser.plain_not_nil]
    | cons tok toks =>
      simp only
      cases hread : Parser.or given (tok :: toks) with
      | error _ => simp [plain]
      | ok p =>
        obtain ⟨e', rest⟩ := p
        simp only [plain, Option.some.injEq, Prod.mk.injEq]
        split_ifs with hrest
        · simp [hrest]
        · simp [hrest]

/-- A sentence has one tree. -/
theorem Sentence.unique (given : Given) {e e' : Expr} {ts : List Tok} (h : Sentence .or e ts)
    (h' : Sentence .or e' ts) : e = e' := by
  have hreads : Parser.Reads given .or e ts := Parser.reads h
  have hread := (hreads [] rfl).symm.trans (Parser.reads h' [] rfl)
  rw [Parser.plain_or_more_nil, Parser.plain_or_more_nil, Option.some.injEq] at hread
  exact congrArg Prod.fst hread

/-! ### What a sentence means -/

/-- What a comparison operator says of two values of one order. -/
def CmpOp.Holds {α : Type*} [LinearOrder α] (a b : α) : CmpOp → Prop
  | .Eq => a = b
  | .Ne => a ≠ b
  | .Gt => b < a
  | .Ge => b ≤ a
  | .Lt => a < b
  | .Le => a ≤ b

theorem CmpOp.is_compare {α : Type*} [LinearOrder α] [DecidableEq α] (op : CmpOp) (a b : α)
    [Decidable (a < b)] : op.is (compareOfLessAndEq a b) = true ↔ op.Holds a b := by
  unfold compareOfLessAndEq
  rcases lt_trichotomy a b with hlt | rfl | hgt
  · rw [if_pos hlt]
    cases op <;> simp [CmpOp.is, CmpOp.Holds, hlt, hlt.ne, hlt.le, hlt.not_gt]
  · rw [if_neg (lt_irrefl a), if_pos rfl]
    cases op <;> simp [CmpOp.is, CmpOp.Holds]
  · rw [if_neg hgt.not_gt, if_neg hgt.ne']
    cases op <;> simp [CmpOp.is, CmpOp.Holds, hgt, hgt.ne', hgt.le, hgt.not_gt]

/-- When a comparison holds: a number is compared as a number, with a text that reads as one too and
with no other, a text as a text. -/
def Compares (op : CmpOp) : Value → Value → Prop
  | .Int a, .Int b => op.Holds a b
  | .Int a, .Str b => ∃ n, parse_i64 (Str.trim b) = some n ∧ op.Holds a n
  | .Str a, b => op.Holds a (value_str b)

theorem any_ordering (op : CmpOp) (a b : Value) :
    (ordering a b).any op.is = true ↔ Compares op a b := by
  cases a with
  | Int a =>
    cases b with
    | Int b => exact op.is_compare a b
    | Str b =>
      cases hn : parse_i64 (Str.trim b) with
      | none => simp [ordering, Compares, hn]
      | some n =>
        simp only [ordering, Compares, hn, Option.map_some, Option.any_some, Option.some.injEq,
          exists_eq_left']
        exact op.is_compare a n
  | Str a => exact op.is_compare a (value_str b)

/-- When a text passes a test. -/
def Passes (given : Given) (lhs rhs : Str) : StrOp → Prop
  | .BeginsWith => rhs <+: lhs
  | .Contains => rhs <:+: lhs
  | .EndsWith => rhs <:+ lhs
  | .Like => ∃ glob, Glob.new rhs ⟨false, false⟩ = some glob ∧ glob.isMatch lhs = true
  | .Matches => ∃ re, given.regex rhs = some re ∧ re lhs = some true

theorem containsStr_iff (k s : Str) : Str.containsStr k s = true ↔ k <:+: s := by
  induction s with
  | nil => simp [Str.containsStr]
  | cons c s ih =>
    rw [Str.containsStr, Bool.or_eq_true, List.isPrefixOf_iff_prefix, ih, List.infix_cons_iff]

theorem test_iff (given : Given) (op : StrOp) (lhs rhs : Str) :
    op.test given lhs rhs = true ↔ Passes given lhs rhs op := by
  cases op with
  | BeginsWith => exact List.isPrefixOf_iff_prefix
  | Contains => exact containsStr_iff rhs lhs
  | EndsWith => exact List.isSuffixOf_iff_suffix
  | Like => simp [StrOp.test, Passes, Option.any_eq_true]
  | Matches =>
    simp only [StrOp.test, Passes, Option.any_eq_true]
    refine exists_congr fun re => and_congr_right fun _ => ?_
    cases re lhs <;> simp

/-- What a sentence of a level means: AND, OR and NOT of what its parts mean. -/
inductive Means (given : Given) (env : Environment) : Level → List Tok → Prop → Prop
  | of_and {ts p} : Means given env .and ts p → Means given env .or ts p
  | or {ts us p q} {o : Tok} : Means given env .or ts p → o.is_or = true →
      Means given env .and us q → Means given env .or (ts ++ o :: us) (p ∨ q)
  | of_not {ts p} : Means given env .not ts p → Means given env .and ts p
  | and {ts us p q} {o : Tok} : Means given env .and ts p → o.is_and = true →
      Means given env .not us q → Means given env .and (ts ++ o :: us) (p ∧ q)
  | of_primary {ts p} : Means given env .primary ts p → Means given env .not ts p
  | not {ts p} {o : Tok} : o.is_not = true → Means given env .not ts p →
      Means given env .not (o :: ts) (¬p)
  | paren {ts p} : Means given env .or ts p →
      Means given env .primary (.LParen :: (ts ++ [.RParen])) p
  | cmp {name op var o} {tok : Tok} {value} : Var.parse name = some var →
      CmpOp.parse op = some o → tok.value = some value →
      Means given env .primary [.Ident name, .Op op, tok] (Compares o (var.value env) value)
  | str {name kw var o} {tok : Tok} {s} : Var.parse name = some var →
      StrOp.parse (Str.toAsciiUppercase kw) = some o → tok.text = some s →
      Means given env .primary [.Ident name, .Ident kw, tok]
        (Passes given (value_str (var.value env)) s o)

variable {given : Given} {env : Environment}

/-- A sentence means that its tree evaluates to true. -/
theorem Sentence.means {l : Level} {e : Expr} {ts : List Tok} (h : Sentence l e ts) :
    ∃ p, Means given env l ts p ∧ (eval given env e = true ↔ p) := by
  induction h with
  | of_and _ ih =>
    obtain ⟨p, hp, hiff⟩ := ih
    exact ⟨p, .of_and hp, hiff⟩
  | or _ ho _ iha ihb =>
    obtain ⟨p, hp, hpiff⟩ := iha
    obtain ⟨q, hq, hqiff⟩ := ihb
    exact ⟨p ∨ q, .or hp ho hq, by rw [eval, Bool.or_eq_true, hpiff, hqiff]⟩
  | of_not _ ih =>
    obtain ⟨p, hp, hiff⟩ := ih
    exact ⟨p, .of_not hp, hiff⟩
  | and _ ho _ iha ihb =>
    obtain ⟨p, hp, hpiff⟩ := iha
    obtain ⟨q, hq, hqiff⟩ := ihb
    exact ⟨p ∧ q, .and hp ho hq, by rw [eval, Bool.and_eq_true, hpiff, hqiff]⟩
  | of_primary _ ih =>
    obtain ⟨p, hp, hiff⟩ := ih
    exact ⟨p, .of_primary hp, hiff⟩
  | not ho _ ih =>
    obtain ⟨p, hp, hiff⟩ := ih
    exact ⟨¬p, .not ho hp, by rw [eval, Bool.not_eq_true', ← hiff, Bool.not_eq_true]⟩
  | paren _ ih =>
    obtain ⟨p, hp, hiff⟩ := ih
    exact ⟨p, .paren hp, hiff⟩
  | cmp hvar hop hvalue => exact ⟨_, .cmp hvar hop hvalue, any_ordering _ _ _⟩
  | str hvar hop htext => exact ⟨_, .str hvar hop htext, test_iff _ _ _ _⟩

/-- What means something is a sentence, of a tree that evaluates to it. -/
theorem Means.sentence {l : Level} {ts : List Tok} {p : Prop} (h : Means given env l ts p) :
    ∃ e, Sentence l e ts ∧ (eval given env e = true ↔ p) := by
  induction h with
  | of_and _ ih =>
    obtain ⟨e, he, hiff⟩ := ih
    exact ⟨e, .of_and he, hiff⟩
  | or _ ho _ iha ihb =>
    obtain ⟨a, ha, haiff⟩ := iha
    obtain ⟨b, hb, hbiff⟩ := ihb
    exact ⟨.Or a b, .or ha ho hb, by rw [eval, Bool.or_eq_true, haiff, hbiff]⟩
  | of_not _ ih =>
    obtain ⟨e, he, hiff⟩ := ih
    exact ⟨e, .of_not he, hiff⟩
  | and _ ho _ iha ihb =>
    obtain ⟨a, ha, haiff⟩ := iha
    obtain ⟨b, hb, hbiff⟩ := ihb
    exact ⟨.And a b, .and ha ho hb, by rw [eval, Bool.and_eq_true, haiff, hbiff]⟩
  | of_primary _ ih =>
    obtain ⟨e, he, hiff⟩ := ih
    exact ⟨e, .of_primary he, hiff⟩
  | not ho _ ih =>
    obtain ⟨e, he, hiff⟩ := ih
    exact ⟨.Not e, .not ho he, by rw [eval, Bool.not_eq_true', ← hiff, Bool.not_eq_true]⟩
  | paren _ ih =>
    obtain ⟨e, he, hiff⟩ := ih
    exact ⟨e, .paren he, hiff⟩
  | cmp hvar hop hvalue => exact ⟨_, .cmp hvar hop hvalue, any_ordering _ _ _⟩
  | str hvar hop htext => exact ⟨_, .str hvar hop htext, test_iff _ _ _ _⟩

/-- **Evaluation is the reading.**  The tree of a sentence evaluates to what the sentence means, and
the sentence means one thing. -/
theorem Sentence.eval_iff {e : Expr} {ts : List Tok} (h : Sentence .or e ts) :
    (∃ p, Means given env .or ts p) ∧
      ∀ p, Means given env .or ts p → (eval given env e = true ↔ p) := by
  obtain ⟨p, hp, -⟩ : ∃ p, Means given env .or ts p ∧ (eval given env e = true ↔ p) := h.means
  refine ⟨⟨p, hp⟩, fun q hq => ?_⟩
  obtain ⟨e', he', hiff⟩ := hq.sentence
  rw [h.unique given he']
  exact hiff

end Requirement

end Config

end Rurge
