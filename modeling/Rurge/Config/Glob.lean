import Rurge.Text

/-!
# Wildcard patterns

`*` stands for any run of characters, dots included, `?` for one character, and `[...]` for one
character of a class where the options allow classes.  `Glob.new` reads a pattern into tokens;
`Glob.isMatch` (the source's `matches`) walks the tokens and the text together and, where it gets
stuck, goes back to the last `*` and lets that take one character more.
-/

namespace Rurge

/-- What a pattern may hold and how it is compared. -/
structure GlobOptions where
  caseInsensitive : Bool
  classes : Bool
  deriving DecidableEq

inductive Tok
  | lit (c : Char)
  | any
  | one
  | cls (negate : Bool) (ranges : List (Char × Char))
  deriving DecidableEq

structure Glob where
  source : Str
  toks : List Tok
  ci : Bool
  deriving DecidableEq

namespace Glob

def fold (c : Char) (ci : Bool) : Char := if ci then c.toLower else c

/-! ### Reading a pattern -/

/-- The ranges of a class up to its `]`, and what follows; `none` when nothing closes it.  A `]`
in front of every range is a member of the class. -/
def classRanges (ci : Bool) (ranges : List (Char × Char)) :
    List Char → Option (List (Char × Char) × List Char)
  | [] => none
  | lo :: rest =>
    if lo = ']' ∧ ranges ≠ [] then some (ranges, rest)
    else
      match rest with
      | dash :: hi :: rest' =>
        if dash = '-' ∧ hi ≠ ']' then classRanges ci (ranges ++ [(fold lo ci, fold hi ci)]) rest'
        else classRanges ci (ranges ++ [(fold lo ci, fold lo ci)]) (dash :: hi :: rest')
      | rest' => classRanges ci (ranges ++ [(fold lo ci, fold lo ci)]) rest'

/-- The tokens of a pattern: `fuel` is the characters left. -/
def tokens (opts : GlobOptions) : ℕ → List Tok → List Char → Option (List Tok)
  | _, toks, [] => some toks
  | 0, _, _ :: _ => none
  | fuel + 1, toks, c :: rest =>
    if c = '*' then
      tokens opts fuel (if toks.getLast? = some .any then toks else toks ++ [.any]) rest
    else if c = '?' then tokens opts fuel (toks ++ [.one]) rest
    else if c = '[' ∧ opts.classes then
      let negate := rest.head? = some '!' ∨ rest.head? = some '^'
      match classRanges opts.caseInsensitive [] (if negate then rest.tail else rest) with
      | none => none
      | some (ranges, rest) => tokens opts fuel (toks ++ [.cls negate ranges]) rest
    else tokens opts fuel (toks ++ [.lit (fold c opts.caseInsensitive)]) rest

/-- `none`: a class is not closed. -/
def new (pattern : Str) (opts : GlobOptions) : Option Glob :=
  (tokens opts pattern.length [] pattern).map fun toks => ⟨pattern, toks, opts.caseInsensitive⟩

/-! ### Matching -/

def tokMatches : Tok → Char → Bool
  | .lit l, c => l == c
  | .one, _ => true
  | .cls negate ranges, c => (ranges.any fun r => r.1 ≤ c && c ≤ r.2) != negate
  | .any, _ => false

/-- The walk: `si` and `pi` are the places in the text and in the tokens, `star` those of the
last `*` and of the text it was last tried at. -/
def walk (toks : List Tok) (input : List Char) : ℕ → ℕ → ℕ → Option (ℕ × ℕ) → Bool
  | 0, _, _, _ => false
  | fuel + 1, si, pi, star =>
    match input[si]? with
    | none => (toks.drop pi).all (· == .any)
    | some c =>
      if (toks[pi]?).any (tokMatches · c) then walk toks input fuel (si + 1) (pi + 1) star
      else if toks[pi]? = some .any then walk toks input fuel si (pi + 1) (some (pi, si))
      else
        match star with
        | some (sp, ss) => walk toks input fuel (ss + 1) (sp + 1) (some (sp, ss + 1))
        | none => false

/-- Steps enough for every walk: each `*` is tried at each place of the text at most once, and
between two tries at most every token is passed. -/
def walkFuel (m n : ℕ) : ℕ := (m + 2) * (n + 2) * (m + 2)

def isMatch (g : Glob) (s : Str) : Bool :=
  let input := s.map (fold · g.ci)
  walk g.toks input (walkFuel g.toks.length input.length) 0 0 none

end Glob

end Rurge
