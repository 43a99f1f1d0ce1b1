import Rurge.Text

/-!
# Lists of values

How every section parser cuts a list into items and reads each as a value or a parameter
(`rurge_config::value`).  A quote opens only where a value starts, parentheses group only where
they pair up, and the items are cut at the commas outside both.  Places in a text are counted in
characters.
-/

namespace Rurge

namespace Value

/-! ### Items -/

/-- What the first pass notes outside quotes: a comma that may cut and how wide it is, a
parenthesis, or the first `=` since a value last started. -/
inductive Mark
  | Comma (pos width : ℕ)
  | Open
  | Close
  | Eq (pos : ℕ)
  deriving DecidableEq

/-- One item of a list: where it starts and ends, where the separator after it ends, and where its
first `=` that starts a value outside any group stands. -/
structure ItemSpan where
  start : ℕ
  stop : ℕ
  sep_end : ℕ
  eq : Option ℕ
  deriving DecidableEq

/-- The commas, parentheses and value-starting `=` outside quotes, from place `i` on: `at_start`
says whether a quote would open there, `seen_eq` whether an `=` was seen since a value last started,
and `quote` is the quote that is open.  Where the list is `wide`, a full-width comma cuts as well
and starts no value. -/
def marks (wide : Bool) (i : ℕ) (at_start seen_eq : Bool) (quote : Option Char) : Str → List Mark
  | [] => []
  | c :: rest =>
    match quote with
    | some q =>
      if q = '"' ∧ c = '\\' then
        -- the backslash takes the next character with it
        match rest with
        | [] => []
        | _ :: rest => marks wide (i + 2) at_start seen_eq (some q) rest
      else if c = q then marks wide (i + 1) at_start seen_eq none rest
      else marks wide (i + 1) at_start seen_eq (some q) rest
    | none =>
      if at_start ∧ Str.isWhiteSpace c then marks wide (i + 1) at_start seen_eq none rest
      else if at_start ∧ (c = '"' ∨ c = '\'') then marks wide (i + 1) false seen_eq (some c) rest
      else if c = ',' then .Comma i 1 :: marks wide (i + 1) true false none rest
      else if wide ∧ c = '，' then .Comma i 1 :: marks wide (i + 1) false seen_eq none rest
      else if c = '(' then .Open :: marks wide (i + 1) true false none rest
      else if c = ')' then .Close :: marks wide (i + 1) false seen_eq none rest
      else if c = '=' ∧ seen_eq = false then .Eq i :: marks wide (i + 1) true true none rest
      else marks wide (i + 1) false seen_eq none rest

/-- Which parentheses pair up, from mark `k` on: `opened` are the marks of those still open, the
last one first. -/
def pair (k : ℕ) (opened : List ℕ) (paired : List Bool) : List Mark → List Bool
  | [] => paired
  | .Open :: rest => pair (k + 1) (k :: opened) paired rest
  | .Close :: rest =>
    match opened with
    | [] => pair (k + 1) [] paired rest
    | o :: opened => pair (k + 1) opened ((paired.set o true).set k true) rest
  | _ :: rest => pair (k + 1) opened paired rest

/-- The items cut off at the commas outside groups. -/
def cut_items (size depth start : ℕ) (eq : Option ℕ) : List (Mark × Bool) → List ItemSpan
  | [] => [⟨start, size, size, eq⟩]
  | (.Open, true) :: rest => cut_items size (depth + 1) start eq rest
  | (.Close, true) :: rest => cut_items size (depth - 1) start eq rest
  | (.Eq pos, _) :: rest =>
    if depth = 0 ∧ eq = none then cut_items size depth start (some pos) rest
    else cut_items size depth start eq rest
  | (.Comma pos width, _) :: rest =>
    if depth = 0 then
      ⟨start, pos, pos + width, eq⟩ :: cut_items size depth (pos + width) none rest
    else cut_items size depth start eq rest
  | _ :: rest => cut_items size depth start eq rest

/-- The items of a text, in two passes: the marks outside quotes, and the cuts read off them once
the parentheses are paired. -/
def item_spans (text : Str) (wide : Bool) : List ItemSpan :=
  let found := marks wide 0 true false none text
  cut_items text.length 0 0 none
    (found.zip (pair 0 [] (List.replicate found.length false) found))

/-! ### Quotes -/

/-- Where the partner of a quote stands in what follows the quote, the first place being `i`. -/
def partner (quote : Char) (i : ℕ) : Str → Option ℕ
  | [] => none
  | c :: rest =>
    if quote = '"' ∧ c = '\\' then
      match rest with
      | [] => none
      | _ :: rest => partner quote (i + 2) rest
    else if c = quote then some i
    else partner quote (i + 1) rest

/-- The inside of a double-quoted value: an escaped `"` or `\` loses its backslash. -/
def unescape : Str → Str
  | [] => []
  | '\\' :: '"' :: rest => '"' :: unescape rest
  | '\\' :: '\\' :: rest => '\\' :: unescape rest
  | '\\' :: other :: rest => '\\' :: other :: unescape rest
  | ['\\'] => ['\\']
  | c :: rest => c :: unescape rest

/-- The text inside the quotes of a text wholly in them. -/
def wholly_quoted : Str → Option Str
  | [] => none
  | quote :: rest =>
    if quote = '"' ∨ quote = '\'' then
      if partner quote 1 rest = some rest.length then
        let inner := rest.dropLast
        some (if quote = '"' then unescape inner else inner)
      else none
    else none

/-! ### Fields -/

/-- One item as the parsers read it: what `split_list` gives for it, and its key and value where it
is a parameter. -/
structure Field where
  text : Str
  param : Option (Str × Str)
  deriving DecidableEq

/-- An item as a value or a parameter; `eq` is where its first `=` that starts a value stands. -/
def read_field (item : Str) (eq : Option ℕ) : Option Field :=
  let trimmed := Str.trim item
  if trimmed = [] then none
  else
    match wholly_quoted trimmed with
    | some inner => if inner = [] then none else some ⟨inner, none⟩
    | none =>
      match eq with
      | none => some ⟨trimmed, none⟩
      | some pos =>
        let key := Str.trim (item.take pos)
        if key = [] then some ⟨trimmed, none⟩
        else
          let raw := Str.trim (item.drop (pos + 1))
          match wholly_quoted raw with
          | some value => some ⟨key ++ '=' :: value, some (key, value)⟩
          | none => some ⟨trimmed, some (key, raw)⟩

/-- The stretch of a text from one place to another. -/
def slice (text : Str) (start stop : ℕ) : Str := (text.take stop).drop start

/-- The items of a list, each read as a value or a parameter; what is blank is dropped. -/
def split_fields (text : Str) : List Field :=
  (item_spans text false).filterMap fun span =>
    read_field (slice text span.start span.stop) (span.eq.map (· - span.start))

/-- The items of a list. -/
def split_list (text : Str) : List Str := (split_fields text).map Field.text

example : split_list "ss, h, password=\"p,w\", (a,b), x='c,d".toList =
    ["ss".toList, "h".toList, "password=p,w".toList, "(a,b)".toList, "x='c,d".toList] := by
  decide +kernel

/-! ### Names -/

/-- Whether a text starts with another, whatever the case of ASCII letters. -/
def starts_with_ci (s start : Str) : Bool := Str.eqIgnoreAsciiCase (s.take start.length) start

end Value

end Rurge
