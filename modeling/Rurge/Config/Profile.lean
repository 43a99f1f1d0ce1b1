import Rurge.Config.Value

/-!
# The text of a profile

A profile's text read into its header and its sections (`rurge_config::text::parse_str`), with the
origin each line keeps and what a line of that origin may make the program do on this machine
(`rurge_config::reach`).  Reading never fails: what is wrong is reported.
-/

namespace Rurge

namespace Config

/-! ### Diagnostics -/

inductive Severity
  | Warning
  | Error
  deriving DecidableEq

/-- The codes that reading a profile's text and expanding its includes report. -/
inductive Code
  | E_INCLUDE_NOT_FOUND
  | E_REQUIREMENT_SYNTAX
  | E_INCLUDE_CYCLE
  | W_REMOTE_INCLUDE_NOT_READ
  | W_INVALID_VALUE
  | W_UNKNOWN_DIRECTIVE
  | W_LINE_OUTSIDE_SECTION
  | W_INCLUDE_SECTION_MISSING
  | W_RESOURCE_UNAVAILABLE
  | W_REMOTE_LOCAL_ACCESS
  deriving DecidableEq

/-- What a code says to do where a diagnostic does not say it itself. -/
def Code.hint : Code → Option String
  | .E_INCLUDE_NOT_FOUND => some <|
      "check that the file named after `#!include` exists and can be " ++
      "read as text; a relative path starts at the main profile's directory"
  | .E_REQUIREMENT_SYNTAX => some <|
      "write the condition as the Surge manual does, for example " ++
      "`#!REQUIREMENT CORE_VERSION>=22`"
  | .E_INCLUDE_CYCLE => some <|
      "simplify the `#!include` lines: a file cannot include itself, directly " ++
      "or through other files, and both the nesting and the number of files are limited"
  | .W_UNKNOWN_DIRECTIVE => some "check the directive's spelling against the Surge manual"
  | .W_LINE_OUTSIDE_SECTION => some "move the line under a `[Section]` header"
  | .W_INCLUDE_SECTION_MISSING => some <|
      "move the `#!include` line to a section the file has, or add " ++
      "that section to the file"
  | _ => none

/-- Location of a profile line. -/
structure Span where
  file : Str
  line : ℕ
  deriving DecidableEq

/-- One problem found while loading a profile. -/
structure Diagnostic where
  severity : Severity
  code : Code
  message : Str
  span : Option Span
  hint : Option String
  deriving DecidableEq

namespace Diagnostic

def error (code : Code) (message : Str) : Diagnostic := ⟨.Error, code, message, none, code.hint⟩

def warning (code : Code) (message : Str) : Diagnostic := ⟨.Warning, code, message, none, code.hint⟩

/-- The diagnostic at a line. -/
def at_ (d : Diagnostic) (span : Span) : Diagnostic := { d with span := some span }

def with_hint (d : Diagnostic) (hint : String) : Diagnostic := { d with hint := some hint }

end Diagnostic

/-! ### Origins -/

/-- What the text a line stands in may make the program do on this machine. -/
inductive Reach
  | Anywhere
  | ManagedCopy
  | Nowhere
  deriving DecidableEq

/-- What is said of a line that asks for more than its text may: the warning and the hint. -/
structure Refusal where
  message : String
  hint : String
  deriving DecidableEq

/-- What is said when text of this reach includes a local file, if it may not. -/
def Reach.include_refusal : Reach → Option Refusal
  | .Anywhere => none
  | .ManagedCopy => some
      { message := "the downloaded copy of a managed profile cannot include a local file; the " ++
          "line is ignored"
        hint := "to include a local file, load a profile without `#!MANAGED-CONFIG` that takes " ++
          "the downloaded parts in by `#!include`" }
  | .Nowhere => some
      { message := "a downloaded file cannot include a local file; the line is ignored"
        hint := "include the local file from the local profile instead" }

/-- Where a line comes from: the main text, a local file, a module, or downloaded text and the file
that holds it. -/
inductive Origin
  | Main
  | Include (file : Str)
  | Module (name : Str)
  | Remote (file : Str)
  | Managed (file : Str)
  deriving DecidableEq

/-- What a line of this origin may make the program do on this machine. -/
def Origin.reach : Origin → Reach
  | .Main => .Anywhere
  | .Include _ => .Anywhere
  | .Managed _ => .ManagedCopy
  | .Module _ => .Nowhere
  | .Remote _ => .Nowhere

/-! ### Profiles -/

inductive SectionKind
  | KeyValue
  | Ordered
  | Unknown
  deriving DecidableEq

/-- A line of a section, without its inline comment and its requirement directive. -/
structure Entry where
  raw : Str
  span : Span
  origin : Origin
  requirement : Option Str
  disabled : Bool
  deriving DecidableEq

structure Section where
  name : Str
  kind : SectionKind
  span : Span
  entries : List Entry
  deriving DecidableEq

structure Directive where
  raw : Str
  span : Span
  deriving DecidableEq

structure Profile where
  main : Option Str
  header : List Directive
  sections : List Section
  deriving DecidableEq

/-- The first of the sections with this name, whatever the case of its letters. -/
def find_section (name : Str) (sections : List Section) : Option Section :=
  sections.find? fun s => Str.eqIgnoreAsciiCase s.name name

/-! ### Lines -/

/-- A line is a comment if it starts with `#` (not `#!`), `;`, or `//` (not `//!`). -/
def is_comment : Str → Bool
  | '#' :: '!' :: _ => false
  | '#' :: _ => true
  | ';' :: _ => true
  | '/' :: '/' :: '!' :: _ => false
  | '/' :: '/' :: _ => true
  | _ => false

/-- `u8::is_ascii_whitespace`. -/
def is_ascii_whitespace (c : Char) : Bool :=
  c = ' ' || c = '\t' || c = '\n' || c = '\x0c' || c = '\r'

/-- How much of a line stands before its inline comment, if it has one, which starts as a comment
line does: `blank` says whether a blank stands before the rest, and `in_quotes` whether the rest is
in double quotes. -/
def inline_comment (blank in_quotes : Bool) (i : ℕ) : Str → Option ℕ
  | [] => none
  | c :: rest =>
    if in_quotes then
      if c = '\\' then
        match rest with
        | [] => none
        | next :: rest => inline_comment (is_ascii_whitespace next) true (i + 2) rest
      else inline_comment (is_ascii_whitespace c) (c ≠ '"') (i + 1) rest
    else if c = '"' then inline_comment false true (i + 1) rest
    else if blank ∧ is_comment (c :: rest) then some i
    else inline_comment (is_ascii_whitespace c) false (i + 1) rest

/-- `str::trim_end`. -/
def trim_end (s : Str) : Str := s.rdropWhile Str.isWhiteSpace

/-- A line without its inline comment. -/
def strip_inline_comment (line : Str) : Str :=
  match inline_comment false false 0 line with
  | some i => trim_end (line.take i)
  | none => line

/-- The name in a `[name]` line. -/
def section_header (line : Str) : Option Str := do
  let inner ← Str.stripPrefix ['['] line
  let inner ← Str.stripSuffix [']'] inner
  let inner := Str.trim inner
  if inner = [] then none else some inner

/-- A byte of a directive's name. -/
def directive_byte (c : Char) : Bool := c.isAlphanum || c = '-' || c = '_'

/-- The name of a `#!` line. -/
def directive_name (line : Str) : Str :=
  match Str.stripPrefix "#!".toList line with
  | none => []
  | some rest => line.take (2 + (rest.takeWhile directive_byte).length)

/-- What a diagnostic says of a `#!` line it ignores. -/
def unknown_directive (line : Str) : Str :=
  let name := directive_name line
  if name.length - 2 ≤ 32 then "unknown directive ignored: ".toList ++ name
  else "unknown directive ignored".toList

/-! ### Requirements -/

/-- The simplified tags and the expressions they stand for. -/
def SIMPLIFIED : List (Str × Str) :=
  [("IOS-ONLY".toList, "SYSTEM == 'iOS'".toList),
    ("LINUX-ONLY".toList, "SYSTEM == 'Linux'".toList),
    ("MACOS-ONLY".toList, "SYSTEM == 'macOS'".toList),
    ("TVOS-ONLY".toList, "SYSTEM == 'tvOS'".toList),
    ("WINDOWS-ONLY".toList, "SYSTEM == 'Windows'".toList)]

/-- Whether a line starts with a requirement directive. -/
def is_requirement_prefix (line : Str) : Bool :=
  match Str.stripPrefix "#!".toList line with
  | none => false
  | some rest => "REQUIREMENT".toList.isPrefixOf rest || SIMPLIFIED.any (·.1.isPrefixOf rest)

/-- The expression at the start of what follows `#!REQUIREMENT`, and what follows it. -/
def take_expr (rest : Str) : Except Str (Str × Str) :=
  match rest.dropWhile Str.isWhiteSpace with
  | [] => .error "missing requirement expression".toList
  | '"' :: inner =>
    if '"' ∈ inner then .ok (inner.takeWhile (· ≠ '"'), (inner.dropWhile (· ≠ '"')).tail)
    else .error "unterminated quoted requirement".toList
  | rest => .ok (rest.takeWhile (!Str.isWhiteSpace ·), rest.dropWhile (!Str.isWhiteSpace ·))

/-- The last place from `i` on where the marker stands outside double quotes, a blank before it. -/
def find_suffix_marker (marker : Str) (blank in_quotes : Bool) (i : ℕ) (found : Option ℕ) :
    Str → Option ℕ
  | [] => found
  | c :: rest =>
    if in_quotes then
      if c = '\\' then
        match rest with
        | [] => found
        | next :: rest =>
          find_suffix_marker marker (is_ascii_whitespace next) true (i + 2) found rest
      else find_suffix_marker marker (is_ascii_whitespace c) (c ≠ '"') (i + 1) found rest
    else if c = '"' then find_suffix_marker marker false true (i + 1) found rest
    else
      find_suffix_marker marker (is_ascii_whitespace c) false (i + 1)
        (if blank ∧ marker.isPrefixOf (c :: rest) then some i else found) rest

/-- The simplified tag a line starts with: its expression, and the line after it. -/
def leading_tag (line : Str) : Option (Str × Str) :=
  SIMPLIFIED.findSome? fun (tag, expr) =>
    match Str.stripPrefix ("#!".toList ++ tag) line with
    | some rest => if rest.head?.all Str.isWhiteSpace then some (expr, Str.trim rest) else none
    | none => none

/-- The requirement a line ends in: its expression, and the line before it. -/
def trailing_requirement (line : Str) : Option (Except Str (Str × Str)) :=
  ["#!REQUIREMENT".toList, "//!REQUIREMENT".toList].findSome? fun marker =>
    (find_suffix_marker marker false false 0 none line).map fun pos =>
      let expr := Str.trim (line.drop (pos + marker.length))
      if expr = [] then .error "missing requirement expression".toList
      else
        let inner := (Str.stripPrefix ['"'] expr).bind (Str.stripSuffix ['"'])
        .ok (inner.getD expr, Str.trim (line.take pos))

/-- The simplified tag a line ends in: its expression, and the line before it. -/
def trailing_tag (line : Str) : Option (Str × Str) :=
  SIMPLIFIED.findSome? fun (tag, expr) =>
    ["#!".toList, "//!".toList].findSome? fun start =>
      match Str.stripSuffix (start ++ tag) line with
      | some body =>
        if body.getLast?.any Str.isWhiteSpace then some (expr, Str.trim body) else none
      | none => none

/-- A line split into its requirement and its content. -/
def split_line (line : Str) : Except Str (Option Str × Str) :=
  let line := Str.trim line
  match Str.stripPrefix "#!REQUIREMENT".toList line with
  | some rest => (take_expr rest).map fun (expr, content) => (some expr, Str.trim content)
  | none =>
    match leading_tag line with
    | some (expr, content) => .ok (some expr, content)
    | none =>
      match trailing_requirement line with
      | some split => split.map fun (expr, content) => (some expr, content)
      | none =>
        match trailing_tag line with
        | some (expr, content) => .ok (some expr, content)
        | none => .ok (none, line)

/-! ### Sections -/

/-- The names of the sections of `key = value` lines. -/
def KEY_VALUE_SECTIONS : List Str :=
  ["General", "Proxy", "Proxy Group", "MITM", "Keystore", "Ponte", "Testing", "DHCP",
    "Snell Server", "MTProto", "Replica"].map String.toList

/-- The names of the sections whose lines are in order. -/
def ORDERED_SECTIONS : List Str :=
  ["Rule", "Host", "URL Rewrite", "Header Rewrite", "Body Rewrite", "Map Local", "Panel",
    "Port Forwarding", "IP Rewrite", "Script", "SSID Setting"].map String.toList

def section_kind (name : Str) : SectionKind :=
  if KEY_VALUE_SECTIONS.any (Str.eqIgnoreAsciiCase · name) ||
      Value.starts_with_ci name "WireGuard ".toList ||
      Value.starts_with_ci name "Tailscale ".toList then .KeyValue
  else if ORDERED_SECTIONS.any (Str.eqIgnoreAsciiCase · name) ||
      Value.starts_with_ci name "Ruleset ".toList then .Ordered
  else .Unknown

/-- What has been read of a text: the header, the sections before the current one, the current one,
and what is reported. -/
structure Read where
  header : List Directive
  sections : List Section
  current : Option Section
  diags : List Diagnostic

/-- One line read. -/
def read_line (file : Str) (origin : Origin) (st : Read) (number : ℕ) (line : Str) : Read :=
  let span : Span := ⟨file, number⟩
  let trimmed := Str.trim (Str.trimEndMatches '\r' line)
  if trimmed = [] then st
  else
    match section_header trimmed with
    | some name =>
      { st with
        sections := st.sections ++ st.current.toList
        current := some ⟨name, section_kind name, span, []⟩ }
    | none =>
      if "#!".toList.isPrefixOf trimmed ∧ "#!include".toList.isPrefixOf trimmed = false ∧
          is_requirement_prefix trimmed = false then
        match st.current with
        | none => { st with header := st.header ++ [⟨trimmed, span⟩] }
        | some _ =>
          { st with
            diags := st.diags ++
              [(Diagnostic.warning .W_UNKNOWN_DIRECTIVE (unknown_directive trimmed)).at_ span] }
      else if is_comment trimmed then st
      else
        match st.current with
        | none =>
          { st with
            diags := st.diags ++ [(Diagnostic.warning .W_LINE_OUTSIDE_SECTION
              "line outside of any section is ignored".toList).at_ span] }
        | some section_ =>
          match split_line (strip_inline_comment trimmed) with
          | .ok (requirement, body) =>
            if body = [] then st
            else
              { st with
                current := some { section_ with
                  entries := section_.entries ++ [⟨body, span, origin, requirement, false⟩] } }
          | .error e =>
            { st with
              diags := st.diags ++ [(Diagnostic.error .E_REQUIREMENT_SYNTAX e).at_ span] }

/-- The lines of a text read one after another, the next one being line `number`. -/
def read_lines (file : Str) (origin : Origin) (st : Read) (number : ℕ) : List Str → Read
  | [] => st
  | line :: rest => read_lines file origin (read_line file origin st number line) (number + 1) rest

/-- `str::lines`; the line ends of a line are trimmed off with its other blanks. -/
def lines (text : Str) : List Str :=
  let pieces := text.splitOn '\n'
  if pieces.getLast? = some [] then pieces.dropLast else pieces

/-- A profile's text read, and what is reported of it. -/
def parse_str (text file : Str) (origin : Origin) : Profile × List Diagnostic :=
  let text := (Str.stripPrefix ['\ufeff'] text).getD text
  let st := read_lines file origin ⟨[], [], none, []⟩ 1 (lines text)
  (⟨some file, st.header, st.sections ++ st.current.toList⟩, st.diags)

/-! ### What reading keeps -/

/-- The codes that reading a text reports; the others are reported of includes. -/
def Code.of_text : Code → Bool
  | .W_UNKNOWN_DIRECTIVE => true
  | .W_LINE_OUTSIDE_SECTION => true
  | .E_REQUIREMENT_SYNTAX => true
  | _ => false

/-- Every entry read so far has the origin of its text, and what is reported is about the text. -/
structure Read.Ok (origin : Origin) (st : Read) : Prop where
  origin : ∀ s ∈ st.sections ++ st.current.toList, ∀ e ∈ s.entries, e.origin = origin
  codes : ∀ d ∈ st.diags, d.code.of_text = true

variable {file : Str} {origin : Origin} {st : Read}

theorem Read.Ok.report (h : st.Ok origin) {d : Diagnostic} (hd : d.code.of_text = true) :
    Read.Ok origin { st with diags := st.diags ++ [d] } := by
  refine ⟨h.origin, fun d' hd' => ?_⟩
  rcases List.mem_append.1 hd' with hd' | hd'
  · exact h.codes d' hd'
  · rw [List.mem_singleton.1 hd']
    exact hd

theorem Read.Ok.line (h : st.Ok origin) (number : ℕ) (line : Str) :
    (read_line file origin st number line).Ok origin := by
  obtain ⟨header, sections, current, diags⟩ := st
  unfold read_line
  simp only
  generalize Str.trim (Str.trimEndMatches '\r' line) = trimmed
  by_cases hempty : trimmed = []
  · rw [if_pos hempty]
    exact h
  rw [if_neg hempty]
  cases section_header trimmed with
  | some name =>
    refine ⟨fun s hs => ?_, h.codes⟩
    rcases List.mem_append.1 hs with hs | hs
    · exact h.origin s hs
    · obtain rfl := Option.some_inj.1 (Option.mem_toList.1 hs)
      simp
  | none =>
    simp only
    split_ifs with hdirective hcomment
    · cases current with
      | none => exact ⟨h.origin, h.codes⟩
      | some section_ =>
        refine h.report ?_
        rfl
    · exact h
    · cases current with
      | none =>
        refine h.report ?_
        rfl
      | some section_ =>
        simp only
        cases split_line (strip_inline_comment trimmed) with
        | error e =>
          refine h.report ?_
          rfl
        | ok split =>
          simp only
          split_ifs with hbody
          · exact h
          · refine ⟨fun s hs e he => ?_, h.codes⟩
            rcases List.mem_append.1 hs with hs | hs
            · exact h.origin s (List.mem_append_left _ hs) e he
            · obtain rfl := Option.some_inj.1 (Option.mem_toList.1 hs)
              rcases List.mem_append.1 he with he | he
              · exact h.origin section_ (by simp) e he
              · rw [List.mem_singleton.1 he]

theorem Read.Ok.lines (h : st.Ok origin) (number : ℕ) (lines : List Str) :
    (read_lines file origin st number lines).Ok origin := by
  induction lines generalizing st number with
  | nil => exact h
  | cons line rest ih => exact ih (h.line number line) (number + 1)

/-- Every entry of a text has the origin it is read with. -/
theorem parse_str_origin (text file : Str) (origin : Origin) :
    ∀ s ∈ (parse_str text file origin).1.sections, ∀ e ∈ s.entries, e.origin = origin :=
  (Read.Ok.lines ⟨by simp, by simp⟩ 1 _).origin

end Config

end Rurge
