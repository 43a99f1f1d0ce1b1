import Rurge.Config.ManagedLine

/-!
# Expanding includes

`#!include` lines replaced by what they name (`rurge_config::text::include`): a local file is read
from disk, and the text of a remote include is asked of a source that answers from what was
downloaded earlier.  A text is expanded inside the texts that took it in, and what the expansion
asks of the file system and of the source is noted in the order it does.
-/

namespace Rurge

namespace Config

/-! ### What an expansion works with -/

/-- What the file system has for a path: where it really is, if it resolves, and its text or why it
cannot be read. -/
structure FileSystem where
  canonicalize : Str → Option Str
  read_to_string : Str → Except Str Str

/-- What a source has for a URL: the text and the file it is kept in, or nothing and why. -/
inductive Remote
  | Text (text path : Str)
  | Missing (why : Option Str)
  deriving DecidableEq

structure IncludeOptions where
  base_dir : Str
  max_depth : ℕ
  max_files : ℕ

/-- What one expansion is given. -/
structure Setup (Url : Type*) where
  opts : IncludeOptions
  fs : FileSystem
  urls : Urls Url
  remote : Option (Url → Remote)

/-- What a remote file is for. -/
inductive RemoteRole
  | Managed
  | ManagedHop
  | Include
  deriving DecidableEq

/-- A remote file one load came across. -/
structure RemoteRef (Url : Type*) where
  url : Url
  role : RemoteRole
  path : Option Str
  interval : ℕ
  strict : Bool
  lacks_section : Bool

/-- The components of a path: two paths are equal where these are. -/
def components (path : Str) : List Str :=
  let parts := path.splitOn '/'
  let start := match parts with
    | [] => []
    | first :: _ => if path.head? = some '/' then [['/']] else if first = ['.'] then [['.']] else []
  start ++ parts.filter fun part => part ≠ [] ∧ part ≠ ['.']

/-- `Path::join`. -/
def join (base target : Str) : Str :=
  if target.head? = some '/' then target
  else if base = [] ∨ base.getLast? = some '/' then base ++ target
  else base ++ '/' :: target

/-- What the expansion is inside of: a file by its canonical path, a downloaded text by its URL. -/
inductive Visiting (Url : Type*)
  | File (path : List Str)
  | Remote (url : Url)
  deriving DecidableEq

/-- What an expansion asks, and when it is inside which text. -/
inductive Event (Url : Type*)
  | looked (path : Str)
  | opened (path : Str)
  | asked (url : Url)
  | entered (key : Visiting Url)
  | left_ (key : Visiting Url)

/-- The state of an expansion: what it reported, what it is inside of, how many targets it expanded,
the remote files it came across and what the source said of them, and what it asked. -/
structure State (Url : Type*) where
  diags : List Diagnostic
  stack : List (Visiting Url)
  count : ℕ
  refs : List (RemoteRef Url)
  answers : List (Url × Remote)
  trace : List (Event Url)

/-- The text one target named, with its own includes expanded. -/
structure Included where
  profile : Profile
  file : Str
  tracked : Option ℕ
  sectionless : Bool

namespace State

variable {Url : Type*}

def report (st : State Url) (d : Diagnostic) : State Url := { st with diags := st.diags ++ [d] }

def extend (st : State Url) (ds : List Diagnostic) : State Url :=
  { st with diags := st.diags ++ ds }

def note (st : State Url) (e : Event Url) : State Url := { st with trace := st.trace ++ [e] }

def push (st : State Url) (key : Visiting Url) : State Url :=
  { st with stack := key :: st.stack, trace := st.trace ++ [.entered key] }

def pop (st : State Url) (key : Visiting Url) : State Url :=
  { st with stack := st.stack.tail, trace := st.trace ++ [.left_ key] }

/-- The copy at a place lacks a section it is taken for. -/
def lacks (st : State Url) (pos : ℕ) : State Url :=
  { st with refs := st.refs.modify pos fun r => { r with lacks_section := true } }

end State

/-! ### Names of targets and sections -/

def is_url (s : Str) : Bool :=
  let l := Str.toAsciiLowercase s
  "http://".toList.isPrefixOf l || "https://".toList.isPrefixOf l

/-- What stands before the `*` of a wildcard section's name. -/
def wildcard_prefix (section_name : Str) : Option Str :=
  match Str.stripSuffix ['*'] (trim_end section_name) with
  | some start => if start.getLast? = some ' ' then some start else none
  | none => none

/-- The targets of an `#!include` line. -/
def include_targets (raw : Str) : Option (List Str) :=
  (Str.stripPrefix "#!include".toList raw).map Value.split_list

section

variable {Url : Type*} [DecidableEq Url]

/-! ### Taking a text in -/

/-- The place of a URL among the remote files, which is added when it is new. -/
def track (st : State Url) (url : Url) (path : Option Str) (interval : ℕ) : ℕ × State Url :=
  match st.refs.findIdx? fun r => r.url = url with
  | some pos => (pos, st)
  | none =>
    (st.refs.length, { st with refs := st.refs ++ [⟨url, .Include, path, interval, false, false⟩] })

/-- What the source has for a URL, asked once per expansion. -/
def ask (source : Url → Remote) (st : State Url) (url : Url) : Remote × State Url :=
  match st.answers.lookup url with
  | some remote => (remote, st)
  | none =>
    (source url, { st with
      answers := st.answers ++ [(url, source url)]
      trace := st.trace ++ [.asked url] })

/-- A path as it really is. -/
def canonical (fs : FileSystem) (path : Str) (st : State Url) : List Str × State Url :=
  (components ((fs.canonicalize path).getD path), st.note (.looked path))

/-- Whether the include may go on: it does not lead back to where it is in, is not nested too deep
and is not one too many. -/
def admit_target (opts : IncludeOptions) (key : Visiting Url) (shown : Str) (span : Span)
    (depth : ℕ)
    (st : State Url) : Bool × State Url :=
  if key ∈ st.stack then
    let message := match key with
      | .File _ => "include cycle: ".toList ++ shown
      | .Remote _ => "include cycle through a remote include".toList
    (false, st.report ((Diagnostic.error .E_INCLUDE_CYCLE message).at_ span))
  else if opts.max_depth ≤ depth then
    (false, st.report ((Diagnostic.error .E_INCLUDE_CYCLE
      ("include nesting deeper than ".toList ++ Str.decimal opts.max_depth ++ ": ".toList ++
        shown)).at_ span))
  else if opts.max_files ≤ st.count then
    let st := { st with count := st.count + 1 }
    -- only the target that first crosses the limit is reported
    if st.count = opts.max_files + 1 then
      (false, st.report ((Diagnostic.error .E_INCLUDE_CYCLE
        ("include expansion limit of ".toList ++ Str.decimal opts.max_files ++
          " files exceeded".toList)).at_ span))
    else (false, st)
  else (true, { st with count := st.count + 1 })

/-- The path a target names. -/
def target_path (base_dir target : Str) : Str := join base_dir target

/-- A text inside the expansion, its own includes expanded by `nested`. -/
def inside (nested : Profile → State Url → Profile × State Url) (key : Visiting Url)
    (profile : Profile) (st : State Url) : Profile × State Url :=
  let (profile, st) := nested profile (st.push key)
  (profile, st.pop key)

/-- A local file that a line of the user's own text includes. -/
def take_in_local (w : Setup Url) (nested : Profile → State Url → Profile × State Url)
    (target : Str) (span : Span) (depth : ℕ) (st : State Url) : Option Included × State Url :=
  let path := target_path w.opts.base_dir target
  let (real, st) := canonical w.fs path st
  let key := Visiting.File real
  match admit_target w.opts key path span depth st with
  | (false, st) => (none, st)
  | (true, st) =>
    match w.fs.read_to_string path with
    | .error e =>
      (none, (st.note (.opened path)).report ((Diagnostic.error .E_INCLUDE_NOT_FOUND
        ("cannot read include `".toList ++ path ++ "`: ".toList ++ e)).at_ span))
    | .ok text =>
      let (profile, sub_diags) := parse_str text path (.Include path)
      let (expanded, st) := inside nested key profile ((st.note (.opened path)).extend sub_diags)
      (some ⟨expanded, path, none, profile.sections = []⟩, st)

/-- A downloaded text that a line includes by its URL. -/
def take_in_remote (w : Setup Url) (nested : Profile → State Url → Profile × State Url)
    (target : Str) (span : Span) (depth : ℕ) (st : State Url) : Option Included × State Url :=
  match w.urls.parse target with
  | none =>
    (none, st.report ((Diagnostic.warning .W_INVALID_VALUE
      "the target of a remote include is not a valid URL".toList).at_ span))
  | some url =>
    let url := w.urls.without_fragment url
    match w.remote with
    | none =>
      (none, st.report ((Diagnostic.warning .W_REMOTE_INCLUDE_NOT_READ
        "remote include not read: no data directory".toList).at_ span))
    | some source =>
      match admit_target w.opts (.Remote url) "a remote include".toList span depth st with
      | (false, st) => (none, st)
      | (true, st) =>
        match ask source st url with
        | (.Missing why, st) =>
          let message := match why with
            | some why => "remote include not downloaded yet: ".toList ++ why
            | none => "remote include not downloaded yet".toList
          let st := st.report ((Diagnostic.warning .W_RESOURCE_UNAVAILABLE message).at_ span)
          (none, (track st url none DEFAULT_INTERVAL).2)
        | (.Text text path, st) =>
          let (profile, sub_diags) := parse_str text path (.Remote path)
          let interval := ((Managed.parse_managed w.urls profile.header []).1.map
            Managed.ManagedConfig.interval).getD DEFAULT_INTERVAL
          let (pos, st) := track (st.extend sub_diags) url (some path) interval
          let (expanded, st) := inside nested (.Remote url) profile st
          (some ⟨expanded, path, some pos, profile.sections = []⟩, st)

/-- The text a target names, expanded in turn, when the line it is written in, of the given reach,
may take it in. -/
def take_in (w : Setup Url) (nested : Profile → State Url → Profile × State Url) (target : Str)
    (span : Span) (depth : ℕ) (reach : Reach) (st : State Url) : Option Included × State Url :=
  if is_url target then take_in_remote w nested target span depth st
  else
    match reach.include_refusal with
    | some refusal =>
      (none, st.report (((Diagnostic.warning .W_REMOTE_LOCAL_ACCESS
        refusal.message.toList).with_hint refusal.hint).at_ span))
    | none => take_in_local w nested target span depth st

/-! ### Expanding a text -/

/-- What an included text gives a section: entries in the place of the line, or the sections a
wildcard section takes. -/
def place (name : Str) (span : Span) (included : Included) (st : State Url) :
    (List Entry × List Section) × State Url :=
  match wildcard_prefix name with
  | some start =>
    match included.tracked, included.sectionless with
    | some pos, true =>
      (([], []), (st.report (((Diagnostic.warning .W_INCLUDE_SECTION_MISSING
        ("`".toList ++ included.file ++ "` has no section".toList)).with_hint
          "check that the address serves a profile with sections of that kind").at_
          span)).lacks pos)
    | _, _ =>
      (([], included.profile.sections.filter fun s => Value.starts_with_ci s.name start), st)
  | none =>
    match find_section name included.profile.sections with
    | some section_ => ((section_.entries, []), st)
    | none =>
      let missing := (Diagnostic.warning .W_INCLUDE_SECTION_MISSING
        ("`".toList ++ included.file ++ "` has no [".toList ++ name ++ "] section".toList)).at_ span
      match included.tracked with
      | some pos =>
        (([], []), (st.lacks pos).report (missing.with_hint <|
          "check that the address serves a profile with that section, or move the `#!include` " ++
          "line to a section it has"))
      | none => (([], []), st.report missing)

/-- The targets of a line taken in, in the order written. -/
def take_targets (w : Setup Url) (nested : Profile → State Url → Profile × State Url) (depth : ℕ)
    (name : Str) (entry : Entry) :
    List Str → State Url → (List Entry × List Section) × State Url
  | [], st => (([], []), st)
  | target :: rest, st =>
    match take_in w nested target entry.span depth entry.origin.reach st with
    | (none, st) => take_targets w nested depth name entry rest st
    | (some included, st) =>
      let (taken, st) := place name entry.span included st
      let (more, st) := take_targets w nested depth name entry rest st
      ((taken.1 ++ more.1, taken.2 ++ more.2), st)

/-- The entries of a section, each `#!include` line replaced by what it takes in. -/
def take_entries (w : Setup Url) (nested : Profile → State Url → Profile × State Url) (depth : ℕ)
    (name : Str) : List Entry → State Url → (List Entry × List Section) × State Url
  | [], st => (([], []), st)
  | entry :: rest, st =>
    match include_targets entry.raw with
    | none =>
      let (more, st) := take_entries w nested depth name rest st
      ((entry :: more.1, more.2), st)
    | some targets =>
      let (taken, st) := take_targets w nested depth name entry targets st
      let (more, st) := take_entries w nested depth name rest st
      ((taken.1 ++ more.1, taken.2 ++ more.2), st)

/-- The sections of a text with their entries expanded, less the wildcard sections, and the sections
these took. -/
def take_sections (w : Setup Url) (nested : Profile → State Url → Profile × State Url) (depth : ℕ) :
    List Section → State Url → (List Section × List Section) × State Url
  | [], st => (([], []), st)
  | section_ :: rest, st =>
    let (taken, st) := take_entries w nested depth section_.name section_.entries st
    let (more, st) := take_sections w nested depth rest st
    match wildcard_prefix section_.name with
    | some _ => ((more.1, taken.2 ++ more.2), st)
    | none => (({ section_ with entries := taken.1 } :: more.1, taken.2 ++ more.2), st)

/-- The includes of a text at a depth expanded, `nested` expanding the texts it takes in. -/
def expand_with (w : Setup Url) (nested : Profile → State Url → Profile × State Url) (depth : ℕ)
    (profile : Profile) (st : State Url) : Profile × State Url :=
  let (taken, st) := take_sections w nested depth profile.sections st
  ({ profile with sections := taken.1 ++ taken.2 }, st)

/-- The includes of a text expanded, with `left` more levels below it.  Nothing is taken in on the
last one. -/
def expand_levels (w : Setup Url) : ℕ → Profile → State Url → Profile × State Url
  | 0 => expand_with w (fun profile st => (profile, st)) w.opts.max_depth
  | left + 1 => expand_with w (expand_levels w left) (w.opts.max_depth - (left + 1))

/-- The includes of a text at a depth expanded (`Expansion::expand`). -/
def expand_at (w : Setup Url) (depth : ℕ) (profile : Profile) (st : State Url) :
    Profile × State Url :=
  if depth ≤ w.opts.max_depth then expand_levels w (w.opts.max_depth - depth) profile st
  else expand_with w (fun profile st => (profile, st)) depth profile st

/-- The state an expansion of a main text starts in. -/
def start (w : Setup Url) (profile : Profile) : State Url :=
  match profile.main with
  | none => ⟨[], [], 0, [], [], []⟩
  | some main =>
    let (real, st) := canonical w.fs main ⟨[], [], 0, [], [], []⟩
    { st with stack := [.File real] }

/-- The `#!include` lines of a profile expanded, and how the expansion ended. -/
def run (w : Setup Url) (profile : Profile) : Profile × State Url :=
  expand_at w 0 profile (start w profile)

/-- The `#!include` lines of a profile expanded in place, the remote files it came across, and the
diagnostics with those of the expansion. -/
def expand (w : Setup Url) (profile : Profile) (diags : List Diagnostic) :
    Profile × List (RemoteRef Url) × List Diagnostic :=
  let (profile, st) := run w profile
  (profile, st.refs, diags ++ st.diags)

end

end Config

end Rurge
