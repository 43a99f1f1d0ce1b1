import Rurge.Config.Profile

/-!
# The line of a managed profile

The `#!MANAGED-CONFIG` line of a header that is in force (`rurge_config::managed`).  What parses an
address is a parameter.
-/

namespace Rurge

namespace Config

/-- Parsed URLs. -/
structure Urls (Url : Type*) where
  parse : Str → Option Url
  scheme : Url → Str
  without_fragment : Url → Url

/-- How often a remote file is updated when its own text does not say. -/
def DEFAULT_INTERVAL : ℕ := 86400

/-- The shortest interval a managed profile is updated at. -/
def SHORTEST_INTERVAL : ℕ := 60

/-- The largest `u64`. -/
def U64_MAX : ℕ := 2 ^ 64 - 1

/-- `str::split_whitespace`. -/
def split_whitespace (s : Str) : List Str := (s.splitOnP Str.isWhiteSpace).filter (· ≠ [])

variable {Url : Type*} (urls : Urls Url)

/-- The address a `#!MANAGED-CONFIG` line names: an http(s) link. -/
def http_address (text : Str) : Option Url :=
  (urls.parse text).bind fun url =>
    if urls.scheme url = "http".toList ∨ urls.scheme url = "https".toList then
      some (urls.without_fragment url)
    else none

namespace Managed

structure ManagedConfig where
  url : Str
  interval : ℕ
  strict : Bool
  deriving DecidableEq

/-- A `#!MANAGED-CONFIG` line that is in force. -/
structure Line (Url : Type*) where
  config : ManagedConfig
  address : Url
  span : Span
  deriving DecidableEq

/-! ### The line in force -/

/-- What a diagnostic says of a parameter it does not know. -/
def describe (parameter : Str) : Str :=
  match Str.splitOnce '=' parameter with
  | some (name, _) =>
    if 1 ≤ Str.byteLen name ∧ Str.byteLen name ≤ 32 ∧
        name.all fun c => c.isLower || c == '-' then
      '`' :: name ++ ['`']
    else "(not written as a lower-case `name=value`)".toList
  | none => "(not written as a lower-case `name=value`)".toList

/-- The value of `interval` or `strict` in a diagnostic, when it can be what somebody wrote. -/
def quoted (value : Str) (plain : Char → Bool) : Str :=
  if 1 ≤ Str.byteLen value ∧ Str.byteLen value ≤ 20 ∧ value.all plain then
    " `".toList ++ value ++ ['`']
  else []

def parse_bool (s : Str) : Option Bool :=
  let s := Str.toAsciiLowercase (Str.trim s)
  if s ∈ ["true".toList, "1".toList, "yes".toList] then some true
  else if s ∈ ["false".toList, "0".toList, "no".toList] then some false
  else none

/-- What reading a header's lines says at one of them. -/
def invalid (span : Span) (message : Str) : Diagnostic :=
  (Diagnostic.warning .W_INVALID_VALUE message).at_ span

/-- One parameter of a line. -/
def parameter (span : Span) (s : ManagedConfig × List Diagnostic) (p : Str) :
    ManagedConfig × List Diagnostic :=
  let (cfg, diags) := s
  match Str.splitOnce '=' p with
  | some (name, v) =>
    if name = "interval".toList then
      match Str.parseUnsigned U64_MAX v with
      | some 0 => (cfg, diags)
      | some s =>
        if s < SHORTEST_INTERVAL then
          ({ cfg with interval := SHORTEST_INTERVAL },
            diags ++ [invalid span "interval below 60 seconds; 60 is used".toList])
        else ({ cfg with interval := s }, diags)
      | none =>
        (cfg, diags ++ [invalid span ("invalid interval".toList ++ quoted v Char.isDigit)])
    else if name = "strict".toList then
      match parse_bool v with
      | some b => ({ cfg with strict := b }, diags)
      | none => (cfg, diags ++ [invalid span ("invalid strict".toList ++ quoted v Char.isAlpha)])
    else
      (cfg, diags ++ [invalid span ("unknown MANAGED-CONFIG parameter ".toList ++ describe p)])
  | none =>
    (cfg, diags ++ [invalid span ("unknown MANAGED-CONFIG parameter ".toList ++ describe p)])

/-- One directive of a header. -/
def directive (s : Option (Line Url) × List Diagnostic) (d : Directive) :
    Option (Line Url) × List Diagnostic :=
  let (found, diags) := s
  match Str.stripPrefix "#!MANAGED-CONFIG".toList d.raw with
  | some rest =>
    match split_whitespace rest with
    | [] =>
      (found, diags ++ [invalid d.span "#!MANAGED-CONFIG without a URL is ignored".toList])
    | url :: parts =>
      match http_address urls url with
      | none =>
        (found, diags ++ [invalid d.span
          "the #!MANAGED-CONFIG URL is not an http(s) URL; the line is ignored".toList])
      | some address =>
        let s := parts.foldl (parameter d.span) (⟨url, DEFAULT_INTERVAL, false⟩, diags)
        (some ⟨s.1, address, d.span⟩, s.2)
  | none =>
    if "#!FORBIDDEN-AUTO-UPGRADE".toList.isPrefixOf d.raw then (found, diags)
    else
      (found, diags ++
        [(Diagnostic.warning .W_UNKNOWN_DIRECTIVE (unknown_directive d.raw)).at_ d.span])

/-- The line of a header that is in force, the last one that names an address. -/
def find (header : List Directive) (diags : List Diagnostic) :
    Option (Line Url) × List Diagnostic :=
  header.foldl (directive urls) (none, diags)

def parse_managed (header : List Directive) (diags : List Diagnostic) :
    Option ManagedConfig × List Diagnostic :=
  let found := find urls header diags
  (found.1.map Line.config, found.2)

end Managed

end Config

end Rurge
