import Rurge.Config.Include

/-!
# Which text of a managed profile is in effect

The walk along the downloaded copies, and the choice between them and the local file
(`rurge_config::managed`).  Times are read of one clock.
-/

namespace Rurge

namespace Config

namespace Managed

/-- How many times the walk along the copies follows a line to another address. -/
def MOST_CHANGES : ℕ := 8

/-! ### The walk along the copies -/

/-- What a source has for an address: a text, the file it is kept in and when it was fetched, or
nothing and why. -/
inductive Remote
  | Text (text path : Str) (fetched_at : ℤ)
  | Missing (why : Option Str)
  deriving DecidableEq

/-- A downloaded copy, read. -/
structure Downloaded where
  profile : Profile
  diagnostics : List Diagnostic
  file : Str
  deriving DecidableEq

/-- An address the walk was at, and the file of its copy. -/
structure Stop (Url : Type*) where
  address : Url
  file : Option Str
  deriving DecidableEq

/-- How the walk ended. -/
inductive End
  | NotFound (why : Option Str)
  | Found
  | NoLine
  | NoWayOut
  deriving DecidableEq

/-- A copy the walk found, with its own line. -/
structure Held (Url : Type*) where
  copy : Downloaded
  line : Option (Line Url)
  deriving DecidableEq

/-- What the walk came to; `asked` are the addresses the source was asked for. -/
structure Walk (Url : Type*) where
  stops : List (Stop Url)
  last : Option (Held Url)
  newest : Option ℤ
  asked : List Url
  deriving DecidableEq

/-- A text as the copy of an address. -/
def read_copy (text path : Str) : Downloaded :=
  let read := parse_str text path (.Managed path)
  ⟨read.1, read.2, path⟩

section

variable {Url : Type*} [DecidableEq Url] (urls : Urls Url) (source : Url → Remote)

/-- The line of a copy that is in force. -/
def line_of (copy : Downloaded) : Option (Line Url) := (find urls copy.profile.header []).1

/-- The walk so far, with a copy of the address it is at. -/
def Walk.found (w : Walk Url) (at_ : Url) (text path : Str) (fetched_at : ℤ) : Walk Url where
  stops := w.stops ++ [⟨at_, some path⟩]
  last := some ⟨read_copy text path, line_of urls (read_copy text path)⟩
  newest := some (w.newest.elim fetched_at (max · fetched_at))
  asked := w.asked ++ [at_]

/-- The walk so far, with no copy of the address it is at. -/
def Walk.missed (w : Walk Url) (at_ : Url) : Walk Url where
  stops := w.stops ++ [⟨at_, none⟩]
  last := w.last
  newest := w.newest
  asked := w.asked ++ [at_]

/-- The walk from an address on. -/
def walk_from (w : Walk Url) (at_ : Url) : Walk Url × End :=
  match source at_ with
  | .Missing why => (w.missed at_, .NotFound why)
  | .Text text path fetched_at =>
    let w' := w.found urls at_ text path fetched_at
    match (line_of urls (read_copy text path)).map Line.address with
    | none => (w', .NoLine)
    | some next =>
      if next = at_ then (w', .Found)
      else if _h : MOST_CHANGES < w'.stops.length ∨ w'.stops.any (·.address == next) then
        (w', .NoWayOut)
      else walk_from w' next
termination_by MOST_CHANGES - w.stops.length
decreasing_by
  have hlength : w'.stops.length = w.stops.length + 1 := by simp [w', Walk.found]
  rw [not_or, Nat.not_lt] at _h
  rw [Walk.found, List.length_append, List.length_singleton]
  omega

/-- The walk along the copies from `start`. -/
def walk (start : Url) : Walk Url × End := walk_from urls source ⟨[], none, none, []⟩ start

end

/-! ### The choice -/

/-- The codes of what is said of a choice: one information and two warnings. -/
inductive Code
  | I_MANAGED_SOURCE
  | W_RESOURCE_UNAVAILABLE
  | W_MANAGED_NOT_UPDATED
  deriving DecidableEq

/-- What is said of a choice, at the line of the local file. -/
structure Notice where
  code : Code
  message : Str
  hint : Option Str
  span : Span
  deriving DecidableEq

/-- What a load goes on with: the copy that is in effect, `none` when the local file is, and the
remote files the walk was at. -/
structure Choice (Url : Type*) where
  copy : Option Downloaded
  remote : List (RemoteRef Url)
  diagnostics : List Notice

section

variable {Url : Type*}

/-- Whether the local file is in effect, changed at `modified` if that can be told. -/
def local_in_effect (has_section : Bool) (modified : Option ℤ) (now : ℤ) (w : Walk Url) : Bool :=
  w.last.isNone || has_section &&
    (modified.bind fun m => w.newest.map fun newest => decide (newest < m) && decide (m ≤ now)) ==
      some true

/-- What is said of the choice. -/
def said (span : Span) (in_effect : Bool) (w : Walk Url) (end_ : End) : List Notice :=
  let missing := match end_ with
    | .NotFound why =>
      [⟨.W_RESOURCE_UNAVAILABLE, "managed profile not downloaded yet".toList ++
        why.elim [] (": ".toList ++ ·), none, span⟩]
    | _ => []
  let chosen := match w.last with
    | none => []
    | some held =>
      if in_effect then
        [⟨.I_MANAGED_SOURCE, ("managed profile: the local file was changed after the last " ++
          "update; it is in effect until the next one").toList, none, span⟩]
      else
        let effect : List Notice :=
          [⟨.I_MANAGED_SOURCE, "managed profile: the downloaded copy is in effect (`".toList ++
            held.copy.file ++ "`)".toList, none, span⟩]
        let elsewhere : List Notice := match w.stops with
          | ⟨_, some first⟩ :: _ :: _ =>
            [⟨.I_MANAGED_SOURCE, ("managed profile: the address in the local file leads to " ++
              "another one (see the #!MANAGED-CONFIG line of `").toList ++ first ++
              "`); the local file still names the old address".toList, none, span⟩]
          | _ => []
        let over_ : List Notice := match end_ with
          | .NoLine =>
            [⟨.W_MANAGED_NOT_UPDATED, ("the downloaded managed profile has no " ++
              "#!MANAGED-CONFIG line; it is no longer updated").toList,
              some ("to keep it updated, the profile the address serves has to carry a " ++
                "#!MANAGED-CONFIG line").toList, span⟩]
          | .NoWayOut =>
            [⟨.W_MANAGED_NOT_UPDATED, ("the #!MANAGED-CONFIG lines of the downloaded profiles " ++
              "lead through too many addresses; the last copy found is in effect").toList,
              some ("write the address the profile is finally served from into the " ++
                "#!MANAGED-CONFIG line of the local file").toList, span⟩]
          | _ => []
        effect ++ elsewhere ++ over_
  missing ++ chosen

/-- A stop as a remote file, the one the profile is updated from or one on the way. -/
def Stop.ref (stop : Stop Url) (managed : Bool) (interval : ℕ) (strict : Bool) : RemoteRef Url where
  url := stop.address
  role := if managed then .Managed else .ManagedHop
  path := stop.file
  interval := if managed then interval else DEFAULT_INTERVAL
  strict := managed && strict
  lacks_section := false

/-- The text of the managed profile that `line`, the line of the local file, names. -/
def choose [DecidableEq Url] (urls : Urls Url) (source : Url → Remote) (line : Line Url)
    (has_section : Bool) (modified : Option ℤ) (now : ℤ) : Choice Url :=
  let (w, end_) := walk urls source line.address
  let in_effect := local_in_effect has_section modified now w
  let updated := in_effect || end_ != .NoLine
  let held := if in_effect then none else w.last
  let from_ := (held.bind Held.line).getD line
  { copy := held.map Held.copy
    remote := w.stops.mapIdx fun at_ stop =>
      stop.ref (updated && at_ + 1 == w.stops.length) from_.config.interval from_.config.strict
    diagnostics := said line.span in_effect w end_ }

end

end Managed

end Config

end Rurge
