import Mathlib.Logic.Function.Basic
import Rurge.Text
import Rurge.Lib.Runs

/-!
# The sources of a profile

The registrations of the downloaded sources, the tasks that follow them, and the calls of `changed`.
Whoever holds the lock of the state does what it does with it at once, the wake-up that may come
after it too; the manager publishes versions at any step, and while a registration is made: `Race`
says which.  The entry that the manager has for a source is kept with its registration, the copies
of its versions in order; a load reads the copies that are on the disk at that moment.
-/

namespace Rurge

namespace Sources

/-- A second, in nanoseconds. -/
def QUIET : ℕ := 10 ^ 9

/-- What a remote file is for. -/
inductive RemoteRole
  | Managed
  | ManagedHop
  | Include
  deriving DecidableEq

/-- A copy that was downloaded: which one, and whether it is text. -/
structure Copy where
  number : ℕ
  text : Bool
  deriving DecidableEq

/-- A line of a profile that names a remote file. -/
structure Line (Url : Type*) where
  url : Url
  role : RemoteRole
  interval : ℕ

/-- A remote file a load came across, with the copy whose text it got. -/
structure RemoteRef (Url : Type*) extends Line Url where
  copy : Option Copy

/-- Whether the load got the text. -/
def RemoteRef.found {Url : Type*} (r : RemoteRef Url) : Bool := r.copy.isSome

/-- The lines of a profile, one to each address. -/
structure Profile (Url : Type*) where
  lines : List (Line Url)
  nodup : (lines.map Line.url).Nodup

/-- A registration. `copies` are the manager's versions, `known` is the version that the task which
follows it has come to, and `holds` the one that it has read and not told; `told` is the copy that
was last reported since the address is tracked, and `built` the one the generation read. -/
structure Tracked (Url : Type*) where
  id : ℕ
  url : Url
  role : RemoteRole
  interval : ℕ
  reported : ℕ
  seen : ℕ
  unreported : Bool
  provisional : Bool
  copies : List Copy
  known : ℕ
  holds : Option ℕ
  told : Option Copy
  built : Option Copy

namespace Tracked

variable {Url : Type*} (t : Tracked Url)

/-- The version that is published. -/
def version : ℕ := t.copies.length

/-- The copy that is published as `version`. -/
def copy_of : ℕ → Option Copy
  | 0 => none
  | version + 1 => t.copies[version]?

def pending : Bool := t.seen != t.reported || t.unreported

def leaves_unreported : Bool := t.pending || t.version != t.reported

/-- The task that follows it has a step to make. -/
def busy : Bool := t.holds.isSome || t.known != t.version

end Tracked

/-- The version that the generation naming a source was built from. -/
def built_from (found : Bool) (version : ℕ) : ℕ := if found then min version 1 else 0

/-- What the manager publishes while a source is registered: of the entry before, once it was looked
at and before it is retired; of the new one, before it is subscribed to and before its version is
read. Each version is told by whether it is text. -/
structure Race where
  lost : List Bool
  early : List Bool
  late : List Bool

/-- How far a call of `changed` has got: it is about to subscribe, and to look; it waits, for a move
after the number it subscribed at, and for a time at the latest; it is over. -/
inductive Stage
  | Called
  | Subscribed (moves : ℕ)
  | Waiting (moves : ℕ) (until_ : Option ℕ)
  | Returned
  | Dropped
  deriving DecidableEq

/-- The state, the disk, the calls of `changed`, and what the last load came across. `moves` wakes a
call that waits, and `moves_at` are the times of the moves. -/
structure World (Url : Type*) where
  offline : Bool
  tracked : List (Tracked Url)
  next_id : ℕ
  moved_at : Option ℕ
  kept : List (Url × Bool)
  moves : ℕ
  now : ℕ
  source : List (RemoteRef Url)
  disk : Url → Option Copy
  downloads : ℕ
  calls : List Stage
  moves_at : List ℕ

namespace World

variable {Url : Type*}

def new (offline : Bool) : World Url :=
  ⟨offline, [], 0, none, [], 0, 0, [], fun _ => none, 0, [], []⟩

/-- The wake-up of the calls that wait. -/
def wake (w : World Url) : World Url := { w with moves := w.moves + 1 }

/-- A load reads the profile. -/
def load (w : World Url) (profile : Profile Url) : World Url :=
  { w with
    source := profile.lines.map fun line => ⟨line, (w.disk line.url).filter Copy.text⟩ }

/-- The registration `id` changed. -/
def change (w : World Url) (id : ℕ) (f : Tracked Url → Tracked Url) : World Url :=
  { w with tracked := w.tracked.map fun t : Tracked Url => if t.id = id then f t else t }

/-- The source `id` is at `version` now. -/
def moved_to (w : World Url) (id version : ℕ) : World Url :=
  match w.tracked.find? fun t : Tracked Url => t.id == id with
  | none => w
  | some source =>
    if source.seen = version then w
    else
      { w.change id fun t => { t with seen := version } with
        moved_at := some w.now
        moves_at := w.moves_at ++ [w.now] }.wake

/-- The next step of the task that follows the source `id`: it reads the version, and tells it. -/
def follow (w : World Url) (id : ℕ) : World Url :=
  match w.tracked.find? fun t : Tracked Url => t.id == id with
  | none => w
  | some source =>
    match source.holds with
    | some version => (w.change id fun t => { t with holds := none }).moved_to id version
    | none =>
      if source.known = source.version then w
      else w.change id fun t => { t with known := t.version, holds := some t.version }

/-- What a call of `changed` sees of the state: it returns, or waits. -/
def look (w : World Url) (moves : ℕ) : World Url × Stage :=
  if w.tracked.any Tracked.pending then
    let quiet_until := w.moved_at.elim w.now (· + QUIET)
    if quiet_until ≤ w.now then
      ({ w with
        tracked := w.tracked.map fun t : Tracked Url =>
          { t with
            reported := t.seen
            unreported := false
            told := t.copy_of t.seen <|> t.told } }, .Returned)
    else (w, .Waiting moves (some quiet_until))
  else (w, .Waiting moves none)

/-- Whether a call that waits is woken. -/
def woken (w : World Url) (moves : ℕ) (until_ : Option ℕ) : Bool :=
  w.moves != moves || until_.any fun t => decide (t ≤ w.now)

/-- The next step of a call of `changed`. -/
def changed (w : World Url) (k : ℕ) : World Url :=
  match w.calls[k]? with
  | some .Called => { w with calls := w.calls.set k (.Subscribed w.moves) }
  | some (.Subscribed moves) =>
    let looked := w.look moves
    { looked.1 with calls := looked.1.calls.set k looked.2 }
  | some (.Waiting moves until_) =>
    if w.woken moves until_ then { w with calls := w.calls.set k .Called } else w
  | _ => w

/-- What no load of a verdict named is let go of, of what a verdict registered. -/
def release (w : World Url) (named : Url → Bool) : World Url :=
  { w with tracked := w.tracked.filter fun t : Tracked Url => !(t.provisional && !named t.url) }

section Registering

variable [DecidableEq Url]

/-- A copy of `url` comes onto the disk. -/
def download (w : World Url) (url : Url) (text : Bool) : World Url :=
  { w with
    disk := Function.update w.disk url (some ⟨w.downloads, text⟩)
    downloads := w.downloads + 1 }

/-- The copies that come onto the disk, one after the other, and what there are of them. -/
def downloads_of (w : World Url) (url : Url) : List Bool → World Url × List Copy
  | [] => (w, [])
  | text :: texts =>
    let rest := (w.download url text).downloads_of url texts
    (rest.1, ⟨w.downloads, text⟩ :: rest.2)

/-- The manager publishes a version of `url`, if the source is registered. -/
def publish (w : World Url) (url : Url) (text : Bool) : World Url :=
  if w.tracked.any fun t : Tracked Url => t.url == url then
    { w.download url text with
      tracked := w.tracked.map fun t : Tracked Url =>
        if t.url = url then { t with copies := t.copies ++ [⟨w.downloads, text⟩] } else t }
  else w

/-- A registration of `wanted`: the entry begins with the copy on the disk. -/
def register (w : World Url) (wanted : RemoteRef Url) (race : Race) : World Url × Tracked Url :=
  let early := w.downloads_of wanted.url race.early
  let late := early.1.downloads_of wanted.url race.late
  let subscribed := (w.disk wanted.url).toList ++ early.2
  let copies := subscribed ++ late.2
  ({ late.1 with next_id := w.next_id + 1 },
    { id := w.next_id
      url := wanted.url
      role := wanted.role
      interval := wanted.interval
      reported := built_from wanted.found copies.length
      seen := copies.length
      unreported := false
      provisional := false
      copies := copies
      known := subscribed.length
      holds := none
      told := none
      built := wanted.copy })

/-- One source of a generation in `track`: the registration it had goes on, or is replaced. -/
def track_one (race : Url → Race) (s : World Url × List (Tracked Url) × List (Tracked Url))
    (wanted : RemoteRef Url) : World Url × List (Tracked Url) × List (Tracked Url) :=
  let (w, before, tracked) := s
  let rest := before.eraseP fun t : Tracked Url => t.url == wanted.url
  match before.find? fun t : Tracked Url => t.url == wanted.url with
  | some kept =>
    if kept.role = wanted.role ∧ kept.interval = wanted.interval then
      (w, rest, tracked ++ [{ kept with provisional := false, built := wanted.copy }])
    else
      let retired := (w.downloads_of wanted.url (race wanted.url).lost).1
      let registered := retired.register wanted (race wanted.url)
      (registered.1, rest, tracked ++
        [{ registered.2 with unreported := kept.leaves_unreported, told := kept.told }])
  | none =>
    let registered := w.register wanted (race wanted.url)
    (registered.1, rest, tracked ++ [registered.2])

/-- The sources of a generation are followed. -/
def track (w : World Url) (race : Url → Race) : World Url :=
  let wanted := w.source.filter fun r : RemoteRef Url => r.role != .ManagedHop
  let s := wanted.foldl (track_one race) (w, w.tracked, [])
  let gone := s.2.1.filter fun t : Tracked Url => t.provisional && !w.kept.isEmpty
  let tracked := { s.1 with tracked := s.2.2 ++ gone }
  if tracked.tracked.any Tracked.pending then tracked.wake else tracked

/-- A source is registered for a version that refers to it, unless it is followed. -/
def register_provisional (race : Url → Race) (w : World Url) (wanted : RemoteRef Url) : World Url :=
  if w.tracked.any fun t : Tracked Url => t.url == wanted.url then w
  else
    let registered := w.register wanted (race wanted.url)
    { registered.1 with
      tracked := registered.1.tracked ++ [{ registered.2 with provisional := true }] }

/-- The sources of the last load that nobody has downloaded are followed. -/
def follow_missing (w : World Url) (race : Url → Race) : World Url :=
  if w.offline then w
  else
    (w.source.filter fun r : RemoteRef Url => r.role != .ManagedHop && !r.found).foldl
      (register_provisional race) w

/-- A verdict came across a source that its load got no text of. -/
def awaits_first_attempt (w : World Url) (line : Line Url) (race : Race) : World Url :=
  w.register_provisional (fun _ => race) ⟨line, none⟩

end Registering

end World

/-- What happens: a load, `track` and `follow_missing` after it, a verdict's registrations and
releases and what it keeps, a version published, a step of a task that follows a source, a call of
`changed` made, taking a step or dropped; time goes by. -/
inductive Action (Url : Type*)
  | load (profile : Profile Url)
  | track (race : Url → Race)
  | follow_missing (race : Url → Race)
  | awaits_first_attempt (line : Line Url) (race : Race)
  | release (named : Url → Bool)
  | mirror (kept : List (Url × Bool))
  | publish (url : Url) (text : Bool)
  | follow (id : ℕ)
  | call
  | changed (call : ℕ)
  | drop (call : ℕ)
  | tick (time : ℕ)

namespace World

variable {Url : Type*} [DecidableEq Url]

def step (w : World Url) : Action Url → World Url
  | .load profile => w.load profile
  | .track race => w.track race
  | .follow_missing race => w.follow_missing race
  | .awaits_first_attempt line race => w.awaits_first_attempt line race
  | .release named => w.release named
  | .mirror kept => { w with kept := kept }
  | .publish url text => w.publish url text
  | .follow id => w.follow id
  | .call => { w with calls := w.calls ++ [.Called] }
  | .changed k => w.changed k
  | .drop k => { w with calls := w.calls.modify k fun s => if s = .Returned then s else .Dropped }
  | .tick time => { w with now := w.now + time }

end World

end Sources

end Rurge
