import Rurge.Text
import Rurge.Lib.Assoc
import Mathlib.Data.List.MinMax

/-!
# What the `smart` groups know of sites

How each policy did lately at each site, and whose a failure is: a policy's own, or, where the site
remembers a failure already, the site's.  Times are nanoseconds; the numbers of a score are of any
type that has the operations they take.
-/

namespace Rurge

namespace Smart

/-- How long what happened at a site is remembered. -/
def SITE_MEMORY : ℕ := 60 * 60 * 10 ^ 9

/-- Sites remembered at most. -/
def SITES : ℕ := 4096

/-- Policies remembered of a site at most. -/
def POLICIES_PER_SITE : ℕ := 16

/-! ### The sites -/

/-- How a policy did at a site. -/
structure Outcome where
  policy : Str
  worked : Bool
  at_ : ℕ
  deriving DecidableEq

/-- When the site was last used, and the last outcome of each policy there, oldest first. -/
structure Site where
  used : ℕ
  policies : List Outcome

structure Sites where
  hosts : Assoc Str Site
  clock : ℕ

/-- The policies that worked at a site, and those that failed. -/
structure SiteMemory where
  worked : List Str
  failed : List Str

def fresh (now : ℕ) (o : Outcome) : Bool := decide (now - o.at_ < SITE_MEMORY)

/-- The outcomes of a site with another: the policy's last one makes way, those too old are left
out, and the oldest one where there are too many. -/
def keep (policies : List Outcome) (o : Outcome) : List Outcome :=
  let policies := policies.filter (fun x => decide (x.policy ≠ o.policy) && fresh o.at_ x) ++ [o]
  if POLICIES_PER_SITE < policies.length then policies.tail else policies

namespace Sites

def new : Sites := ⟨∅, 0⟩

/-- Room for a host: the one used least recently goes when there are too many. -/
def make_room (s : Sites) (host : Str) : Assoc Str Site :=
  if s.hosts.lookup host = none ∧ SITES ≤ s.hosts.entries.length then
    match s.hosts.entries.argmin fun e => e.2.used with
    | some oldest => s.hosts.erase oldest.1
    | none => s.hosts
  else s.hosts

/-- Remembers how a policy did at a host, and says whether the site remembered a failure when it
came. -/
def remember (s : Sites) (host policy : Str) (worked : Bool) (now : ℕ) : Sites × Bool :=
  let clock := s.clock + 1
  let hosts := s.make_room host
  let site := (hosts.lookup host).getD ⟨clock, []⟩
  let failed_here := site.policies.any fun o => !o.worked && fresh now o
  (⟨hosts.insert host ⟨clock, keep site.policies ⟨policy, worked, now⟩⟩, clock⟩, failed_here)

/-- What the site remembers. -/
def read (s : Sites) (host : Str) (now : ℕ) : Sites × SiteMemory :=
  let clock := s.clock + 1
  match s.hosts.lookup host with
  | some site =>
    let kept := site.policies.filter (fresh now)
    (⟨s.hosts.modify host fun site => { site with used := clock }, clock⟩,
      ⟨(kept.filter fun o => o.worked).map Outcome.policy,
        (kept.filter fun o => !o.worked).map Outcome.policy⟩)
  | none => (⟨s.hosts, clock⟩, ⟨[], []⟩)

end Sites

/-! ### The records -/

/-- What the numbers of a score are computed with. -/
structure Numbers (F : Type*) where
  zero : F
  one : F
  add : F → F → F
  mul : F → F → F
  /-- How much of what was known at the first time still counts at the second. -/
  fade : ℕ → ℕ → F
  millis : ℕ → F
  /-- What each failure adds to the score. -/
  penalty : F

/-- What is known of a policy's outbound. -/
structure Record (F : Type*) where
  outbound : ℕ
  sum : F
  weight : F
  sampled : Option ℕ
  penalty : F
  penalized : Option ℕ
  failures : ℕ
  reported : Bool

namespace Record

variable {F : Type*} (num : Numbers F)

def new (outbound : ℕ) : Record F where
  outbound := outbound
  sum := num.zero
  weight := num.zero
  sampled := none
  penalty := num.zero
  penalized := none
  failures := 0
  reported := false

def sample (r : Record F) (ms : F) (now : ℕ) : Record F :=
  let r := match r.sampled with
    | some at_ => { r with
        sum := num.mul r.sum (num.fade at_ now)
        weight := num.mul r.weight (num.fade at_ now) }
    | none => r
  { r with
    sum := num.add r.sum ms
    weight := num.add r.weight num.one
    sampled := some now
    failures := 0 }

def penalty_at (r : Record F) (now : ℕ) : F :=
  match r.penalized with
  | some at_ => num.mul r.penalty (num.fade at_ now)
  | none => num.zero

/-- A penalty more, and a step more in the run of failures. -/
def failure (r : Record F) (now : ℕ) : Record F :=
  { r with
    penalty := num.add (r.penalty_at num now) num.penalty
    penalized := some now
    failures := min (r.failures + 1) (2 ^ 32 - 1) }

end Record

/-- What the `smart` groups know. -/
structure Book (F : Type*) where
  records : Assoc Str (Record F)
  sites : Sites

/-- A report of a session, or a look at a site. -/
inductive Call
  | success (policy : Str) (outbound : ℕ) (host : Option Str) (latency now : ℕ)
  | failure (policy : Str) (outbound : ℕ) (host : Option Str) (now : ℕ)
  | site (host : Str) (now : ℕ)

namespace Book

variable {F : Type*} (num : Numbers F)

def new : Book F := ⟨∅, .new⟩

/-- The record of a policy, a fresh one when there is none for the outbound. -/
def record_of (b : Book F) (policy : Str) (outbound : ℕ) : Record F :=
  match b.records.lookup policy with
  | some r => if r.outbound = outbound then r else .new num outbound
  | none => .new num outbound

/-- The record of a policy changed, a session having reported on it. -/
def change (b : Book F) (policy : Str) (outbound : ℕ) (f : Record F → Record F) : Book F :=
  { b with
    records :=
      b.records.insert policy (f { b.record_of num policy outbound with reported := true }) }

def report_success (b : Book F) (policy : Str) (outbound : ℕ) (host : Option Str)
    (latency now : ℕ) : Book F :=
  let b := b.change num policy outbound fun r => r.sample num (num.millis latency) now
  match host with
  | some host => { b with sites := (b.sites.remember host policy true now).1 }
  | none => b

def report_failure (b : Book F) (policy : Str) (outbound : ℕ) (host : Option Str) (now : ℕ) :
    Book F :=
  let (sites, excused) := match host with
    | some host => b.sites.remember host policy false now
    | none => (b.sites, false)
  let b := { b with sites := sites }
  if excused then b else b.change num policy outbound fun r => r.failure num now

/-- What happened at a site lately. -/
def site (b : Book F) (host : Str) (now : ℕ) : Book F × SiteMemory :=
  ({ b with sites := (b.sites.read host now).1 }, (b.sites.read host now).2)

def step (b : Book F) : Call → Book F
  | .success policy outbound host latency now =>
    b.report_success num policy outbound host latency now
  | .failure policy outbound host now => b.report_failure num policy outbound host now
  | .site host now => (b.site host now).1

end Book

end Smart

end Rurge
