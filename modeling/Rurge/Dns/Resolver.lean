import Rurge.Dns.Cache
import Rurge.Dns.Coalesce
import Rurge.Dns.Fanout

/-!
# The resolver at work

The lookups, the background refreshes and the flush, step by step: a lookup reads the cache, asks
through the table of the queries in flight, and records what it was given, in steps of its own
between which others go on.  What the fan-outs give, whether AAAA is wanted, who is asked and how
long anything takes is left to the run.

The clock counts the steps.  It dates a result (`Stamp`), an entry (`Origin`) and a count of the
AAAA timeouts (`Count`); nothing the resolver does depends on these.
The timeouts in a row are a natural number, as the `AtomicU32` is below 2^32.
-/

namespace Rurge

namespace Resolver

open Coalesce (Query Question)
open Dns (CachedAddrs CacheHit DnsCache)
open Fanout (Answers FanoutError)

def AAAA_SUPPRESS_AFTER : ℕ := 5

/-! ### Results -/

/-- A result of `query_coalesced`, with the fan-out it came from: its number, and when it began and
ended. -/
structure Stamp where
  outcome : Except FanoutError Answers
  fanout : ℕ
  began : ℕ
  ended : ℕ

/-- Where an entry is from: what was asked by the lookup or refresh that recorded it and when that
began, when the fan-out began and ended, and the step and the time of the recording. -/
structure Origin where
  question : Question
  asked : ℕ
  began : ℕ
  ended : ℕ
  recorded : ℕ
  at_ : ℕ

/-- Where a count of an AAAA timeout is from. -/
structure Count where
  fanout : ℕ
  asked : ℕ
  began : ℕ
  ended : ℕ
  counted : ℕ

/-- The smallest TTL of the records. -/
def min_ttl (a : Answers) : ℕ :=
  (((a.v4.map (·.2) ++ a.v6.map (·.2)).map UInt32.toNat).min?.getD 0) * Dns.second

def cached_from (a : Answers) (want_v6 : Bool) : CachedAddrs :=
  ⟨a.v4.map (·.1), a.v6.map (·.1), min_ttl a, want_v6, a.upstream⟩

/-- What a caller does with an AAAA answer that timed out. -/
inductive AaaaTimeout
  | Count
  | Ignore
  deriving DecidableEq

def timeout (query : Query) (own : AaaaTimeout) : AaaaTimeout :=
  match query with
  | .Own => own
  | .Another => .Ignore

/-! ### Lookups and refreshes -/

/-- Whose query it is: a lookup's, by the primary servers; a background refresh's; a lookup's by the
servers of one interface; or one of `[Host]` or the system, which is recorded nowhere. -/
inductive Purpose
  | Main
  | Refresh (timeout : AaaaTimeout)
  | Via (set : ℕ)
  | Elsewhere

/-- How far it is: in its query, done with the cache and about to count, about to suppress, about to
ask again for a late answer, done. -/
inductive Stage
  | Querying
  | Counting (a : Answers)
  | Suppressing (count : Count)
  | Again (a : Answers)
  | Finished

/-- A lookup or a refresh, from its `query_coalesced` on. -/
structure Task where
  purpose : Purpose
  asked : ℕ
  stage : Stage

/-- The set of one interface, and when it was made. -/
structure ViaSet where
  made : ℕ
  cache : DnsCache Origin

/-- A lookup or a refresh of the bootstrap. -/
structure Boot where
  name : Str
  refresh : Bool
  asked : ℕ
  began : Option ℕ
  result : Option Stamp
  finished : Bool

/-- A lookup that a stale entry answers and that has yet to claim the refresh: the cache is locked
twice. -/
structure StaleHit where
  name : Str
  want_v6 : Bool

/-- The steps of the last flush, as far as they were taken. -/
structure Flushed where
  cache : ℕ
  vias : ℕ
  bootstrap : ℕ
  failures : ℕ
  suppressed : ℕ

structure Config where
  cache_capacity : ℕ
  bootstrap_v6 : Bool

/-- The queries in flight, with the lookups and refreshes that call `query_coalesced`, in the same
order, and when each fan-out began; the caches, and who is to claim a refresh; the counters; and,
for the record only, the counts since the counter was last 0, every fan-out ever counted, and the
count that raised the flag with the step that did. -/
structure World where
  cfg : Config
  now : ℕ
  clock : ℕ
  co : Coalesce.World Stamp
  begun : List ℕ
  tasks : List Task
  cache : DnsCache Origin
  stale : List StaleHit
  vias : Assoc Str ℕ
  sets : List ViaSet
  bootstrap : DnsCache Origin
  boot_stale : List Str
  boots : List Boot
  aaaa_failures : ℕ
  aaaa_suppressed : Bool
  flushed : Flushed
  counts : List Count
  counted : List ℕ
  raised : Option (Count × ℕ)

inductive Action
  | passes (time : ℕ)
  | lookup (name : Str) (want_v6 bypass_cache : Bool) (primary : List Str)
  | claims (stale : ℕ) (primary : List Str)
  | via_set (key : Str)
  | lookup_on (set : ℕ) (name : Str) (want_v6 bypass_cache : Bool) (upstreams : List Str)
  | elsewhere (name : Str) (want_v6 bypass_cache : Bool) (upstreams : List Str)
  | look (task : ℕ)
  | wait (task : ℕ)
  | insert (task : ℕ)
  | ends (task : ℕ) (outcome : Except FanoutError Answers)
  | drop (task : ℕ)
  | goes (task : ℕ) (primary : List Str)
  | resolve (name : Str)
  | boot_claims (stale : ℕ)
  | boot_begins (boot : ℕ)
  | boot_ends (boot : ℕ) (outcome : Except FanoutError Answers)
  | boot_goes (boot : ℕ)
  | flush_cache
  | clear_vias
  | flush_bootstrap
  | reset_failures
  | lift_suppression

namespace World

def new (cfg : Config) : World where
  cfg := cfg
  now := 0
  clock := 1
  co := .new
  begun := []
  tasks := []
  cache := .new cfg.cache_capacity
  stale := []
  vias := ∅
  sets := []
  bootstrap := .new 64
  boot_stale := []
  boots := []
  aaaa_failures := 0
  aaaa_suppressed := false
  flushed := ⟨0, 0, 0, 0, 0⟩
  counts := []
  counted := []
  raised := none

/-- A lookup or a refresh comes to `query_coalesced`. -/
def ask (w : World) (purpose : Purpose) (question : Question) (bypass_cache : Bool) : World :=
  { w with
    co := w.co.step (.call question bypass_cache)
    tasks := w.tasks ++ [⟨purpose, w.clock, .Querying⟩] }

/-- A background refresh, unless one is under way or began within the retry interval. -/
def spawn_refresh (w : World) (name : Str) (want_v6 : Bool) (timeout : AaaaTimeout)
    (primary : List Str) : World :=
  let (given, cache) := w.cache.begin_refresh w.now name
  let w := { w with cache := cache }
  if given then w.ask (.Refresh timeout) ⟨name, want_v6, primary⟩ false else w

/-- The hit that answers a lookup: an entry recorded without asking for AAAA does not answer one
that wants it. -/
def answers (want_v6 : Bool) : Option CacheHit → Option CacheHit
  | some (.Fresh a) => if a.v6_queried || !want_v6 then some (.Fresh a) else none
  | some (.Stale a) => if a.v6_queried || !want_v6 then some (.Stale a) else none
  | some .Negative => some .Negative
  | none => none

/-- The hit that answers a lookup through an interface: a stale one does not. -/
def answers_on (want_v6 : Bool) : Option CacheHit → Option CacheHit
  | some (.Fresh a) => if a.v6_queried || !want_v6 then some (.Fresh a) else none
  | some .Negative => some .Negative
  | _ => none

/-- The upstream step of a lookup. Without a primary server the system's are asked. -/
def lookup (w : World) (name : Str) (want_v6 bypass_cache : Bool) (primary : List Str) : World :=
  let question : Question := ⟨name, want_v6, primary⟩
  let asks (w : World) : World := if primary = [] then w else w.ask .Main question bypass_cache
  if bypass_cache then asks w
  else
    let (hit, cache) := w.cache.get w.now name
    let w := { w with cache := cache }
    match answers want_v6 hit with
    | some (.Stale _) => { w with stale := w.stale ++ [⟨name, want_v6⟩] }
    | some _ => w
    | none => asks w

/-- A lookup that a stale entry answers claims the refresh; by now the name may have no entry. -/
def claims (w : World) (i : ℕ) (primary : List Str) : World :=
  match w.stale[i]? with
  | some hit =>
    ({ w with stale := w.stale.eraseIdx i }).spawn_refresh hit.name hit.want_v6 .Count primary
  | none => w

/-- The set of an interface, made if there is none. -/
def via_set (w : World) (key : Str) : World :=
  match w.vias.lookup key with
  | some _ => w
  | none =>
    { w with
      vias := w.vias.insert key w.sets.length
      sets := w.sets ++ [⟨w.clock, .new w.cfg.cache_capacity⟩] }

/-- The upstream step of a lookup that has an interface's set, which may no longer be in the map. -/
def lookup_on (w : World) (i : ℕ) (name : Str) (want_v6 bypass_cache : Bool)
    (upstreams : List Str) : World :=
  match w.sets[i]? with
  | none => w
  | some set =>
    let question : Question := ⟨name, want_v6, upstreams⟩
    if bypass_cache then w.ask (.Via i) question bypass_cache
    else
      let (hit, cache) := set.cache.get w.now name
      let w := { w with sets := w.sets.modify i fun set => { set with cache := cache } }
      match answers_on want_v6 hit with
      | some _ => w
      | none => w.ask (.Via i) question bypass_cache

/-- The stage of a task set. -/
def stage (w : World) (c : ℕ) (stage : Stage) : World :=
  { w with tasks := w.tasks.modify c fun task => { task with stage := stage } }

/-- The entry's origin, recorded now. -/
def origin (w : World) (question : Question) (asked : ℕ) (r : Stamp) : Origin :=
  ⟨question, asked, r.began, r.ended, w.clock, w.now⟩

/-- The result of a query through an interface goes to the cache of the set. -/
def put_on (w : World) (question : Question) (asked : ℕ) (r : Stamp) (cache : DnsCache Origin) :
    DnsCache Origin :=
  let origin := w.origin question asked r
  match r.outcome with
  | .ok a => cache.put w.now question.name (cached_from a question.want_v6) origin
  | .error .EmptyAnswer => cache.put_negative w.now question.name origin
  | .error _ => cache

/-- The result of a query goes to the cache it is for. -/
def record (w : World) (c : ℕ) (task : Task) (question : Question) (r : Stamp) : World :=
  let origin := w.origin question task.asked r
  match task.purpose with
  | .Elsewhere => w.stage c .Finished
  | .Via i =>
    ({ w with sets := w.sets.modify i fun set =>
        { set with cache := w.put_on question task.asked r set.cache } }).stage c .Finished
  | _ => match r.outcome with
    | .ok a =>
      ({ w with
        cache := w.cache.put w.now question.name (cached_from a question.want_v6) origin }).stage c
        (if question.want_v6 then .Counting a else .Finished)
    | .error .EmptyAnswer =>
      ({ w with cache := w.cache.put_negative w.now question.name origin }).stage c .Finished
    | .error _ => match task.purpose with
      | .Refresh _ => ({ w with cache := w.cache.end_refresh question.name }).stage c .Finished
      | _ => w.stage c .Finished

/-- What a task does with a timeout of its own query. -/
def own_timeout : Purpose → AaaaTimeout
  | .Refresh timeout => timeout
  | _ => .Count

/-- An AAAA answer that timed out is counted, one that came ends the count. -/
def count (w : World) (c : ℕ) (task : Task) (r : Stamp) (query : Query) (a : Answers) : World :=
  if a.aaaa_timed_out then
    if timeout query (own_timeout task.purpose) = .Count then
      let count : Count := ⟨r.fanout, task.asked, r.began, r.ended, w.clock⟩
      let n := w.aaaa_failures + 1
      ({ w with
        aaaa_failures := n
        counts := w.counts ++ [count]
        counted := w.counted ++ [r.fanout] }).stage c
        (if AAAA_SUPPRESS_AFTER ≤ n then .Suppressing count else .Again a)
    else w.stage c (.Again a)
  else ({ w with aaaa_failures := 0, counts := [] }).stage c (.Again a)

/-- The flag is raised, if it is not up. -/
def suppress (w : World) (c : ℕ) (count : Count) (a : Answers) : World :=
  ({ w with
    aaaa_suppressed := true
    raised := if w.aaaa_suppressed then w.raised else some (count, w.clock) }).stage c (.Again a)

/-- A lookup that did not wait for the AAAA answer asks for it again. -/
def again (w : World) (c : ℕ) (task : Task) (question : Question) (a : Answers)
    (primary : List Str) : World :=
  let w := w.stage c .Finished
  match task.purpose with
  | .Main =>
    if a.partial_ && a.aaaa_timed_out then
      w.spawn_refresh question.name question.want_v6 .Ignore primary
    else w
  | _ => w

/-- The next step of a task whose query is over. -/
def goes (w : World) (c : ℕ) (primary : List Str) : World :=
  match w.tasks[c]?, w.co.callers[c]? with
  | some task, some caller => match caller.phase with
    | .Done r query => match task.stage, r.outcome with
      | .Querying, _ => w.record c task caller.question r
      | .Counting a, _ => w.count c task r query a
      | .Suppressing count, .ok a => w.suppress c count a
      | .Again a, _ => w.again c task caller.question a primary
      | _, _ => w
    | _ => w
  | _, _ => w

/-- A caller puts in its entry: its fan-out begins. -/
def insert (w : World) (c : ℕ) : World :=
  let co := w.co.step (.insert c)
  { w with
    co := co
    begun := if w.begun.length < co.channels.length then w.begun ++ [w.clock] else w.begun }

/-- A fan-out ends. -/
def ends (w : World) (c : ℕ) (outcome : Except FanoutError Answers) : World :=
  match w.co.callers[c]? with
  | some caller => match caller.phase with
    | .Asking i =>
      { w with co := w.co.step (.ends c ⟨outcome, i, w.begun.getD i 0, w.clock⟩) }
    | _ => w
  | none => w

/-- A lookup is dropped; a refresh is nobody's to drop. -/
def drop (w : World) (c : ℕ) : World :=
  match w.tasks[c]? with
  | some task => match task.purpose with
    | .Refresh _ => w
    | _ => { w with co := w.co.step (.drop c) }
  | none => w

/-! ### The bootstrap -/

def boot_ask (w : World) (name : Str) (refresh : Bool) : World :=
  { w with boots := w.boots ++ [⟨name, refresh, w.clock, none, none, false⟩] }

/-- A lookup of the bootstrap. It asks for the families it always asks for. -/
def resolve (w : World) (name : Str) : World :=
  let (hit, cache) := w.bootstrap.get w.now name
  let w := { w with bootstrap := cache }
  match hit with
  | some (.Fresh _) => w
  | some (.Stale _) => { w with boot_stale := w.boot_stale ++ [name] }
  | _ => w.boot_ask name false

/-- A lookup of the bootstrap that a stale entry answers claims the refresh. -/
def boot_claims (w : World) (i : ℕ) : World :=
  match w.boot_stale[i]? with
  | some name =>
    let (given, cache) := w.bootstrap.begin_refresh w.now name
    let w := { w with boot_stale := w.boot_stale.eraseIdx i, bootstrap := cache }
    if given then w.boot_ask name true else w
  | none => w

def BOOTSTRAP_MIN_TTL : ℕ := 60 * Dns.second

/-- A fan-out of the bootstrap begins. -/
def boot_begins (w : World) (b : ℕ) : World :=
  { w with boots := w.boots.modify b fun boot =>
    { boot with began := some (boot.began.getD w.clock) } }

/-- A fan-out of the bootstrap ends. -/
def boot_ends (w : World) (b : ℕ) (outcome : Except FanoutError Answers) : World :=
  { w with boots := w.boots.modify b fun boot => match boot.began, boot.result with
    | some began, none => { boot with result := some ⟨outcome, b, began, w.clock⟩ }
    | _, _ => boot }

/-- What the bootstrap makes of its result. -/
def boot_goes (w : World) (b : ℕ) : World :=
  match w.boots[b]? with
  | some ⟨name, refresh, asked, _, some r, false⟩ =>
    let cache := match r.outcome with
      | .ok a =>
        let addrs := cached_from a w.cfg.bootstrap_v6
        w.bootstrap.put w.now name { addrs with ttl := max addrs.ttl BOOTSTRAP_MIN_TTL }
          (w.origin ⟨name, w.cfg.bootstrap_v6, []⟩ asked r)
      | .error _ => if refresh then w.bootstrap.end_refresh name else w.bootstrap
    { w with
      bootstrap := cache
      boots := w.boots.modify b fun boot => { boot with finished := true } }
  | _ => w

/-! ### The steps -/

def act (w : World) : Action → World
  | .passes time => { w with now := w.now + time }
  | .lookup name want_v6 bypass_cache primary => w.lookup name want_v6 bypass_cache primary
  | .claims i primary => w.claims i primary
  | .via_set key => w.via_set key
  | .lookup_on set name want_v6 bypass_cache upstreams =>
    w.lookup_on set name want_v6 bypass_cache upstreams
  | .elsewhere name want_v6 bypass_cache upstreams =>
    w.ask .Elsewhere ⟨name, want_v6, upstreams⟩ bypass_cache
  | .look c => { w with co := w.co.step (.look c) }
  | .wait c => { w with co := w.co.step (.wait c) }
  | .insert c => w.insert c
  | .ends c outcome => w.ends c outcome
  | .drop c => w.drop c
  | .goes c primary => w.goes c primary
  | .resolve name => w.resolve name
  | .boot_claims i => w.boot_claims i
  | .boot_begins b => w.boot_begins b
  | .boot_ends b outcome => w.boot_ends b outcome
  | .boot_goes b => w.boot_goes b
  | .flush_cache =>
    { w with cache := w.cache.flush, flushed := { w.flushed with cache := w.clock } }
  | .clear_vias => { w with vias := ∅, flushed := { w.flushed with vias := w.clock } }
  | .flush_bootstrap =>
    { w with bootstrap := w.bootstrap.flush, flushed := { w.flushed with bootstrap := w.clock } }
  | .reset_failures =>
    { w with aaaa_failures := 0, counts := [], flushed := { w.flushed with failures := w.clock } }
  | .lift_suppression =>
    { w with
      aaaa_suppressed := false, raised := none
      flushed := { w.flushed with suppressed := w.clock } }

def step (w : World) (a : Action) : World :=
  { w.act a with clock := w.clock + 1 }

end World

end Resolver

end Rurge
