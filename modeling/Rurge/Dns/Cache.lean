import Rurge.Net.Addr
import Rurge.Text

/-!
# The cache of answers

A cache keyed by name, the least recently used entry going first.  An answer is good for its
smallest TTL and served past it while it is asked for again, one background refresh at a time; an
empty answer is kept for `NEGATIVE_TTL`.  Each entry carries where it is from (`Origin`), which no
operation reads.
-/

namespace Rurge

namespace Dns

/-- Times are counted in nanoseconds. -/
def second : ℕ := 1000000000

def NEGATIVE_TTL : ℕ := 30 * second

def REFRESH_RETRY_INTERVAL : ℕ := 60 * second

structure CachedAddrs where
  v4 : List Ipv4Addr
  v6 : List Ipv6Addr
  /-- The smallest TTL of the answer's records. -/
  ttl : ℕ
  /-- The AAAA family was asked when this entry was recorded. -/
  v6_queried : Bool
  source : Str

inductive CacheHit
  | Fresh (addrs : CachedAddrs)
  | Stale (addrs : CachedAddrs)
  | Negative

/-- An entry; without addresses it is a negative one. -/
structure Entry (Origin : Type*) where
  addrs : Option CachedAddrs
  expires_at : ℕ
  refreshing : Bool
  last_refresh : Option ℕ
  origin : Origin

/-- The entries, the one used last first. -/
structure DnsCache (Origin : Type*) where
  capacity : ℕ
  entries : List (Str × Entry Origin)

namespace DnsCache

variable {Origin : Type*}

def new (capacity : ℕ) : DnsCache Origin := ⟨max capacity 1, []⟩

variable (cache : DnsCache Origin) (now : ℕ) (name : Str)

/-- The entry of a name. -/
def entry : Option (Entry Origin) := cache.entries.lookup name

/-- The entry of a name taken out. -/
def pop : DnsCache Origin := { cache with entries := cache.entries.filter fun x => x.1 ≠ name }

/-- The entry of a name put first; where there is no room, the last entry goes. -/
def push (e : Entry Origin) : DnsCache Origin :=
  { cache with entries := ((name, e) :: (cache.pop name).entries).take cache.capacity }

/-- The entry of a name changed, as one that is used. -/
def touch (f : Entry Origin → Entry Origin) : DnsCache Origin :=
  match cache.entry name with
  | some e => { cache with entries := (name, f e) :: (cache.pop name).entries }
  | none => cache

/-- What the cache has for a name, and the cache after the look. An expired negative entry is a
plain miss. -/
def get : Option CacheHit × DnsCache Origin :=
  match cache.entry name with
  | none => (none, cache)
  | some e => match e.addrs with
    | none => if now < e.expires_at then (some .Negative, cache.touch name id) else
        (none, cache.pop name)
    | some addrs => (some (if now < e.expires_at then .Fresh addrs else .Stale addrs),
        cache.touch name id)

/-- An answer with TTL 0 is not kept, and what was kept of the name goes. -/
def put (addrs : CachedAddrs) (origin : Origin) : DnsCache Origin :=
  if addrs.ttl = 0 then cache.pop name
  else cache.push name ⟨some addrs, now + addrs.ttl, false, none, origin⟩

def put_negative (origin : Origin) : DnsCache Origin :=
  cache.push name ⟨none, now + NEGATIVE_TTL, false, none, origin⟩

/-- Claims the single background refresh of a stale entry, whether it is given and the cache after
the claim. -/
def begin_refresh : Bool × DnsCache Origin :=
  match cache.entry name with
  | none => (false, cache)
  | some e =>
    if e.refreshing then (false, cache.touch name id)
    else if e.last_refresh.any fun last => now - last < REFRESH_RETRY_INTERVAL then
      (false, cache.touch name id)
    else (true, cache.touch name fun e => { e with refreshing := true, last_refresh := some now })

/-- Gives the refresh back without a new entry. -/
def end_refresh : DnsCache Origin := cache.touch name fun e => { e with refreshing := false }

def flush : DnsCache Origin := { cache with entries := [] }

end DnsCache

/-! ### What the entries are -/

namespace DnsCache

variable {Origin : Type*} {cache : DnsCache Origin} {now : ℕ} {name : Str}
  {P : Str → Entry Origin → Prop}

/-- Every entry meets `P`. -/
def All (P : Str → Entry Origin → Prop) (cache : DnsCache Origin) : Prop :=
  ∀ x ∈ cache.entries, P x.1 x.2

theorem all_new (capacity : ℕ) : (new capacity).All P := by simp [All, new]

theorem all_flush : cache.flush.All P := by simp [All, flush]

theorem All.mono {Q : Str → Entry Origin → Prop} (h : cache.All P)
    (hPQ : ∀ name e, P name e → Q name e) : cache.All Q := fun x hx => hPQ _ _ (h x hx)

theorem All.entry (h : cache.All P) {e : Entry Origin} (he : cache.entry name = some e) :
    P name e := by
  obtain ⟨l₁, l₂, heq, -⟩ := List.lookup_eq_some_iff.1 he
  exact h (name, e) (by simp [heq])

theorem All.pop (h : cache.All P) (name : Str) : (cache.pop name).All P :=
  fun x hx => h x (List.mem_of_mem_filter hx)

/-- An entry put in the place of what a name had. -/
theorem All.push {e : Entry Origin} (h : cache.All fun n e => n ≠ name → P n e) (he : P name e) :
    (cache.push name e).All P := by
  intro x hx
  rcases List.mem_cons.1 (List.mem_of_mem_take hx) with rfl | hx
  · exact he
  · obtain ⟨hx, hne⟩ := List.mem_filter.1 hx
    exact h x hx (by simpa using hne)

/-- A name's entry changed. -/
theorem All.touch {f : Entry Origin → Entry Origin} (h : cache.All fun n e => n ≠ name → P n e)
    (he : ∀ e, cache.entry name = some e → P name (f e)) : (cache.touch name f).All P := by
  unfold DnsCache.touch
  split
  case h_1 e hentry =>
    intro x hx
    rcases List.mem_cons.1 hx with rfl | hx
    · exact he e hentry
    · obtain ⟨hx, hne⟩ := List.mem_filter.1 hx
      exact h x hx (by simpa using hne)
  case h_2 hnone =>
    intro x hx
    refine h x hx ?_
    rintro rfl
    simpa using List.lookup_eq_none_iff.1 hnone x hx

theorem All.get (h : cache.All P) (now : ℕ) (name : Str) : (cache.get now name).2.All P := by
  have htouch : (cache.touch name id).All P :=
    All.touch (fun x hx _ => h x hx) fun _ he => h.entry he
  unfold DnsCache.get
  split
  · exact h
  · split
    · split
      · exact htouch
      · exact h.pop name
    · exact htouch

/-- An entry whose refresh is claimed. -/
theorem All.begin_refresh (h : cache.All P)
    (hgiven : (cache.begin_refresh now name).1 = true → ∀ e, P name e →
      P name { e with refreshing := true, last_refresh := some now }) :
    (cache.begin_refresh now name).2.All P := by
  have htouch : (cache.touch name id).All P :=
    All.touch (fun x hx _ => h x hx) fun _ he => h.entry he
  unfold DnsCache.begin_refresh at hgiven ⊢
  split
  case h_1 => exact h
  case h_2 e hentry =>
    simp only [hentry] at hgiven
    split
    case isTrue => exact htouch
    case isFalse hfree =>
      rw [if_neg hfree] at hgiven
      split
      case isTrue => exact htouch
      case isFalse hdue =>
        rw [if_neg hdue] at hgiven
        exact All.touch (fun x hx _ => h x hx) fun e he => hgiven rfl e (h.entry he)

/-- An entry whose refresh is given back. -/
theorem All.end_refresh (h : cache.All fun n e => n ≠ name → P n e)
    (he : ∀ e, cache.entry name = some e → P name { e with refreshing := false }) :
    (cache.end_refresh name).All P := h.touch he

theorem All.put {addrs : CachedAddrs} {origin : Origin} (h : cache.All fun n e => n ≠ name → P n e)
    (he : addrs.ttl ≠ 0 → P name ⟨some addrs, now + addrs.ttl, false, none, origin⟩) :
    (cache.put now name addrs origin).All P := by
  unfold DnsCache.put
  split
  case isTrue =>
    intro x hx
    obtain ⟨hx, hne⟩ := List.mem_filter.1 hx
    exact h x hx (by simpa using hne)
  case isFalse httl => exact h.push (he httl)

theorem All.put_negative {origin : Origin} (h : cache.All fun n e => n ≠ name → P n e)
    (he : P name ⟨none, now + NEGATIVE_TTL, false, none, origin⟩) :
    (cache.put_negative now name origin).All P := h.push he

/-- What a hit says of the entry. -/
theorem get_eq {e : Entry Origin} (he : cache.entry name = some e) :
    (cache.get now name).1 = match e.addrs with
      | none => if now < e.expires_at then some .Negative else none
      | some addrs => some (if now < e.expires_at then .Fresh addrs else .Stale addrs) := by
  unfold get
  rw [he]
  dsimp only
  split
  · split <;> rfl
  · rfl

theorem get_none (he : cache.entry name = none) : (cache.get now name).1 = none := by
  unfold get
  rw [he]

end DnsCache

end Dns

end Rurge
