import Rurge.Dns.ResolverTimes

/-!
# What holds of the resolver in every state

Every entry tells truly where it is from and is in its cache since after the cache was last flushed;
an entry that is being refreshed has its refresh under way; and every fan-out is counted once, by
the caller whose it was.
-/

namespace Rurge

namespace Resolver

open Coalesce (Phase Channel Caller)
open Dns (CachedAddrs CacheHit DnsCache Entry)

/-! ### Entries, tasks and counts -/

/-- An entry was recorded for its name, after its fan-out had ended and by who had asked before
that, and expires by its TTL, which is not 0. -/
structure Told (clock now : ℕ) (name : Str) (e : Entry Origin) : Prop where
  name : e.origin.question.name = name
  asked : e.origin.asked ≤ e.origin.ended
  began : e.origin.began ≤ e.origin.ended
  ended : e.origin.ended ≤ e.origin.recorded
  recorded : e.origin.recorded < clock
  at_ : e.origin.at_ ≤ now
  addrs : match e.addrs with
    | none => e.expires_at = e.origin.at_ + Dns.NEGATIVE_TTL
    | some a => a.v6_queried = e.origin.question.want_v6 ∧ a.ttl ≠ 0 ∧
      e.expires_at = e.origin.at_ + a.ttl

theorem Told.mono {clock clock' now now' : ℕ} {name : Str} {e : Entry Origin}
    (h : Told clock now name e) (hclock : clock ≤ clock') (hnow : now ≤ now') :
    Told clock' now' name e :=
  { h with recorded := h.recorded.trans_le hclock, at_ := h.at_.trans hnow }

/-- A background refresh of the name is under way: nobody can drop it. -/
def Refreshing (co : Coalesce.World Stamp) (tasks : List Task) (name : Str) : Prop :=
  ∃ (c : ℕ) (task : Task) (caller : Caller Stamp) (timeout : AaaaTimeout),
    tasks[c]? = some task ∧ task.purpose = .Refresh timeout ∧ task.stage = .Querying ∧
      co.callers[c]? = some caller ∧ caller.question.name = name ∧ caller.phase ≠ .Dropped

namespace Refreshing

variable {co : Coalesce.World Stamp} {tasks : List Task} {name : Str}

/-- A step of the callers leaves a refresh under way. -/
theorem co_step (h : Refreshing co tasks name) {a : Coalesce.Action Stamp}
    (hdrop : ∀ (c : ℕ) (task : Task) (timeout : AaaaTimeout), a = .drop c →
      tasks[c]? = some task → task.purpose ≠ .Refresh timeout) :
    Refreshing (co.step a) tasks name := by
  obtain ⟨c, task, caller, timeout, htask, hpurpose, hstage, hcaller, hname, hphase⟩ := h
  obtain ⟨caller', hcaller', hquestion, hdropped⟩ := callers_kept a hcaller
  refine ⟨c, task, caller', timeout, htask, hpurpose, hstage, hcaller', hquestion ▸ hname,
    fun hphase' => ?_⟩
  rcases hdropped hphase' with hphase' | ha
  · exact hphase hphase'
  · exact hdrop c task timeout ha htask hpurpose

theorem append (h : Refreshing co tasks name) (task : Task) :
    Refreshing co (tasks ++ [task]) name := by
  obtain ⟨c, task', caller, timeout, htask, hrest⟩ := h
  refine ⟨c, task', caller, timeout, ?_, hrest⟩
  rw [List.getElem?_append_left (List.getElem?_eq_some_iff.1 htask).1, htask]

/-- Another task's stage is nothing to a refresh. -/
theorem modify (h : Refreshing co tasks name) {c : ℕ} (f : Task → Task)
    (hc : ∀ (task : Task) (caller : Caller Stamp) (timeout : AaaaTimeout), tasks[c]? = some task →
      co.callers[c]? = some caller → task.purpose = .Refresh timeout → task.stage = .Querying →
      caller.question.name ≠ name) : Refreshing co (tasks.modify c f) name := by
  obtain ⟨c', task, caller, timeout, htask, hpurpose, hstage, hcaller, hname, hphase⟩ := h
  have hne : c ≠ c' := by
    rintro rfl
    exact hc task caller timeout htask hcaller hpurpose hstage hname
  refine ⟨c', task, caller, timeout, ?_, hpurpose, hstage, hcaller, hname, hphase⟩
  rw [List.getElem?_modify_ne f tasks hne, htask]

end Refreshing

/-- The fan-out of a count ended before it was counted, and after it was asked for. -/
structure Count.Past (x : Count) (clock : ℕ) : Prop where
  asked : x.asked ≤ x.ended
  began : x.began ≤ x.ended
  ended : x.ended ≤ x.counted
  counted : x.counted < clock

theorem Count.Past.mono {x : Count} {clock clock' : ℕ} (h : x.Past clock) (hle : clock ≤ clock') :
    x.Past clock' := { h with counted := h.counted.trans_le hle }

/-- The stages of a task that is done with its count. -/
def Stage.Counted : Stage → Prop
  | .Querying | .Counting _ => False
  | _ => True

structure Boot.Past (boot : Boot) (clock : ℕ) : Prop where
  asked : boot.asked < clock
  began : ∀ t, boot.began = some t → boot.asked ≤ t ∧ t < clock
  result : ∀ r, boot.result = some r → boot.asked ≤ r.began ∧ r.Past clock

theorem Boot.Past.mono {boot : Boot} {clock clock' : ℕ} (h : boot.Past clock)
    (hle : clock ≤ clock') : boot.Past clock' where
  asked := h.asked.trans_le hle
  began t ht := ⟨(h.began t ht).1, (h.began t ht).2.trans_le hle⟩
  result r hr := ⟨(h.result r hr).1, (h.result r hr).2.mono hle⟩

structure Flushed.Past (flushed : Flushed) (clock : ℕ) : Prop where
  cache : flushed.cache < clock
  vias : flushed.vias < clock
  bootstrap : flushed.bootstrap < clock
  failures : flushed.failures < clock
  suppressed : flushed.suppressed < clock

theorem Flushed.Past.mono {flushed : Flushed} {clock clock' : ℕ} (h : flushed.Past clock)
    (hle : clock ≤ clock') : flushed.Past clock' :=
  ⟨h.cache.trans_le hle, h.vias.trans_le hle, h.bootstrap.trans_le hle, h.failures.trans_le hle,
    h.suppressed.trans_le hle⟩

/-! ### The invariant -/

/-- What holds of the resolver, whatever was done before the step `clock`. -/
structure Sound (clock : ℕ) (w : World) : Prop where
  ok : w.co.Ok
  timed : Timed w.co w.begun (w.tasks.map Task.asked) clock
  flushed : w.flushed.Past clock
  cache : w.cache.All fun name e => Told clock w.now name e ∧
    w.flushed.cache < e.origin.recorded ∧ (e.refreshing = true → Refreshing w.co w.tasks name)
  sets : ∀ (i : ℕ) (set : ViaSet), w.sets[i]? = some set → set.made < clock ∧
    set.cache.All fun name e => Told clock w.now name e ∧ set.made ≤ e.origin.asked
  vias : ∀ (key : Str) (i : ℕ), w.vias.lookup key = some i →
    ∃ set, w.sets[i]? = some set ∧ w.flushed.vias < set.made
  holds : ∀ (c i : ℕ) (task : Task), w.tasks[c]? = some task → task.purpose = .Via i →
    ∃ set, w.sets[i]? = some set ∧ set.made ≤ task.asked
  bootstrap : w.bootstrap.All fun name e => Told clock w.now name e ∧
    w.flushed.bootstrap < e.origin.recorded
  boots : ∀ boot ∈ w.boots, boot.Past clock
  failures : w.aaaa_failures = w.counts.length
  counts : ∀ x ∈ w.counts, x.Past clock ∧ w.flushed.failures < x.counted
  suppressing : ∀ (c : ℕ) (task : Task) (x : Count), w.tasks[c]? = some task →
    task.stage = .Suppressing x → x.Past clock
  among : (w.counts.map Count.fanout).Sublist w.counted
  once : w.counted.Nodup
  counted : ∀ i ∈ w.counted, ∃ (key : Str) (c : ℕ) (sender : Coalesce.Sender Stamp) (task : Task),
    w.co.channels[i]? = some ⟨key, c, sender⟩ ∧ w.tasks[c]? = some task ∧ task.stage.Counted
  raised : w.aaaa_suppressed = true → ∃ x t, w.raised = some (x, t) ∧ x.Past (t + 1) ∧ t < clock ∧
    w.flushed.suppressed < t

namespace Sound

variable {clock : ℕ} {w : World}

theorem new (cfg : Config) : Sound 1 (World.new cfg) where
  ok := Coalesce.World.ok_new
  timed := Timed.new
  flushed := by constructor <;> exact Nat.zero_lt_one
  cache := DnsCache.all_new _
  sets := by simp [World.new]
  vias := by simp [World.new]
  holds := by simp [World.new]
  bootstrap := DnsCache.all_new _
  boots := by simp [World.new]
  failures := rfl
  counts := by simp [World.new]
  suppressing := by simp [World.new]
  among := .slnil
  once := List.nodup_nil
  counted := by simp [World.new]
  raised := by simp [World.new]

/-- Time goes on. -/
theorem later (h : Sound clock w) : Sound (clock + 1) w where
  ok := h.ok
  timed := h.timed.later
  flushed := h.flushed.mono (Nat.le_succ _)
  cache := h.cache.mono fun _ _ he => ⟨he.1.mono (Nat.le_succ _) le_rfl, he.2⟩
  sets i set hset :=
    let ⟨hmade, hall⟩ := h.sets i set hset
    ⟨hmade.trans (Nat.lt_succ_self _), hall.mono fun _ _ he =>
      ⟨he.1.mono (Nat.le_succ _) le_rfl, he.2⟩⟩
  vias := h.vias
  holds := h.holds
  bootstrap := h.bootstrap.mono fun _ _ he => ⟨he.1.mono (Nat.le_succ _) le_rfl, he.2⟩
  boots boot hboot := (h.boots boot hboot).mono (Nat.le_succ _)
  failures := h.failures
  counts x hx := ⟨(h.counts x hx).1.mono (Nat.le_succ _), (h.counts x hx).2⟩
  suppressing c task x htask hstage := (h.suppressing c task x htask hstage).mono (Nat.le_succ _)
  among := h.among
  once := h.once
  counted := h.counted
  raised hraised :=
    let ⟨x, t, hx, hpast, ht, hflushed⟩ := h.raised hraised
    ⟨x, t, hx, hpast, ht.trans (Nat.lt_succ_self _), hflushed⟩

/-- A step of the callers but their coming. -/
theorem co_step (h : Sound w.clock w) {a : Coalesce.Action Stamp}
    (hcall : ∀ question bypass_cache, a ≠ .call question bypass_cache)
    (hends : ∀ c r, a = .ends c r → Timed.Stamps w.co w.begun w.clock c r)
    (hdrop : ∀ (c : ℕ) (task : Task) (timeout : AaaaTimeout), a = .drop c →
      w.tasks[c]? = some task → task.purpose ≠ .Refresh timeout) :
    Sound (w.clock + 1)
      { w with co := w.co.step a, begun := Timed.begun_after w.co w.begun w.clock a } :=
  { h.later with
    ok := h.ok.step a
    timed := h.timed.step h.ok hcall hends
    cache := h.later.cache.mono fun _ _ ⟨htold, hrecorded, hrefreshing⟩ =>
      ⟨htold, hrecorded, fun he => (hrefreshing he).co_step hdrop⟩
    counted := fun i hi => by
      obtain ⟨key, c, sender, task, hchannel, hrest⟩ := h.counted i hi
      obtain ⟨sender', hchannel'⟩ := channels_kept a hchannel
      exact ⟨key, c, sender', task, hchannel', hrest⟩ }

/-- A lookup or a refresh comes to `query_coalesced`. -/
theorem ask (h : Sound clock w) (hclock : w.clock < clock) (purpose : Purpose)
    (question : Coalesce.Question) (bypass_cache : Bool)
    (hvia : ∀ i, purpose = .Via i → ∃ set, w.sets[i]? = some set ∧ set.made ≤ w.clock) :
    Sound clock (w.ask purpose question bypass_cache) := by
  have hcases : ∀ {c : ℕ} {task : Task},
      (w.tasks ++ [⟨purpose, w.clock, .Querying⟩])[c]? = some task →
      w.tasks[c]? = some task ∨ task = ⟨purpose, w.clock, .Querying⟩ := by
    intro c task htask
    rw [List.getElem?_append, List.getElem?_singleton] at htask
    split at htask
    case isTrue => exact .inl htask
    case isFalse =>
      split at htask
      case isTrue => exact .inr (Option.some_inj.1 htask).symm
      case isFalse => cases htask
  exact
  { h with
    ok := h.ok.step (.call question bypass_cache)
    timed := by
      have := h.timed.call question bypass_cache hclock
      simpa [World.ask] using this
    cache := h.cache.mono fun _ _ ⟨htold, hrecorded, hrefreshing⟩ =>
      ⟨htold, hrecorded, fun he => by
        have hstep : Refreshing (w.co.step (.call question bypass_cache)) w.tasks _ :=
          (hrefreshing he).co_step fun _ _ _ ha => by cases ha
        exact hstep.append _⟩
    holds := fun c i task htask hpurpose => by
      rcases hcases htask with htask | rfl
      · exact h.holds c i task htask hpurpose
      · exact hvia i hpurpose
    suppressing := fun c task x htask hstage => by
      rcases hcases htask with htask | rfl
      · exact h.suppressing c task x htask hstage
      · cases hstage
    counted := fun i hi => by
      obtain ⟨key, c, sender, task, hchannel, htask, hcounted⟩ := h.counted i hi
      refine ⟨key, c, sender, task, hchannel, ?_, hcounted⟩
      exact (List.getElem?_append_left (List.getElem?_eq_some_iff.1 htask).1).trans htask }

theorem map_asked_modify (tasks : List Task) (c : ℕ) (s : Stage) :
    (tasks.modify c fun task => { task with stage := s }).map Task.asked =
      tasks.map Task.asked := by
  refine List.ext_getElem? fun i => ?_
  rw [List.getElem?_map, List.getElem?_modify, List.getElem?_map]
  rcases tasks[i]? with _ | task
  · rfl
  · by_cases hi : c = i <;> simp [hi]

/-- A task comes to a stage. -/
theorem stage (h : Sound clock w) (c : ℕ) (s : Stage)
    (hrefresh : ∀ (task : Task) (caller : Caller Stamp) (timeout : AaaaTimeout),
      w.tasks[c]? = some task → w.co.callers[c]? = some caller →
      task.purpose = .Refresh timeout → task.stage = .Querying →
      w.cache.All fun name e => e.refreshing = true → caller.question.name ≠ name)
    (hpast : ∀ x, s = .Suppressing x → x.Past clock)
    (hcounted : ∀ task : Task, w.tasks[c]? = some task → task.stage.Counted → s.Counted) :
    Sound clock (w.stage c s) := by
  have hcases : ∀ {c' : ℕ} {task : Task},
      (w.tasks.modify c fun task => { task with stage := s })[c']? = some task →
      ∃ old, w.tasks[c']? = some old ∧ task.purpose = old.purpose ∧ task.asked = old.asked ∧
        (c' = c ∧ task.stage = s ∨ task.stage = old.stage) := by
    intro c' task htask
    rw [List.getElem?_modify] at htask
    obtain ⟨old, hold, rfl⟩ := Option.map_eq_some_iff.1 htask
    refine ⟨old, hold, ?_⟩
    split
    case isTrue hc => exact ⟨rfl, rfl, .inl ⟨hc.symm, rfl⟩⟩
    case isFalse => exact ⟨rfl, rfl, .inr rfl⟩
  exact
  { h with
    timed := by
      have := h.timed
      rwa [← map_asked_modify w.tasks c s] at this
    cache := fun x hx => by
      obtain ⟨htold, hrecorded, hrefreshing⟩ := h.cache x hx
      exact ⟨htold, hrecorded, fun he => (hrefreshing he).modify _
        fun task caller timeout htask hcaller hpurpose hstage =>
          hrefresh task caller timeout htask hcaller hpurpose hstage x hx he⟩
    holds := fun c' i task htask hpurpose => by
      obtain ⟨old, hold, hsame, hasked, -⟩ := hcases htask
      rw [hasked]
      exact h.holds c' i old hold (hsame ▸ hpurpose)
    suppressing := fun c' task x htask hstage => by
      obtain ⟨old, hold, -, -, ⟨-, hs⟩ | hs⟩ := hcases htask
      · exact hpast x (hs ▸ hstage)
      · exact h.suppressing c' old x hold (hs ▸ hstage)
    counted := fun i hi => by
      obtain ⟨key, c', sender, task, hchannel, htask, hstage⟩ := h.counted i hi
      refine ⟨key, c', sender, if c = c' then { task with stage := s } else task, hchannel, ?_, ?_⟩
      · change (w.tasks.modify c _)[c']? = _
        rw [List.getElem?_modify, htask]
        rfl
      · split
        case isTrue hc => exact hcounted task (hc ▸ htask) hstage
        case isFalse => exact hstage }

/-- A look into the cache. -/
theorem get (h : Sound clock w) (name : Str) :
    Sound clock { w with cache := (w.cache.get w.now name).2 } :=
  { h with cache := h.cache.get w.now name }

/-- A refresh that has just begun is under way. -/
theorem refreshing_ask (h : Sound clock w) (name : Str) (want_v6 : Bool) (timeout : AaaaTimeout)
    (primary : List Str) :
    Refreshing (w.ask (.Refresh timeout) ⟨name, want_v6, primary⟩ false).co
      (w.ask (.Refresh timeout) ⟨name, want_v6, primary⟩ false).tasks name := by
  have hlength : w.tasks.length = w.co.callers.length := by simpa using h.timed.tasks
  refine ⟨w.tasks.length, ⟨.Refresh timeout, w.clock, .Querying⟩,
    ⟨⟨name, want_v6, primary⟩, false, .Looking⟩, timeout, ?_, rfl, rfl, ?_, rfl, nofun⟩
  · simp [World.ask]
  · simp [World.ask, Coalesce.World.step, hlength]

/-- A refresh of a name begins, unless one is under way or too close. -/
theorem spawn_refresh (h : Sound clock w) (hclock : w.clock < clock) (name : Str) (want_v6 : Bool)
    (timeout : AaaaTimeout) (primary : List Str) :
    Sound clock (w.spawn_refresh name want_v6 timeout primary) := by
  unfold World.spawn_refresh
  dsimp only
  split
  case isTrue hgiven =>
    have hasks := h.ask hclock (.Refresh timeout) ⟨name, want_v6, primary⟩ false nofun
    have hnew := h.refreshing_ask name want_v6 timeout primary
    exact { hasks with
      cache := hasks.cache.begin_refresh fun _ e ⟨htold, hrecorded, _⟩ =>
        ⟨{ htold with }, hrecorded, fun _ => hnew⟩ }
  case isFalse hgiven =>
    exact { h with cache := h.cache.begin_refresh fun hyes => absurd hyes hgiven }

theorem lookup (h : Sound w.clock w) (name : Str) (want_v6 bypass_cache : Bool)
    (primary : List Str) : Sound (w.clock + 1) (w.lookup name want_v6 bypass_cache primary) := by
  have hnow : w.clock < w.clock + 1 := Nat.lt_succ_self _
  have hget := h.later.get name
  unfold World.lookup
  dsimp only
  split
  · split
    · exact h.later
    · exact h.later.ask hnow .Main _ _ nofun
  · split
    · exact { hget with }
    · exact hget
    · split
      · exact hget
      · exact hget.ask hnow .Main _ _ nofun

theorem claims (h : Sound w.clock w) (i : ℕ) (primary : List Str) :
    Sound (w.clock + 1) (w.claims i primary) := by
  unfold World.claims
  split
  case h_1 hit _ =>
    have hrest : Sound (w.clock + 1) { w with stale := w.stale.eraseIdx i } := { h.later with }
    exact hrest.spawn_refresh (Nat.lt_succ_self _) hit.name hit.want_v6 .Count primary
  case h_2 => exact h.later

/-- The sets as they were, but for a cache. -/
theorem modify_set (h : Sound clock w) (i : ℕ) (f : DnsCache Origin → DnsCache Origin)
    (hf : ∀ set, w.sets[i]? = some set → (f set.cache).All fun name e =>
      Told clock w.now name e ∧ set.made ≤ e.origin.asked) :
    Sound clock
      { w with sets := w.sets.modify i fun set => { set with cache := f set.cache } } := by
  have hkept : ∀ {j : ℕ} {set : ViaSet}, w.sets[j]? = some set →
      ∃ set', (w.sets.modify i fun set => { set with cache := f set.cache })[j]? = some set' ∧
        set'.made = set.made := by
    intro j set hset
    refine ⟨if i = j then { set with cache := f set.cache } else set, ?_, ?_⟩
    · rw [List.getElem?_modify, hset]
      rfl
    · split <;> rfl
  exact
  { h with
    sets := fun j set hset => by
      change (w.sets.modify i _)[j]? = some set at hset
      rw [List.getElem?_modify] at hset
      obtain ⟨old, hold, rfl⟩ := Option.map_eq_some_iff.1 hset
      obtain ⟨hmade, hall⟩ := h.sets j old hold
      split
      case isTrue hj => exact ⟨hmade, hf old (hj ▸ hold)⟩
      case isFalse => exact ⟨hmade, hall⟩
    vias := fun key j hvia => by
      obtain ⟨set, hset, hmade⟩ := h.vias key j hvia
      obtain ⟨set', hset', hsame⟩ := hkept hset
      exact ⟨set', hset', hsame ▸ hmade⟩
    holds := fun c j task htask hpurpose => by
      obtain ⟨set, hset, hmade⟩ := h.holds c j task htask hpurpose
      obtain ⟨set', hset', hsame⟩ := hkept hset
      exact ⟨set', hset', hsame ▸ hmade⟩ }

theorem via_set (h : Sound w.clock w) (key : Str) : Sound (w.clock + 1) (w.via_set key) := by
  have hkept : ∀ {j : ℕ} {set : ViaSet}, w.sets[j]? = some set →
      (w.sets ++ [⟨w.clock, DnsCache.new w.cfg.cache_capacity⟩])[j]? = some set := fun hset =>
    (List.getElem?_append_left (List.getElem?_eq_some_iff.1 hset).1).trans hset
  unfold World.via_set
  split
  case h_1 => exact h.later
  case h_2 hnone =>
    exact
    { h.later with
      sets := fun j set hset => by
        change (w.sets ++ [_])[j]? = some set at hset
        rw [List.getElem?_append, List.getElem?_singleton] at hset
        split at hset
        case isTrue => exact h.later.sets j set hset
        case isFalse =>
          split at hset
          case isTrue =>
            obtain rfl := Option.some_inj.1 hset
            exact ⟨Nat.lt_succ_self _, DnsCache.all_new _⟩
          case isFalse => cases hset
      vias := fun κ j hvia => by
        change (w.vias.insert key w.sets.length).lookup κ = some j at hvia
        rw [Assoc.lookup_insert_apply] at hvia
        split at hvia
        case isTrue =>
          cases hvia
          exact ⟨⟨w.clock, .new w.cfg.cache_capacity⟩, by simp, h.flushed.vias⟩
        case isFalse =>
          obtain ⟨set, hset, hmade⟩ := h.vias κ j hvia
          exact ⟨set, hkept hset, hmade⟩
      holds := fun c j task htask hpurpose => by
        obtain ⟨set, hset, hmade⟩ := h.holds c j task htask hpurpose
        exact ⟨set, hkept hset, hmade⟩ }

theorem lookup_on (h : Sound w.clock w) (i : ℕ) (name : Str) (want_v6 bypass_cache : Bool)
    (upstreams : List Str) :
    Sound (w.clock + 1) (w.lookup_on i name want_v6 bypass_cache upstreams) := by
  have hnow : w.clock < w.clock + 1 := Nat.lt_succ_self _
  unfold World.lookup_on
  split
  case h_1 => exact h.later
  case h_2 set hset =>
    dsimp only
    split
    · refine h.later.ask hnow (.Via i) _ _ fun j hj => ?_
      cases hj
      exact ⟨set, hset, (h.sets i set hset).1.le⟩
    · have hget := h.later.modify_set i (fun cache => (set.cache.get w.now name).2)
        fun set' hset' => by
          obtain rfl := Option.some_inj.1 (hset.symm.trans hset')
          exact (h.later.sets i set hset).2.get w.now name
      split
      · exact hget
      · refine hget.ask hnow (.Via i) _ _ fun j hj => ?_
        cases hj
        refine ⟨{ set with cache := (set.cache.get w.now name).2 }, ?_, (h.sets i set hset).1.le⟩
        change (w.sets.modify i _)[i]? = _
        rw [List.getElem?_modify, hset]
        simp

/-! ### What a task does with its result -/

section

variable {c : ℕ} {task : Task} {caller : Caller Stamp} {r : Stamp} {query : Coalesce.Query}

/-- What is known of a result that a task was given. -/
theorem given (h : Sound w.clock w) (htask : w.tasks[c]? = some task)
    (hcaller : w.co.callers[c]? = some caller) (hphase : caller.phase = .Done r query) :
    task.asked ≤ r.ended ∧ r.Past w.clock ∧
      (query = .Own → ∃ key sender, w.co.channels[r.fanout]? = some ⟨key, c, sender⟩) := by
  refine h.timed.done hcaller (t := task.asked) ?_ hphase
  rw [List.getElem?_map, htask]
  rfl

/-- What is recorded tells truly where it is from. -/
theorem told (h : Sound w.clock w) (htask : w.tasks[c]? = some task)
    (hcaller : w.co.callers[c]? = some caller) (hphase : caller.phase = .Done r query)
    {e : Entry Origin} (horigin : e.origin = w.origin caller.question task.asked r)
    (haddrs : match e.addrs with
      | none => e.expires_at = w.now + Dns.NEGATIVE_TTL
      | some a => a.v6_queried = caller.question.want_v6 ∧ a.ttl ≠ 0 ∧
        e.expires_at = w.now + a.ttl) :
    Told (w.clock + 1) w.now caller.question.name e := by
  obtain ⟨hasked, hpast, -⟩ := h.given htask hcaller hphase
  constructor <;> rw [horigin]
  · rfl
  · exact hasked
  · exact hpast.1
  · exact hpast.2.le
  · exact Nat.lt_succ_self _
  · exact le_rfl
  · exact haddrs

/-- The result is in the cache, and the name's entry is not one that is being refreshed. -/
theorem recorded (h : Sound w.clock w) (hcaller : w.co.callers[c]? = some caller)
    (htask : w.tasks[c]? = some task) (hstage : task.stage = .Querying) {cache : DnsCache Origin}
    {s : Stage} (hs : ∀ x, s ≠ .Suppressing x)
    (hcache : cache.All fun name e => Told (w.clock + 1) w.now name e ∧
      w.flushed.cache < e.origin.recorded ∧
      (e.refreshing = true → caller.question.name ≠ name ∧ Refreshing w.co w.tasks name)) :
    Sound (w.clock + 1) (({ w with cache := cache }).stage c s) := by
  have hcached : Sound (w.clock + 1) { w with cache := cache } :=
    { h.later with
      cache := hcache.mono fun _ _ ⟨htold, hrecorded, he⟩ =>
        ⟨htold, hrecorded, fun hrefreshing => (he hrefreshing).2⟩ }
  refine hcached.stage c s ?_ (fun x hx => absurd hx (hs x)) ?_
  · intro task' caller' timeout htask' hcaller' hpurpose hquerying x hx he
    obtain rfl := Option.some_inj.1 (hcaller.symm.trans hcaller')
    exact ((hcache x hx).2.2 he).1
  · intro task' htask' hcounted
    obtain rfl := Option.some_inj.1 (htask.symm.trans htask')
    rw [hstage] at hcounted
    exact absurd hcounted id

/-- A task that is no refresh comes to a stage. -/
theorem stage_of_ne (h : Sound clock w) (htask : w.tasks[c]? = some task) {s : Stage}
    (hrefresh : task.stage ≠ .Querying ∨ ∀ timeout, task.purpose ≠ .Refresh timeout)
    (hpast : ∀ x, s = .Suppressing x → x.Past clock)
    (hcounted : task.stage.Counted → s.Counted) : Sound clock (w.stage c s) := by
  refine h.stage c s ?_ hpast fun task' htask' => ?_
  · intro task' caller' timeout htask' _ hpurpose hquerying
    obtain rfl := Option.some_inj.1 (htask.symm.trans htask')
    rcases hrefresh with hstage | hother
    · exact absurd hquerying hstage
    · exact absurd hpurpose (hother timeout)
  · obtain rfl := Option.some_inj.1 (htask.symm.trans htask')
    exact hcounted

theorem record (h : Sound w.clock w) (htask : w.tasks[c]? = some task)
    (hcaller : w.co.callers[c]? = some caller) (hphase : caller.phase = .Done r query)
    (hstage : task.stage = .Querying) :
    Sound (w.clock + 1) (w.record c task caller.question r) := by
  have hold : w.cache.All fun name e => name ≠ caller.question.name →
      Told (w.clock + 1) w.now name e ∧ w.flushed.cache < e.origin.recorded ∧
      (e.refreshing = true → caller.question.name ≠ name ∧ Refreshing w.co w.tasks name) :=
    h.later.cache.mono fun name e ⟨htold, hrecorded, he⟩ hne =>
      ⟨htold, hrecorded, fun hrefreshing => ⟨hne.symm, he hrefreshing⟩⟩
  have hquiet : task.stage.Counted → (Stage.Finished).Counted := fun _ => trivial
  unfold World.record
  dsimp only
  split
  case h_1 hpurpose =>
    exact h.later.stage_of_ne htask (.inr (by simp [hpurpose])) nofun hquiet
  case h_2 i hpurpose =>
    obtain ⟨set, hset, hmade⟩ := h.holds c i task htask hpurpose
    have hput := h.later.modify_set i (w.put_on caller.question task.asked r) fun set' hset' => by
      obtain rfl := Option.some_inj.1 (hset.symm.trans hset')
      obtain ⟨-, hall⟩ := h.later.sets i set hset
      have hrest := hall.mono fun name e he (_ : name ≠ caller.question.name) => he
      unfold World.put_on
      split
      · exact hrest.put fun httl => ⟨h.told htask hcaller hphase rfl ⟨rfl, httl, rfl⟩, hmade⟩
      · exact hrest.put_negative ⟨h.told htask hcaller hphase rfl rfl, hmade⟩
      · exact hall
    exact hput.stage_of_ne htask (.inr (by simp [hpurpose])) nofun hquiet
  case h_3 hnotElsewhere hnotVia =>
    split
    · refine h.recorded hcaller htask hstage (by split <;> nofun) (hold.put fun httl => ?_)
      exact ⟨h.told htask hcaller hphase rfl ⟨rfl, httl, rfl⟩, h.flushed.cache, nofun⟩
    · refine h.recorded hcaller htask hstage nofun (hold.put_negative ?_)
      exact ⟨h.told htask hcaller hphase rfl rfl, h.flushed.cache, nofun⟩
    · split
      · refine h.recorded hcaller htask hstage nofun (hold.end_refresh fun e hentry => ?_)
        obtain ⟨htold, hrecorded, -⟩ := h.later.cache.entry hentry
        exact ⟨{ htold with }, hrecorded, nofun⟩
      · refine h.later.stage_of_ne htask (.inr ?_) nofun hquiet
        assumption

theorem count (h : Sound w.clock w) (htask : w.tasks[c]? = some task)
    (hcaller : w.co.callers[c]? = some caller) (hphase : caller.phase = .Done r query)
    {a : Fanout.Answers} (hstage : task.stage = .Counting a) :
    Sound (w.clock + 1) (w.count c task r query a) := by
  have hquerying : task.stage ≠ .Querying := by simp [hstage]
  obtain ⟨hasked, hpast, hown⟩ := h.given htask hcaller hphase
  unfold World.count
  split
  · split
    case isTrue hcounts =>
      have hquery : query = .Own := by
        unfold timeout at hcounts
        split at hcounts
        · rfl
        · cases hcounts
      obtain ⟨key, sender, hchannel⟩ := hown hquery
      have hcount : Count.Past ⟨r.fanout, task.asked, r.began, r.ended, w.clock⟩ (w.clock + 1) :=
        ⟨hasked, hpast.1, hpast.2.le, Nat.lt_succ_self _⟩
      have hnew : r.fanout ∉ w.counted := by
        intro hmem
        obtain ⟨κ, c', sender', task', hchannel', htask', hcounted⟩ := h.counted _ hmem
        cases hchannel.symm.trans hchannel'
        obtain rfl := Option.some_inj.1 (htask.symm.trans htask')
        rw [hstage] at hcounted
        exact hcounted
      dsimp only
      -- The task's stage and the counts change together.
      have hstaged : Sound (w.clock + 1) (w.stage c (if AAAA_SUPPRESS_AFTER ≤ w.aaaa_failures + 1
          then .Suppressing ⟨r.fanout, task.asked, r.began, r.ended, w.clock⟩ else .Again a)) := by
        refine h.later.stage_of_ne htask (.inl hquerying) (fun x hx => ?_) fun _ => ?_
        · split at hx
          · cases hx
            exact hcount
          · cases hx
        · split <;> trivial
      have htask' : (w.stage c (if AAAA_SUPPRESS_AFTER ≤ w.aaaa_failures + 1
          then .Suppressing ⟨r.fanout, task.asked, r.began, r.ended, w.clock⟩
          else .Again a)).tasks[c]? = some { task with stage :=
            (if AAAA_SUPPRESS_AFTER ≤ w.aaaa_failures + 1
              then .Suppressing ⟨r.fanout, task.asked, r.began, r.ended, w.clock⟩
              else .Again a) } := by
        rw [World.stage, List.getElem?_modify, htask]
        simp
      exact
      { hstaged with
        failures := by
          change w.aaaa_failures + 1 = (w.counts ++ [_]).length
          rw [h.failures, List.length_append, List.length_singleton]
        counts := fun x hx => by
          rcases List.mem_append.1 hx with hx | hx
          · exact h.later.counts x hx
          · obtain rfl := List.mem_singleton.1 hx
            exact ⟨hcount, h.flushed.failures⟩
        among := by
          change ((w.counts ++ [_]).map Count.fanout).Sublist (w.counted ++ [r.fanout])
          rw [List.map_append]
          exact h.among.append (.refl _)
        once := by
          change (w.counted ++ [r.fanout]).Nodup
          rw [List.nodup_append]
          refine ⟨h.once, List.nodup_singleton _, fun i hi j hj => ?_⟩
          obtain rfl := List.mem_singleton.1 hj
          rintro rfl
          exact hnew hi
        counted := fun i hi => by
          rcases List.mem_append.1 hi with hi | hi
          · exact hstaged.counted i hi
          · obtain rfl := List.mem_singleton.1 hi
            exact ⟨key, c, sender, _, hchannel, htask', by split <;> trivial⟩ }
    case isFalse =>
      exact h.later.stage_of_ne htask (.inl hquerying) nofun fun _ => trivial
  · exact
    { h.later.stage_of_ne (s := .Again a) htask (.inl hquerying) nofun fun _ => trivial with
      failures := rfl
      counts := nofun
      among := List.nil_sublist _ }

theorem suppress (h : Sound w.clock w) (htask : w.tasks[c]? = some task) {x : Count}
    (hstage : task.stage = .Suppressing x) (a : Fanout.Answers) :
    Sound (w.clock + 1) (w.suppress c x a) := by
  have hx := h.suppressing c task x htask hstage
  exact
  { h.later.stage_of_ne (s := .Again a) htask (.inl (by simp [hstage])) nofun fun _ => trivial with
    raised := fun _ => by
      change ∃ x' t, (if w.aaaa_suppressed then w.raised else some (x, w.clock)) = some (x', t) ∧ _
      by_cases hup : w.aaaa_suppressed = true
      · rw [if_pos hup]
        exact h.later.raised hup
      · rw [if_neg hup]
        exact ⟨x, w.clock, rfl, hx.mono (Nat.le_succ _), Nat.lt_succ_self _,
          h.flushed.suppressed⟩ }

theorem again (h : Sound w.clock w) (htask : w.tasks[c]? = some task) {a : Fanout.Answers}
    (hstage : task.stage = .Again a) (question : Coalesce.Question) (primary : List Str) :
    Sound (w.clock + 1) (w.again c task question a primary) := by
  have hdone := h.later.stage_of_ne (s := .Finished) htask (.inl (by simp [hstage])) nofun
    fun _ => trivial
  unfold World.again
  dsimp only
  split
  · split
    · exact hdone.spawn_refresh (Nat.lt_succ_self _) _ _ _ _
    · exact hdone
  · exact hdone

theorem goes (h : Sound w.clock w) (c : ℕ) (primary : List Str) :
    Sound (w.clock + 1) (w.goes c primary) := by
  unfold World.goes
  split
  case h_1 task caller htask hcaller =>
    split
    case h_1 r query hphase =>
      split
      case h_1 hstage => exact h.record htask hcaller hphase hstage
      case h_2 a hstage => exact h.count htask hcaller hphase hstage
      case h_3 x a hstage hok => exact h.suppress htask hstage a
      case h_4 a hstage => exact h.again htask hstage _ primary
      case h_5 => exact h.later
    case h_2 => exact h.later
  case h_2 => exact h.later

end

/-! ### The callers' steps -/

/-- A step of the callers that makes no channel. -/
theorem co_step_of_ne (h : Sound w.clock w) {a : Coalesce.Action Stamp}
    (hcall : ∀ question bypass_cache, a ≠ .call question bypass_cache)
    (hends : ∀ c r, a = .ends c r → Timed.Stamps w.co w.begun w.clock c r)
    (hdrop : ∀ (c : ℕ) (task : Task) (timeout : AaaaTimeout), a = .drop c →
      w.tasks[c]? = some task → task.purpose ≠ .Refresh timeout)
    (hinsert : ∀ c, a ≠ .insert c) : Sound (w.clock + 1) { w with co := w.co.step a } := by
  have := h.co_step hcall hends hdrop
  rwa [Timed.begun_after_of_ne h.timed.channels hinsert] at this

theorem insert (h : Sound w.clock w) (c : ℕ) : Sound (w.clock + 1) (w.insert c) :=
  h.co_step (a := .insert c) nofun nofun nofun

theorem ends (h : Sound w.clock w) (c : ℕ) (outcome : Except Fanout.FanoutError Fanout.Answers) :
    Sound (w.clock + 1) (w.ends c outcome) := by
  unfold World.ends
  split
  case h_1 caller hcaller =>
    split
    case h_1 i hphase =>
      refine h.co_step_of_ne nofun (fun c' r ha caller' j hcaller' hphase' => ?_) nofun nofun
      cases ha
      obtain rfl := Option.some_inj.1 (hcaller.symm.trans hcaller')
      cases hphase.symm.trans hphase'
      exact ⟨rfl, rfl, rfl⟩
    case h_2 => exact h.later
  case h_2 => exact h.later

theorem drop (h : Sound w.clock w) (c : ℕ) : Sound (w.clock + 1) (w.drop c) := by
  unfold World.drop
  split
  case h_1 task htask =>
    split
    case h_1 => exact h.later
    case h_2 hnot =>
      refine h.co_step_of_ne nofun nofun (fun c' task' timeout ha htask' => ?_) nofun
      cases ha
      obtain rfl := Option.some_inj.1 (htask.symm.trans htask')
      exact hnot timeout
  case h_2 => exact h.later

/-! ### The bootstrap -/

/-- The bootstrap's tasks changed, each as its past allows. -/
theorem modify_boots (h : Sound clock w) (b : ℕ) (f : Boot → Boot)
    (hf : ∀ boot : Boot, boot.Past clock → (f boot).Past clock) :
    Sound clock { w with boots := w.boots.modify b f } :=
  { h with
    boots := fun boot hboot => by
      obtain ⟨i, hi⟩ := List.mem_iff_getElem?.1 hboot
      change (w.boots.modify b f)[i]? = some boot at hi
      rw [List.getElem?_modify] at hi
      obtain ⟨old, hold, rfl⟩ := Option.map_eq_some_iff.1 hi
      have hpast := h.boots old (List.mem_of_getElem? hold)
      split
      · exact hf old hpast
      · exact hpast }

theorem boot_ask (h : Sound clock w) (hclock : w.clock < clock) (name : Str) (refresh : Bool) :
    Sound clock (w.boot_ask name refresh) :=
  { h with
    boots := fun boot hboot => by
      rcases List.mem_append.1 hboot with hboot | hboot
      · exact h.boots boot hboot
      · obtain rfl := List.mem_singleton.1 hboot
        exact ⟨hclock, nofun, nofun⟩ }

theorem resolve (h : Sound w.clock w) (name : Str) : Sound (w.clock + 1) (w.resolve name) := by
  have hnow : w.clock < w.clock + 1 := Nat.lt_succ_self _
  have hget : Sound (w.clock + 1) { w with bootstrap := (w.bootstrap.get w.now name).2 } :=
    { h.later with bootstrap := h.later.bootstrap.get w.now name }
  unfold World.resolve
  dsimp only
  split
  · exact hget
  · exact { hget with }
  · exact hget.boot_ask hnow name false

theorem boot_claims (h : Sound w.clock w) (i : ℕ) :
    Sound (w.clock + 1) (w.boot_claims i) := by
  unfold World.boot_claims
  split
  case h_1 name _ =>
    have hbegin : Sound (w.clock + 1) { w with
        boot_stale := w.boot_stale.eraseIdx i
        bootstrap := (w.bootstrap.begin_refresh w.now name).2 } :=
      { h.later with
        bootstrap := h.later.bootstrap.begin_refresh fun _ e ⟨htold, hrecorded⟩ =>
          ⟨{ htold with }, hrecorded⟩ }
    dsimp only
    split
    · exact hbegin.boot_ask (Nat.lt_succ_self _) name true
    · exact hbegin
  case h_2 => exact h.later

theorem boot_begins (h : Sound w.clock w) (b : ℕ) : Sound (w.clock + 1) (w.boot_begins b) := by
  refine h.later.modify_boots b _ fun boot hboot => ⟨hboot.asked, fun t ht => ?_, hboot.result⟩
  rcases hbegan : boot.began with _ | t'
  · obtain rfl : w.clock = t := by simpa [hbegan] using ht
    exact ⟨Nat.le_of_lt_succ hboot.asked, Nat.lt_succ_self _⟩
  · obtain rfl : t' = t := by simpa [hbegan] using ht
    exact hboot.began t' hbegan

theorem boot_ends (h : Sound w.clock w) (b : ℕ)
    (outcome : Except Fanout.FanoutError Fanout.Answers) :
    Sound (w.clock + 1) (w.boot_ends b outcome) := by
  refine h.later.modify_boots b _ fun boot hboot => ?_
  split
  case h_1 t hbegan hresult =>
    obtain ⟨hasked, ht⟩ := hboot.began t hbegan
    refine ⟨hboot.asked, hboot.began, fun r hr => ?_⟩
    cases hr
    exact ⟨hasked, Nat.le_of_lt_succ ht, Nat.lt_succ_self _⟩
  case h_2 => exact hboot

theorem boot_goes (h : Sound w.clock w) (b : ℕ) : Sound (w.clock + 1) (w.boot_goes b) := by
  unfold World.boot_goes
  split
  case h_1 name refresh asked began r hboot =>
    obtain ⟨hasked, hpast⟩ := (h.boots _ (List.mem_of_getElem? hboot)).result r rfl
    have hrest : w.bootstrap.All fun n e => n ≠ name → Told (w.clock + 1) w.now n e ∧
        w.flushed.bootstrap < e.origin.recorded :=
      h.later.bootstrap.mono fun n e he _ => he
    have hboots := h.later.modify_boots b (fun boot => { boot with finished := true })
      fun boot hboot => { hboot with }
    refine { hboots with bootstrap := ?_ }
    dsimp only
    split
    · refine hrest.put fun httl => ⟨⟨rfl, hasked.trans hpast.1, hpast.1, hpast.2.le,
        Nat.lt_succ_self _, le_rfl, rfl, httl, rfl⟩, h.flushed.bootstrap⟩
    · split
      · refine hrest.end_refresh fun e he => ?_
        obtain ⟨htold, hrecorded⟩ := h.later.bootstrap.entry he
        exact ⟨{ htold with }, hrecorded⟩
      · exact h.later.bootstrap
  case h_2 => exact h.later

/-! ### Every step -/

theorem passes (h : Sound w.clock w) (time : ℕ) :
    Sound (w.clock + 1) { w with now := w.now + time } :=
  have hlater := h.later
  have hnow : w.now ≤ w.now + time := Nat.le_add_right _ _
  { hlater with
    cache := hlater.cache.mono fun _ _ he => ⟨he.1.mono le_rfl hnow, he.2⟩
    sets := fun i set hset => ⟨(hlater.sets i set hset).1,
      (hlater.sets i set hset).2.mono fun _ _ he => ⟨he.1.mono le_rfl hnow, he.2⟩⟩
    bootstrap := hlater.bootstrap.mono fun _ _ he => ⟨he.1.mono le_rfl hnow, he.2⟩ }

/-- A flush of one part leaves the others as they were. -/
theorem flush (h : Sound w.clock w) (a : Action) (ha : a ∈ [Action.flush_cache, .clear_vias,
    .flush_bootstrap, .reset_failures, .lift_suppression]) : Sound (w.clock + 1) (w.act a) := by
  have hnow : w.clock < w.clock + 1 := Nat.lt_succ_self _
  have hlater := h.later
  fin_cases ha
  · exact { hlater with
      flushed := { hlater.flushed with cache := hnow }
      cache := DnsCache.all_flush }
  · exact { hlater with
      flushed := { hlater.flushed with vias := hnow }
      vias := fun key i hvia => by
        change (∅ : Assoc Str ℕ).lookup key = some i at hvia
        simp at hvia }
  · exact { hlater with
      flushed := { hlater.flushed with bootstrap := hnow }
      bootstrap := DnsCache.all_flush }
  · exact { hlater with
      flushed := { hlater.flushed with failures := hnow }
      failures := rfl
      counts := nofun
      among := List.nil_sublist _ }
  · exact { hlater with
      flushed := { hlater.flushed with suppressed := hnow }
      raised := nofun }

/-- **Every step of the resolver keeps what holds of it.** -/
theorem act (h : Sound w.clock w) (a : Action) : Sound (w.clock + 1) (w.act a) := by
  cases a with
  | passes time => exact h.passes time
  | lookup name want_v6 bypass_cache primary => exact h.lookup name want_v6 bypass_cache primary
  | claims i primary => exact h.claims i primary
  | via_set key => exact h.via_set key
  | lookup_on set name want_v6 bypass_cache upstreams =>
    exact h.lookup_on set name want_v6 bypass_cache upstreams
  | elsewhere name want_v6 bypass_cache upstreams =>
    exact h.later.ask (Nat.lt_succ_self _) .Elsewhere _ _ nofun
  | look c => exact h.co_step_of_ne nofun nofun nofun nofun
  | wait c => exact h.co_step_of_ne nofun nofun nofun nofun
  | insert c => exact h.insert c
  | ends c outcome => exact h.ends c outcome
  | drop c => exact h.drop c
  | goes c primary => exact h.goes c primary
  | resolve name => exact h.resolve name
  | boot_claims i => exact h.boot_claims i
  | boot_begins b => exact h.boot_begins b
  | boot_ends b outcome => exact h.boot_ends b outcome
  | boot_goes b => exact h.boot_goes b
  | flush_cache => exact h.flush _ (by simp)
  | clear_vias => exact h.flush _ (by simp)
  | flush_bootstrap => exact h.flush _ (by simp)
  | reset_failures => exact h.flush _ (by simp)
  | lift_suppression => exact h.flush _ (by simp)

end Sound

end Resolver

end Rurge
