import Rurge.Dns.ResolverSound

/-!
# What a lookup is answered from

A lookup is answered from an entry of its name that is good for it, but for one kind: an empty
answer is kept without the families it was asked for, and the answer to a question for A alone
answers one for AAAA.  A stale answer goes with a refresh, unless the entry is gone by the time the
refresh is claimed.  What is recorded after a flush may be an answer from before it: nothing keeps
a late result out.
-/

namespace Rurge

namespace Resolver

open Dns (CacheHit DnsCache Entry)

namespace World

theorem sound_step {w : World} (a : Action) (h : Sound w.clock w) :
    Sound (w.step a).clock (w.step a) := { h.act a with }

/-- What holds of the resolver holds in every state of every run. -/
theorem sound_run (cfg : Config) (actions : List Action) :
    Sound (Runs.run step (new cfg) actions).clock (Runs.run step (new cfg) actions) :=
  Runs.run_invariant (I := fun w => Sound w.clock w) (fun _ a => sound_step a) (Sound.new cfg)
    actions

/-! ### The questions a lookup is answered for -/

/-- The entry of a hit is of the lookup's name and was asked for what the lookup wants; a negative
one is within its time, and no answer had TTL 0. -/
structure Fits (now : ℕ) (name : Str) (want_v6 : Bool) (hit : CacheHit) (e : Entry Origin) :
    Prop where
  name : e.origin.question.name = name
  wants : want_v6 = true → e.origin.question.want_v6 = true
  hit : match hit with
    | .Negative => e.addrs = none ∧ now < e.origin.at_ + Dns.NEGATIVE_TTL
    | .Fresh a => e.addrs = some a ∧ a.ttl ≠ 0 ∧ now < e.origin.at_ + a.ttl
    | .Stale a => e.addrs = some a ∧ a.ttl ≠ 0

/-- No lookup that wants AAAA meets an empty answer to a question for A alone, and none that a stale
entry answers finds, as it claims the refresh, that its name has no entry and none is under way. -/
def Careful (w : World) : Action → Prop
  | .lookup name true false _ => ∀ e, w.cache.entry name = some e → e.addrs = none →
    w.now < e.expires_at → e.origin.question.want_v6 = true
  | .claims i _ => ∀ hit, w.stale[i]? = some hit → w.cache.entry hit.name = none →
    Refreshing w.co w.tasks hit.name
  | .lookup_on i name true false _ => ∀ set e, w.sets[i]? = some set →
    set.cache.entry name = some e → e.addrs = none → w.now < e.expires_at →
    e.origin.question.want_v6 = true
  | _ => True

variable {w : World} {name : Str} {want_v6 : Bool} {hit : CacheHit}

/-- What was recorded after the flush, with a result of a fan-out that began after it, or was under
way at it, or was asked for before it and had ended. -/
def Since (flush asked began ended done : ℕ) : Prop :=
  flush < done ∧ (flush < began ∨ began ≤ flush ∧ flush < ended ∨ ended ≤ flush ∧ asked ≤ flush)

theorem since {flush asked began ended done : ℕ} (hflush : flush < done) (hasked : asked ≤ ended) :
    Since flush asked began ended done := by
  refine ⟨hflush, ?_⟩
  omega

/-- What the caches and the counters hold is from after they were last flushed, or from what was
under way then. -/
structure Recent (w : World) : Prop where
  cache : ∀ (name : Str) (e : Entry Origin), w.cache.entry name = some e →
    Since w.flushed.cache e.origin.asked e.origin.began e.origin.ended e.origin.recorded
  bootstrap : ∀ (name : Str) (e : Entry Origin), w.bootstrap.entry name = some e →
    Since w.flushed.bootstrap e.origin.asked e.origin.began e.origin.ended e.origin.recorded
  /-- The set of an interface is a new one, and so are the lookups that record in it. -/
  vias : ∀ (key : Str) (i : ℕ), w.vias.lookup key = some i → ∃ set, w.sets[i]? = some set ∧
    ∀ (name : Str) (e : Entry Origin), set.cache.entry name = some e →
      w.flushed.vias < e.origin.asked ∧
      (w.flushed.vias < e.origin.began ∨
        e.origin.began ≤ w.flushed.vias ∧ w.flushed.vias < e.origin.ended)
  /-- The timeouts in a row are counts of so many fan-outs, and the flag is up for one of them. -/
  failures : w.aaaa_failures = w.counts.length ∧
    ∀ x ∈ w.counts, Since w.flushed.failures x.asked x.began x.ended x.counted
  raised : w.aaaa_suppressed = true → ∃ x t, w.raised = some (x, t) ∧
    Since w.flushed.suppressed x.asked x.began x.ended t
  /-- No fan-out is counted twice, now or ever. -/
  once : (w.counts.map Count.fanout).Sublist w.counted ∧ w.counted.Nodup

theorem recent_of_sound {clock : ℕ} (h : Sound clock w) : w.Recent where
  cache name e he :=
    let ⟨htold, hflushed, _⟩ := h.cache.entry he
    since hflushed htold.asked
  bootstrap name e he :=
    let ⟨htold, hflushed⟩ := h.bootstrap.entry he
    since hflushed htold.asked
  vias key i hvia := by
    obtain ⟨set, hset, hmade⟩ := h.vias key i hvia
    refine ⟨set, hset, fun name e he => ?_⟩
    obtain ⟨htold, hasked⟩ := (h.sets i set hset).2.entry he
    have := htold.asked
    omega
  failures := ⟨h.failures, fun x hx => since (h.counts x hx).2 (h.counts x hx).1.asked⟩
  raised hraised := by
    obtain ⟨x, t, hx, hpast, -, hflushed⟩ := h.raised hraised
    exact ⟨x, t, hx, since hflushed hpast.asked⟩
  once := ⟨h.among, h.once⟩

/-- **Nothing is older than the flush but what was under way at it**: in every state of
every run. -/
theorem flush_spec (cfg : Config) (actions : List Action) :
    Runs.Always step Recent (new cfg) actions := by
  refine Runs.always_iff.2 fun n => ?_
  exact recent_of_sound (sound_run cfg (actions.take n))

/-- A lookup in the middle of which the network changes. -/
def change_in_flight : List Action :=
  [.lookup "a.test".toList false false ["dns".toList], .look 0, .insert 0,
    .flush_cache, .clear_vias, .flush_bootstrap, .reset_failures, .lift_suppression, .clear_vias,
    .ends 0 (.ok ⟨[(167772161#32, 60)], [], "dns".toList, false, false⟩), .goes 0 []]

/-- The old network's answer is in the cache after the change. -/
theorem old_answer_outlives : ∃ e,
    (Runs.run step (new ⟨2000, false⟩) change_in_flight).cache.entry "a.test".toList = some e ∧
    ¬ (Runs.run step (new ⟨2000, false⟩) change_in_flight).flushed.cache < e.origin.began :=
  ⟨_, rfl, by decide⟩

end World

end Resolver

end Rurge
