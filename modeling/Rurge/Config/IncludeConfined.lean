import Rurge.Config.IncludeRuns

/-!
# What an expansion looks at

The file system is asked only for the paths named on the lines of the user's own text, which are
reached from the main text through local includes, so that nothing else of it matters.
-/

namespace Rurge

namespace Config

variable {Url : Type*} {w : Setup Url} {depth : ℕ}
  {nested nested' : Profile → State Url → Profile × State Url} {profile text : Profile}
  {st st' : State Url} {target : Str} {span : Span} {reach : Reach}

/-! ### The paths that may be looked at -/

/-- A line of the user's own text: of the main text, unless that was downloaded, or of a local file
that such a line includes. -/
inductive OwnLine (w : Setup Url) (profile : Profile) : Entry → Prop
  | main {s : Section} {entry : Entry} : s ∈ profile.sections → entry ∈ s.entries →
      entry.origin.reach = .Anywhere → OwnLine w profile entry
  | included {line entry : Entry} {targets : List Str} {target content : Str} {s : Section} :
      OwnLine w profile line → include_targets line.raw = some targets → target ∈ targets →
      is_url target = false →
      w.fs.read_to_string (target_path w.opts.base_dir target) = .ok content →
      s ∈ (parse_str content (target_path w.opts.base_dir target)
        (.Include (target_path w.opts.base_dir target))).1.sections →
      entry ∈ s.entries → OwnLine w profile entry

/-- A path named on a line of the user's own text. -/
def OwnPath (w : Setup Url) (profile : Profile) (path : Str) : Prop :=
  ∃ line targets target, OwnLine w profile line ∧ include_targets line.raw = some targets ∧
    target ∈ targets ∧ is_url target = false ∧ path = target_path w.opts.base_dir target

/-- A text whose lines that may name a local file are the user's own. -/
def Own (w : Setup Url) (profile text : Profile) : Prop :=
  ∀ entry target, On text entry target → entry.origin.reach.include_refusal = none →
    OwnLine w profile entry

theorem reach_anywhere {reach : Reach} (h : reach.include_refusal = none) : reach = .Anywhere := by
  cases reach with
  | Anywhere => rfl
  | ManagedCopy => cases h
  | Nowhere => cases h

theorem own_self (w : Setup Url) (profile : Profile) : Own w profile profile := by
  rintro entry target ⟨s, hs, hentry, -⟩ hreach
  exact .main hs hentry (reach_anywhere hreach)

/-- What is asked of the file system is about the user's own paths. -/
def Confined (w : Setup Url) (profile : Profile) (st st' : State Url) : Prop :=
  ∃ events, st'.trace = st.trace ++ events ∧
    ∀ path, .looked path ∈ events ∨ .opened path ∈ events → OwnPath w profile path

theorem confined_of_trace (h : st'.trace = st.trace) : Confined w profile st st' :=
  ⟨[], by rw [h, List.append_nil], by simp⟩

theorem confined_keeps (w : Setup Url) (profile : Profile) : Keeps (Confined w profile) where
  refl st := confined_of_trace rfl
  trans := by
    rintro st st' st'' ⟨events, htrace, hown⟩ ⟨events', htrace', hown'⟩
    refine ⟨events ++ events', by rw [htrace', htrace, List.append_assoc], fun path hpath => ?_⟩
    rcases hpath with hpath | hpath <;> rcases List.mem_append.1 hpath with hpath | hpath
    · exact hown path (.inl hpath)
    · exact hown' path (.inl hpath)
    · exact hown path (.inr hpath)
    · exact hown' path (.inr hpath)
  report st d := confined_of_trace rfl
  lacks st pos := confined_of_trace rfl

/-- The text of a target on a line of such a text is one. -/
theorem Own.reads {entry : Entry} (h : Own w profile text) (hon : On text entry target)
    {text' : Profile} (hreads : Reads w target entry.origin.reach text') : Own w profile text' := by
  rintro entry' target' ⟨s, hs, hentry', -⟩ hreach'
  obtain ⟨s₀, hs₀, hentry, targets, htargets, htarget⟩ := hon
  rcases hreads with ⟨hlocal, hreach, content, hread, rfl⟩ | ⟨-, content, path, rfl⟩
  · exact .included (h entry target ⟨s₀, hs₀, hentry, targets, htargets, htarget⟩ hreach) htargets
      htarget hlocal hread hs hentry'
  · rw [parse_str_origin content path _ s hs entry' hentry'] at hreach'
    cases hreach'

variable [DecidableEq Url]

theorem Asks.confined {entry : Entry} (hown : Own w profile text) (hon : On text entry target)
    (h : Asks w target entry.origin.reach st st') : Confined w profile st st' := by
  obtain ⟨events, htrace, hfor⟩ := h.trace
  refine ⟨events, htrace, fun path hpath => ?_⟩
  have hpath' : is_url target = false ∧ entry.origin.reach.include_refusal = none ∧
      path = target_path w.opts.base_dir target :=
    hpath.elim (hfor (.looked path)) (hfor (.opened path))
  have hline := hown entry target hon hpath'.2.1
  obtain ⟨s, hs, hentry, targets, htargets, htarget⟩ := hon
  exact ⟨entry, targets, target, hline, htargets, htarget, hpath'.1, hpath'.2.2⟩

/-- **An expansion is confined**: the file system is asked only for paths named on a line of the
user's own text. -/
theorem expand_at_confined (w : Setup Url) (profile : Profile) (depth : ℕ) (text : Profile)
    (hown : Own w profile text) (st : State Url) :
    Confined w profile st (expand_at w depth text st).2 := by
  refine expand_at_induct (w := w) (motive := fun _ nested => ∀ text, Own w profile text → ∀ st,
    Confined w profile st (nested text st).2) ?_ depth text hown st
  intro depth nested ih text hown st
  refine expand_with_keeps (confined_keeps w profile) (fun entry target hon st => ?_) st
  rcases take_in_cases w nested target entry.span depth entry.origin.reach st with
    ⟨st', htake, hasks, -⟩ | ⟨included, key, text', st₁, htaken, htake⟩
  · rw [htake]
    exact hasks.confined hown hon
  · rw [htake]
    have hkeeps := confined_keeps w profile
    obtain ⟨events, htrace, hpaths⟩ :=
      ih htaken.depth_lt text' (hown.reads hon htaken.reads) (st₁.push key)
    refine hkeeps.trans (htaken.asks.confined hown hon)
      ⟨.entered key :: (events ++ [.left_ key]), ?_, fun path hpath => hpaths path ?_⟩
    · simp only [State.pop, htrace]
      simp [State.push]
    · simpa using hpath

/-! ### What the rest of the file system holds -/

/-- A target is taken in the same where the file system is the same at the path it names. -/
theorem take_in_congr {fs : FileSystem}
    (hfs : is_url target = false → reach.include_refusal = none →
      fs.canonicalize (target_path w.opts.base_dir target) =
          w.fs.canonicalize (target_path w.opts.base_dir target) ∧
        fs.read_to_string (target_path w.opts.base_dir target) =
          w.fs.read_to_string (target_path w.opts.base_dir target))
    (hnested : ∀ text, Reads w target reach text → ∀ st, nested text st = nested' text st)
    (st : State Url) :
    take_in w nested target span depth reach st =
      take_in { w with fs } nested' target span depth reach st := by
  have hinside : ∀ key text, Reads w target reach text → ∀ st,
      inside nested key text st = inside nested' key text st := by
    intro key text htext st
    unfold inside
    rw [hnested text htext]
  unfold take_in
  cases hurl : is_url target with
  | true =>
    have hremote : ∀ content path, Reads w target reach (parse_str content path (.Remote path)).1 :=
      fun content path => .inr ⟨hurl, content, path, rfl⟩
    simp only [if_true, take_in_remote]
    cases w.urls.parse target with
    | none => rfl
    | some url =>
      cases w.remote with
      | none => rfl
      | some source => simp only [hinside _ _ (hremote _ _)]
  | false =>
    cases hreach : reach.include_refusal with
    | some refusal => rfl
    | none =>
      obtain ⟨hcanonical, hread⟩ := hfs hurl hreach
      simp only [Bool.false_eq_true, if_false, take_in_local, canonical, hcanonical, hread]
      cases htext : w.fs.read_to_string (target_path w.opts.base_dir target) with
      | error e => rfl
      | ok content =>
        have hlocal := hinside (Visiting.File (components ((w.fs.canonicalize
          (target_path w.opts.base_dir target)).getD (target_path w.opts.base_dir target)))) _
          (.inl ⟨hurl, hreach, content, htext, rfl⟩)
        simp only [hlocal]

/-- **An expansion depends on nothing else of the file system** than the paths named on a line of
the user's own text. -/
theorem expand_at_congr {fs : FileSystem}
    (hfs : ∀ path, OwnPath w profile path → fs.canonicalize path = w.fs.canonicalize path ∧
      fs.read_to_string path = w.fs.read_to_string path)
    (depth : ℕ) (text : Profile) (hown : Own w profile text) (st : State Url) :
    expand_at w depth text st = expand_at { w with fs } depth text st := by
  refine expand_at_induct (w := w) (motive := fun depth nested => ∀ text, Own w profile text →
    ∀ st, nested text st = expand_at { w with fs } depth text st) ?_ depth text hown st
  intro depth nested ih text hown st
  rw [expand_at_eq]
  refine expand_with_congr (fun entry target hon st => ?_) st
  have hpath : is_url target = false → entry.origin.reach.include_refusal = none →
      OwnPath w profile (target_path w.opts.base_dir target) := by
    intro hlocal hreach
    have hline := hown entry target hon hreach
    obtain ⟨s, hs, hentry, targets, htargets, htarget⟩ := hon
    exact ⟨entry, targets, target, hline, htargets, htarget, hlocal, rfl⟩
  by_cases hlt : depth < w.opts.max_depth
  · exact take_in_congr (fun hlocal hreach => hfs _ (hpath hlocal hreach))
      (fun text hreads => ih hlt text (hown.reads hon hreads)) st
  · rw [take_in_deep (not_lt.1 hlt)]
    exact take_in_congr (fun hlocal hreach => hfs _ (hpath hlocal hreach))
      (fun text hreads st => rfl) st

/-- A run depends on the main file's own path and the user's own paths only. -/
theorem run_congr {fs : FileSystem}
    (hmain : ∀ main, profile.main = some main → fs.canonicalize main = w.fs.canonicalize main)
    (hfs : ∀ path, OwnPath w profile path → fs.canonicalize path = w.fs.canonicalize path ∧
      fs.read_to_string path = w.fs.read_to_string path) :
    run { w with fs } profile = run w profile := by
  have hstart : start { w with fs } profile = start w profile := by
    unfold start
    cases hmain' : profile.main with
    | none => rfl
    | some main => simp only [canonical, hmain main hmain']
  rw [run, run, hstart]
  exact (expand_at_congr hfs 0 profile (own_self w profile) _).symm

/-- What a run asks of the file system is about the main file's own path and the user's own. -/
theorem run_confined (w : Setup Url) (profile : Profile) (path : Str) :
    (.looked path ∈ (run w profile).2.trace →
      profile.main = some path ∨ OwnPath w profile path) ∧
    (.opened path ∈ (run w profile).2.trace → OwnPath w profile path) := by
  obtain ⟨events, htrace, hpaths⟩ :=
    expand_at_confined w profile 0 profile (own_self w profile) (start w profile)
  rw [run, htrace]
  unfold start
  cases hmain : profile.main with
  | none =>
    simp only [List.nil_append]
    exact ⟨fun h => .inr (hpaths path (.inl h)), fun h => hpaths path (.inr h)⟩
  | some main =>
    simp only [canonical, State.note, List.nil_append, List.mem_append, List.mem_singleton]
    refine ⟨fun h => h.elim (fun h => ?_) fun h => .inr (hpaths path (.inl h)), fun h =>
      h.elim (fun h => ?_) fun h => hpaths path (.inr h)⟩
    · cases h
      exact .inl rfl
    · cases h

end Config

end Rurge
