import Rurge.Config.Include

/-!
# Expansions are bounded and confined

What one target does to an expansion is said once (`Asks`, `Taken`), and every property of a whole
expansion is derived from that by the rule for its loops (`expand_with_keeps`) and the induction
over the levels below a text (`expand_at_induct`).
-/

namespace Rurge

namespace Config

variable {Url : Type*} {w w' : Setup Url} {depth : ℕ}
  {nested nested' : Profile → State Url → Profile × State Url} {profile : Profile}
  {st st' : State Url} {target : Str} {span : Span} {reach : Reach}

/-! ### What is noted -/

/-- The URLs the source was asked for, in order. -/
def asked : List (Event Url) → List Url
  | [] => []
  | .asked url :: events => url :: asked events
  | _ :: events => asked events

/-- The texts that were taken in, in order. -/
def entered : List (Event Url) → List (Visiting Url)
  | [] => []
  | .entered key :: events => key :: entered events
  | _ :: events => entered events

/-- What is asked for a target on a line of this reach: the file system is asked for the path it
names only, and only where the line may name one. -/
def Event.For (w : Setup Url) (target : Str) (reach : Reach) : Event Url → Prop
  | .looked path => is_url target = false ∧ reach.include_refusal = none ∧
      path = target_path w.opts.base_dir target
  | .opened path => is_url target = false ∧ reach.include_refusal = none ∧
      path = target_path w.opts.base_dir target
  | .asked _ => True
  | .entered _ => False
  | .left_ _ => False

/-- Some include was refused, or there is nothing where it leads. -/
def Refused (st : State Url) : Prop := ∃ d ∈ st.diags, d.code.of_text = false

/-- That a target was one too many is reported. -/
def Loud (w : Setup Url) (st : State Url) : Prop := w.opts.max_files < st.count → Refused st

theorem asked_append (events more : List (Event Url)) :
    asked (events ++ more) = asked events ++ asked more := by
  induction events with
  | nil => rfl
  | cons e events ih => cases e <;> simp [asked, ih]

theorem entered_append (events more : List (Event Url)) :
    entered (events ++ more) = entered events ++ entered more := by
  induction events with
  | nil => rfl
  | cons e events ih => cases e <;> simp [entered, ih]

theorem Refused.mono (h : Refused st) (hdiags : st.diags <+: st'.diags) : Refused st' := by
  obtain ⟨d, hd, hcode⟩ := h
  exact ⟨d, hdiags.subset hd, hcode⟩

theorem refused_report {d : Diagnostic} (h : d.code.of_text = false) : Refused (st.report d) :=
  ⟨d, List.mem_append_right _ (List.mem_singleton_self d), h⟩

/-! ### The loops -/

/-- A target on a line of a text. -/
def On (profile : Profile) (entry : Entry) (target : Str) : Prop :=
  ∃ s ∈ profile.sections, entry ∈ s.entries ∧
    ∃ targets, include_targets entry.raw = some targets ∧ target ∈ targets

/-- A relation of states that what an expansion reports keeps. -/
structure Keeps (R : State Url → State Url → Prop) : Prop where
  refl : ∀ st, R st st
  trans : ∀ {st st' st''}, R st st' → R st' st'' → R st st''
  report : ∀ st d, R st (st.report d)
  lacks : ∀ st pos, R st (st.lacks pos)

theorem place_keeps {R : State Url → State Url → Prop} (hR : Keeps R) (name : Str) (span : Span)
    (included : Included) (st : State Url) : R st (place name span included st).2 := by
  unfold place
  split
  · split
    · exact hR.trans (hR.report _ _) (hR.lacks _ _)
    · exact hR.refl _
  · split
    · exact hR.refl _
    · simp only
      split
      · exact hR.trans (hR.lacks _ _) (hR.report _ _)
      · exact hR.report _ _

variable [DecidableEq Url]

theorem take_targets_keeps {R : State Url → State Url → Prop} (hR : Keeps R) (name : Str)
    (entry : Entry) {targets : List Str}
    (h : ∀ target ∈ targets, ∀ st,
      R st (take_in w nested target entry.span depth entry.origin.reach st).2) (st : State Url) :
    R st (take_targets w nested depth name entry targets st).2 := by
  induction targets generalizing st with
  | nil => exact hR.refl st
  | cons target rest ih =>
    have hstep := h target List.mem_cons_self st
    have hrest := ih fun target htarget => h target (List.mem_cons_of_mem _ htarget)
    rw [take_targets]
    rcases htake : take_in w nested target entry.span depth entry.origin.reach st with
      ⟨_ | included, st'⟩
    · rw [htake] at hstep
      exact hR.trans hstep (hrest st')
    · rw [htake] at hstep
      exact hR.trans hstep (hR.trans (place_keeps hR _ _ _ _) (hrest _))

theorem take_entries_keeps {R : State Url → State Url → Prop} (hR : Keeps R) (name : Str)
    {entries : List Entry}
    (h : ∀ entry ∈ entries, ∀ targets, include_targets entry.raw = some targets →
      ∀ target ∈ targets, ∀ st,
        R st (take_in w nested target entry.span depth entry.origin.reach st).2) (st : State Url) :
    R st (take_entries w nested depth name entries st).2 := by
  induction entries generalizing st with
  | nil => exact hR.refl st
  | cons entry rest ih =>
    have hrest := ih fun entry hentry => h entry (List.mem_cons_of_mem _ hentry)
    rw [take_entries]
    cases htargets : include_targets entry.raw with
    | none => exact hrest st
    | some targets =>
      have hline := take_targets_keeps hR name entry
        (h entry List.mem_cons_self targets htargets) st
      exact hR.trans hline (hrest _)

theorem take_sections_keeps {R : State Url → State Url → Prop} (hR : Keeps R)
    {sections : List Section}
    (h : ∀ s ∈ sections, ∀ entry ∈ s.entries, ∀ targets, include_targets entry.raw = some targets →
      ∀ target ∈ targets, ∀ st,
        R st (take_in w nested target entry.span depth entry.origin.reach st).2) (st : State Url) :
    R st (take_sections w nested depth sections st).2 := by
  induction sections generalizing st with
  | nil => exact hR.refl st
  | cons s rest ih =>
    have hentries := take_entries_keeps hR s.name (h s List.mem_cons_self) st
    have hrest := ih fun s hs => h s (List.mem_cons_of_mem _ hs)
    rw [take_sections]
    cases hwildcard : wildcard_prefix s.name with
    | none => exact hR.trans hentries (hrest _)
    | some start => exact hR.trans hentries (hrest _)

/-- **The loops of an expansion** keep what each target keeps. -/
theorem expand_with_keeps {R : State Url → State Url → Prop} (hR : Keeps R)
    (h : ∀ entry target, On profile entry target → ∀ st,
      R st (take_in w nested target entry.span depth entry.origin.reach st).2) (st : State Url) :
    R st (expand_with w nested depth profile st).2 :=
  take_sections_keeps hR (fun s hs entry hentry targets htargets target htarget st =>
    h entry target ⟨s, hs, hentry, targets, htargets, htarget⟩ st) st

theorem take_targets_congr (name : Str) (entry : Entry) {targets : List Str}
    (h : ∀ target ∈ targets, ∀ st,
      take_in w nested target entry.span depth entry.origin.reach st =
        take_in w' nested' target entry.span depth entry.origin.reach st) (st : State Url) :
    take_targets w nested depth name entry targets st =
      take_targets w' nested' depth name entry targets st := by
  induction targets generalizing st with
  | nil => rfl
  | cons target rest ih =>
    have hrest := ih fun target htarget => h target (List.mem_cons_of_mem _ htarget)
    rw [take_targets, take_targets, h target List.mem_cons_self st]
    rcases take_in w' nested' target entry.span depth entry.origin.reach st with
      ⟨_ | included, st'⟩
    · exact hrest st'
    · simp only [hrest]

theorem take_entries_congr (name : Str) {entries : List Entry}
    (h : ∀ entry ∈ entries, ∀ targets, include_targets entry.raw = some targets →
      ∀ target ∈ targets, ∀ st,
        take_in w nested target entry.span depth entry.origin.reach st =
          take_in w' nested' target entry.span depth entry.origin.reach st) (st : State Url) :
    take_entries w nested depth name entries st =
      take_entries w' nested' depth name entries st := by
  induction entries generalizing st with
  | nil => rfl
  | cons entry rest ih =>
    have hrest := ih fun entry hentry => h entry (List.mem_cons_of_mem _ hentry)
    rw [take_entries, take_entries]
    cases htargets : include_targets entry.raw with
    | none => simp only [hrest]
    | some targets =>
      simp only [hrest,
        take_targets_congr name entry (h entry List.mem_cons_self targets htargets)]

theorem take_sections_congr {sections : List Section}
    (h : ∀ s ∈ sections, ∀ entry ∈ s.entries, ∀ targets, include_targets entry.raw = some targets →
      ∀ target ∈ targets, ∀ st,
        take_in w nested target entry.span depth entry.origin.reach st =
          take_in w' nested' target entry.span depth entry.origin.reach st) (st : State Url) :
    take_sections w nested depth sections st = take_sections w' nested' depth sections st := by
  induction sections generalizing st with
  | nil => rfl
  | cons s rest ih =>
    have hrest := ih fun s hs => h s (List.mem_cons_of_mem _ hs)
    rw [take_sections, take_sections]
    simp only [hrest, take_entries_congr s.name (h s List.mem_cons_self)]

/-- Expansions whose targets take in the same are the same. -/
theorem expand_with_congr
    (h : ∀ entry target, On profile entry target → ∀ st,
      take_in w nested target entry.span depth entry.origin.reach st =
        take_in w' nested' target entry.span depth entry.origin.reach st) (st : State Url) :
    expand_with w nested depth profile st = expand_with w' nested' depth profile st := by
  unfold expand_with
  rw [take_sections_congr fun s hs entry hentry targets htargets target htarget st =>
    h entry target ⟨s, hs, hentry, targets, htargets, htarget⟩ st]

/-! ### One target -/

/-- The source was asked once for each answer there is, and said it. -/
structure Answered (w : Setup Url) (st : State Url) : Prop where
  asked : asked st.trace = st.answers.map Prod.fst
  nodup : (st.answers.map Prod.fst).Nodup
  source : ∀ source, w.remote = some source → ∀ url remote,
    st.answers.lookup url = some remote → remote = source url

/-- What a target does to an expansion before its text is expanded. -/
structure Asks (w : Setup Url) (target : Str) (reach : Reach) (st st' : State Url) : Prop where
  stack : st'.stack = st.stack
  count : st.count ≤ st'.count
  diags : st.diags <+: st'.diags
  trace : ∃ events, st'.trace = st.trace ++ events ∧ ∀ e ∈ events, e.For w target reach
  answered : Answered w st → Answered w st'
  loud : Loud w st → Loud w st'

theorem Asks.refl (st : State Url) : Asks w target reach st st :=
  ⟨rfl, le_rfl, List.prefix_rfl, ⟨[], by simp, by simp⟩, id, id⟩

theorem Asks.trans {st'' : State Url} (h : Asks w target reach st st')
    (h' : Asks w target reach st' st'') : Asks w target reach st st'' := by
  obtain ⟨events, htrace, hfor⟩ := h.trace
  obtain ⟨events', htrace', hfor'⟩ := h'.trace
  refine ⟨h'.stack.trans h.stack, h.count.trans h'.count, h.diags.trans h'.diags,
    ⟨events ++ events', by rw [htrace', htrace, List.append_assoc], fun e he => ?_⟩,
    fun ha => h'.answered (h.answered ha), fun hl => h'.loud (h.loud hl)⟩
  exact (List.mem_append.1 he).elim (hfor e) (hfor' e)

theorem Asks.extend (st : State Url) (ds : List Diagnostic) :
    Asks w target reach st (st.extend ds) :=
  ⟨rfl, le_rfl, List.prefix_append _ _, ⟨[], by simp [State.extend], by simp⟩,
    fun h => ⟨h.asked, h.nodup, h.source⟩, fun h hcount => (h hcount).mono (List.prefix_append _ _)⟩

theorem Asks.report (st : State Url) (d : Diagnostic) : Asks w target reach st (st.report d) :=
  Asks.extend st [d]

theorem Asks.look {path : Str} (h : (Event.looked path : Event Url).For w target reach)
    (st : State Url) : Asks w target reach st (st.note (.looked path)) := by
  refine ⟨rfl, le_rfl, List.prefix_rfl, ⟨[.looked path], rfl, by simpa using h⟩, fun ha => ?_, id⟩
  exact ⟨by rw [State.note, asked_append, ha.asked]; simp [asked], ha.nodup, ha.source⟩

theorem Asks.open {path : Str} (h : (Event.opened path : Event Url).For w target reach)
    (st : State Url) : Asks w target reach st (st.note (.opened path)) := by
  refine ⟨rfl, le_rfl, List.prefix_rfl, ⟨[.opened path], rfl, by simpa using h⟩, fun ha => ?_, id⟩
  exact ⟨by rw [State.note, asked_append, ha.asked]; simp [asked], ha.nodup, ha.source⟩

theorem Asks.track (st : State Url) (url : Url) (path : Option Str) (interval : ℕ) :
    Asks w target reach st (track st url path interval).2 := by
  unfold Config.track
  split
  · exact .refl st
  · exact ⟨rfl, le_rfl, List.prefix_rfl, ⟨[], by simp, by simp⟩,
      fun h => ⟨h.asked, h.nodup, h.source⟩, fun h hcount => h hcount⟩

/-- What the source has is asked once, and is what it said. -/
theorem Asks.ask {source : Url → Remote} (hremote : w.remote = some source) (st : State Url)
    (url : Url) : Asks w target reach st (ask source st url).2 ∧
      (Answered w st → (Config.ask source st url).1 = source url) := by
  unfold Config.ask
  cases hlookup : st.answers.lookup url with
  | some remote => exact ⟨.refl st, fun h => h.source source hremote url remote hlookup⟩
  | none =>
    refine ⟨⟨rfl, le_rfl, List.prefix_rfl, ⟨[.asked url], rfl, by simp [Event.For]⟩,
      fun h => ⟨?_, ?_, ?_⟩, id⟩, fun _ => rfl⟩
    · simp only [asked_append, h.asked, List.map_append, asked, List.map_cons, List.map_nil]
    · rw [List.map_append, List.nodup_append]
      refine ⟨h.nodup, List.nodup_singleton _, fun u hu v hv => ?_⟩
      rintro rfl
      rw [List.mem_singleton.1 hv] at hu
      obtain ⟨p, hp, hurl⟩ := List.mem_map.1 hu
      exact absurd hurl.symm (by simpa using List.lookup_eq_none_iff.1 hlookup p hp)
    · intro source' hsource' u remote hu
      rw [hremote, Option.some_inj] at hsource'
      subst hsource'
      rw [List.lookup_append] at hu
      rcases Option.or_eq_some_iff.1 hu with hu | ⟨-, hu⟩
      · exact h.source source hremote u remote hu
      · by_cases hsame : u = url
        · subst hsame
          simp only [List.lookup_cons, BEq.rfl] at hu
          exact (Option.some_inj.1 hu).symm
        · rw [List.lookup_cons, beq_false_of_ne hsame] at hu
          cases hu

/-- An include that may not go on, or one that may. -/
theorem admit_cases (w : Setup Url) (target : Str) (reach : Reach) (key : Visiting Url)
    (shown : Str)
    (span : Span) (depth : ℕ) (st : State Url) :
    (∃ st', admit_target w.opts key shown span depth st = (false, st') ∧
      Asks w target reach st st' ∧ (Loud w st → Refused st')) ∨
    (key ∉ st.stack ∧ depth < w.opts.max_depth ∧ st.count < w.opts.max_files ∧
      admit_target w.opts key shown span depth st = (true, { st with count := st.count + 1 }) ∧
      Asks w target reach st { st with count := st.count + 1 }) := by
  unfold admit_target
  split_ifs with hcycle hdeep hmany
  · exact .inl ⟨_, rfl, .report _ _, fun _ => refused_report rfl⟩
  · exact .inl ⟨_, rfl, .report _ _, fun _ => refused_report rfl⟩
  · have hnext : Loud w st → st.count + 1 ≠ w.opts.max_files + 1 → Refused st := by
      intro hloud hfirst
      exact hloud (by omega)
    have hone : ∀ d : Diagnostic, Refused (State.report { st with count := st.count + 1 } d) →
        Asks w target reach st (State.report { st with count := st.count + 1 } d) :=
      fun d hrefused => ⟨rfl, Nat.le_succ _, List.prefix_append _ _,
        ⟨[], by simp [State.report], by simp⟩,
        fun h => ⟨h.asked, h.nodup, h.source⟩, fun _ _ => hrefused⟩
    left
    simp only
    split_ifs with hfirst
    · exact ⟨_, rfl, hone _ (refused_report rfl), fun _ => refused_report rfl⟩
    · exact ⟨_, rfl, ⟨rfl, Nat.le_succ _, List.prefix_rfl, ⟨[], by simp, by simp⟩,
        fun h => ⟨h.asked, h.nodup, h.source⟩, fun hloud _ => hnext hloud hfirst⟩,
        fun hloud => hnext hloud hfirst⟩
  · exact .inr ⟨hcycle, not_le.1 hdeep, not_le.1 hmany, rfl, rfl, Nat.le_succ _, List.prefix_rfl,
      ⟨[], by simp, by simp⟩, fun h => ⟨h.asked, h.nodup, h.source⟩,
      fun _ hcount => absurd hcount (by simp only; omega)⟩

/-- The text a target names, as the file system and the source have it. -/
def text_of (w : Setup Url) (target : Str) : Option Profile :=
  if is_url target then
    (w.urls.parse target).bind fun url => w.remote.bind fun source =>
      match source (w.urls.without_fragment url) with
      | .Text text path => some (parse_str text path (.Remote path)).1
      | .Missing _ => none
  else
    let path := target_path w.opts.base_dir target
    match w.fs.read_to_string path with
    | .ok text => some (parse_str text path (.Include path)).1
    | .error _ => none

/-- The text of a target that is taken in: of a local file that the line may name, or a downloaded
one. -/
def Reads (w : Setup Url) (target : Str) (reach : Reach) (text : Profile) : Prop :=
  (is_url target = false ∧ reach.include_refusal = none ∧ ∃ content,
    w.fs.read_to_string (target_path w.opts.base_dir target) = .ok content ∧
    text = (parse_str content (target_path w.opts.base_dir target)
      (.Include (target_path w.opts.base_dir target))).1) ∨
  (is_url target = true ∧ ∃ content path, text = (parse_str content path (.Remote path)).1)

/-- A target taken in: its text is expanded inside, between two states. -/
structure Taken (w : Setup Url) (nested : Profile → State Url → Profile × State Url) (target : Str)
    (depth : ℕ) (reach : Reach) (st : State Url) (included : Included) (key : Visiting Url)
    (text : Profile) (st₁ : State Url) : Prop where
  asks : Asks w target reach st st₁
  fresh : key ∉ st.stack
  depth_lt : depth < w.opts.max_depth
  count_lt : st.count < w.opts.max_files
  count : st₁.count = st.count + 1
  reads : Reads w target reach text
  text_of : Answered w st → text_of w target = some text
  profile : included.profile = (nested text (st₁.push key)).1

theorem take_in_local_cases (hlocal : is_url target = false) (hreach : reach.include_refusal = none)
    (span : Span) (depth : ℕ) (st : State Url) :
    (∃ st', take_in_local w nested target span depth st = (none, st') ∧
      Asks w target reach st st' ∧ (Loud w st → Refused st')) ∨
    ∃ included key text st₁, Taken w nested target depth reach st included key text st₁ ∧
      take_in_local w nested target span depth st =
        (some included, (nested text (st₁.push key)).2.pop key) := by
  have hlook : Asks w target reach st
      (st.note (.looked (target_path w.opts.base_dir target))) := .look ⟨hlocal, hreach, rfl⟩ st
  have hopen : ∀ st : State Url, Asks w target reach st
      (st.note (.opened (target_path w.opts.base_dir target))) := .open ⟨hlocal, hreach, rfl⟩
  unfold take_in_local canonical
  simp only
  rcases admit_cases w target reach (.File (components ((w.fs.canonicalize
      (target_path w.opts.base_dir target)).getD (target_path w.opts.base_dir target))))
      (target_path w.opts.base_dir target) span depth
      (st.note (.looked (target_path w.opts.base_dir target))) with
    ⟨st', hadmitted, hasks, hrefused⟩ | ⟨hfresh, hdepth, hcount, hadmitted, hasks⟩
  · rw [hadmitted]
    exact .inl ⟨st', rfl, hlook.trans hasks, fun hloud => hrefused (hlook.loud hloud)⟩
  · rw [hadmitted]
    simp only
    cases hread : w.fs.read_to_string (target_path w.opts.base_dir target) with
    | error e =>
      exact .inl ⟨_, rfl, (hlook.trans hasks).trans ((hopen _).trans (.report _ _)),
        fun _ => refused_report rfl⟩
    | ok content =>
      refine .inr ⟨_, _, _, _, ⟨(hlook.trans hasks).trans ((hopen _).trans (.extend _ _)), hfresh,
        hdepth, hcount, rfl, .inl ⟨hlocal, hreach, content, hread, rfl⟩, fun _ => ?_, rfl⟩, rfl⟩
      rw [text_of, if_neg (by simp [hlocal])]
      simp only [hread]

theorem take_in_remote_cases (hurl : is_url target = true) (span : Span) (depth : ℕ)
    (st : State Url) :
    (∃ st', take_in_remote w nested target span depth st = (none, st') ∧
      Asks w target reach st st' ∧ (Loud w st → Refused st')) ∨
    ∃ included key text st₁, Taken w nested target depth reach st included key text st₁ ∧
      take_in_remote w nested target span depth st =
        (some included, (nested text (st₁.push key)).2.pop key) := by
  unfold take_in_remote
  cases hparse : w.urls.parse target with
  | none => exact .inl ⟨_, rfl, .report _ _, fun _ => refused_report rfl⟩
  | some url =>
    simp only
    cases hremote : w.remote with
    | none => exact .inl ⟨_, rfl, .report _ _, fun _ => refused_report rfl⟩
    | some source =>
      simp only
      rcases admit_cases w target reach (.Remote (w.urls.without_fragment url))
          "a remote include".toList span depth st with
        ⟨st', hadmitted, hasks, hrefused⟩ | ⟨hfresh, hdepth, hcount, hadmitted, hasks⟩
      · rw [hadmitted]
        exact .inl ⟨st', rfl, hasks, hrefused⟩
      · rw [hadmitted]
        simp only
        obtain ⟨hask, hanswer⟩ := @Asks.ask Url w target reach _ source hremote
          { st with count := st.count + 1 } (w.urls.without_fragment url)
        have hcounted : ∀ st' url', (Config.ask source st' url').2.count = st'.count := by
          intro st' url'
          unfold Config.ask
          split <;> rfl
        have htracked : ∀ (st' : State Url) url' path interval,
            (Config.track st' url' path interval).2.count = st'.count := by
          intro st' url' path interval
          unfold Config.track
          split <;> rfl
        have hcount' := hcounted { st with count := st.count + 1 } (w.urls.without_fragment url)
        rcases hasked : Config.ask source { st with count := st.count + 1 }
          (w.urls.without_fragment url) with ⟨⟨content, path⟩ | why, st₂⟩
        · rw [hasked] at hask hanswer hcount'
          refine .inr ⟨_, _, _, _, ⟨((hasks.trans hask).trans (.extend _ _)).trans
            (.track _ _ _ _), hfresh, hdepth, hcount, (htracked _ _ _ _).trans hcount',
            .inr ⟨hurl, content, path, rfl⟩, fun hanswered => ?_, rfl⟩, rfl⟩
          have hsource := hanswer (hasks.answered hanswered)
          rw [text_of, if_pos hurl, hparse, hremote]
          simp only [Option.bind_some]
          rw [← hsource]
        · rw [hasked] at hask
          refine .inl ⟨_, rfl, (hasks.trans hask).trans ((Asks.report _ _).trans (.track _ _ _ _)),
            fun _ => ?_⟩
          have htrack : ∀ st' url' path interval,
              Asks w target reach st' (Config.track st' url' path interval).2 := .track
          exact (refused_report rfl).mono (htrack _ _ _ _).diags

/-- **What one target does**: it is refused or there is nothing where it leads, which is reported;
or its text is expanded inside the expansion. -/
theorem take_in_cases (w : Setup Url) (nested : Profile → State Url → Profile × State Url)
    (target : Str) (span : Span) (depth : ℕ) (reach : Reach) (st : State Url) :
    (∃ st', take_in w nested target span depth reach st = (none, st') ∧
      Asks w target reach st st' ∧ (Loud w st → Refused st')) ∨
    ∃ included key text st₁, Taken w nested target depth reach st included key text st₁ ∧
      take_in w nested target span depth reach st =
        (some included, (nested text (st₁.push key)).2.pop key) := by
  unfold take_in
  cases hurl : is_url target with
  | true => exact take_in_remote_cases hurl span depth st
  | false =>
    simp only [Bool.false_eq_true, if_false]
    cases hreach : reach.include_refusal with
    | none => exact take_in_local_cases hurl hreach span depth st
    | some refusal => exact .inl ⟨_, rfl, .report _ _, fun _ => refused_report rfl⟩

/-! ### The levels -/

/-- Nothing is taken in at the last level. -/
theorem take_in_deep (h : w.opts.max_depth ≤ depth) (target : Str) (span : Span) (reach : Reach)
    (st : State Url) : take_in w nested target span depth reach st =
      take_in w nested' target span depth reach st := by
  have hrefused : ∀ (key : Visiting Url) shown (st : State Url),
      ∃ st', admit_target w.opts key shown span depth st = (false, st') := by
    intro key shown st
    rcases admit_cases w target reach key shown span depth st
      with ⟨st', hadmitted, -⟩ | ⟨-, hless, -⟩
    · exact ⟨st', hadmitted⟩
    · exact absurd hless (not_lt.2 h)
  unfold take_in
  split_ifs with hurl
  · unfold take_in_remote
    cases w.urls.parse target with
    | none => rfl
    | some url =>
      cases w.remote with
      | none => rfl
      | some source =>
        obtain ⟨st', hadmitted⟩ :=
          hrefused (.Remote (w.urls.without_fragment url)) "a remote include".toList st
        simp only [hadmitted]
  · cases reach.include_refusal with
    | some refusal => rfl
    | none =>
      unfold take_in_local
      obtain ⟨st', hadmitted⟩ := hrefused
        (.File (canonical w.fs (target_path w.opts.base_dir target)
        st).1) (target_path w.opts.base_dir target) (canonical w.fs (target_path w.opts.base_dir
        target) st).2
      simp only [hadmitted]

/-- **An expansion ends**: what it makes of a text is what its loops make of it with the texts one
level below expanded. -/
theorem expand_at_eq (w : Setup Url) (depth : ℕ) :
    expand_at w depth = expand_with w (expand_at w (depth + 1)) depth := by
  funext profile st
  rw [expand_at]
  split_ifs with h
  · rcases h.lt_or_eq with hlt | rfl
    · have hleft : w.opts.max_depth - depth = w.opts.max_depth - (depth + 1) + 1 := by omega
      have hdepth : w.opts.max_depth - (w.opts.max_depth - (depth + 1) + 1) = depth := by omega
      rw [hleft, expand_levels, hdepth]
      refine expand_with_congr (fun entry target _ st => ?_) st
      have hnested :
          expand_levels w (w.opts.max_depth - (depth + 1)) = expand_at w (depth + 1) := by
        funext profile st
        rw [expand_at, if_pos (Nat.succ_le_of_lt hlt)]
      rw [hnested]
    · rw [Nat.sub_self, expand_levels]
      exact expand_with_congr (fun entry target _ st => take_in_deep le_rfl _ _ _ _) st
  · exact expand_with_congr (fun entry target _ st => take_in_deep (not_le.1 h).le _ _ _ _) st

/-- What holds of a level where it holds of the one below, if there is one, holds of all. -/
theorem expand_at_induct {motive : ℕ → (Profile → State Url → Profile × State Url) → Prop}
    (step : ∀ depth nested, (depth < w.opts.max_depth → motive (depth + 1) nested) →
      motive depth (expand_with w nested depth)) (depth : ℕ) :
    motive depth (expand_at w depth) := by
  induction hleft : w.opts.max_depth - depth generalizing depth with
  | zero =>
    rw [expand_at_eq]
    exact step depth _ fun hlt => absurd hlt (by omega)
  | succ left ih =>
    rw [expand_at_eq]
    exact step depth _ fun hlt => ih (depth + 1) (by omega)

end Config

end Rurge
