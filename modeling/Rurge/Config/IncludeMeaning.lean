import Rurge.Config.IncludeBounds
import Rurge.Config.IncludeConfined

/-!
# What an expanded text means

The meaning of a text with includes, said without the order in which an expansion takes them in,
its limits and its reports: each `#!include` line stands for what the targets give its section, in
the order written.  An expansion that reports no include means this.
-/

namespace Rurge

namespace Config

variable {Url : Type*} {w : Setup Url} {depth : ℕ}
  {nested : Profile → State Url → Profile × State Url} {profile text : Profile}
  {st st' : State Url} {target name : Str} {span : Span} {reach : Reach} {entry : Entry}

/-! ### The meaning of includes -/

/-- What the sections of a text give a section of this name: the entries of the first section of
the same name, or the sections that a wildcard section takes. -/
def gives (name : Str) (sections : List Section) : Option (List Entry × List Section) :=
  match wildcard_prefix name with
  | some start => some ([], sections.filter fun s => Value.starts_with_ci s.name start)
  | none => (find_section name sections).map fun s => (s.entries, [])

mutual

/-- The targets of a line in a section of this name stand for these entries and sections. -/
inductive TargetsMean (w : Setup Url) : Str → List Str → List Entry → List Section → Prop
  | nil {name : Str} : TargetsMean w name [] [] []
  | cons {name target : Str} {rest : List Str} {text : Profile} {sections : List Section}
      {given entries : List Entry} {taken more : List Section} :
      text_of w target = some text → TextMeans w text.sections sections →
      gives name sections = some (given, taken) → TargetsMean w name rest entries more →
      TargetsMean w name (target :: rest) (given ++ entries) (taken ++ more)

/-- The entries of a section of this name, each `#!include` line replaced in its place, and the
sections they bring. -/
inductive EntriesMean (w : Setup Url) : Str → List Entry → List Entry → List Section → Prop
  | nil {name : Str} : EntriesMean w name [] [] []
  | keep {name : Str} {entry : Entry} {rest entries : List Entry} {more : List Section} :
      include_targets entry.raw = none → EntriesMean w name rest entries more →
      EntriesMean w name (entry :: rest) (entry :: entries) more
  | line {name : Str} {entry : Entry} {targets : List Str} {rest given entries : List Entry}
      {taken more : List Section} :
      include_targets entry.raw = some targets → TargetsMean w name targets given taken →
      EntriesMean w name rest entries more →
      EntriesMean w name (entry :: rest) (given ++ entries) (taken ++ more)

/-- The sections of a text with their entries replaced, less its wildcard sections, and the sections
these bring. -/
inductive SectionsMean (w : Setup Url) : List Section → List Section → List Section → Prop
  | nil : SectionsMean w [] [] []
  | plain {s : Section} {rest sections : List Section} {entries : List Entry}
      {taken more : List Section} :
      wildcard_prefix s.name = none → EntriesMean w s.name s.entries entries taken →
      SectionsMean w rest sections more →
      SectionsMean w (s :: rest) ({ s with entries } :: sections) (taken ++ more)
  | wildcard {s : Section} {start : Str} {rest sections : List Section} {entries : List Entry}
      {taken more : List Section} :
      wildcard_prefix s.name = some start → EntriesMean w s.name s.entries entries taken →
      SectionsMean w rest sections more → SectionsMean w (s :: rest) sections (taken ++ more)

/-- The sections of a text, its includes replaced. -/
inductive TextMeans (w : Setup Url) : List Section → List Section → Prop
  | mk {sections kept taken : List Section} : SectionsMean w sections kept taken →
      TextMeans w sections (kept ++ taken)

end

/-- A text means one thing. -/
theorem TextMeans.unique {sections out : List Section} (h : TextMeans w sections out) :
    ∀ out', TextMeans w sections out' → out = out' := by
  refine @TextMeans.rec Url w
    (fun name targets given taken _ => ∀ given' taken', TargetsMean w name targets given' taken' →
      given = given' ∧ taken = taken')
    (fun name entries given taken _ => ∀ given' taken', EntriesMean w name entries given' taken' →
      given = given' ∧ taken = taken')
    (fun sections kept taken _ => ∀ kept' taken', SectionsMean w sections kept' taken' →
      kept = kept' ∧ taken = taken')
    (fun sections out _ => ∀ out', TextMeans w sections out' → out = out')
    ?_ ?_ ?_ ?_ ?_ ?_ ?_ ?_ ?_ sections out h
  · rintro name given' taken' ⟨⟩
    exact ⟨rfl, rfl⟩
  · intro name target rest text sections given entries taken more htext _ hgives _ hmeaning
      hremaining given' taken' h'
    cases h' with
    | cons htext' hmeans' hgives' hrest' =>
      rw [htext, Option.some_inj] at htext'
      subst htext'
      obtain rfl := hmeaning _ hmeans'
      rw [hgives, Option.some_inj] at hgives'
      cases hgives'
      obtain ⟨rfl, rfl⟩ := hremaining _ _ hrest'
      exact ⟨rfl, rfl⟩
  · rintro name given' taken' ⟨⟩
    exact ⟨rfl, rfl⟩
  · intro name entry rest entries more hline _ hremaining given' taken' h'
    cases h' with
    | keep hline' hrest' =>
      obtain ⟨rfl, rfl⟩ := hremaining _ _ hrest'
      exact ⟨rfl, rfl⟩
    | line hline' => rw [hline] at hline'; cases hline'
  · intro name entry targets rest given entries taken more hline _ _ hgiven hremaining given' taken'
      h'
    cases h' with
    | keep hline' => rw [hline] at hline'; cases hline'
    | line hline' htargets' hrest' =>
      rw [hline, Option.some_inj] at hline'
      subst hline'
      obtain ⟨rfl, rfl⟩ := hgiven _ _ htargets'
      obtain ⟨rfl, rfl⟩ := hremaining _ _ hrest'
      exact ⟨rfl, rfl⟩
  · rintro kept' taken' ⟨⟩
    exact ⟨rfl, rfl⟩
  · intro s rest sections entries taken more hname _ _ hgiven hremaining kept' taken' h'
    cases h' with
    | plain hname' hentries' hrest' =>
      obtain ⟨rfl, rfl⟩ := hgiven _ _ hentries'
      obtain ⟨rfl, rfl⟩ := hremaining _ _ hrest'
      exact ⟨rfl, rfl⟩
    | wildcard hname' => rw [hname] at hname'; cases hname'
  · intro s start rest sections entries taken more hname _ _ hgiven hremaining kept' taken' h'
    cases h' with
    | plain hname' => rw [hname] at hname'; cases hname'
    | wildcard hname' hentries' hrest' =>
      obtain ⟨rfl, rfl⟩ := hgiven _ _ hentries'
      obtain ⟨rfl, rfl⟩ := hremaining _ _ hrest'
      exact ⟨rfl, rfl⟩
  · rintro sections kept taken - hmeaning out' ⟨hsections'⟩
    obtain ⟨rfl, rfl⟩ := hmeaning _ _ hsections'
    rfl

/-! ### Expansions that report no include -/

/-- A text that is not refused its place gives what it is to give. -/
theorem place_gives {included : Included} (h : ¬ Refused (place name span included st).2) :
    gives name included.profile.sections = some (place name span included st).1 := by
  unfold place gives at *
  cases hname : wildcard_prefix name with
  | some start =>
    rw [hname] at h
    simp only at h ⊢
    split at h
    · exact absurd (refused_report rfl) h
    · rfl
  | none =>
    rw [hname] at h
    simp only at h ⊢
    cases hsection : find_section name included.profile.sections with
    | some s => rfl
    | none =>
      rw [hsection] at h
      simp only at h
      split at h
      · exact absurd (refused_report rfl) h
      · exact absurd (refused_report rfl) h

variable [DecidableEq Url]

/-- Taking in where nothing is refused or missing is what the lines mean, as it is one level below.
-/
theorem take_targets_mean
    (hnested : depth < w.opts.max_depth → ∀ text st, Sound w st (nested text st).2 ∧
      (Loud w st → Answered w st → ¬ Refused (nested text st).2 →
        TextMeans w text.sections (nested text st).1.sections))
    (targets : List Str) (st : State Url) (hloud : Loud w st) (hanswered : Answered w st)
    (h : ¬ Refused (take_targets w nested depth name entry targets st).2) :
    TargetsMean w name targets (take_targets w nested depth name entry targets st).1.1
      (take_targets w nested depth name entry targets st).1.2 := by
  have hsound : ∀ target st,
      Sound w st (take_in w nested target entry.span depth entry.origin.reach st).2 :=
    fun target st => take_in_sound (fun hlt text st => (hnested hlt text st).1) st
  induction targets generalizing st with
  | nil => exact .nil
  | cons target rest ih =>
    have hrest : ∀ st, Sound w st (take_targets w nested depth name entry rest st).2 :=
      take_targets_keeps (sound_keeps w) name entry fun target _ => hsound target
    have hstep := hsound target st
    rw [take_targets] at h ⊢
    rcases take_in_cases w nested target entry.span depth entry.origin.reach st with
      ⟨st', htake, -, hrefused⟩ | ⟨included, key, text, st₁, htaken, htake⟩
    · rw [htake] at h
      exact absurd ((hrefused hloud).mono (hrest st').diags) h
    · rw [htake] at h hstep ⊢
      simp only at h hstep ⊢
      generalize hst' : (nested text (st₁.push key)).2.pop key = st' at h hstep ⊢
      have hplace := place_keeps (sound_keeps w) name entry.span included st'
      have hplaced : ¬ Refused (place name entry.span included st').2 :=
        fun hrefused => h (hrefused.mono (hrest _).diags)
      have htext : TextMeans w text.sections included.profile.sections := by
        rw [htaken.profile]
        refine (hnested htaken.depth_lt text _).2 (htaken.asks.loud hloud)
          ((sound_push st₁ key).answered (htaken.asks.answered hanswered)) fun hrefused => ?_
        have hpopped : Refused st' := hst' ▸ hrefused.mono (sound_pop (w := w) _ key).diags
        exact hplaced (hpopped.mono hplace.diags)
      exact .cons (htaken.text_of hanswered) htext (place_gives hplaced)
        (ih _ (hplace.loud (hstep.loud hloud)) (hplace.answered (hstep.answered hanswered)) h)

theorem take_entries_mean
    (hnested : depth < w.opts.max_depth → ∀ text st, Sound w st (nested text st).2 ∧
      (Loud w st → Answered w st → ¬ Refused (nested text st).2 →
        TextMeans w text.sections (nested text st).1.sections))
    (entries : List Entry) (st : State Url) (hloud : Loud w st) (hanswered : Answered w st)
    (h : ¬ Refused (take_entries w nested depth name entries st).2) :
    EntriesMean w name entries (take_entries w nested depth name entries st).1.1
      (take_entries w nested depth name entries st).1.2 := by
  have hsound : ∀ (entry : Entry) target st,
      Sound w st (take_in w nested target entry.span depth entry.origin.reach st).2 :=
    fun entry target st => take_in_sound (fun hlt text st => (hnested hlt text st).1) st
  induction entries generalizing st with
  | nil => exact .nil
  | cons entry rest ih =>
    have hrest : ∀ st, Sound w st (take_entries w nested depth name rest st).2 :=
      take_entries_keeps (sound_keeps w) name fun entry _ _ _ target _ => hsound entry target
    rw [take_entries] at h ⊢
    cases htargets : include_targets entry.raw with
    | none =>
      rw [htargets] at h
      exact .keep htargets (ih st hloud hanswered h)
    | some targets =>
      rw [htargets] at h
      have hline := take_targets_keeps (sound_keeps w) name entry
        (fun target (_ : target ∈ targets) => hsound entry target) st
      refine .line htargets
        (take_targets_mean hnested targets st hloud hanswered fun hrefused => ?_)
        (ih _ (hline.loud hloud) (hline.answered hanswered) h)
      exact h (hrefused.mono (hrest _).diags)

theorem take_sections_mean
    (hnested : depth < w.opts.max_depth → ∀ text st, Sound w st (nested text st).2 ∧
      (Loud w st → Answered w st → ¬ Refused (nested text st).2 →
        TextMeans w text.sections (nested text st).1.sections))
    (sections : List Section) (st : State Url) (hloud : Loud w st) (hanswered : Answered w st)
    (h : ¬ Refused (take_sections w nested depth sections st).2) :
    SectionsMean w sections (take_sections w nested depth sections st).1.1
      (take_sections w nested depth sections st).1.2 := by
  have hsound : ∀ (entry : Entry) target st,
      Sound w st (take_in w nested target entry.span depth entry.origin.reach st).2 :=
    fun entry target st => take_in_sound (fun hlt text st => (hnested hlt text st).1) st
  induction sections generalizing st with
  | nil => exact .nil
  | cons s rest ih =>
    have hrest : ∀ st, Sound w st (take_sections w nested depth rest st).2 :=
      take_sections_keeps (sound_keeps w) fun _ _ entry _ _ _ target _ => hsound entry target
    have hentries := take_entries_keeps (sound_keeps w) s.name
      (fun entry (_ : entry ∈ s.entries) _ _ target _ => hsound entry target) st
    rw [take_sections] at h ⊢
    have hmeans : ¬ Refused (take_sections w nested depth rest
        (take_entries w nested depth s.name s.entries st).2).2 := by
      cases hname : wildcard_prefix s.name with
      | none => rw [hname] at h; exact h
      | some start => rw [hname] at h; exact h
    have hgiven := take_entries_mean hnested s.entries st hloud hanswered fun hrefused =>
      hmeans (hrefused.mono (hrest _).diags)
    have hremaining := ih _ (hentries.loud hloud) (hentries.answered hanswered) hmeans
    cases hname : wildcard_prefix s.name with
    | none => exact .plain hname hgiven hremaining
    | some start => exact .wildcard hname hgiven hremaining

/-- **An expansion that reports no include** makes of a text what it means. -/
theorem expand_at_mean (w : Setup Url) (depth : ℕ) (text : Profile) (st : State Url)
    (hloud : Loud w st) (hanswered : Answered w st) (h : ¬ Refused (expand_at w depth text st).2) :
    TextMeans w text.sections (expand_at w depth text st).1.sections := by
  refine (expand_at_induct (w := w) (motive := fun _ nested => ∀ text st,
    Sound w st (nested text st).2 ∧ (Loud w st → Answered w st → ¬ Refused (nested text st).2 →
      TextMeans w text.sections (nested text st).1.sections)) ?_ depth text st).2 hloud hanswered h
  intro depth nested ih text st
  refine ⟨expand_with_sound (fun hlt text st => (ih hlt text st).1) text st,
    fun hloud hanswered h => ?_⟩
  exact .mk (take_sections_mean ih text.sections st hloud hanswered h)

/-! ### A whole expansion -/

/-- Nothing is asked before the main text is expanded but where its file really is. -/
theorem start_spec (w : Setup Url) (profile : Profile) (n : ℕ) :
    Fits (start w profile).stack n (start w profile).trace ∧ Counted w (start w profile) ∧
      Loud w (start w profile) ∧ Answered w (start w profile) := by
  unfold start
  cases profile.main with
  | none =>
    exact ⟨⟨rfl, by simp⟩, ⟨le_rfl, Nat.zero_le _⟩, fun h => absurd h (Nat.not_lt_zero _),
      ⟨rfl, List.nodup_nil, fun _ _ _ _ h => by cases h⟩⟩
  | some main =>
    refine ⟨⟨rfl, fun pre key post heq => ?_⟩, ⟨le_rfl, Nat.zero_le _⟩,
      fun h => absurd h (Nat.not_lt_zero _), ⟨rfl, List.nodup_nil, fun _ _ _ _ h => by cases h⟩⟩
    have hmem : Event.entered key ∈ [Event.looked main] := by
      rw [show [Event.looked main] = pre ++ .entered key :: post from heq]
      simp
    cases List.mem_singleton.1 hmem

/-- **Include expansion** ends, is bounded and confined, and means what the lines say: each level is
expanded from the ones below it, of which there are `max_depth`; no more than `max_files` texts are
taken in, none inside itself nor deeper; the source is asked once per URL; the file system is asked
about the main file's own path and the paths on lines of the user's own text only, and the rest of
it does not matter; and where no include is reported, every line is replaced in its place. -/
theorem expansion_spec (w : Setup Url) (profile : Profile) :
    (∀ depth, expand_at w depth = expand_with w (expand_at w (depth + 1)) depth) ∧
    (entered (run w profile).2.trace).length ≤ w.opts.max_files ∧
    (∀ pre key post, (run w profile).2.trace = pre ++ .entered key :: post →
      key ∉ within (start w profile).stack pre ∧
      (within (start w profile).stack pre).length <
        (start w profile).stack.length + w.opts.max_depth) ∧
    (asked (run w profile).2.trace).Nodup ∧
    (∀ path, (.looked path ∈ (run w profile).2.trace →
        profile.main = some path ∨ OwnPath w profile path) ∧
      (.opened path ∈ (run w profile).2.trace → OwnPath w profile path)) ∧
    (∀ fs : FileSystem,
      (∀ main, profile.main = some main → fs.canonicalize main = w.fs.canonicalize main) →
      (∀ path, OwnPath w profile path → fs.canonicalize path = w.fs.canonicalize path ∧
        fs.read_to_string path = w.fs.read_to_string path) →
      run { w with fs } profile = run w profile) ∧
    (¬ Refused (run w profile).2 → TextMeans w profile.sections (run w profile).1.sections) := by
  obtain ⟨hfits, hcounted, hloud, hanswered⟩ := start_spec w profile w.opts.max_depth
  obtain ⟨-, events, htrace, hnests⟩ := expand_at_nests w 0 profile (start w profile)
  have hanswered' := (expand_at_sound w 0 profile (start w profile)).answered hanswered
  refine ⟨expand_at_eq w, (expand_at_counted 0 profile _ hcounted).le_max, ?_, ?_,
    run_confined w profile, fun fs hmain hfs => run_congr hmain hfs,
    expand_at_mean w 0 profile _ hloud hanswered⟩
  · rw [run, htrace]
    exact (hfits.append hnests).fresh
  · rw [run, hanswered'.asked]
    exact hanswered'.nodup

/-- The file beside the main one that a line names is taken in, and nothing is reported. -/
example :
    let w : Setup ℕ :=
      { opts := ⟨"/etc".toList, 8, 64⟩
        fs := ⟨some, fun path =>
          if path = "/etc/b".toList then .ok "[Rule]\nDOMAIN,a.test,REJECT".toList else .error []⟩
        urls := ⟨fun _ => none, fun _ => [], id⟩
        remote := none }
    let main := parse_str "[Rule]\n#!include b\nFINAL,DIRECT".toList "/etc/a".toList .Main
    let expanded := expand w main.1 []
    expanded.2.2 = [] ∧ (expanded.1.sections.map fun s => s.entries.map Entry.raw) =
      [["DOMAIN,a.test,REJECT".toList, "FINAL,DIRECT".toList]] := by decide +kernel

end Config

end Rurge
