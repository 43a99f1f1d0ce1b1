import Rurge.Config.Managed

/-!
# The choice between the local file and the copies

The walk asks each address once and ends (`walk_spec`), and the choice takes the local file or the
last copy found, whose own line says where the profile is updated from (`choose_spec`).
-/

namespace Rurge

namespace Config

namespace Managed

variable {Url : Type*} {urls : Urls Url} {source : Url → Remote}

/-! ### The walk -/

/-- What the walk holds is of the copies of the addresses `us`: the last of them, and the time of
the newest. -/
structure Copies (urls : Urls Url) (source : Url → Remote) (w : Walk Url) (us : List Url) :
    Prop where
  texts : ∀ u ∈ us, ∃ text path fetched_at, source u = .Text text path fetched_at
  none_last : us = [] → w.last = none
  last : ∀ us' u text path fetched_at, us = us' ++ [u] → source u = .Text text path fetched_at →
    w.last = some ⟨read_copy text path, line_of urls (read_copy text path)⟩
  none_newest : us = [] → w.newest = none
  newest : us ≠ [] → ∃ n, w.newest = some n ∧
    (∀ u ∈ us, ∀ text path fetched_at, source u = .Text text path fetched_at → fetched_at ≤ n) ∧
    ∃ u ∈ us, ∃ text path, source u = .Text text path n

/-- One more copy. -/
theorem Copies.found {w : Walk Url} {us : List Url} (h : Copies urls source w us) {at_ : Url}
    {text path : Str} {fetched_at : ℤ} (hat : source at_ = .Text text path fetched_at) :
    Copies urls source (w.found urls at_ text path fetched_at) (us ++ [at_]) where
  texts u hu := by
    rcases List.mem_append.1 hu with hu | hu
    · exact h.texts u hu
    · rw [List.mem_singleton.1 hu]
      exact ⟨text, path, fetched_at, hat⟩
  none_last hnil := by simp at hnil
  last us' u text' path' fetched_at' heq hu := by
    obtain ⟨-, rfl⟩ := List.append_inj' heq rfl |>.imp id List.singleton_inj.1
    rw [hat, Remote.Text.injEq] at hu
    obtain ⟨rfl, rfl, -⟩ := hu
    rfl
  none_newest hnil := by simp at hnil
  newest _ := by
    by_cases hus : us = []
    · subst hus
      refine ⟨fetched_at, by simp [Walk.found, h.none_newest rfl], fun u hu => ?_, at_, by simp,
        text, path, hat⟩
      intro text' path' fetched_at' hu'
      rw [List.nil_append, List.mem_singleton] at hu
      rw [hu, hat, Remote.Text.injEq] at hu'
      exact hu'.2.2.ge
    · obtain ⟨n, hn, hmax, u, hu, text', path', hu'⟩ := h.newest hus
      refine ⟨max n fetched_at, by simp [Walk.found, hn], fun v hv text' path' f hf => ?_, ?_⟩
      · rcases List.mem_append.1 hv with hv | hv
        · exact (hmax v hv text' path' f hf).trans (le_max_left _ _)
        · rw [List.mem_singleton.1 hv, hat, Remote.Text.injEq] at hf
          exact hf.2.2.ge.trans (le_max_right _ _)
      · rcases le_total n fetched_at with hle | hle
        · rw [max_eq_right hle]
          exact ⟨at_, by simp, text, path, hat⟩
        · rw [max_eq_left hle]
          exact ⟨u, List.mem_append_left _ hu, text', path', hu'⟩

/-- The walk so far, and the address it is about to ask for. -/
structure Going (urls : Urls Url) (source : Url → Remote) (w : Walk Url) (at_ : Url) : Prop where
  copies : Copies urls source w w.asked
  asked : w.asked = w.stops.map Stop.address
  nodup : (w.asked ++ [at_]).Nodup
  length : w.asked.length ≤ MOST_CHANGES
  named : w.asked ≠ [] → ∃ held line, w.last = some held ∧ held.line = some line

/-- How the walk ended: at an address without a copy, or at the last copy, with a line of its own or
without one. -/
structure Gone (urls : Urls Url) (source : Url → Remote) (w : Walk Url) (end_ : End) : Prop where
  asked : w.asked = w.stops.map Stop.address
  nodup : w.asked.Nodup
  length : w.asked.length ≤ MOST_CHANGES + 1
  nonempty : w.asked ≠ []
  copies : ∃ us vs, w.asked = us ++ vs ∧ Copies urls source w us ∧
    ∀ v ∈ vs, ∃ why, source v = .Missing why
  no_line : end_ = .NoLine ↔ ∃ held, w.last = some held ∧ held.line = none

theorem Going.found {w : Walk Url} {at_ : Url} (h : Going urls source w at_) {text path : Str}
    {fetched_at : ℤ} (hat : source at_ = .Text text path fetched_at) {end_ : End}
    (hend : end_ = .NoLine ↔ line_of urls (read_copy text path) = none) :
    Gone urls source (w.found urls at_ text path fetched_at) end_ where
  asked := by simp [Walk.found, h.asked]
  nodup := h.nodup
  length := by
    have := h.length
    simp only [Walk.found, List.length_append, List.length_singleton]
    omega
  nonempty := by simp [Walk.found]
  copies := ⟨w.asked ++ [at_], [], by simp [Walk.found], h.copies.found hat, by simp⟩
  no_line := by rw [hend]; simp [Walk.found]

theorem Going.missed {w : Walk Url} {at_ : Url} (h : Going urls source w at_) {why : Option Str}
    (hat : source at_ = .Missing why) : Gone urls source (w.missed at_) (.NotFound why) where
  asked := by simp [Walk.missed, h.asked]
  nodup := h.nodup
  length := by
    have := h.length
    simp only [Walk.missed, List.length_append, List.length_singleton]
    omega
  nonempty := by simp [Walk.missed]
  copies := by
    refine ⟨w.asked, [at_], rfl, ⟨h.copies.texts, h.copies.none_last, h.copies.last,
      h.copies.none_newest, h.copies.newest⟩, fun v hv => ⟨why, ?_⟩⟩
    rw [List.mem_singleton.1 hv, hat]
  no_line := by
    constructor
    · intro hnot
      simp at hnot
    · rintro ⟨held, hheld, hnone⟩
      by_cases hasked : w.asked = []
      · rw [Walk.missed, h.copies.none_last hasked] at hheld
        simp at hheld
      · obtain ⟨held', line, hheld', hline⟩ := h.named hasked
        rw [Walk.missed, hheld', Option.some.injEq] at hheld
        rw [hheld, hnone] at hline
        simp at hline

theorem Going.next {w : Walk Url} {at_ : Url} (h : Going urls source w at_) {text path : Str}
    {fetched_at : ℤ} (hat : source at_ = .Text text path fetched_at) {line : Line Url}
    (hline : line_of urls (read_copy text path) = some line) (hne : line.address ≠ at_)
    (hnew : line.address ∉ w.asked) (hlength : w.asked.length < MOST_CHANGES) :
    Going urls source (w.found urls at_ text path fetched_at) line.address where
  copies := h.copies.found hat
  asked := by simp [Walk.found, h.asked]
  nodup := by
    refine List.nodup_append.2 ⟨h.nodup, List.nodup_singleton _, ?_⟩
    rintro u hu v hv rfl
    rw [List.mem_singleton.1 hv] at hu
    rcases List.mem_append.1 hu with hu | hu
    · exact hnew hu
    · exact hne (List.mem_singleton.1 hu)
  length := by
    simp only [Walk.found, List.length_append, List.length_singleton]
    omega
  named _ := ⟨_, line, rfl, hline⟩

variable [DecidableEq Url]

theorem walk_from_gone (w : Walk Url) (at_ : Url) (h : Going urls source w at_) :
    Gone urls source (walk_from urls source w at_).1 (walk_from urls source w at_).2 := by
  -- a step goes on only while the walk is short, and makes it longer
  induction hn : MOST_CHANGES + 1 - w.stops.length using Nat.strong_induction_on
    generalizing w at_ with
  | _ n ih =>
    rw [walk_from]
    cases hat : source at_ with
    | Missing why => exact h.missed hat
    | Text text path fetched_at =>
      dsimp only
      cases hnamed : (line_of urls (read_copy text path)).map Line.address with
      | none => exact h.found hat (by simpa using hnamed)
      | some next =>
        obtain ⟨line, hline, rfl⟩ := Option.map_eq_some_iff.1 hnamed
        dsimp only
        split_ifs with hne hgo
        · exact h.found hat (by simp [hline])
        · exact h.found hat (by simp [hline])
        · rw [not_or, Nat.not_lt, Bool.not_eq_true, List.any_eq_false] at hgo
          have hlength := hgo.1
          simp only [Walk.found, List.length_append, List.length_singleton] at hlength
          refine ih _ ?_ _ _ (h.next hat hline hne (fun hmem => ?_) ?_) rfl
          · simp only [Walk.found, List.length_append, List.length_singleton]
            omega
          · rw [h.asked] at hmem
            obtain ⟨stop, hstop, heq⟩ := List.mem_map.1 hmem
            exact hgo.2 stop (List.mem_append_left _ hstop) (by simpa using heq)
          · rw [h.asked, List.length_map]
            omega

/-- The walk ends, with every address asked for once. -/
theorem walk_gone (start : Url) :
    Gone urls source (walk urls source start).1 (walk urls source start).2 :=
  walk_from_gone _ start ⟨⟨by simp, fun _ => rfl, by simp, fun _ => rfl, by simp⟩, rfl, by simp,
    Nat.zero_le _, by simp⟩

/-! ### The choice -/

/-- When the local file is in effect: no copy was found, or it has a section and was changed after
every copy on the way was fetched, not in the future. -/
def Stands (source : Url → Remote) (asked : List Url) (has_section : Bool) (modified : Option ℤ)
    (now : ℤ) : Prop :=
  (∀ u ∈ asked, ∃ why, source u = .Missing why) ∨
    has_section = true ∧ ∃ m, modified = some m ∧ m ≤ now ∧
      ∀ u ∈ asked, ∀ text path fetched_at, source u = .Text text path fetched_at → fetched_at < m

/-- The last copy found, of the addresses asked for. -/
def LastFound (source : Url → Remote) (asked : List Url) (copy : Downloaded) : Prop :=
  ∃ us u vs text path fetched_at, asked = us ++ u :: vs ∧
    source u = .Text text path fetched_at ∧ copy = read_copy text path ∧
    ∀ v ∈ vs, ∃ why, source v = .Missing why

omit [DecidableEq Url] in
theorem Gone.in_effect {w : Walk Url} {end_ : End} (h : Gone urls source w end_)
    (has_section : Bool) (modified : Option ℤ) (now : ℤ) :
    local_in_effect has_section modified now w = true ↔
      Stands source w.asked has_section modified now := by
  obtain ⟨us, vs, hasked, hcopies, hmissing⟩ := h.copies
  by_cases hus : us = []
  · have hnone : w.last = none := hcopies.none_last hus
    simp only [local_in_effect, hnone, Option.isNone_none, Bool.true_or, true_iff]
    refine .inl fun u hu => hmissing u ?_
    rwa [hasked, hus, List.nil_append] at hu
  · obtain ⟨us', u, rfl⟩ := (List.eq_nil_or_concat us).resolve_left hus
    rw [List.concat_eq_append] at hasked hcopies
    obtain ⟨text, path, fetched_at, hu⟩ := hcopies.texts u (by simp)
    have hlast := hcopies.last us' u text path fetched_at rfl hu
    obtain ⟨n, hn, hmax, v, hv, text', path', hv'⟩ := hcopies.newest (by simp)
    have hfound : ¬∀ u ∈ w.asked, ∃ why, source u = .Missing why := by
      intro hall
      obtain ⟨why, hwhy⟩ := hall u (by simp [hasked])
      rw [hu] at hwhy
      simp at hwhy
    have hsome : local_in_effect has_section modified now w = true ↔
        has_section = true ∧ ∃ m, modified = some m ∧ n < m ∧ m ≤ now := by
      cases modified with
      | none => simp [local_in_effect, hlast]
      | some m => simp [local_in_effect, hlast, hn]
    rw [hsome, Stands, or_iff_right hfound]
    refine and_congr_right fun _ => exists_congr fun m => and_congr_right fun _ => ?_
    rw [and_comm]
    refine and_congr_right fun _ => ⟨fun hlt a ha text'' path'' f hf => ?_, fun hall => ?_⟩
    · rw [hasked] at ha
      rcases List.mem_append.1 ha with ha | ha
      · exact (hmax a ha text'' path'' f hf).trans_lt hlt
      · obtain ⟨why, hwhy⟩ := hmissing a ha
        rw [hf] at hwhy
        simp at hwhy
    · exact hall v (by rw [hasked]; exact List.mem_append_left _ hv) text' path' n hv'

omit [DecidableEq Url] in
/-- The last copy, when there is one, and its line. -/
theorem Gone.last_found {w : Walk Url} {end_ : End} (h : Gone urls source w end_) {held : Held Url}
    (hheld : w.last = some held) :
    LastFound source w.asked held.copy ∧ held.line = line_of urls held.copy := by
  obtain ⟨us, vs, hasked, hcopies, hmissing⟩ := h.copies
  rcases List.eq_nil_or_concat us with rfl | ⟨us', u, rfl⟩
  · rw [hcopies.none_last rfl] at hheld
    simp at hheld
  · rw [List.concat_eq_append] at hasked hcopies
    obtain ⟨text, path, fetched_at, hu⟩ := hcopies.texts u (by simp)
    rw [hcopies.last us' u text path fetched_at rfl hu, Option.some.injEq] at hheld
    subst hheld
    exact ⟨⟨us', u, vs, text, path, fetched_at, by simpa using hasked, hu, rfl, hmissing⟩, rfl⟩

/-- The line in force in the text in effect: the local file's, or the copy's own. -/
def line_in_effect (urls : Urls Url) (line : Line Url) (choice : Choice Url) : Option (Line Url) :=
  match choice.copy with
  | none => some line
  | some copy => line_of urls copy

/-- The stops as remote files, the last one being what the profile is updated from if `updated`. -/
def refs (stops : List (Stop Url)) (updated : Bool) (interval : ℕ) (strict : Bool) :
    List (RemoteRef Url) :=
  stops.mapIdx fun at_ stop => stop.ref (updated && at_ + 1 == stops.length) interval strict

section

variable {stops : List (Stop Url)} {updated : Bool} {interval : ℕ} {strict : Bool}

omit [DecidableEq Url] in
theorem refs_url : (refs stops updated interval strict).map RemoteRef.url =
    stops.map Stop.address := by
  refine List.ext_getElem? fun i => ?_
  simp [refs, Stop.ref, Function.comp_def]

omit [DecidableEq Url] in
theorem mem_refs {r : RemoteRef Url} (h : r ∈ refs stops updated interval strict) :
    r.role = .Managed ∧ updated = true ∧ r.interval = interval ∧ r.strict = strict ∨
      r.role = .ManagedHop ∧ r.interval = DEFAULT_INTERVAL ∧ r.strict = false := by
  obtain ⟨i, hi, rfl⟩ := List.mem_mapIdx.1 h
  cases hm : updated && i + 1 == stops.length with
  | true =>
    rw [Bool.and_eq_true] at hm
    exact .inl ⟨rfl, hm.1, rfl, by simp [Stop.ref]⟩
  | false => exact .inr ⟨rfl, rfl, by simp [Stop.ref]⟩

omit [DecidableEq Url] in
/-- The addresses before the last are on the way. -/
theorem mem_dropLast_refs {r : RemoteRef Url}
    (h : r ∈ (refs stops updated interval strict).dropLast) : r.role = .ManagedHop := by
  obtain ⟨i, hi, rfl⟩ := List.getElem_of_mem h
  rw [List.length_dropLast, refs, List.length_mapIdx] at hi
  have hne : i + 1 ≠ stops.length := by omega
  rw [List.getElem_dropLast]
  simp [refs, Stop.ref, hne]

omit [DecidableEq Url] in
/-- The last one is what the profile is updated from. -/
theorem exists_managed (hupdated : updated = true) (hstops : stops ≠ []) :
    ∃ r ∈ refs stops updated interval strict, r.role = .Managed := by
  have hlength := List.length_pos_iff.2 hstops
  refine ⟨_, List.mem_mapIdx.2 ⟨stops.length - 1, by omega, rfl⟩, ?_⟩
  have hlast : stops.length - 1 + 1 = stops.length := by omega
  simp [Stop.ref, hupdated, hlast]

end

/-- What a choice is, by whether the local file is in effect. -/
theorem choose_eq (urls : Urls Url) (source : Url → Remote) (line : Line Url) (has_section : Bool)
    (modified : Option ℤ) (now : ℤ) :
    let w := (walk urls source line.address).1
    let end_ := (walk urls source line.address).2
    let in_effect := local_in_effect has_section modified now w
    let held := if in_effect then none else w.last
    let from_ := (held.bind Held.line).getD line
    choose urls source line has_section modified now =
      { copy := held.map Held.copy
        remote := refs w.stops (in_effect || end_ != .NoLine) from_.config.interval
          from_.config.strict
        diagnostics := said line.span in_effect w end_ } := rfl

omit [DecidableEq Url] in
/-- The line in force says where the profile is updated from, unless there is none. -/
theorem managed_spec {w : Walk Url} {end_ : End} (h : Gone urls source w end_)
    {choice : Choice Url} {updated : Bool} {from_ : Option (Line Url)} (line : Line Url)
    (hremote : choice.remote = refs w.stops updated (from_.getD line).config.interval
      (from_.getD line).config.strict)
    (hupdated : updated = from_.isSome) :
    ((∀ r ∈ choice.remote, r.role ≠ .Managed) ↔ from_ = none) ∧
    ∀ r ∈ choice.remote, r.role = .Managed → ∃ l, from_ = some l ∧
      r.interval = l.config.interval ∧ r.strict = l.config.strict := by
  have hstops : w.stops ≠ [] := fun hnil => h.nonempty (by rw [h.asked, hnil, List.map_nil])
  rw [hremote]
  refine ⟨⟨fun hnot => ?_, fun hnone r hr hrole => ?_⟩, fun r hr hrole => ?_⟩
  · by_contra hsome
    have htrue : updated = true := hupdated.trans (Option.isSome_iff_ne_none.2 hsome)
    obtain ⟨r, hr, hrole⟩ := exists_managed htrue hstops
    exact hnot r hr hrole
  · rcases mem_refs hr with ⟨-, htrue, -⟩ | ⟨hhop, -⟩
    · rw [hupdated, hnone] at htrue
      simp at htrue
    · rw [hhop] at hrole
      simp at hrole
  · rcases mem_refs hr with ⟨-, htrue, hinterval, hstrict⟩ | ⟨hhop, -⟩
    · obtain ⟨l, rfl⟩ := Option.isSome_iff_exists.1 (hupdated.symm.trans htrue)
      exact ⟨l, rfl, hinterval, hstrict⟩
    · rw [hhop] at hrole
      simp at hrole

/-- The text in effect and its line: the local file where it stands, else the last copy found. -/
theorem choose_cases (urls : Urls Url) (source : Url → Remote) (line : Line Url)
    (has_section : Bool) (modified : Option ℤ) (now : ℤ) :
    let w := (walk urls source line.address).1
    let choice := choose urls source line has_section modified now
    ∃ updated from_, choice.remote = refs w.stops updated (from_.getD line).config.interval
        (from_.getD line).config.strict ∧ updated = from_.isSome ∧
      line_in_effect urls line choice = from_ ∧
      (local_in_effect has_section modified now w = true ∧ choice.copy = none ∨
        local_in_effect has_section modified now w = false ∧
          ∃ copy, choice.copy = some copy ∧ LastFound source w.asked copy) := by
  intro w choice
  have hgone : Gone urls source w (walk urls source line.address).2 := walk_gone line.address
  have hchoice : choice = _ := choose_eq urls source line has_section modified now
  cases heffect : local_in_effect has_section modified now w with
  | true =>
    simp only [w] at heffect
    rw [heffect] at hchoice
    exact ⟨true, some line, by rw [hchoice]; rfl, rfl, by rw [hchoice]; rfl,
      .inl ⟨rfl, by rw [hchoice]; rfl⟩⟩
  | false =>
    obtain ⟨held, hheld⟩ : ∃ held, w.last = some held := by
      cases hlast : w.last with
      | some held => exact ⟨held, rfl⟩
      | none => simp [local_in_effect, hlast] at heffect
    obtain ⟨hfound, hline⟩ := hgone.last_found hheld
    have hend : ((walk urls source line.address).2 != .NoLine) = held.line.isSome := by
      rw [Bool.eq_iff_iff, bne_iff_ne, Ne, hgone.no_line, Option.isSome_iff_ne_none, hheld]
      simp
    simp only [w] at heffect hheld
    rw [heffect, hheld, hend] at hchoice
    refine ⟨held.line.isSome, held.line, by rw [hchoice]; rfl, rfl, ?_,
      .inr ⟨rfl, held.copy, by rw [hchoice]; rfl, hfound⟩⟩
    rw [hchoice, hline]
    rfl

/-- **Which text is in effect.**  The walk asks at most nine addresses, each once; the local file is
in effect exactly when it stands, the last copy found otherwise; the last address alone can be what
the profile is updated from, as the line in force in the text in effect says, and is not exactly
when that text has no line; and the choice stays the same as long as the time of change does not
come to pass. -/
theorem choose_spec (urls : Urls Url) (source : Url → Remote) (line : Line Url)
    (has_section : Bool) (modified : Option ℤ) (now : ℤ) :
    let w := (walk urls source line.address).1
    let choice := choose urls source line has_section modified now
    (w.asked.length ≤ MOST_CHANGES + 1 ∧ w.asked = w.stops.map Stop.address ∧ w.asked.Nodup) ∧
    (choice.copy = none ↔ Stands source w.asked has_section modified now) ∧
    (∀ copy, choice.copy = some copy → LastFound source w.asked copy) ∧
    choice.remote.map RemoteRef.url = w.asked ∧
    (∀ r ∈ choice.remote.dropLast, r.role = .ManagedHop) ∧
    ((∀ r ∈ choice.remote, r.role ≠ .Managed) ↔ line_in_effect urls line choice = none) ∧
    (∀ r ∈ choice.remote, r.role = .Managed → ∃ l, line_in_effect urls line choice = some l ∧
      r.interval = l.config.interval ∧ r.strict = l.config.strict) ∧
    (∀ r ∈ choice.remote, r.role ≠ .Managed → r.interval = DEFAULT_INTERVAL ∧ r.strict = false) ∧
    ∀ now', (∀ m, modified = some m → (m ≤ now ↔ m ≤ now')) →
      choose urls source line has_section modified now' = choice := by
  intro w choice
  have hgone : Gone urls source w (walk urls source line.address).2 := walk_gone line.address
  have hstands := hgone.in_effect has_section modified now
  obtain ⟨updated, from_, hremote, hupdated, hline, hcopy⟩ :=
    choose_cases urls source line has_section modified now
  obtain ⟨hnone, hmanaged⟩ := managed_spec hgone line hremote hupdated
  refine ⟨⟨hgone.length, hgone.asked, hgone.nodup⟩, ?_, ?_, ?_, ?_, ?_, ?_, ?_, ?_⟩
  · rw [← hstands]
    rcases hcopy with ⟨heffect, hcopy⟩ | ⟨heffect, copy, hcopy, -⟩
    · exact ⟨fun _ => heffect, fun _ => hcopy⟩
    · constructor
      · intro hno
        rw [hcopy] at hno
        simp at hno
      · intro htrue
        rw [heffect] at htrue
        simp at htrue
  · intro copy hc
    rcases hcopy with ⟨-, hcopy⟩ | ⟨-, copy', hcopy, hfound⟩
    · rw [hcopy] at hc
      simp at hc
    · rw [hcopy, Option.some.injEq] at hc
      exact hc ▸ hfound
  · rw [hremote, refs_url, hgone.asked]
  · rw [hremote]
    exact fun r hr => mem_dropLast_refs hr
  · rw [hline]
    exact hnone
  · rw [hline]
    exact hmanaged
  · rw [hremote]
    intro r hr hrole
    rcases mem_refs hr with ⟨hm, -⟩ | ⟨-, hinterval, hstrict⟩
    · exact absurd hm hrole
    · exact ⟨hinterval, hstrict⟩
  · intro now' hnow
    have heffect : local_in_effect has_section modified now' w =
        local_in_effect has_section modified now w := by
      rw [Bool.eq_iff_iff, hgone.in_effect, hgone.in_effect]
      refine or_congr_right (and_congr_right fun _ => exists_congr fun m => ?_)
      exact and_congr_right fun hm => and_congr_left fun _ => (hnow m hm).symm
    have hchoice : choice = _ := choose_eq urls source line has_section modified now
    have hother := choose_eq urls source line has_section modified now'
    rw [hother, hchoice]
    simp only [w] at heffect
    rw [heffect]

/-- The local file, changed at 5 by the clock, and a copy fetched at 3: at 4 the copy is in effect,
at 6 the local file. -/
theorem comes_to_pass :
    let urls : Urls ℕ := ⟨fun _ => none, fun _ => [], id⟩
    let line : Line ℕ := ⟨⟨[], DEFAULT_INTERVAL, false⟩, 0, ⟨[], 1⟩⟩
    (choose urls (fun _ => .Text [] [] 3) line true (some 5) 4).copy ≠
      (choose urls (fun _ => .Text [] [] 3) line true (some 5) 6).copy := by
  intro urls line
  have hwalk : walk urls (fun _ => .Text [] [] 3) line.address =
      ((⟨[], none, none, []⟩ : Walk ℕ).found urls 0 [] [] 3, .NoLine) := by
    rw [walk, walk_from]
    rfl
  simp only [choose, hwalk]
  decide

end Managed

end Config

end Rurge
