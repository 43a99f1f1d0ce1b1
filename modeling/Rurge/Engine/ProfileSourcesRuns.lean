import Rurge.Engine.ProfileSources

/-!
# No version of a source goes untold

What the invariant says of each registration (`Good`), and that a run keeps it whose registrations
meet the condition `Careful`: a version nobody was told of is pending or on its way, and a call of
`changed` that waits for a move waits for nothing that has come.
-/

namespace Rurge

namespace Sources

open Runs

variable {Url : Type*}

/-! ### A registration -/

/-- The copy that was reported last, or read by the generation and by every load since, is the one
that is published, where the registration has nothing to tell. -/
structure Good (disk : Option Copy) (source : List (RemoteRef Url)) (t : Tracked Url) : Prop where
  holds : ∀ v, t.holds = some v → t.known = v
  known : t.known ≤ t.version
  seen : t.holds = none → t.known = t.version → t.seen = t.version
  seen_le : t.seen ≤ t.version
  reported_le : t.reported ≤ t.version
  published : disk = t.copies.getLast?
  told : t.reported = t.version → t.unreported = false → ∀ c, disk = some c →
    t.told = some c ∨ t.built = some c ∧ c.text = true ∧
      ∀ r ∈ source, r.url = t.url → r.copy = some c

variable {disk : Option Copy} {source : List (RemoteRef Url)} {t : Tracked Url}

theorem Tracked.pending_eq_false :
    t.pending = false ↔ t.seen = t.reported ∧ t.unreported = false := by
  simp [Tracked.pending]

theorem Tracked.copy_of_version : t.copy_of t.version = t.copies.getLast? := by
  rw [Tracked.version, List.getLast?_eq_getElem?]
  cases hcopies : t.copies with
  | nil => rfl
  | cons c cs => simp [Tracked.copy_of, hcopies]

namespace Good

/-- A version nobody was told of is pending, or the task that follows the source has a step left. -/
theorem tells (h : Good disk source t) {c : Copy} (hpublished : t.copies.getLast? = some c)
    (htold : t.told ≠ some c) (hbuilt : t.built ≠ some c) :
    t.pending = true ∨ t.busy = true := by
  by_contra hnot
  rw [not_or, Bool.not_eq_true, Bool.not_eq_true, Tracked.pending_eq_false] at hnot
  obtain ⟨⟨hreported, hunreported⟩, hidle⟩ := hnot
  have hidle : t.holds = none ∧ t.known = t.version := by
    simpa [Tracked.busy] using hidle
  have hseen := h.seen hidle.1 hidle.2
  rcases h.told (hreported.symm.trans hseen) hunreported c (h.published.trans hpublished) with
    hwas | ⟨hwas, -⟩
  · exact htold hwas
  · exact hbuilt hwas

/-- The task that follows the source reads the version. -/
theorem reads (h : Good disk source t) :
    Good disk source { t with known := t.version, holds := some t.version } where
  holds v hv := by simpa using hv
  known := le_rfl
  seen hnone := by simp at hnone
  seen_le := h.seen_le
  reported_le := h.reported_le
  published := h.published
  told := h.told

/-- The task tells the version that it has read. -/
theorem moves (h : Good disk source t) {v : ℕ} (hv : t.holds = some v) :
    Good disk source { t with holds := none, seen := v } where
  holds v hv := by simp at hv
  known := h.known
  seen _ hknown := by rw [← hknown, ← h.holds v hv]
  seen_le := by
    rw [← h.holds v hv]
    exact h.known
  reported_le := h.reported_le
  published := h.published
  told := h.told

/-- The version is published that the copy `c` is. -/
theorem publishes (h : Good disk source t) (c : Copy) :
    Good (some c) source { t with copies := t.copies ++ [c] } where
  holds := h.holds
  known := by
    have := h.known
    simp only [Tracked.version, List.length_append, List.length_singleton] at this ⊢
    omega
  seen _ hknown := by
    have := h.known
    simp only [Tracked.version, List.length_append, List.length_singleton] at this hknown ⊢
    omega
  seen_le := by
    have := h.seen_le
    simp only [Tracked.version, List.length_append, List.length_singleton] at this ⊢
    omega
  reported_le := by
    have := h.reported_le
    simp only [Tracked.version, List.length_append, List.length_singleton] at this ⊢
    omega
  published := by simp
  told hreported := by
    have := h.reported_le
    simp only [Tracked.version, List.length_append, List.length_singleton] at this hreported
    omega

/-- What was seen is reported. -/
theorem reports (h : Good disk source t) :
    Good disk source { t with
      reported := t.seen
      unreported := false
      told := t.copy_of t.seen <|> t.told } where
  holds := h.holds
  known := h.known
  seen := h.seen
  seen_le := h.seen_le
  reported_le := h.seen_le
  published := h.published
  told hreported _ c hc := by
    have hseen : t.seen = t.version := hreported
    refine .inl ?_
    simp only [hseen, Tracked.copy_of_version, ← h.published, hc]
    rfl

/-- A load reads the copy that is published, if it is text. -/
theorem loads (h : Good disk source t) {source' : List (RemoteRef Url)}
    (hread : ∀ r ∈ source', r.url = t.url → r.copy = disk.filter Copy.text) :
    Good disk source' t where
  holds := h.holds
  known := h.known
  seen := h.seen
  seen_le := h.seen_le
  reported_le := h.reported_le
  published := h.published
  told hreported hunreported c hc := by
    rcases h.told hreported hunreported c hc with htold | ⟨hbuilt, htext, -⟩
    · exact .inl htold
    · refine .inr ⟨hbuilt, htext, fun r hr hurl => ?_⟩
      rw [hread r hr hurl, hc]
      simp [htext]

/-- The next generation names the source as the one before did. -/
theorem keeps (h : Good disk source t) {wanted : RemoteRef Url} (hmem : wanted ∈ source)
    (hurl : wanted.url = t.url) :
    Good disk source { t with provisional := false, built := wanted.copy } where
  holds := h.holds
  known := h.known
  seen := h.seen
  seen_le := h.seen_le
  reported_le := h.reported_le
  published := h.published
  told hreported hunreported c hc := by
    rcases h.told hreported hunreported c hc with htold | ⟨-, htext, hall⟩
    · exact .inl htold
    · exact .inr ⟨hall wanted hmem hurl, htext, hall⟩

end Good

/-! ### Registering -/

theorem Good.of_provisional (h : Good disk source t) (provisional : Bool) :
    Good disk source { t with provisional := provisional } :=
  ⟨h.holds, h.known, h.seen, h.seen_le, h.reported_le, h.published, h.told⟩

namespace World

variable {w : World Url}

/-- Two registrations of two addresses. -/
def Apart (t u : Tracked Url) : Prop := t.id ≠ u.id ∧ t.url ≠ u.url

instance : Std.Symm (@Apart Url) := ⟨fun _ _ h => ⟨h.1.symm, h.2.symm⟩⟩

/-- What the registrations `ts` are, and the last load. -/
structure Registered (w : World Url) (ts : List (Tracked Url)) : Prop where
  good : ∀ t ∈ ts, Good (w.disk t.url) w.source t
  distinct : ts.Pairwise Apart
  ids : ∀ t ∈ ts, t.id < w.next_id
  nodup : (w.source.map fun r : RemoteRef Url => r.url).Nodup
  found : ∀ r ∈ w.source, ∀ c, r.copy = some c →
    c.text = true ∧ (w.disk r.url).isSome = true

namespace Registered

variable {ts us : List (Tracked Url)} {w' : World Url}

theorem cons_iff {u : Tracked Url} : w.Registered (u :: ts) ↔
    w.Registered ts ∧ Good (w.disk u.url) w.source u ∧ (∀ t ∈ ts, Apart u t) ∧
      u.id < w.next_id := by
  constructor
  · intro h
    obtain ⟨hapart, hdistinct⟩ := List.pairwise_cons.1 h.distinct
    exact ⟨⟨fun t ht => h.good t (List.mem_cons_of_mem _ ht), hdistinct,
      fun t ht => h.ids t (List.mem_cons_of_mem _ ht), h.nodup, h.found⟩,
      h.good u List.mem_cons_self, hapart, h.ids u List.mem_cons_self⟩
  · rintro ⟨h, hgood, hapart, hid⟩
    refine ⟨?_, List.pairwise_cons.2 ⟨hapart, h.distinct⟩, ?_, h.nodup, h.found⟩
    · intro t ht
      rcases List.mem_cons.1 ht with rfl | ht
      · exact hgood
      · exact h.good t ht
    · intro t ht
      rcases List.mem_cons.1 ht with rfl | ht
      · exact hid
      · exact h.ids t ht

theorem perm (h : w.Registered ts) (hperm : ts.Perm us) : w.Registered us where
  good t ht := h.good t (hperm.mem_iff.2 ht)
  distinct := h.distinct.perm hperm fun hapart => ⟨hapart.1.symm, hapart.2.symm⟩
  ids t ht := h.ids t (hperm.mem_iff.2 ht)
  nodup := h.nodup
  found := h.found

theorem sublist (h : w.Registered ts) (hsub : us.Sublist ts) : w.Registered us where
  good t ht := h.good t (hsub.subset ht)
  distinct := h.distinct.sublist hsub
  ids t ht := h.ids t (hsub.subset ht)
  nodup := h.nodup
  found := h.found

/-- What goes on elsewhere: the copies of other addresses, and other registrations. -/
theorem frame (h : w.Registered ts) (hsource : w'.source = w.source)
    (hids : w.next_id ≤ w'.next_id) (hdisk : ∀ t ∈ ts, w'.disk t.url = w.disk t.url)
    (hsome : ∀ url, (w.disk url).isSome = true → (w'.disk url).isSome = true) :
    w'.Registered ts where
  good t ht := by
    rw [hdisk t ht, hsource]
    exact h.good t ht
  distinct := h.distinct
  ids t ht := (h.ids t ht).trans_le hids
  nodup := hsource ▸ h.nodup
  found r hr c hc := by
    rw [hsource] at hr
    exact ⟨(h.found r hr c hc).1, hsome _ (h.found r hr c hc).2⟩

/-- The loads' references are one to an address. -/
theorem unique (h : w.Registered ts) {r r' : RemoteRef Url} (hr : r ∈ w.source)
    (hr' : r' ∈ w.source) (hurl : r.url = r'.url) : r = r' :=
  List.inj_on_of_nodup_map h.nodup hr hr' hurl

end Registered

end World

theorem getLast?_toList_append (cs ds : List Copy) :
    (cs.getLast?.toList ++ ds).getLast? = (cs ++ ds).getLast? := by
  rw [List.getLast?_append, List.getLast?_append]
  cases cs.getLast? <;> rfl

theorem isSome_getLast? {copy : Option Copy} (hcopy : copy.isSome = true) (ds : List Copy) :
    (copy.toList ++ ds).getLast?.isSome = true := by
  obtain ⟨c, rfl⟩ := Option.isSome_iff_exists.1 hcopy
  rw [Option.toList_some, List.getLast?_isSome]
  exact List.cons_ne_nil c ds

namespace World

variable [DecidableEq Url] {w w₀ : World Url}

/-- What comes onto the disk, and nothing else changes. -/
theorem downloads_of_spec (w : World Url) (url : Url) (texts : List Bool) :
    ∃ disk downloads, (w.downloads_of url texts).1 = { w with
        disk := disk
        downloads := downloads } ∧
      (∀ other, other ≠ url → disk other = w.disk other) ∧
      disk url = ((w.disk url).toList ++ (w.downloads_of url texts).2).getLast? ∧
      (w.downloads_of url texts).2.length = texts.length := by
  induction texts generalizing w with
  | nil =>
    refine ⟨w.disk, w.downloads, rfl, fun _ _ => rfl, ?_, rfl⟩
    cases hdisk : w.disk url with
    | none => simp [downloads_of]
    | some c => simp [downloads_of]
  | cons text texts ih =>
    obtain ⟨disk, downloads, heq, hother, hurl, hlength⟩ := ih (w.download url text)
    refine ⟨disk, downloads, heq, fun other hne => ?_, ?_, by simp [downloads_of, hlength]⟩
    · rw [hother other hne]
      simp [download, hne]
    · rw [hurl]
      simp [downloads_of, download, List.getLast?_append, List.getLast?_cons]

/-- What a registration leaves as it is, and the copies it begins with. -/
theorem register_spec (w : World Url) (wanted : RemoteRef Url) (race : Race) :
    ∃ disk downloads news, (w.register wanted race).1 = { w with
        disk := disk
        downloads := downloads
        next_id := w.next_id + 1 } ∧
      (∀ other, other ≠ wanted.url → disk other = w.disk other) ∧
      disk wanted.url = (w.register wanted race).2.copies.getLast? ∧
      (w.register wanted race).2.copies = (w.disk wanted.url).toList ++ news ∧
      news.length = race.early.length + race.late.length := by
  obtain ⟨disk, downloads, heq, hother, hurl, hlength⟩ :=
    w.downloads_of_spec wanted.url race.early
  obtain ⟨disk', downloads', heq', hother', hurl', hlength'⟩ :=
    (w.downloads_of wanted.url race.early).1.downloads_of_spec wanted.url race.late
  refine ⟨disk', downloads', (w.downloads_of wanted.url race.early).2 ++
    ((w.downloads_of wanted.url race.early).1.downloads_of wanted.url race.late).2,
    ?_, fun other hne => ?_, ?_, ?_, ?_⟩
  · simp only [register, heq']
    rw [heq]
  · rw [hother' other hne, heq]
    exact hother other hne
  · have hearly : (w.downloads_of wanted.url race.early).1.disk = disk := by rw [heq]
    rw [hurl', hearly, hurl, getLast?_toList_append]
    rfl
  · simp [register]
  · rw [List.length_append, hlength, hlength']

/-- A registration tells what its generation did not read. -/
theorem good_register (w : World Url) (wanted : RemoteRef Url) (race : Race) (unreported : Bool)
    (told : Option Copy) (source : List (RemoteRef Url))
    (hfound : wanted.found = true → (w.disk wanted.url).isSome = true)
    (hread : unreported = false → race.early ++ race.late = [] → wanted.found = true →
      ∀ c, w.disk wanted.url = some c → told = some c ∨ wanted.copy = some c ∧ c.text = true ∧
        ∀ r ∈ source, r.url = wanted.url → r.copy = some c) :
    Good ((w.register wanted race).1.disk wanted.url) source
      { (w.register wanted race).2 with
        unreported := unreported
        told := told } := by
  obtain ⟨disk, downloads, news, heq, -, hurl, hcopies, hlength⟩ := w.register_spec wanted race
  have hdisk : (w.register wanted race).1.disk wanted.url =
      (w.register wanted race).2.copies.getLast? := by
    rw [heq]
    exact hurl
  have hreported : (w.register wanted race).2.reported =
      built_from wanted.found (w.register wanted race).2.copies.length := rfl
  have hversion : (w.register wanted race).2.seen =
      (w.register wanted race).2.copies.length := rfl
  refine ⟨fun v hv => ?_, ?_, fun _ _ => hversion, hversion.le, ?_, hdisk, ?_⟩
  · simp [register] at hv
  · simp [register, Tracked.version]
  · simp only [hreported, built_from, Tracked.version]
    split_ifs
    · exact min_le_left _ _
    · exact Nat.zero_le _
  · intro hall hunreported c hc
    have hall : built_from wanted.found (w.register wanted race).2.copies.length =
        (w.register wanted race).2.copies.length := hall
    have hpos : (w.register wanted race).2.copies ≠ [] := by
      intro hnil
      rw [hdisk, hnil] at hc
      simp at hc
    have hpos := List.length_pos_iff.2 hpos
    -- of a source without text a version would be left to tell
    have hgot : wanted.found = true := by
      by_contra hnot
      rw [built_from, if_neg hnot] at hall
      omega
    rw [built_from, if_pos hgot] at hall
    obtain ⟨copy, hcopy⟩ := Option.isSome_iff_exists.1 (hfound hgot)
    rw [hcopies, hcopy, Option.toList_some, List.singleton_append, List.length_cons] at hall
    have hnone : news = [] := List.length_eq_zero_iff.1 (by omega)
    have hempty : race.early ++ race.late = [] := by
      rw [← List.length_eq_zero_iff, List.length_append, ← hlength, hnone, List.length_nil]
    refine hread hunreported hempty hgot c ?_
    rw [hdisk, hcopies, hnone, hcopy] at hc
    rw [hcopy]
    simpa using hc

namespace Registered

variable {ts : List (Tracked Url)}

/-- Copies come of an address that is not among the registrations. -/
theorem downloads_of (h : w.Registered ts) {url : Url} (hurl : ∀ t ∈ ts, t.url ≠ url)
    (texts : List Bool) : (w.downloads_of url texts).1.Registered ts := by
  obtain ⟨disk, downloads, heq, hother, hdisk, -⟩ := w.downloads_of_spec url texts
  rw [heq]
  refine h.frame rfl le_rfl (fun t ht => hother _ (hurl t ht)) fun other hsome => ?_
  by_cases hne : other = url
  · subst hne
    simpa only [hdisk] using isSome_getLast? hsome _
  · simpa only [hother other hne] using hsome

/-- A registration of an address that is not among the others. -/
theorem register (h : w.Registered ts) {wanted : RemoteRef Url} (race : Race)
    (hurl : ∀ t ∈ ts, t.url ≠ wanted.url) {u : Tracked Url} (hu : u.url = wanted.url)
    (hid : u.id = w.next_id)
    (hgood : Good ((w.register wanted race).1.disk wanted.url) w.source u) :
    (w.register wanted race).1.Registered (u :: ts) := by
  obtain ⟨disk, downloads, news, heq, hother, hdisk, hcopies, -⟩ := w.register_spec wanted race
  rw [cons_iff]
  refine ⟨?_, ?_, fun t ht => ⟨?_, ?_⟩, ?_⟩
  · rw [heq]
    refine h.frame rfl (Nat.le_succ _) (fun t ht => hother _ (hurl t ht)) fun other hsome => ?_
    by_cases hne : other = wanted.url
    · subst hne
      simpa only [hdisk, hcopies] using isSome_getLast? hsome _
    · simpa only [hother other hne] using hsome
  · rw [hu]
    rw [heq] at hgood ⊢
    exact hgood
  · rw [hid]
    exact (h.ids t ht).ne'
  · rw [hu]
    exact (hurl t ht).symm
  · rw [heq, hid]
    exact Nat.lt_succ_self _

end Registered

/-! ### The sources of a generation -/

/-- The copy that a generation got, or a version that comes after it, is what a registration in
`track` begins with: a replaced one leaves something to tell, or nothing is published before it is
retired; a new one is of the copy the load read. -/
def Reads (w : World Url) (wanted : RemoteRef Url) (race : Race) : Prop :=
  match w.tracked.find? fun t : Tracked Url => t.url == wanted.url with
  | some kept =>
    kept.role = wanted.role ∧ kept.interval = wanted.interval ∨ kept.leaves_unreported = true ∨
      race.lost = [] ∨ wanted.copy = none ∨ race.early ++ race.late ≠ []
  | none => wanted.copy = none ∨ wanted.copy = w.disk wanted.url ∨ race.early ++ race.late ≠ []

/-- How `track` stands before the sources `rest`. -/
structure Following (w₀ : World Url) (rest : List (RemoteRef Url))
    (s : World Url × List (Tracked Url) × List (Tracked Url)) : Prop where
  frame : ∃ disk downloads next_id, s.1 = { w₀ with
    disk := disk
    downloads := downloads
    next_id := next_id }
  registered : s.1.Registered (s.2.2 ++ s.2.1)
  apart : ∀ t ∈ s.2.2, ∀ r ∈ rest, t.url ≠ r.url
  held : ∀ r ∈ rest, (s.2.1.find? fun t : Tracked Url => t.url == r.url) =
    w₀.tracked.find? fun t : Tracked Url => t.url == r.url
  disk : ∀ r ∈ rest, s.1.disk r.url = w₀.disk r.url

omit [DecidableEq Url] in
theorem perm_eraseP {p : Tracked Url → Bool} {ts : List (Tracked Url)} {kept : Tracked Url}
    (h : ts.find? p = some kept) : ts.Perm (kept :: ts.eraseP p) := by
  induction ts with
  | nil => simp at h
  | cons t ts ih =>
    rw [List.find?_cons] at h
    cases hp : p t with
    | true =>
      rw [hp, Option.some.injEq] at h
      rw [List.eraseP_cons_of_pos hp, h]
    | false =>
      rw [hp] at h
      rw [List.eraseP_cons_of_neg (by simp [hp])]
      exact ((ih h).cons t).trans (.swap _ _ _)

omit [DecidableEq Url] in
theorem find?_eraseP {p q : Tracked Url → Bool} (hpq : ∀ t, p t = true → q t = false)
    (ts : List (Tracked Url)) : (ts.eraseP p).find? q = ts.find? q := by
  induction ts with
  | nil => rfl
  | cons t ts ih =>
    cases hp : p t with
    | true => rw [List.eraseP_cons_of_pos hp, List.find?_cons, hpq t hp]
    | false => rw [List.eraseP_cons_of_neg (by simp [hp]), List.find?_cons, List.find?_cons, ih]

theorem find?_url_eraseP {url other : Url} (hne : other ≠ url) (ts : List (Tracked Url)) :
    (ts.eraseP fun t : Tracked Url => t.url == url).find? (fun t => t.url == other) =
      ts.find? fun t => t.url == other := by
  refine find?_eraseP (fun t ht => ?_) ts
  simp only [beq_iff_eq] at ht
  simp [ht, hne.symm]

/-- One more source of the generation. -/
theorem Following.next {rest : List (RemoteRef Url)}
    {s : World Url × List (Tracked Url) × List (Tracked Url)} {wanted : RemoteRef Url}
    {race : Url → Race} (h : Following w₀ (wanted :: rest) s) (hmem : wanted ∈ w₀.source)
    (hrest : ∀ r ∈ rest, r.url ≠ wanted.url) (hreads : w₀.Reads wanted (race wanted.url)) :
    Following w₀ rest (track_one race s wanted) := by
  obtain ⟨w, before, tracked⟩ := s
  obtain ⟨disk, downloads, next_id, hframe⟩ := h.frame
  have hregistered : w.Registered (tracked ++ before) := h.registered
  have hsource : w.source = w₀.source := by
    have : w = _ := hframe
    rw [this]
  have hheld := h.held wanted List.mem_cons_self
  have hdisk : w.disk wanted.url = w₀.disk wanted.url := h.disk wanted List.mem_cons_self
  unfold Reads at hreads
  rw [← hheld] at hreads
  have hfound : wanted.found = true → (w.disk wanted.url).isSome = true := by
    intro hfound
    obtain ⟨c, hc⟩ := Option.isSome_iff_exists.1 hfound
    exact (hregistered.found wanted (hsource ▸ hmem) c hc).2
  have hunique : ∀ c, wanted.copy = some c → c.text = true ∧
      ∀ r ∈ w.source, r.url = wanted.url → r.copy = some c := by
    intro c hc
    refine ⟨(hregistered.found wanted (hsource ▸ hmem) c hc).1, fun r hr hurl => ?_⟩
    rw [hregistered.unique hr (hsource ▸ hmem) hurl, hc]
  -- the frame of a registration, and what the sources to come find
  have hnext : ∀ (u : World Url) (kept : Tracked Url), (∃ disk downloads next_id, u = { w with
      disk := disk
      downloads := downloads
      next_id := next_id }) → (∀ other, other ≠ wanted.url → u.disk other = w.disk other) →
      u.Registered (kept :: (tracked ++ before.eraseP fun t => t.url == wanted.url)) →
      kept.url = wanted.url →
      Following w₀ rest (u, before.eraseP fun t => t.url == wanted.url, tracked ++ [kept]) := by
    rintro u kept ⟨disk', downloads', next_id', rfl⟩ hother hregistered hurl
    refine ⟨⟨disk', downloads', next_id', ?_⟩, ?_, ?_, ?_, ?_⟩
    · have : w = _ := hframe
      rw [this]
    · refine hregistered.perm ?_
      rw [List.append_assoc, List.singleton_append]
      exact List.perm_middle.symm
    · intro t ht r hr
      rcases List.mem_append.1 ht with ht | ht
      · exact h.apart t ht r (List.mem_cons_of_mem _ hr)
      · rw [List.mem_singleton.1 ht, hurl]
        exact (hrest r hr).symm
    · intro r hr
      rw [← h.held r (List.mem_cons_of_mem _ hr)]
      exact find?_url_eraseP (hrest r hr) before
    · intro r hr
      rw [← h.disk r (List.mem_cons_of_mem _ hr)]
      exact hother r.url (hrest r hr)
  unfold track_one
  dsimp only
  cases hfind : before.find? fun t : Tracked Url => t.url == wanted.url with
  | some kept =>
    dsimp only
    have hurl : kept.url = wanted.url := by simpa using List.find?_some hfind
    have hperm : (tracked ++ before).Perm
        (kept :: (tracked ++ before.eraseP fun t => t.url == wanted.url)) :=
      ((perm_eraseP hfind).append_left tracked).trans List.perm_middle
    obtain ⟨hothers, hgood, hapart, hid⟩ := Registered.cons_iff.1 (hregistered.perm hperm)
    split_ifs with hsame
    · refine hnext w _ ⟨w.disk, w.downloads, w.next_id, rfl⟩ (fun _ _ => rfl) ?_ hurl
      exact Registered.cons_iff.2
        ⟨hothers, hgood.keeps (hsource ▸ hmem) hurl.symm, hapart, hid⟩
    · have hurls : ∀ t ∈ tracked ++ before.eraseP fun t => t.url == wanted.url,
          t.url ≠ wanted.url := fun t ht => hurl ▸ (hapart t ht).2.symm
      obtain ⟨disk₁, downloads₁, heq₁, hother₁, hdisk₁, -⟩ :=
        w.downloads_of_spec wanted.url (race wanted.url).lost
      obtain ⟨disk₂, downloads₂, -, heq₂, hother₂, -⟩ :=
        (w.downloads_of wanted.url (race wanted.url).lost).1.register_spec wanted
          (race wanted.url)
      refine hnext _ _ ⟨disk₂, downloads₂, w.next_id + 1, ?_⟩ ?_ ?_ rfl
      · rw [heq₂, heq₁]
      · intro other hne
        rw [heq₂]
        exact (hother₂ other hne).trans (by rw [heq₁]; exact hother₁ other hne)
      · refine (hothers.downloads_of hurls _).register (race wanted.url) hurls rfl rfl ?_
        have hretired : (w.downloads_of wanted.url (race wanted.url).lost).1.source = w.source := by
          rw [heq₁]
        rw [hretired]
        refine good_register _ wanted _ _ _ _ (fun hgot => ?_) fun hnot hempty hgot c hc => ?_
        · rw [heq₁]
          simpa only [hdisk₁] using isSome_getLast? (hfound hgot) _
        · -- nothing was left to tell, and nothing was published since
          obtain ⟨copy, hcopy⟩ := Option.isSome_iff_exists.1 hgot
          have hlost : (race wanted.url).lost = [] := by
            rw [hfind] at hreads
            rcases hreads with hreads | hreads | hreads | hreads | hreads
            · exact absurd hreads hsame
            · rw [hreads] at hnot
              simp at hnot
            · exact hreads
            · rw [hcopy] at hreads
              simp at hreads
            · exact absurd hempty hreads
          rw [hlost] at hc
          have hversion : kept.reported = kept.version ∧ kept.unreported = false := by
            simp only [Tracked.leaves_unreported, Bool.or_eq_false_iff,
              Tracked.pending_eq_false, bne_eq_false_iff_eq] at hnot
            exact ⟨hnot.2.symm, hnot.1.2⟩
          have hwas : w.disk kept.url = some c := by
            rw [hurl]
            exact hc
          rcases hgood.told hversion.1 hversion.2 c hwas with htold | ⟨-, htext, hall⟩
          · exact .inl htold
          · refine .inr ⟨hall wanted (hsource ▸ hmem) hurl.symm, htext, ?_⟩
            exact fun r hr hr' => hall r hr (hr'.trans hurl.symm)
  | none =>
    dsimp only
    have hnone : ∀ t ∈ before, t.url ≠ wanted.url := by
      intro t ht
      simpa using List.find?_eq_none.1 hfind t ht
    have herase : before.eraseP (fun t : Tracked Url => t.url == wanted.url) = before :=
      List.eraseP_of_forall_not fun t ht => by simpa using hnone t ht
    have hurls : ∀ t ∈ tracked ++ before, t.url ≠ wanted.url := by
      intro t ht
      rcases List.mem_append.1 ht with ht | ht
      · exact h.apart t ht wanted List.mem_cons_self
      · exact hnone t ht
    obtain ⟨disk₂, downloads₂, -, heq₂, hother₂, -⟩ := w.register_spec wanted (race wanted.url)
    refine hnext _ _ ⟨disk₂, downloads₂, w.next_id + 1, heq₂⟩ ?_ ?_ rfl
    · intro other hne
      rw [heq₂]
      exact hother₂ other hne
    · rw [herase]
      refine hregistered.register (race wanted.url) hurls rfl rfl ?_
      refine good_register _ wanted _ false none _ hfound fun _ hempty hgot c hc => ?_
      obtain ⟨copy, hcopy⟩ := Option.isSome_iff_exists.1 hgot
      rw [hfind] at hreads
      rcases hreads with hreads | hreads | hreads
      · rw [hcopy] at hreads
        simp at hreads
      · have hc : wanted.copy = some c := hreads.trans (hdisk.symm.trans hc)
        exact .inr ⟨hc, hunique c hc⟩
      · exact absurd hempty hreads

theorem Following.run {rest : List (RemoteRef Url)}
    {s : World Url × List (Tracked Url) × List (Tracked Url)} (h : Following w₀ rest s)
    (race : Url → Race) (hmem : ∀ r ∈ rest, r ∈ w₀.source)
    (hnodup : (rest.map fun r : RemoteRef Url => r.url).Nodup)
    (hreads : ∀ r ∈ rest, w₀.Reads r (race r.url)) :
    Following w₀ [] (rest.foldl (track_one race) s) := by
  induction rest generalizing s with
  | nil => exact h
  | cons wanted rest ih =>
    rw [List.map_cons, List.nodup_cons] at hnodup
    have hne : ∀ r ∈ rest, r.url ≠ wanted.url := by
      intro r hr heq
      exact hnodup.1 (List.mem_map.2 ⟨r, hr, heq⟩)
    exact ih (h.next (hmem wanted List.mem_cons_self) hne (hreads wanted List.mem_cons_self))
      (fun r hr => hmem r (List.mem_cons_of_mem _ hr)) hnodup.2
      fun r hr => hreads r (List.mem_cons_of_mem _ hr)

/-- What `track` leaves: the registrations, and the calls that wait woken if there is something to
tell. -/
theorem track_spec (h : w.Registered w.tracked) {race : Url → Race}
    (hreads : ∀ r ∈ w.source, r.role ≠ .ManagedHop → w.Reads r (race r.url)) :
    ∃ disk downloads next_id tracked, (w.track race = { w with
        disk := disk
        downloads := downloads
        next_id := next_id
        tracked := tracked }.wake ∨
      tracked.any Tracked.pending = false ∧ w.track race = { w with
        disk := disk
        downloads := downloads
        next_id := next_id
        tracked := tracked }) ∧ (w.track race).Registered tracked := by
  have hstart : Following w (w.source.filter fun r : RemoteRef Url => r.role != .ManagedHop)
      (w, w.tracked, []) :=
    ⟨⟨w.disk, w.downloads, w.next_id, rfl⟩, h, by simp, fun _ _ => rfl, fun _ _ => rfl⟩
  have hrun := hstart.run race (fun r hr => (List.mem_filter.1 hr).1)
    (h.nodup.sublist (List.filter_sublist.map _)) fun r hr => by
      obtain ⟨hr, hrole⟩ := List.mem_filter.1 hr
      exact hreads r hr (by simpa using hrole)
  unfold track
  dsimp only
  generalize (w.source.filter fun r : RemoteRef Url => r.role != .ManagedHop).foldl
    (track_one race) (w, w.tracked, []) = s at hrun ⊢
  obtain ⟨u, before, tracked⟩ := s
  obtain ⟨disk, downloads, next_id, hframe⟩ := hrun.frame
  have hframe : u = _ := hframe
  have hregistered : u.Registered (tracked ++ before.filter fun t : Tracked Url =>
      t.provisional && !w.kept.isEmpty) :=
    hrun.registered.sublist (List.filter_sublist.append_left tracked)
  subst hframe
  refine ⟨disk, downloads, next_id,
    tracked ++ before.filter fun t : Tracked Url => t.provisional && !w.kept.isEmpty, ?_, ?_⟩
  · split_ifs with hpending
    · exact .inl rfl
    · exact .inr ⟨by simpa using hpending, rfl⟩
  · split_ifs
    · exact hregistered.frame rfl le_rfl (fun _ _ => rfl) fun _ => id
    · exact hregistered.frame rfl le_rfl (fun _ _ => rfl) fun _ => id

/-! ### The sources of nobody -/

/-- Nothing is there of the address, and nothing comes while it is registered. -/
def Empty (w : World Url) (url : Url) (race : Race) : Prop :=
  w.disk url = none ∧ race.early = [] ∧ race.late = []

/-- What a registration without a generation leaves. -/
theorem register_provisional_spec (h : w.Registered w.tracked) (race : Url → Race)
    (wanted : RemoteRef Url) (hcopy : wanted.copy = none) :
    ∃ disk downloads next_id tracked, w.register_provisional race wanted = { w with
        disk := disk
        downloads := downloads
        next_id := next_id
        tracked := tracked } ∧ (w.register_provisional race wanted).Registered tracked ∧
      (∀ other, other ≠ wanted.url → disk other = w.disk other) ∧
      (∀ t ∈ w.tracked, t ∈ tracked) ∧
      (((∀ t ∈ w.tracked, t.url ≠ wanted.url) → w.Empty wanted.url (race wanted.url)) →
        w.tracked.any Tracked.pending = false → tracked.any Tracked.pending = false) := by
  unfold register_provisional
  split_ifs with hheld
  · exact ⟨w.disk, w.downloads, w.next_id, w.tracked, rfl, h, fun _ _ => rfl, fun _ => id,
      fun _ => id⟩
  · have hurls : ∀ t ∈ w.tracked, t.url ≠ wanted.url := by
      intro t ht heq
      exact hheld (List.any_eq_true.2 ⟨t, ht, by simpa using heq⟩)
    obtain ⟨disk, downloads, news, heq, hother, -, hcopies, hlength⟩ :=
      w.register_spec wanted (race wanted.url)
    have hnot : wanted.found = false := by simp [RemoteRef.found, hcopy]
    have hregistered := h.register (race wanted.url) hurls (u :=
      { (w.register wanted (race wanted.url)).2 with provisional := true }) rfl rfl
      ((good_register w wanted _ false none _ (fun hgot => by simp [hnot] at hgot)
        fun _ _ hgot => by simp [hnot] at hgot).of_provisional true)
    dsimp only
    refine ⟨disk, downloads, w.next_id + 1, w.tracked ++
      [{ (w.register wanted (race wanted.url)).2 with provisional := true }], ?_, ?_, hother,
      fun t ht => List.mem_append_left _ ht, ?_⟩
    · rw [heq]
    · have hperm := hregistered.perm (List.perm_append_singleton _ _).symm
      rw [heq] at hperm ⊢
      exact hperm.frame rfl le_rfl (fun _ _ => rfl) fun _ => id
    · intro hempty hnone
      obtain ⟨hdisk, hearly, hlate⟩ := hempty hurls
      rw [hearly, hlate] at hlength
      have hnil : (w.register wanted (race wanted.url)).2.copies = [] := by
        rw [hcopies, hdisk, List.length_eq_zero_iff.1 hlength]
        rfl
      have hseen : (w.register wanted (race wanted.url)).2.seen = 0 := by
        change (w.register wanted (race wanted.url)).2.copies.length = 0
        rw [hnil, List.length_nil]
      have hreported : (w.register wanted (race wanted.url)).2.reported = 0 := by
        change built_from wanted.found _ = 0
        rw [built_from, if_neg (by simp [hnot])]
      rw [List.any_append]
      simp only [hnone, Bool.false_or, List.any_cons, List.any_nil, Bool.or_false]
      rw [Tracked.pending_eq_false]
      exact ⟨hseen.trans hreported.symm, rfl⟩

/-- What `follow_missing` leaves, the sources `rest` to come. -/
theorem follow_missing_fold (h : w.Registered w.tracked) (race : Url → Race)
    (rest : List (RemoteRef Url)) (hcopy : ∀ r ∈ rest, r.copy = none)
    (hnodup : (rest.map fun r : RemoteRef Url => r.url).Nodup) :
    ∃ disk downloads next_id tracked, rest.foldl (register_provisional race) w = { w with
        disk := disk
        downloads := downloads
        next_id := next_id
        tracked := tracked } ∧ (rest.foldl (register_provisional race) w).Registered tracked ∧
      ((∀ r ∈ rest, (∀ t ∈ w.tracked, t.url ≠ r.url) → w.Empty r.url (race r.url)) →
        w.tracked.any Tracked.pending = false → tracked.any Tracked.pending = false) := by
  induction rest generalizing w with
  | nil => exact ⟨w.disk, w.downloads, w.next_id, w.tracked, rfl, h, fun _ => id⟩
  | cons wanted rest ih =>
    rw [List.map_cons, List.nodup_cons] at hnodup
    obtain ⟨disk, downloads, next_id, tracked, heq, hregistered, hother, hmem, hquiet⟩ :=
      register_provisional_spec h race wanted (hcopy wanted List.mem_cons_self)
    have htracked : (w.register_provisional race wanted).tracked = tracked := by rw [heq]
    obtain ⟨disk', downloads', next_id', tracked', heq', hregistered', hquiet'⟩ :=
      ih (w := w.register_provisional race wanted) (htracked.symm ▸ hregistered)
        (fun r hr => hcopy r (List.mem_cons_of_mem _ hr)) hnodup.2
    refine ⟨disk', downloads', next_id', tracked', ?_, hregistered', fun hempty hnone => ?_⟩
    · rw [List.foldl_cons, heq', heq]
    · refine hquiet' (fun r hr hurls => ?_) ?_
      · have hne : r.url ≠ wanted.url :=
          fun heq => hnodup.1 (List.mem_map.2 ⟨r, hr, heq⟩)
        obtain ⟨hdisk, hrace⟩ := hempty r (List.mem_cons_of_mem _ hr)
          fun t ht => hurls t (htracked ▸ hmem t ht)
        refine ⟨?_, hrace⟩
        rw [heq]
        exact (hother r.url hne).trans hdisk
      · rw [htracked]
        exact hquiet (hempty wanted List.mem_cons_self) hnone

/-! ### The calls of `changed` -/

/-- What a call knows at a stage that it has just come to. -/
def Fresh (w : World Url) : Stage → Prop
  | .Subscribed moves => moves ≤ w.moves
  | .Waiting moves until_ =>
    moves ≤ w.moves ∧ (until_ = none → w.tracked.any Tracked.pending = false)
  | _ => True

/-- No call that nothing has woken waits for a move while a source is pending; and the times of the
moves are not after the last. -/
structure Calling (w : World Url) : Prop where
  subscribed : ∀ moves, Stage.Subscribed moves ∈ w.calls → moves ≤ w.moves
  waiting : ∀ moves until_, Stage.Waiting moves until_ ∈ w.calls → moves ≤ w.moves
  awake : Stage.Waiting w.moves none ∈ w.calls → w.tracked.any Tracked.pending = false
  times : ∀ at_ ∈ w.moves_at, at_ ≤ w.now ∧ ∃ t, w.moved_at = some t ∧ at_ ≤ t

variable {w' : World Url}

omit [DecidableEq Url] in
theorem Calling.next (h : w.Calling) (hmoves : w.moves ≤ w'.moves)
    (hcalls : ∀ s ∈ w'.calls, s ∈ w.calls ∨ w'.Fresh s)
    (hawake : Stage.Waiting w'.moves none ∈ w.calls → w'.tracked.any Tracked.pending = false)
    (htimes : ∀ at_ ∈ w'.moves_at, at_ ≤ w'.now ∧ ∃ t, w'.moved_at = some t ∧ at_ ≤ t) :
    w'.Calling where
  subscribed moves hs := by
    rcases hcalls _ hs with hs | hs
    · exact (h.subscribed moves hs).trans hmoves
    · exact hs
  waiting moves until_ hs := by
    rcases hcalls _ hs with hs | hs
    · exact (h.waiting moves until_ hs).trans hmoves
    · exact hs.1
  awake hs := by
    rcases hcalls _ hs with hs | hs
    · exact hawake hs
    · exact hs.2 rfl
  times := htimes

omit [DecidableEq Url] in
/-- The calls stay where they are, and nothing comes that is pending. -/
theorem Calling.rests (h : w.Calling) (hmoves : w'.moves = w.moves) (hcalls : w'.calls = w.calls)
    (hpending : Stage.Waiting w.moves none ∈ w.calls → w.tracked.any Tracked.pending = false →
      w'.tracked.any Tracked.pending = false)
    (hnow : w'.now = w.now) (hmoved : w'.moved_at = w.moved_at)
    (htimes : w'.moves_at = w.moves_at) : w'.Calling := by
  refine h.next hmoves.ge (fun s hs => .inl (hcalls ▸ hs)) (fun hs => ?_) ?_
  · rw [hmoves] at hs
    exact hpending hs (h.awake hs)
  · rw [hnow, hmoved, htimes]
    exact h.times

omit [DecidableEq Url] in
/-- The calls are woken. -/
theorem Calling.wakes (h : w.Calling) (hmoves : w'.moves = w.moves + 1)
    (hcalls : w'.calls = w.calls)
    (htimes : ∀ at_ ∈ w'.moves_at, at_ ≤ w'.now ∧ ∃ t, w'.moved_at = some t ∧ at_ ≤ t) :
    w'.Calling := by
  refine h.next (by omega) (fun s hs => .inl (hcalls ▸ hs)) (fun hs => ?_) htimes
  have := h.waiting _ _ hs
  omega

/-! ### The steps -/

omit [DecidableEq Url] in
theorem change_change (id : ℕ) (f g : Tracked Url → Tracked Url) (hf : ∀ t, (f t).id = t.id) :
    (w.change id f).change id g = w.change id (g ∘ f) := by
  simp only [change, List.map_map]
  congr 1
  refine List.map_congr_left fun t _ => ?_
  by_cases ht : t.id = id
  · simp [ht, hf]
  · simp [ht]

omit [DecidableEq Url] in
/-- One registration changed. -/
theorem Registered.change (h : w.Registered w.tracked) (id : ℕ) {f : Tracked Url → Tracked Url}
    (hid : ∀ t, (f t).id = t.id) (hurl : ∀ t, (f t).url = t.url)
    (hgood : ∀ t ∈ w.tracked, t.id = id → Good (w.disk t.url) w.source (f t)) :
    (w.change id f).Registered (w.change id f).tracked := by
  have hkeeps : ∀ t : Tracked Url, (if t.id = id then f t else t).id = t.id ∧
      (if t.id = id then f t else t).url = t.url := by
    intro t
    split_ifs
    · exact ⟨hid t, hurl t⟩
    · exact ⟨rfl, rfl⟩
  refine ⟨fun u hu => ?_, ?_, fun u hu => ?_, h.nodup, h.found⟩
  · obtain ⟨t, ht, rfl⟩ := List.mem_map.1 hu
    rw [(hkeeps t).2]
    split_ifs with heq
    · exact hgood t ht heq
    · exact h.good t ht
  · refine List.pairwise_map.2 (h.distinct.imp fun {t u} hapart => ?_)
    rw [Apart, (hkeeps t).1, (hkeeps t).2, (hkeeps u).1, (hkeeps u).2]
    exact hapart
  · obtain ⟨t, ht, rfl⟩ := List.mem_map.1 hu
    rw [(hkeeps t).1]
    exact h.ids t ht

omit [DecidableEq Url] in
theorem Registered.eq_of_id (h : w.Registered w.tracked) {t u : Tracked Url} (ht : t ∈ w.tracked)
    (hu : u ∈ w.tracked) (hid : t.id = u.id) : t = u := by
  by_contra hne
  exact (h.distinct.forall ht hu hne).1 hid

omit [DecidableEq Url] in
theorem any_pending_map {f : Tracked Url → Tracked Url} {ts : List (Tracked Url)}
    (hf : ∀ t ∈ ts, (f t).pending = t.pending) :
    (ts.map f).any Tracked.pending = ts.any Tracked.pending := by
  rw [List.any_map, Bool.eq_iff_iff, List.any_eq_true, List.any_eq_true]
  constructor
  · rintro ⟨t, ht, hpending⟩
    exact ⟨t, ht, hf t ht ▸ hpending⟩
  · rintro ⟨t, ht, hpending⟩
    exact ⟨t, ht, (hf t ht).trans hpending⟩

omit [DecidableEq Url] in
theorem any_pending_change {id : ℕ} {f : Tracked Url → Tracked Url}
    (hf : ∀ t ∈ w.tracked, t.id = id → (f t).pending = t.pending) :
    (w.change id f).tracked.any Tracked.pending = w.tracked.any Tracked.pending := by
  refine any_pending_map fun t ht => ?_
  split_ifs with heq
  · exact hf t ht heq
  · rfl

/-- The registrations and the calls are as they should be. -/
structure Sound (w : World Url) : Prop where
  registered : w.Registered w.tracked
  calling : w.Calling

omit [DecidableEq Url] in
theorem sound_new (offline : Bool) : (new offline : World Url).Sound :=
  ⟨⟨by simp [new], by simp [new], by simp [new], by simp [new], by simp [new]⟩,
    ⟨by simp [new], by simp [new], by simp [new], by simp [new]⟩⟩

omit [DecidableEq Url] in
theorem Sound.load (h : w.Sound) (profile : Profile Url) : (w.load profile).Sound := by
  refine ⟨⟨fun t ht => ?_, h.registered.distinct, h.registered.ids, ?_, ?_⟩,
    h.calling.rests rfl rfl (fun _ => id) rfl rfl rfl⟩
  · refine (h.registered.good t ht).loads fun r hr hurl => ?_
    obtain ⟨line, -, rfl⟩ := List.mem_map.1 hr
    rw [← hurl]
  · simp only [World.load, List.map_map]
    exact profile.nodup
  · intro r hr c hc
    obtain ⟨line, -, rfl⟩ := List.mem_map.1 hr
    obtain ⟨hdisk, htext⟩ := Option.filter_eq_some_iff.1 hc
    exact ⟨htext, Option.isSome_iff_exists.2 ⟨c, hdisk⟩⟩

omit [DecidableEq Url] in
theorem Sound.release (h : w.Sound) (named : Url → Bool) : (w.release named).Sound := by
  refine ⟨(h.registered.sublist List.filter_sublist).frame rfl le_rfl (fun _ _ => rfl) fun _ => id,
    h.calling.rests rfl rfl (fun _ hnone => ?_) rfl rfl rfl⟩
  rw [List.any_eq_false] at hnone ⊢
  exact fun t ht => hnone t (List.mem_filter.1 ht).1

theorem Sound.publish (h : w.Sound) (url : Url) (text : Bool) : (w.publish url text).Sound := by
  unfold World.publish
  split_ifs with hheld
  · have hkeeps : ∀ t : Tracked Url,
        (if t.url = url then { t with copies := t.copies ++ [⟨w.downloads, text⟩] } else t).id =
          t.id ∧
        (if t.url = url then { t with copies := t.copies ++ [⟨w.downloads, text⟩] } else t).url =
          t.url := by
      intro t
      split_ifs
      · exact ⟨rfl, rfl⟩
      · exact ⟨rfl, rfl⟩
    refine ⟨⟨fun u hu => ?_, ?_, fun u hu => ?_, h.registered.nodup, fun r hr c hc => ?_⟩,
      h.calling.rests rfl rfl (fun _ hnone => ?_) rfl rfl rfl⟩
    · obtain ⟨t, ht, rfl⟩ := List.mem_map.1 hu
      rw [(hkeeps t).2]
      split_ifs with hurl
      · simpa [download, hurl] using (h.registered.good t ht).publishes ⟨w.downloads, text⟩
      · simpa [download, hurl] using h.registered.good t ht
    · refine List.pairwise_map.2 (h.registered.distinct.imp fun {t u} hapart => ?_)
      rw [Apart, (hkeeps t).1, (hkeeps t).2, (hkeeps u).1, (hkeeps u).2]
      exact hapart
    · obtain ⟨t, ht, rfl⟩ := List.mem_map.1 hu
      rw [(hkeeps t).1]
      exact h.registered.ids t ht
    · obtain ⟨htext, hsome⟩ := h.registered.found r hr c hc
      refine ⟨htext, ?_⟩
      by_cases hurl : r.url = url
      · simp [download, hurl]
      · simpa [download, hurl] using hsome
    · refine (any_pending_map fun t _ => ?_).trans hnone
      split_ifs
      · rfl
      · rfl
  · exact h

omit [DecidableEq Url] in
/-- A step of the task that follows a source: nothing, or it reads, or tells what was seen already,
or tells of a move. -/
theorem follow_cases (w : World Url) (id : ℕ) : w.follow id = w ∨
    ∃ t ∈ w.tracked, t.id = id ∧
      (w.follow id = w.change id (fun t => { t with known := t.version, holds := some t.version }) ∨
      ∃ v, t.holds = some v ∧
        (w.follow id = (w.change id fun t => { t with holds := none }).moved_to id v)) := by
  unfold follow
  split
  case h_1 => exact .inl rfl
  case h_2 t hfind =>
    have hid : t.id = id := by simpa using List.find?_some hfind
    have hmem := List.mem_of_find?_eq_some hfind
    split
    case h_1 v hv => exact .inr ⟨t, hmem, hid, .inr ⟨v, hv, rfl⟩⟩
    case h_2 =>
      split_ifs
      · exact .inl rfl
      · exact .inr ⟨t, hmem, hid, .inl rfl⟩

omit [DecidableEq Url] in
theorem Sound.follow (h : w.Sound) (id : ℕ) : (w.follow id).Sound := by
  rcases w.follow_cases id with heq | ⟨t, ht, rfl, heq | ⟨v, hv, heq⟩⟩
  · rw [heq]
    exact h
  · rw [heq]
    refine ⟨h.registered.change t.id (fun _ => rfl) (fun _ => rfl)
      fun u hu _ => (h.registered.good u hu).reads, ?_⟩
    refine h.calling.rests rfl rfl (fun _ hnone => ?_) rfl rfl rfl
    rw [any_pending_change fun _ _ _ => by rfl]
    exact hnone
  · rw [heq]
    unfold moved_to
    split
    case h_1 hnone =>
      -- the registration is there still
      have hgone := List.find?_eq_none.1 hnone { t with holds := none }
        (List.mem_map.2 ⟨t, ht, by simp⟩)
      simp at hgone
    case h_2 source hfind =>
      have hsource : source = { t with holds := none } := by
        obtain ⟨u, hu, hchanged⟩ := List.mem_map.1 (List.mem_of_find?_eq_some hfind)
        have hid : source.id = t.id := by simpa using List.find?_some hfind
        have hut : u.id = t.id := by
          rw [← hid, ← hchanged]
          split_ifs
          · rfl
          · rfl
        rw [← hchanged, if_pos hut, h.registered.eq_of_id hu ht hut]
      have hgood : ∀ u ∈ w.tracked, u.id = t.id →
          Good (w.disk u.url) w.source { u with holds := none, seen := v } := by
        intro u hu hut
        rw [h.registered.eq_of_id hu ht hut]
        exact (h.registered.good t ht).moves hv
      split_ifs with hseen
      · have hseen : t.seen = v := by rw [← hseen, hsource]
        refine ⟨h.registered.change t.id (fun _ => rfl) (fun _ => rfl) fun u hu hut => ?_, ?_⟩
        · have := hgood u hu hut
          rw [h.registered.eq_of_id hu ht hut] at this ⊢
          rwa [← hseen] at this
        · refine h.calling.rests rfl rfl (fun _ hnone => ?_) rfl rfl rfl
          rw [any_pending_change fun _ _ _ => by rfl]
          exact hnone
      · rw [change_change t.id (fun t => { t with holds := none })
          (fun t => { t with seen := v }) fun _ => rfl]
        have hchanged := h.registered.change t.id
          (f := fun t => { t with holds := none, seen := v }) (fun _ => rfl) (fun _ => rfl) hgood
        refine ⟨hchanged.frame rfl le_rfl (fun _ _ => rfl) fun _ => id, ?_⟩
        refine h.calling.wakes rfl rfl fun at_ hat => ⟨?_, w.now, rfl, ?_⟩
        · rcases List.mem_append.1 hat with hat | hat
          · exact (h.calling.times at_ hat).1
          · exact (List.mem_singleton.1 hat).le
        · rcases List.mem_append.1 hat with hat | hat
          · exact (h.calling.times at_ hat).1
          · exact (List.mem_singleton.1 hat).le

/-- The condition of a step: in `track` nothing is missed, and while a call waits for a move that
nothing has woken, what is registered without a generation has no version. -/
def Careful (w : World Url) : Action Url → Prop
  | .track race => ∀ r ∈ w.source, r.role ≠ .ManagedHop → w.Reads r (race r.url)
  | .follow_missing race =>
    Stage.Waiting w.moves none ∈ w.calls → w.offline = false →
      ∀ r ∈ w.source, r.role ≠ .ManagedHop → r.found = false →
        (∀ t ∈ w.tracked, t.url ≠ r.url) → w.Empty r.url (race r.url)
  | .awaits_first_attempt line race =>
    Stage.Waiting w.moves none ∈ w.calls →
      (∀ t ∈ w.tracked, t.url ≠ line.url) → w.Empty line.url race
  | _ => True

theorem Sound.track (h : w.Sound) {race : Url → Race} (hcareful : w.Careful (.track race)) :
    (w.track race).Sound := by
  obtain ⟨disk, downloads, next_id, tracked, heq | ⟨hnone, heq⟩, hregistered⟩ :=
    track_spec h.registered hcareful
  · refine ⟨?_, ?_⟩
    · rw [heq] at hregistered ⊢
      exact hregistered
    · rw [heq]
      exact h.calling.wakes rfl rfl h.calling.times
  · refine ⟨?_, ?_⟩
    · rw [heq] at hregistered ⊢
      exact hregistered
    · rw [heq]
      exact h.calling.rests rfl rfl (fun _ _ => hnone) rfl rfl rfl

theorem Sound.follow_missing (h : w.Sound) {race : Url → Race}
    (hcareful : w.Careful (.follow_missing race)) : (w.follow_missing race).Sound := by
  unfold World.follow_missing
  split_ifs with hoffline
  · exact h
  · have hrest : ∀ r ∈ w.source.filter fun r : RemoteRef Url => r.role != .ManagedHop && !r.found,
        r ∈ w.source ∧ r.role ≠ .ManagedHop ∧ r.found = false := by
      intro r hr
      simpa using hr
    obtain ⟨disk, downloads, next_id, tracked, heq, hregistered, hquiet⟩ :=
      follow_missing_fold h.registered race
        (w.source.filter fun r : RemoteRef Url => r.role != .ManagedHop && !r.found)
        (fun r hr => by simpa [RemoteRef.found] using (hrest r hr).2.2)
        (h.registered.nodup.sublist (List.filter_sublist.map _))
    rw [heq] at hregistered ⊢
    refine ⟨hregistered, h.calling.rests rfl rfl (fun hwaits hnone => ?_) rfl rfl rfl⟩
    refine hquiet (fun r hr hurls => ?_) hnone
    obtain ⟨hr, hrole, hfound⟩ := hrest r hr
    exact hcareful hwaits (by simpa using hoffline) r hr hrole hfound hurls

theorem Sound.awaits_first_attempt (h : w.Sound) {line : Line Url} {race : Race}
    (hcareful : w.Careful (.awaits_first_attempt line race)) :
    (w.awaits_first_attempt line race).Sound := by
  obtain ⟨disk, downloads, next_id, tracked, heq, hregistered, -, -, hquiet⟩ :=
    register_provisional_spec h.registered (fun _ => race) ⟨line, none⟩ rfl
  unfold World.awaits_first_attempt
  rw [heq] at hregistered ⊢
  exact ⟨hregistered, h.calling.rests rfl rfl
    (fun hwaits hnone => hquiet (fun hurls => hcareful hwaits hurls) hnone) rfl rfl rfl⟩

omit [DecidableEq Url] in
/-- A call goes on to a stage that it knows enough for. -/
theorem Sound.stage (h : w.Sound) (k : ℕ) {s : Stage} (hs : w.Fresh s) :
    ({ w with calls := w.calls.set k s } : World Url).Sound := by
  refine ⟨h.registered.frame rfl le_rfl (fun _ _ => rfl) fun _ => id, ?_⟩
  refine h.calling.next le_rfl (fun s' hs' => ?_) h.calling.awake h.calling.times
  rcases List.mem_or_eq_of_mem_set hs' with hs' | rfl
  · exact .inl hs'
  · right
    cases s' with
    | Subscribed => exact hs
    | Waiting => exact hs
    | Called => trivial
    | Returned => trivial
    | Dropped => trivial

omit [DecidableEq Url] in
/-- What was seen is reported. -/
theorem Sound.reports (h : w.Sound) :
    ({ w with
      tracked := w.tracked.map fun t =>
        { t with
          reported := t.seen
          unreported := false
          told := t.copy_of t.seen <|> t.told } } : World Url).Sound := by
  refine ⟨⟨fun u hu => ?_, List.pairwise_map.2 (h.registered.distinct.imp id), fun u hu => ?_,
    h.registered.nodup, h.registered.found⟩,
    h.calling.rests rfl rfl (fun _ _ => ?_) rfl rfl rfl⟩
  · obtain ⟨t, ht, rfl⟩ := List.mem_map.1 hu
    exact (h.registered.good t ht).reports
  · obtain ⟨t, ht, rfl⟩ := List.mem_map.1 hu
    exact h.registered.ids t ht
  · rw [List.any_eq_false]
    intro u hu
    obtain ⟨t, ht, rfl⟩ := List.mem_map.1 hu
    simp [Tracked.pending]

omit [DecidableEq Url] in
theorem Sound.changed (h : w.Sound) (k : ℕ) : (w.changed k).Sound := by
  unfold World.changed
  split
  case h_1 => exact h.stage k (s := .Subscribed w.moves) le_rfl
  case h_2 moves hk =>
    have hmoves := h.calling.subscribed moves (List.mem_of_getElem? hk)
    unfold look
    dsimp only
    split_ifs with hpending hquiet
    · exact h.reports.stage k (s := .Returned) trivial
    · exact h.stage k (s := .Waiting moves _) ⟨hmoves, by simp⟩
    · exact h.stage k (s := .Waiting moves none) ⟨hmoves, fun _ => by simpa using hpending⟩
  case h_3 moves until_ hk =>
    split_ifs
    · exact h.stage k (s := .Called) trivial
    · exact h
  case h_4 => exact h

theorem Sound.step (h : w.Sound) {a : Action Url} (hcareful : w.Careful a) : (w.step a).Sound := by
  cases a with
  | load profile => exact h.load profile
  | track race => exact h.track hcareful
  | follow_missing race => exact h.follow_missing hcareful
  | awaits_first_attempt line race => exact h.awaits_first_attempt hcareful
  | release named => exact h.release named
  | mirror kept =>
    exact ⟨h.registered.frame rfl le_rfl (fun _ _ => rfl) fun _ => id,
      h.calling.rests rfl rfl (fun _ => id) rfl rfl rfl⟩
  | publish url text => exact h.publish url text
  | follow id => exact h.follow id
  | call =>
    refine ⟨h.registered.frame rfl le_rfl (fun _ _ => rfl) fun _ => id,
      h.calling.next le_rfl (fun s hs => ?_) h.calling.awake h.calling.times⟩
    rcases List.mem_append.1 hs with hs | hs
    · exact .inl hs
    · rw [List.mem_singleton.1 hs]
      exact .inr trivial
  | changed k => exact h.changed k
  | drop k =>
    refine ⟨h.registered.frame rfl le_rfl (fun _ _ => rfl) fun _ => id,
      h.calling.next le_rfl (fun s hs => ?_) h.calling.awake h.calling.times⟩
    obtain ⟨j, hj⟩ := List.mem_iff_getElem?.1 hs
    simp only [World.step, List.getElem?_modify, Option.map_eq_map, Option.map_eq_some_iff] at hj
    obtain ⟨s', hs', rfl⟩ := hj
    split_ifs
    · exact .inl (List.mem_of_getElem? hs')
    · exact .inr trivial
    · exact .inl (List.mem_of_getElem? hs')
  | tick time =>
    refine ⟨h.registered.frame rfl le_rfl (fun _ _ => rfl) fun _ => id,
      h.calling.next le_rfl (fun s hs => .inl hs) h.calling.awake fun at_ hat => ?_⟩
    obtain ⟨hnow, t, ht, hle⟩ := h.calling.times at_ hat
    exact ⟨hnow.trans (Nat.le_add_right _ _), t, ht, hle⟩

/-! ### What holds in every state and of every step -/

/-- A version that is neither the one reported last nor the one the generation was built from is
pending, or the task that follows the source has a step left. -/
def Told (w : World Url) : Prop :=
  ∀ t ∈ w.tracked, ∀ c ∈ t.copies.getLast?, t.told ≠ some c → t.built ≠ some c →
    t.pending = true ∨ t.busy = true

/-- No call waits without a deadline while a source is pending, unless something has woken it. -/
def Awake (w : World Url) : Prop :=
  Stage.Waiting w.moves none ∈ w.calls → ¬w.tracked.any Tracked.pending = true

/-- A call that returns in the step does so for a source that is pending, a quiet second after every
move. -/
def Reports (w : World Url) (a : Action Url) : Prop :=
  ∀ k : ℕ, w.calls[k]? ≠ some Stage.Returned → (w.step a).calls[k]? = some Stage.Returned →
    w.tracked.any Tracked.pending = true ∧ ∀ at_ ∈ w.moves_at, at_ + QUIET ≤ w.now

omit [DecidableEq Url] in
theorem Sound.told (h : w.Sound) : w.Told :=
  fun t ht _ hc htold hbuilt => (h.registered.good t ht).tells hc htold hbuilt

omit [DecidableEq Url] in
theorem Sound.awake (h : w.Sound) : w.Awake := fun hwaits => by
  simp [h.calling.awake hwaits]

/-- A step leaves the calls alone, but for one that it makes, moves on or drops. -/
theorem Sound.calls_step (h : w.Sound) {a : Action Url} (hcareful : w.Careful a) :
    (w.step a).calls = w.calls ∨ a = .call ∨ (∃ k, a = .changed k) ∨ ∃ k, a = .drop k := by
  cases a with
  | load profile => exact .inl rfl
  | track race =>
    obtain ⟨disk, downloads, next_id, tracked, heq | ⟨-, heq⟩, -⟩ :=
      track_spec h.registered hcareful
    · exact .inl (by rw [World.step, heq]; rfl)
    · exact .inl (by rw [World.step, heq])
  | follow_missing race =>
    left
    simp only [World.step, World.follow_missing]
    split_ifs
    · rfl
    · obtain ⟨disk, downloads, next_id, tracked, heq, -⟩ :=
        follow_missing_fold h.registered race
          (w.source.filter fun r : RemoteRef Url => r.role != .ManagedHop && !r.found)
          (fun r hr => (by simpa [RemoteRef.found] using (List.mem_filter.1 hr).2 :
            _ ∧ r.copy = none).2)
          (h.registered.nodup.sublist (List.filter_sublist.map _))
      rw [heq]
  | awaits_first_attempt line race =>
    obtain ⟨disk, downloads, next_id, tracked, heq, -⟩ :=
      register_provisional_spec h.registered (fun _ => race) ⟨line, none⟩ rfl
    exact .inl (by rw [World.step, World.awaits_first_attempt, heq])
  | release named => exact .inl rfl
  | mirror kept => exact .inl rfl
  | publish url text =>
    left
    simp only [World.step, World.publish]
    split_ifs
    · rfl
    · rfl
  | follow id =>
    left
    rcases w.follow_cases id with heq | ⟨t, -, -, heq | ⟨v, -, heq⟩⟩
    · rw [World.step, heq]
    · rw [World.step, heq]
      rfl
    · rw [World.step, heq, moved_to]
      split
      · rfl
      · split_ifs
        · rfl
        · rfl
  | call => exact .inr (.inl rfl)
  | changed k => exact .inr (.inr (.inl ⟨k, rfl⟩))
  | drop k => exact .inr (.inr (.inr ⟨k, rfl⟩))
  | tick time => exact .inl rfl

theorem Sound.reports_step (h : w.Sound) {a : Action Url} (hcareful : w.Careful a) :
    w.Reports a := by
  intro k hnew hk
  rcases h.calls_step hcareful with hsame | rfl | ⟨j, rfl⟩ | ⟨j, rfl⟩
  · rw [hsame] at hk
    exact absurd hk hnew
  · simp only [World.step, List.getElem?_append] at hk
    split_ifs at hk
    · exact absurd hk hnew
    · rw [List.getElem?_singleton] at hk
      split_ifs at hk
      simp at hk
  · -- the call that takes the step comes to `Returned`
    have hset : ∀ s : Stage, s ≠ .Returned → (w.calls.set j s)[k]? ≠ some .Returned := by
      intro s hs hk
      rw [List.getElem?_set] at hk
      split_ifs at hk
      · exact hs (by simpa using hk)
      · exact hnew hk
    simp only [World.step, World.changed] at hk
    split at hk
    case h_1 => exact absurd hk (hset _ (by simp))
    case h_2 moves hj =>
      unfold look at hk
      dsimp only at hk
      split_ifs at hk with hpending hquiet
      · refine ⟨hpending, fun at_ hat => ?_⟩
        obtain ⟨-, t, ht, hle⟩ := h.calling.times at_ hat
        rw [ht, Option.elim_some] at hquiet
        omega
      · exact absurd hk (hset _ (by simp))
      · exact absurd hk (hset _ (by simp))
    case h_3 =>
      split_ifs at hk
      · exact absurd hk (hset _ (by simp))
      · exact absurd hk hnew
    case h_4 => exact absurd hk hnew
  · simp only [World.step, List.getElem?_modify, Option.map_eq_map, Option.map_eq_some_iff] at hk
    obtain ⟨s, hs, hreturned⟩ := hk
    split_ifs at hreturned with hj hs'
    · rw [hs, hs'] at hnew
      exact absurd rfl hnew
    · rw [hs, hreturned] at hnew
      exact absurd rfl hnew

/-- **No version of a source goes untold.**  In a run whose registrations miss nothing, a version
that is neither the one reported last nor the one the generation was built from is pending or on its
way, no call that nothing has woken waits without a deadline while a source is pending, and a call
returns only for a source that is pending, a quiet second after the last move. -/
theorem sources_spec (offline : Bool) (as : List (Action Url))
    (h : Along World.step Careful (new offline) as) :
    Always World.step (fun w => w.Told ∧ w.Awake) (new offline : World Url) as ∧
      Along World.step Reports (new offline) as := by
  constructor
  · exact (h.always (I := Sound) (fun _ a hw ha => hw.step ha) (sound_new offline)).mono
      fun _ hw => ⟨hw.told, hw.awake⟩
  · exact h.imp (I := Sound) (fun _ a hw ha => hw.step ha)
      (fun _ a hw ha => hw.reports_step ha) (sound_new offline)

/-- A source that a generation names, the version that comes of it, and the call that is told. -/
theorem sources_spec_told :
    let as : List (Action ℕ) := [.load ⟨[⟨0, .Include, 1⟩], by decide⟩,
      .track fun _ => ⟨[], [], []⟩, .call, .changed 0, .changed 0, .publish 0 true, .follow 0,
      .follow 0, .tick QUIET, .changed 0, .changed 0, .changed 0]
    (Always World.step (fun w => w.Told ∧ w.Awake) (new false) as ∧
      Along World.step Reports (new false) as) ∧
      (run World.step (new false) as).calls = [.Returned] := by
  refine ⟨sources_spec false _ ⟨trivial, ?_, trivial, trivial, trivial, trivial, trivial, trivial,
    trivial, trivial, trivial, trivial, trivial⟩, by decide⟩
  intro r hr _
  rw [List.mem_singleton.1 hr]
  exact .inl rfl

/-- A source that a verdict registers, the first download of which is there by the time its version
is read: it is pending, and the call that waits is not woken.  And a source whose interval changes,
a version of which comes between the look at it and its end: nobody is told of it. -/
theorem missed :
    ¬(run World.step (new false) [.call, .changed 0, .changed 0,
      .awaits_first_attempt ⟨0, .Include, 1⟩ ⟨[], [true], []⟩]).Awake ∧
    ¬(run World.step (new false) [.load ⟨[⟨0, .Include, 1⟩], by decide⟩,
      .track fun _ => ⟨[], [], []⟩, .publish 0 true, .follow 0, .follow 0, .tick QUIET, .call,
      .changed 0, .changed 0, .load ⟨[⟨0, .Include, 2⟩], by decide⟩,
      .track fun _ => ⟨[true], [], []⟩]).Told := by
  constructor
  · unfold Awake
    decide
  · unfold Told
    decide

end World

end Sources

end Rurge
