import Rurge.Rules.SetBuilt

/-!
# A compiled set and its lines

A compiled set against its lines evaluated one by one.  The address index, the table of AS numbers
and the list of everything else answer for their lines exactly.  The domain index does not: it
takes the blanks and the dots off both ends of a name, which a `DOMAIN` line evaluated on its own
keeps.  `CompiledSet.agreesWithLines_iff` says when that makes a difference.
-/

namespace Rurge

/-- A line evaluated on its own, with the caller's flags or its own. -/
def SetLine.evalAlone (env : Env) (sets : SetLookup) (setExtended : Bool) (s : SessionInfo)
    (ctx : EvalCtx) (noResolve extended : Bool) (line : SetLine) : Verdict :=
  ((Matcher.compile env.windows sets line.kind).eval env s ctx (noResolve || line.noResolve)
    (extended || line.extendedIn setExtended)).1

/-- What a line says on its own. -/
def SetLine.verdict (env : Env) (sets : SetLookup) (setExtended : Bool) (s : SessionInfo)
    (k : Knowledge) (noResolve extended : Bool) (line : SetLine) : Verdict :=
  (Matcher.compile env.windows sets line.kind).verdict env s k (noResolve || line.noResolve)
    (extended || line.extendedIn setExtended)

theorem SetLine.evalAlone_eq (env : Env) (sets : SetLookup) (setExtended : Bool) (s : SessionInfo)
    (ctx : EvalCtx) (noResolve extended : Bool) (line : SetLine) :
    line.evalAlone env sets setExtended s ctx noResolve extended =
      line.verdict env sets setExtended s ctx.toKnowledge noResolve extended :=
  Matcher.eval_verdict ..

/-- The name `t` as the domain index reads it is the name of a plain line as the domain index reads
it, or for `DOMAIN-SUFFIX` below it. -/
def SetLine.names (line : SetLine) (t : Str) : Bool :=
  let host := DomainIndex.normal t
  match line.kind with
  | .domain d => host ≠ [] && DomainIndex.normal d == host
  | .domainSuffix d =>
    host ≠ [] && DomainIndex.normal d ≠ [] && isSuffix host (DomainIndex.normal d)
  | _ => false

/-- The first line the domain index finds: of the names in turn, the first that it holds. -/
def firstNamed (lines : List SetLine) (names : List Str) : Option ℕ :=
  names.findSome? fun t => (lines.take NO_ENTRY).findIdx? (·.names t)

/-! ### The domain index -/

theorem isSuffix_iff {host suffix : Str} :
    isSuffix host suffix = true ↔ host = suffix ∨ ∃ head, host = head ++ '.' :: suffix := by
  unfold isSuffix
  rw [Bool.or_eq_true, beq_iff_eq]
  refine or_congr Iff.rfl ?_
  simp only [Bool.and_eq_true, decide_eq_true_eq, beq_iff_eq, List.isSuffixOf_iff_suffix]
  constructor
  · rintro ⟨⟨hlt, head, rfl⟩, hdot⟩
    have hne : head ≠ [] := by
      rintro rfl
      simp at hlt
    obtain ⟨front, c, rfl⟩ : ∃ front c, head = front ++ [c] :=
      ⟨head.dropLast, head.getLast hne, (List.dropLast_append_getLast hne).symm⟩
    have hpos : (front ++ [c] ++ suffix).length - suffix.length - 1 = front.length := by
      simp only [List.length_append, List.length_singleton]; omega
    have hc : c = '.' := by
      rw [hpos, List.append_assoc, List.getElem?_append_right le_rfl] at hdot
      simpa using hdot
    exact ⟨front, by simp [hc]⟩
  · rintro ⟨head, rfl⟩
    have hpos : (head ++ '.' :: suffix).length - suffix.length - 1 = head.length := by
      simp only [List.length_append, List.length_cons]; omega
    refine ⟨⟨by simp only [List.length_append, List.length_cons]; omega,
      ⟨head ++ ['.'], by simp⟩⟩, ?_⟩
    rw [hpos, List.getElem?_append_right le_rfl]
    simp

namespace SetLine

/-- The item of a line is hit by the names the line names. -/
theorem item_hits {line : SetLine} {i : ℕ} {it : DomainIndex.Item} {t full : Str}
    (hit : line.item i = some it) (hfull : DomainIndex.reverseLabels t = some full) :
    it.Hits full ↔ line.names t = true := by
  obtain ⟨hne, rfl⟩ := DomainIndex.reverseLabels_eq_some.1 hfull
  unfold item at hit
  unfold names DomainIndex.Item.Hits
  dsimp only
  cases hk : line.kind with
  | domain d =>
    simp only [hk] at hit
    obtain ⟨key, hkey, rfl⟩ := Option.map_eq_some_iff.1 hit
    obtain ⟨-, rfl⟩ := DomainIndex.reverseLabels_eq_some.1 hkey
    simp [hne, (Fields.reverseFields_injective '.').eq_iff]
  | domainSuffix d =>
    simp only [hk] at hit
    obtain ⟨key, hkey, rfl⟩ := Option.map_eq_some_iff.1 hit
    obtain ⟨hne', rfl⟩ := DomainIndex.reverseLabels_eq_some.1 hkey
    simp [hne, hne', (Fields.reverseFields_injective '.').eq_iff, isSuffix_iff,
      Fields.reverseFields_mem_prefixes, eq_comm (a := DomainIndex.normal t)]
  | _ => simp [hk] at hit

/-- A line that names something has an item. -/
theorem item_of_names {line : SetLine} {t : Str} (h : line.names t = true) (i : ℕ) :
    ∃ it, line.item i = some it ∧ it.entry = i := by
  unfold names at h
  unfold item
  dsimp only at h
  cases hk : line.kind with
  | domain d =>
    simp only [hk, Bool.and_eq_true, decide_eq_true_eq, beq_iff_eq] at h
    exact ⟨_, by simp only [DomainIndex.reverseLabels_eq_some.2 ⟨h.2 ▸ h.1, rfl⟩]; rfl, rfl⟩
  | domainSuffix d =>
    simp only [hk, Bool.and_eq_true, decide_eq_true_eq] at h
    exact ⟨_, by simp only [DomainIndex.reverseLabels_eq_some.2 ⟨h.1.2, rfl⟩]; rfl, rfl⟩
  | _ => simp [hk] at h

theorem item_entry {line : SetLine} {i : ℕ} {it : DomainIndex.Item} (h : line.item i = some it) :
    it.entry = i := by
  unfold item at h
  split at h
  · obtain ⟨key, -, rfl⟩ := Option.map_eq_some_iff.1 h; rfl
  · obtain ⟨key, -, rfl⟩ := Option.map_eq_some_iff.1 h; rfl
  · cases h

end SetLine

namespace CompiledSet

variable {windows : Bool} {sets : SetLookup} {lines : List SetLine} {set : CompiledSet}

/-- The items of the domain index, by the line each belongs to. -/
theorem mem_items {it : DomainIndex.Item} :
    (it ∈ lines.zipIdx.filterMap fun e => e.1.item e.2) ↔
      ∃ line, lines[it.entry]? = some line ∧ line.item it.entry = some it := by
  rw [List.mem_filterMap]
  constructor
  · rintro ⟨⟨line, i⟩, hmem, hit⟩
    obtain rfl := SetLine.item_entry hit
    exact ⟨line, by simpa [List.mk_mem_zipIdx_iff_getElem?] using hmem, hit⟩
  · rintro ⟨line, hline, hit⟩
    exact ⟨(line, it.entry), by simpa [List.mk_mem_zipIdx_iff_getElem?] using hline, hit⟩

/-- **The domain index finds the first line that names the host.** -/
theorem Of.lookup (h : CompiledSet.Of windows sets lines set) (hlen : lines.length ≤ 2 ^ 32)
    (t : Str) : (set.domains.lookup t).map (·.entry) =
      (lines.take NO_ENTRY).findIdx? (·.names t) := by
  obtain ⟨b, hb, hdomains, -⟩ := h.built
  rw [hdomains, hb.domains]
  generalize hitems : (lines.zipIdx.filterMap fun e => e.1.item e.2) = items
  have hmem : ∀ it, it ∈ items ↔ ∃ line, lines[it.entry]? = some line ∧
      line.item it.entry = some it := fun it => hitems ▸ mem_items
  have hle : ∀ it ∈ items, it.entry ≤ NO_ENTRY := by
    intro it hit
    obtain ⟨line, hline, -⟩ := (hmem it).1 hit
    have := (List.getElem?_eq_some_iff.1 hline).1
    unfold NO_ENTRY
    omega
  cases hl : (DomainIndexBuilder.build items).lookup t with
  | some hit =>
    obtain ⟨full, hfull, hne, ⟨it, hit', hh, hentry, -⟩, hmin⟩ := DomainIndex.lookup_some hle hl
    have hlt : hit.entry < NO_ENTRY := by
      have := hle it hit'
      omega
    obtain ⟨line, hline, hitem⟩ := (hmem it).1 hit'
    rw [hentry] at hline hitem
    symm
    rw [Option.map_some, List.findIdx?_eq_some_iff_getElem]
    obtain ⟨hi, rfl⟩ := List.getElem?_eq_some_iff.1 hline
    refine ⟨by simp [hlt, hi], by simpa using (SetLine.item_hits hitem hfull).1 hh, ?_⟩
    intro j hj hnames
    rw [List.getElem_take] at hnames
    obtain ⟨it', hitem', hentry'⟩ := SetLine.item_of_names hnames j
    have hmem' : it' ∈ items := (hmem it').2 ⟨lines[j], by
      rw [hentry']; exact List.getElem?_eq_getElem (by omega), by rw [hentry']; exact hitem'⟩
    have := hmin it' hmem' ((SetLine.item_hits hitem' hfull).2 hnames) (by omega)
    omega
  | none =>
    symm
    rw [Option.map_none, List.findIdx?_eq_none_iff]
    intro line hline
    obtain ⟨j, hj, rfl⟩ := List.mem_iff_getElem.1 hline
    rw [List.getElem_take]
    by_contra hnames
    rw [Bool.not_eq_false] at hnames
    cases hfull : DomainIndex.reverseLabels t with
    | none =>
      rw [DomainIndex.reverseLabels_eq_none] at hfull
      simp only [SetLine.names, hfull] at hnames
      split at hnames <;> simp at hnames
    | some full =>
      rw [List.length_take] at hj
      obtain ⟨it, hitem, hentry⟩ := SetLine.item_of_names hnames j
      have hmem' : it ∈ items := (hmem it).2 ⟨lines[j], by
        rw [hentry]; exact List.getElem?_eq_getElem (by omega), by rw [hentry]; exact hitem⟩
      have := DomainIndex.lookup_none hle hl hfull it hmem'
        ((SetLine.item_hits hitem hfull).2 hnames)
      omega

/-- **What the domain index says of a session.** -/
theorem Of.domainHit (h : CompiledSet.Of windows sets lines set) (hlen : lines.length ≤ 2 ^ 32)
    (s : SessionInfo) (extended : Bool) : (set.domainHit s extended).map (·.entry) =
      firstNamed lines (domainTargets s (extended || lines.any (·.flagsExtended))) := by
  have hfind : ((set.targets s extended).findSome? set.domains.lookup).map (·.entry) =
      firstNamed lines (set.targets s extended) := by
    unfold firstNamed
    induction set.targets s extended with
    | nil => rfl
    | cons t ts ih =>
      rw [List.findSome?_cons, List.findSome?_cons, ← h.lookup hlen]
      cases set.domains.lookup t with
      | some hit => rfl
      | none => exact ih
  rw [← h.extended]
  rw [← show set.targets s extended = domainTargets s (extended || set.extended) from rfl, ← hfind]
  unfold CompiledSet.domainHit
  split_ifs with hempty
  · have hnone : (set.targets s extended).findSome? set.domains.lookup = none :=
      List.findSome?_eq_none_iff.2 fun t _ => DomainIndex.lookup_of_isEmpty hempty t
    rw [hnone]
  · rfl

/-! ### The parts beside the domain index -/

/-- The parts `ps` answer for the lines of a group, of which `V` says the verdicts: a part that
matches gives the number of such a line, and when none does the parts wait for what the lines wait
for. -/
structure AnswersFor (V : SetLine → Verdict) (lines : List SetLine) (group : SetLine → Prop)
    (ps : List Part) : Prop where
  hit : ∀ i, .inl i ∈ ps → ∃ line, lines[i]? = some line ∧ group line ∧ V line = .matched
  settled : .inr .matched ∉ ps
  miss : (∀ i, .inl i ∉ ps) → ∀ v, v ≠ .noMatch →
    (.inr v ∈ ps ↔ ∃ line ∈ lines, group line ∧ V line = v)

variable {V : SetLine → Verdict} {group group' : SetLine → Prop} {ps ps' : List Part}

theorem AnswersFor.append (h : AnswersFor V lines group ps) (h' : AnswersFor V lines group' ps') :
    AnswersFor V lines (fun line => group line ∨ group' line) (ps ++ ps') := by
  constructor
  · intro i hi
    rcases List.mem_append.1 hi with hi | hi
    · obtain ⟨line, hline, hg, hv⟩ := h.hit i hi
      exact ⟨line, hline, Or.inl hg, hv⟩
    · obtain ⟨line, hline, hg, hv⟩ := h'.hit i hi
      exact ⟨line, hline, Or.inr hg, hv⟩
  · rw [List.mem_append, not_or]
    exact ⟨h.settled, h'.settled⟩
  · intro hno v hv
    rw [List.mem_append, h.miss (fun i hi => hno i (List.mem_append_left _ hi)) v hv,
      h'.miss (fun i hi => hno i (List.mem_append_right _ hi)) v hv]
    constructor
    · rintro (⟨line, hline, hg, hv⟩ | ⟨line, hline, hg, hv⟩)
      · exact ⟨line, hline, Or.inl hg, hv⟩
      · exact ⟨line, hline, Or.inr hg, hv⟩
    · rintro ⟨line, hline, hg | hg, hv⟩
      · exact Or.inl ⟨line, hline, hg, hv⟩
      · exact Or.inr ⟨line, hline, hg, hv⟩

theorem AnswersFor.congr (h : AnswersFor V lines group ps) (hg : ∀ line, group line ↔ group' line) :
    AnswersFor V lines group' ps := by
  obtain rfl : group = group' := funext fun line => propext (hg line)
  exact h

/-- One part, for lines that all say `v` or miss. -/
theorem AnswersFor.single {v : Verdict} (hv : v ≠ .matched)
    (h : ∀ line ∈ lines, group line → V line = v ∨ V line = .noMatch)
    (hsome : v ≠ .noMatch → ∃ line ∈ lines, group line ∧ V line = v) :
    AnswersFor V lines group [.inr v] := by
  constructor
  · simp
  · simpa using hv.symm
  · intro _ w hw
    simp only [List.mem_singleton, Sum.inr.injEq]
    constructor
    · rintro rfl
      exact hsome hw
    · rintro ⟨line, hline, hg, hl⟩
      rcases h line hline hg with hl' | hl'
      · exact hl.symm.trans hl'
      · exact absurd (hl.symm.trans hl') hw

/-- One part that is a line of the group. -/
theorem AnswersFor.found {i : ℕ} {line : SetLine} (hline : lines[i]? = some line) (hg : group line)
    (hv : V line = .matched) : AnswersFor V lines group [.inl i] := by
  constructor
  · intro j hj
    obtain rfl : j = i := by simpa using hj
    exact ⟨line, hline, hg, hv⟩
  · simp
  · intro hno
    exact absurd (List.mem_singleton_self _) (hno i)

/-- **What parts that answer for a group make of the set.** -/
theorem AnswersFor.ofParts [DecidablePred group] (h : AnswersFor V lines group ps)
    (hentries : set.entries = lines.map (·.entry)) :
    (set.ofParts ps).verdict = .any ((lines.filter group).map V) ∧
      ((set.ofParts ps).verdict = .matched → ∃ line ∈ lines,
        (set.ofParts ps).entry = some line.entry ∧ V line = .matched) := by
  unfold CompiledSet.ofParts
  cases hfind : ps.findSome? Sum.getLeft? with
  | some i =>
    obtain ⟨p, hp, hpi⟩ := List.exists_of_findSome?_eq_some hfind
    obtain rfl : p = .inl i := by
      cases p with
      | inl j => exact congrArg Sum.inl (Option.some.inj hpi)
      | inr v => cases hpi
    obtain ⟨line, hline, hg, hv⟩ := h.hit i hp
    have hmem := List.mem_of_getElem? hline
    have hentry : set.entry i = line.entry := by simp [CompiledSet.entry, hentries, hline]
    refine ⟨?_, fun _ => ⟨line, hmem, by simp [CompiledSet.hit, hentry], hv⟩⟩
    symm
    rw [show (set.hit i).verdict = .matched from rfl, Verdict.any_eq_matched, List.mem_map]
    exact ⟨line, List.mem_filter.2 ⟨hmem, by simpa using hg⟩, hv⟩
  | none =>
    have hno : ∀ i, .inl i ∉ ps := fun i hi => by
      simpa using List.findSome?_eq_none_iff.1 hfind _ hi
    have hrights : ∀ v, v ∈ ps.filterMap Sum.getRight? ↔ .inr v ∈ ps := by
      intro v
      rw [List.mem_filterMap]
      constructor
      · rintro ⟨p, hp, hpv⟩
        cases p with
        | inl i => cases hpv
        | inr w => exact Option.some.inj hpv ▸ hp
      · exact fun hv => ⟨_, hv, rfl⟩
    have hany : (stillNeeds (Needs.of (ps.filterMap Sum.getRight?))).getD .noMatch =
        .any (ps.filterMap Sum.getRight?) := by
      rw [Verdict.any, if_neg (fun hm => h.settled ((hrights _).1 hm))]
    have hcongr : Verdict.any (ps.filterMap Sum.getRight?) =
        .any ((lines.filter group).map V) := by
      refine Verdict.any_congr fun v hv => ?_
      rw [hrights, h.miss hno v hv]
      simp [and_assoc]
    refine ⟨hany.trans hcongr, fun hm => ?_⟩
    rw [show (⟨(stillNeeds (Needs.of (ps.filterMap Sum.getRight?))).getD .noMatch, none⟩ :
      SetVerdict).verdict = _ from rfl, hany, Verdict.any_eq_matched] at hm
    exact absurd ((hrights _).1 hm) h.settled

end CompiledSet

/-! ### Addresses -/

namespace SetLine

variable (env : Env) (sets : SetLookup) (setExtended : Bool) (s : SessionInfo) (k : Knowledge)
  (noResolve extended : Bool)

theorem verdict_ipCidr {line : SetLine} {net : Ipv4Net} (h : line.kind = .ipCidr net) :
    line.verdict env sets setExtended s k noResolve extended =
      onTarget s k (noResolve || line.noResolve) .v4 (IpNetAny.v4 net).contains := by
  simp [verdict, h, Matcher.compile, Matcher.verdict, Matcher.verdictWith,
    Matcher.needsTheConnection]

theorem verdict_ipCidr6 {line : SetLine} {net : Ipv6Net} (h : line.kind = .ipCidr6 net) :
    line.verdict env sets setExtended s k noResolve extended =
      onTarget s k (noResolve || line.noResolve) .v6 (IpNetAny.v6 net).contains := by
  simp [verdict, h, Matcher.compile, Matcher.verdict, Matcher.verdictWith,
    Matcher.needsTheConnection]

theorem verdict_ipAsn {line : SetLine} {asn : ℕ} (h : line.kind = .ipAsn asn) :
    line.verdict env sets setExtended s k noResolve extended =
      onTarget s k (noResolve || line.noResolve) .any (k.geo.asn · == .known asn) := by
  simp [verdict, h, Matcher.compile, Matcher.verdict, Matcher.verdictWith,
    Matcher.needsTheConnection]

theorem isIp_iff {line : SetLine} : line.isIp = true ↔
    (∃ net, line.kind = .ipCidr net) ∨ ∃ net, line.kind = .ipCidr6 net := by
  unfold isIp
  cases line.kind <;> simp

theorem isAsn_iff {line : SetLine} : line.isAsn = true ↔ ∃ asn, line.kind = .ipAsn asn := by
  unfold isAsn
  cases line.kind <;> simp

/-- An address line says what every address line says that finds no address to test. -/
theorem verdict_of_error {line : SetLine} {v : Verdict}
    (hline : line.isIp = true ∨ line.isAsn = true)
    (h : ∀ family, targetIp s k (noResolve || line.noResolve) family = .error v) :
    line.verdict env sets setExtended s k noResolve extended = v := by
  rw [isIp_iff, isAsn_iff] at hline
  rcases hline with (⟨net, hk⟩ | ⟨net, hk⟩) | ⟨asn, hk⟩
  · simp [verdict_ipCidr _ _ _ _ _ _ _ hk, onTarget, h]
  · simp [verdict_ipCidr6 _ _ _ _ _ _ _ hk, onTarget, h]
  · simp [verdict_ipAsn _ _ _ _ _ _ _ hk, onTarget, h]

/-- A plain line is decided. -/
theorem verdict_isPlain {line : SetLine} (h : line.isPlain = true) :
    line.verdict env sets setExtended s k noResolve extended = .matched ∨
      line.verdict env sets setExtended s k noResolve extended = .noMatch := by
  unfold isPlain at h
  cases hk : line.kind with
  | domain d =>
    simp only [verdict, hk, Matcher.compile, Matcher.verdict, Matcher.verdictWith,
      Matcher.needsTheConnection, Bool.and_false, Bool.false_eq_true, if_false]
    exact Verdict.ofBool_decided _
  | domainSuffix d =>
    simp only [verdict, hk, Matcher.compile, Matcher.verdict, Matcher.verdictWith,
      Matcher.needsTheConnection, Bool.and_false, Bool.false_eq_true, if_false]
    exact Verdict.ofBool_decided _
  | _ => simp [hk] at h

end SetLine

namespace CompiledSet

section

variable {env : Env} {sets : SetLookup} {lines : List SetLine} {set : CompiledSet}
  (h : CompiledSet.Of env.windows sets lines set) (s : SessionInfo) (k : Knowledge)
  (noResolve extended : Bool)

include h

/-- The parts of the linear lines are the verdicts of those lines. -/
theorem Of.mem_linearParts (p : ℕ ⊕ Verdict) :
    p ∈ linearParts env.windows (env.meaning k.depthLeft) s k noResolve extended set.linear ↔
      ∃ (i : ℕ) (line : SetLine), lines[i]? = some line ∧
        (line.isPlain || line.isIp || line.isAsn) = false ∧
        p = match line.verdict env sets set.extended s k noResolve extended with
          | .matched => .inl i
          | v => .inr v := by
  obtain ⟨b, hb, -, -, -, -, -, hlinear, -⟩ := h.built
  rw [linearParts, hlinear, hb.linear]
  simp only [List.mem_map, List.mem_filterMap, Prod.exists, SetLine.linear,
    List.mk_mem_zipIdx_iff_getElem?, Option.ite_none_left_eq_some, Bool.not_eq_true]
  constructor
  · rintro ⟨i, rule, ⟨line, j, hline, hg, heq⟩, rfl⟩
    cases heq
    exact ⟨i, line, hline, hg, rfl⟩
  · rintro ⟨i, line, hline, hg, rfl⟩
    exact ⟨i, _, ⟨line, i, hline, hg, rfl⟩, rfl⟩

/-- **The linear lines answer for themselves.** -/
theorem Of.linear : AnswersFor
    (fun line => line.verdict env sets set.extended s k noResolve extended) lines
    (fun line => (line.isPlain || line.isIp || line.isAsn) = false)
    (linearParts env.windows (env.meaning k.depthLeft) s k noResolve extended set.linear) := by
  have hmem := h.mem_linearParts s k noResolve extended
  constructor
  · intro i hi
    obtain ⟨j, line, hline, hg, hp⟩ := (hmem _).1 hi
    split at hp
    · rename_i hv
      cases hp
      exact ⟨line, hline, hg, hv⟩
    · cases hp
  · intro hm
    obtain ⟨j, line, hline, hg, hp⟩ := (hmem _).1 hm
    split at hp
    · cases hp
    · rename_i hv
      exact hv (Sum.inr.inj hp).symm
  · intro hno v hv
    rw [hmem]
    constructor
    · rintro ⟨j, line, hline, hg, hp⟩
      split at hp
      · cases hp
      · exact ⟨line, List.mem_of_getElem? hline, hg, (Sum.inr.inj hp).symm⟩
    · rintro ⟨line, hline, hg, rfl⟩
      obtain ⟨i, hi, rfl⟩ := List.mem_iff_getElem.1 hline
      refine ⟨i, lines[i], List.getElem?_eq_getElem hi, hg, ?_⟩
      split
      · rename_i hm
        exact absurd ((hmem (.inl i)).2 ⟨i, _, List.getElem?_eq_getElem hi, hg, by simp [hm]⟩)
          (hno i)
      · rfl

omit h in
/-- Lines that wait for the addresses of a name: the set asks for them when one of the lines
may. -/
theorem answersFor_resolve (g : SetLine → Bool)
    (hg : ∀ line, g line = true → line.isIp = true ∨ line.isAsn = true)
    (hwait : ∀ noResolve family, targetIp s k noResolve family =
      .error (if noResolve then .noMatch else .needsResolve)) :
    AnswersFor (fun line => line.verdict env sets set.extended s k noResolve extended) lines
      (fun line => g line = true)
      [.inr (if noResolve || !lines.any fun line => g line && !line.noResolve then .noMatch
        else .needsResolve)] := by
  have hverdict : ∀ line, g line = true →
      line.verdict env sets set.extended s k noResolve extended =
        if noResolve || line.noResolve then .noMatch else .needsResolve :=
    fun line hl => SetLine.verdict_of_error _ _ _ _ _ _ _ (hg line hl) (hwait _)
  apply AnswersFor.single
  · split_ifs <;> simp
  · intro line hline hl
    rw [hverdict line hl]
    by_cases hnr : (noResolve || line.noResolve) = true
    · exact Or.inr (if_pos hnr)
    · left
      rw [Bool.or_eq_true, not_or, Bool.not_eq_true, Bool.not_eq_true] at hnr
      have hany : (lines.any fun line => g line && !line.noResolve) = true :=
        List.any_eq_true.2 ⟨line, hline, by simp [hl, hnr.2]⟩
      simp [hnr.1, hnr.2, hany]
  · intro hne
    have hnot : ¬ (noResolve || !lines.any fun line => g line && !line.noResolve) = true := by
      intro hc
      exact hne (if_pos hc)
    rw [if_neg hnot]
    simp only [Bool.or_eq_true, Bool.not_eq_true', not_or, Bool.not_eq_true,
      Bool.not_eq_false, List.any_eq_true, Bool.and_eq_true] at hnot
    obtain ⟨hnr, line, hline, hl, hlnr⟩ := hnot
    exact ⟨line, hline, hl, by rw [hverdict line hl]; simp [hnr, hlnr]⟩

/-- **The table of AS numbers answers for its lines.** -/
theorem Of.asnPart : AnswersFor
    (fun line => line.verdict env sets set.extended s k noResolve extended) lines
    (fun line => line.isAsn = true) [set.asnPart s k noResolve] := by
  obtain ⟨b, hb, -, -, -, hasns, hresolve, -⟩ := h.built
  unfold CompiledSet.asnPart
  rw [hasns, hresolve, hb.asnsResolve]
  cases hlist : b.asns with
  | nil =>
    refine AnswersFor.single (by simp) (fun line hline hl => ?_) (by simp)
    obtain ⟨asn, hk⟩ := SetLine.isAsn_iff.1 hl
    exact absurd (by simp [hlist]) (hb.asns_complete line hline asn hk)
  | cons e rest =>
    obtain ⟨line, hline, hl⟩ : ∃ line ∈ lines, line.isAsn = true := by
      obtain ⟨asn, i⟩ := e
      obtain ⟨line, hline, hk⟩ := hb.asns_sound asn i (by simp [hlist])
      exact ⟨line, List.mem_of_getElem? hline, SetLine.isAsn_iff.2 ⟨asn, hk⟩⟩
    rw [← hlist, if_neg (by simp [hlist])]
    rcases targetIp_cases s k with hconn | hwait | hfam
    · simp only [hconn]
      have hverdict : ∀ line : SetLine, line.isAsn = true → _ := fun line hl =>
        SetLine.verdict_of_error env sets set.extended s k noResolve extended (Or.inr hl)
          (hconn (noResolve || line.noResolve))
      exact AnswersFor.single (by simp) (fun line _ hl => Or.inl (hverdict line hl))
        (fun _ => ⟨line, hline, hl, hverdict line hl⟩)
    · simp only [hwait]
      exact answersFor_resolve s k noResolve extended SetLine.isAsn (fun _ => Or.inr) hwait
    · rcases hfam .any with ⟨ip, -, hok⟩ | herr
      · simp only [hok]
        have hverdict : ∀ (line : SetLine) (asn : ℕ), line.kind = .ipAsn asn →
            line.verdict env sets set.extended s k noResolve extended =
              .ofBool (k.geo.asn ip == .known asn) := by
          intro line asn hk
          rw [SetLine.verdict_ipAsn _ _ _ _ _ _ _ hk, onTarget, hok]
        have hmiss : (∀ asn, k.geo.asn ip = .known asn → b.asns.lookup asn = none) →
            AnswersFor (fun line => line.verdict env sets set.extended s k noResolve extended)
              lines (fun line => line.isAsn = true) [.inr .noMatch] := by
          refine fun hno => AnswersFor.single (by simp) (fun line hline hl => ?_) (by simp)
          obtain ⟨asn, hk⟩ := SetLine.isAsn_iff.1 hl
          rw [hverdict line asn hk]
          refine Or.inl (Verdict.ofBool_eq_noMatch.2 ?_)
          simp only [beq_eq_false_iff_ne, ne_eq]
          exact fun hasn => hb.asns_complete line hline asn hk (hno asn hasn)
        cases hgeo : k.geo.asn ip with
        | notLoaded => exact hmiss (by simp [hgeo])
        | unknown => exact hmiss (by simp [hgeo])
        | known asn =>
          dsimp only
          cases hlook : b.asns.lookup asn with
          | none =>
            refine hmiss fun asn' hasn' => ?_
            rw [hgeo] at hasn'
            cases hasn'
            exact hlook
          | some i =>
            obtain ⟨line, hline, hk⟩ := hb.asns_sound asn i hlook
            exact AnswersFor.found hline (SetLine.isAsn_iff.2 ⟨asn, hk⟩)
              (by simp [hverdict line asn hk, hgeo])
      · simp only [herr]
        exact AnswersFor.single (by simp) (fun line _ hl => by
          obtain ⟨asn, hk⟩ := SetLine.isAsn_iff.1 hl
          rw [SetLine.verdict_ipAsn _ _ _ _ _ _ _ hk, onTarget, herr]
          exact Or.inl rfl) (by simp)

omit h in
/-- One family of the address index, when the rules of that family have an address to test or
none. -/
theorem answersFor_family (lines : List SetLine) (set : CompiledSet) (found : IpAddr → Option ℕ)
    {w : ℕ} {family : Family} {kind : IpNet w → RuleKind} {any : IpNet w → IpNetAny}
    {added : List (IpNet w × ℕ)}
    (hfam : (∃ ip, family.admits ip = true ∧ ∀ noResolve, targetIp s k noResolve family = .ok ip) ∨
      ∀ noResolve, targetIp s k noResolve family = .error .noMatch)
    (hverdict : ∀ (line : SetLine) net, line.kind = kind net →
      line.verdict env sets set.extended s k noResolve extended =
        onTarget s k (noResolve || line.noResolve) family (any net).contains)
    (hadded : ∀ net i, (net, i) ∈ added ↔ ∃ line, lines[i]? = some line ∧ line.kind = kind net)
    (hfound : ∀ ip, family.admits ip = true →
      (∀ i, found ip = some i → ∃ net, (net, i) ∈ added ∧ (any net).contains ip = true) ∧
        (found ip = none → ∀ net i, (net, i) ∈ added → (any net).contains ip = false))
    (flag : Bool) :
    AnswersFor (fun line => line.verdict env sets set.extended s k noResolve extended) lines
      (fun line => ∃ net, line.kind = kind net)
      [match targetIp s k flag family with
        | .ok ip => match found ip with
          | some i => .inl i
          | none => .inr .noMatch
        | .error v => .inr v] := by
  rcases hfam with ⟨ip, hadm, hok⟩ | herr
  · rw [hok]
    obtain ⟨hsome, hnone⟩ := hfound ip hadm
    dsimp only
    cases hf : found ip with
    | some i =>
      obtain ⟨net, hmem, hc⟩ := hsome i hf
      obtain ⟨line, hline, hk⟩ := (hadded net i).1 hmem
      exact AnswersFor.found hline ⟨net, hk⟩
        (by rw [hverdict line net hk, onTarget, hok]; simp [hc])
    | none =>
      refine AnswersFor.single (by simp) (fun line hline ⟨net, hk⟩ => ?_) (by simp)
      obtain ⟨i, hi, rfl⟩ := List.mem_iff_getElem.1 hline
      have hc := hnone hf net i ((hadded net i).2 ⟨_, List.getElem?_eq_getElem hi, hk⟩)
      rw [hverdict _ net hk, onTarget, hok]
      exact Or.inl (Verdict.ofBool_eq_noMatch.2 hc)
  · rw [herr]
    refine AnswersFor.single (by simp) (fun line _ ⟨net, hk⟩ => ?_) (by simp)
    rw [hverdict line net hk, onTarget, herr]
    exact Or.inl rfl

omit h in
theorem AnswersFor.double {V : SetLine → Verdict} {group : SetLine → Prop} {p : Part}
    (h : AnswersFor V lines group [p]) : AnswersFor V lines group [p, p] := by
  have := h.append h
  exact this.congr fun line => or_self_iff

/-- **The address index answers for its lines.** -/
theorem Of.ipParts : AnswersFor
    (fun line => line.verdict env sets set.extended s k noResolve extended) lines
    (fun line => line.isIp = true)
    [set.ipPart s k noResolve .v4, set.ipPart s k noResolve .v6] := by
  obtain ⟨b, hb, -, hips, hresolve, -⟩ := h.built
  have hnets4 : ∀ net i, (net, i) ∈ (lines.zipIdx.filterMap fun e => e.1.net4 e.2) ↔
      ∃ line, lines[i]? = some line ∧ line.kind = .ipCidr net := by
    intro net i
    simp only [List.mem_filterMap, Prod.exists, List.mk_mem_zipIdx_iff_getElem?, SetLine.net4]
    constructor
    · rintro ⟨line, j, hline, heq⟩
      split at heq <;> cases heq
      exact ⟨line, hline, ‹_›⟩
    · rintro ⟨line, hline, hk⟩
      exact ⟨line, i, hline, by simp [hk]⟩
  have hnets6 : ∀ net i, (net, i) ∈ (lines.zipIdx.filterMap fun e => e.1.net6 e.2) ↔
      ∃ line, lines[i]? = some line ∧ line.kind = .ipCidr6 net := by
    intro net i
    simp only [List.mem_filterMap, Prod.exists, List.mk_mem_zipIdx_iff_getElem?, SetLine.net6]
    constructor
    · rintro ⟨line, j, hline, heq⟩
      split at heq <;> cases heq
      exact ⟨line, hline, ‹_›⟩
    · rintro ⟨line, hline, hk⟩
      exact ⟨line, i, hline, by simp [hk]⟩
  have hempty : b.ips.isEmpty = true ↔ ∀ line ∈ lines, ¬ line.isIp = true := by
    rw [IpIndex.isEmpty, beq_iff_eq, hb.ips.len]
    simp only [List.eq_nil_iff_forall_not_mem, Prod.forall, hnets4, hnets6, SetLine.isIp_iff,
      not_exists, not_and, not_or]
    constructor
    · rintro ⟨h4, h6⟩ line hline
      obtain ⟨i, hi, rfl⟩ := List.mem_iff_getElem.1 hline
      exact ⟨fun net => h4 net i _ (List.getElem?_eq_getElem hi),
        fun net => h6 net i _ (List.getElem?_eq_getElem hi)⟩
    · intro hno
      exact ⟨fun net i line hline => (hno line (List.mem_of_getElem? hline)).1 net,
        fun net i line hline => (hno line (List.mem_of_getElem? hline)).2 net⟩
  unfold CompiledSet.ipPart
  rw [hips, hresolve, hb.ipsResolve]
  by_cases hne : b.ips.isEmpty = true
  · simp only [hne, if_true]
    refine (AnswersFor.single (by simp) (fun line hline hl => ?_) (by simp)).double
    exact absurd hl (hempty.1 hne line hline)
  · obtain ⟨line, hline, hl⟩ : ∃ line ∈ lines, line.isIp = true := by
      simpa using mt hempty.2 hne
    simp only [hne]
    rcases targetIp_cases s k with hconn | hwait | hfam
    · simp only [hconn]
      have hverdict : ∀ line : SetLine, line.isIp = true → _ := fun line hl =>
        SetLine.verdict_of_error env sets set.extended s k noResolve extended (Or.inl hl)
          (hconn (noResolve || line.noResolve))
      exact (AnswersFor.single (by simp) (fun line _ hl => Or.inl (hverdict line hl))
        (fun _ => ⟨line, hline, hl, hverdict line hl⟩)).double
    · simp only [hwait]
      exact (answersFor_resolve s k noResolve extended SetLine.isIp (fun _ => Or.inl) hwait).double
    · have h4 := answersFor_family s k noResolve extended lines set b.ips.lookup (hfam .v4)
        (fun line net hk => SetLine.verdict_ipCidr env sets set.extended s k noResolve extended hk)
        hnets4 (fun ip hadm => by
          cases ip with
          | v4 a => exact hb.ips.inV4.lookup a
          | v6 a => cases hadm) (noResolve || !lines.any fun line => line.isIp && !line.noResolve)
      have h6 := answersFor_family s k noResolve extended lines set b.ips.lookup (hfam .v6)
        (fun line net hk => SetLine.verdict_ipCidr6 env sets set.extended s k noResolve extended hk)
        hnets6 (fun ip hadm => by
          cases ip with
          | v4 a => cases hadm
          | v6 a => exact hb.ips.inV6.lookup a)
          (noResolve || !lines.any fun line => line.isIp && !line.noResolve)
      exact (h4.append h6).congr fun line => SetLine.isIp_iff.symm

/-- **Every part beside the domain index answers for its lines.** -/
theorem Of.parts : AnswersFor
    (fun line => line.verdict env sets set.extended s k noResolve extended) lines
    (fun line => line.isPlain = false)
    (parts env.windows (env.meaning k.depthLeft) set s k noResolve extended) := by
  have := ((h.linear s k noResolve extended).append (h.asnPart s k noResolve extended)).append
    (h.ipParts s k noResolve extended)
  rw [List.append_assoc] at this
  refine this.congr fun line => ?_
  unfold SetLine.isPlain SetLine.isIp SetLine.isAsn
  cases line.kind <;> simp

end

/-! ### The set and its lines -/

/-- The set built of `lines` gives the verdict of the lines evaluated one by one, and a set that
matches names a line that matches on its own. -/
def AgreesWithLines (env : Env) (name : Str) (kind : SetKind) (lines : List SetLine)
    (sets : SetLookup) (version : ℕ) (s : SessionInfo) (ctx : EvalCtx)
    (noResolve extended : Bool) : Prop :=
  ∃ set, compile env.windows name kind lines sets version = some set ∧
    let alone (line : SetLine) :=
      line.evalAlone env sets (lines.any (·.flagsExtended)) s ctx noResolve extended
    let r := (set.eval env s ctx noResolve extended).1
    r.verdict = .any (lines.map alone) ∧
      (r.verdict = .matched → ∃ line ∈ lines, r.entry = some line.entry ∧ alone line = .matched)

/-- The plain lines can be read with the blanks and dots off: a line that the domain index finds
has the text of a line that matches as it is written, and when it finds none, no plain line matches
as it is written unless a line of another kind matches too. -/
def ReadsAsWritten (env : Env) (lines : List SetLine) (sets : SetLookup) (s : SessionInfo)
    (ctx : EvalCtx) (noResolve extended : Bool) : Prop :=
  let setExtended := lines.any (·.flagsExtended)
  let matchesAlone (line : SetLine) :=
    line.evalAlone env sets setExtended s ctx noResolve extended = .matched
  match firstNamed lines (domainTargets s (extended || setExtended)) with
  | some i => ∃ line ∈ lines, (lines[i]?).map (·.entry) = some line.entry ∧ matchesAlone line
  | none => (∃ line ∈ lines, line.isPlain = true ∧ matchesAlone line) →
      ∃ line ∈ lines, line.isPlain = false ∧ matchesAlone line

/-- A name that a line names is in a set that matches. -/
theorem firstNamed_lt {lines : List SetLine} {names : List Str} {i : ℕ}
    (h : firstNamed lines names = some i) : i < lines.length := by
  obtain ⟨t, -, ht⟩ := List.exists_of_findSome?_eq_some h
  obtain ⟨hi, -⟩ := List.findIdx?_eq_some_iff_getElem.1 ht
  simp only [List.length_take] at hi
  omega

/-- **A compiled set agrees with its lines exactly when its plain lines read as they are
written**, and there are no more lines than a `u32` counts. -/
theorem agreesWithLines_iff (env : Env) (name : Str) (kind : SetKind) (lines : List SetLine)
    (sets : SetLookup) (version : ℕ) (s : SessionInfo) (ctx : EvalCtx)
    (noResolve extended : Bool) :
    AgreesWithLines env name kind lines sets version s ctx noResolve extended ↔
      lines.length ≤ 2 ^ 32 ∧ ReadsAsWritten env lines sets s ctx noResolve extended := by
  by_cases hlen : lines.length ≤ 2 ^ 32
  swap
  · refine iff_of_false ?_ (fun h => hlen h.1)
    rintro ⟨set, hset, -⟩
    exact hlen (compile_isSome.1 (by rw [hset]; rfl))
  have hsome : (compile env.windows name kind lines sets version).isSome = true :=
    compile_isSome.2 hlen
  obtain ⟨set, hset⟩ := Option.isSome_iff_exists.1 hsome
  have hof := compile_of hset
  have hentries : set.entries = lines.map (·.entry) := by
    obtain ⟨b, hb, -, -, -, -, -, -, hentries⟩ := hof.built
    rw [hentries, hb.entries]
  have hmain : AgreesWithLines env name kind lines sets version s ctx noResolve extended ↔
      (let alone (line : SetLine) :=
        line.verdict env sets set.extended s ctx.toKnowledge noResolve extended
      let r := set.verdict env s ctx.toKnowledge noResolve extended
      r.verdict = .any (lines.map alone) ∧
        (r.verdict = .matched → ∃ line ∈ lines, r.entry = some line.entry ∧
          alone line = .matched)) := by
    unfold AgreesWithLines
    simp only [SetLine.evalAlone_eq, hset, Option.some.injEq, exists_eq_left', eval_verdict,
      ← hof.extended]
  rw [hmain]
  simp only [hlen, true_and]
  unfold ReadsAsWritten
  simp only [SetLine.evalAlone_eq, ← hof.extended]
  have hindex := hof.domainHit hlen s extended
  rw [← hof.extended] at hindex
  rw [← hindex, verdict_eq]
  cases hhit : set.domainHit s extended with
  | some hit =>
    have hi : hit.entry < lines.length :=
      firstNamed_lt (hindex.symm.trans (by rw [hhit]; rfl))
    simp only [Option.map_some]
    have hentry : some (set.entry hit.entry) = (lines[hit.entry]?).map (·.entry) := by
      simp [CompiledSet.entry, hentries, hi]
    rw [← hentry]
    simp only [CompiledSet.hit, forall_const]
    constructor
    · rintro ⟨-, line, hline, he, hv⟩
      exact ⟨line, hline, he, hv⟩
    · rintro ⟨line, hline, he, hv⟩
      refine ⟨?_, line, hline, he, hv⟩
      exact (Verdict.any_eq_matched.2 (List.mem_map.2 ⟨line, hline, hv⟩)).symm
  | none =>
    simp only [Option.map_none]
    obtain ⟨hv, he⟩ := (hof.parts s ctx.toKnowledge noResolve extended).ofParts hentries
    have hplain : ∀ line : SetLine, line.isPlain = true → _ := fun line =>
      SetLine.verdict_isPlain env sets set.extended s ctx.toKnowledge noResolve extended
    constructor
    · rintro ⟨hsame, -⟩ ⟨line, hline, -, hm⟩
      rw [hv] at hsame
      have := Verdict.any_eq_matched.1
        (hsame.trans (Verdict.any_eq_matched.2 (List.mem_map.2 ⟨line, hline, hm⟩)))
      obtain ⟨line', hline', hm'⟩ := List.mem_map.1 this
      obtain ⟨hline', hp⟩ := List.mem_filter.1 hline'
      exact ⟨line', hline', by simpa using hp, hm'⟩
    · intro hcover
      refine ⟨hv.trans (Verdict.any_congr fun v hne => ?_), he⟩
      simp only [List.mem_map, List.mem_filter, decide_eq_true_eq]
      constructor
      · rintro ⟨line, ⟨hline, -⟩, rfl⟩
        exact ⟨line, hline, rfl⟩
      · rintro ⟨line, hline, rfl⟩
        cases hp : line.isPlain with
        | false => exact ⟨line, ⟨hline, hp⟩, rfl⟩
        | true =>
          rcases hplain line hp with hm | hm
          · obtain ⟨line', hline', hp', hm'⟩ := hcover ⟨line, hline, hp, hm⟩
            exact ⟨line', ⟨hline', hp'⟩, hm'.trans hm.symm⟩
          · exact absurd hm hne

/-- The line `DOMAIN,.example.com`. -/
def dottedLine : SetLine :=
  .rule (.mk (.domain ".example.com".toList) false false "DOMAIN,.example.com".toList)

/-- **A set of the one line `DOMAIN,.example.com` matches `example.com`, which the line on its own
does not.** -/
theorem dottedLine_disagrees :
    (SessionInfo.ofTcp (.domain "example.com".toList) 443).dstHost.IsDocumented ∧
      ¬ AgreesWithLines noSets "s".toList .ruleSet [dottedLine] (fun _ _ => 0) 0
        (.ofTcp (.domain "example.com".toList) 443)
        (.withNetwork noGeo ⟨none, none⟩ false) false false := by
  refine ⟨by decide, ?_⟩
  rintro ⟨set, hset, hsame, -⟩
  have hmatch : (compile noSets.windows "s".toList .ruleSet [dottedLine] (fun _ _ => 0) 0).map
      (fun set => (set.eval noSets (.ofTcp (.domain "example.com".toList) 443)
        (.withNetwork noGeo ⟨none, none⟩ false) false false).1.verdict) = some .matched := by
    decide +kernel
  rw [hset, Option.map_some, Option.some.injEq] at hmatch
  rw [hmatch] at hsame
  revert hsame
  decide +kernel

end CompiledSet

end Rurge
