import Rurge.Policy.TestBook

/-!
# Every run of the test book

The table of running tests holds, of each policy that has one, the run started last, and a run is in
the table from its start to its end unless a later run of its policy took its place.  From this
follows which runs store their result, and that the result the book has of a policy is that of the
last run that stored one.
-/

namespace Rurge

namespace TestBook

/-- The run is over or about to be: its result is known. -/
def Phase.known : Phase → Bool
  | .Told _ _ | .Sent _ _ => true
  | _ => false

/-- The run's task is in the middle of measuring, or was when it died. -/
def Phase.measured : Phase → Bool
  | .Measuring | .Died => false
  | _ => true

namespace World

/-- A run of `policy` was started after run `r`. -/
def Replaced (w : World) (r : ℕ) (policy : Str) : Prop :=
  ∃ r' run, r < r' ∧ w.runs[r']? = some run ∧ run.policy = policy

/-- What holds of the book whatever happened before. -/
structure Ok (w : World) : Prop where
  /-- The table has the last run of a policy, with its key. -/
  running : ∀ {p : Str} {k : UInt64} {r : ℕ}, w.running.lookup p = some (k, r) →
    ∃ phase : Phase, w.runs[r]? = some ⟨p, k, phase⟩ ∧ phase.measured = false ∧ ¬ w.Replaced r p
  /-- The last run of a policy is in the table while it measures. -/
  measuring : ∀ {r : ℕ} {run : Run}, w.runs[r]? = some run → run.phase = .Measuring →
    ¬ w.Replaced r run.policy → w.running.lookup run.policy = some (run.key, r)
  /-- The result of a policy is that of the last of its runs that stored one. -/
  results : ∀ {p : Str} {e : UInt64 × TestResult}, w.results.lookup p = some e →
    ∃ (r : ℕ) (run : Run), w.runs[r]? = some run ∧ run.policy = p ∧ run.key = e.1 ∧
      run.stored = some e.2 ∧ ∀ (r' : ℕ) (run' : Run), r < r' → w.runs[r']? = some run' →
        run'.policy = p → run'.stored = none
  /-- A caller waits on a run of its policy and key, and was told what became of it. -/
  callers : ∀ {caller : Caller}, caller ∈ w.callers →
    ∃ run : Run, w.runs[caller.run]? = some run ∧ run.policy = caller.policy ∧
      run.key = caller.key ∧ ∀ a, caller.answer = some a → (∃ kept, run.phase = .Sent a kept) ∨
        run.phase = .Died ∧ a.outcome = .error "the test did not finish".toList
  /-- The sink was told of results that were stored. -/
  told : ∀ {r : ℕ} {result : TestResult}, (r, result) ∈ w.told →
    ∃ run : Run, w.runs[r]? = some run ∧ run.stored = some result ∧ run.phase.known = true
  /-- It was told of each once. -/
  once : (w.told.map Prod.fst).Nodup

/-! ### A phase that changes -/

variable {w : World} {r : ℕ} {run : Run} {phase : Phase}

theorem runs_set_phase (h : w.runs[r]? = some run) (i : ℕ) :
    (w.set_phase r run phase).runs[i]? =
      if i = r then some { run with phase := phase } else w.runs[i]? := by
  have hr : r < w.runs.length := (List.getElem?_eq_some_iff.1 h).1
  simp only [set_phase, List.getElem?_set, hr, if_true]
  grind

theorem replaced_set_phase (h : w.runs[r]? = some run) {i : ℕ} {p : Str} :
    (w.set_phase r run phase).Replaced i p ↔ w.Replaced i p := by
  unfold Replaced
  simp only [runs_set_phase h]
  constructor
  · rintro ⟨r', run', hlt, hrun', hp⟩
    split at hrun'
    case isTrue heq =>
      cases hrun'
      exact ⟨r', run, hlt, heq ▸ h, hp⟩
    case isFalse => exact ⟨r', run', hlt, hrun', hp⟩
  · rintro ⟨r', run', hlt, hrun', hp⟩
    by_cases heq : r' = r
    · subst heq
      rw [h] at hrun'
      cases hrun'
      exact ⟨r', { run with phase := phase }, hlt, if_pos rfl, hp⟩
    · exact ⟨r', run', hlt, (if_neg heq).trans hrun', hp⟩

/-- A phase may change from one that no caller was told of to a later one, the result stored being
the same. -/
theorem Ok.set_phase (h : w.Ok) (hrun : w.runs[r]? = some run)
    (hstored : ({ run with phase := phase } : Run).stored = run.stored) (hover : run.over = false)
    (hphase : phase ≠ .Measuring) (hknown : run.phase.known = true → phase.known = true)
    (htable : ∀ k, w.running.lookup run.policy = some (k, r) → phase.measured = false) :
    (w.set_phase r run phase).Ok where
  running {p k i} hlookup := by
    obtain ⟨old, hold, hmeasured, hlast⟩ := h.running hlookup
    rw [replaced_set_phase hrun, runs_set_phase hrun]
    by_cases hi : i = r
    · subst hi
      obtain rfl : run = ⟨p, k, old⟩ := Option.some_inj.1 (hrun.symm.trans hold)
      exact ⟨phase, if_pos rfl, htable k hlookup, hlast⟩
    · exact ⟨old, (if_neg hi).trans hold, hmeasured, hlast⟩
  measuring {i run'} hrun' hmeasuring hlast := by
    rw [replaced_set_phase hrun] at hlast
    rw [runs_set_phase hrun] at hrun'
    split at hrun'
    case isTrue =>
      cases hrun'
      exact absurd hmeasuring hphase
    case isFalse => exact h.measuring hrun' hmeasuring hlast
  results {p e} hlookup := by
    obtain ⟨i, run', hrun', hp, hk, hres, hlater⟩ := h.results hlookup
    have hstored' : ∀ {j : ℕ} {new : Run}, (w.set_phase r run phase).runs[j]? = some new →
        ∃ old : Run, w.runs[j]? = some old ∧ new.policy = old.policy ∧ new.key = old.key ∧
          new.stored = old.stored := by
      intro j new hnew
      rw [runs_set_phase hrun] at hnew
      split at hnew
      case isTrue heq =>
        cases hnew
        exact ⟨run, heq ▸ hrun, rfl, rfl, hstored⟩
      case isFalse => exact ⟨new, hnew, rfl, rfl, rfl⟩
    obtain ⟨new, hnew⟩ : ∃ new, (w.set_phase r run phase).runs[i]? = some new := by
      rw [runs_set_phase hrun]
      split
      case isTrue => exact ⟨_, rfl⟩
      case isFalse => exact ⟨run', hrun'⟩
    obtain ⟨old, hold, hpolicy, hkey, hsame⟩ := hstored' hnew
    obtain rfl := Option.some_inj.1 (hrun'.symm.trans hold)
    refine ⟨i, new, hnew, hpolicy.trans hp, hkey.trans hk, hsame.trans hres, ?_⟩
    intro j new' hlt hnew' hp'
    obtain ⟨old', hold', hpolicy', -, hsame'⟩ := hstored' hnew'
    exact hsame'.trans (hlater j old' hlt hold' (hpolicy'.symm.trans hp'))
  callers {caller} hmem := by
    obtain ⟨run', hrun', hp, hk, hanswer⟩ := h.callers hmem
    rw [runs_set_phase hrun]
    split
    case isTrue heq =>
      rw [heq, hrun] at hrun'
      cases hrun'
      refine ⟨_, rfl, hp, hk, fun a ha => ?_⟩
      rcases hanswer a ha with ⟨kept, hsent⟩ | ⟨hdied, -⟩
      · simp [Run.over, hsent] at hover
      · simp [Run.over, hdied] at hover
    case isFalse => exact ⟨run', hrun', hp, hk, hanswer⟩
  told {i result} hmem := by
    obtain ⟨run', hrun', hres, hknown'⟩ := h.told hmem
    rw [runs_set_phase hrun]
    split
    case isTrue heq =>
      rw [heq, hrun] at hrun'
      cases hrun'
      exact ⟨_, rfl, hstored.trans hres, hknown hknown'⟩
    case isFalse => exact ⟨run', hrun', hres, hknown'⟩
  once := h.once

/-! ### The steps -/

theorem ok_new : new.Ok where
  running h := by cases h
  measuring h := by cases h
  results h := by cases h
  callers h := by cases h
  told h := by cases h
  once := List.nodup_nil

/-- Nothing but the results and the sink is other, and there is no result. -/
theorem Ok.invalidate_all (h : w.Ok) : { w with results := ∅ : World }.Ok where
  running := h.running
  measuring := h.measuring
  results hlookup := by cases hlookup
  callers := h.callers
  told := h.told
  once := h.once

theorem Ok.sink (h : w.Ok) : { w with sink := true : World }.Ok where
  running := h.running
  measuring := h.measuring
  results := h.results
  callers := h.callers
  told := h.told
  once := h.once

theorem runs_start (w : World) (p : Str) (k : UInt64) (i : ℕ) :
    (w.start p k).runs[i]? =
      if i = w.runs.length then some ⟨p, k, .Measuring⟩ else w.runs[i]? := by
  simp only [start, List.getElem?_append]
  grind

theorem running_start (w : World) (p : Str) (k : UInt64) (q : Str) :
    (w.start p k).running.lookup q =
      if q = p then some (k, w.runs.length) else w.running.lookup q :=
  Assoc.lookup_insert_apply ..

theorem replaced_start {p q : Str} {k : UInt64} {i : ℕ} :
    (w.start p k).Replaced i q ↔ w.Replaced i q ∨ i < w.runs.length ∧ p = q := by
  unfold Replaced
  simp only [runs_start]
  constructor
  · rintro ⟨r', run', hlt, hrun', hq⟩
    split at hrun'
    case isTrue heq =>
      cases hrun'
      exact .inr ⟨heq ▸ hlt, hq⟩
    case isFalse => exact .inl ⟨r', run', hlt, hrun', hq⟩
  · rintro (⟨r', run', hlt, hrun', hq⟩ | ⟨hlt, rfl⟩)
    · have hr' : r' < w.runs.length := (List.getElem?_eq_some_iff.1 hrun').1
      exact ⟨r', run', hlt, (if_neg hr'.ne).trans hrun', hq⟩
    · exact ⟨_, _, hlt, if_pos rfl, rfl⟩

/-- A new run takes the place of its policy's last one. -/
theorem Ok.started (h : w.Ok) (p : Str) (k : UInt64) : (w.start p k).Ok := by
  have hkept : ∀ {i : ℕ} {run : Run}, w.runs[i]? = some run →
      (w.start p k).runs[i]? = some run := fun {i run} hrun =>
    (runs_start w p k i).trans <|
      (if_neg (List.getElem?_eq_some_iff.1 hrun).1.ne).trans hrun
  constructor
  case running =>
    intro q k' i hlookup
    rw [running_start] at hlookup
    split at hlookup
    case isTrue heq =>
      cases hlookup
      refine ⟨.Measuring, (runs_start ..).trans (heq ▸ if_pos rfl), rfl, ?_⟩
      rw [replaced_start]
      rintro (⟨r', run', hlt, hrun', -⟩ | ⟨hlt, -⟩)
      · have hr' : r' < w.runs.length := (List.getElem?_eq_some_iff.1 hrun').1
        omega
      · exact hlt.false
    case isFalse hne =>
      obtain ⟨phase, hphase, hmeasured, hlast⟩ := h.running hlookup
      refine ⟨phase, hkept hphase, hmeasured, ?_⟩
      rw [replaced_start]
      rintro (hreplaced | ⟨-, heq⟩)
      · exact hlast hreplaced
      · exact hne heq.symm
  case measuring =>
    intro i run hrun hmeasuring hlast
    rw [replaced_start, not_or] at hlast
    rw [running_start]
    rw [runs_start] at hrun
    split at hrun
    case isTrue heq =>
      cases hrun
      exact heq ▸ if_pos rfl
    case isFalse =>
      have hne : run.policy ≠ p := fun heq =>
        hlast.2 ⟨(List.getElem?_eq_some_iff.1 hrun).1, heq.symm⟩
      exact (if_neg hne).trans (h.measuring hrun hmeasuring hlast.1)
  case results =>
    intro q e hlookup
    obtain ⟨i, run, hrun, hq, hk, hres, hlater⟩ := h.results hlookup
    refine ⟨i, run, hkept hrun, hq, hk, hres, fun r' run' hlt hrun' hq' => ?_⟩
    rw [runs_start] at hrun'
    split at hrun'
    case isTrue =>
      cases hrun'
      rfl
    case isFalse => exact hlater r' run' hlt hrun' hq'
  case callers =>
    intro caller hmem
    rcases List.mem_append.1 hmem with hmem | hmem
    · obtain ⟨run, hrun, hrest⟩ := h.callers hmem
      exact ⟨run, hkept hrun, hrest⟩
    · obtain rfl := List.mem_singleton.1 hmem
      exact ⟨⟨p, k, .Measuring⟩, (runs_start ..).trans (if_pos rfl), rfl, rfl, nofun⟩
  case told =>
    intro i result hmem
    obtain ⟨run, hrun, hrest⟩ := h.told hmem
    exact ⟨run, hkept hrun, hrest⟩
  case once => exact h.once

/-- A run that the table has. -/
theorem Ok.table_run (h : w.Ok) {p : Str} {k : UInt64}
    (hlookup : w.running.lookup p = some (k, r)) :
    ∃ phase : Phase, w.runs[r]? = some ⟨p, k, phase⟩ ∧
      (phase = .Measuring ∧ w.closed r = false ∨ phase = .Died ∧ w.closed r = true) := by
  obtain ⟨phase, hrun, hmeasured, -⟩ := h.running hlookup
  refine ⟨phase, hrun, ?_⟩
  cases phase <;> simp_all [closed, Run.over, Phase.measured]

/-- A caller joins a run that measures, or starts one. -/
theorem test_cases (h : w.Ok) (p : Str) (k : UInt64) :
    (∃ r, w.running.lookup p = some (k, r) ∧ w.runs[r]? = some ⟨p, k, .Measuring⟩ ∧
      w.test p k = { w with callers := w.callers ++ [⟨p, k, r, none⟩] }) ∨
    (∀ r, w.running.lookup p = some (k, r) → w.runs[r]? = some ⟨p, k, .Died⟩) ∧
      w.test p k = w.start p k := by
  rcases hlookup : w.running.lookup p with _ | ⟨k', r⟩
  · exact .inr ⟨nofun, by rw [test, hlookup]⟩
  · obtain ⟨phase, hrun, hopen⟩ := h.table_run hlookup
    rcases hopen with ⟨rfl, hopen⟩ | ⟨rfl, hclosed⟩
    · by_cases hk : k' = k
      · subst hk
        refine .inl ⟨r, rfl, hrun, ?_⟩
        rw [test, hlookup]
        exact if_pos ⟨rfl, hopen⟩
      · refine .inr ⟨?_, ?_⟩
        · rintro r' heq
          cases heq
          exact absurd rfl hk
        · rw [test, hlookup]
          exact if_neg fun hand => hk hand.1
    · refine .inr ⟨?_, ?_⟩
      · rintro r' heq
        cases heq
        exact hrun
      · rw [test, hlookup]
        exact if_neg fun hand => by simp [hclosed] at hand

theorem Ok.join (h : w.Ok) {p : Str} {k : UInt64} (hrun : w.runs[r]? = some ⟨p, k, phase⟩) :
    { w with callers := w.callers ++ [⟨p, k, r, none⟩] : World }.Ok where
  running := h.running
  measuring := h.measuring
  results := h.results
  callers {caller} hmem := by
    rcases List.mem_append.1 hmem with hmem | hmem
    · exact h.callers hmem
    · obtain rfl := List.mem_singleton.1 hmem
      exact ⟨_, hrun, rfl, rfl, nofun⟩
  told := h.told
  once := h.once

theorem Ok.test (h : w.Ok) (p : Str) (k : UInt64) : (w.test p k).Ok := by
  rcases test_cases h p k with ⟨r, -, hrun, heq⟩ | ⟨-, heq⟩
  · exact heq ▸ h.join hrun
  · exact heq ▸ h.started p k

/-- A run in the table has no later run of its policy, and the last run of a policy that measures is
in the table. -/
theorem Ok.replaced_iff (h : w.Ok) (hrun : w.runs[r]? = some run)
    (hphase : run.phase = .Measuring) :
    w.Replaced r run.policy ↔ ¬ ∃ k, w.running.lookup run.policy = some (k, r) := by
  constructor
  · rintro hreplaced ⟨k, hlookup⟩
    obtain ⟨-, -, -, hlast⟩ := h.running hlookup
    exact hlast hreplaced
  · intro hnot
    by_contra hlast
    exact hnot ⟨_, h.measuring hrun hphase hlast⟩

/-- A run that measured stores its result when no later run of its policy was started, and only
then. -/
theorem ends_cases (h : w.Ok) (hrun : w.runs[r]? = some run) (hphase : run.phase = .Measuring)
    (result : TestResult) :
    (w.Replaced r run.policy ∧ w.ends r result = w.set_phase r run (.Ended result false)) ∨
    ¬ w.Replaced r run.policy ∧ w.ends r result =
      { w.set_phase r run (.Ended result true) with
        running := w.running.erase run.policy
        results := w.results.insert run.policy (run.key, result) } := by
  rw [h.replaced_iff hrun hphase]
  simp only [ends, hrun, hphase]
  rcases w.running.lookup run.policy with _ | ⟨k, r'⟩
  · exact .inl ⟨nofun, rfl⟩
  · by_cases heq : r' = r
    · subst heq
      exact .inr ⟨fun hnot => hnot ⟨k, rfl⟩, if_pos rfl⟩
    · refine .inl ⟨?_, if_neg heq⟩
      rintro ⟨k', hsome⟩
      cases hsome
      exact heq rfl

theorem ends_of_ne (result : TestResult)
    (hne : ∀ run, w.runs[r]? = some run → run.phase ≠ .Measuring) : w.ends r result = w := by
  unfold ends
  split
  case h_1 run hrun =>
    split
    case h_1 hphase => exact absurd hphase (hne run hrun)
    case h_2 => rfl
  case h_2 => rfl

/-- The run that no later one replaced leaves the table, and its result is the policy's. -/
theorem Ok.stores (h : w.Ok) (hrun : w.runs[r]? = some run) (hphase : run.phase = .Measuring)
    (hlast : ¬ w.Replaced r run.policy) (result : TestResult) :
    { w.set_phase r run (.Ended result true) with
      running := w.running.erase run.policy
      results := w.results.insert run.policy (run.key, result) : World }.Ok := by
  have hruns := @runs_set_phase w r run (.Ended result true) hrun
  have hreplaced : ∀ {i : ℕ} {p : Str},
      (w.set_phase r run (.Ended result true)).Replaced i p ↔ w.Replaced i p :=
    replaced_set_phase hrun
  have hother : ∀ {i : ℕ} {new : Run},
      (w.set_phase r run (.Ended result true)).runs[i]? = some new →
      new.policy ≠ run.policy → w.runs[i]? = some new := by
    intro i new hnew hne
    rw [hruns] at hnew
    split at hnew
    case isTrue =>
      cases hnew
      exact absurd rfl hne
    case isFalse => exact hnew
  constructor
  case running =>
    intro p k i hlookup
    have hne : p ≠ run.policy := by
      rintro rfl
      simp at hlookup
    rw [AList.lookup_erase_ne hne] at hlookup
    obtain ⟨old, hold, hmeasured, hnone⟩ := h.running hlookup
    refine ⟨old, (hruns i).trans ((if_neg ?_).trans hold), hmeasured,
      fun hr => hnone (hreplaced.1 hr)⟩
    rintro rfl
    rw [hrun] at hold
    cases hold
    exact hne rfl
  case measuring =>
    intro i run' hrun' hmeasuring hlast'
    change (w.set_phase r run _).runs[i]? = some run' at hrun'
    rw [hruns] at hrun'
    split at hrun'
    case isTrue =>
      cases hrun'
      cases hmeasuring
    case isFalse hi =>
      have hlookup := h.measuring hrun' hmeasuring fun hr => hlast' (hreplaced.2 hr)
      have hne : run'.policy ≠ run.policy := by
        intro heq
        have hmine := h.measuring hrun hphase hlast
        rw [← heq, hlookup] at hmine
        exact hi (Prod.ext_iff.1 (Option.some_inj.1 hmine)).2
      exact (AList.lookup_erase_ne hne).trans hlookup
  case results =>
    intro p e hlookup
    change (w.results.insert run.policy (run.key, result)).lookup p = some e at hlookup
    rw [Assoc.lookup_insert_apply] at hlookup
    split at hlookup
    case isTrue heq =>
      cases hlookup
      refine ⟨r, _, (hruns r).trans (if_pos rfl), heq.symm, rfl, rfl, ?_⟩
      intro r' run' hlt hrun' hp
      exact absurd ⟨r', run', hlt, hrun', hp.trans heq⟩ (hreplaced.not.2 hlast)
    case isFalse hne =>
      obtain ⟨i, run', hrun', hp, hk, hres, hlater⟩ := h.results hlookup
      refine ⟨i, run', (hruns i).trans ((if_neg ?_).trans hrun'), hp, hk, hres, ?_⟩
      · rintro rfl
        rw [hrun] at hrun'
        cases hrun'
        exact hne hp.symm
      · intro r' new hlt hnew hp'
        exact hlater r' new hlt (hother hnew fun heq => hne (hp'.symm.trans heq)) hp'
  case callers =>
    intro caller hmem
    obtain ⟨run', hrun', hp, hk, hanswer⟩ := h.callers hmem
    by_cases hi : caller.run = r
    · rw [hi, hrun] at hrun'
      cases hrun'
      refine ⟨_, (hruns caller.run).trans (if_pos hi), hp, hk, fun a ha => ?_⟩
      rcases hanswer a ha with ⟨kept, hsent⟩ | ⟨hdied, -⟩
      · cases hphase.symm.trans hsent
      · cases hphase.symm.trans hdied
    · exact ⟨run', (hruns caller.run).trans ((if_neg hi).trans hrun'), hp, hk, hanswer⟩
  case told =>
    intro i result' hmem
    obtain ⟨run', hrun', hres, hknown⟩ := h.told hmem
    refine ⟨run', (hruns i).trans ((if_neg ?_).trans hrun'), hres, hknown⟩
    rintro rfl
    rw [hrun] at hrun'
    cases hrun'
    simp [hphase, Phase.known] at hknown
  case once => exact h.once

theorem Ok.ends (h : w.Ok) (r : ℕ) (result : TestResult) : (w.ends r result).Ok := by
  by_cases hmeasuring : ∃ run, w.runs[r]? = some run ∧ run.phase = .Measuring
  · obtain ⟨run, hrun, hphase⟩ := hmeasuring
    rcases ends_cases h hrun hphase result with ⟨hreplaced, heq⟩ | ⟨hlast, heq⟩
    · rw [heq]
      have hgone := (h.replaced_iff hrun hphase).1 hreplaced
      refine h.set_phase hrun ?_ ?_ nofun ?_ fun k hlookup => absurd ⟨k, hlookup⟩ hgone
      · simp [Run.stored, hphase]
      · simp [Run.over, hphase]
      · simp [Phase.known, hphase]
    · exact heq ▸ h.stores hrun hphase hlast result
  · rw [ends_of_ne result fun run hrun hphase => hmeasuring ⟨run, hrun, hphase⟩]
    exact h

theorem Ok.dies (h : w.Ok) (r : ℕ) : (w.dies r).Ok := by
  unfold World.dies
  split
  case h_1 run hrun =>
    split
    case h_1 hphase =>
      refine h.set_phase hrun ?_ ?_ nofun ?_ fun _ _ => rfl
      · simp [Run.stored, hphase]
      · simp [Run.over, hphase]
      · simp [Phase.known, hphase]
    case h_2 => exact h
  case h_2 => exact h

/-- A run in the table has not measured. -/
theorem Ok.not_in_table (h : w.Ok) (hrun : w.runs[r]? = some run)
    (hmeasured : run.phase.measured = true) (k : UInt64) :
    w.running.lookup run.policy ≠ some (k, r) := by
  intro hlookup
  obtain ⟨phase, hphase, hfalse, -⟩ := h.running hlookup
  have hsame : run.phase = phase := congrArg Run.phase (Option.some_inj.1 (hrun.symm.trans hphase))
  rw [hsame, hfalse] at hmeasured
  exact Bool.false_ne_true hmeasured

/-- What telling the sink adds. -/
theorem tells_cases (r : ℕ) : w.tells r = w ∨ ∃ (run : Run) (result : TestResult) (kept : Bool),
    w.runs[r]? = some run ∧ run.phase = .Ended result kept ∧
    w.tells r = { w.set_phase r run (.Told result kept) with
      told := if kept ∧ w.sink then w.told ++ [(r, result)] else w.told } := by
  unfold tells
  split
  case h_1 run hrun =>
    split
    case h_1 result kept hphase => exact .inr ⟨run, result, kept, hrun, hphase, rfl⟩
    case h_2 => exact .inl rfl
  case h_2 => exact .inl rfl

theorem Ok.tells (h : w.Ok) (r : ℕ) : (w.tells r).Ok := by
  rcases tells_cases (w := w) r with heq | ⟨run, result, kept, hrun, hphase, heq⟩
  · exact heq.symm ▸ h
  have hstored : ({ run with phase := .Told result kept } : Run).stored = run.stored := by
    cases kept <;> simp [Run.stored, hphase]
  have hset : (w.set_phase r run (.Told result kept)).Ok := by
    refine h.set_phase hrun hstored ?_ nofun (fun _ => rfl) fun k hlookup => ?_
    · simp [Run.over, hphase]
    · exact absurd hlookup (h.not_in_table hrun (by simp [Phase.measured, hphase]) k)
  rw [heq]
  split
  case isTrue hkept =>
    refine ⟨hset.running, hset.measuring, hset.results, hset.callers, ?_, ?_⟩
    · intro i res hmem
      rcases List.mem_append.1 hmem with hmem | hmem
      · exact hset.told hmem
      · cases List.mem_singleton.1 hmem
        refine ⟨_, (runs_set_phase hrun r).trans (if_pos rfl), ?_, rfl⟩
        simp [Run.stored, hkept.1]
    · rw [List.map_append, List.nodup_append]
      refine ⟨h.once, List.nodup_singleton r, ?_⟩
      rintro i hi j hj rfl
      obtain ⟨⟨i, res⟩, hmem, rfl⟩ := List.mem_map.1 hi
      cases List.mem_singleton.1 hj
      obtain ⟨run', hrun', -, hknown⟩ := h.told hmem
      rw [hrun] at hrun'
      cases hrun'
      simp [hphase, Phase.known] at hknown
  case isFalse => exact hset

theorem Ok.sends (h : w.Ok) (r : ℕ) : (w.sends r).Ok := by
  unfold World.sends
  split
  case h_1 run hrun =>
    split
    case h_1 result kept hphase =>
      refine h.set_phase hrun ?_ ?_ nofun (fun _ => rfl) fun k hlookup => ?_
      · cases kept <;> simp [Run.stored, hphase]
      · simp [Run.over, hphase]
      · exact absurd hlookup (h.not_in_table hrun (by simp [Phase.measured, hphase]) k)
    case h_2 => exact h
  case h_2 => exact h

/-- A caller is told the result of its run, or that the run died. -/
theorem hears_cases (c instant : ℕ) (when : ℤ) : w.hears c instant when = w ∨
    ∃ (caller : Caller) (run : Run) (a : TestResult), w.callers[c]? = some caller ∧
      w.runs[caller.run]? = some run ∧
      ((∃ kept, run.phase = .Sent a kept) ∨ run.phase = .Died ∧ a = unfinished instant when) ∧
      w.hears c instant when =
        { w with callers := w.callers.set c { caller with answer := some a } } := by
  unfold hears
  split
  case h_1 caller hcaller =>
    split
    case h_1 result kept _ hphase =>
      obtain ⟨run, hrun, hphase⟩ := Option.map_eq_some_iff.1 hphase
      exact .inr ⟨caller, run, result, hcaller, hrun, .inl ⟨kept, hphase⟩, rfl⟩
    case h_2 _ hphase =>
      obtain ⟨run, hrun, hphase⟩ := Option.map_eq_some_iff.1 hphase
      exact .inr ⟨caller, run, _, hcaller, hrun, .inr ⟨hphase, rfl⟩, rfl⟩
    case h_3 => exact .inl rfl
  case h_2 => exact .inl rfl

theorem Ok.hears (h : w.Ok) (c instant : ℕ) (when : ℤ) : (w.hears c instant when).Ok := by
  rcases hears_cases (w := w) c instant when with heq | ⟨caller, run, a, hcaller, hrun, hphase, heq⟩
  · exact heq.symm ▸ h
  rw [heq]
  refine ⟨h.running, h.measuring, h.results, ?_, h.told, h.once⟩
  intro caller' hmem
  rcases List.mem_or_eq_of_mem_set hmem with hmem | rfl
  · exact h.callers hmem
  · obtain ⟨run', hrun', hp, hk, -⟩ := h.callers (List.mem_of_getElem? hcaller)
    obtain rfl := Option.some_inj.1 (hrun.symm.trans hrun')
    refine ⟨run, hrun, hp, hk, fun b hb => ?_⟩
    cases hb
    exact hphase.imp_right fun hdied => ⟨hdied.1, by rw [hdied.2]; rfl⟩

/-- **Whatever happens, the book stands.** -/
theorem Ok.step (h : w.Ok) (a : Action) : (w.step a).Ok := by
  cases a with
  | sink => exact h.sink
  | invalidate_all => exact h.invalidate_all
  | test policy key => exact h.test policy key
  | ends run result => exact h.ends run result
  | dies run => exact h.dies run
  | tells run => exact h.tells run
  | sends run => exact h.sends run
  | hears caller instant when => exact h.hears caller instant when

theorem ok_run (actions : List Action) : (Runs.run step new actions).Ok :=
  Runs.run_invariant (I := Ok) (fun _ a h => h.step a) ok_new actions

/-! ### The sink -/

/-- The sink is there, and was told of every result stored by a run that got so far. -/
structure Heard (w : World) : Prop where
  sink : w.sink = true
  told : ∀ {r : ℕ} {run : Run} {result : TestResult}, w.runs[r]? = some run →
    run.stored = some result → run.phase.known = true → (r, result) ∈ w.told

/-- A phase may change that says nothing new of a stored result. -/
theorem Heard.set_phase (h : w.Heard) (hrun : w.runs[r]? = some run)
    (hphase : ∀ result, ({ run with phase := phase } : Run).stored = some result →
      phase.known = true → run.stored = some result ∧ run.phase.known = true) :
    (w.set_phase r run phase).Heard where
  sink := h.sink
  told {i run' result} hrun' hstored hknown := by
    rw [runs_set_phase hrun] at hrun'
    split at hrun'
    case isTrue heq =>
      cases hrun'
      obtain ⟨hstored, hknown⟩ := hphase result hstored hknown
      rw [heq]
      exact h.told hrun hstored hknown
    case isFalse => exact h.told hrun' hstored hknown

theorem Heard.step (h : w.Heard) (hok : w.Ok) (a : Action) : (w.step a).Heard := by
  cases a with
  | sink => exact ⟨rfl, h.told⟩
  | invalidate_all => exact ⟨h.sink, h.told⟩
  | test policy key =>
    change (w.test policy key).Heard
    rcases test_cases hok policy key with ⟨r, -, -, heq⟩ | ⟨-, heq⟩
    · exact heq ▸ ⟨h.sink, h.told⟩
    · rw [heq]
      refine ⟨h.sink, fun {i run result} hrun hstored hknown => ?_⟩
      rw [runs_start] at hrun
      split at hrun
      case isTrue =>
        cases hrun
        cases hknown
      case isFalse => exact h.told hrun hstored hknown
  | ends r result =>
    change (w.ends r result).Heard
    by_cases hmeasuring : ∃ run, w.runs[r]? = some run ∧ run.phase = .Measuring
    · obtain ⟨run, hrun, hphase⟩ := hmeasuring
      rcases ends_cases hok hrun hphase result with ⟨-, heq⟩ | ⟨-, heq⟩
      · exact heq ▸ h.set_phase hrun nofun
      · have hset : (w.set_phase r run (.Ended result true)).Heard := h.set_phase hrun nofun
        exact heq ▸ ⟨hset.sink, hset.told⟩
    · rw [ends_of_ne result fun run hrun hphase => hmeasuring ⟨run, hrun, hphase⟩]
      exact h
  | dies r =>
    change (w.dies r).Heard
    unfold dies
    split
    case h_1 run hrun =>
      split
      case h_1 => exact h.set_phase hrun nofun
      case h_2 => exact h
    case h_2 => exact h
  | tells r =>
    change (w.tells r).Heard
    rcases tells_cases (w := w) r with heq | ⟨run, result, kept, hrun, hphase, heq⟩
    · exact heq.symm ▸ h
    rw [heq]
    refine ⟨h.sink, fun {i run' res} hrun' hstored hknown => ?_⟩
    change (w.set_phase r run _).runs[i]? = some run' at hrun'
    rw [runs_set_phase hrun] at hrun'
    split at hrun'
    case isTrue hi =>
      cases hrun'
      cases kept with
      | false => cases hstored
      | true =>
        cases hstored
        rw [if_pos ⟨rfl, h.sink⟩, hi]
        exact List.mem_append_right _ (List.mem_singleton_self _)
    case isFalse =>
      have hmem := h.told hrun' hstored hknown
      split
      case isTrue => exact List.mem_append_left _ hmem
      case isFalse => exact hmem
  | sends r =>
    change (w.sends r).Heard
    unfold sends
    split
    case h_1 run hrun =>
      split
      case h_1 result kept hphase =>
        refine h.set_phase hrun fun res hstored _ => ⟨?_, by simp [Phase.known, hphase]⟩
        cases kept <;> simp_all [Run.stored]
      case h_2 => exact h
    case h_2 => exact h
  | hears c instant when =>
    change (w.hears c instant when).Heard
    rcases hears_cases (w := w) c instant when with heq | ⟨_, _, _, _, _, _, heq⟩
    · exact heq.symm ▸ h
    · exact heq ▸ ⟨h.sink, h.told⟩

theorem heard_run (actions : List Action) : (Runs.run step (new.step .sink) actions).Heard := by
  have hstep : ∀ (w : World) (a : Action), w.Ok ∧ w.Heard → (w.step a).Ok ∧ (w.step a).Heard :=
    fun _ a h => ⟨h.1.step a, h.2.step h.1 a⟩
  exact (Runs.run_invariant hstep ⟨ok_new.sink, rfl, nofun⟩ actions).2

/-! ### What the book guarantees -/

/-- What a book promises of its results, of the runs and of whoever asks. -/
structure Faithful (w : World) : Prop where
  /-- A result of a policy and a key is that of a run of this policy with this key, and no run of
  the policy started later has stored one. -/
  result : ∀ (p : Str) (k : UInt64) (result : TestResult), w.result p k = some result →
    ∃ (r : ℕ) (run : Run), w.runs[r]? = some run ∧ run.policy = p ∧ run.key = k ∧
      run.stored = some result ∧ ∀ (r' : ℕ) (run' : Run), r < r' → w.runs[r']? = some run' →
        run'.policy = p → run'.stored = none
  /-- A run that a later one replaced hands its result to no one but its callers. -/
  superseded : ∀ (r : ℕ) (run : Run) (result : TestResult), w.runs[r]? = some run →
    run.phase = .Measuring → w.Replaced r run.policy →
      (w.step (.ends r result)).results = w.results ∧
      (w.step (.ends r result)).runs[r]? = some { run with phase := .Ended result false }
  /-- A run that no later one replaced stores its result. -/
  stores : ∀ (r : ℕ) (run : Run) (result : TestResult), w.runs[r]? = some run →
    run.phase = .Measuring → ¬ w.Replaced r run.policy →
      (w.step (.ends r result)).result run.policy run.key = some result ∧
      (w.step (.ends r result)).runs[r]? = some { run with phase := .Ended result true }
  /-- Nothing else stores a result or takes one away, but for `invalidate_all`. -/
  results : ∀ (a : Action) (p : Str), (w.step a).results.lookup p = w.results.lookup p ∨
    a = .invalidate_all ∨ ∃ (r : ℕ) (run : Run) (result : TestResult), a = .ends r result ∧
      w.runs[r]? = some run ∧ run.policy = p ∧ run.phase = .Measuring ∧ ¬ w.Replaced r p
  /-- Whoever asks is on a run of its policy and key that measures, whatever died before. -/
  test : ∀ (p : Str) (k : UInt64), ∃ r, (w.step (.test p k)).runs[r]? = some ⟨p, k, .Measuring⟩ ∧
    (w.step (.test p k)).callers = w.callers ++ [⟨p, k, r, none⟩]
  /-- The run in progress is shared by those who ask with its key. -/
  shared : ∀ (r : ℕ) (run : Run), w.runs[r]? = some run → run.phase = .Measuring →
    ¬ w.Replaced r run.policy → w.step (.test run.policy run.key) =
      { w with callers := w.callers ++ [⟨run.policy, run.key, r, none⟩] }
  /-- A caller's answer is the result of its run, or says that the run died. -/
  answer : ∀ caller ∈ w.callers, ∃ run : Run, w.runs[caller.run]? = some run ∧
    run.policy = caller.policy ∧ run.key = caller.key ∧
    ∀ a, caller.answer = some a → (∃ kept, run.phase = .Sent a kept) ∨
      run.phase = .Died ∧ a.outcome = .error "the test did not finish".toList
  /-- A caller whose run no longer measures has its answer as soon as that run's task and the caller
  go on. -/
  answered : ∀ (c : ℕ) (caller : Caller) (run : Run), w.callers[c]? = some caller →
    caller.answer = none → w.runs[caller.run]? = some run → run.phase ≠ .Measuring →
    ∀ (instant : ℕ) (when : ℤ), ∃ a, (Runs.run step w
      [.tells caller.run, .sends caller.run, .hears c instant when]).callers[c]? =
        some { caller with answer := some a }

theorem result_eq_some {p : Str} {k : UInt64} {result : TestResult} :
    w.result p k = some result ↔ w.results.lookup p = some (k, result) := by
  simp only [World.result, Option.map_eq_some_iff, Option.filter_eq_some_iff]
  constructor
  · rintro ⟨⟨k', res⟩, ⟨hlookup, hk⟩, rfl⟩
    obtain rfl : k' = k := of_decide_eq_true hk
    exact hlookup
  · intro hlookup
    exact ⟨_, ⟨hlookup, decide_eq_true rfl⟩, rfl⟩

/-- What a step makes of the results. -/
theorem Ok.results_step (h : w.Ok) (a : Action) (p : Str) :
    (w.step a).results.lookup p = w.results.lookup p ∨ a = .invalidate_all ∨
    ∃ (r : ℕ) (run : Run) (result : TestResult), a = .ends r result ∧
      w.runs[r]? = some run ∧ run.policy = p ∧ run.phase = .Measuring ∧ ¬ w.Replaced r p := by
  cases a with
  | sink => exact .inl rfl
  | invalidate_all => exact .inr (.inl rfl)
  | test policy key =>
    refine .inl ?_
    change (w.test policy key).results.lookup p = _
    rcases test_cases h policy key with ⟨_, -, -, heq⟩ | ⟨-, heq⟩
    · rw [heq]
    · rw [heq]
      rfl
  | ends r result =>
    by_cases hmeasuring : ∃ run, w.runs[r]? = some run ∧ run.phase = .Measuring
    · obtain ⟨run, hrun, hphase⟩ := hmeasuring
      have hresults : ∀ {w'}, w.ends r result = w' →
          (w.step (.ends r result)).results.lookup p = w'.results.lookup p :=
        fun heq => congrArg (fun w : World => w.results.lookup p) heq
      rcases ends_cases h hrun hphase result with ⟨-, heq⟩ | ⟨hlast, heq⟩
      · exact .inl ((hresults heq).trans rfl)
      · by_cases hp : run.policy = p
        · subst hp
          exact .inr (.inr ⟨r, run, result, rfl, hrun, rfl, hphase, hlast⟩)
        · refine .inl ((hresults heq).trans ?_)
          exact AList.lookup_insert_ne (Ne.symm hp)
    · refine .inl (congrArg (fun w : World => w.results.lookup p) ?_)
      exact ends_of_ne result fun run hrun hphase => hmeasuring ⟨run, hrun, hphase⟩
  | dies r =>
    refine .inl ?_
    change (w.dies r).results.lookup p = _
    unfold World.dies
    split <;> try split
    all_goals rfl
  | tells r =>
    refine .inl ?_
    change (w.tells r).results.lookup p = _
    rcases tells_cases (w := w) r with heq | ⟨_, _, _, -, -, heq⟩
    · rw [heq]
    · rw [heq]
      rfl
  | sends r =>
    refine .inl ?_
    change (w.sends r).results.lookup p = _
    unfold World.sends
    split <;> try split
    all_goals rfl
  | hears c instant when =>
    refine .inl ?_
    change (w.hears c instant when).results.lookup p = _
    rcases hears_cases (w := w) c instant when with heq | ⟨_, _, _, -, -, -, heq⟩ <;> rw [heq]

/-- Once its run has measured, a caller is answered by the end of the run's task. -/
theorem hears_after {c : ℕ} {caller : Caller} (hcaller : w.callers[c]? = some caller)
    (hanswer : caller.answer = none) (hrun : w.runs[caller.run]? = some run)
    (hphase : run.phase ≠ .Measuring) (instant : ℕ) (when : ℤ) :
    ∃ a, (Runs.run step w [.tells caller.run, .sends caller.run,
      .hears c instant when]).callers[c]? = some { caller with answer := some a } := by
  have hc : c < w.callers.length := (List.getElem?_eq_some_iff.1 hcaller).1
  have hset : ∀ w' : World, w'.callers = w.callers → ∀ a, (w'.callers.set c
      { caller with answer := some a })[c]? = some { caller with answer := some a } := by
    intro w' heq a
    rw [heq, List.getElem?_set_self hc]
  have hheard : ∀ w' : World, w'.callers = w.callers → ∀ run' : Run,
      w'.runs[caller.run]? = some run' → run'.over = true →
      ∃ a, (w'.hears c instant when).callers[c]? = some { caller with answer := some a } := by
    intro w' heq run' hrun' hover
    rw [← heq] at hcaller
    simp only [hears, hcaller, hanswer, hrun', Option.map_some]
    cases hphase' : run'.phase <;> simp only [Run.over, hphase', Bool.false_eq_true] at hover
    · exact ⟨_, hset w' heq _⟩
    · exact ⟨_, hset w' heq _⟩
  obtain ⟨w', hw', heq, run', hrun', hover⟩ : ∃ w', (w.tells caller.run).sends caller.run = w' ∧
      w'.callers = w.callers ∧ ∃ run', w'.runs[caller.run]? = some run' ∧ run'.over = true := by
    refine ⟨_, rfl, ?_⟩
    have hset' : ∀ phase, (w.set_phase caller.run run phase).runs[caller.run]? =
        some { run with phase := phase } := fun _ => (runs_set_phase hrun _).trans (if_pos rfl)
    cases hcase : run.phase with
    | Measuring => exact absurd hcase hphase
    | Ended result kept =>
      have hsent := @runs_set_phase _ _ _ (.Sent result kept) (hset' (.Told result kept))
      simp only [tells, hrun, hcase, sends, hset']
      exact ⟨rfl, _, (hsent _).trans (if_pos rfl), rfl⟩
    | Told result kept =>
      simp only [tells, hrun, hcase, sends]
      exact ⟨rfl, _, hset' _, rfl⟩
    | Sent result kept =>
      simp only [tells, hrun, hcase, sends]
      exact ⟨trivial, run, rfl, by simp [Run.over, hcase]⟩
    | Died =>
      simp only [tells, hrun, hcase, sends]
      exact ⟨trivial, run, rfl, by simp [Run.over, hcase]⟩
  have hrun : Runs.run step w [.tells caller.run, .sends caller.run, .hears c instant when] =
      w'.hears c instant when := congrArg (fun w : World => w.hears c instant when) hw'
  rw [hrun]
  exact hheard w' heq run' hrun' hover

theorem Ok.faithful (h : w.Ok) : w.Faithful where
  result p k result hresult := by
    obtain ⟨r, run, hrun, hp, hk, hstored, hlater⟩ := h.results (result_eq_some.1 hresult)
    exact ⟨r, run, hrun, hp, hk, hstored, hlater⟩
  superseded r run result hrun hphase hreplaced := by
    rcases ends_cases h hrun hphase result with ⟨-, heq⟩ | ⟨hlast, -⟩
    · change (w.ends r result).results = _ ∧ (w.ends r result).runs[r]? = _
      rw [heq]
      exact ⟨rfl, (runs_set_phase hrun r).trans (if_pos rfl)⟩
    · exact absurd hreplaced hlast
  stores r run result hrun hphase hlast := by
    rcases ends_cases h hrun hphase result with ⟨hreplaced, -⟩ | ⟨-, heq⟩
    · exact absurd hreplaced hlast
    · change (w.ends r result).result _ _ = _ ∧ (w.ends r result).runs[r]? = _
      rw [heq, result_eq_some]
      exact ⟨AList.lookup_insert _, (runs_set_phase hrun r).trans (if_pos rfl)⟩
  results := h.results_step
  test p k := by
    change ∃ r, (w.test p k).runs[r]? = _ ∧ (w.test p k).callers = _
    rcases test_cases h p k with ⟨r, -, hrun, heq⟩ | ⟨-, heq⟩
    · exact heq ▸ ⟨r, hrun, rfl⟩
    · exact heq ▸ ⟨_, (runs_start ..).trans (if_pos rfl), rfl⟩
  shared r run hrun hphase hlast := by
    have hlookup := h.measuring hrun hphase hlast
    rcases test_cases h run.policy run.key with ⟨r', hlookup', -, heq⟩ | ⟨hdied, -⟩
    · rw [hlookup] at hlookup'
      cases hlookup'
      exact heq
    · have hrun' := hdied r hlookup
      rw [hrun] at hrun'
      have hgone : run.phase = .Died := congrArg Run.phase (Option.some_inj.1 hrun')
      exact absurd (hphase.symm.trans hgone) nofun
  answer _ hmem := h.callers hmem
  answered c caller run hcaller hanswer hrun hphase instant when :=
    hears_after hcaller hanswer hrun hphase instant when

/-- **Whatever tests are asked for and however their runs end, the book shows no result of another
definition.**  Every result is that of a run of its policy with its key; a run stores its result
exactly when no later run of its policy was started before it ended; those who ask with the key of
the run in progress share it and are told its result; and a sink that was there from the start is
told of exactly the stored results, once each. -/
theorem book_spec (actions : List Action) :
    (Runs.run step new actions).Faithful ∧
    ((Runs.run step (new.step .sink) actions).told.map Prod.fst).Nodup ∧
    ∀ (r : ℕ) (result : TestResult), (r, result) ∈ (Runs.run step (new.step .sink) actions).told ↔
      ∃ run : Run, (Runs.run step (new.step .sink) actions).runs[r]? = some run ∧
        run.stored = some result ∧ run.phase.known = true := by
  have hok : (Runs.run step (new.step .sink) actions).Ok := ok_run (.sink :: actions)
  refine ⟨(ok_run actions).faithful, hok.once, fun r result => ⟨hok.told, ?_⟩⟩
  rintro ⟨run, hrun, hstored, hknown⟩
  exact (heard_run actions).told hrun hstored hknown

end World

end TestBook

end Rurge
