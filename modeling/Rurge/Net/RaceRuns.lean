import Rurge.Net.Race

/-!
# What the connection race tries

The plan keeps the addresses that the `ip-version` allows, in their order within a family
(`plan_spec`).  In every run of the race the attempts are started in the planned order, each address
once, and what happened fits together entry by entry; the race returns the first attempt to succeed,
or the last error once everything has failed (`race_spec`).
-/

namespace Rurge

open Runs

/-! ### The plan -/

section

variable {α : Type*} {p : α → Bool}

end

theorem filter_none {α : Type*} {p : α → Bool} {l : List α} (h : ∀ x ∈ l, p x = false) :
    l.filter p = [] := List.filter_eq_nil_iff.2 fun x hx => by simp [h x hx]

namespace Race

variable {A T : Type}

/-- Every entry fits what happened before it. -/
def Entered {H : Type} (P : List H → H → Prop) (history : List H) : Prop :=
  ∀ before x after, history = before ++ x :: after → P before x

theorem Entered.concat {H : Type} {P : List H → H → Prop} {history : List H}
    (h : Entered P history) {y : H} (hy : P history y) : Entered P (history ++ [y]) := by
  intro before x after heq
  rcases List.eq_nil_or_concat after with rfl | ⟨after', z, rfl⟩
  · obtain ⟨rfl, hxy⟩ := List.append_inj' heq rfl
    obtain rfl := List.head_eq_of_cons_eq hxy
    exact hy
  · rw [List.concat_eq_append, ← List.cons_append, ← List.append_assoc] at heq
    exact h before x after' (List.append_inj' heq rfl).1

/-- What lets the next attempt start at once. -/
def Happened.hurries : Happened A T → Bool
  | .Failed _ _ | .SecondaryJoined _ => true
  | _ => false

/-- Since every start, the time has passed or something has let the next one start. -/
def Spaced (history : List (Happened A T)) (time : ℕ) : Prop :=
  ∀ before addr t after, history = before ++ .Started addr t :: after →
    t + STAGGER ≤ time ∨ ∃ y ∈ after, y.hurries = true

theorem Spaced.mono {history : List (Happened A T)} {time time' : ℕ} (h : Spaced history time)
    (hle : time ≤ time') : Spaced history time' := by
  intro before addr t after heq
  exact (h before addr t after heq).imp_left fun ht => ht.trans hle

theorem Spaced.concat {history : List (Happened A T)} {time : ℕ} (h : Spaced history time)
    {y : Happened A T} (hy : ∀ addr t, y = .Started addr t → t + STAGGER ≤ time) :
    Spaced (history ++ [y]) time := by
  intro before addr t after heq
  rcases List.eq_nil_or_concat after with rfl | ⟨after', z, rfl⟩
  · obtain ⟨-, hxy⟩ := List.append_inj' heq rfl
    exact .inl (hy addr t (List.head_eq_of_cons_eq hxy))
  · rw [List.concat_eq_append, ← List.cons_append, ← List.append_assoc] at heq
    rcases h before addr t after' (List.append_inj' heq rfl).1 with htime | ⟨w, hw, hhurries⟩
    · exact .inl htime
    · exact .inr ⟨w, by simp [hw], hhurries⟩

/-- After what hurries, there is no time to wait for. -/
theorem spaced_hurried (history : List (Happened A T)) {y : Happened A T}
    (hy : y.hurries = true) (time : ℕ) : Spaced (history ++ [y]) time := by
  intro before addr t after heq
  rcases List.eq_nil_or_concat after with rfl | ⟨after', z, rfl⟩
  · obtain ⟨-, hxy⟩ := List.append_inj' heq rfl
    rw [List.head_eq_of_cons_eq hxy] at hy
    cases hy
  · rw [List.concat_eq_append, ← List.cons_append, ← List.append_assoc] at heq
    obtain rfl := List.head_eq_of_cons_eq (List.append_inj' heq rfl).2
    exact .inr ⟨y, by simp, hy⟩

/-- What an entry says of what happened before it. -/
def Fits (primary : List A) (started : ℕ) (before : List (Happened A T)) : Happened A T → Prop
  | .Started _ time => Spaced before time ∧
      (primary.length ≤ (starts before).length → ∃ t, .SecondaryJoined t ∈ before)
  | .Ended attempt _ => attempt < (starts before).length ∧ attempt ∉ (ends before).map Prod.fst
  | .Failed attempt e => ∃ joined, (attempt, joined) ∈ ends before ∧ joined.result = .error e
  | .SecondaryJoined time => starts before = primary ∧
      (started + OTHER_FAMILY_AFTER ≤ time ∨
        ∀ attempt < primary.length, ∃ e, .Failed attempt e ∈ before)

/-- The error of the last attempt that failed. -/
def last_error (ended : List (ℕ × Joined T)) : IoError :=
  ended.foldl (fun last x => match x.2.result with
    | .error e => e
    | .ok _ => last) NO_ADDRESSES

@[simp] theorem starts_append (history more : List (Happened A T)) :
    starts (history ++ more) = starts history ++ starts more := List.filterMap_append

@[simp] theorem ends_append (history more : List (Happened A T)) :
    ends (history ++ more) = ends history ++ ends more := List.filterMap_append

theorem last_error_concat (ended : List (ℕ × Joined T)) {x : ℕ × Joined T} {e : IoError}
    (h : x.2.result = .error e) : last_error (ended ++ [x]) = e := by
  rw [last_error, List.foldl_append, List.foldl_cons, List.foldl_nil, h]

/-! ### What the race keeps -/

/-- What holds at the top of the loop: what is left of the plan, the attempts under way, those whose
failure was heard, and when the next may start. -/
structure Core (primary second : List A) (s : State A T) (heard : List (ℕ × Joined T)) : Prop where
  fits : Entered (Fits primary s.started) s.history
  order : starts s.history ++ s.queue ++ s.secondary.getD [] = primary ++ second
  waiting : ∀ more, s.secondary = some more → starts s.history ++ s.queue = primary ∧ more ≠ []
  joined : s.secondary = none → second ≠ [] → ∃ t, .SecondaryJoined t ∈ s.history
  ended : ends s.history = heard ++ s.finished
  failed : ∀ x ∈ heard, ∃ e, x.2.result = .error e ∧ .Failed x.1 e ∈ s.history
  last : s.last = last_error heard
  running : (s.running ++ (ends s.history).map Prod.fst).Perm
    (List.range (starts s.history).length)
  spaced : Spaced s.history s.next_launch
  early : ∀ addr t, .Started addr t ∈ s.history → t ≤ s.now
  soon : s.next_launch ≤ s.now + STAGGER

namespace Core

variable {primary second : List A} {s : State A T} {heard : List (ℕ × Joined T)}

theorem pass (h : Core primary second s heard) (time : ℕ) :
    Core primary second { s with now := s.now + time } heard where
  fits := h.fits
  order := h.order
  waiting := h.waiting
  joined := h.joined
  ended := h.ended
  failed := h.failed
  last := h.last
  running := h.running
  spaced := h.spaced
  early addr t ht := (h.early addr t ht).trans (Nat.le_add_right _ _)
  soon := by
    have := h.soon
    simp only
    omega

/-- Nothing is under way: every attempt was heard to have failed. -/
theorem all_failed (h : Core primary second s heard) (hidle : s.under_way = false) :
    ends s.history = heard ∧ (heard.map Prod.fst).Perm (List.range (starts s.history).length) := by
  simp only [State.under_way, Bool.or_eq_false_iff, decide_eq_false_iff_not, not_not] at hidle
  have hended := h.ended
  rw [hidle.2, List.append_nil] at hended
  have hrunning := h.running
  rw [hidle.1, hended, List.nil_append] at hrunning
  exact ⟨hended, hrunning⟩

theorem join_secondary (h : Core primary second s heard) {more : List A}
    (hsecondary : s.secondary = some more) (hqueue : s.queue = [])
    (hwhen : s.started + OTHER_FAMILY_AFTER ≤ s.now ∨ s.under_way = false) :
    Core primary second (s.join_secondary more) heard := by
  have hprimary := (h.waiting more hsecondary).1
  rw [hqueue, List.append_nil] at hprimary
  have hfits : Fits primary s.started s.history (.SecondaryJoined s.now) := by
    refine ⟨hprimary, hwhen.imp_right fun hidle attempt hattempt => ?_⟩
    obtain ⟨hended, hperm⟩ := h.all_failed hidle
    have hmem : attempt ∈ heard.map Prod.fst :=
      hperm.mem_iff.2 (List.mem_range.2 (hprimary ▸ hattempt))
    obtain ⟨x, hx, rfl⟩ := List.mem_map.1 hmem
    obtain ⟨e, -, he⟩ := h.failed x hx
    exact ⟨e, he⟩
  refine ⟨h.fits.concat hfits, ?_, nofun, fun _ _ => ⟨s.now, ?_⟩, ?_, fun x hx => ?_, h.last, ?_,
    spaced_hurried _ rfl _, fun addr t ht => ?_, ?_⟩
  · have horder := h.order
    rw [hqueue, hsecondary, List.append_nil] at horder
    simpa [State.join_secondary, starts] using horder
  · simp [State.join_secondary]
  · simpa [State.join_secondary, ends] using h.ended
  · obtain ⟨e, he, hmem⟩ := h.failed x hx
    exact ⟨e, he, List.mem_append_left _ hmem⟩
  · simpa [State.join_secondary, ends, starts] using h.running
  · rcases List.mem_append.1 ht with ht | ht
    · exact h.early addr t ht
    · simp at ht
  · exact Nat.le_add_right _ _

theorem launch (h : Core primary second s heard) (hready : s.next_launch ≤ s.now) :
    Core primary second s.launch heard := by
  unfold State.launch
  cases hqueue : s.queue with
  | nil => simpa [hqueue] using h
  | cons addr queue =>
    have horder := h.order
    rw [hqueue] at horder
    have hfits : Fits primary s.started s.history (.Started addr s.now) := by
      refine ⟨h.spaced.mono hready, fun hle => ?_⟩
      cases hsecondary : s.secondary with
      | some more =>
        have hprimary := congrArg List.length (h.waiting more hsecondary).1
        rw [hqueue, List.length_append, List.length_cons] at hprimary
        omega
      | none =>
        refine h.joined hsecondary ?_
        rintro rfl
        have hlength := congrArg List.length horder
        simp only [List.length_append, List.length_cons, List.length_nil] at hlength
        omega
    refine ⟨h.fits.concat hfits, ?_, fun more hmore => ?_, fun hnone hsecond => ?_, ?_,
      fun x hx => ?_, h.last, ?_, ?_, fun addr' t ht => ?_, le_rfl⟩
    · simpa [starts] using horder
    · have hprimary := h.waiting more hmore
      rw [hqueue] at hprimary
      exact ⟨by simpa [starts] using hprimary.1, hprimary.2⟩
    · obtain ⟨t, ht⟩ := h.joined hnone hsecond
      exact ⟨t, List.mem_append_left _ ht⟩
    · simpa [ends] using h.ended
    · obtain ⟨e, he, hmem⟩ := h.failed x hx
      exact ⟨e, he, List.mem_append_left _ hmem⟩
    · have hone : (starts (s.history ++ [.Started addr s.now])).length =
          (starts s.history).length + 1 := by
        simp [starts]
      rw [hone, List.range_succ, ends_append]
      have hnone : ends [(.Started addr s.now : Happened A T)] = [] := rfl
      rw [hnone, List.append_nil, List.append_assoc]
      refine List.Perm.trans ?_ (h.running.append_right _)
      rw [List.append_assoc]
      exact List.perm_append_comm.append_left _
    · refine (h.spaced.mono (hready.trans (Nat.le_add_right _ _))).concat fun addr' t heq => ?_
      obtain ⟨-, rfl⟩ := Happened.Started.inj heq
      exact le_rfl
    · rcases List.mem_append.1 ht with ht | ht
      · exact h.early addr' t ht
      · obtain ⟨-, rfl⟩ := Happened.Started.inj (List.mem_singleton.1 ht)
        exact le_rfl

/-- A failure that is heard. -/
theorem hear (h : Core primary second s heard) {attempt : ℕ} {joined : Joined T}
    {finished : List (ℕ × Joined T)} (hfinished : s.finished = (attempt, joined) :: finished)
    {e : IoError} (he : joined.result = .error e) :
    Core primary second
      { s with
        finished := finished
        last := e
        next_launch := s.now
        history := s.history ++ [.Failed attempt e] } (heard ++ [(attempt, joined)]) := by
  have hended := h.ended
  rw [hfinished] at hended
  have hfits : Fits primary s.started s.history (.Failed attempt e) :=
    ⟨joined, by rw [hended]; simp, he⟩
  refine ⟨h.fits.concat hfits, ?_, fun more hmore => ?_, fun hnone hsecond => ?_, ?_,
    fun x hx => ?_, (last_error_concat heard he).symm, ?_, spaced_hurried _ rfl _,
    fun addr t ht => ?_, Nat.le_add_right _ _⟩
  · simpa [starts] using h.order
  · exact ⟨by simpa [starts] using (h.waiting more hmore).1, (h.waiting more hmore).2⟩
  · obtain ⟨t, ht⟩ := h.joined hnone hsecond
    exact ⟨t, List.mem_append_left _ ht⟩
  · simpa [ends] using hended
  · rcases List.mem_append.1 hx with hx | hx
    · obtain ⟨e, he, hmem⟩ := h.failed x hx
      exact ⟨e, he, List.mem_append_left _ hmem⟩
    · obtain rfl := List.mem_singleton.1 hx
      exact ⟨e, he, by simp⟩
  · simpa [ends, starts] using h.running
  · rcases List.mem_append.1 ht with ht | ht
    · exact h.early addr t ht
    · simp at ht

theorem attempt_ends (h : Core primary second s heard) (k : ℕ) (joined : Joined T) :
    Core primary second (s.attempt_ends k joined) heard := by
  unfold State.attempt_ends
  cases hrunning : s.running[k]? with
  | none => exact h
  | some attempt =>
    have hmem : attempt ∈ s.running := List.mem_of_getElem? hrunning
    have hperm : s.running.Perm (attempt :: s.running.eraseIdx k) := by
      obtain ⟨hk, hget⟩ := List.getElem?_eq_some_iff.1 hrunning
      rw [← hget]
      exact (List.getElem_cons_eraseIdx_perm hk).symm
    have hnodup : (s.running ++ (ends s.history).map Prod.fst).Nodup :=
      h.running.nodup_iff.2 List.nodup_range
    have hfits : Fits primary s.started s.history (.Ended attempt joined) := by
      refine ⟨List.mem_range.1 (h.running.mem_iff.1 (List.mem_append_left _ hmem)), fun hold => ?_⟩
      exact List.disjoint_of_nodup_append hnodup hmem hold
    refine ⟨h.fits.concat hfits, ?_, fun more hmore => ?_, fun hnone hsecond => ?_, ?_,
      fun x hx => ?_, h.last, ?_, h.spaced.concat nofun, fun addr t ht => ?_, h.soon⟩
    · simpa [starts] using h.order
    · exact ⟨by simpa [starts] using (h.waiting more hmore).1, (h.waiting more hmore).2⟩
    · obtain ⟨t, ht⟩ := h.joined hnone hsecond
      exact ⟨t, List.mem_append_left _ ht⟩
    · have hended := h.ended
      simp [ends] at hended ⊢
      rw [hended, List.append_assoc]
    · obtain ⟨e, he, hmem⟩ := h.failed x hx
      exact ⟨e, he, List.mem_append_left _ hmem⟩
    · have hone : ends [(.Ended attempt joined : Happened A T)] = [(attempt, joined)] := rfl
      have hnone : starts [(.Ended attempt joined : Happened A T)] = [] := rfl
      rw [ends_append, starts_append, hone, hnone, List.append_nil, List.map_append]
      refine List.Perm.trans ?_ h.running
      refine List.Perm.trans ?_ (hperm.symm.append_right _)
      rw [← List.append_assoc]
      exact List.perm_append_comm
    · rcases List.mem_append.1 ht with ht | ht
      · exact h.early addr t ht
      · simp at ht

theorem returns (h : Core primary second s heard) (result : Option (Except IoError T)) :
    Core primary second { s with returned := result } heard :=
  ⟨h.fits, h.order, h.waiting, h.joined, h.ended, h.failed, h.last, h.running, h.spaced, h.early,
    h.soon⟩

/-- The start of a race. -/
theorem start (primary second : List A) (now : ℕ) :
    Core (T := T) primary second
      { now := now, started := now, queue := primary
        secondary := (some second).filter (· ≠ []), running := [], finished := []
        next_launch := now, last := NO_ADDRESSES, returned := none, history := [] } [] := by
  have hnone : ∀ {H : Type} {before : List H} {x : H} {after : List H}, [] ≠ before ++ x :: after :=
    fun h => by simp at h
  refine ⟨fun before x after heq => absurd heq hnone, ?_, fun more hmore => ?_, fun hsome hne => ?_,
    rfl, nofun, rfl, .refl _, fun before addr t after heq => absurd heq hnone, nofun,
    Nat.le_add_right _ _⟩
  · by_cases hsecond : second = [] <;> simp [starts, hsecond, Option.filter]
  · have hfilter : (some second).filter (· ≠ []) = some more := hmore
    exact ⟨rfl, of_decide_eq_true (Option.filter_eq_some_iff.1 hfilter).2⟩
  · simp [hne] at hsome

end Core

/-- What holds at the `select!`: a branch is switched on, or the race has returned. -/
structure Keeps (primary second : List A) (s : State A T) (heard : List (ℕ × Joined T)) : Prop where
  core : Core primary second s heard
  waits : s.returned = none → s.queue ≠ [] ∨ s.under_way = true
  succeeds : ∀ value, s.returned = some (.ok value) → ∃ attempt joined finished,
    s.finished = (attempt, joined) :: finished ∧ joined.result = .ok value
  fails : ∀ e, s.returned = some (.error e) →
    s.queue = [] ∧ s.secondary = none ∧ s.under_way = false ∧ e = s.last

namespace Keeps

variable {primary second : List A} {s : State A T} {heard : List (ℕ × Joined T)}

theorem turn (h : Core primary second s heard) (hgoing : s.returned = none) :
    Keeps primary second s.turn heard := by
  unfold State.turn
  split_ifs with hidle
  · split
    · rename_i more hsecondary
      refine ⟨h.join_secondary hsecondary hidle.1 (.inr hidle.2), fun _ => .inl ?_,
        fun value hvalue => ?_, fun e he => ?_⟩
      · exact (h.waiting more hsecondary).2
      · exact absurd (hgoing.symm.trans hvalue) nofun
      · exact absurd (hgoing.symm.trans he) nofun
    · rename_i hsecondary
      refine ⟨h.returns _, nofun, nofun, fun e he => ?_⟩
      exact ⟨hidle.1, hsecondary, hidle.2, (Except.error.inj (Option.some.inj he)).symm⟩
  · refine ⟨h, fun _ => ?_, fun value hvalue => ?_, fun e he => ?_⟩
    · rw [not_and_or, Bool.not_eq_false] at hidle
      exact hidle
    · exact absurd (hgoing.symm.trans hvalue) nofun
    · exact absurd (hgoing.symm.trans he) nofun

theorem step (h : Keeps primary second s heard) (action : Action T) :
    ∃ heard, Keeps primary second (s.step action) heard := by
  unfold State.step
  split_ifs with hon
  swap
  · exact ⟨heard, h⟩
  simp only [Bool.and_eq_true, Option.isNone_iff_eq_none] at hon
  obtain ⟨⟨hgoing, hguard⟩, hready⟩ := hon
  have hnone : ∀ {r : Except IoError T}, s.returned ≠ some r := fun hr => by simp [hgoing] at hr
  cases action with
  | Pass time =>
    exact ⟨heard, h.core.pass time, h.waits, fun _ hvalue => absurd hvalue hnone,
      fun _ he => absurd he hnone⟩
  | Ends k joined =>
    have hsame : (s.attempt_ends k joined).returned = none ∧
        (s.attempt_ends k joined).queue = s.queue ∧
        (s.under_way = true → (s.attempt_ends k joined).under_way = true) := by
      unfold State.attempt_ends
      split
      · exact ⟨hgoing, rfl, id⟩
      · exact ⟨hgoing, rfl, fun _ => by simp [State.under_way]⟩
    refine ⟨heard, h.core.attempt_ends k joined, fun _ => ?_, fun value hvalue => ?_,
      fun e he => ?_⟩
    · rw [hsame.2.1]
      exact (h.waits hgoing).imp_right hsame.2.2
    · exact absurd (hsame.1.symm.trans hvalue) nofun
    · exact absurd (hsame.1.symm.trans he) nofun
  | Launch =>
    have hgoing' : s.launch.returned = none := by
      unfold State.launch
      split <;> exact hgoing
    exact ⟨heard, turn (h.core.launch (of_decide_eq_true hready)) hgoing'⟩
  | JoinNext =>
    show ∃ heard, Keeps primary second s.join_next.turn heard
    unfold State.join_next
    split
    · exact ⟨heard, turn h.core hgoing⟩
    · rename_i attempt joined finished hfinished
      split
      · rename_i value hresult
        have hturn : ({ s with returned := some (.ok value) } : State A T).turn =
            { s with returned := some (.ok value) } := by
          refine if_neg fun hidle => ?_
          simp [State.under_way, hfinished] at hidle
        rw [hturn]
        refine ⟨heard, h.core.returns _, nofun, fun value' hvalue => ?_, nofun⟩
        obtain rfl := Except.ok.inj (Option.some.inj hvalue)
        exact ⟨attempt, joined, finished, hfinished, hresult⟩
      · rename_i e hresult
        exact ⟨_, turn (h.core.hear hfinished hresult) hgoing⟩
  | JoinLate =>
    simp only [State.guard, Bool.and_eq_true, decide_eq_true_eq, Option.isSome_iff_exists] at hguard
    obtain ⟨⟨more, hsecondary⟩, hqueue⟩ := hguard
    simp only [State.join_late, hsecondary]
    exact ⟨heard, turn (h.core.join_secondary hsecondary hqueue
      (.inl (of_decide_eq_true hready))) hgoing⟩

end Keeps

end Race

end Rurge
