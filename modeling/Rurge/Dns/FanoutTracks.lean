import Rurge.Dns.Fanout

/-!
# What a fan-out comes to

A family knows what the outcomes heard of it make of it: the first valid answer decides it, and so
does the last upstream's empty one.  What a fan-out ends with is judged by these outcomes alone, in
the order they came.
-/

namespace Rurge

namespace Fanout

/-! ### What a reply says to a question -/

/-- A valid answer, an empty one, a failure, or nothing. -/
inductive Verdict
  | Valid (answer : Answer)
  | Empty
  | Failed (text : Str)
  | Silent

def judge (q : Question) : Reply → Verdict
  | .ok answer =>
    if answer.is_valid_for q then .Valid answer
    else if answer.is_empty_for q then .Empty
    else .Failed ("rcode ".toList ++ rcode_text answer.rcode)
  | .error .Timeout => .Silent
  | .error e => .Failed e.text

namespace Track

variable {t : Track} {u : Str} {reply : Reply} {n : ℕ}

theorem apply_decided (h : t.decided = true) : t.apply u reply n = t := if_pos h

/-- What a reply makes of a family that is not decided. -/
theorem apply_pending (h : t.decided = false) : t.apply u reply n =
    match judge t.question reply with
    | .Valid answer => { t with state := .Valid answer u }
    | .Empty =>
      { t with
        empties := t.empties.insert u
        state := if n ≤ (t.empties.insert u).length then .Empty else t.state }
    | .Failed text => { t with failures := t.failures ++ [(u, text)] }
    | .Silent => t := by
  unfold apply judge
  rw [if_neg (by simp [h])]
  rcases reply with e | answer
  · cases e <;> rfl
  · by_cases hvalid : answer.is_valid_for t.question
    · simp [hvalid]
    · by_cases hempty : answer.is_empty_for t.question <;> simp [hvalid, hempty]

@[simp] theorem question_apply : (t.apply u reply n).question = t.question := by
  by_cases h : t.decided = true
  · rw [apply_decided h]
  · rw [apply_pending (by simpa using h)]
    split <;> rfl

end Track

/-! ### A family and what was heard of it -/

/-- The outcomes of a family. -/
def of_family (q : Qtype) (heard : List Outcome) : List Outcome :=
  heard.filter fun o => o.qtype = q

section

variable (job : Job) (q : Qtype)

/-- What the job asks of a family. -/
def Job.question : Question := ⟨job.name, q⟩

/-- A family after the outcomes heard of it. -/
def Job.track (heard : List Outcome) : Track :=
  (of_family q heard).foldl (fun t o => t.apply o.upstream o.reply job.upstreams.length)
    (Track.new job.name q)

/-- Who answered the family empty. -/
def Job.said_empty (os : List Outcome) (u : Str) : Prop :=
  ∃ o ∈ os, o.upstream = u ∧ judge (job.question q) o.reply = .Empty

/-- No outcome is a valid answer, and some upstream has not answered empty. -/
def Job.Open (os : List Outcome) : Prop :=
  (∀ o ∈ os, ∀ answer, judge (job.question q) o.reply ≠ .Valid answer) ∧
    ∃ u ∈ job.upstreams, ¬ job.said_empty q os u

/-- The family's first valid answer is `answer`, from `u`, while some upstream had not answered
empty. -/
def Job.Answered (heard : List Outcome) (answer : Answer) (u : Str) : Prop :=
  ∃ os reply os', of_family q heard = os ++ ⟨u, q, reply⟩ :: os' ∧ job.Open q os ∧
    judge (job.question q) reply = .Valid answer

/-- An outcome of the family was a failure. -/
def Job.Failed (heard : List Outcome) : Prop :=
  ∃ o ∈ of_family q heard, ∃ text, judge (job.question q) o.reply = .Failed text

/-- Every upstream answered the family empty before there was a valid answer. -/
def Job.AllEmpty (heard : List Outcome) : Prop :=
  ∃ os os', of_family q heard = os ++ os' ∧
    (∀ o ∈ os, ∀ answer, judge (job.question q) o.reply ≠ .Valid answer) ∧
    ∀ u ∈ job.upstreams, job.said_empty q os u

/-- The family was answered empty: by every upstream before any valid answer, or, with no valid
answer at all, by some upstream and with no failure. -/
def Job.AnsweredEmpty (heard : List Outcome) : Prop :=
  job.AllEmpty q heard ∨
  (∀ o ∈ of_family q heard, ∀ answer, judge (job.question q) o.reply ≠ .Valid answer) ∧
    (∃ u, job.said_empty q (of_family q heard) u) ∧ ¬ job.Failed q heard

end

section

variable {job : Job} {q : Qtype} {heard os : List Outcome} {o : Outcome} {answer : Answer} {u : Str}

theorem of_family_snoc : of_family q (heard ++ [o]) =
    of_family q heard ++ if o.qtype = q then [o] else [] := by
  by_cases h : o.qtype = q <;> simp [of_family, h]

@[simp] theorem track_nil : job.track q [] = Track.new job.name q := rfl

theorem track_snoc : job.track q (heard ++ [o]) =
    if o.qtype = q then
      (job.track q heard).apply o.upstream o.reply job.upstreams.length
    else job.track q heard := by
  unfold Job.track
  rw [of_family_snoc]
  by_cases h : o.qtype = q <;> simp [h, List.foldl_append]

@[simp] theorem question_track : (job.track q heard).question = job.question q := by
  induction heard using List.reverseRecOn with
  | nil => rfl
  | append_singleton heard o ih =>
    rw [track_snoc]
    split
    · rw [Track.question_apply, ih]
    · exact ih

/-! ### What decides a family -/

theorem said_empty_snoc : job.said_empty q (os ++ [o]) u ↔ job.said_empty q os u ∨
    o.upstream = u ∧ judge (job.question q) o.reply = .Empty := by
  simp only [Job.said_empty, List.mem_append, List.mem_singleton]
  constructor
  · rintro ⟨o', ho' | rfl, h⟩
    · exact .inl ⟨o', ho', h⟩
    · exact .inr h
  · rintro (⟨o', ho', h⟩ | h)
    · exact ⟨o', .inl ho', h⟩
    · exact ⟨o, .inr rfl, h⟩

theorem said_empty_append (os' : List Outcome) (h : job.said_empty q os u) :
    job.said_empty q (os ++ os') u := by
  obtain ⟨o, ho, h⟩ := h
  exact ⟨o, List.mem_append_left _ ho, h⟩

theorem Job.Open.not_answered (h : job.Open q (of_family q heard)) :
    ¬ job.Answered q heard answer u := by
  rintro ⟨os, reply, os', hos, -, hvalid⟩
  exact h.1 ⟨u, q, reply⟩ (by simp [hos]) answer hvalid

theorem Job.Open.not_allEmpty (h : job.Open q (of_family q heard)) : ¬ job.AllEmpty q heard := by
  rintro ⟨os, os', hos, -, hall⟩
  obtain ⟨u, hu, hsaid⟩ := h.2
  exact hsaid (hos ▸ said_empty_append os' (hall u hu))

/-- What came first cannot be both a valid answer and the last of the empty ones. -/
theorem Job.Answered.not_allEmpty (h : job.Answered q heard answer u) : ¬ job.AllEmpty q heard := by
  obtain ⟨os, reply, os', hos, hopen, hvalid⟩ := h
  rintro ⟨ps, ps', hps, hnone, hall⟩
  have heq : os ++ ⟨u, q, reply⟩ :: os' = ps ++ ps' := hos ▸ hps
  rcases List.append_eq_append_iff.1 heq with ⟨as, rfl, has⟩ | ⟨as, rfl, -⟩
  · cases as with
    | nil =>
      obtain ⟨v, hv, hsaid⟩ := hopen.2
      exact hsaid (by simpa using hall v hv)
    | cons a as =>
      obtain ⟨rfl, -⟩ := List.cons.inj has
      exact hnone ⟨u, q, reply⟩ (by simp) answer hvalid
  · obtain ⟨v, hv, hsaid⟩ := hopen.2
    exact hsaid (said_empty_append as (hall v hv))

/-- There is one first valid answer. -/
theorem Job.Answered.unique {answer' : Answer} {u' : Str} (h : job.Answered q heard answer u)
    (h' : job.Answered q heard answer' u') : answer = answer' ∧ u = u' := by
  obtain ⟨os, reply, rest, hos, hopen, hvalid⟩ := h
  obtain ⟨os', reply', rest', hos', hopen', hvalid'⟩ := h'
  rcases List.append_eq_append_iff.1 (hos ▸ hos') with ⟨as, rfl, has⟩ | ⟨as, rfl, has⟩ <;>
    cases as with
    | nil =>
      obtain ⟨h, -⟩ := List.cons.inj has
      simp only [Outcome.mk.injEq] at h
      obtain ⟨rfl, -, rfl⟩ := h
      exact ⟨by simpa using hvalid.symm.trans hvalid', rfl⟩
    | cons a as =>
      obtain ⟨rfl, -⟩ := List.cons.inj has
      first
      | exact absurd hvalid (hopen'.1 ⟨u, q, reply⟩ (by simp) answer)
      | exact absurd hvalid' (hopen.1 ⟨u', q, reply'⟩ (by simp) answer')

/-- Outcomes of a family that leave `Answered` and `AllEmpty` as they are. -/
theorem Job.Answered.snoc (h : job.Answered q heard answer u) (o : Outcome) :
    job.Answered q (heard ++ [o]) answer u := by
  obtain ⟨os, reply, os', hos, h⟩ := h
  exact ⟨os, reply, os' ++ if o.qtype = q then [o] else [], by simp [of_family_snoc, hos], h⟩

theorem Job.AllEmpty.snoc (h : job.AllEmpty q heard) (o : Outcome) :
    job.AllEmpty q (heard ++ [o]) := by
  obtain ⟨os, os', hos, h⟩ := h
  exact ⟨os, os' ++ if o.qtype = q then [o] else [], by simp [of_family_snoc, hos], h⟩

/-- What a family knows of the outcomes heard of it. -/
def Knows (job : Job) (q : Qtype) (heard : List Outcome) (t : Track) : Prop :=
  match t.state with
  | .Pending => job.Open q (of_family q heard) ∧ t.empties.Nodup ∧
    (∀ u, u ∈ t.empties ↔ job.said_empty q (of_family q heard) u) ∧
    ∀ f, f ∈ t.failures ↔ ∃ o ∈ of_family q heard, o.upstream = f.1 ∧
      judge (job.question q) o.reply = .Failed f.2
  | .Valid answer u => job.Answered q heard answer u
  | .Empty => job.AllEmpty q heard

/-- The upstreams that answered a family empty are all of them when they are as many. -/
theorem all_said_empty_iff (hnodup : job.upstreams.Nodup)
    (hheard : ∀ o ∈ os, o.upstream ∈ job.upstreams) {empties : List Str} (hempties : empties.Nodup)
    (hmem : ∀ u, u ∈ empties ↔ job.said_empty q os u) :
    job.upstreams.length ≤ empties.length ↔ ∀ u ∈ job.upstreams, job.said_empty q os u := by
  have hsub : empties ⊆ job.upstreams := by
    intro u hu
    obtain ⟨o, ho, rfl, -⟩ := (hmem u).1 hu
    exact hheard o ho
  constructor
  · intro hlen u hu
    have hperm := (List.subperm_of_subset hempties hsub).perm_of_length_le hlen
    exact (hmem u).1 (hperm.mem_iff.2 hu)
  · intro hall
    exact (List.subperm_of_subset hnodup fun u hu => (hmem u).2 (hall u hu)).length_le

/-- An outcome that leaves a family open. -/
theorem Job.Open.snoc (h : job.Open q os)
    (hvalid : ∀ answer, judge (job.question q) o.reply ≠ .Valid answer)
    (hall : ¬ ∀ u ∈ job.upstreams, job.said_empty q (os ++ [o]) u) : job.Open q (os ++ [o]) := by
  refine ⟨fun o' ho' => ?_, by simpa using hall⟩
  rcases List.mem_append.1 ho' with ho' | ho'
  · exact h.1 o' ho'
  · obtain rfl := List.mem_singleton.1 ho'
    exact hvalid

/-- What a family knows when it is decided, it goes on knowing. -/
theorem Knows.decided {t : Track} (h : Knows job q heard t) (hdecided : t.decided = true)
    (o : Outcome) : Knows job q (heard ++ [o]) t := by
  unfold Knows Track.decided at *
  split at h
  · simp_all
  · exact Job.Answered.snoc h o
  · exact Job.AllEmpty.snoc h o

theorem Track.state_pending {t : Track} (h : t.decided = false) : t.state = .Pending := by
  unfold Track.decided at h
  split at h <;> simp_all

theorem Knows.open_of_pending {t : Track} (h : Knows job q heard t) (hdecided : t.decided = false) :
    job.Open q (of_family q heard) := by
  simp only [Knows, Track.state_pending hdecided] at h
  exact h.1

/-- What a family that is not decided learns from an outcome. -/
theorem Knows.pending {t : Track} (hnodup : job.upstreams.Nodup)
    (hheard : ∀ o' ∈ heard ++ [o], o'.upstream ∈ job.upstreams) (h : Knows job q heard t)
    (hquestion : t.question = job.question q) (hdecided : t.decided = false) (hq : o.qtype = q) :
    Knows job q (heard ++ [o]) (t.apply o.upstream o.reply job.upstreams.length) := by
  have hpending : t.state = .Pending := Track.state_pending hdecided
  have hos : of_family q (heard ++ [o]) = of_family q heard ++ [o] := by
    rw [of_family_snoc, if_pos hq]
  have hups : ∀ o' ∈ of_family q heard ++ [o], o'.upstream ∈ job.upstreams := by
    rw [← hos]
    exact fun o' ho' => hheard o' (List.mem_of_mem_filter ho')
  simp only [Knows, hpending] at h
  obtain ⟨hopen, hempties, hsaid, hfailed⟩ := h
  rw [Track.apply_pending hdecided, hquestion]
  cases hjudge : judge (job.question q) o.reply with
  | Valid answer =>
    refine ⟨of_family q heard, o.reply, [], ?_, hopen, hjudge⟩
    rw [hos, ← hq]
  | Empty =>
    have hmem : ∀ u, u ∈ t.empties.insert o.upstream ↔
        job.said_empty q (of_family q heard ++ [o]) u := by
      intro u
      rw [List.mem_insert_iff, said_empty_snoc, hsaid, or_comm, eq_comm (a := u)]
      simp [hjudge]
    have hnone : ∀ answer, judge (job.question q) o.reply ≠ .Valid answer := by simp [hjudge]
    have hiff := all_said_empty_iff hnodup hups (hempties.insert) hmem
    by_cases hlen : job.upstreams.length ≤ (t.empties.insert o.upstream).length
    · simp only [Knows, if_pos hlen]
      refine ⟨of_family q heard ++ [o], [], by simp [hos], fun o' ho' => ?_, hiff.1 hlen⟩
      rcases List.mem_append.1 ho' with ho' | ho'
      · exact hopen.1 o' ho'
      · obtain rfl := List.mem_singleton.1 ho'
        exact hnone
    · simp only [Knows, if_neg hlen, hpending, hos]
      refine ⟨hopen.snoc hnone fun hall => hlen (hiff.2 hall), hempties.insert, hmem, fun f => ?_⟩
      rw [hfailed]
      simp [or_and_right, exists_or, hjudge]
  | Failed text =>
    have hsame : ∀ u, job.said_empty q (of_family q heard ++ [o]) u ↔
        job.said_empty q (of_family q heard) u := by simp [said_empty_snoc, hjudge]
    simp only [Knows, hpending, hos, hsame]
    refine ⟨hopen.snoc (by simp [hjudge]) ?_, hempties, hsaid, fun f => ?_⟩
    · simpa [hsame] using hopen.2
    · simp only [List.mem_append, List.mem_singleton, hfailed, or_and_right, exists_or,
        exists_eq_left, hjudge, Verdict.Failed.injEq]
      exact or_congr_right (by rw [Prod.ext_iff, eq_comm (a := f.1), eq_comm (a := f.2)])
  | Silent =>
    have hsame : ∀ u, job.said_empty q (of_family q heard ++ [o]) u ↔
        job.said_empty q (of_family q heard) u := by simp [said_empty_snoc, hjudge]
    simp only [Knows, hpending, hos, hsame]
    refine ⟨hopen.snoc (by simp [hjudge]) ?_, hempties, hsaid, fun f => ?_⟩
    · simpa [hsame] using hopen.2
    · rw [hfailed]
      simp [or_and_right, exists_or, hjudge]

/-- A family knows what decided it, or who answered it empty and who failed. -/
theorem track_knows (hne : job.upstreams ≠ []) (hnodup : job.upstreams.Nodup)
    (hheard : ∀ o ∈ heard, o.upstream ∈ job.upstreams) :
    Knows job q heard (job.track q heard) := by
  induction heard using List.reverseRecOn with
  | nil =>
    obtain ⟨u, hu⟩ := List.exists_mem_of_ne_nil _ hne
    refine ⟨⟨by simp [of_family], u, hu, by simp [Job.said_empty, of_family]⟩, List.nodup_nil,
      fun u => ?_, fun f => ?_⟩ <;> simp [Track.new, Job.said_empty, of_family]
  | append_singleton heard o ih =>
    have ih := ih fun o' ho' => hheard o' (List.mem_append_left _ ho')
    rw [track_snoc]
    by_cases hq : o.qtype = q
    · rw [if_pos hq]
      by_cases hdecided : (job.track q heard).decided = true
      · rw [Track.apply_decided hdecided]
        exact ih.decided hdecided o
      · exact ih.pending hnodup hheard question_track (by simpa using hdecided) hq
    · rw [if_neg hq]
      unfold Knows Job.Answered Job.AllEmpty at ih ⊢
      rwa [of_family_snoc, if_neg hq, List.append_nil]

/-! ### The families at the end -/

/-- What a family has come to at the end. -/
def Settled (job : Job) (q : Qtype) (heard : List Outcome) (t : Track) : Prop :=
  match t.state with
  | .Valid answer u => job.Answered q heard answer u
  | .Empty => job.AnsweredEmpty q heard ∧ ∀ answer u, ¬ job.Answered q heard answer u
  | .Pending => ¬ job.AnsweredEmpty q heard ∧ (∀ answer u, ¬ job.Answered q heard answer u) ∧
    ∀ f, f ∈ t.failures ↔ ∃ o ∈ of_family q heard, o.upstream = f.1 ∧
      judge (job.question q) o.reply = .Failed f.2

theorem settled (hne : job.upstreams ≠ []) (hnodup : job.upstreams.Nodup)
    (hheard : ∀ o ∈ heard, o.upstream ∈ job.upstreams) :
    Settled job q heard (job.track q heard).settle_empty := by
  have hknows := track_knows (q := q) hne hnodup hheard
  unfold Knows at hknows
  cases hstate : (job.track q heard).state with
  | Valid answer u =>
    simp only [hstate] at hknows
    simpa [Settled, Track.settle_empty, Track.decided, hstate] using hknows
  | Empty =>
    simp only [hstate] at hknows
    have hnone : ∀ answer u, ¬ job.Answered q heard answer u :=
      fun answer u h => h.not_allEmpty hknows
    simpa [Settled, Track.settle_empty, Track.decided, hstate] using ⟨.inl hknows, hnone⟩
  | Pending =>
    simp only [hstate] at hknows
    obtain ⟨hopen, -, hsaid, hfailed⟩ := hknows
    have hnone : ∀ answer u, ¬ job.Answered q heard answer u := fun answer u => hopen.not_answered
    have hfailures : (job.track q heard).failures = [] ↔ ¬ job.Failed q heard := by
      rw [List.eq_nil_iff_forall_not_mem]
      simp only [hfailed, Job.Failed, not_exists, not_and]
      exact ⟨fun h o ho text => h (o.upstream, text) o ho rfl, fun h f o ho _ => h o ho f.2⟩
    have hempties : (job.track q heard).empties = [] ↔
        ¬ ∃ u, job.said_empty q (of_family q heard) u := by
      simp [List.eq_nil_iff_forall_not_mem, hsaid]
    have hanswered : job.AnsweredEmpty q heard ↔
        (job.track q heard).empties ≠ [] ∧ (job.track q heard).failures = [] := by
      rw [Ne, hempties, not_not, hfailures]
      exact ⟨fun h => (h.resolve_left hopen.not_allEmpty).2, fun h => .inr ⟨hopen.1, h⟩⟩
    have hsettle : (job.track q heard).settle_empty =
        if (job.track q heard).empties ≠ [] ∧ (job.track q heard).failures = [] then
          { job.track q heard with state := .Empty } else job.track q heard := by
      simp [Track.settle_empty, Track.decided, hstate]
    rw [hsettle]
    by_cases h : (job.track q heard).empties ≠ [] ∧ (job.track q heard).failures = []
    · rw [if_pos h]
      exact ⟨hanswered.2 h, hnone⟩
    · rw [if_neg h]
      simp only [Settled, hstate]
      exact ⟨fun hempty => h (hanswered.1 hempty), hnone, hfailed⟩

/-! ### The result -/

/-- The addresses of a family in an answer, with the time each is good for. -/
def Answer.of_type (a : Answer) : Qtype → List (IpAddr × UInt32)
  | .A => a.v4.map fun r => (.v4 r.1, r.2)
  | .Aaaa => a.v6.map fun r => (.v6 r.1, r.2)

/-- The addresses of a family in what a fan-out found. -/
def Answers.of_type (a : Answers) : Qtype → List (IpAddr × UInt32)
  | .A => a.v4.map fun r => (.v4 r.1, r.2)
  | .Aaaa => a.v6.map fun r => (.v6 r.1, r.2)

/-- What a fan-out ends with, judged by the outcomes it heard.

It succeeds where some family had a valid answer while it was open, and each family's addresses are
those of that answer, none where there was none.  Otherwise the answer is empty where some family
was answered empty; the upstreams failed where one did, and it is these failures that are told; and
it timed out where none did. -/
def Job.Judged (job : Job) (heard : List Outcome) : Except FanoutError Answers → Prop
  | .ok answers =>
    (∃ q ∈ job.families, ∃ answer u, job.Answered q heard answer u) ∧
    (∀ q ∈ job.families, ∀ answer u, job.Answered q heard answer u →
      answers.of_type q = answer.of_type q) ∧
    ∀ q, (q ∈ job.families → ∀ answer u, ¬ job.Answered q heard answer u) →
      answers.of_type q = []
  | .error e =>
    (∀ q ∈ job.families, ∀ answer u, ¬ job.Answered q heard answer u) ∧ match e with
    | .EmptyAnswer => ∃ q ∈ job.families, job.AnsweredEmpty q heard
    | .AllFailed list => (∀ q ∈ job.families, ¬ job.AnsweredEmpty q heard) ∧ list ≠ [] ∧
      ∀ f, f ∈ list ↔ ∃ q ∈ job.families, ∃ o ∈ of_family q heard, o.upstream = f.1 ∧
        judge (job.question q) o.reply = .Failed f.2
    | .Timeout => (∀ q ∈ job.families, ¬ job.AnsweredEmpty q heard) ∧
      ∀ q ∈ job.families, ¬ job.Failed q heard

/-- The addresses gathered from a track. -/
def Track.of_type (t : Track) (rest : List (IpAddr × UInt32)) (q : Qtype) :
    List (IpAddr × UInt32) :=
  match t.state with
  | .Valid answer _ => answer.of_type q
  | _ => rest

theorem gather_of_type (g : Gathered) (t : Track) : (gather g t).answers.of_type q =
    if q = t.question.qtype then t.of_type (g.answers.of_type q) q else g.answers.of_type q := by
  unfold gather Track.of_type
  cases t.state with
  | Pending => simp [Answers.of_type]
  | Empty => simp
  | Valid answer u =>
    cases q <;> cases h : t.question.qtype <;>
      simp only [Answers.of_type, Answer.of_type, reduceCtorEq, if_true, if_false] <;> split <;> rfl

section

variable (f : Qtype → Track) (g : Gathered) (qs : List Qtype)

/-- What is gathered from the tracks of some families. -/
def gathered : Gathered := (qs.map f).foldl gather g

theorem gathered_of_type (hf : ∀ q, (f q).question.qtype = q) (hnodup : qs.Nodup) :
    (gathered f g qs).answers.of_type q =
      if q ∈ qs then (f q).of_type (g.answers.of_type q) q else g.answers.of_type q := by
  induction qs generalizing g with
  | nil => rfl
  | cons q' qs ih =>
    obtain ⟨hq', hnodup⟩ := List.nodup_cons.1 hnodup
    refine (ih (gather g (f q')) hnodup).trans ?_
    rw [gather_of_type, hf]
    by_cases h : q = q'
    · subst h
      simp [hq']
    · simp [h]

theorem gathered_any_valid : (gathered f g qs).any_valid = true ↔
    g.any_valid = true ∨ ∃ q ∈ qs, ∃ answer u, (f q).state = .Valid answer u := by
  induction qs generalizing g with
  | nil => simp [gathered]
  | cons q' qs ih =>
    refine (ih (gather g (f q'))).trans ?_
    unfold gather
    cases h : (f q').state <;> simp [h]

theorem gathered_any_empty : (gathered f g qs).any_empty = true ↔
    g.any_empty = true ∨ ∃ q ∈ qs, (f q).state = .Empty := by
  induction qs generalizing g with
  | nil => simp [gathered]
  | cons q' qs ih =>
    refine (ih (gather g (f q'))).trans ?_
    unfold gather
    cases h : (f q').state <;> simp [h]

theorem mem_gathered_failures {x : Str × Str} : x ∈ (gathered f g qs).failures ↔
    x ∈ g.failures ∨ ∃ q ∈ qs, (f q).state = .Pending ∧ x ∈ (f q).failures := by
  induction qs generalizing g with
  | nil => simp [gathered]
  | cons q' qs ih =>
    refine (ih (gather g (f q'))).trans ?_
    unfold gather
    cases h : (f q').state <;> simp [h, or_assoc]

end

theorem mem_eraseReps {α : Type*} [BEq α] [LawfulBEq α] {a : α} {l : List α} :
    a ∈ l.eraseReps ↔ a ∈ l := by
  have hloop : ∀ (as : List α) (b : α) (acc : List α),
      a ∈ List.eraseRepsBy.loop (· == ·) b as acc ↔ a = b ∨ a ∈ as ∨ a ∈ acc := by
    intro as
    induction as with
    | nil => simp [List.eraseRepsBy.loop, or_comm]
    | cons c as ih =>
      intro b acc
      unfold List.eraseRepsBy.loop
      split
      · next h =>
        obtain rfl := eq_of_beq h
        rw [ih, List.mem_cons]
        tauto
      · rw [ih, List.mem_cons, List.mem_cons]
        tauto
  cases l with
  | nil => rfl
  | cons b as => simpa [List.eraseReps, List.eraseRepsBy] using hloop as b []

theorem families_nodup : job.families.Nodup := by
  unfold Job.families
  exact List.Nodup.filter _ (by decide)

namespace Settled

variable {t : Track}

theorem valid_iff (h : Settled job q heard t) :
    t.state = .Valid answer u ↔ job.Answered q heard answer u := by
  unfold Settled at h
  cases hstate : t.state with
  | Pending =>
    simp only [hstate] at h
    simp [h.2.1]
  | Empty =>
    simp only [hstate] at h
    simp [h.2]
  | Valid answer' u' =>
    simp only [hstate] at h
    rw [State.Valid.injEq]
    exact ⟨fun ⟨ha, hu⟩ => ha ▸ hu ▸ h, h.unique⟩

theorem empty_iff (h : Settled job q heard t)
    (hnone : ∀ answer u, ¬ job.Answered q heard answer u) :
    t.state = .Empty ↔ job.AnsweredEmpty q heard := by
  unfold Settled at h
  cases hstate : t.state with
  | Pending =>
    simp only [hstate] at h
    simp [h.1]
  | Empty =>
    simp only [hstate] at h
    simp [h.1]
  | Valid answer' u' =>
    simp only [hstate] at h
    exact absurd h (hnone answer' u')

theorem pending (h : Settled job q heard t) (hnone : ∀ answer u, ¬ job.Answered q heard answer u)
    (hempty : ¬ job.AnsweredEmpty q heard) : t.state = .Pending ∧
      ∀ f, f ∈ t.failures ↔ ∃ o ∈ of_family q heard, o.upstream = f.1 ∧
        judge (job.question q) o.reply = .Failed f.2 := by
  unfold Settled at h
  cases hstate : t.state with
  | Pending =>
    simp only [hstate] at h
    exact ⟨rfl, h.2.2⟩
  | Empty =>
    simp only [hstate] at h
    exact absurd h.1 hempty
  | Valid answer' u' =>
    simp only [hstate] at h
    exact absurd h (hnone answer' u')

end Settled

/-- **The tracks of a fan-out end with what the outcomes heard make of it.** -/
theorem conclude_judged (partial_ : Bool) (hne : job.upstreams ≠ []) (hnodup : job.upstreams.Nodup)
    (hheard : ∀ o ∈ heard, o.upstream ∈ job.upstreams) :
    job.Judged heard (conclude partial_ (job.families.map fun q => job.track q heard)) := by
  let f : Qtype → Track := fun q => (job.track q heard).settle_empty
  let g : Gathered := gathered f ⟨⟨[], [], [], partial_, false⟩, false, false, []⟩ job.families
  have hf : ∀ q, Settled job q heard (f q) := fun q => settled hne hnodup hheard
  have hquestion : ∀ q, (f q).question.qtype = q := by
    intro q
    have : (f q).question = (job.track q heard).question := by
      simp only [f, Track.settle_empty]
      split <;> rfl
    rw [this, question_track]
    rfl
  have hvalid : g.any_valid = true ↔
      ∃ q ∈ job.families, ∃ answer u, job.Answered q heard answer u := by
    simp only [g, gathered_any_valid, (hf _).valid_iff, Bool.false_eq_true, false_or]
  have htype : ∀ q, g.answers.of_type q = if q ∈ job.families then (f q).of_type [] q else [] := by
    intro q
    refine (gathered_of_type f _ _ hquestion families_nodup).trans ?_
    cases q <;> rfl
  have hconclude : conclude partial_ (job.families.map fun q => job.track q heard) =
      if g.any_valid then .ok g.answers
      else if g.any_empty then .error .EmptyAnswer
      else if g.failures ≠ [] then .error (.AllFailed (g.failures.mergeSort before).eraseReps)
      else .error .Timeout := by
    simp only [conclude, g, gathered, List.map_map]
    rfl
  rw [hconclude]
  by_cases hany : g.any_valid = true
  · rw [if_pos hany]
    refine ⟨hvalid.1 hany, fun q hq answer u h => ?_, fun q h => ?_⟩
    · rw [htype, if_pos hq, Track.of_type, (hf q).valid_iff.2 h]
    · rw [htype]
      split
      case isTrue hq =>
        cases hstate : (f q).state with
        | Valid answer u => exact absurd ((hf q).valid_iff.1 hstate) (h hq answer u)
        | Pending => rw [Track.of_type, hstate]
        | Empty => rw [Track.of_type, hstate]
      case isFalse => rfl
  rw [if_neg hany]
  have hnone : ∀ q ∈ job.families, ∀ answer u, ¬ job.Answered q heard answer u := by
    intro q hq answer u h
    exact hany (hvalid.2 ⟨q, hq, answer, u, h⟩)
  have hempty : g.any_empty = true ↔ ∃ q ∈ job.families, job.AnsweredEmpty q heard := by
    simp only [g, gathered_any_empty, Bool.false_eq_true, false_or]
    exact exists_congr fun q => and_congr_right fun hq => (hf q).empty_iff (hnone q hq)
  by_cases hany : g.any_empty = true
  · rw [if_pos hany]
    exact ⟨hnone, hempty.1 hany⟩
  rw [if_neg hany]
  have hnotEmpty : ∀ q ∈ job.families, ¬ job.AnsweredEmpty q heard :=
    fun q hq h => hany (hempty.2 ⟨q, hq, h⟩)
  have hfailures : ∀ x, x ∈ g.failures ↔ ∃ q ∈ job.families, ∃ o ∈ of_family q heard,
      o.upstream = x.1 ∧ judge (job.question q) o.reply = .Failed x.2 := by
    intro x
    simp only [g, mem_gathered_failures, List.not_mem_nil, false_or]
    refine exists_congr fun q => and_congr_right fun hq => ?_
    obtain ⟨hpending, hmem⟩ := (hf q).pending (hnone q hq) (hnotEmpty q hq)
    rw [hmem]
    exact and_iff_right hpending
  by_cases hany : g.failures = []
  · rw [if_neg (not_not.2 hany)]
    refine ⟨hnone, hnotEmpty, fun q hq => ?_⟩
    rintro ⟨o, ho, text, h⟩
    have := (hfailures (o.upstream, text)).2 ⟨q, hq, o, ho, rfl, h⟩
    simp [hany] at this
  · rw [if_pos hany]
    have hmem : ∀ x, x ∈ (g.failures.mergeSort before).eraseReps ↔ x ∈ g.failures := by
      intro x
      rw [mem_eraseReps, List.mem_mergeSort]
    refine ⟨hnone, hnotEmpty, fun h => ?_, fun x => (hmem x).trans (hfailures x)⟩
    obtain ⟨x, hx⟩ := List.exists_mem_of_ne_nil _ hany
    simpa [h] using (hmem x).2 hx

end

end Fanout

end Rurge
