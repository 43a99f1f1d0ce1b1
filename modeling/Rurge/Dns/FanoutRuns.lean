import Rurge.Dns.FanoutTracks

/-!
# The runs of a fan-out

Whatever comes and in whatever order, the tracks are what the outcomes heard make of them, every
event takes the loop closer to its end, and where the loop gets to run in time it ends by the
deadline.
-/

namespace Rurge

namespace Fanout

variable {job : Job} {s : Loop} {e : Event} {q : Qtype}

namespace Job

theorem attempts_pos : 0 < job.attempts := by
  unfold attempts
  omega

/-- How many queries a round may send. -/
def width (job : Job) : ℕ := job.upstreams.length * job.families.length

end Job

/-! ### An outcome and the tracks -/

/-- An outcome goes to its family. -/
theorem apply_tracks (heard : List Outcome) (o : Outcome) {qs : List Qtype} (hnodup : qs.Nodup) :
    Loop.apply job o (qs.map fun q => job.track q heard) =
      qs.map fun q => job.track q (heard ++ [o]) := by
  induction qs with
  | nil => rfl
  | cons q qs ih =>
    obtain ⟨hq, hnodup⟩ := List.nodup_cons.1 hnodup
    have hfamily : (job.track q heard).question.qtype = q := by rw [question_track]; rfl
    simp only [List.map_cons, Loop.apply, hfamily]
    by_cases h : q = o.qtype
    · have hrest : qs.map (fun q => job.track q (heard ++ [o])) =
          qs.map fun q => job.track q heard := by
        refine List.map_congr_left fun q' hq' => ?_
        rw [track_snoc, if_neg (by rintro rfl; exact hq (h ▸ hq'))]
      rw [if_pos h, track_snoc, if_pos h.symm, hrest]
    · rw [if_neg h, track_snoc, if_neg (Ne.symm h), ih hnodup]

/-! ### The queries of a round -/

namespace Loop

theorem mem_queries {tracks : List Track} {p : ℕ × Qtype} : p ∈ queries job tracks ↔
    p.1 < job.upstreams.length ∧ ∃ t ∈ tracks, t.decided = false ∧ t.question.qtype = p.2 := by
  obtain ⟨i, q⟩ := p
  simp only [queries, List.mem_flatMap, List.mem_range, List.mem_map, List.mem_filter,
    Bool.not_eq_true', Prod.mk.injEq]
  constructor
  · rintro ⟨j, hj, t, ⟨ht, hdecided⟩, rfl, hq⟩
    exact ⟨hj, t, ht, hdecided, hq⟩
  · rintro ⟨hi, t, ht, hdecided, hq⟩
    exact ⟨i, hi, t, ⟨ht, hdecided⟩, rfl, hq⟩

theorem length_queries_le {tracks : List Track} :
    (queries job tracks).length ≤ job.upstreams.length * tracks.length := by
  simp only [queries, List.length_flatMap, List.length_map, List.map_const', List.length_range,
    List.sum_replicate, smul_eq_mul]
  exact Nat.mul_le_mul_left _ (List.length_filter_le ..)

theorem nodup_queries {tracks : List Track} (h : (tracks.map (·.question.qtype)).Nodup) :
    (queries job tracks).Nodup := by
  refine List.nodup_flatMap.2 ⟨fun i _ => ?_, ?_⟩
  · have : ((tracks.filter fun t => !t.decided).map (·.question.qtype)).Nodup :=
      h.sublist (List.filter_sublist.map _)
    simpa [List.map_map, Function.comp_def] using
      this.map (f := fun q => (i, q)) fun a b hab => (Prod.mk.inj hab).2
  · refine List.Pairwise.imp ?_ List.nodup_range
    intro i j hij
    simp only [Function.onFun, List.disjoint_left, List.mem_map]
    rintro _ ⟨t, -, rfl⟩ ⟨t', -, h⟩
    exact hij (Prod.mk.inj h).1.symm

/-! ### What holds in every state -/

/-- The loop of a job that has upstreams, in any state it comes to. -/
structure Sound (job : Job) (s : Loop) : Prop where
  tracks : s.tracks = job.families.map fun q => job.track q s.heard
  heard : ∀ o ∈ s.heard, o.upstream ∈ job.upstreams
  set : ∀ p ∈ s.set, p.1 < job.upstreams.length
  round : s.round ≤ job.attempts
  next_send : s.next_send = job.start + job.opts.resend * s.round
  sent : ∀ p, s.sent.count p ≤ s.round
  result : ∀ r, s.result = some r → r = conclude s.partial_ s.tracks

/-- How far the loop is from its end. -/
def left (job : Job) (s : Loop) : ℕ :=
  if s.result.isSome then 0 else (job.attempts - s.round) * (job.width + 1) + s.set.length + 1

namespace Sound

theorem length_queries_le (h : Sound job s) : (queries job s.tracks).length ≤ job.width := by
  have : (queries job s.tracks).length ≤ job.upstreams.length * s.tracks.length :=
    Loop.length_queries_le
  rwa [h.tracks, List.length_map, ← h.tracks] at this

theorem count_queries_le (h : Sound job s) (p : ℕ × Qtype) :
    (queries job s.tracks).count p ≤ 1 := by
  refine List.nodup_iff_count_le_one.1 (nodup_queries ?_) p
  simpa [h.tracks, List.map_map, Function.comp_def, Job.question] using families_nodup

theorem send (h : Sound job s) (hresult : s.result = none) : Sound job (send job s) := by
  unfold Loop.send
  split
  case isFalse => exact h
  case isTrue hsend =>
    refine ⟨h.tracks, h.heard, fun p hp => ?_, hsend.1, rfl, fun p => ?_, by simp [hresult]⟩
    · rcases List.mem_append.1 hp with hp | hp
      · exact h.set p hp
      · exact (mem_queries.1 hp).1
    · have hold := h.sent p
      have hnew := h.count_queries_le p
      refine (List.count_append ..).trans_le ?_
      exact Nat.add_le_add hold hnew

theorem finish (h : Sound job s) : Sound job s.finish :=
  ⟨h.tracks, h.heard, h.set, h.round, h.next_send, h.sent, fun r hr => by
    simpa [Loop.finish, eq_comm] using hr⟩

theorem turn (h : Sound job s) (hresult : s.result = none) : Sound job (turn job s) := by
  unfold Loop.turn
  dsimp only
  split
  · exact (h.send hresult).finish
  · exact h.send hresult

theorem start : Sound job ⟨job.start, 0, job.start, false, job.tracks, [], [], [], none⟩ := by
  refine ⟨?_, ?_, ?_, ?_, ?_, ?_, ?_⟩ <;> simp [Job.tracks]

theorem begin (hne : job.upstreams ≠ []) : Sound job (begin job) := by
  unfold Loop.begin
  rw [if_neg hne]
  exact start.turn rfl

/-- What an event makes of the loop: it wakes it, at its time and with what came taken in, and the
loop takes its next turn or, at a timer, ends. -/
theorem woken (h : Sound job s) (he : s.Awaits job e) : ∃ s', Sound job s' ∧ s'.result = none ∧
    s'.now = e.at_ ∧ s'.round = s.round ∧ s'.next_send = s.next_send ∧ s'.sent = s.sent ∧
    (s'.set.length < s.set.length ∧ s.step job e = Loop.turn job s' ∨
      s'.set = s.set ∧ s.tick job ≤ e.at_ ∧ (s.step job e = s'.finish ∨
        s'.round < job.attempts ∧ s'.now < job.deadline ∧ s.step job e = Loop.turn job s')) := by
  obtain ⟨hresult, hnow, he⟩ := he
  cases e with
  | joins i reply at_ =>
    simp only at he
    have hget : s.set[i]? = some s.set[i] := List.getElem?_eq_getElem he
    simp only [Loop.step, hget]
    set o : Outcome := ⟨job.upstreams.getD s.set[i].1 [], s.set[i].2, reply⟩ with ho
    refine ⟨{ s with
      now := at_
      set := s.set.eraseIdx i
      tracks := Loop.apply job o s.tracks
      heard := s.heard ++ [o] }, ⟨?_, fun o' ho' => ?_, fun p hp => ?_, h.round, h.next_send,
        h.sent, ?_⟩, hresult,
      rfl, rfl, rfl, rfl, .inl ⟨?_, rfl⟩⟩
    · dsimp only
      rw [h.tracks, apply_tracks s.heard _ families_nodup]
    · rcases List.mem_append.1 ho' with ho' | ho'
      · exact h.heard o' ho'
      · obtain rfl := List.mem_singleton.1 ho'
        have := h.set _ (List.getElem_mem he)
        simp [ho, List.getD_eq_getElem?_getD, this]
    · exact h.set p (List.mem_of_mem_eraseIdx hp)
    · simp [hresult]
    · dsimp only
      rw [List.length_eraseIdx_of_lt he]
      omega
  | dies i at_ =>
    simp only at he
    refine ⟨{ s with now := at_, set := s.set.eraseIdx i },
      ⟨h.tracks, h.heard, fun p hp => h.set p (List.mem_of_mem_eraseIdx hp), h.round,
      h.next_send, h.sent, h.result⟩, hresult, rfl, rfl, rfl, rfl, .inl ⟨?_, rfl⟩⟩
    dsimp only
    rw [List.length_eraseIdx_of_lt he]
    omega
  | ticks at_ =>
    have hlater : Sound job { s with now := at_ } := ⟨h.tracks, h.heard, h.set, h.round,
      h.next_send, h.sent, h.result⟩
    simp only [Loop.step, Loop.ticks]
    split
    · exact ⟨_, hlater, hresult, rfl, rfl, rfl, rfl, .inr ⟨rfl, he, .inl rfl⟩⟩
    case isFalse hend =>
      rw [not_or, not_le, not_le] at hend
      split
      · exact ⟨{ s with now := at_, partial_ := true }, ⟨h.tracks, h.heard, h.set, h.round,
          h.next_send, h.sent, by simp [hresult]⟩, hresult, rfl, rfl, rfl, rfl,
          .inr ⟨rfl, he, .inl rfl⟩⟩
      · exact ⟨_, hlater, hresult, rfl, rfl, rfl, rfl, .inr ⟨rfl, he, .inr ⟨hend.1, hend.2, rfl⟩⟩⟩

theorem step (h : Sound job s) (he : s.Awaits job e) : Sound job (s.step job e) := by
  obtain ⟨s', h', hresult, -, -, -, -, ⟨-, heq⟩ | ⟨-, -, heq | ⟨-, -, heq⟩⟩⟩ := h.woken he
  · exact heq ▸ h'.turn hresult
  · exact heq ▸ h'.finish
  · exact heq ▸ h'.turn hresult

end Sound

/-! ### Every event takes the loop closer to its end -/

theorem left_eq (hresult : s.result = none) :
    left job s = (job.attempts - s.round) * (job.width + 1) + s.set.length + 1 := by
  simp [left, hresult]

/-- A loop that sends is closer to its end, whatever it sends. -/
theorem left_send_lt (h : Sound job s) (hresult : s.result = none)
    (hsend : s.round < job.attempts ∧ s.next_send ≤ s.now ∧ s.now < job.deadline) :
    left job (send job s) < left job s := by
  have hwidth := h.length_queries_le
  have hround : job.attempts - s.round = job.attempts - (s.round + 1) + 1 := by omega
  have hwaits : (send job s).result = none := by
    unfold Loop.send
    rwa [if_pos hsend]
  rw [left_eq hwaits, left_eq hresult, hround, Nat.add_mul]
  simp only [Loop.send, if_pos hsend, List.length_append]
  omega

theorem left_send_le (h : Sound job s) (hresult : s.result = none) :
    left job (send job s) ≤ left job s := by
  by_cases hsend : s.round < job.attempts ∧ s.next_send ≤ s.now ∧ s.now < job.deadline
  · exact (left_send_lt h hresult hsend).le
  · unfold Loop.send
    rw [if_neg hsend]

theorem left_turn_le : left job (turn job s) ≤ left job (send job s) := by
  unfold Loop.turn
  dsimp only
  split
  · simp [left, Loop.finish]
  · exact le_rfl

theorem left_step_lt (h : Sound job s) (he : s.Awaits job e) :
    left job (s.step job e) < left job s := by
  have hpos : 0 < left job s := by
    rw [left_eq he.1]
    omega
  obtain ⟨s', h', hresult, hnow, hround, hnext, -,
    ⟨hset, heq⟩ | ⟨hset, htick, heq | ⟨hmore, hin, heq⟩⟩⟩ :=
    h.woken he
  · have hclose : left job s' < left job s := by
      rw [left_eq hresult, left_eq he.1, hround]
      omega
    exact heq ▸ (left_turn_le.trans (left_send_le h' hresult)).trans_lt hclose
  · rw [heq]
    simpa [left, Loop.finish] using hpos
  · have hdue : s'.next_send ≤ s'.now := by
      rw [hnext, hnow]
      rwa [Loop.tick, if_pos (hround ▸ hmore)] at htick
    have hsame : left job s' = left job s := by rw [left_eq hresult, left_eq he.1, hround, hset]
    rw [heq, ← hsame]
    exact left_turn_le.trans_lt (left_send_lt h' hresult ⟨hmore, hdue, hin⟩)

/-! ### What is sent, and when the loop ends -/

/-- A turn asks only of families that are open. -/
theorem turn_sends (h : Sound job s) (hne : job.upstreams ≠ []) (hnodup : job.upstreams.Nodup)
    {p : ℕ × Qtype} (hp : s.sent.count p < (turn job s).sent.count p) :
    job.Open p.2 (of_family p.2 (turn job s).heard) := by
  have hturn : (turn job s).sent = (send job s).sent ∧ (turn job s).heard = (send job s).heard := by
    unfold Loop.turn
    dsimp only
    split <;> exact ⟨rfl, rfl⟩
  rw [hturn.1] at hp
  rw [hturn.2]
  unfold Loop.send at hp ⊢
  split at hp
  case isFalse => exact absurd hp (lt_irrefl _)
  case isTrue hsend =>
    rw [if_pos hsend]
    have hmem : p ∈ queries job s.tracks := by
      rw [← List.count_pos_iff]
      simp only [List.count_append] at hp
      omega
    obtain ⟨-, t, ht, hdecided, hfamily⟩ := mem_queries.1 hmem
    rw [h.tracks, List.mem_map] at ht
    obtain ⟨q, -, rfl⟩ := ht
    have hq : q = p.2 := by rw [← hfamily, question_track]; rfl
    exact hq ▸ (track_knows hne hnodup h.heard).open_of_pending hdecided

theorem step_sends (h : Sound job s) (he : s.Awaits job e) (hne : job.upstreams ≠ [])
    (hnodup : job.upstreams.Nodup) {p : ℕ × Qtype}
    (hp : s.sent.count p < (s.step job e).sent.count p) :
    job.Open p.2 (of_family p.2 (s.step job e).heard) := by
  obtain ⟨s', h', -, -, -, -, hsent, hcase⟩ := h.woken he
  rw [← hsent] at hp
  obtain ⟨-, heq⟩ | ⟨-, -, heq | ⟨-, -, heq⟩⟩ := hcase
  · rw [heq] at hp ⊢
    exact turn_sends h' hne hnodup hp
  · rw [heq] at hp
    exact absurd hp (lt_irrefl _)
  · rw [heq] at hp ⊢
    exact turn_sends h' hne hnodup hp

/-- The loop gets to run when its timer is due, if not before. -/
def Prompt (job : Job) (s : Loop) (e : Event) : Prop := e.at_ ≤ s.tick job

theorem Sound.tick_le_deadline (h : Sound job s) : s.tick job ≤ job.deadline := by
  unfold tick
  split
  · rw [h.next_send, Job.deadline]
    exact Nat.add_le_add_left (Nat.mul_le_mul_left _ h.round) _
  · exact le_rfl

/-- The timer is never set to a time that is gone. -/
theorem Sound.now_le_tick_turn (h : Sound job s) (hnow : s.now ≤ s.tick job) :
    (Loop.turn job s).now ≤ (Loop.turn job s).tick job := by
  have hsend : (Loop.send job s).now ≤ (Loop.send job s).tick job := by
    unfold Loop.send
    split
    case isFalse => exact hnow
    case isTrue hsend =>
      rw [tick, if_pos hsend.1, h.next_send] at hnow
      simp only [tick]
      split
      · exact hnow.trans (Nat.add_le_add_left (Nat.mul_le_mul_left _ (Nat.le_succ _)) _)
      · exact hsend.2.2.le
  unfold Loop.turn
  dsimp only
  split <;> exact hsend

theorem Sound.now_le_tick (h : Sound job s) (he : s.Awaits job e) (hprompt : Prompt job s e) :
    (s.step job e).now ≤ (s.step job e).tick job := by
  obtain ⟨s', h', -, hnow, hround, hnext, -, hcase⟩ := h.woken he
  have hin : s'.now ≤ s'.tick job := by
    rw [hnow, tick, hround, hnext]
    exact hprompt
  obtain ⟨-, heq⟩ | ⟨-, -, heq | ⟨-, -, heq⟩⟩ := hcase
  · exact heq ▸ h'.now_le_tick_turn hin
  · exact heq ▸ hin
  · exact heq ▸ h'.now_le_tick_turn hin

end Loop

/-! ### What a fan-out promises -/

/-- What a fan-out promises of the state it has come to after the events. -/
structure Job.Keeps (job : Job) (events : List Event) (s : Loop) : Prop where
  /-- There are only so many events before it has ended, and until then its timer can fire. -/
  ends : events.length ≤ job.attempts * (job.width + 1) + 1
  goes_on : s.result = none → s.Awaits job (.ticks (max s.now (s.tick job)))
  /-- Where it gets to run in time it is over by the deadline: it never waits longer. -/
  in_time : Runs.Along (Loop.step job) (Loop.Prompt job) (Loop.begin job) events →
    s.now ≤ job.deadline ∧ (s.result = none →
      s.Awaits job (.ticks (s.tick job)) ∧ s.tick job ≤ job.deadline)
  /-- An upstream is sent so many queries of a family at most, and none once it is decided. -/
  sends : ∀ p, s.sent.count p ≤ job.attempts
  undecided : Runs.Along (Loop.step job) (fun s e => ∀ p,
    s.sent.count p < (s.step job e).sent.count p →
      job.Open p.2 (of_family p.2 (s.step job e).heard)) (Loop.begin job) events
  /-- What it ends with is what it heard; with no upstream there is nothing to hear. -/
  result : ∀ r, s.result = some r →
    (job.upstreams ≠ [] ∧ job.Judged s.heard r) ∨
      job.upstreams = [] ∧ r = .error (.AllFailed [])

/-- A job without an upstream is over before it begins. -/
theorem keeps_of_no_upstream (hnone : job.upstreams = []) {events : List Event}
    (h : Runs.Along (Loop.step job) (Loop.Awaits job) (Loop.begin job) events) :
    job.Keeps events (Runs.run (Loop.step job) (Loop.begin job) events) := by
  have hbegin : Loop.begin job = ⟨job.start, 0, job.start, false, job.tracks, [], [], [],
      some (.error (.AllFailed []))⟩ := by simp [Loop.begin, hnone]
  cases events with
  | cons e events =>
    have := h.1.1
    simp [hbegin] at this
  | nil =>
    rw [Runs.run_nil, hbegin]
    refine ⟨by simp, by simp, fun _ => ⟨?_, by simp⟩, by simp, trivial, fun r hr => ?_⟩
    · exact Nat.le_add_right _ _
    · exact .inr ⟨hnone, by simpa [eq_comm] using hr⟩

/-- **A fan-out ends in time, asks no more than it may, and ends with what its answers make of it:**
whatever comes, in whatever order and when. -/
theorem fanout_spec (job : Job) (hnodup : job.upstreams.Nodup) (events : List Event)
    (h : Runs.Along (Loop.step job) (Loop.Awaits job) (Loop.begin job) events) :
    job.Keeps events (Runs.run (Loop.step job) (Loop.begin job) events) := by
  by_cases hne : job.upstreams = []
  · exact keeps_of_no_upstream hne h
  have hbegin := Loop.Sound.begin hne
  have hsound := h.invariant (fun s e hs he => hs.step he) hbegin
  refine ⟨?_, fun hresult => ?_, fun hprompt => ?_, fun p => ?_, ?_, fun r hr => ?_⟩
  · have hlen := h.length_le (Loop.left job) (fun s e hs he => hs.step he)
      (fun s e hs he => Loop.left_step_lt hs he) hbegin
    have hleft : Loop.left job (Loop.begin job) ≤ job.attempts * (job.width + 1) + 1 := by
      rw [Loop.begin, if_neg hne]
      exact Loop.left_turn_le.trans (Loop.left_send_le Loop.Sound.start rfl)
    omega
  · exact ⟨hresult, le_max_left _ _, le_max_right _ _⟩
  · have hstart : (Loop.begin job).now ≤ (Loop.begin job).tick job := by
      rw [Loop.begin, if_neg hne]
      exact Loop.Sound.start.now_le_tick_turn (by simp [Loop.tick, Job.attempts_pos])
    have hnow := ((h.and hprompt).invariant
      (I := fun s => Loop.Sound job s ∧ s.now ≤ s.tick job)
      (fun s e hs he => ⟨hs.1.step he.1, hs.1.now_le_tick he.1 he.2⟩) ⟨hbegin, hstart⟩).2
    exact ⟨hnow.trans hsound.tick_le_deadline, fun hresult =>
      ⟨⟨hresult, hnow, le_rfl⟩, hsound.tick_le_deadline⟩⟩
  · exact (hsound.sent p).trans hsound.round
  · exact h.imp (fun s e hs he => hs.step he)
      (fun s e hs he p => Loop.step_sends hs he hne hnodup) hbegin
  · refine .inl ⟨hne, ?_⟩
    rw [hsound.result r hr, hsound.tracks]
    exact conclude_judged _ hne hnodup hsound.heard

/-- A name that has no IPv4 address and whose IPv6 addresses nobody tells. -/
def one_silent : Job := ⟨["dns".toList], "a.test".toList, true, ⟨1000, 1⟩, 0⟩

/-- Its A query is answered empty at once, its AAAA query never. -/
def one_empty : List Event :=
  [.joins 0 (.ok ⟨.NoError, some ⟨"a.test".toList, .A⟩, [], []⟩) 7, .ticks 1000]

theorem one_empty_awaited :
    Runs.Along (Loop.step one_silent) (Loop.Awaits one_silent) (Loop.begin one_silent)
      one_empty := by
  refine ⟨⟨rfl, by decide, by decide⟩, ⟨rfl, by decide, by decide⟩, trivial⟩

theorem fanout_spec_one_silent : one_silent.upstreams.Nodup ∧
    one_silent.Keeps one_empty
      (Runs.run (Loop.step one_silent) (Loop.begin one_silent) one_empty) :=
  ⟨by decide, fanout_spec one_silent (by decide) one_empty one_empty_awaited⟩

/-- A family that nobody answered at all does not keep the answer from being empty. -/
theorem empty_beside_silent :
    Runs.Along (Loop.step one_silent) (Loop.Awaits one_silent) (Loop.begin one_silent) one_empty ∧
    (Runs.run (Loop.step one_silent) (Loop.begin one_silent) one_empty).result =
      some (.error .EmptyAnswer) ∧
    .Aaaa ∈ one_silent.families ∧
    ¬ ∃ u, one_silent.said_empty .Aaaa
      (of_family .Aaaa
        (Runs.run (Loop.step one_silent) (Loop.begin one_silent) one_empty).heard) u := by
  refine ⟨one_empty_awaited, rfl, by decide, ?_⟩
  rintro ⟨u, o, ho, -⟩
  have hnone : of_family .Aaaa
    (Runs.run (Loop.step one_silent) (Loop.begin one_silent) one_empty).heard = [] := rfl
  simp [hnone] at ho

end Fanout

end Rurge
