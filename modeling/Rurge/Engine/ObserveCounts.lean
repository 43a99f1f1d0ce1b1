import Rurge.Engine.ObserveRuns

/-!
# What the index and the sums hold

What one step makes of the sessions, the index, the sums, the ring and the snapshot being taken, and
the invariant of every run in which no finished session is marked active.  Under it the index holds
no handle that was dropped, so pruning it changes nothing.
-/

namespace Rurge

namespace Observe

open Capture (SessionOutcome)

namespace World

variable {w w' : World} {id : ℕ} {s s' : SessionHandle} {a : Action}

/-! ### What a step does -/

/-- What an action makes of the world, case by case. -/
inductive Moves (w : World) : Action → World → Prop
  | stays (a : Action) : Moves w a w
  | begins (listener : ListenerKind) (policy_chain : List Str) :
      Moves w (.begin_ listener policy_chain)
        { w with sessions := w.sessions ++ [.new listener policy_chain] }
  | goes {id : ℕ} {s s' : SessionHandle} {a : SessionHandle.Action}
      (hs : w.sessions[id]? = some s) (hok : s'.Ok) (hfollows : s.Follows s')
      (hbegun : s'.recordings = s.recordings) (hinside : s'.recording = s.recording) :
      Moves w (.session id a) (w.put id s')
  | counts {id : ℕ} {s s' : SessionHandle} {a : SessionHandle.Action}
      (hs : w.sessions[id]? = some s) (hok : s'.Ok) (hfollows : s.Follows s')
      (hshot : w.shot = none) (hfinished : s.finished = true)
      (hbegun : s'.recordings = s.recordings + 1) (hinside : s'.recording = s.recording + 1) :
      Moves w (.session id a) ((w.put id s').count id s)
  | rings {id : ℕ} {s s' : SessionHandle} {a : SessionHandle.Action} {o : SessionOutcome}
      (hs : w.sessions[id]? = some s) (hok : s'.Ok) (hfollows : s.Follows s')
      (ho : s.outcome = some o)
      (hbegun : s'.recordings = s.recordings) (hinside : s'.recording + 1 = s.recording) :
      Moves w (.session id a) ((w.put id s').ring (record_of id s (some o)))
  | marks {id : ℕ} {s : SessionHandle} (hs : w.sessions[id]? = some s) (halive : s.alive = true)
      (hshot : w.shot = none) :
      Moves w (.mark_active id)
        { w with log := w.log.mark_active id, marked := w.marked ++ [id] }
  | prunes {a : Action} (hshot : w.shot = none) : Moves w a w.prune
  | kills {id : ℕ} {s : SessionHandle} (hs : w.sessions[id]? = some s) (hshot : w.shot = none) :
      Moves w (.kill id) (w.prune.put id s.kill)
  | snaps (hshot : w.shot = none) : Moves w .snapshot w.prune.beginSnapshot
  | reads {shot : Shot} (hshot : w.shot = some shot) : Moves w .snapshot (w.readSnapshot shot)

theorem act_moves (hs : w.sessions[id]? = some s) (hok : s.Ok) (halive : s.alive = true)
    (a : SessionHandle.Action) : w.Moves (.session id a) (w.act id s a) := by
  by_cases ha : ∃ k, a = .lastTask k
  · obtain ⟨k, rfl⟩ := ha
    have hok' := hok.step halive (.lastTask k)
    have hfollows := hok.follows (.lastTask k)
    cases hstep : s.last.step k with
    | none =>
      have hsame : s.step (.lastTask k) = s := by
        simp only [SessionHandle.step, hstep]
      have hput : w.put id s = w := by
        obtain ⟨hlt, hget⟩ := List.getElem?_eq_some_iff.1 hs
        rw [put, ← hget, List.set_getElem_self]
      have htask : ∀ task, s.last.tasks[k]? = some task →
          (∀ e hs, task ≠ .Runs e hs) ∧ ∀ e h hs, task ≠ .Inside e h hs := by
        intro task htask
        rw [Latch.step, htask] at hstep
        cases task with
        | Runs e hs => cases hs <;> cases hstep
        | Inside e h hs => cases hstep
        | _ => exact ⟨fun _ _ h => (by cases h), fun _ _ _ h => by cases h⟩
      simp only [act]
      split
      case h_1 e hs htask' => exact absurd rfl ((htask _ htask').1 _ _)
      case h_2 o hs htask' => exact absurd rfl ((htask _ htask').2 _ _ _)
      case h_3 =>
        rw [hsame, hput]
        exact .stays _
    | some last =>
      have hs' : s.step (.lastTask k) = { s with last := last } := by
        simp only [SessionHandle.step, hstep]
      have hhook := Latch.hook_step .Record hstep
      simp only [act]
      split
      case h_1 e hs' htask =>
        split_ifs with hshot
        · exact .stays _
        · have hfinished : s.finished = true := by
            have hmem := List.mem_of_getElem? htask
            exact (hok.outcome_eq (hok.last.knows _ hmem e rfl)).2.2
          rw [htask] at hhook
          cases hhook with
          | begins hbegun hinside =>
            exact .counts hs hok' hfollows (Option.not_isSome_iff_eq_none.1 hshot) hfinished
              (by rwa [‹s.step _ = _›]) (by rwa [‹s.step _ = _›])
          | rests _ _ hbegins _ => exact absurd rfl (hbegins e hs')
      case h_2 o hs' htask =>
        have ho : s.outcome = some o := hok.last.knows _ (List.mem_of_getElem? htask) o rfl
        rw [htask] at hhook
        cases hhook with
        | ends hbegun hinside =>
          exact .rings hs hok' hfollows ho (by rwa [‹s.step _ = _›]) (by rwa [‹s.step _ = _›])
        | rests _ _ _ hends => exact absurd rfl (hends o hs')
      case h_3 hnot hnot' =>
        generalize htask : s.last.tasks[k]? = task at hhook hnot hnot'
        cases hhook with
        | begins => exact absurd rfl (hnot _ _)
        | ends => exact absurd rfl (hnot' _ _)
        | rests hbegun hinside =>
          exact .goes hs hok' hfollows (by rwa [hs']) (by rwa [hs'])
  · have hother : ∀ k, a ≠ .lastTask k := fun k hk => ha ⟨k, hk⟩
    have hrec := SessionHandle.recordings_step hok hother
    have hact : w.act id s a = w.put id (s.step a) := by
      unfold act
      split
      case h_1 k => exact absurd rfl (hother k)
      case h_2 => rfl
    rw [hact]
    exact .goes hs (hok.step halive a) (hok.follows a) hrec.1 hrec.2

theorem moves (hok : ∀ (id : ℕ) (s : SessionHandle), w.sessions[id]? = some s → s.Ok) (a : Action) :
    w.Moves a (w.step a) := by
  cases a with
  | begin_ listener policy_chain => exact .begins listener policy_chain
  | session id a =>
    simp only [step]
    split
    case h_1 s hs =>
      split_ifs with halive
      · exact act_moves hs (hok id s hs) halive a
      · exact .stays _
    case h_2 => exact .stays _
  | mark_active id =>
    simp only [step]
    split_ifs with hfree
    · obtain ⟨hshot, halive⟩ := Bool.and_eq_true_iff.1 hfree
      cases hs : w.sessions[id]? with
      | none => simp [alive, hs] at halive
      | some s =>
        refine .marks hs ?_ (Option.isNone_iff_eq_none.1 hshot)
        simpa [alive, hs] using halive
    · exact .stays _
  | active =>
    simp only [step]
    split_ifs with hshot
    · exact .stays _
    · exact .prunes (Option.not_isSome_iff_eq_none.1 hshot)
  | kill id =>
    simp only [step]
    by_cases hshot : w.shot.isSome = true
    · rw [if_pos hshot]
      exact .stays _
    · rw [if_neg hshot]
      have hshot := Option.not_isSome_iff_eq_none.1 hshot
      cases hs : w.sessions[id]? with
      | none => exact .prunes hshot
      | some s =>
        simp only
        split_ifs
        · exact .kills hs hshot
        · exact .prunes hshot
  | snapshot =>
    simp only [step]
    split
    case h_1 hshot => exact .snaps hshot
    case h_2 shot hshot => exact .reads hshot

end World

/-- The record of a session that is finished stays what it is. -/
theorem SessionHandle.Follows.record_of {s s' : SessionHandle} (h : s.Follows s')
    (hfinished : s.finished = true) (id : ℕ) (o : Option SessionOutcome) :
    Observe.record_of id s o = Observe.record_of id s' o := by
  have hkind := congrArg Prod.fst h.kind
  have hbytes := h.bytes_eq hfinished
  simp only [SessionHandle.kind, SessionHandle.bytes, Prod.mk.injEq] at hkind hbytes
  rw [Observe.record_of, Observe.record_of, hkind, h.chain, hbytes.1, hbytes.2]

namespace TrafficStats

variable (t : TrafficStats) (h : SessionHandle)

theorem record_totals : (t.record h).totals = t.totals + h.bytes := by
  unfold record recordPolicy recordListener
  split <;> split <;> rfl

theorem record_http :
    (t.record h).http = t.http + if h.listener = .Http then h.bytes else 0 := by
  unfold record recordPolicy recordListener
  cases h.listener <;> split <;> simp

theorem record_socks :
    (t.record h).socks = t.socks + if h.listener = .Socks5 then h.bytes else 0 := by
  unfold record recordPolicy recordListener
  cases h.listener <;> split <;> simp

theorem record_tun : (t.record h).tun = t.tun + if h.listener = .Tun then h.bytes else 0 := by
  unfold record recordPolicy recordListener
  cases h.listener <;> split <;> simp

theorem recordListener_per_policy : (t.recordListener h).per_policy = t.per_policy := by
  unfold recordListener
  split <;> rfl

theorem record_per_policy (policy : Str) :
    ((t.record h).per_policy.lookup policy).getD 0 =
      (t.per_policy.lookup policy).getD 0 + if h.policy = some policy then h.bytes else 0 := by
  unfold record recordPolicy
  split
  case h_1 p hp =>
    rw [hp, Assoc.lookup_insert_apply, recordListener_per_policy]
    by_cases heq : policy = p
    · rw [if_pos heq, if_pos (congrArg some heq.symm), heq]
      rfl
    · rw [if_neg heq, if_neg fun h' => heq (Option.some_inj.1 h').symm, add_zero]
  case h_2 hp =>
    rw [hp, if_neg nofun, add_zero, recordListener_per_policy]

end TrafficStats

namespace World

/-! ### The sums over the sessions -/

/-- What the sessions of the kind `P` that were recorded come to. -/
def total (w : World) (P : ListenerKind × Option Str → Bool) : Bytes :=
  (w.recorded.map fun id => (w.sessions[id]?.map fun s =>
    if P s.kind then s.bytes else 0).getD 0).sum

/-- What all sessions come to that were recorded or are active. -/
def current (w : World) : Bytes := ((w.recorded ++ w.log.active).map w.bytes).sum

end World

/-- What is left of the active sessions to add up. -/
def Shot.owed (bytes : ℕ → Bytes) (shot : Shot) : Bytes :=
  match shot.up, shot.rest with
  | some up, id :: rest => (up, (bytes id).2) + (rest.map bytes).sum
  | _, rest => (rest.map bytes).sum

/-- What a snapshot being taken shows at least. -/
def Shot.least (bytes : ℕ → Bytes) (shot : Shot) : Bytes :=
  (shot.parts.map Prod.snd).sum + shot.owed bytes

namespace World

/-- What the next snapshot to be done shows at least. -/
def floor (w : World) : Bytes :=
  match w.shot with
  | some shot => shot.least w.bytes
  | none => w.current

/-- What holds of a snapshot being taken. -/
structure Shooting (w : World) (shot : Shot) : Prop where
  /-- each session that is recorded or active was counted or is still to be -/
  ids : shot.parts.map Prod.fst ++ shot.rest = w.recorded ++ w.log.active
  value : shot.totals + shot.sum = (shot.parts.map Prod.snd).sum
  parts : ∀ part ∈ shot.parts, part.2 ≤ w.bytes part.1
  up : ∀ up id rest, shot.up = some up → shot.rest = id :: rest → up ≤ (w.bytes id).1

/-- What holds of a snapshot that was taken. -/
structure Taken (w : World) (shown : Shown) : Prop where
  ids : (shown.parts.map Prod.fst).Nodup
  value : shown.value = (shown.parts.map Prod.snd).sum
  marked : ∀ id ∈ shown.marked, id ∈ shown.parts.map Prod.fst
  parts : ∀ part ∈ shown.parts, part.2 ≤ w.bytes part.1

/-- The sums are those of the sessions that were recorded. -/
structure Summed (w : World) : Prop where
  totals : w.traffic.totals = w.total fun _ => true
  http : w.traffic.http = w.total fun kind => kind.1 = .Http
  socks : w.traffic.socks = w.total fun kind => kind.1 = .Socks5
  tun : w.traffic.tun = w.total fun kind => kind.1 = .Tun
  per_policy : ∀ policy, (w.traffic.per_policy.lookup policy).getD 0 =
    w.total fun kind => kind.2 = some policy

/-- What holds at all times, as long as no finished session is marked active. -/
structure Inv (w : World) : Prop where
  ok : ∀ (id : ℕ) (s : SessionHandle), w.sessions[id]? = some s → s.Ok
  recorded : ∀ (id : ℕ) (s : SessionHandle), w.sessions[id]? = some s →
    w.recorded.count id = s.recordings
  pushed : ∀ (id : ℕ) (s : SessionHandle), w.sessions[id]? = some s →
    (w.pushed.map RequestRecord.id).count id + s.recording = s.recordings
  known : ∀ id ∈ w.recorded ++ w.log.active, id < w.sessions.length
  nodup : (w.recorded ++ w.log.active).Nodup
  marked : ∀ id ∈ w.marked, id ∈ w.recorded ++ w.log.active
  active : ∀ id ∈ w.log.active, id ∈ w.marked
  summed : w.Summed
  records : ∀ rec ∈ w.pushed, ∃ (s : SessionHandle) (o : SessionOutcome),
    w.sessions[rec.id]? = some s ∧ s.outcome = some o ∧ rec = record_of rec.id s (some o)
  ring : w.log.finished = Fifo.recent w.log.capacity w.pushed
  shot : ∀ shot, w.shot = some shot → w.Shooting shot
  taken : ∀ shown ∈ w.shown, w.Taken shown
  rising : (w.shown.map Shown.value).Pairwise (· ≤ ·)
  low : ∀ shown ∈ w.shown, shown.value ≤ w.floor

variable {w w' : World} {id : ℕ} {s s' : SessionHandle} {a : Action}

/-- The sums are of what they are sums of. -/
theorem Summed.of_eq (h : w.Summed) (htraffic : w'.traffic = w.traffic)
    (htotal : ∀ P, w'.total P = w.total P) : w'.Summed := by
  obtain ⟨htotals, hhttp, hsocks, htun, hpolicy⟩ := h
  refine ⟨?_, ?_, ?_, ?_, fun policy => ?_⟩
  · rw [htraffic, htotal, htotals]
  · rw [htraffic, htotal, hhttp]
  · rw [htraffic, htotal, hsocks]
  · rw [htraffic, htotal, htun]
  · rw [htraffic, htotal, hpolicy]

/-- What was counted stays below what the counters say. -/
theorem Taken.mono {shown : Shown} (h : w.Taken shown) (hle : ∀ j, w.bytes j ≤ w'.bytes j) :
    w'.Taken shown :=
  ⟨h.ids, h.value, h.marked, fun part hpart => (h.parts part hpart).trans (hle _)⟩

theorem Shooting.mono {shot : Shot} (h : w.Shooting shot) (hle : ∀ j, w.bytes j ≤ w'.bytes j)
    (hids : w'.recorded ++ w'.log.active = w.recorded ++ w.log.active) : w'.Shooting shot where
  ids := h.ids.trans hids.symm
  value := h.value
  parts := fun part hpart => (h.parts part hpart).trans (hle _)
  up := fun up j rest hup hrest => (h.up up j rest hup hrest).trans (hle j).1

/-- A session's bytes are added to the sums that it counts for. -/
theorem Summed.record (h : w.Summed) (htraffic : w'.traffic = w.traffic.record s)
    (htotal : ∀ P, w'.total P = w.total P + if P s.kind then s.bytes else 0) : w'.Summed := by
  obtain ⟨htotals, hhttp, hsocks, htun, hpolicy⟩ := h
  refine ⟨?_, ?_, ?_, ?_, fun policy => ?_⟩
  · rw [htraffic, htotal, TrafficStats.record_totals, htotals, if_pos rfl]
  · rw [htraffic, htotal, TrafficStats.record_http, hhttp]
    exact congrArg _ (if_congr decide_eq_true_iff.symm rfl rfl)
  · rw [htraffic, htotal, TrafficStats.record_socks, hsocks]
    exact congrArg _ (if_congr decide_eq_true_iff.symm rfl rfl)
  · rw [htraffic, htotal, TrafficStats.record_tun, htun]
    exact congrArg _ (if_congr decide_eq_true_iff.symm rfl rfl)
  · rw [htraffic, htotal, TrafficStats.record_per_policy, hpolicy]
    exact congrArg _ (if_congr decide_eq_true_iff.symm rfl rfl)

theorem inv_new (capacity : ℕ) : (new capacity).Inv where
  ok := fun id s h => by cases h
  recorded := fun id s h => by cases h
  pushed := fun id s h => by cases h
  known := fun id h => by cases h
  nodup := List.nodup_nil
  marked := fun id h => by cases h
  active := fun id h => by cases h
  summed := ⟨rfl, rfl, rfl, rfl, fun policy => rfl⟩
  records := fun rec h => by cases h
  ring := by simp [new, RequestLog.new, Fifo.recent]
  shot := fun shot h => by cases h
  taken := fun shown h => by cases h
  rising := List.Pairwise.nil
  low := fun shown h => by cases h

/-! ### Counters only rise -/

theorem getElem?_put (hs : w.sessions[id]? = some s) (s' : SessionHandle) (j : ℕ) :
    (w.put id s').sessions[j]? = if j = id then some s' else w.sessions[j]? := by
  have hlt := (List.getElem?_eq_some_iff.1 hs).1
  simp only [put, List.getElem?_set, hlt, if_true, eq_comm]

theorem bytes_put (hs : w.sessions[id]? = some s) (s' : SessionHandle) (j : ℕ) :
    (w.put id s').bytes j = if j = id then s'.bytes else w.bytes j := by
  rw [bytes, getElem?_put hs]
  split_ifs <;> rfl

theorem bytes_le_put (hs : w.sessions[id]? = some s) (hfollows : s.Follows s') (j : ℕ) :
    w.bytes j ≤ (w.put id s').bytes j := by
  rw [bytes_put hs]
  split_ifs with hj
  · subst hj
    simpa [bytes, hs] using hfollows.bytes_le
  · exact le_rfl

/-- Each of two lists of sums rises. -/
theorem sum_le_sum_bytes {b b' : ℕ → Bytes} (hle : ∀ j, b j ≤ b' j) (ids : List ℕ) :
    (ids.map b).sum ≤ (ids.map b').sum := List.sum_le_sum fun j _ => hle j

theorem owed_le {b b' : ℕ → Bytes} (hle : ∀ j, b j ≤ b' j) (shot : Shot) :
    shot.owed b ≤ shot.owed b' := by
  unfold Shot.owed
  split
  case h_1 up id rest _ _ =>
    exact add_le_add ⟨le_rfl, (hle id).2⟩ (sum_le_sum_bytes hle rest)
  case h_2 => exact sum_le_sum_bytes hle _

theorem floor_le {v : World} (hle : ∀ j, w.bytes j ≤ v.bytes j)
    (hids : v.recorded ++ v.log.active = w.recorded ++ w.log.active) (hshot : v.shot = w.shot) :
    w.floor ≤ v.floor := by
  simp only [World.floor, World.current, hids, hshot]
  split
  · exact add_le_add le_rfl (owed_le hle _)
  · exact sum_le_sum_bytes hle _

/-- A session that goes on leaves the sums of those that were recorded as they are. -/
theorem total_put (hs : w.sessions[id]? = some s) (hfollows : s.Follows s')
    (hrec : id ∈ w.recorded → s.finished = true) (P : ListenerKind × Option Str → Bool) :
    (w.put id s').total P = w.total P := by
  unfold total
  refine congrArg List.sum (List.map_congr_left fun j hj => ?_)
  rw [getElem?_put hs]
  split_ifs with hid
  · subst hid
    simp [hs, hfollows.kind, hfollows.bytes_eq (hrec hj)]
  · rfl

namespace Inv

theorem finished_of_recorded (h : w.Inv) (hs : w.sessions[id]? = some s) (hid : id ∈ w.recorded) :
    s.finished = true := by
  have hcount := h.recorded id s hs
  obtain ⟨o, -, hfinished⟩ := (h.ok id s hs).recorded
    (hcount ▸ (List.count_pos_iff.2 hid).ne')
  exact hfinished

theorem ok_put (h : w.Inv) (hs : w.sessions[id]? = some s) (hok : s'.Ok) (j : ℕ)
    (t : SessionHandle) (hj : (w.put id s').sessions[j]? = some t) : t.Ok := by
  rw [getElem?_put hs] at hj
  split_ifs at hj with hid
  · cases hj
    exact hok
  · exact h.ok j t hj

theorem records_put (h : w.Inv) (hs : w.sessions[id]? = some s) (hfollows : s.Follows s')
    (rec : RequestRecord) (hrec : rec ∈ w.pushed) : ∃ (t : SessionHandle) (o : SessionOutcome),
      (w.put id s').sessions[rec.id]? = some t ∧ t.outcome = some o ∧
        rec = record_of rec.id t (some o) := by
  obtain ⟨t, o, ht, ho, heq⟩ := h.records rec hrec
  rw [getElem?_put hs]
  split_ifs with hid
  · rw [hid, hs] at ht
    cases ht
    have hfinished := ((h.ok id s hs).outcome_eq ho).2.2
    exact ⟨s', o, rfl, hfollows.outcome o ho, heq.trans (hfollows.record_of hfinished _ _)⟩
  · exact ⟨t, o, ht, ho, heq⟩

/-- What is in the sums stays the sum over the sessions that were recorded. -/
theorem summed_put (h : w.Inv) (hs : w.sessions[id]? = some s) (hfollows : s.Follows s') :
    (w.put id s').Summed :=
  h.summed.of_eq rfl (total_put hs hfollows (h.finished_of_recorded hs))

/-- A session goes on, nothing of its observers' hook being begun or ended. -/
theorem put (h : w.Inv) (hs : w.sessions[id]? = some s) (hok : s'.Ok) (hfollows : s.Follows s')
    (hbegun : s'.recordings = s.recordings) (hinside : s'.recording = s.recording) :
    (w.put id s').Inv := by
  have hbytes := bytes_le_put hs hfollows
  constructor
  · exact h.ok_put hs hok
  · intro j t hj
    rw [getElem?_put hs] at hj
    split_ifs at hj with hid
    · cases hj
      rw [hid, hbegun]
      exact h.recorded id s hs
    · exact h.recorded j t hj
  · intro j t hj
    rw [getElem?_put hs] at hj
    split_ifs at hj with hid
    · cases hj
      rw [hid, hbegun, hinside]
      exact h.pushed id s hs
    · exact h.pushed j t hj
  · intro j hj
    rw [World.put, List.length_set]
    exact h.known j hj
  · exact h.nodup
  · exact h.marked
  · exact h.active
  · exact h.summed_put hs hfollows
  · exact h.records_put hs hfollows
  · exact h.ring
  · exact fun shot hshot => (h.shot shot hshot).mono hbytes rfl
  · exact fun shown hshown => (h.taken shown hshown).mono hbytes
  · exact h.rising
  · exact fun shown hshown => (h.low shown hshown).trans (floor_le hbytes rfl rfl)

/-- The index holds no handle that was dropped. -/
theorem alive (h : w.Inv) (hid : id ∈ w.log.active) : w.alive id = true := by
  have hlt := h.known id (List.mem_append_right _ hid)
  obtain ⟨s, hs⟩ : ∃ s, w.sessions[id]? = some s := ⟨_, List.getElem?_eq_getElem hlt⟩
  rw [World.alive, hs]
  by_contra hgone
  obtain ⟨htasks, -, ho⟩ := (h.ok id s hs).gone (Bool.eq_false_iff.2 hgone)
  have hcount := h.recorded id s hs
  rw [(h.ok id s hs).recordings_eq htasks ho] at hcount
  have hrec : id ∈ w.recorded := List.count_pos_iff.1 (by omega)
  exact (List.disjoint_of_nodup_append h.nodup) hrec hid

theorem prune_eq (h : w.Inv) : w.prune = w := by
  have hall : w.log.active.filter w.alive = w.log.active :=
    List.filter_eq_self.2 fun id hid => h.alive hid
  rw [prune, hall]

/-- A session begins: it has no bytes yet. -/
theorem begins (h : w.Inv) (listener : ListenerKind) (policy_chain : List Str) :
    Inv { w with sessions := w.sessions ++ [.new listener policy_chain] } := by
  set s : SessionHandle := .new listener policy_chain with hs
  set v : World := { w with sessions := w.sessions ++ [s] } with hv
  have hold : ∀ {j t}, w.sessions[j]? = some t → v.sessions[j]? = some t := fun {j t} hj => by
    rw [hv, List.getElem?_append_left (List.getElem?_eq_some_iff.1 hj).1, hj]
  have hcases : ∀ {j t}, v.sessions[j]? = some t →
      w.sessions[j]? = some t ∨ j = w.sessions.length ∧ t = s := Fifo.getElem?_concat_cases
  have hbytes : v.bytes = w.bytes := by
    funext j
    simp only [World.bytes, hv, List.getElem?_append]
    split_ifs with hlt
    · rfl
    · rw [List.getElem?_eq_none (Nat.le_of_not_lt hlt)]
      rcases j - w.sessions.length with _ | n <;> rfl
  have htotal : ∀ P, v.total P = w.total P := fun P => by
    refine congrArg List.sum (List.map_congr_left fun j hj => ?_)
    rw [hv, List.getElem?_append_left (h.known j (List.mem_append_left _ hj))]
  have hnew : w.recorded.count w.sessions.length = 0 :=
    List.count_eq_zero.2 fun hin => (h.known _ (List.mem_append_left _ hin)).false
  constructor
  · intro j t hj
    rcases hcases hj with hj | ⟨-, rfl⟩
    · exact h.ok j t hj
    · exact SessionHandle.ok_new ..
  · intro j t hj
    rcases hcases hj with hj | ⟨rfl, rfl⟩
    · exact h.recorded j t hj
    · exact hnew
  · intro j t hj
    rcases hcases hj with hj | ⟨rfl, rfl⟩
    · exact h.pushed j t hj
    · refine Nat.add_eq_zero_iff.2 ⟨List.count_eq_zero.2 fun hin => ?_, rfl⟩
      obtain ⟨rec, hrec, heq⟩ := List.mem_map.1 hin
      obtain ⟨t, o, ht, -⟩ := h.records rec hrec
      exact (heq ▸ (List.getElem?_eq_some_iff.1 ht).1).false
  · intro j hj
    rw [hv, List.length_append]
    exact Nat.lt_add_right _ (h.known j hj)
  · exact h.nodup
  · exact h.marked
  · exact h.active
  · exact h.summed.of_eq rfl htotal
  · intro rec hrec
    obtain ⟨t, o, ht, ho, heq⟩ := h.records rec hrec
    exact ⟨t, o, hold ht, ho, heq⟩
  · exact h.ring
  · exact fun shot hshot => (h.shot shot hshot).mono (fun j => (congrFun hbytes j).ge) rfl
  · exact fun shown hshown => (h.taken shown hshown).mono fun j => (congrFun hbytes j).ge
  · exact h.rising
  · intro shown hshown
    have hfloor : v.floor = w.floor := by
      simp only [World.floor, World.current, hbytes]
      rfl
    exact hfloor ▸ h.low shown hshown

/-- A session is marked active that is not finished. -/
theorem marks (h : w.Inv) (hs : w.sessions[id]? = some s) (hfinished : s.finished = false)
    (hshot : w.shot = none) :
    Inv { w with log := w.log.mark_active id, marked := w.marked ++ [id] } := by
  have hnot : id ∉ w.recorded := fun hid => by
    have := h.finished_of_recorded hs hid
    rw [hfinished] at this
    cases this
  by_cases hin : id ∈ w.log.active
  · have hlog : w.log.mark_active id = w.log := if_pos hin
    rw [hlog]
    refine ⟨h.ok, h.recorded, h.pushed, h.known, h.nodup, fun j hj => ?_, fun j hj => ?_,
      h.summed.of_eq rfl fun _ => rfl, h.records, h.ring,
      fun shot hshot => (h.shot shot hshot).mono (fun _ => le_rfl) rfl,
      fun shown hshown => (h.taken shown hshown).mono fun _ => le_rfl, h.rising, h.low⟩
    · rcases List.mem_append.1 hj with hold | hnew
      · exact h.marked j hold
      · rw [List.mem_singleton.1 hnew]
        exact List.mem_append_right _ hin
    · exact List.mem_append_left _ (h.active j hj)
  · have hperm : (w.log.mark_active id).active.Perm (id :: w.log.active) := by
      rw [RequestLog.mark_active, if_neg hin]
      exact List.perm_orderedInsert _ id _
    have hmem : ∀ j, j ∈ w.recorded ++ (w.log.mark_active id).active ↔
        j = id ∨ j ∈ w.recorded ++ w.log.active := fun j => by
      rw [List.mem_append, hperm.mem_iff, List.mem_cons, List.mem_append]
      tauto
    have hlog : (w.log.mark_active id).finished = w.log.finished ∧
        (w.log.mark_active id).capacity = w.log.capacity := by
      rw [RequestLog.mark_active, if_neg hin]
      exact ⟨rfl, rfl⟩
    refine ⟨h.ok, h.recorded, h.pushed, fun j hj => ?_, ?_, fun j hj => ?_, fun j hj => ?_,
      h.summed.of_eq rfl fun _ => rfl, h.records, ?_, fun shot hshot' => ?_,
      fun shown hshown => (h.taken shown hshown).mono fun _ => le_rfl, h.rising,
      fun shown hshown => ?_⟩
    · rcases (hmem j).1 hj with rfl | hold
      · exact (List.getElem?_eq_some_iff.1 hs).1
      · exact h.known j hold
    · rw [(hperm.append_left w.recorded).nodup_iff, List.nodup_middle, List.nodup_cons]
      refine ⟨fun hid => ?_, h.nodup⟩
      rcases List.mem_append.1 hid with hid | hid
      · exact hnot hid
      · exact hin hid
    · rcases List.mem_append.1 hj with hold | hnew
      · exact (hmem j).2 (.inr (h.marked j hold))
      · exact (hmem j).2 (.inl (List.mem_singleton.1 hnew))
    · rcases List.mem_cons.1 (hperm.mem_iff.1 hj) with rfl | hold
      · exact List.mem_append_right _ List.mem_cons_self
      · exact List.mem_append_left _ (h.active j hold)
    · rw [hlog.1, hlog.2]
      exact h.ring
    · rw [hshot] at hshot'
      cases hshot'
    · refine (h.low shown hshown).trans ?_
      simp only [World.floor, hshot, World.current]
      rw [(((hperm.append_left w.recorded).trans List.perm_middle).map _).sum_eq, List.map_cons,
        List.sum_cons]
      exact le_add_of_nonneg_left bot_le

/-- A session's bytes are added up, and it leaves the index. -/
theorem counts (h : w.Inv) (hs : w.sessions[id]? = some s) (hok : s'.Ok) (hfollows : s.Follows s')
    (hshot : w.shot = none) (hfinished : s.finished = true)
    (hbegun : s'.recordings = s.recordings + 1) (hinside : s'.recording = s.recording + 1) :
    ((w.put id s').count id s).Inv := by
  have hzero : s.recordings = 0 := by
    have := hok.recordings_le
    omega
  have hnot : id ∉ w.recorded := by
    rw [← List.count_eq_zero, h.recorded id s hs, hzero]
  have hlt := (List.getElem?_eq_some_iff.1 hs).1
  have hbytes : (w.put id s').bytes = w.bytes := by
    funext j
    rw [bytes_put hs]
    split_ifs with hj
    · rw [hj, World.bytes, hs]
      exact hfollows.bytes_eq hfinished
    · rfl
  have hmem : ∀ j, j ∈ w.recorded ++ [id] ++ w.log.active.erase id ↔
      j = id ∨ j ∈ w.recorded ++ w.log.active := fun j => by
    by_cases hj : j = id
    · simp [hj]
    · simp [hj, List.mem_erase_of_ne hj]
  have htotal : ∀ P, ((w.put id s').count id s).total P =
      w.total P + if P s.kind then s.bytes else 0 := fun P => by
    have hrest := total_put hs hfollows (h.finished_of_recorded hs) P
    rw [total, count, List.map_append, List.sum_append]
    refine congrArg₂ (· + ·) hrest ?_
    simp [getElem?_put hs, hfollows.kind, hfollows.bytes_eq hfinished]
  constructor
  · exact h.ok_put hs hok
  · intro j t hj
    rw [show ((w.put id s').count id s).sessions = (w.put id s').sessions from rfl,
      getElem?_put hs] at hj
    rw [count, List.count_append]
    split_ifs at hj with hid
    · cases hj
      have := h.recorded id s hs
      simp [World.put, hid, hbegun, this]
    · have := h.recorded j t hj
      simpa [World.put, Ne.symm hid] using this
  · intro j t hj
    rw [show ((w.put id s').count id s).sessions = (w.put id s').sessions from rfl,
      getElem?_put hs] at hj
    split_ifs at hj with hid
    · cases hj
      have := h.pushed id s hs
      rw [hid, hbegun, hinside, ← this]
      rfl
    · exact h.pushed j t hj
  · intro j hj
    rw [show ((w.put id s').count id s).sessions.length = w.sessions.length from
      List.length_set ..]
    rcases (hmem j).1 hj with rfl | hold
    · exact hlt
    · exact h.known j hold
  · have hactive := (List.nodup_append.1 h.nodup).2.1
    rw [show ((w.put id s').count id s).recorded ++ ((w.put id s').count id s).log.active =
      w.recorded ++ [id] ++ w.log.active.erase id from rfl, List.append_assoc,
      List.singleton_append, List.nodup_middle, List.nodup_cons]
    refine ⟨fun hin => ?_, h.nodup.sublist (List.Sublist.append_left List.erase_sublist _)⟩
    rcases List.mem_append.1 hin with hin | hin
    · exact hnot hin
    · exact hactive.not_mem_erase hin
  · exact fun j hj => (hmem j).2 (.inr (h.marked j hj))
  · exact fun j hj => h.active j (List.mem_of_mem_erase hj)
  · exact h.summed.record rfl htotal
  · exact h.records_put hs hfollows
  · exact h.ring
  · intro shot hshot'
    rw [show ((w.put id s').count id s).shot = w.shot from rfl, hshot] at hshot'
    cases hshot'
  · exact fun shown hshown => (h.taken shown hshown).mono fun j => (congrFun hbytes j).ge
  · exact h.rising
  · intro shown hshown
    refine (h.low shown hshown).trans ?_
    have hcount : ((w.put id s').count id s).bytes = w.bytes := hbytes
    simp only [World.floor, hshot, World.current, hcount,
      show ((w.put id s').count id s).shot = none from hshot]
    change _ ≤ ((w.recorded ++ [id] ++ w.log.active.erase id).map w.bytes).sum
    by_cases hin : id ∈ w.log.active
    · have hperm : (w.recorded ++ w.log.active).Perm
          (w.recorded ++ [id] ++ w.log.active.erase id) := by
        rw [List.append_assoc]
        exact (List.perm_cons_erase hin).append_left w.recorded
      exact (hperm.map w.bytes).sum_eq.le
    · rw [List.erase_of_not_mem hin]
      simp only [List.map_append, List.sum_append]
      exact add_le_add_left (le_add_of_nonneg_right bot_le) _

/-- The record of a session goes into the ring. -/
theorem rings (h : w.Inv) (hs : w.sessions[id]? = some s) (hok : s'.Ok) (hfollows : s.Follows s')
    {o : SessionOutcome} (ho : s.outcome = some o) (hbegun : s'.recordings = s.recordings)
    (hinside : s'.recording + 1 = s.recording) :
    ((w.put id s').ring (record_of id s (some o))).Inv := by
  have hbytes := bytes_le_put hs hfollows
  have hlog : ∀ rec, (w.log.push rec).active = w.log.active ∧
      (w.log.push rec).capacity = w.log.capacity := fun rec => by
    unfold RequestLog.push
    split_ifs <;> exact ⟨rfl, rfl⟩
  set rec : RequestRecord := record_of id s (some o) with hrec
  set v : World := (w.put id s').ring rec with hv
  have hids : v.recorded ++ v.log.active = w.recorded ++ w.log.active :=
    congrArg (w.recorded ++ ·) (hlog rec).1
  constructor
  · exact h.ok_put hs hok
  · intro j t hj
    rw [hv, show ((w.put id s').ring rec).sessions = (w.put id s').sessions from rfl,
      getElem?_put hs] at hj
    split_ifs at hj with hid
    · cases hj
      rw [hid, hbegun]
      exact h.recorded id s hs
    · exact h.recorded j t hj
  · intro j t hj
    rw [hv, show ((w.put id s').ring rec).sessions = (w.put id s').sessions from rfl,
      getElem?_put hs] at hj
    have hpushed : (v.pushed.map RequestRecord.id).count j =
        (w.pushed.map RequestRecord.id).count j + if id = j then 1 else 0 := by
      rw [hv, show ((w.put id s').ring rec).pushed = w.pushed ++ [rec] from rfl, List.map_append,
        List.count_append, List.map_singleton, List.count_singleton]
      simp only [hrec, record_of, beq_iff_eq]
    rw [hpushed]
    split_ifs at hj with hid
    · cases hj
      have := h.pushed id s hs
      rw [if_pos hid.symm, hid, hbegun, ← this, ← hinside]
      omega
    · rw [if_neg (Ne.symm hid), Nat.add_zero]
      exact h.pushed j t hj
  · intro j hj
    rw [hids] at hj
    exact (h.known j hj).trans_eq (List.length_set ..).symm
  · rw [hids]
    exact h.nodup
  · rw [hids]
    exact h.marked
  · intro j hj
    exact h.active j ((hlog rec).1 ▸ hj)
  · exact h.summed.of_eq rfl (total_put hs hfollows (h.finished_of_recorded hs))
  · intro r hr
    rcases List.mem_append.1 hr with hold | hnew
    · exact h.records_put hs hfollows r hold
    · rw [List.mem_singleton.1 hnew]
      refine ⟨s', o, ?_, hfollows.outcome o ho, ?_⟩
      · exact (getElem?_put hs s' id).trans (if_pos rfl)
      · exact hfollows.record_of ((h.ok id s hs).outcome_eq ho).2.2 id (some o)
  · have hring := h.ring
    have hpos := w.log.pos
    rw [hv, show ((w.put id s').ring rec).log = w.log.push rec from rfl, (hlog rec).2,
      show ((w.put id s').ring rec).pushed = w.pushed ++ [rec] from rfl, RequestLog.push]
    have hle := Fifo.length_recent w.log.capacity w.pushed
    split_ifs with hfull
    · rw [hring] at hfull
      rw [Fifo.recent_concat_of_full hpos hfull, hring]
    · rw [hring] at hfull
      rw [Fifo.recent_concat_of_lt (by omega), hring]
  · exact fun shot hshot => (h.shot shot hshot).mono hbytes hids
  · exact fun shown hshown => (h.taken shown hshown).mono hbytes
  · exact h.rising
  · exact fun shown hshown => (h.low shown hshown).trans (floor_le hbytes hids rfl)

/-- A snapshot is begun: what is recorded is counted, and what is active is left. -/
theorem snaps (h : w.Inv) (hshot : w.shot = none) : w.beginSnapshot.Inv := by
  have hcounted : (w.recorded.map fun j => (j, w.bytes j)).map Prod.fst = w.recorded := by
    rw [List.map_map]
    exact List.map_id' _
  have hsum : ((w.recorded.map fun j => (j, w.bytes j)).map Prod.snd) = w.recorded.map w.bytes := by
    rw [List.map_map]
    rfl
  refine ⟨h.ok, h.recorded, h.pushed, h.known, h.nodup, h.marked, h.active,
    h.summed.of_eq rfl fun _ => rfl, h.records, h.ring, fun shot heq => ?_,
    fun shown hshown => (h.taken shown hshown).mono fun _ => le_rfl, h.rising,
    fun shown hshown => (h.low shown hshown).trans_eq ?_⟩
  · cases heq
    refine ⟨congrArg (· ++ w.log.active) hcounted, ?_, fun part hpart => ?_, fun up _ _ => nofun⟩
    · rw [hsum, add_zero, h.summed.totals, total]
      refine congrArg List.sum (List.map_congr_left fun j _ => ?_)
      rfl
    · obtain ⟨j, -, rfl⟩ := List.mem_map.1 hpart
      exact le_rfl
  · simp only [World.floor, hshot, beginSnapshot, World.current, Shot.least, hsum, Shot.owed,
      List.map_append, List.sum_append]
    rfl

/-- A counter is read for a snapshot, or it is done. -/
theorem reads (h : w.Inv) {shot : Shot} (hshot : w.shot = some shot) :
    (w.readSnapshot shot).Inv := by
  have hlow : ∀ shown ∈ w.shown, shown.value ≤ shot.least w.bytes := fun shown hshown => by
    have := h.low shown hshown
    rwa [World.floor, hshot] at this
  obtain ⟨hids, hvalue, hparts, hup⟩ := h.shot shot hshot
  unfold readSnapshot
  split
  case h_1 j rest hrest hnone =>
    refine ⟨h.ok, h.recorded, h.pushed, h.known, h.nodup, h.marked, h.active,
      h.summed.of_eq rfl fun _ => rfl, h.records, h.ring, fun shot' heq => ?_,
      fun shown hshown => (h.taken shown hshown).mono fun _ => le_rfl, h.rising,
      fun shown hshown => (hlow shown hshown).trans_eq ?_⟩
    · cases heq
      refine ⟨hids, hvalue, hparts, fun up j' rest' hup' hrest' => ?_⟩
      rw [hrest] at hrest'
      cases hrest'
      cases hup'
      exact le_rfl
    · simp only [World.floor, Shot.least, Shot.owed, hrest, hnone, List.map_cons, List.sum_cons]
      rfl
  case h_2 j rest up hrest hsome =>
    have hle := hup up j rest hsome hrest
    refine ⟨h.ok, h.recorded, h.pushed, h.known, h.nodup, h.marked, h.active,
      h.summed.of_eq rfl fun _ => rfl, h.records, h.ring, fun shot' heq => ?_,
      fun shown hshown => (h.taken shown hshown).mono fun _ => le_rfl, h.rising,
      fun shown hshown => (hlow shown hshown).trans_eq ?_⟩
    · cases heq
      refine ⟨?_, ?_, fun part hpart => ?_, fun up' j' rest' => nofun⟩
      · rw [← hids, hrest, List.map_append, List.append_assoc]
        rfl
      · rw [List.map_append, List.sum_append, ← hvalue, add_assoc]
        simp
      · rcases List.mem_append.1 hpart with hold | hnew
        · exact hparts part hold
        · rw [List.mem_singleton.1 hnew]
          exact ⟨hle, le_rfl⟩
    · simp only [World.floor, Shot.least, Shot.owed, hrest, hsome, List.map_append,
        List.sum_append, List.map_singleton, List.sum_singleton, add_assoc]
      rfl
  case h_3 hrest =>
    have hall : shot.parts.map Prod.fst = w.recorded ++ w.log.active := by
      rwa [hrest, List.append_nil] at hids
    have hleast : shot.least w.bytes = shot.totals + shot.sum := by
      rw [hvalue, Shot.least, Shot.owed, hrest]
      cases shot.up <;> exact add_zero _
    have hcurrent : shot.totals + shot.sum ≤ w.current := by
      rw [hvalue, World.current, ← hall, List.map_map]
      exact List.sum_le_sum hparts
    refine ⟨h.ok, h.recorded, h.pushed, h.known, h.nodup, h.marked, h.active,
      h.summed.of_eq rfl fun _ => rfl, h.records, h.ring, fun shot' => nofun,
      fun shown hshown => ?_, ?_, fun shown hshown => ?_⟩
    · rcases List.mem_append.1 hshown with hold | hnew
      · exact (h.taken shown hold).mono fun _ => le_rfl
      · rw [List.mem_singleton.1 hnew]
        exact ⟨hall ▸ h.nodup, hvalue, hall ▸ h.marked, hparts⟩
    · rw [List.map_append, List.pairwise_append]
      refine ⟨h.rising, List.pairwise_singleton .., fun v hv v' hv' => ?_⟩
      obtain ⟨shown, hshown, rfl⟩ := List.mem_map.1 hv
      rw [List.map_singleton, List.mem_singleton] at hv'
      rw [hv']
      exact (hlow shown hshown).trans_eq hleast
    · rcases List.mem_append.1 hshown with hold | hnew
      · exact ((hlow shown hold).trans_eq hleast).trans hcurrent
      · rw [List.mem_singleton.1 hnew]
        exact hcurrent

end Inv

/-- No session is marked active that is finished. -/
def Careful (w : World) : Action → Prop
  | .mark_active id => ∀ s : SessionHandle, w.sessions[id]? = some s → s.finished = false
  | _ => True

/-- **Every step keeps what holds, as long as no finished session is marked active.** -/
theorem Inv.step (h : w.Inv) (hcareful : w.Careful a) : (w.step a).Inv := by
  have hmoves := moves h.ok a
  generalize w.step a = w' at hmoves
  cases hmoves with
  | stays => exact h
  | begins listener policy_chain => exact h.begins listener policy_chain
  | goes hs hok hfollows hbegun hinside => exact h.put hs hok hfollows hbegun hinside
  | counts hs hok hfollows hshot hfinished hbegun hinside =>
    exact h.counts hs hok hfollows hshot hfinished hbegun hinside
  | rings hs hok hfollows ho hbegun hinside => exact h.rings hs hok hfollows ho hbegun hinside
  | marks hs halive hshot => exact h.marks hs (hcareful _ hs) hshot
  | prunes hshot =>
    rw [h.prune_eq]
    exact h
  | kills hs hshot =>
    rw [h.prune_eq]
    have hok := h.ok _ _ hs
    refine h.put hs ⟨hok.last, hok.first, hok.observed, hok.finished, hok.phase, hok.gone⟩
      (.of_eq rfl rfl (fun hf => hf) (fun _ ho => ho) rfl) rfl rfl
  | snaps hshot =>
    rw [h.prune_eq]
    exact h.snaps hshot
  | reads hshot => exact h.reads hshot

end World

end Observe

end Rurge
