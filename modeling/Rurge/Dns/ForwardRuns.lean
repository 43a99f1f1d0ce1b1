import Rurge.Dns.Forward
import Rurge.Lib.Runs

/-!
# The runs of a forward

Whatever the upstreams send back, the sends are told apart by their IDs, a reply is taken for the
send it answers only, and the loop ends with the first that settles the matter, or else with the
first of the others.
-/

namespace Rurge

namespace Forward

open BigEndian
open Dns (Hickory Name wire_u16 wire_is_response wire_question first_question)

/-! ### Messages -/

theorem take_set_wire_id {bytes : Bytes} (h : 2 ≤ bytes.length) (id : UInt16) :
    (set_wire_id bytes id).take 2 = u16 id := by
  rw [set_wire_id, if_pos h, List.take_left' (length_u16 id)]

theorem drop_set_wire_id (bytes : Bytes) (id : UInt16) :
    (set_wire_id bytes id).drop 2 = bytes.drop 2 := by
  unfold set_wire_id
  split
  · rw [List.drop_left' (length_u16 id)]
  · rfl

theorem length_of_wire_id {bytes : Bytes} {id : UInt16} (h : wire_id bytes = some id) :
    12 ≤ bytes.length := by
  unfold wire_id at h
  split at h
  · assumption
  · cases h

theorem wire_id_iff {bytes : Bytes} {id : UInt16} :
    wire_id bytes = some id ↔ 12 ≤ bytes.length ∧ bytes.take 2 = u16 id := by
  unfold wire_id
  split
  case isFalse h => simp [h]
  case isTrue h =>
    have htake : bytes.take 2 = [bytes[0], bytes[1]] := by
      obtain _ | ⟨a, _ | ⟨b, t⟩⟩ := bytes
      · exact absurd h (by decide)
      · exact absurd h (by simp)
      · rfl
    rw [Option.some.injEq, htake]
    constructor
    · intro hid
      exact ⟨h, by rw [← hid, u16_from_u16 rfl]⟩
    · rintro ⟨-, hid⟩
      rw [hid, from_u16_u16]

/-- What makes `reply` a reply to the send of `wire` under `id`: QR is set, it has that ID, and its
question is the one asked, up to the case of the name. -/
structure Replies (wire reply : Bytes) (id : UInt16) : Prop where
  response : wire_is_response reply = true
  same_id : reply.take 2 = u16 id
  announced : wire_u16 reply 4 ≠ some 0
  same_question : ∃ (n m : Name) (qtype qclass : UInt16) (t u : Bytes),
    wire.drop 12 = n.bytes ++ (u16 qtype ++ (u16 qclass ++ t)) ∧
      reply.drop 12 = m.bytes ++ (u16 qtype ++ (u16 qclass ++ u)) ∧ n.folded = m.folded

theorem announced_of_first {bytes : Bytes} {q : Dns.FirstQuestion}
    (h : first_question bytes = some q) : ∃ count, wire_u16 bytes 4 = some count ∧ count ≠ 0 := by
  simp only [first_question, Option.bind_eq_bind, Option.bind_eq_some_iff] at h
  obtain ⟨count, hcount, hread⟩ := h
  refine ⟨count, hcount, fun hzero => ?_⟩
  rw [if_pos hzero] at hread
  cases hread

theorem length_of_response {bytes : Bytes} (h : wire_is_response bytes = true) :
    12 ≤ bytes.length := by
  unfold wire_is_response at h
  split at h
  · assumption
  · cases h

theorem is_reply_to_iff (job : Job) {reply : Bytes} {id : UInt16} :
    is_reply_to reply id job.asked = true ↔ Replies job.wire reply id := by
  have hasked := job.has_question
  obtain ⟨q, hq, hfields⟩ := Option.map_eq_some_iff.1 hasked
  obtain ⟨count, hcount, hsome⟩ := announced_of_first hq
  simp only [is_reply_to, Bool.and_eq_true, decide_eq_true_eq, and_assoc]
  constructor
  · rintro ⟨hresponse, hid, hquestion⟩
    obtain ⟨p, hp, hsame⟩ := Option.map_eq_some_iff.1 hquestion
    obtain ⟨n, hn, hname, -⟩ := Dns.question_of_first hq
    obtain ⟨m, hm, hname', -⟩ := Dns.question_of_first hp
    obtain ⟨count', hcount', hsome'⟩ := announced_of_first hp
    rw [← hfields] at hsame
    obtain ⟨hpresent, htype, hclass⟩ :
        p.name = q.name ∧ p.qtype = q.qtype ∧ p.qclass = q.qclass := by simpa using hsame
    rw [htype, hclass] at hm
    refine ⟨hresponse, (wire_id_iff.1 hid).2, ?_, n, m, q.qtype, q.qclass, _, _, hn, hm, ?_⟩
    · simpa [hcount'] using hsome'
    · rw [← Name.present_iff, ← hname, ← hname', hpresent]
  · rintro ⟨hresponse, hid, hannounced, n, m, qtype, qclass, t, u, hn, hm, hfolded⟩
    have hlength := length_of_response hresponse
    have hclient := Dns.first_of_question n hcount hsome hn
    obtain ⟨count', hcount'⟩ : ∃ count', wire_u16 reply 4 = some count' := by
      have hin : 4 ≤ 4 + 2 ∧ 4 + 2 ≤ reply.length := ⟨by omega, by omega⟩
      exact ⟨_, by rw [wire_u16, Quic.slice, if_pos hin]; rfl⟩
    have hreply := Dns.first_of_question m hcount' (by simpa [hcount'] using hannounced) hm
    refine ⟨hresponse, wire_id_iff.2 ⟨hlength, hid⟩, ?_⟩
    rw [wire_question, hreply, ← hasked, wire_question, hclient]
    simp [(Name.present_iff m n).2 hfolded.symm]

variable {ResponseCode : Type} [DecidableEq ResponseCode] {hickory : Hickory ResponseCode}
variable {job : Job} {s : Loop} {e : Event}

/-! ### What was heard -/

namespace Job

variable (hickory) (job)

/-- The reply a send came back with, under the client's ID: none when it failed, or when the message
is no reply to it. -/
def reply (o : Sent) : Option Bytes :=
  match o.result with
  | .ok reply =>
    if is_reply_to reply o.sending.id job.asked then some (set_wire_id reply job.client_id)
    else none
  | .error _ => none

/-- The reply, when it settles the matter. -/
def settled (o : Sent) : Option Bytes := (job.reply o).filter (settles hickory)

/-- The reply, when it has another code than NOERROR or NXDOMAIN. -/
def other (o : Sent) : Option Bytes := (job.reply o).filter fun reply => !settles hickory reply

/-- The upstream has given a reply of another code. -/
def Told (heard : List Sent) (upstream : ℕ) : Prop :=
  ∃ o ∈ heard, o.sending.upstream = upstream ∧ (job.other hickory o).isSome

/-- The first reply that settles the matter, else the first of the others. -/
def judged (heard : List Sent) : Except IoError Bytes :=
  match heard.findSome? (job.settled hickory), heard.findSome? (job.other hickory) with
  | some reply, _ => .ok reply
  | none, some reply => .ok reply
  | none, none => .error no_answer

variable {job}

theorem attempts_pos : 0 < job.attempts := by
  unfold attempts
  omega

variable {hickory} {o : Sent} {reply : Bytes}

theorem settled_of_reply (h : job.reply o = some reply) :
    job.settled hickory o = if settles hickory reply then some reply else none := by
  rw [settled, h, Option.filter_some]

theorem other_of_reply (h : job.reply o = some reply) :
    job.other hickory o = if settles hickory reply then none else some reply := by
  rw [other, h, Option.filter_some]
  cases settles hickory reply <;> rfl

theorem settled_of_none (h : job.reply o = none) : job.settled hickory o = none := by
  rw [settled, h, Option.filter_none]

theorem other_of_none (h : job.reply o = none) : job.other hickory o = none := by
  rw [other, h, Option.filter_none]

end Job

/-! ### A round of sends -/

theorem fresh_id_spec {used draws draws' : List UInt16} {id : UInt16}
    (h : fresh_id used draws = some (id, draws')) : id ∉ used := by
  induction draws with
  | nil => cases h
  | cons drawn draws ih =>
    unfold fresh_id at h
    split at h
    · exact ih h
    · obtain ⟨rfl, -⟩ := Prod.mk.inj (Option.some.inj h)
      assumption

namespace Loop

/-- What the sends of a round make of the loop: `news` are sent, each under an ID of its own, to
upstreams that have not replied; to all of them, unless no ID is left. -/
structure Sends (job : Job) (upstreams : List ℕ) (s s' : Loop) (news : List Sending) : Prop where
  same : s' = { s with
    used := s.used ++ news.map Sending.id
    set := s.set ++ news
    sent := s.sent ++ news
    stuck := s'.stuck }
  wires : ∀ x ∈ news, x.wire = set_wire_id job.wire x.id ∧ x.upstream ∈ upstreams ∧
    s.replied.getD x.upstream false = false
  nodup : s.used.Nodup → (s.used ++ news.map Sending.id).Nodup
  all : s'.stuck = false →
    news.map Sending.upstream = upstreams.filter fun i => !s.replied.getD i false
  some_left : s'.stuck = true → news.length < upstreams.length

theorem Sends.length_le {upstreams : List ℕ} {s' : Loop} {news : List Sending}
    (h : Sends job upstreams s s' news) : news.length ≤ upstreams.length := by
  cases hstuck : s'.stuck with
  | true => exact (h.some_left hstuck).le
  | false =>
    rw [← List.length_map (f := Sending.upstream), h.all hstuck]
    exact List.length_filter_le _ _

theorem sends_send_all (upstreams : List ℕ) (draws : List UInt16) (hs : s.stuck = false) :
    ∃ news, Sends job upstreams s (send_all job upstreams draws s) news := by
  induction upstreams generalizing draws s with
  | nil => exact ⟨[], ⟨by simp [send_all], by simp, by simp, by simp, by simp [send_all, hs]⟩⟩
  | cons upstream rest ih =>
    unfold send_all
    split
    case isTrue hreplied =>
      obtain ⟨news, hsame, hwires, hnodup, hall, hleft⟩ := ih draws hs
      refine ⟨news, hsame, fun x hx => ?_, hnodup, fun h => ?_, fun h => (hleft h).trans (by simp)⟩
      · obtain ⟨hwire, hmem, hnot⟩ := hwires x hx
        exact ⟨hwire, List.mem_cons_of_mem _ hmem, hnot⟩
      · simp only [hall h, List.filter_cons, hreplied, Bool.not_true, Bool.false_eq_true, if_false]
    case isFalse hreplied =>
      rw [Bool.not_eq_true] at hreplied
      split
      · exact ⟨[], ⟨by simp, by simp, by simp, by simp, by simp⟩⟩
      · rename_i id draws' hfresh
        have hnew := fresh_id_spec hfresh
        obtain ⟨news, hsame, hwires, hnodup, hall, hleft⟩ :=
          @ih (s.sends job upstream id) draws' hs
        refine ⟨⟨upstream, id, set_wire_id job.wire id⟩ :: news, ?_, fun x hx => ?_, fun h => ?_,
          fun h => ?_, fun h => Nat.succ_lt_succ (hleft h)⟩
        · rw [hsame]
          simp [sends]
        · rcases List.mem_cons.1 hx with rfl | hx
          · exact ⟨rfl, List.mem_cons_self, hreplied⟩
          · obtain ⟨hwire, hmem, hnot⟩ := hwires x hx
            exact ⟨hwire, List.mem_cons_of_mem _ hmem, hnot⟩
        · have hone : (s.used ++ [id]).Nodup :=
            List.Nodup.append h (List.nodup_singleton id) (by simpa using hnew)
          simpa [sends] using hnodup hone
        · have hrest := hall h
          simp only [sends] at hrest
          simp only [List.map_cons, hrest, List.filter_cons, hreplied, Bool.not_false, if_true]

/-! ### What holds in every state -/

variable (hickory) in
/-- The loop in any state it comes to: what it keeps count of is what it sent and heard. -/
structure Sound (job : Job) (s : Loop) : Prop where
  used : s.used = job.client_id :: s.sent.map Sending.id
  nodup : s.used.Nodup
  wires : ∀ x ∈ s.sent, x.wire = set_wire_id job.wire x.id ∧ x.upstream < job.upstreams
  set : ∀ x ∈ s.set, x ∈ s.sent
  heard : ∀ o ∈ s.heard, o.sending ∈ s.sent
  round : s.round ≤ job.attempts
  next_send : s.next_send = job.start + job.opts.resend * s.round
  few : s.stuck = false → s.sent.length ≤ job.upstreams * s.round
  fewer : s.stuck = true → s.sent.length < job.upstreams * job.attempts
  fair : s.Fair
  length_replied : s.replied.length = job.upstreams
  replied : ∀ i, s.replied.getD i false = true ↔ job.Told hickory s.heard i
  kept : s.kept = s.heard.findSome? (job.other hickory)

/-- The timer is due, and what is left to do before it is. -/
def Due (job : Job) (s : Loop) : Prop :=
  s.round < job.attempts ∧ s.next_send ≤ s.now ∧ s.now < job.deadline

/-- What a turn makes of the loop: it sends a round, or it sends nothing. -/
theorem turn_cases (draws : List UInt16) (hs : s.stuck = false) :
    (¬ Due job s ∧ turn job draws s = s) ∨ (Due job s ∧ ∃ s' news,
      Sends job (List.range job.upstreams) s s' news ∧
        (s'.stuck = true ∧ turn job draws s = s' ∨ s'.stuck = false ∧ turn job draws s =
          { s' with
            round := s.round + 1
            next_send := job.start + job.opts.resend * (s.round + 1) })) := by
  by_cases hdue : Due job s
  · obtain ⟨news, hsends⟩ := @sends_send_all job s (List.range job.upstreams) draws hs
    refine .inr ⟨hdue, _, news, hsends, ?_⟩
    have hround : (send_all job (List.range job.upstreams) draws s).round = s.round := by
      rw [hsends.same]
    unfold Due at hdue
    rw [turn, if_pos hdue]
    dsimp only
    rw [hround]
    cases hstuck : (send_all job (List.range job.upstreams) draws s).stuck with
    | true => exact .inl ⟨rfl, by rw [if_pos rfl]⟩
    | false => exact .inr ⟨rfl, by rw [if_neg Bool.false_ne_true]⟩
  · refine .inl ⟨hdue, ?_⟩
    unfold Due at hdue
    rw [turn, if_neg hdue]

namespace Sound

theorem turn (h : Sound hickory job s) (hs : s.stuck = false) {draws : List UInt16}
    (hfair : (turn job draws s).Fair) : Sound hickory job (turn job draws s) := by
  obtain ⟨-, heq⟩ | ⟨hdue, s', news, hsends, hcase⟩ := @turn_cases job s draws hs
  · rwa [heq]
  have hlength : news.length ≤ job.upstreams := by simpa using hsends.length_le
  have hfew := h.few hs
  have hmore : job.upstreams * (s.round + 1) ≤ job.upstreams * job.attempts :=
    Nat.mul_le_mul_left _ hdue.1
  rw [Nat.mul_add] at hmore
  have hwires : ∀ x ∈ s.sent ++ news, x.wire = set_wire_id job.wire x.id ∧
      x.upstream < job.upstreams := by
    intro x hx
    rcases List.mem_append.1 hx with hx | hx
    · exact h.wires x hx
    · obtain ⟨hwire, hmem, -⟩ := hsends.wires x hx
      exact ⟨hwire, List.mem_range.1 hmem⟩
  have hset : ∀ x ∈ s.set ++ news, x ∈ s.sent ++ news := by
    intro x hx
    exact List.mem_append.2 ((List.mem_append.1 hx).imp_left (h.set x))
  have hheard : ∀ o ∈ s.heard, o.sending ∈ s.sent ++ news :=
    fun o ho => List.mem_append_left _ (h.heard o ho)
  have hused : s.used ++ news.map Sending.id =
      job.client_id :: (s.sent ++ news).map Sending.id := by simp [h.used]
  have hsame := hsends.same
  obtain ⟨hstuck, heq⟩ | ⟨hstuck, heq⟩ := hcase
  · have hless := hsends.some_left hstuck
    rw [heq, hsame, hstuck] at hfair
    rw [List.length_range] at hless
    rw [heq, hsame, hstuck]
    exact ⟨hused, hsends.nodup h.nodup, hwires, hset, hheard, h.round, h.next_send, by simp,
      fun _ => by simp only [List.length_append]; omega, hfair, h.length_replied, h.replied, h.kept⟩
  · rw [heq, hsame, hstuck]
    exact ⟨hused, hsends.nodup h.nodup, hwires, hset, hheard, hdue.1, rfl,
      fun _ => by simp only [List.length_append, Nat.mul_add]; omega, by simp, by simp [Fair],
      h.length_replied, h.replied, h.kept⟩

theorem finish (h : Sound hickory job s) : Sound hickory job s.finish :=
  ⟨h.used, h.nodup, h.wires, h.set, h.heard, h.round, h.next_send, h.few, h.fewer, h.fair,
    h.length_replied, h.replied, h.kept⟩

theorem later (h : Sound hickory job s) (now : ℕ) : Sound hickory job { s with now := now } :=
  ⟨h.used, h.nodup, h.wires, h.set, h.heard, h.round, h.next_send, h.few, h.fewer, h.fair,
    h.length_replied, h.replied, h.kept⟩

end Sound

/-! ### What came back is taken in -/

variable (hickory) in
/-- What came back with a send is taken in. -/
def hear (job : Job) (s : Loop) (i at_ : ℕ) (o : Sent) : Loop :=
  { s with
    now := at_
    set := s.set.eraseIdx i
    heard := s.heard ++ [o]
    replied := if (job.other hickory o).isSome then s.replied.set o.sending.upstream true
      else s.replied
    kept := s.kept.or (job.other hickory o) }

variable (hickory) in
/-- What follows from it: the end with a reply that settles the matter, the end when that was the
last upstream to reply, and else a turn. -/
def follow (job : Job) (draws : List UInt16) (s : Loop) (o : Sent) : Loop :=
  match job.settled hickory o with
  | some reply => { s with result := some (.ok reply) }
  | none =>
    if (job.other hickory o).isSome ∧ s.replied.all (fun done => done) = true then s.finish
    else turn job draws s

theorem told_concat {heard : List Sent} {o : Sent} {i : ℕ} :
    job.Told hickory (heard ++ [o]) i ↔
      job.Told hickory heard i ∨ o.sending.upstream = i ∧ (job.other hickory o).isSome := by
  constructor
  · rintro ⟨o', ho', h⟩
    rcases List.mem_append.1 ho' with ho' | ho'
    · exact .inl ⟨o', ho', h⟩
    · obtain rfl := List.mem_singleton.1 ho'
      exact .inr h
  · rintro (⟨o', ho', h⟩ | h)
    · exact ⟨o', List.mem_append_left _ ho', h⟩
    · exact ⟨o, by simp, h⟩

theorem step_joins {i : ℕ} (hi : i < s.set.length) (result : Except Fanout.UpstreamError Bytes)
    (at_ : ℕ) (draws : List UInt16) :
    s.step hickory job (.joins i result at_ draws) =
      follow hickory job draws (s.hear hickory job i at_ ⟨s.set[i], result⟩)
        ⟨s.set[i], result⟩ := by
  have hget : s.set[i]? = some s.set[i] := List.getElem?_eq_getElem hi
  simp only [step, hget]
  cases result with
  | error e =>
    have hnone : job.reply ⟨s.set[i], .error e⟩ = none := rfl
    simp [follow, hear, Job.settled_of_none hnone, Job.other_of_none hnone]
  | ok reply =>
    dsimp only
    by_cases hreply : is_reply_to reply s.set[i].id job.asked = true
    · have hsome : job.reply ⟨s.set[i], .ok reply⟩ = some (set_wire_id reply job.client_id) :=
        if_pos hreply
      rw [if_pos hreply, follow, hear, Job.settled_of_reply hsome, Job.other_of_reply hsome, takes]
      cases settles hickory (set_wire_id reply job.client_id) with
      | true => simp
      | false => cases hkept : s.kept <;> simp
    · have hnone : job.reply ⟨s.set[i], .ok reply⟩ = none := if_neg hreply
      rw [if_neg hreply]
      simp [follow, hear, Job.settled_of_none hnone, Job.other_of_none hnone]

theorem Sound.hear (h : Sound hickory job s) {i : ℕ} (hi : i < s.set.length) (at_ : ℕ)
    (result : Except Fanout.UpstreamError Bytes) :
    Sound hickory job (s.hear hickory job i at_ ⟨s.set[i], result⟩) := by
  have hsending := h.set _ (List.getElem_mem hi)
  refine ⟨h.used, h.nodup, h.wires, fun x hx => h.set x (List.mem_of_mem_eraseIdx hx),
    fun o ho => ?_, h.round, h.next_send, h.few, h.fewer, h.fair, ?_, fun j => ?_, ?_⟩
  · rcases List.mem_append.1 ho with ho | ho
    · exact h.heard o ho
    · obtain rfl := List.mem_singleton.1 ho
      exact hsending
  · have hlength := h.length_replied
    simp only [Loop.hear]
    split
    · rwa [List.length_set]
    · exact hlength
  · have hplace : s.set[i].upstream < s.replied.length := h.length_replied ▸ (h.wires _ hsending).2
    have hbefore := h.replied j
    simp only [Loop.hear, told_concat]
    split
    case isTrue hother =>
      rw [List.getD_eq_getElem?_getD] at hbefore ⊢
      rw [List.getElem?_set]
      by_cases hj : s.set[i].upstream = j
      · simp [hj, hother, hj ▸ hplace]
      · simp only [hj, if_false, false_and, or_false]
        exact hbefore
    case isFalse hother => simpa [hother] using hbefore
  · simp only [Loop.hear, h.kept, List.findSome?_append]
    simp

variable (hickory) in
/-- While the loop waits nothing has settled the matter and some upstream has not replied; when it
has ended, it is with the reply that was to be chosen, and for one of the three reasons. -/
structure Stands (job : Job) (s : Loop) : Prop where
  sound : Sound hickory job s
  waits : s.result = none →
    s.heard.findSome? (job.settled hickory) = none ∧
      ∃ i < job.upstreams, ¬ job.Told hickory s.heard i
  chosen : ∀ r, s.result = some r → r = job.judged hickory s.heard
  reason : ∀ r, s.result = some r → (s.heard.findSome? (job.settled hickory)).isSome ∨
    (∀ i < job.upstreams, job.Told hickory s.heard i) ∨ job.deadline ≤ s.now

/-- A turn changes nothing of what was heard and when. -/
theorem turn_same (draws : List UInt16) (hs : s.stuck = false) :
    (turn job draws s).heard = s.heard ∧ (turn job draws s).now = s.now ∧
      (turn job draws s).result = s.result := by
  obtain ⟨-, heq⟩ | ⟨-, s', news, hsends, ⟨-, heq⟩ | ⟨-, heq⟩⟩ := @turn_cases job s draws hs
  · rw [heq]
    exact ⟨rfl, rfl, rfl⟩
  · rw [heq, hsends.same]
    exact ⟨rfl, rfl, rfl⟩
  · rw [heq, hsends.same]
    exact ⟨rfl, rfl, rfl⟩

theorem Sound.all_replied (h : Sound hickory job s) :
    s.replied.all (fun done => done) = true ↔ ∀ i < job.upstreams, job.Told hickory s.heard i := by
  rw [List.all_eq_true]
  constructor
  · intro hall i hi
    have hlt : i < s.replied.length := h.length_replied ▸ hi
    rw [← h.replied, List.getD_eq_getElem _ _ hlt]
    exact hall _ (List.getElem_mem hlt)
  · intro hall x hx
    obtain ⟨i, hi, rfl⟩ := List.mem_iff_getElem.1 hx
    rw [← List.getD_eq_getElem _ false hi, h.replied]
    exact hall i (h.length_replied ▸ hi)

/-- The loop ends with what it kept, when nothing settled the matter. -/
theorem Sound.stands_finish (h : Sound hickory job s)
    (hnone : s.heard.findSome? (job.settled hickory) = none)
    (hreason : (∀ i < job.upstreams, job.Told hickory s.heard i) ∨ job.deadline ≤ s.now) :
    Stands hickory job s.finish := by
  refine ⟨h.finish, by simp [Loop.finish], fun r hr => ?_, fun r hr => .inr hreason⟩
  obtain rfl := Option.some.inj hr
  simp only [Loop.finish, Job.judged, hnone, h.kept]
  cases s.heard.findSome? (job.other hickory) <;> rfl

theorem Sound.stands_turn (h : Sound hickory job s) (hs : s.stuck = false)
    (hresult : s.result = none) {draws : List UInt16} (hfair : (Loop.turn job draws s).Fair)
    (hnone : s.heard.findSome? (job.settled hickory) = none)
    (hopen : ∃ i < job.upstreams, ¬ job.Told hickory s.heard i) :
    Stands hickory job (Loop.turn job draws s) := by
  obtain ⟨hheard, hnow, hsame⟩ := @turn_same job s draws hs
  refine ⟨h.turn hs hfair, fun _ => by rw [hheard]; exact ⟨hnone, hopen⟩, ?_, ?_⟩
  · intro r hr
    rw [hsame, hresult] at hr
    cases hr
  · intro r hr
    rw [hsame, hresult] at hr
    cases hr

theorem Stands.begin {draws : List UInt16} (hfair : (begin_ job draws).Fair) :
    Stands hickory job (begin_ job draws) := by
  have hsound : Sound hickory job ⟨job.start, 0, job.start, [job.client_id],
      List.replicate job.upstreams false, none, [], [], [], false, none⟩ := by
    refine ⟨rfl, List.nodup_singleton _, by simp, by simp, by simp, Nat.zero_le _, rfl, by simp,
      by simp, by simp [Fair], by simp, fun i => ?_, rfl⟩
    simp only [List.getD_eq_getElem?_getD, List.getElem?_replicate, Job.Told, List.not_mem_nil,
      false_and, exists_false, iff_false]
    split <;> simp
  refine hsound.stands_turn rfl rfl hfair rfl ⟨0, job.has_upstream, ?_⟩
  rintro ⟨o, ho, -⟩
  cases ho

theorem Stands.step (h : Stands hickory job s) (he : s.Awaits hickory job e) :
    Stands hickory job (s.step hickory job e) := by
  obtain ⟨hresult, hstuck, -, hfair, he⟩ := he
  obtain ⟨hnone, hopen⟩ := h.waits hresult
  cases e with
  | joins i result at_ draws =>
    simp only at he
    rw [step_joins he] at hfair ⊢
    have hheard := h.sound.hear he at_ result
    set o : Sent := ⟨s.set[i], result⟩ with ho
    have hsettled : (s.hear hickory job i at_ o).heard.findSome? (job.settled hickory) =
        job.settled hickory o := by
      simp [Loop.hear, hnone]
    unfold follow at hfair ⊢
    cases hgood : job.settled hickory o with
    | some reply =>
      rw [hgood] at hsettled
      refine ⟨⟨hheard.used, hheard.nodup, hheard.wires, hheard.set, hheard.heard, hheard.round,
        hheard.next_send, hheard.few, hheard.fewer, hheard.fair, hheard.length_replied,
        hheard.replied, hheard.kept⟩, by simp, fun r hr => ?_, fun r hr => .inl ?_⟩
      · obtain rfl := Option.some.inj hr
        simp only [Job.judged, hsettled]
      · simp only [hsettled, Option.isSome_some]
    | none =>
      rw [hgood] at hsettled hfair
      dsimp only at hfair ⊢
      split
      case isTrue hlast =>
        exact hheard.stands_finish hsettled (.inl (hheard.all_replied.1 hlast.2))
      case isFalse hmore =>
        rw [if_neg hmore] at hfair
        refine hheard.stands_turn hstuck hresult hfair hsettled ?_
        by_cases hother : (job.other hickory o).isSome
        · by_contra hall
          push Not at hall
          exact hmore ⟨hother, hheard.all_replied.2 hall⟩
        · obtain ⟨j, hj, hnot⟩ := hopen
          refine ⟨j, hj, fun htold => ?_⟩
          rcases told_concat.1 htold with htold | ⟨-, hsome⟩
          · exact hnot htold
          · exact hother hsome
  | dies i at_ draws =>
    have hless : Sound hickory job { s with now := at_, set := s.set.eraseIdx i } :=
      ⟨h.sound.used, h.sound.nodup, h.sound.wires,
        fun x hx => h.sound.set x (List.mem_of_mem_eraseIdx hx), h.sound.heard, h.sound.round,
        h.sound.next_send, h.sound.few, h.sound.fewer, h.sound.fair, h.sound.length_replied,
        h.sound.replied, h.sound.kept⟩
    exact hless.stands_turn hstuck hresult hfair hnone hopen
  | ticks at_ draws =>
    have hlater := h.sound.later at_
    simp only [Loop.step, Loop.ticks] at hfair ⊢
    split
    case isTrue hend =>
      refine hlater.stands_finish hnone (.inr ?_)
      rcases hend with hround | hdeadline
      · simpa [tick, hround.not_gt] using he
      · exact hdeadline
    case isFalse hmore =>
      rw [if_neg hmore] at hfair
      exact hlater.stands_turn hstuck hresult hfair hnone hopen

/-! ### Every event takes the loop closer to its end -/

/-- What an event makes of the loop: it wakes it, with what came taken in, and the loop takes its
next turn, or it ends. -/
theorem Sound.woken (h : Sound hickory job s) (he : s.Awaits hickory job e) :
    ∃ s' draws, Sound hickory job s' ∧ s'.result = none ∧ s'.stuck = false ∧ s'.now = e.at_ ∧
      s'.round = s.round ∧ s'.next_send = s.next_send ∧ s'.sent = s.sent ∧
      ((s.step hickory job e = Loop.turn job draws s' ∧ (s'.set.length < s.set.length ∨
          s'.set = s.set ∧ s.tick job ≤ e.at_ ∧ s.round < job.attempts ∧ e.at_ < job.deadline)) ∨
        ∃ r, s.step hickory job e = { s' with result := some r }) := by
  obtain ⟨hresult, hstuck, -, -, he⟩ := he
  cases e with
  | joins i result at_ draws =>
    simp only at he
    refine ⟨_, draws, h.hear he at_ result, hresult, hstuck, rfl, rfl, rfl, rfl, ?_⟩
    rw [step_joins he]
    unfold follow
    split
    · exact .inr ⟨_, rfl⟩
    · split
      · exact .inr ⟨_, rfl⟩
      · refine .inl ⟨rfl, .inl ?_⟩
        simp only [Loop.hear]
        rw [List.length_eraseIdx_of_lt he]
        omega
  | dies i at_ draws =>
    simp only at he
    refine ⟨{ s with now := at_, set := s.set.eraseIdx i }, draws, ⟨h.used, h.nodup, h.wires,
      fun x hx => h.set x (List.mem_of_mem_eraseIdx hx), h.heard, h.round, h.next_send, h.few,
      h.fewer, h.fair, h.length_replied, h.replied, h.kept⟩, hresult, hstuck, rfl, rfl, rfl, rfl,
      .inl ⟨rfl, .inl ?_⟩⟩
    dsimp only
    rw [List.length_eraseIdx_of_lt he]
    omega
  | ticks at_ draws =>
    refine ⟨_, draws, h.later at_, hresult, hstuck, rfl, rfl, rfl, rfl, ?_⟩
    rw [Loop.step, Loop.ticks]
    split
    · exact .inr ⟨_, rfl⟩
    case isFalse hmore =>
      rw [not_or, not_le, not_le] at hmore
      exact .inl ⟨rfl, .inr ⟨rfl, he, hmore⟩⟩

/-- How far the loop is from its end. -/
def left (job : Job) (s : Loop) : ℕ :=
  if s.result.isSome ∨ s.stuck = true then 0
  else (job.attempts - s.round) * (job.upstreams + 1) + s.set.length + 1

theorem left_eq (hresult : s.result = none) (hstuck : s.stuck = false) :
    left job s = (job.attempts - s.round) * (job.upstreams + 1) + s.set.length + 1 := by
  simp [left, hresult, hstuck]

/-- A loop that sends is closer to its end, whatever it sends. -/
theorem left_turn_lt {draws : List UInt16} (hresult : s.result = none) (hstuck : s.stuck = false)
    (hdue : Due job s) : left job (turn job draws s) < left job s := by
  rw [left_eq hresult hstuck]
  obtain ⟨hnot, -⟩ | ⟨-, s', news, hsends, ⟨hstuck', heq⟩ | ⟨hstuck', heq⟩⟩ :=
    @turn_cases job s draws hstuck
  · exact absurd hdue hnot
  · simp [heq, left, hstuck']
  · have hlength := hsends.length_le
    rw [List.length_range] at hlength
    have hround : job.attempts - s.round = job.attempts - (s.round + 1) + 1 := by
      have := hdue.1
      omega
    have hset : s'.set = s.set ++ news := by rw [hsends.same]
    have hwaits : s'.result = none := by
      rw [hsends.same]
      exact hresult
    rw [heq, left, if_neg (by simp [hwaits, hstuck']), hset, hround, Nat.add_mul]
    simp only [List.length_append]
    omega

theorem left_turn_le {draws : List UInt16} (hresult : s.result = none) (hstuck : s.stuck = false) :
    left job (turn job draws s) ≤ left job s := by
  by_cases hdue : Due job s
  · exact (left_turn_lt hresult hstuck hdue).le
  · obtain ⟨-, heq⟩ | ⟨hdue', -⟩ := @turn_cases job s draws hstuck
    · rw [heq]
    · exact absurd hdue' hdue

theorem left_step_lt (h : Sound hickory job s) (he : s.Awaits hickory job e) :
    left job (s.step hickory job e) < left job s := by
  have hhere := @left_eq job s he.1 he.2.1
  obtain ⟨s', draws, -, hresult, hstuck, hnow, hround, hnext, -,
    ⟨heq, hset | ⟨hset, htick, hmore, hin⟩⟩ | ⟨r, heq⟩⟩ := h.woken he
  · have hclose : left job s' < left job s := by
      rw [left_eq hresult hstuck, hhere, hround]
      omega
    exact heq ▸ (left_turn_le hresult hstuck).trans_lt hclose
  · have hsame : left job s' = left job s := by rw [left_eq hresult hstuck, hhere, hround, hset]
    rw [tick, if_pos hmore] at htick
    rw [heq, ← hsame]
    exact left_turn_lt hresult hstuck ⟨hround ▸ hmore, hnext ▸ hnow ▸ htick, hnow ▸ hin⟩
  · rw [heq, hhere]
    simp [left]

/-! ### What is sent, and when the loop ends -/

/-- A turn asks only those that have not replied. -/
theorem turn_sends (h : Sound hickory job s) (hs : s.stuck = false) (draws : List UInt16) :
    ∃ news, (turn job draws s).sent = s.sent ++ news ∧
      ∀ x ∈ news, ¬ job.Told hickory (turn job draws s).heard x.upstream := by
  obtain ⟨hheard, -, -⟩ := @turn_same job s draws hs
  rw [hheard]
  have hnot : ∀ {s' news}, Sends job (List.range job.upstreams) s s' news →
      ∀ x ∈ news, ¬ job.Told hickory s.heard x.upstream := by
    intro s' news hsends x hx
    rw [← h.replied, (hsends.wires x hx).2.2]
    exact Bool.false_ne_true
  obtain ⟨-, heq⟩ | ⟨-, s', news, hsends, ⟨-, heq⟩ | ⟨-, heq⟩⟩ := @turn_cases job s draws hs
  · exact ⟨[], by rw [heq, List.append_nil], by simp⟩
  · exact ⟨news, by rw [heq, hsends.same], hnot hsends⟩
  · exact ⟨news, by rw [heq, hsends.same], hnot hsends⟩

theorem step_sends (h : Sound hickory job s) (he : s.Awaits hickory job e) :
    ∃ news, (s.step hickory job e).sent = s.sent ++ news ∧
      ∀ x ∈ news, ¬ job.Told hickory (s.step hickory job e).heard x.upstream := by
  obtain ⟨s', draws, h', -, hstuck, -, -, -, hsent, ⟨heq, -⟩ | ⟨r, heq⟩⟩ := h.woken he
  · rw [heq, ← hsent]
    exact turn_sends h' hstuck draws
  · exact ⟨[], by rw [heq, ← hsent, List.append_nil], by simp⟩

/-- The loop gets to run when its timer is due, if not before. -/
def Prompt (job : Job) (s : Loop) (e : Event) : Prop := e.at_ ≤ s.tick job

theorem Sound.tick_le_deadline (h : Sound hickory job s) : s.tick job ≤ job.deadline := by
  unfold tick
  split
  · rw [h.next_send, Job.deadline]
    exact Nat.add_le_add_left (Nat.mul_le_mul_left _ h.round) _
  · exact le_rfl

/-- The timer is never set to a time that is gone. -/
theorem now_le_tick_turn (hnext : s.next_send = job.start + job.opts.resend * s.round)
    (hs : s.stuck = false) (hnow : s.now ≤ s.tick job) (draws : List UInt16) :
    (turn job draws s).now ≤ (turn job draws s).tick job := by
  obtain ⟨-, heq⟩ | ⟨hdue, s', news, hsends, ⟨-, heq⟩ | ⟨-, heq⟩⟩ := @turn_cases job s draws hs
  · rwa [heq]
  · rw [heq, hsends.same]
    exact hnow
  · rw [heq, hsends.same]
    rw [tick, if_pos hdue.1, hnext] at hnow
    simp only [tick]
    split
    · exact hnow.trans (Nat.add_le_add_left (Nat.mul_le_mul_left _ (Nat.le_succ _)) _)
    · exact hdue.2.2.le

theorem Sound.now_le_tick (h : Sound hickory job s) (he : s.Awaits hickory job e)
    (hprompt : Prompt job s e) :
    (s.step hickory job e).now ≤ (s.step hickory job e).tick job := by
  obtain ⟨s', draws, h', -, hstuck, hnow, hround, hnext, -, hcase⟩ := h.woken he
  have hin : s'.now ≤ s'.tick job := by
    rw [hnow, tick, hround, hnext]
    exact hprompt
  obtain ⟨heq, -⟩ | ⟨r, heq⟩ := hcase
  · exact heq ▸ now_le_tick_turn h'.next_send hstuck hin draws
  · rw [heq]
    exact hin

/-! ### IDs are drawn until there is none -/

theorem exists_draws_all (upstreams : List ℕ) (hs : s.stuck = false) :
    ∃ draws, (send_all job upstreams draws s).Fair := by
  induction upstreams generalizing s with
  | nil => exact ⟨[], by simp [send_all, Fair, hs]⟩
  | cons upstream rest ih =>
    by_cases hreplied : s.replied.getD upstream false = true
    · obtain ⟨draws, hfair⟩ := ih hs
      exact ⟨draws, by rwa [send_all, if_pos hreplied]⟩
    · by_cases hleft : ∃ id, id ∉ s.used
      · obtain ⟨id, hid⟩ := hleft
        obtain ⟨draws, hfair⟩ := @ih (s.sends job upstream id) hs
        refine ⟨id :: draws, ?_⟩
        rw [send_all, if_neg hreplied, fresh_id, if_neg hid]
        exact hfair
      · push Not at hleft
        refine ⟨[], ?_⟩
        rw [send_all, if_neg hreplied, fresh_id]
        exact fun _ => hleft

theorem exists_draws (hs : s.stuck = false) : ∃ draws, (turn job draws s).Fair := by
  obtain ⟨draws, hfair⟩ := @exists_draws_all job s (List.range job.upstreams) hs
  refine ⟨draws, ?_⟩
  unfold turn
  split
  · dsimp only
    split
    · exact hfair
    · exact hfair
  · simp [Fair, hs]

/-- A timer that is due can fire. -/
theorem awaits_ticks {at_ : ℕ} (hresult : s.result = none) (hstuck : s.stuck = false)
    (hnow : s.now ≤ at_) (hdue : s.tick job ≤ at_) :
    ∃ draws, s.Awaits hickory job (.ticks at_ draws) := by
  obtain ⟨draws, hfair⟩ := @exists_draws job { s with now := at_ } hstuck
  refine ⟨draws, hresult, hstuck, hnow, ?_, hdue⟩
  rw [step, ticks]
  split
  · simp [Fair, finish, hstuck]
  · exact hfair

/-- There are not more IDs than there are. -/
theorem length_ids_le {ids : List UInt16} (h : ids.Nodup) : ids.length ≤ 2 ^ 16 := by
  have hnodup : (ids.map UInt16.toNat).Nodup := h.map fun a b => UInt16.toNat_inj.1
  have hsub : ids.map UInt16.toNat ⊆ List.range (2 ^ 16) := by
    intro n hn
    obtain ⟨id, -, rfl⟩ := List.mem_map.1 hn
    exact List.mem_range.2 id.toNat_lt
  simpa using (List.subperm_of_subset hnodup hsub).length_le

/-- When every ID is used there were as many. -/
theorem le_length_ids {ids : List UInt16} (h : ∀ id, id ∈ ids) : 2 ^ 16 ≤ ids.length := by
  have hsub : List.range (2 ^ 16) ⊆ ids.map UInt16.toNat := by
    intro n hn
    exact List.mem_map.2 ⟨UInt16.ofNat n, h _, UInt16.toNat_ofNat_of_lt' (List.mem_range.1 hn)⟩
  simpa using (List.subperm_of_subset List.nodup_range hsub).length_le

theorem Sound.not_stuck (h : Sound hickory job s)
    (hfew : job.upstreams * job.attempts < 2 ^ 16) : s.stuck = false := by
  by_contra hstuck
  rw [Bool.not_eq_false] at hstuck
  have hall := le_length_ids (h.fair hstuck)
  have hsent := h.fewer hstuck
  rw [h.used, List.length_cons, List.length_map] at hall
  omega

end Loop

/-! ### What a forward promises -/

/-- A reply taken is a reply to its send, changed in its ID only, which is the client's. -/
theorem reply_iff {o : Sent} {r : Bytes} : job.reply o = some r ↔
    ∃ reply, o.result = .ok reply ∧ Replies job.wire reply o.sending.id ∧
      r.take 2 = job.wire.take 2 ∧ r.drop 2 = reply.drop 2 := by
  have hclient := (wire_id_iff.1 job.has_id).2
  unfold Job.reply
  cases hresult : o.result with
  | error e => simp
  | ok reply =>
    dsimp only
    constructor
    · intro h
      split at h
      case isFalse => cases h
      case isTrue hreply =>
        have hreplies := (is_reply_to_iff job).1 hreply
        have hlength := length_of_response hreplies.response
        obtain rfl := Option.some.inj h
        refine ⟨reply, rfl, hreplies, ?_, drop_set_wire_id _ _⟩
        rw [take_set_wire_id (by omega), hclient]
    · rintro ⟨reply', hsame, hreplies, htake, hdrop⟩
      obtain rfl := Except.ok.inj hsame
      have hlength := length_of_response hreplies.response
      rw [if_pos ((is_reply_to_iff job).2 hreplies), Option.some.injEq, set_wire_id,
        if_pos (by omega), ← hclient, ← htake, ← hdrop, List.take_append_drop]

variable (hickory) in
/-- What a forward promises of the state it has come to after the events. -/
structure Job.Keeps (job : Job) (draws : List UInt16) (events : List Event) (s : Loop) : Prop where
  /-- The sends differ from the client's query in their ID only, and that is no other's. -/
  sends : ∀ x ∈ s.sent, x.upstream < job.upstreams ∧ x.wire.take 2 = u16 x.id ∧
    x.wire.drop 2 = job.wire.drop 2
  ids : job.wire.take 2 = u16 job.client_id ∧ (job.client_id :: s.sent.map Sending.id).Nodup
  /-- No one is asked again who has given another code. -/
  asks : Runs.Along (Loop.step hickory job) (fun s e => ∃ news,
    (s.step hickory job e).sent = s.sent ++ news ∧
      ∀ x ∈ news, ¬ job.Told hickory (s.step hickory job e).heard x.upstream)
    (Loop.begin_ job draws) events
  /-- What it takes for a reply is one to the send it came for. -/
  replies : ∀ o ∈ s.heard, o.sending ∈ s.sent ∧ ∀ r, job.reply o = some r ↔
    ∃ reply, o.result = .ok reply ∧ Replies job.wire reply o.sending.id ∧
      r.take 2 = job.wire.take 2 ∧ r.drop 2 = reply.drop 2
  /-- It ends with the first that settles the matter, else with the first of the others. -/
  result : ∀ r, s.result = some r → r = job.judged hickory s.heard
  /-- It ends for one of three reasons, and as soon as there is one of the first two. -/
  reason : ∀ r, s.result = some r → (s.heard.findSome? (job.settled hickory)).isSome ∨
    (∀ i < job.upstreams, job.Told hickory s.heard i) ∨ job.deadline ≤ s.now
  waits : s.result = none → s.heard.findSome? (job.settled hickory) = none ∧
    ∃ i < job.upstreams, ¬ job.Told hickory s.heard i
  /-- There are only so many events before it has ended, and until then its timer can fire, unless
  there are more sends than IDs. -/
  ends : events.length ≤ job.attempts * (job.upstreams + 1) + 1
  goes_on : job.upstreams * job.attempts < 2 ^ 16 → s.result = none →
    ∃ draws, s.Awaits hickory job (.ticks (max s.now (s.tick job)) draws)
  /-- Where it gets to run in time it is over by the deadline: it never waits longer. -/
  in_time : Runs.Along (Loop.step hickory job) (Loop.Prompt job) (Loop.begin_ job draws) events →
    s.now ≤ job.deadline ∧ (job.upstreams * job.attempts < 2 ^ 16 → s.result = none →
      s.tick job ≤ job.deadline ∧ ∃ draws, s.Awaits hickory job (.ticks (s.tick job) draws))

theorem keeps (job : Job) (draws : List UInt16) (events : List Event)
    (hfair : (Loop.begin_ job draws).Fair)
    (h : Runs.Along (Loop.step hickory job) (Loop.Awaits hickory job) (Loop.begin_ job draws)
      events) :
    job.Keeps hickory draws events
      (Runs.run (Loop.step hickory job) (Loop.begin_ job draws) events) := by
  have hbegin := @Loop.Stands.begin _ _ hickory job draws hfair
  have hstands := h.invariant (fun s e hs he => hs.step he) hbegin
  have hsound := hstands.sound
  refine ⟨fun x hx => ?_, ⟨?_, ?_⟩, ?_, fun o ho => ⟨hsound.heard o ho, fun r => reply_iff⟩,
    hstands.chosen, hstands.reason, hstands.waits, ?_, fun hfew hresult => ?_, fun hprompt => ?_⟩
  · obtain ⟨hwire, hupstream⟩ := hsound.wires x hx
    have hlength := length_of_wire_id job.has_id
    rw [hwire, take_set_wire_id (by omega), drop_set_wire_id]
    exact ⟨hupstream, rfl, rfl⟩
  · exact (wire_id_iff.1 job.has_id).2
  · exact hsound.used ▸ hsound.nodup
  · exact h.imp (fun s e hs he => hs.step he) (fun s e hs he => Loop.step_sends hs.sound he) hbegin
  · have hlength := h.length_le (Loop.left job) (fun s e hs he => hs.step he)
      (fun s e hs he => Loop.left_step_lt hs.sound he) hbegin
    have hleft : Loop.left job (Loop.begin_ job draws) ≤
        job.attempts * (job.upstreams + 1) + 1 := Loop.left_turn_le rfl rfl
    omega
  · exact Loop.awaits_ticks hresult (hsound.not_stuck hfew) (le_max_left _ _) (le_max_right _ _)
  · have hstart : (Loop.begin_ job draws).now ≤ (Loop.begin_ job draws).tick job := by
      refine Loop.now_le_tick_turn rfl rfl ?_ draws
      simp [Loop.tick, Job.attempts_pos]
    have hnow := ((h.and hprompt).invariant
      (I := fun s => Loop.Stands hickory job s ∧ s.now ≤ s.tick job)
      (fun s e hs he => ⟨hs.1.step he.1, hs.1.sound.now_le_tick he.1 he.2⟩) ⟨hbegin, hstart⟩).2
    exact ⟨hnow.trans hsound.tick_le_deadline, fun hfew hresult => ⟨hsound.tick_le_deadline,
      Loop.awaits_ticks hresult (hsound.not_stuck hfew) hnow le_rfl⟩⟩

theorem Job.new_eq {wire : Bytes} {client_id : UInt16} {asked : Asked} (upstreams : ℕ)
    (opts : Fanout.FanoutOpts) (start : ℕ) (hid : wire_id wire = some client_id)
    (hasked : wire_question wire = some asked) :
    Job.new wire upstreams opts start =
      if h : 0 < upstreams then
        .ok ⟨wire, client_id, asked, upstreams, opts, start, hid, hasked, h⟩
      else .error no_upstream := by
  unfold Job.new
  split
  · rename_i client_id' asked' hid' hasked'
    obtain rfl := Option.some.inj (hid.symm.trans hid')
    obtain rfl := Option.some.inj (hasked.symm.trans hasked')
    rfl
  · rename_i hnot
    exact absurd hasked (hnot _ _ hid)

/-- A message with a readable question has an ID. -/
theorem exists_id {wire : Bytes} {asked : Asked} (h : wire_question wire = some asked) :
    ∃ client_id, wire_id wire = some client_id := by
  obtain ⟨q, hq, -⟩ := Option.map_eq_some_iff.1 h
  obtain ⟨n, hn, -, -⟩ := Dns.question_of_first hq
  have hlength := congrArg List.length hn
  simp only [List.length_drop, List.length_append, length_u16] at hlength
  exact ⟨_, dif_pos (by omega)⟩

variable (hickory) in
/-- **A forwarded reply answers the client's own question**: a query with a readable question is
sent on whenever there is an upstream, and whatever comes back, in whatever order and when, the
reply is the first that settles the matter, or else the first of the others, each to a send of its
own. -/
theorem forward_spec (wire : Bytes) (upstreams : ℕ) (opts : Fanout.FanoutOpts) (start : ℕ)
    (hreadable : (wire_question wire).isSome) :
    match Job.new wire upstreams opts start with
    | .error e => upstreams = 0 ∧ e = no_upstream
    | .ok job => (job.wire = wire ∧ job.upstreams = upstreams ∧ job.opts = opts ∧
        job.start = start) ∧ ∀ draws events, (Loop.begin_ job draws).Fair →
      Runs.Along (Loop.step hickory job) (Loop.Awaits hickory job) (Loop.begin_ job draws) events →
        job.Keeps hickory draws events
          (Runs.run (Loop.step hickory job) (Loop.begin_ job draws) events) := by
  obtain ⟨asked, hasked⟩ := Option.isSome_iff_exists.1 hreadable
  obtain ⟨client_id, hid⟩ := exists_id hasked
  rw [Job.new_eq upstreams opts start hid hasked]
  by_cases h : 0 < upstreams
  · rw [dif_pos h]
    exact ⟨⟨rfl, rfl, rfl, rfl⟩, fun draws events hfair => keeps _ draws events hfair⟩
  · rw [dif_neg h]
    exact ⟨by omega, rfl⟩

/-! ### Examples -/

/-- The library's codes: four bits. -/
def codes : Hickory UInt8 := ⟨0, 3, 2, 5, 1, 4, fun n => n &&& 15, fun c => c⟩

/-- A query for the addresses of the root. -/
def root_query : Bytes := [0, 1, 1, 0, 0, 1, 0, 0, 0, 0, 0, 0, 0, 0, 1, 0, 1]

/-- The query to `upstreams` upstreams, asked once each. -/
def root_job (upstreams : ℕ) (h : 0 < upstreams) : Job where
  wire := root_query
  client_id := 1
  asked := ([], 1, 1)
  upstreams := upstreams
  opts := ⟨1000, 1⟩
  start := 0
  has_id := by decide +kernel
  has_question := by decide +kernel
  has_upstream := h

/-- Its reply comes under the ID drawn for it, and goes to the client under the client's. -/
theorem forward_spec_root :
    (match Job.new root_query 1 ⟨1000, 1⟩ 0 with
    | .error e => 1 = 0 ∧ e = no_upstream
    | .ok job => (job.wire = root_query ∧ job.upstreams = 1 ∧ job.opts = ⟨1000, 1⟩ ∧
        job.start = 0) ∧ ∀ draws events, (Loop.begin_ job draws).Fair →
      Runs.Along (Loop.step codes job) (Loop.Awaits codes job) (Loop.begin_ job draws) events →
        job.Keeps codes draws events
          (Runs.run (Loop.step codes job) (Loop.begin_ job draws) events)) ∧
    (Runs.run (Loop.step codes (root_job 1 one_pos)) (Loop.begin_ (root_job 1 one_pos) [7])
      [.joins 0 (.ok ([0, 7, 0x81, 0x80] ++ root_query.drop 4)) 5 []]).result =
        some (.ok ([0, 1, 0x81, 0x80] ++ root_query.drop 4)) :=
  ⟨forward_spec codes root_query 1 ⟨1000, 1⟩ 0 (by decide +kernel), by decide +kernel⟩

/-- Where there are as many upstreams as IDs, the client's is one too many, and the last is drawn
for ever. -/
theorem stuck_begin (hmany : 2 ^ 16 ≤ job.upstreams) (hresend : 0 < job.opts.resend)
    (draws : List UInt16) : (Loop.begin_ job draws).stuck = true := by
  unfold Loop.begin_
  set s : Loop := ⟨job.start, 0, job.start, [job.client_id], List.replicate job.upstreams false,
    none, [], [], [], false, none⟩ with hs
  have hdue : Loop.Due job s :=
    ⟨Job.attempts_pos, le_rfl, Nat.lt_add_of_pos_right (Nat.mul_pos hresend Job.attempts_pos)⟩
  obtain ⟨hnot, -⟩ | ⟨-, s', news, hsends, ⟨hstuck, heq⟩ | ⟨hstuck, -⟩⟩ :=
    @Loop.turn_cases job s draws rfl
  · exact absurd hdue hnot
  · rwa [heq]
  · have hids := Loop.length_ids_le (hsends.nodup (List.nodup_singleton _))
    have hlength : news.length = job.upstreams := by
      have hall : ∀ i ∈ List.range job.upstreams, (!s.replied.getD i false) = true := by
        intro i hi
        simp [hs, List.getD_eq_getElem?_getD, List.mem_range.1 hi]
      rw [← List.length_map (f := Sending.upstream), hsends.all hstuck,
        List.filter_eq_self.2 hall, List.length_range]
    simp only [hs, List.length_append, List.length_cons, List.length_nil, List.length_map,
      hlength] at hids
    omega

/-- With more upstreams than IDs there is no end; and a loop that gets to run late goes on after the
deadline. -/
theorem goes_on_late :
    (∀ draws e, ¬ (Loop.begin_ (root_job (2 ^ 16) (by norm_num)) draws).Awaits codes
      (root_job (2 ^ 16) (by norm_num)) e) ∧
    (let job := root_job 1 one_pos
     let events : List Event := [.joins 0 (.error .Timeout) 1005 []]
     let late := Runs.run (Loop.step codes job) (Loop.begin_ job [7]) events
     Runs.Along (Loop.step codes job) (Loop.Awaits codes job) (Loop.begin_ job [7]) events ∧
       late.result = none ∧ job.deadline < late.now) := by
  refine ⟨fun draws e he => ?_, ⟨⟨rfl, rfl, by decide, fun h => ?_, by decide⟩, trivial⟩, rfl,
    by decide⟩
  · have hstuck := @stuck_begin (root_job (2 ^ 16) (by norm_num)) le_rfl (by decide) draws
    exact Bool.false_ne_true (he.2.1.symm.trans hstuck)
  · cases h

end Forward

end Rurge
