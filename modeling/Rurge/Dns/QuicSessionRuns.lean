import Rurge.Dns.QuicSession

/-!
# No query is stranded

In every run of the queries, the dials and the connections of a session, one dial is in flight at
most, a query that waits is woken by one, and what a query is given at the slot is right for it
(`session_spec`).
-/

namespace Rurge

namespace QuicSession

open Fanout (UpstreamError)
open Runs

/-! ### Where a dial is -/

namespace Stage

/-- The dial has not left the slot. -/
def in_flight : Stage → Bool
  | .Spawned | .Connecting | .Connected _ | .Leaving => true
  | _ => false

/-- What the dial comes to is not in the slot. -/
def pending : Stage → Bool
  | .Spawned | .Connecting | .Connected _ => true
  | _ => false

/-- The dial goes on for as long as the server makes it wait. -/
def dials_on : Stage → Bool
  | .Spawned | .Connecting => true
  | _ => false

theorem pending_of_dials_on {s : Stage} (h : s.dials_on = true) : s.pending = true := by
  cases s <;> simp_all [dials_on, pending]

theorem in_flight_of_pending {s : Stage} (h : s.pending = true) : s.in_flight = true := by
  cases s <;> simp_all [pending, in_flight]

end Stage

/-- A dial at a stage that `p` holds of. -/
def Dials (p : Stage → Bool) (dials : List Dial) (d : ℕ) : Prop :=
  ∃ dial, dials[d]? = some dial ∧ p dial.stage = true

abbrev InFlight := Dials Stage.in_flight

abbrev Pending := Dials Stage.pending

abbrev DialsOn := Dials Stage.dials_on

/-- The dial has left the slot, and all that is left of it is to wake the queries. -/
abbrev Waking := Dials fun s => match s with | .Waking => true | _ => false

/-- The dials with `d` at `stage`. -/
abbrev at_stage (dials : List Dial) (d : ℕ) (stage : Stage) : List Dial :=
  dials.modify d fun dial => { dial with stage := stage }

section

variable {p : Stage → Bool} {dials : List Dial} {d d' : ℕ} {stage : Stage}

theorem dials_at_self {dial : Dial} (hd : dials[d]? = some dial) :
    Dials p (at_stage dials d stage) d ↔ p stage = true := by
  simp [Dials, at_stage, hd]

theorem dials_at_ne (h : d' ≠ d) : Dials p (at_stage dials d stage) d' ↔ Dials p dials d' := by
  simp [Dials, at_stage, h.symm]

/-- What the new stage is, the dial was: then no dial is so that was not. -/
theorem dials_of_at {dial : Dial} (hd : dials[d]? = some dial)
    (hp : p stage = true → p dial.stage = true) (h : Dials p (at_stage dials d stage) d') :
    Dials p dials d' := by
  by_cases hdd : d' = d
  · subst hdd
    exact ⟨dial, hd, hp ((dials_at_self hd).1 h)⟩
  · exact (dials_at_ne hdd).1 h

theorem dials_concat {dial : Dial} :
    Dials p (dials ++ [dial]) d ↔ Dials p dials d ∨ d = dials.length ∧ p dial.stage = true := by
  unfold Dials
  rcases lt_trichotomy d dials.length with hlt | rfl | hgt
  · rw [List.getElem?_append_left hlt]
    simp [hlt.ne]
  · simp
  · have hnone : (dials ++ [dial])[d]? = none := by simp; omega
    have hnone' : dials[d]? = none := by simp; omega
    simp [hnone, hnone', hgt.ne']

theorem Dials.lt (h : Dials p dials d) : d < dials.length := by
  obtain ⟨dial, hd, -⟩ := h
  exact (List.getElem?_eq_some_iff.1 hd).1

theorem Dials.imp {p' : Stage → Bool} (hp : ∀ s, p s = true → p' s = true) (h : Dials p dials d) :
    Dials p' dials d := by
  obtain ⟨dial, hd, hs⟩ := h
  exact ⟨dial, hd, hp _ hs⟩

end

/-! ### The slot and the dials -/

/-- What the queries that waited for the last dial share, if it left them no connection. -/
def Fails (closed : ℕ → Option Str) (ended : List (ℕ × Option UpstreamError))
    (e : UpstreamError) : Prop :=
  ∃ d, ended.getLast? = some (d, some e) ∨
    ended.getLast? = some (d, none) ∧ ∃ how, closed d = some how ∧ e = transport_error how

/-- What holds of the slot and of the dials. -/
structure Core (slot : Slot) (dials : List Dial) (dropped : Bool)
    (ended : List (ℕ × Option UpstreamError)) (closed : ℕ → Option Str) (forgotten : List ℕ) :
    Prop where
  dialing : ∀ d, slot.dialing = some d → InFlight dials d
  single : dropped = false → ∀ d, InFlight dials d → slot.dialing = some d
  one : ∀ d d', InFlight dials d → InFlight dials d' → d = d'
  without : dropped = true → slot.dialing = none ∧ ∀ d, ¬DialsOn dials d
  pending : ∀ d, Pending dials d → slot.current = none ∧ ∀ r, (d, r) ∉ ended
  counted : slot.dials = ended.length
  current : ∀ c, slot.current = some c → ended.getLast? = some (c, none) ∧ c ∉ forgotten
  failure : ∀ n e, slot.failure = some (n, e) → n = slot.dials ∧ Fails closed ended e
  known : ∀ x ∈ ended, x.1 < dials.length
  let_go : ∀ c ∈ forgotten, (c, none) ∈ ended

/-- A slot with the connection gone, if any of it is gone, that left how it ended if it closed. -/
structure Slot.Thins (closed : ℕ → Option Str) (before after : Slot) : Prop where
  dialing : after.dialing = before.dialing
  dials : after.dials = before.dials
  current : after.current = before.current ∨ after.current = none
  failure : after.failure = before.failure ∨ ∃ c how, before.current = some c ∧
    closed c = some how ∧ after.failure = some (before.dials, transport_error how)

namespace Slot

variable {closed : ℕ → Option Str} {slot : Slot}

theorem Thins.refl : slot.Thins closed slot := ⟨rfl, rfl, .inl rfl, .inl rfl⟩

theorem let_go_cases : slot.let_go_if_closed closed = slot ∧ (∀ c, slot.current = some c →
    closed c = none) ∨ (slot.let_go_if_closed closed).current = none := by
  unfold let_go_if_closed
  split
  · exact .inr rfl
  · rename_i hnone
    refine .inl ⟨rfl, fun c hc => ?_⟩
    rwa [hc, Option.bind_some] at hnone

theorem thins_let_go : slot.Thins closed (slot.let_go_if_closed closed) := by
  unfold let_go_if_closed
  split
  · rename_i how hhow
    obtain ⟨c, hc, hclosed⟩ := Option.bind_eq_some_iff.1 hhow
    exact ⟨rfl, rfl, .inr rfl, .inr ⟨c, how, hc, hclosed, rfl⟩⟩
  · exact .refl

theorem thins_forget (c : ℕ) : slot.Thins closed (slot.forget c) := by
  unfold forget
  split_ifs
  · exact ⟨rfl, rfl, .inr rfl, .inl rfl⟩
  · exact .refl

theorem thins_let_go_when_closed (c : ℕ) :
    slot.Thins closed (slot.let_go_when_closed closed c) := by
  unfold let_go_when_closed
  split_ifs
  · exact thins_let_go
  · exact .refl

/-- What is forgotten is the session's connection no more. -/
theorem forget_current (c : ℕ) : (slot.forget c).current ≠ some c := by
  unfold forget
  split_ifs with h
  · simp
  · exact h

/-- Forgetting one connection leaves another where it is. -/
theorem forget_other {c c' : ℕ} (hne : c' ≠ c) (h : slot.current = some c') :
    (slot.forget c).current = some c' := by
  rw [forget, if_neg (by rw [h]; simpa using hne), h]

theorem let_go_other {c c' : ℕ} (hne : c' ≠ c) (h : slot.current = some c') :
    (slot.let_go_when_closed closed c).current = some c' := by
  rw [let_go_when_closed, if_neg (by rw [h]; simpa using hne), h]

end Slot

/-! ### The look of a query -/

/-- What a look that goes further than the connection does. -/
theorem look_further_cases (next now deadline : ℕ) (since : Option ℕ) (slot : Slot) :
    (∃ n e s, look_further next now deadline since slot = (slot, .Failed e) ∧
      slot.dialing = none ∧ slot.failure = some (n, e) ∧ since = some s ∧ s < n) ∨
    (look_further next now deadline since slot = (slot, .Wait) ∧ slot.dialing ≠ none) ∨
    (look_further next now deadline since slot = (slot, .OutOfTime) ∧ deadline ≤ now) ∨
    (look_further next now deadline since slot = ({ slot with dialing := some next }, .Wait) ∧
      slot.dialing = none ∧ now < deadline) := by
  unfold look_further
  simp only
  split
  · rename_i f hf
    obtain ⟨hfailure, hshared⟩ := Option.filter_eq_some_iff.1 hf
    rw [Bool.and_eq_true, decide_eq_true_eq] at hshared
    cases since with
    | none => simp at hshared
    | some s => exact .inl ⟨f.1, f.2, s, rfl, hshared.1, hfailure, rfl, by simpa using hshared.2⟩
  · split_ifs with hdialing hdeadline
    · exact .inr (.inl ⟨rfl, by rintro h; simp [h] at hdialing⟩)
    · exact .inr (.inr (.inl ⟨rfl, hdeadline⟩))
    · refine .inr (.inr (.inr ⟨rfl, ?_, Nat.not_le.1 hdeadline⟩))
      simpa using hdialing

/-- What a look leaves of the slot, and what it finds. -/
inductive Looked (closed : ℕ → Option Str) (away : ℕ → Bool) (next now deadline : ℕ)
    (since : Option ℕ) (before : Slot) : Slot → Look → Prop
  | given {c : ℕ} : before.current = some c → closed c = none →
      (away c = true → ∃ s, since = some s ∧ s < before.dials) →
      Looked closed away next now deadline since before before (.Given c since.isNone)
  | failed {after : Slot} {n s : ℕ} {e : UpstreamError} : before.Thins closed after →
      after.dialing = none → after.failure = some (n, e) → since = some s → s < n →
      Looked closed away next now deadline since before after (.Failed e)
  | waits {after : Slot} : before.Thins closed after → after.dialing ≠ none →
      Looked closed away next now deadline since before after .Wait
  | out_of_time {after : Slot} : before.Thins closed after → deadline ≤ now →
      Looked closed away next now deadline since before after .OutOfTime
  | dials {after : Slot} : before.Thins closed after → after.current = none →
      after.dialing = none → now < deadline →
      Looked closed away next now deadline since before { after with dialing := some next } .Wait

section

variable {closed : ℕ → Option Str} {away : ℕ → Bool} {next now deadline : ℕ} {since : Option ℕ}

theorem looked_further {before after : Slot} (h : before.Thins closed after)
    (hnone : after.current = none) :
    Looked closed away next now deadline since before
      (look_further next now deadline since after).1
      (look_further next now deadline since after).2 := by
  rcases look_further_cases next now deadline since after with
    ⟨n, e, s, heq, hdialing, hfailure, hsince, hlt⟩ | ⟨heq, hdialing⟩ | ⟨heq, hdeadline⟩ |
    ⟨heq, hdialing, hlt⟩ <;> rw [heq]
  · exact .failed h hdialing hfailure hsince hlt
  · exact .waits h hdialing
  · exact .out_of_time h hdeadline
  · exact .dials h hnone hdialing hlt

theorem looked (slot : Slot) :
    Looked closed away next now deadline since slot
      (look closed away next now deadline since slot).1
      (look closed away next now deadline since slot).2 := by
  unfold look
  simp only
  split
  · rename_i c hc
    rcases @Slot.let_go_cases closed slot with ⟨heq, hopen⟩ | hgone
    · rw [heq] at hc ⊢
      split_ifs with hgiven
      · refine .given hc (hopen c hc) fun haway => ?_
        rw [haway] at hgiven
        cases since with
        | none => simp at hgiven
        | some s => exact ⟨s, rfl, by simpa using hgiven⟩
      · exact looked_further ⟨rfl, rfl, .inr rfl, .inl rfl⟩ rfl
    · simp [hgone] at hc
  · rename_i hnone
    exact looked_further Slot.thins_let_go hnone

end

/-! ### What the slot and the dials keep -/

namespace Core

variable {slot after : Slot} {dials : List Dial} {dropped : Bool}
  {ended : List (ℕ × Option UpstreamError)} {closed : ℕ → Option Str} {forgotten : List ℕ}

theorem thins (h : Core slot dials dropped ended closed forgotten)
    (ht : slot.Thins closed after) : Core after dials dropped ended closed forgotten where
  dialing := by rw [ht.dialing]; exact h.dialing
  single := by rw [ht.dialing]; exact h.single
  one := h.one
  without := by rw [ht.dialing]; exact h.without
  pending d hd := by
    obtain ⟨hnone, hended⟩ := h.pending d hd
    have hcurrent := ht.current
    rw [hnone, or_self_iff] at hcurrent
    exact ⟨hcurrent, hended⟩
  counted := by rw [ht.dials]; exact h.counted
  current c hc := by
    rcases ht.current with heq | heq
    · exact h.current c (heq ▸ hc)
    · simp [heq] at hc
  failure n e hfailure := by
    rw [ht.dials]
    rcases ht.failure with heq | ⟨c, how, hc, hhow, heq⟩
    · exact h.failure n e (heq ▸ hfailure)
    · rw [heq, Option.some.injEq, Prod.mk.injEq] at hfailure
      exact ⟨hfailure.1.symm, c, .inr ⟨(h.current c hc).1, how, hhow, hfailure.2.symm⟩⟩
  known := h.known
  let_go := h.let_go

/-- What was forgotten is not the session's connection. -/
theorem forget (h : Core slot dials dropped ended closed forgotten) {c : ℕ}
    (hc : (c, none) ∈ ended) :
    Core (slot.forget c) dials dropped ended closed (c :: forgotten) where
  __ := h.thins (Slot.thins_forget c)
  current c' hc' := by
    obtain ⟨hlast, hnot⟩ := (h.thins (Slot.thins_forget c)).current c' hc'
    refine ⟨hlast, fun hmem => ?_⟩
    rcases List.mem_cons.1 hmem with rfl | hmem
    · exact Slot.forget_current _ hc'
    · exact hnot hmem
  let_go := by
    rintro c' (_ | hmem)
    · exact hc
    · exact h.let_go c' ‹_›

/-- A dial is spawned. -/
theorem spawn (h : Core slot dials false ended closed forgotten) (hcurrent : slot.current = none)
    (hdialing : slot.dialing = none) {dial : Dial} (hstage : dial.stage = .Spawned) :
    Core { slot with dialing := some dials.length } (dials ++ [dial]) false ended closed
      forgotten := by
  have hnew : ∀ {p : Stage → Bool} {d : ℕ}, (∀ s, p s = true → s.in_flight = true) →
      Dials p (dials ++ [dial]) d → d = dials.length := by
    intro p d hp hd
    rcases dials_concat.1 hd with hd | ⟨rfl, -⟩
    · exact absurd (h.single rfl d (hd.imp hp)) (by simp [hdialing])
    · rfl
  refine ⟨?_, ?_, ?_, by simp, ?_, h.counted, h.current, h.failure, ?_, h.let_go⟩
  · rintro d hd
    rw [← Option.some.inj hd]
    exact dials_concat.2 (.inr ⟨rfl, by rw [hstage]; rfl⟩)
  · intro _ d hd
    rw [hnew (fun _ => id) hd]
  · intro d d' hd hd'
    rw [hnew (fun _ => id) hd, hnew (fun _ => id) hd']
  · intro d hd
    rw [hnew (fun _ => Stage.in_flight_of_pending) hd]
    refine ⟨hcurrent, fun r hmem => ?_⟩
    exact lt_irrefl _ (h.known _ hmem)
  · intro x hx
    rw [List.length_append]
    exact Nat.lt_add_right _ (h.known x hx)

section

variable {d : ℕ} {dial : Dial} {stage : Stage}

/-- A dial in flight goes on. -/
theorem advance (h : Core slot dials dropped ended closed forgotten) (hd : dials[d]? = some dial)
    (hbefore : dial.stage.in_flight = true) (hafter : stage.in_flight = true)
    (hpending : stage.pending = true → dial.stage.pending = true)
    (hdials : stage.dials_on = true → dial.stage.dials_on = true) :
    Core slot (at_stage dials d stage) dropped ended closed forgotten where
  dialing d' hd' := by
    by_cases hdd : d' = d
    · subst hdd
      exact (dials_at_self hd).2 hafter
    · exact (dials_at_ne hdd).2 (h.dialing d' hd')
  single hdropped d' hd' := h.single hdropped d' (dials_of_at hd (fun _ => hbefore) hd')
  one d₁ d₂ h₁ h₂ :=
    h.one d₁ d₂ (dials_of_at hd (fun _ => hbefore) h₁) (dials_of_at hd (fun _ => hbefore) h₂)
  without hdropped :=
    ⟨(h.without hdropped).1, fun d' hd' => (h.without hdropped).2 d' (dials_of_at hd hdials hd')⟩
  pending d' hd' := h.pending d' (dials_of_at hd hpending hd')
  counted := h.counted
  current := h.current
  failure := h.failure
  known x hx := by simpa using h.known x hx
  let_go := h.let_go

/-- What a dial came to is in the slot. -/
theorem dialed (h : Core slot dials dropped ended closed forgotten) (hd : dials[d]? = some dial)
    {result : Option UpstreamError} (hstage : dial.stage = .Connected result) :
    Core (slot.dialed d result) (at_stage dials d .Leaving) dropped (ended ++ [(d, result)]) closed
      forgotten := by
  have hpend : Pending dials d := ⟨dial, hd, by rw [hstage]; rfl⟩
  obtain ⟨hnone, hfresh⟩ := h.pending d hpend
  have hgo : Core slot (at_stage dials d .Leaving) dropped ended closed forgotten :=
    h.advance hd (by rw [hstage]; rfl) rfl nofun nofun
  have hother : ∀ d', ¬Pending (at_stage dials d .Leaving) d' := by
    intro d' hd'
    by_cases hdd : d' = d
    · subst hdd
      exact absurd ((dials_at_self hd).1 hd') (by simp [Stage.pending])
    · have hd'' := (dials_at_ne hdd).1 hd'
      exact hdd (h.one d' d (hd''.imp fun _ => Stage.in_flight_of_pending)
        (hpend.imp fun _ => Stage.in_flight_of_pending))
  have hdialing : (slot.dialed d result).dialing = slot.dialing := by
    cases result <;> rfl
  have hdials : (slot.dialed d result).dials = slot.dials + 1 := by
    cases result <;> rfl
  refine ⟨?_, ?_, hgo.one, ?_, fun d' hd' => absurd hd' (hother d'), ?_, ?_, ?_, ?_, ?_⟩
  · rw [hdialing]
    exact hgo.dialing
  · rw [hdialing]
    exact hgo.single
  · rw [hdialing]
    exact hgo.without
  · rw [hdials, h.counted, List.length_append, List.length_singleton]
  · intro c hc
    cases result with
    | none =>
      obtain rfl : d = c := by simpa [Slot.dialed] using hc
      exact ⟨by simp, fun hmem => hfresh _ (h.let_go d hmem)⟩
    | some e => simp [Slot.dialed, hnone] at hc
  · intro n e hfailure
    cases result with
    | none => simp [Slot.dialed] at hfailure
    | some e' =>
      simp only [Slot.dialed, Option.some.injEq, Prod.mk.injEq] at hfailure
      obtain ⟨rfl, rfl⟩ := hfailure
      exact ⟨rfl, d, .inl (by simp)⟩
  · intro x hx
    rw [List.length_modify]
    rcases List.mem_append.1 hx with hx | hx
    · exact h.known x hx
    · rw [List.mem_singleton.1 hx]
      exact hpend.lt
  · exact fun c hc => List.mem_append_left _ (h.let_go c hc)

/-- A dial is not in flight any more, and the slot without one. -/
theorem leaves (h : Core slot dials dropped ended closed forgotten) (hd : dials[d]? = some dial)
    (hbefore : dial.stage.in_flight = true) (hafter : stage.in_flight = false) :
    Core { slot with dialing := none } (at_stage dials d stage) dropped ended closed forgotten := by
  have hnot : ∀ {p : Stage → Bool} {d' : ℕ}, (∀ s, p s = true → s.in_flight = true) →
      ¬Dials p (at_stage dials d stage) d' := by
    intro p d' hp hd'
    by_cases hdd : d' = d
    · subst hdd
      rw [hp _ ((dials_at_self hd).1 hd')] at hafter
      cases hafter
    · exact hdd (h.one d' d (((dials_at_ne hdd).1 hd').imp hp) ⟨dial, hd, hbefore⟩)
  refine ⟨nofun, fun _ d' hd' => absurd hd' (hnot fun _ => id),
    fun d' _ hd' => absurd hd' (hnot fun _ => id),
    fun _ => ⟨rfl, fun d' => hnot fun _ hs =>
      Stage.in_flight_of_pending (Stage.pending_of_dials_on hs)⟩,
    fun d' hd' => absurd hd' (hnot fun _ => Stage.in_flight_of_pending),
    h.counted, h.current, h.failure, ?_, h.let_go⟩
  intro x hx
  rw [List.length_modify]
  exact h.known x hx

/-- A dial that was not in flight is over. -/
theorem rests (h : Core slot dials dropped ended closed forgotten) (hd : dials[d]? = some dial)
    (hbefore : dial.stage.in_flight = false) (hafter : stage.in_flight = false) :
    Core slot (at_stage dials d stage) dropped ended closed forgotten := by
  have hback : ∀ {p : Stage → Bool} {d' : ℕ}, (∀ s, p s = true → s.in_flight = true) →
      Dials p (at_stage dials d stage) d' → Dials p dials d' := by
    intro p d' hp hd'
    refine dials_of_at hd (fun hs => ?_) hd'
    rw [hp _ hs] at hafter
    cases hafter
  refine ⟨fun d' hd' => ?_, fun hdropped d' hd' => h.single hdropped d' (hback (fun _ => id) hd'),
    fun d₁ d₂ h₁ h₂ => h.one d₁ d₂ (hback (fun _ => id) h₁) (hback (fun _ => id) h₂),
    fun hdropped => ⟨(h.without hdropped).1, fun d' hd' => (h.without hdropped).2 d'
      (hback (fun _ hs => Stage.in_flight_of_pending (Stage.pending_of_dials_on hs)) hd')⟩,
    fun d' hd' => h.pending d' (hback (fun _ => Stage.in_flight_of_pending) hd'),
    h.counted, h.current, h.failure, ?_, h.let_go⟩
  · have hin := h.dialing d' hd'
    refine (dials_at_ne ?_).2 hin
    rintro rfl
    obtain ⟨dial', hdial, hs⟩ := hin
    rw [hd] at hdial
    cases hdial
    rw [hbefore] at hs
    cases hs
  · intro x hx
    rw [List.length_modify]
    exact h.known x hx

end

/-- The dial in flight is one there is. -/
theorem dialing_ne (h : Core slot dials dropped ended closed forgotten) :
    slot.dialing ≠ some dials.length :=
  fun heq => lt_irrefl _ (h.dialing _ heq).lt

/-- The session is dropped, and no dial goes on. -/
theorem abandon (h : Core slot dials dropped ended closed forgotten) {dials' : List Dial}
    (hlength : dials'.length = dials.length)
    (hflight : ∀ d, InFlight dials' d → InFlight dials d)
    (hpending : ∀ d, Pending dials' d → Pending dials d) (hnone : ∀ d, ¬DialsOn dials' d) :
    Core { slot with dialing := none } dials' true ended closed forgotten where
  dialing := nofun
  single := nofun
  one d d' hd hd' := h.one d d' (hflight d hd) (hflight d' hd')
  without _ := ⟨rfl, hnone⟩
  pending d hd := h.pending d (hpending d hd)
  counted := h.counted
  current := h.current
  failure := h.failure
  known x hx := by rw [hlength]; exact h.known x hx
  let_go := h.let_go

/-- A connection closes that had not. -/
theorem close (h : Core slot dials dropped ended closed forgotten) {closed' : ℕ → Option Str}
    (hclosed : ∀ d how, closed d = some how → closed' d = some how) :
    Core slot dials dropped ended closed' forgotten where
  __ := h
  failure n e hfailure := by
    obtain ⟨hn, d, hfails⟩ := h.failure n e hfailure
    refine ⟨hn, d, hfails.imp_right ?_⟩
    rintro ⟨hlast, how, hhow, he⟩
    exact ⟨hlast, how, hclosed d how hhow, he⟩

end Core

/-! ### What a query keeps -/

/-- Two attempts at most, the second after the first was lost on a connection taken at once, and on
another connection. -/
def Twice (attempts : List Attempt) : Prop :=
  attempts.length ≤ 2 ∧
    ∀ a b, attempts = [a, b] → a.taken = true ∧ a.lost = true ∧ a.conn ≠ b.conn

/-- The attempts before the present one. -/
def Before (forgotten : List ℕ) : Bool → List Attempt → Prop
  | false, attempts => attempts = []
  | true, attempts => ∃ c ∈ forgotten, attempts = [⟨c, true, true⟩]

theorem Before.mono {forgotten forgotten' : List ℕ} {again : Bool} {attempts : List Attempt}
    (h : Before forgotten again attempts) (hsub : ∀ c ∈ forgotten, c ∈ forgotten') :
    Before forgotten' again attempts := by
  cases again with
  | false => exact h
  | true =>
    obtain ⟨c, hc, heq⟩ := h
    exact ⟨c, hsub c hc, heq⟩

/-- With the present one they are two at most. -/
theorem Before.twice {forgotten : List ℕ} {again : Bool} {attempts : List Attempt}
    (h : Before forgotten again attempts) {a : Attempt} (ha : ∀ b ∈ attempts, b.conn ≠ a.conn) :
    Twice (attempts ++ [a]) := by
  cases again with
  | false =>
    rw [show attempts = [] from h]
    exact ⟨by simp, by simp⟩
  | true =>
    obtain ⟨c, -, rfl⟩ := h
    refine ⟨by simp, fun x y heq => ?_⟩
    obtain ⟨rfl, rfl⟩ : ⟨c, true, true⟩ = x ∧ a = y := by simpa using heq
    exact ⟨rfl, rfl, ha _ (List.mem_singleton_self _)⟩

theorem Before.twice_self {forgotten : List ℕ} {again : Bool} {attempts : List Attempt}
    (h : Before forgotten again attempts) : Twice attempts := by
  cases again with
  | false =>
    rw [show attempts = [] from h]
    exact ⟨by simp, by simp⟩
  | true =>
    obtain ⟨c, -, rfl⟩ := h
    exact ⟨by simp, by simp⟩

/-- The present attempt of a query, on `conn`. -/
def Query.Attempts (forgotten : List ℕ) (q : Query) (conn : ℕ) (taken : Bool) : Prop :=
  ∃ attempts, Before forgotten q.again attempts ∧ q.attempts = attempts ++ [⟨conn, taken, false⟩] ∧
    ∀ a ∈ attempts, a.conn ≠ conn

theorem Query.Attempts.twice {forgotten : List ℕ} {q : Query} {conn : ℕ} {taken : Bool}
    (h : q.Attempts forgotten conn taken) : Twice q.attempts := by
  obtain ⟨attempts, hbefore, heq, hne⟩ := h
  rw [heq]
  exact hbefore.twice hne

/-- The attempts of a query, by how far it has got. -/
def Query.Stands (forgotten : List ℕ) (q : Query) : Prop :=
  match q.phase with
  | .Asking | .Looking _ | .Waiting _ => Before forgotten q.again q.attempts
  | .Attempting conn taken | .Unanswered conn taken _ => q.Attempts forgotten conn taken
  | .Over _ => Twice q.attempts

theorem Query.Stands.mono {forgotten forgotten' : List ℕ} {q : Query} (h : q.Stands forgotten)
    (hsub : ∀ c ∈ forgotten, c ∈ forgotten') : q.Stands forgotten' := by
  unfold Query.Stands at h ⊢
  split at h
  · exact Before.mono h hsub
  · exact Before.mono h hsub
  · exact Before.mono h hsub
  · obtain ⟨attempts, hbefore, heq, hne⟩ := h
    exact ⟨attempts, hbefore.mono hsub, heq, hne⟩
  · obtain ⟨attempts, hbefore, heq, hne⟩ := h
    exact ⟨attempts, hbefore.mono hsub, heq, hne⟩
  · exact h

theorem Query.Stands.twice {forgotten : List ℕ} {q : Query} (h : q.Stands forgotten) :
    Twice q.attempts := by
  unfold Query.Stands at h
  split at h
  · exact Before.twice_self h
  · exact Before.twice_self h
  · exact Before.twice_self h
  · exact Query.Attempts.twice h
  · exact Query.Attempts.twice h
  · exact h

/-- The connection that the query is on. -/
def Phase.conn : Phase → Option ℕ
  | .Attempting conn _ | .Unanswered conn _ _ => some conn
  | _ => none

/-- The query asks for a connection. -/
def Phase.asks : Phase → Bool
  | .Asking | .Looking _ | .Waiting _ => true
  | _ => false

theorem Query.stands_of_asks {forgotten : List ℕ} {q : Query} (h : q.phase.asks = true) :
    q.Stands forgotten ↔ Before forgotten q.again q.attempts := by
  unfold Query.Stands
  cases hphase : q.phase <;> simp_all [Phase.asks]

theorem Phase.not_over_of_asks {phase : Phase} (h : phase.asks = true) :
    phase.is_over = false := by
  cases phase <;> simp_all [Phase.asks, Phase.is_over]

theorem Phase.conn_of_asks {phase : Phase} (h : phase.asks = true) : phase.conn = none := by
  cases phase <;> simp_all [Phase.asks, Phase.conn]

/-- A dial that is to wake the queries. -/
def Wakes (dials : List Dial) : Prop := ∃ d, InFlight dials d ∨ Waking dials d

/-- What holds of a query. -/
structure Fair (dials : List Dial) (ended : List (ℕ × Option UpstreamError))
    (forgotten : List ℕ) (dropped : Bool) (now : ℕ) (q : Query) : Prop where
  known : ∀ c, q.phase.conn = some c → (c, none) ∈ ended
  stands : q.Stands forgotten
  waits : q.phase = .Waiting false → Wakes dials
  time : q.phase.is_over = false → now ≤ max q.begun q.deadline
  rests : dropped = true → q.phase.is_over = true

theorem Fair.mono {dials dials' : List Dial} {ended ended' : List (ℕ × Option UpstreamError)}
    {forgotten forgotten' : List ℕ} {dropped : Bool} {now : ℕ} {q : Query}
    (h : Fair dials ended forgotten dropped now q) (hdials : Wakes dials → Wakes dials')
    (hended : ∀ x ∈ ended, x ∈ ended') (hforgotten : ∀ c ∈ forgotten, c ∈ forgotten') :
    Fair dials' ended' forgotten' dropped now q :=
  ⟨fun c hc => hended _ (h.known c hc), h.stands.mono hforgotten, fun hq => hdials (h.waits hq),
    h.time, h.rests⟩

/-- A query that is over keeps what it came to. -/
theorem Fair.over {dials : List Dial} {ended : List (ℕ × Option UpstreamError)}
    {forgotten : List ℕ} {dropped : Bool} {now : ℕ} {q : Query} {outcome : Outcome}
    (hphase : q.phase = .Over outcome) (h : Twice q.attempts) :
    Fair dials ended forgotten dropped now q := by
  refine ⟨?_, ?_, ?_, ?_, ?_⟩ <;> simp [hphase, Phase.conn, Query.Stands, Phase.is_over, h]

/-! ### What the session keeps -/

theorem forall_mem_modify {α : Type*} {P : α → Prop} {l : List α} {k : ℕ} {f : α → α}
    (h : ∀ a ∈ l, P a) (hf : ∀ a, l[k]? = some a → P (f a)) : ∀ a ∈ l.modify k f, P a := by
  intro a ha
  obtain ⟨i, hi⟩ := List.mem_iff_getElem?.1 ha
  rw [List.getElem?_modify] at hi
  obtain ⟨b, hb, rfl⟩ := Option.map_eq_some_iff.1 hi
  split_ifs with hk
  · exact hf b (hk ▸ hb)
  · exact h b (List.mem_of_getElem? hb)

theorem modify_last {α : Type*} (l : List α) (a : α) (f : α → α) :
    (l ++ [a]).modify l.length f = l ++ [f a] := by
  induction l with
  | nil => rfl
  | cons b l ih => simpa using ih

/-- **What the session keeps**, of its slot and dials and of its queries. -/
structure Sound (w : World) : Prop where
  core : Core w.slot w.dials w.dropped w.ended w.closed w.forgotten
  queries : ∀ q ∈ w.queries, Fair w.dials w.ended w.forgotten w.dropped w.now q

namespace Sound

variable {w : World} {k : ℕ} {q : Query}

theorem fair (h : Sound w) (hk : w.queries[k]? = some q) :
    Fair w.dials w.ended w.forgotten w.dropped w.now q :=
  h.queries q (List.mem_of_getElem? hk)

theorem change (h : Sound w) (hk : w.queries[k]? = some q) {f : Query → Query}
    (hf : Fair w.dials w.ended w.forgotten w.dropped w.now (f q)) : Sound (w.change k f) := by
  refine ⟨h.core, forall_mem_modify h.queries fun a ha => ?_⟩
  rw [hk, Option.some.injEq] at ha
  exact ha ▸ hf

/-- A live query keeps the session. -/
theorem live (h : Sound w) (hk : w.queries[k]? = some q) (hq : q.phase.is_over = false) :
    w.dropped = false := by
  by_contra hdropped
  rw [(h.fair hk).rests (by simpa using hdropped)] at hq
  cases hq

/-- A query that asks for a connection goes on asking. -/
theorem asks (h : Sound w) (hk : w.queries[k]? = some q) (hbefore : q.phase.asks = true)
    {phase : Phase} (hafter : phase.asks = true) (hwaits : phase ≠ .Waiting false) :
    Sound (w.change k fun q => { q with phase := phase }) := by
  have hfair := h.fair hk
  have hlive := Phase.not_over_of_asks hbefore
  refine h.change hk ⟨?_, ?_, fun heq => absurd heq hwaits, fun _ => hfair.time hlive, ?_⟩
  · rw [Phase.conn_of_asks hafter]
    exact nofun
  · exact (Query.stands_of_asks hafter).2 ((Query.stands_of_asks hbefore).1 hfair.stands)
  · intro hdropped
    rw [hfair.rests hdropped] at hlive
    cases hlive

theorem forget (h : Sound w) {c : ℕ} (hc : (c, none) ∈ w.ended) : Sound (w.forget c) :=
  ⟨h.core.forget hc, fun q hq => (h.queries q hq).mono id (fun _ => id)
    fun _ => List.mem_cons_of_mem _⟩

theorem unanswered (h : Sound w) {c : ℕ} (hc : (c, none) ∈ w.ended) (quiet : Bool) :
    Sound (w.unanswered c quiet) := by
  cases quiet with
  | false => exact h
  | true => exact h.forget hc

theorem thins (h : Sound w) {slot : Slot} (ht : w.slot.Thins w.closed slot) :
    Sound { w with slot := slot } :=
  ⟨h.core.thins ht, h.queries⟩

theorem look (h : Sound w) (hk : w.queries[k]? = some q) {notified : Bool}
    (hphase : q.phase = .Looking notified) : Sound (w.look k q notified) := by
  have hfair := h.fair hk
  have hlive : w.dropped = false := h.live hk (by rw [hphase]; rfl)
  have hstands := (Query.stands_of_asks (by rw [hphase]; rfl)).1 hfair.stands
  have htime := hfair.time (by rw [hphase]; rfl)
  have hlooked := @looked w.closed w.away w.dials.length w.now q.deadline q.waited_since w.slot
  have hkept : ∀ {slot : Slot}, w.slot.Thins w.closed slot →
      slot.dialing ≠ some w.dials.length := by
    intro slot ht
    rw [ht.dialing]
    exact h.core.dialing_ne
  unfold World.look World.sees
  generalize QuicSession.look w.closed w.away w.dials.length w.now q.deadline q.waited_since
    w.slot = found at hlooked
  obtain ⟨slot, found⟩ := found
  cases hlooked with
  | @given c hc _ _ =>
    simp only [if_neg h.core.dialing_ne]
    obtain ⟨hlast, hnot⟩ := h.core.current c hc
    refine h.change hk ⟨?_, ⟨_, hstands, rfl, ?_⟩, nofun, fun _ => htime, fun hdropped => ?_⟩
    · rintro _ ⟨⟩
      exact List.mem_of_getLast? hlast
    · intro a ha
      cases hagain : q.again with
      | false =>
        rw [hagain] at hstands
        rw [show q.attempts = [] from hstands] at ha
        cases ha
      | true =>
        rw [hagain] at hstands
        obtain ⟨c', hc', heq⟩ := hstands
        rw [heq, List.mem_singleton] at ha
        subst ha
        rintro rfl
        exact hnot hc'
    · rw [hlive] at hdropped
      cases hdropped
  | failed ht _ _ _ _ =>
    simp only [if_neg (hkept ht)]
    exact (h.thins ht).change hk (.over rfl hfair.stands.twice)
  | waits ht hdialing =>
    simp only [if_neg (hkept ht)]
    refine (h.thins ht).change hk ⟨nofun, ?_, fun _ => ?_, fun _ => htime, ?_⟩
    · exact hstands
    · obtain ⟨d, hd⟩ := Option.ne_none_iff_exists'.1 hdialing
      exact ⟨d, .inl (h.core.dialing d (ht.dialing ▸ hd))⟩
    · intro hdropped
      rw [show w.dropped = true from hdropped] at hlive
      cases hlive
  | out_of_time ht _ =>
    simp only [if_neg (hkept ht)]
    exact (h.thins ht).change hk (.over rfl hfair.stands.twice)
  | dials ht hnone hdialing hlt =>
    rename_i after
    simp only [if_true]
    have hcore := h.core.thins ht
    rw [hlive] at hcore
    have hspawned : Core { after with dialing := some w.dials.length }
        (w.dials ++ [⟨q.deadline, .Spawned⟩]) false w.ended w.closed w.forgotten :=
      hcore.spawn hnone hdialing rfl
    have hwakes : Wakes (w.dials ++ [⟨q.deadline, .Spawned⟩]) :=
      ⟨_, .inl (dials_concat.2 (.inr ⟨rfl, rfl⟩))⟩
    have hsound : Sound { w with
        slot := { after with dialing := some w.dials.length }
        dials := w.dials ++ [⟨q.deadline, .Spawned⟩] } := by
      refine ⟨hlive ▸ hspawned, fun q' hq' => ?_⟩
      exact (h.queries q' hq').mono (fun _ => hwakes) (fun _ => id) fun _ => id
    refine hsound.change hk ⟨nofun, hstands, fun _ => hwakes, fun _ => htime, ?_⟩
    intro hdropped
    rw [show w.dropped = true from hdropped] at hlive
    cases hlive

theorem settle (h : Sound w) (hk : w.queries[k]? = some q) {c : ℕ} {taken : Bool}
    {failure : Failure} (hphase : q.phase = .Unanswered c taken failure) :
    Sound (w.settle k q c taken failure) := by
  have hfair := h.fair hk
  have hc : (c, none) ∈ w.ended := hfair.known c (by rw [hphase]; rfl)
  have htime := hfair.time (by rw [hphase]; rfl)
  cases failure with
  | Failed e => exact h.change hk (.over rfl hfair.stands.twice)
  | Lost e =>
    obtain ⟨attempts, hbefore, heq, hne⟩ : q.Attempts w.forgotten c taken := by
      have := hfair.stands
      rwa [Query.Stands, hphase] at this
    have hmarked : q.attempts.modify (q.attempts.length - 1) (fun a => { a with lost := true }) =
        attempts ++ [⟨c, taken, true⟩] := by
      rw [heq, List.length_append, List.length_singleton, Nat.add_sub_cancel, modify_last]
    rw [World.settle, hmarked]
    have hforgot : (w.forget c).queries[k]? = some q := hk
    refine (h.forget hc).change hforgot ?_
    by_cases hagain : (taken && !q.again) = true
    · rw [Bool.and_eq_true, Bool.not_eq_true'] at hagain
      obtain ⟨rfl, hfirst⟩ := hagain
      have hnil : attempts = [] := by rwa [hfirst] at hbefore
      simp only [hfirst, hnil, Bool.not_false, Bool.and_self, if_true, List.nil_append]
      refine ⟨nofun, ⟨c, List.mem_cons_self, rfl⟩, nofun, fun _ => htime, fun hdropped => ?_⟩
      have := hfair.rests hdropped
      rw [hphase] at this
      cases this
    · exact .over (if_neg hagain) (hbefore.twice hne)

theorem cut (h : Sound w) (hk : w.queries[k]? = some q) (quiet : Bool) (outcome : Outcome) :
    Sound (w.cut k q quiet outcome) := by
  have htwice := (h.fair hk).stands.twice
  unfold World.cut
  split
  · exact h.change hk (.over rfl htwice)
  · rename_i c taken hphase
    have hc : (c, none) ∈ w.ended := (h.fair hk).known c (by rw [hphase]; rfl)
    have hkept : (w.unanswered c quiet).queries[k]? = some q := by cases quiet <;> exact hk
    exact (h.unanswered hc quiet).change hkept (.over rfl htwice)
  · exact h

/-- The dials and the slot go on, and a query that waits is still to be woken. -/
theorem goes {w' : World} (h : Sound w)
    (hcore : Core w'.slot w'.dials w'.dropped w'.ended w'.closed w'.forgotten)
    (hwakes : Wakes w.dials → Wakes w'.dials) (hended : ∀ x ∈ w.ended, x ∈ w'.ended)
    (hqueries : w'.queries = w.queries) (hforgotten : w'.forgotten = w.forgotten)
    (hdropped : w'.dropped = w.dropped) (hnow : w'.now = w.now) : Sound w' := by
  refine ⟨hcore, fun q hq => ?_⟩
  rw [hqueries] at hq
  rw [hforgotten, hdropped, hnow]
  exact (h.queries q hq).mono hwakes hended fun _ => id

theorem notified {q : Query} {dials dials' : List Dial}
    {ended : List (ℕ × Option UpstreamError)} {forgotten : List ℕ} {dropped : Bool} {now : ℕ}
    (h : Fair dials ended forgotten dropped now q) :
    Fair dials' ended forgotten dropped now q.notify := by
  obtain ⟨hknown, hstands, hwaits, htime, hrests⟩ := h
  unfold Query.Stands at hstands
  unfold Query.notify
  split
  · rename_i hphase
    simp only [hphase] at hstands htime hrests
    exact ⟨nofun, hstands, nofun, fun _ => htime rfl, hrests⟩
  · rename_i hphase
    simp only [hphase] at hstands htime hrests
    exact ⟨nofun, hstands, nofun, fun _ => htime rfl, hrests⟩
  · rename_i hlooking hwaiting
    exact ⟨hknown, hstands, fun hq => absurd hq (hwaiting false), htime, hrests⟩

section

variable {d : ℕ} {dial : Dial}

/-- A dial in flight goes on to `stage`. -/
theorem advance (h : Sound w) (hd : w.dials[d]? = some dial) {stage : Stage}
    (hbefore : dial.stage.in_flight = true) (hafter : stage.in_flight = true)
    (hpending : stage.pending = true → dial.stage.pending = true)
    (hdials : stage.dials_on = true → dial.stage.dials_on = true) : Sound (w.go d stage) :=
  h.goes (h.core.advance hd hbefore hafter hpending hdials)
    (fun _ => ⟨d, .inl ((dials_at_self hd).2 hafter)⟩) (fun _ => id) rfl rfl rfl rfl

theorem dialed (h : Sound w) (hd : w.dials[d]? = some dial) {result : Option UpstreamError}
    (hstage : dial.stage = .Connected result) (watched : List ℕ) :
    Sound { w.go d .Leaving with
      slot := w.slot.dialed d result
      ended := w.ended ++ [(d, result)]
      watched := watched } :=
  h.goes (h.core.dialed hd hstage) (fun _ => ⟨d, .inl ((dials_at_self hd).2 rfl)⟩)
    (fun _ => List.mem_append_left _) rfl rfl rfl rfl

theorem leave (h : Sound w) (hd : w.dials[d]? = some dial) (hstage : dial.stage = .Leaving) :
    Sound { w.go d .Waking with slot := { w.slot with dialing := none } } :=
  h.goes (h.core.leaves hd (by rw [hstage]; rfl) rfl)
    (fun _ => ⟨d, .inr ((dials_at_self hd).2 rfl)⟩) (fun _ => id) rfl rfl rfl rfl

theorem wake (h : Sound w) (hd : w.dials[d]? = some dial) (hstage : dial.stage = .Waking) :
    Sound (w.go d .Over).notify_waiters := by
  refine ⟨h.core.rests hd (by rw [hstage]; rfl) rfl, fun q hq => ?_⟩
  obtain ⟨q, hq', rfl⟩ := List.mem_map.1 hq
  exact notified (h.queries q hq')

theorem drop_session (h : Sound w) (hover : ∀ q ∈ w.queries, q.phase.is_over = true)
    (hdropped : w.dropped = false) : Sound w.drop_session := by
  have hqueries : ∀ {dials : List Dial}, ∀ q ∈ w.queries,
      Fair dials w.ended w.forgotten true w.now q := by
    intro dials q hq
    have hphase := hover q hq
    unfold Phase.is_over at hphase
    split at hphase
    · exact .over ‹_› (h.queries q hq).stands.twice
    · cases hphase
  unfold World.drop_session
  simp only
  split
  · rename_i hnone
    refine ⟨h.core.abandon rfl (fun _ => id) (fun _ => id) fun d hd => ?_, hqueries⟩
    have hin := hd.imp fun _ hs => Stage.in_flight_of_pending (Stage.pending_of_dials_on hs)
    exact absurd (h.core.single hdropped d hin) (by simp [hnone])
  · rename_i d hdialing
    obtain ⟨dial, hd, hflight⟩ := h.core.dialing d hdialing
    have hother : ∀ {dials' : List Dial}, (∀ d', d' ≠ d → DialsOn dials' d' → DialsOn w.dials d') →
        ¬DialsOn dials' d → ∀ d', ¬DialsOn dials' d' := by
      intro dials' hback hself d' hd'
      by_cases hdd : d' = d
      · exact hself (hdd ▸ hd')
      · have hin := (hback d' hdd hd').imp fun _ hs =>
          Stage.in_flight_of_pending (Stage.pending_of_dials_on hs)
        exact hdd (h.core.one d' d hin ⟨dial, hd, hflight⟩)
    simp only [World.dial_step, hd]
    split
    · rename_i hstage
      refine ⟨h.core.abandon (List.length_modify ..) (fun _ => dials_of_at hd nofun)
        (fun _ => dials_of_at hd nofun) (hother (fun d' hdd => (dials_at_ne hdd).1) ?_), hqueries⟩
      exact fun hself => Bool.false_ne_true ((dials_at_self hd).1 hself)
    · rename_i hstage
      refine ⟨h.core.abandon (List.length_modify ..) (fun _ => dials_of_at hd fun _ => hflight)
        (fun _ => dials_of_at hd nofun) (hother (fun d' hdd => (dials_at_ne hdd).1) ?_), hqueries⟩
      exact fun hself => Bool.false_ne_true ((dials_at_self hd).1 hself)
    · rename_i hspawned hconnecting
      refine ⟨h.core.abandon rfl (fun _ => id) (fun _ => id) (hother (fun _ _ => id) ?_), hqueries⟩
      rintro ⟨dial', hd', hs⟩
      rw [hd] at hd'
      cases hd'
      cases hstage : dial.stage <;> simp_all [Stage.dials_on]

end

theorem closed (h : Sound w) {c : ℕ} (how : Str) (hc : w.closed c = none) :
    Sound { w with closings := (c, how) :: w.closings } := by
  refine ⟨h.core.close fun d how' hd => ?_, h.queries⟩
  have hne : (d == c) = false := by
    rw [beq_eq_false_iff_ne]
    rintro rfl
    rw [hc] at hd
    cases hd
  rw [World.closed, List.lookup_cons, hne]
  exact hd

/-- **One step** keeps the session. -/
theorem step (h : Sound w) (a : Action) : Sound (w.step a) := by
  have query : ∀ {k : ℕ} {f : Query → World}, (∀ q, w.queries[k]? = some q → Sound (f q)) →
      Sound (w.query_step k f) := by
    intro k f hf
    unfold World.query_step
    split
    · exact hf _ ‹_›
    · exact h
  have dial : ∀ {d : ℕ} {f : Dial → World}, (∀ dial, w.dials[d]? = some dial → Sound (f dial)) →
      Sound (w.dial_step d f) := by
    intro d f hf
    unfold World.dial_step
    split
    · exact hf _ ‹_›
    · exact h
  cases a with
  | query deadline =>
    unfold World.step
    simp only
    split_ifs with hdropped
    · exact h
    · refine ⟨h.core, fun q hq => ?_⟩
      rcases List.mem_append.1 hq with hq | hq
      · exact h.queries q hq
      · rw [List.mem_singleton.1 hq]
        exact ⟨nofun, rfl, nofun, fun _ => le_max_left _ _, fun hd => absurd hd hdropped⟩
  | register k =>
    refine query fun q hk => ?_
    split
    · exact h.asks hk (by rw [‹q.phase = _›]; rfl) rfl nofun
    · exact h
  | look k =>
    refine query fun q hk => ?_
    split
    · exact h.look hk ‹_›
    · exact h
  | woken k =>
    refine query fun q hk => ?_
    split
    · exact h.asks hk (by rw [‹q.phase = _›]; rfl) rfl nofun
    · exact h
  | answered k =>
    refine query fun q hk => ?_
    split
    · exact h.change hk (.over rfl (h.fair hk).stands.twice)
    · exact h
  | failed k failure quiet =>
    refine query fun q hk => ?_
    split
    · rename_i c taken hphase
      have hfair := h.fair hk
      have hc : (c, none) ∈ w.ended := hfair.known c (by rw [hphase]; rfl)
      have hkept : (w.unanswered c quiet).queries[k]? = some q := by cases quiet <;> exact hk
      have hsound := h.unanswered hc quiet
      have hfair' := hsound.fair hkept
      have hstands := hfair'.stands
      unfold Query.Stands at hstands
      simp only [hphase] at hstands
      refine hsound.change hkept ⟨?_, hstands, nofun, fun _ => hfair'.time (by rw [hphase]; rfl),
        fun hd => by simpa [hphase, Phase.is_over] using hfair'.rests hd⟩
      rintro _ ⟨⟩
      exact hfair'.known c (by rw [hphase]; rfl)
    · exact h
  | settle k =>
    refine query fun q hk => ?_
    split
    · exact h.settle hk ‹_›
    · exact h
  | time_out k quiet =>
    refine query fun q hk => ?_
    split_ifs
    · exact h.cut hk quiet _
    · exact h
  | drop k quiet => exact query fun q hk => h.cut hk quiet _
  | begin_dial d =>
    refine dial fun dial hd => ?_
    split
    · rename_i hstage
      exact h.advance hd (by rw [hstage]; rfl) rfl (fun _ => by rw [hstage]; rfl)
        fun _ => by rw [hstage]; rfl
    · exact h
  | connected d result =>
    refine dial fun dial hd => ?_
    split
    · rename_i hstage
      have hgo : Sound (w.go d (.Connected result)) :=
        h.advance hd (by rw [hstage]; rfl) rfl (fun _ => by rw [hstage]; rfl) nofun
      exact ⟨hgo.core, hgo.queries⟩
    · exact h
  | out_of_time d =>
    refine dial fun dial hd => ?_
    split
    · rename_i hstage
      split_ifs
      · exact h.advance hd (by rw [hstage]; rfl) rfl nofun nofun
      · exact h
    · exact h
  | dialed d =>
    refine dial fun dial hd => ?_
    split
    · exact h.dialed hd ‹_› _
    · exact h
  | leave d =>
    refine dial fun dial hd => ?_
    split
    · exact h.leave hd ‹_›
    · exact h
  | wake d =>
    refine dial fun dial hd => ?_
    split
    · exact h.wake hd ‹_›
    · exact h
  | close c how =>
    unfold World.step
    simp only
    split_ifs with hc
    · rw [Bool.and_eq_true, Option.isNone_iff_eq_none] at hc
      exact h.closed how hc.2
    · exact h
  | go_away c =>
    unfold World.step
    simp only
    split_ifs
    · exact ⟨h.core, h.queries⟩
    · exact h
  | let_go c =>
    unfold World.step
    simp only
    split_ifs
    · exact ⟨h.core.thins (Slot.thins_let_go_when_closed c), h.queries⟩
    · exact h
  | tick =>
    unfold World.step
    simp only
    split_ifs with hall
    · refine ⟨h.core, fun q hq => ?_⟩
      obtain ⟨hknown, hstands, hwaits, htime, hrests⟩ := h.queries q hq
      refine ⟨hknown, hstands, hwaits, fun hlive => ?_, hrests⟩
      have hdue := List.all_eq_true.1 hall q hq
      rw [hlive, Bool.false_or, decide_eq_true_eq] at hdue
      exact (Nat.succ_le_of_lt hdue).trans (le_max_right _ _)
    · exact h
  | drop_session =>
    unfold World.step
    simp only
    split_ifs with hover
    · rw [Bool.and_eq_true, Bool.not_eq_true', List.all_eq_true] at hover
      exact h.drop_session hover.2 hover.1
    · exact h

end Sound

theorem sound_run (as : List Action) : Sound (run World.step .new as) :=
  run_invariant (fun _ a h => h.step a)
    ⟨⟨nofun, fun _ d hd => absurd hd.lt (Nat.not_lt_zero d),
      fun d _ hd => absurd hd.lt (Nat.not_lt_zero d), nofun,
      fun d hd => absurd hd.lt (Nat.not_lt_zero d), rfl, nofun, nofun, nofun, nofun⟩, nofun⟩ as

/-! ### What is right for a query -/

/-- What a query rightly finds: a connection that has not closed and was not forgotten, that is
going away only if a dial made it that ended after the query began to wait; the failure of the last
dial, that ended after it began to wait, with none in flight; no time when it has none. -/
def Rightly (w : World) (q : Query) : Look → Prop
  | .Given c taken =>
    w.closed c = none ∧ c ∉ w.forgotten ∧ taken = q.waited_since.isNone ∧
      (w.away c = true → ∃ since i, q.waited_since = some since ∧ since ≤ i ∧
        w.ended[i]? = some (c, none))
  | .Failed e =>
    (∃ since, q.waited_since = some since ∧ since < w.ended.length) ∧
      Fails w.closed w.ended e ∧ ∀ d, ¬InFlight w.dials d
  | .OutOfTime => q.deadline ≤ w.now
  | .Wait => True

theorem Sound.rightly {w : World} {k : ℕ} {q : Query} {notified : Bool} (h : Sound w)
    (hk : w.queries[k]? = some q) (hphase : q.phase = .Looking notified) :
    Rightly w q (w.sees q).2 := by
  have hlive : w.dropped = false := h.live hk (by rw [hphase]; rfl)
  have hlooked := @looked w.closed w.away w.dials.length w.now q.deadline q.waited_since w.slot
  unfold World.sees
  generalize QuicSession.look w.closed w.away w.dials.length w.now q.deadline q.waited_since
    w.slot = found at hlooked
  obtain ⟨slot, found⟩ := found
  cases hlooked with
  | @given c hc hopen haway =>
    obtain ⟨hlast, hnot⟩ := h.core.current c hc
    refine ⟨hopen, hnot, rfl, fun hgoing => ?_⟩
    obtain ⟨since, hsince, hlt⟩ := haway hgoing
    rw [h.core.counted] at hlt
    rw [List.getLast?_eq_getElem?] at hlast
    exact ⟨since, _, hsince, Nat.le_pred_of_lt hlt, hlast⟩
  | failed ht hdialing hfailure hsince hlt =>
    have hcore := h.core.thins ht
    obtain ⟨rfl, hfails⟩ := hcore.failure _ _ hfailure
    rw [hcore.counted] at hlt
    refine ⟨⟨_, hsince, hlt⟩, hfails, fun d hd => ?_⟩
    have := hcore.single hlive d hd
    rw [hdialing] at this
    cases this
  | waits => trivial
  | out_of_time _ hdeadline => exact hdeadline
  | dials => trivial

/-- The connection that a step is about which may let go of one. -/
def World.about (w : World) : Action → Option ℕ
  | .failed k _ _ | .settle k | .time_out k _ | .drop k _ =>
    w.queries[k]?.bind fun q => q.phase.conn
  | .let_go c => some c
  | _ => none

namespace World

variable {w : World} {c c' : ℕ}

theorem unanswered_other (quiet : Bool) (hne : c' ≠ c) (h : w.slot.current = some c') :
    (w.unanswered c quiet).slot.current = some c' := by
  cases quiet with
  | false => exact h
  | true => exact Slot.forget_other hne h

theorem cut_other {k : ℕ} {q : Query} {quiet : Bool} {outcome : Outcome}
    (hc : q.phase.conn = some c) (hne : c' ≠ c) (h : w.slot.current = some c') :
    (w.cut k q quiet outcome).slot.current = some c' := by
  unfold cut
  split
  · exact h
  · rename_i hphase
    rw [hphase, Phase.conn, Option.some.injEq] at hc
    exact unanswered_other quiet (hc ▸ hne) h
  · exact h

/-- A step that lets go of one connection leaves another where it is. -/
theorem about_other {a : Action} (ha : w.about a = some c) (hne : c' ≠ c)
    (h : w.slot.current = some c') : (w.step a).slot.current = some c' := by
  cases a with
  | failed k failure quiet =>
    obtain ⟨q, hk, hc⟩ := Option.bind_eq_some_iff.1 ha
    simp only [step, query_step, hk]
    split
    · rename_i hphase
      rw [hphase, Phase.conn, Option.some.injEq] at hc
      exact unanswered_other quiet (hc ▸ hne) h
    · exact h
  | settle k =>
    obtain ⟨q, hk, hc⟩ := Option.bind_eq_some_iff.1 ha
    simp only [step, query_step, hk]
    split
    · rename_i failure hphase
      rw [hphase, Phase.conn, Option.some.injEq] at hc
      cases failure with
      | Failed e => exact h
      | Lost e => exact Slot.forget_other (hc ▸ hne) h
    · exact h
  | time_out k quiet =>
    obtain ⟨q, hk, hc⟩ := Option.bind_eq_some_iff.1 ha
    simp only [step, query_step, hk]
    split_ifs
    · exact cut_other hc hne h
    · exact h
  | drop k quiet =>
    obtain ⟨q, hk, hc⟩ := Option.bind_eq_some_iff.1 ha
    simp only [step, query_step, hk]
    exact cut_other hc hne h
  | let_go d =>
    obtain rfl : d = c := Option.some.inj ha
    unfold step
    simp only
    split_ifs
    · exact Slot.let_go_other hne h
    · exact h
  | _ => cases ha

end World

/-! ### A query ends -/

/-- Whose step it is. -/
def Action.query? : Action → Option ℕ
  | .register k | .look k | .settle k | .time_out k _ => some k
  | _ => none

/-- The query `k` comes to its end by steps of its own. -/
def Ends (w : World) (k : ℕ) : Prop :=
  ∃ as : List Action, (∀ a ∈ as, a.query? = some k) ∧
    ∃ q, (run World.step w as).queries[k]? = some q ∧ q.phase.is_over = true

namespace Ends

variable {w : World} {k : ℕ} {q : Query}

theorem step {a : Action} (ha : a.query? = some k) (h : Ends (w.step a) k) : Ends w k := by
  obtain ⟨as, has, hends⟩ := h
  refine ⟨a :: as, fun b hb => ?_, hends⟩
  rcases List.mem_cons.1 hb with rfl | hb
  · exact ha
  · exact has b hb

theorem of_over (hk : w.queries[k]? = some q) (h : q.phase.is_over = true) : Ends w k :=
  ⟨[], nofun, q, hk, h⟩

theorem changed {w : World} {k : ℕ} {q : Query} (hk : w.queries[k]? = some q)
    (f : Query → Query) : (w.change k f).queries[k]? = some (f q) := by
  simp [World.change, hk]

/-- Where it awaits something, its time is up. -/
theorem of_cut (hk : w.queries[k]? = some q) (hdue : q.deadline ≤ w.now)
    (h : (∃ notified, q.phase = .Waiting notified) ∨ ∃ c taken, q.phase = .Attempting c taken) :
    Ends w k := by
  refine .step (a := .time_out k false) rfl ?_
  simp only [World.step, World.query_step, hk, if_pos hdue]
  unfold World.cut
  rcases h with ⟨notified, hphase⟩ | ⟨c, taken, hphase⟩ <;> simp only [hphase]
  · exact of_over (changed hk _) rfl
  · exact of_over (@changed (w.unanswered c false) k q hk _) rfl

theorem of_looking (hk : w.queries[k]? = some q) (hdue : q.deadline ≤ w.now)
    {notified : Bool} (hphase : q.phase = .Looking notified) : Ends w k := by
  refine .step (a := .look k) rfl ?_
  simp only [World.step, World.query_step, hk, hphase]
  unfold World.look
  simp only
  have hkept : ∀ (slot : Slot) (dials : List Dial) (f : Query → Query),
      (World.change { w with slot := slot, dials := dials } k f).queries[k]? = some (f q) :=
    fun slot dials f => @changed { w with slot := slot, dials := dials } k q hk f
  split
  · exact of_cut (hkept _ _ _) hdue (.inr ⟨_, _, rfl⟩)
  · exact of_over (hkept _ _ _) rfl
  · exact of_over (hkept _ _ _) rfl
  · exact of_cut (hkept _ _ _) hdue (.inl ⟨_, rfl⟩)

theorem of_asking (hk : w.queries[k]? = some q) (hdue : q.deadline ≤ w.now)
    (hphase : q.phase = .Asking) : Ends w k := by
  refine .step (a := .register k) rfl ?_
  simp only [World.step, World.query_step, hk, hphase]
  exact of_looking (changed hk _) hdue rfl

/-- **A query ends by its deadline**, whatever others do. -/
theorem of_due (hk : w.queries[k]? = some q) (hdue : q.deadline ≤ w.now) : Ends w k := by
  cases hphase : q.phase with
  | Asking => exact of_asking hk hdue hphase
  | Looking notified => exact of_looking hk hdue hphase
  | Waiting notified => exact of_cut hk hdue (.inl ⟨_, hphase⟩)
  | Attempting c taken => exact of_cut hk hdue (.inr ⟨_, _, hphase⟩)
  | Unanswered c taken failure =>
    refine .step (a := .settle k) rfl ?_
    simp only [World.step, World.query_step, hk, hphase]
    cases failure with
    | Failed e => exact of_over (changed hk _) rfl
    | Lost e =>
      have hforgot : (w.forget c).queries[k]? = some q := hk
      by_cases hagain : (taken && !q.again) = true
      · exact of_asking (changed hforgot _) hdue (if_pos hagain)
      · exact of_over (changed hforgot _) (by simp only [hagain]; rfl)
  | Over outcome => exact of_over hk (by rw [hphase]; rfl)

end Ends

/-! ### Every run -/

/-- How a session serves its queries: one dial is in flight at most, and none goes on without the
session; a query that waits is woken by a dial; what a query finds is right for it, and it is
attempted twice at most; a step about one connection leaves another where it is; no time goes by
past a query's deadline, and one that is due ends by its own steps. -/
structure Serves (w : World) : Prop where
  one_dial : ∀ d d', InFlight w.dials d → InFlight w.dials d' → d = d'
  none_outlives : w.dropped = true → ∀ d, ¬DialsOn w.dials d
  woken : ∀ q ∈ w.queries, q.phase = .Waiting false →
    ∃ d, InFlight w.dials d ∨ Waking w.dials d
  rightly : ∀ (k : ℕ) (q : Query) (notified : Bool), w.queries[k]? = some q →
    q.phase = .Looking notified → Rightly w q (w.sees q).2
  twice : ∀ q ∈ w.queries, Twice q.attempts
  about_other : ∀ (a : Action) (c c' : ℕ), w.about a = some c → c' ≠ c →
    w.slot.current = some c' → (w.step a).slot.current = some c'
  in_time : ∀ q ∈ w.queries, q.phase.is_over = false → w.now ≤ max q.begun q.deadline
  ends : ∀ (k : ℕ) (q : Query), w.queries[k]? = some q → q.deadline ≤ w.now → Ends w k

/-- **No query is stranded**, in any run. -/
theorem session_spec (as : List Action) : Serves (run World.step .new as) := by
  have h := sound_run as
  refine ⟨h.core.one, fun hdropped => (h.core.without hdropped).2,
    fun q hq => (h.queries q hq).waits, fun k q notified hk hphase => h.rightly hk hphase,
    fun q hq => (h.queries q hq).stands.twice, fun a c c' ha hne hcurrent => ?_,
    fun q hq => (h.queries q hq).time, fun k q hk hdue => Ends.of_due hk hdue⟩
  exact World.about_other ha hne hcurrent

/-- A dial has left the slot and not woken the query that waits for it yet; and a connection that
was going away when a query came is given to it. -/
theorem left_and_going :
    (((run World.step .new [.query 1, .register 0, .look 0, .begin_dial 0,
        .connected 0 (some .Timeout), .dialed 0, .leave 0]).queries[0]?.map Query.phase =
          some (.Waiting false) ∧
      ∀ d, ¬InFlight (run World.step .new [.query 1, .register 0, .look 0, .begin_dial 0,
        .connected 0 (some .Timeout), .dialed 0, .leave 0]).dials d)) ∧
    ((run World.step .new [.query 1, .register 0, .look 0, .begin_dial 0, .connected 0 none,
        .go_away 0]).away 0 = true ∧
      (run World.step (run World.step .new [.query 1, .register 0, .look 0, .begin_dial 0,
        .connected 0 none, .go_away 0]) [.query 1, .register 1, .look 1, .dialed 0, .leave 0,
          .wake 0, .woken 1, .register 1, .look 1]).queries[1]?.map Query.phase =
            some (.Attempting 0 false)) := by
  refine ⟨⟨rfl, fun d hd => ?_⟩, by decide, rfl⟩
  obtain ⟨dial, hdial, hs⟩ := hd
  have hone : (run World.step .new [.query 1, .register 0, .look 0, .begin_dial 0,
      .connected 0 (some .Timeout), .dialed 0, .leave 0]).dials = [⟨1, .Waking⟩] := rfl
  rw [hone] at hdial
  obtain rfl := List.mem_singleton.1 (List.mem_of_getElem? hdial)
  cases hs

end QuicSession

end Rurge
