import Rurge.Enhanced.Quiet

/-!
# The egress table covers what is in the adapter

At every moment a network that is in the adapter is in the table of the slot, but for the ones that
a `routes` that failed, or a removal that did, left astray (`Covered`).  The routes the manager has
on record are the ones in the adapter, astray ones apart (`Recorded`), through an open, a close and
a follow; `Process.sound` carries both over every run.
-/

namespace Rurge.Enhanced

/-! ### What is covered, and what is on record -/

/-- A network in the adapter is in the table, unless the table may be without it. -/
def Covered (s : Sys) : Prop :=
  ∀ n ∈ s.world.installed, n ∉ s.lost → n ∈ slotNets s.slot

/-- These networks are the ones in the adapter, but for those that are astray. -/
def Recorded (s : Sys) (R : List IpNetAny) : Prop :=
  ∀ n, n ∉ s.astray → (n ∈ s.world.installed ↔ n ∈ R)

/-- The table may be without every network that is astray. -/
def AllLost (s : Sys) : Prop := ∀ n ∈ s.astray, n ∈ s.lost

/-- What every operation keeps. -/
abbrev Guard (_ t : Sys) : Prop := Covered t

variable {s t : Sys}

theorem Recorded.covered {R : List IpNetAny} (h : Recorded s R) (hl : AllLost s)
    (hR : ∀ n ∈ R, n ∈ slotNets s.slot) : Covered s :=
  fun n hn hout => hR n ((h n fun ha => hout (hl n ha)).1 hn)

theorem Still.covered (h : Still s t) (hs : Covered s) : Covered t := by
  unfold Covered
  rw [h.installed, h.lost, h.slot]
  exact hs

theorem Still.recorded (h : Still s t) {R : List IpNetAny} (hs : Recorded s R) :
    Recorded t R := by
  unfold Recorded
  rw [h.installed, h.astray]
  exact hs

theorem Still.allLost (h : Still s t) (hs : AllLost s) : AllLost t := by
  unfold AllLost
  rw [h.astray, h.lost]
  exact hs

/-- A program that leaves the routes alone leaves all of it as it was. -/
theorem quiet_holds {α : Type} {p : M α} {Q : α → Prop} (h : Quiet p Q) (hs : Covered s) :
    p.Holds Sys.Step Guard (fun a t => Q a ∧ Still s t) s := by
  refine (Prog.Asks.holds (J := Covered) h Still.refl Still.trans ?_ hs).mono
    fun a t ht => ⟨ht.1, ht.2.2⟩
  intro o s x t ho hx hs
  have hst := ho.step hx
  exact ⟨hst.covered hs, hst.covered hs, hst⟩

theorem only_if_quiet {c : Bool} {p : M Unit} (h : Quiet p) (hs : Covered s) :
    (only_if c p).Holds Sys.Step Guard (fun _ t => Still s t) s :=
  (quiet_holds (only_if_asks h) hs).mono fun _ _ ht => ht.2

/-! ### A call of `routes` -/

theorem blocking_holds {α : Type} {job : Job (Except Str α)} {G : World → World → Prop}
    {Q : Except Str α → World → Prop} {J : World → Prop} (hG : ∀ w u, G w u → J w → J u)
    (herr : ∀ e w, Q (.error e) w)
    (hcov : ∀ t : Sys, J t.world → t.lost = s.lost → t.slot = s.slot → Covered t)
    (hp : job.Holds Tool.Run G Q s.world) (hJ : J s.world) :
    (blocking job).Holds Sys.Step Guard
      (fun r t => ∃ u, Q r u ∧ J u ∧ t = { s with world := u }) s := by
  induction job generalizing s with
  | done r => exact ⟨s.world, hp, hJ, rfl⟩
  | ask t k ih =>
    rw [blocking]
    rintro x s' ⟨y, w, hrun, hxy, rfl⟩
    obtain ⟨hg, hk⟩ := hp y w hrun
    have hw := hG _ _ hg hJ
    refine ⟨hcov _ hw rfl rfl, ?_⟩
    cases x with
    | none => exact ⟨w, herr _ _, hw, rfl⟩
    | some z =>
      obtain rfl := hxy z rfl
      exact ih z (s := { s with world := w }) hcov hk hw

/-- What a call of `routes` leaves: from the networks on record, the ones it added and removed, with
what it could not do astray. -/
structure Asked (recorded add remove : RouteSet) (old : List IpNetAny) (r : Except Str Bool)
    (s t : Sys) : Prop where
  covered : Covered t
  ok : r = .ok true → ∀ R : List IpNetAny,
    (∀ n, n ∈ R ↔ (n ∈ old ∧ n ∉ remove.nets) ∨ n ∈ add.nets) → Recorded t R
  no : r = .ok false → ∀ R : List IpNetAny,
    (∀ n, n ∈ R ↔ (n ∈ old ∧ n ∉ remove.nets) ∨ ∃ m ∈ add.v4, n = .v4 m) → Recorded t R
  error : ∀ e, r = .error e → Recorded t recorded.nets
  slot : t.slot = s.slot
  lost : t.lost = s.lost
  on : t.on = s.on
  refused : t.outcome.refused = s.outcome.refused
  left_out : t.outcome.left_out = (s.outcome.left_out || decide (How.ofBool r = .no))
  failed : t.outcome.failed = (s.outcome.failed || decide (How.ofBool r = .failed))

section Routes

variable {S : System} (hS : S.Routing)
include hS

theorem ask_routes_holds {dev : Str} (recorded : RouteSet) {add remove : RouteSet}
    (old : List IpNetAny) (hold : Recorded s old) (hadd : ∀ n ∈ add.nets, n ∉ old)
    (hremove : ∀ n ∈ remove.nets, n ∈ old)
    (hrec : ∀ n, n ∉ add.nets → n ∉ remove.nets → (n ∈ recorded.nets ↔ n ∈ old))
    (hcov : Covered s) (hslot : ∀ n ∈ add.nets, n ∈ slotNets s.slot) :
    (ask (.routes recorded add remove) (S.routes dev add remove)).Holds Sys.Step Guard
      (fun r t => Asked recorded add remove old r s t) s := by
  have hcov' : ∀ t : Sys, Moves add remove s.world t.world → t.lost = s.lost →
      t.slot = s.slot → Covered t := by
    intro t hm hlost hsl n hn hout
    rw [hsl]
    rcases hm.only n hn with hn | hn
    · exact hcov n hn (hlost ▸ hout)
    · exact hslot n hn
  have hjob := hS.routes dev add remove s.world
  refine (blocking_holds (J := Moves add remove s.world) (fun w u hg hw => hw.trans hg)
    (fun e w => .error) hcov' hjob (.refl _ _ _)).bind ?_
  rintro r _ ⟨u, hdone, hm, rfl⟩ _ _ rfl
  have hdis : ∀ n ∈ add.nets, n ∉ remove.nets := fun n hn hr => hadd n hn (hremove n hr)
  -- a network the call was about is astray unless it is where it should be
  have key : ∀ R : List IpNetAny,
      (∀ n, n ∉ add.nets → n ∉ remove.nets → (n ∈ R ↔ n ∈ old)) →
      (∀ n, (n ∈ add.nets ∨ n ∈ remove.nets) →
        n ∉ Sys.strays { s with world := u } recorded add remove (.ofBool r) →
        (n ∈ u.installed ↔ n ∈ R)) →
      Recorded (Sys.ended { s with world := u } (.routes recorded add remove)
        (.ofBool r)) R := by
    intro R hother habout n hn
    have hn' : ¬ ((n ∈ s.astray ∧ n ∉ add.nets ∧ n ∉ remove.nets) ∨
        n ∈ Sys.strays { s with world := u } recorded add remove (.ofBool r)) := by
      simpa [Sys.ended] using hn
    change n ∈ u.installed ↔ n ∈ R
    by_cases hab : n ∈ add.nets ∨ n ∈ remove.nets
    · exact habout n hab fun h => hn' (.inr h)
    · obtain ⟨ha, hr⟩ := not_or.1 hab
      rw [hother n ha hr, hm.other ha fun h => (List.mem_append.1 h).elim ha hr]
      exact hold n fun h => hn' (.inl ⟨h, ha, hr⟩)
  have hcovt : Covered (Sys.ended { s with world := u } (.routes recorded add remove)
      (.ofBool r)) := hcov' _ hm rfl rfl
  refine ⟨hcovt, hcovt, ?_, ?_, ?_, rfl, rfl, rfl, rfl, rfl, rfl⟩
  · rintro rfl R hR
    refine key R (fun n ha hr => by simp [hR, ha, hr]) fun n hab hn => ?_
    have hn' : n ∈ u.undeleted → n ∉ remove.nets := by
      simpa [Sys.strays, How.ofBool] using hn
    by_cases ha : n ∈ add.nets
    · simp [hR, ha, hdone.all rfl n ha (hdis n ha)]
    · have hr := hab.resolve_left ha
      simp [hR, ha, hr, hdone.removed true rfl n hr fun h => hn' h hr]
  · rintro rfl R hR
    refine key R (fun n ha hr => ?_) fun n hab hn => ?_
    · rw [hR]
      constructor
      · rintro (h | ⟨m, hm, rfl⟩)
        · exact h.1
        · exact absurd (RouteSet.mem_nets_v4.2 hm) ha
      · exact fun h => .inl ⟨h, hr⟩
    · have hn' : n ∈ u.undeleted →
          n ∉ remove.nets ∧ n ∉ (⟨[], add.v6⟩ : RouteSet).nets := by
        simpa [Sys.strays, How.ofBool] using hn
      by_cases hr : n ∈ remove.nets
      · have hout := hdone.removed false rfl n hr fun h => (hn' h).1 hr
        rw [hR]
        refine iff_of_false hout ?_
        rintro (h | ⟨m, hm, rfl⟩)
        · exact h.2 hr
        · exact hdis _ (RouteSet.mem_nets_v4.2 hm) hr
      · have ha := hab.resolve_right hr
        cases n with
        | v4 n =>
          have h4 := RouteSet.mem_nets_v4.1 ha
          exact iff_of_true (hdone.v4 false rfl n h4 hr) ((hR _).2 (.inr ⟨n, h4, rfl⟩))
        | v6 n =>
          have h6 : IpNetAny.v6 n ∈ (⟨[], add.v6⟩ : RouteSet).nets :=
            RouteSet.mem_nets_v6.2 ((RouteSet.mem_nets_v6 (R := add)).1 ha)
          refine iff_of_false (hdone.v6 rfl _ h6 fun h => (hn' h).2 h6) ?_
          rw [hR]
          rintro (h | ⟨m, -, he⟩)
          · exact hadd _ ha h.1
          · cases he
  · rintro e rfl
    refine key recorded.nets hrec fun n hab hn => ?_
    by_contra hne
    refine hn (List.mem_filter.2 ⟨List.mem_append.2 hab, ?_⟩)
    simpa using hne

/-! ### The open -/

omit hS in
theorem attempt_holds {α : Type} {on : On} {p : M (Except Str α)} {f : α → M (On × Except Str Unit)}
    {G : Sys → Sys → Prop} {Q : Except Str α → Sys → Prop} {R : On × Except Str Unit → Sys → Prop}
    (h : p.Holds Sys.Step G Q s)
    (hok : ∀ a t, Q (.ok a) t → (f a).Holds Sys.Step G R t)
    (herr : ∀ e t, Q (.error e) t → R (on, .error e) t) :
    (attempt on p f).Holds Sys.Step G R s := by
  refine h.bind fun r t hr => ?_
  cases r with
  | ok a => exact hok a t hr
  | error e => exact herr e t hr

omit hS in
/-- The adapter's address leaves the routes alone; only its own end is noted. -/
theorem ask_address_holds {p : Job (Except Str Bool)} (h : p.Asks Tool.Quiet fun _ => True)
    (hs : Covered s) :
    (ask .address p).Holds Sys.Step Guard
      (fun r t => ∃ u, Still s u ∧ t = u.ended .address (.ofBool r)) s := by
  refine (quiet_holds (blocking_asks h fun _ ht => ht) hs).bind ?_
  rintro r u ⟨-, hu⟩ _ _ rfl
  have hcov := hu.covered hs
  exact ⟨hcov, u, hu, rfl⟩

omit hS in
theorem set_egress_holds {table : Option EgressTable}
    (h : Covered { s with slot := table }) :
    (op (.set_egress table)).Holds Sys.Step Guard (fun _ t => t = { s with slot := table }) s := by
  rintro x _ ⟨-, rfl⟩
  exact ⟨h, rfl⟩

omit hS in
theorem left_behind_holds (h : Covered { s with lost := s.astray }) :
    (op .left_behind).Holds Sys.Step Guard (fun _ t => t = { s with lost := s.astray }) s := by
  rintro x _ rfl
  exact ⟨h, rfl⟩

/-- What was asked for, less the IPv6 routes when the adapter could not have them. -/
def asked (wanted : Wanted) (ipv6 : Bool) : RouteSet :=
  ⟨wanted.routes.v4, if ipv6 then wanted.routes.v6 else []⟩

/-- The routes that go on record: what was asked for; or, when its IPv6 half was left out, what was
there of it. -/
def had (old : RouteSet) (wanted : Wanted) (o : Outcome) : RouteSet :=
  let next := asked wanted (wanted.ipv6 && !o.refused)
  if o.left_out then ⟨next.v4, old.v6.filter (· ∈ next.v6)⟩ else next

omit hS in
theorem had_empty_subset {wanted : Wanted} {o : Outcome} {n : IpNetAny}
    (h : n ∈ (had .empty wanted o).nets) : n ∈ wanted.routes.nets := by
  unfold had at h
  dsimp only at h
  cases n with
  | v4 n =>
    split_ifs at h <;> simpa [asked] using h
  | v6 n =>
    split_ifs at h
    · simp [RouteSet.empty] at h
    · have h6 : n ∈ (asked wanted (wanted.ipv6 && !o.refused)).v6 := RouteSet.mem_nets_v6.1 h
      unfold asked at h6
      dsimp only at h6
      split_ifs at h6
      · exact RouteSet.mem_nets_v6.2 h6
      · cases h6

/-- The networks that `on` has on record. -/
def onNets (on : On) : List IpNetAny := (on.routes.map RouteSet.nets).getD []

/-- How an open ends: what it has on record is in the adapter, and when it succeeded that is what
was wanted. -/
structure OpenEnds (wanted : Wanted) (r : On × Except Str Unit) (t : Sys) : Prop where
  covered : Covered t
  lost : AllLost t
  recorded : Recorded t (onNets r.1)
  dev : r.1.dev = none → r.1.routes = none
  ok : r.2 = .ok () → r.1.dev.isSome ∧ r.1.routes = some (had .empty wanted t.outcome) ∧
    ∃ table, t.slot = some table ∧ table.routes = wanted.routes

theorem open_routes_holds {on : On} {dev : Str} {wanted : Wanted} {ipv6 : Bool} {undo : List Undo}
    (hrec : Recorded s []) (hlost : AllLost s) (hslot : ∃ table, s.slot = some table ∧
      table.routes = wanted.routes)
    (hipv6 : ipv6 = (wanted.ipv6 && !s.outcome.refused)) (hleft : s.outcome.left_out = false)
    (hdev : on.dev.isSome) (hroutes : on.routes = none) :
    (open_routes S on dev wanted ipv6 undo).Holds Sys.Step Guard
      (fun r t => OpenEnds wanted r t ∧ t.on = s.on) s := by
  obtain ⟨tb, htb, htbr⟩ := hslot
  have hin : ∀ n ∈ (asked wanted ipv6).nets, n ∈ slotNets s.slot := by
    intro n hn
    rw [htb]
    change n ∈ tb.routes.nets
    rw [htbr]
    cases n with
    | v4 n => simpa [asked] using hn
    | v6 n =>
      cases ipv6
      · simp [asked] at hn
      · simpa [asked] using hn
  have hnext : (if ipv6 then wanted.routes else (⟨wanted.routes.v4, []⟩ : RouteSet)) =
      asked wanted ipv6 := by
    cases ipv6 <;> rfl
  unfold open_routes
  rw [hnext]
  refine (ask_routes_holds hS .empty [] hrec (by simp) (by simp) (by simp)
    (hrec.covered hlost (by simp)) hin).bind ?_
  rintro r t ht
  -- what went in is on record, or nothing is
  have hdone : ∀ u : Sys, u = { t with lost := t.astray } → AllLost u := by
    rintro u rfl n hn
    exact hn
  have hcov : ∀ R : List IpNetAny, Recorded t R → (∀ n ∈ R, n ∈ slotNets s.slot) →
      Covered { t with lost := t.astray } := fun R hR hsl =>
    Recorded.covered (s := { t with lost := t.astray }) hR (hdone _ rfl) fun n hn => by
      change n ∈ slotNets t.slot
      rw [ht.slot]
      exact hsl n hn
  cases r with
  | error e =>
    have hR := ht.error e rfl
    refine (left_behind_holds (hcov _ hR (by simp))).bind ?_
    rintro _ _ rfl
    refine ⟨⟨hcov _ hR (by simp), hdone _ rfl, ?_, fun h => ?_, fun h => ?_⟩, ht.on⟩
    · change Recorded t (onNets on)
      rwa [onNets, hroutes]
    · exact hroutes
    · cases h
  | ok added =>
    have hR : Recorded t (had .empty wanted t.outcome).nets ∧
        (if added then asked wanted ipv6 else ⟨(asked wanted ipv6).v4, []⟩) =
          had .empty wanted t.outcome ∧
        ∀ n ∈ (had .empty wanted t.outcome).nets, n ∈ (asked wanted ipv6).nets := by
      have href := ht.refused
      have hlo := ht.left_out
      rw [hleft, Bool.false_or] at hlo
      have hbase : had .empty wanted t.outcome = if t.outcome.left_out then
          ⟨(asked wanted ipv6).v4, []⟩ else asked wanted ipv6 := by
        unfold had
        rw [href, ← hipv6]
        rfl
      cases added with
      | true =>
        have hfalse : t.outcome.left_out = false := by simpa [How.ofBool] using hlo
        rw [hbase, hfalse]
        exact ⟨ht.ok rfl _ (by simp), rfl, fun n hn => hn⟩
      | false =>
        have htrue : t.outcome.left_out = true := by simpa [How.ofBool] using hlo
        rw [hbase, htrue, if_pos rfl]
        refine ⟨ht.no rfl _ fun n => ?_, rfl, fun n hn => ?_⟩
        · cases n <;> simp
        · cases n with
          | v4 n => simpa using hn
          | v6 n => simp at hn
    obtain ⟨hR, heq, hsub⟩ := hR
    have hc := hcov _ hR fun n hn => hin n (hsub n hn)
    refine (left_behind_holds hc).bind ?_
    rintro _ _ rfl
    change (open_dns S { on with
      routes := some (if added then asked wanted ipv6 else ⟨(asked wanted ipv6).v4, []⟩)
      ipv6 := ipv6 && added } dev wanted (ipv6 && added) undo).Holds _ _ _ _
    rw [heq]
    refine (quiet_holds (open_dns_quiet hS _ _ _ _ _) hc).mono ?_
    rintro r u ⟨⟨hd, hr, -, -⟩, hu⟩
    have hout : had .empty wanted u.outcome = had .empty wanted t.outcome := by
      unfold had
      rw [hu.refused, hu.left_out]
    refine ⟨⟨hu.covered hc, hu.allLost (hdone _ rfl), ?_, fun h => ?_, fun _ => ⟨?_, ?_, tb, ?_,
      htbr⟩⟩, hu.on.trans ht.on⟩
    · refine hu.recorded (s := { t with lost := t.astray }) ?_
      rw [onNets, hr]
      exact hR
    · rw [hd] at h
      have h' : on.dev = none := h
      rw [h'] at hdev
      cases hdev
    · rw [hd]
      exact hdev
    · rw [hr, hout]
    · rw [hu.slot]
      exact ht.slot.trans htb

theorem open_holds {wanted : Wanted} {saved : List Undo} (hrec : Recorded s [])
    (hlost : AllLost s) (href : s.outcome.refused = false) (hleft : s.outcome.left_out = false) :
    (open_ S wanted saved).Holds Sys.Step Guard (fun r t => OpenEnds wanted r t ∧ t.on = s.on)
      s := by
  have hcov : ∀ {t}, Recorded t [] → AllLost t → Covered t := fun h hl => h.covered hl (by simp)
  have hfail : ∀ {on : On} {e : Str} {t : Sys}, Recorded t [] → AllLost t → on.routes = none →
      OpenEnds wanted (on, .error e) t := by
    intro on e t hr hl hon
    refine ⟨hcov hr hl, hl, ?_, fun _ => hon, nofun⟩
    change Recorded t (onNets on)
    rwa [onNets, hon]
  refine attempt_holds (quiet_holds (call_quiet hS.open_device) (hcov hrec hlost)) ?_ ?_
  swap
  · rintro e t ⟨-, ht⟩
    exact ⟨hfail (ht.recorded hrec) (ht.allLost hlost) rfl, ht.on⟩
  rintro dev t₁ ⟨-, h₁⟩
  refine (quiet_holds (op_asks (by trivial)) (h₁.covered (hcov hrec hlost))).bind ?_
  rintro _ t₂ ⟨-, h₂⟩
  replace h₂ := h₁.trans _ _ _ h₂
  refine attempt_holds (ask_address_holds (hS.configure _ _) (h₂.covered (hcov hrec hlost))) ?_ ?_
  swap
  · rintro e t ⟨u, hu, rfl⟩
    replace hu := h₂.trans _ _ _ hu
    exact ⟨hfail (hu.recorded hrec) (hu.allLost hlost) rfl, hu.on⟩
  rintro configured _ ⟨t₃, h₃, rfl⟩
  replace h₃ := h₂.trans _ _ _ h₃
  -- from here on the answer about the address is part of the history
  generalize ht₄ : t₃.ended .address (.ofBool (.ok configured)) = t₄
  have hrec₄ : Recorded t₄ [] := ht₄ ▸ h₃.recorded hrec
  have hlost₄ : AllLost t₄ := ht₄ ▸ h₃.allLost hlost
  have href₄ : t₄.outcome.refused = !configured := by
    have hr := h₃.refused
    rw [href] at hr
    subst ht₄
    cases configured <;> simp [Sys.ended, How.ofBool, hr]
  have hleft₄ : t₄.outcome.left_out = false := by
    rw [← ht₄]
    exact h₃.left_out.trans hleft
  have hon₄ : t₄.on = s.on := by
    rw [← ht₄]
    exact h₃.on
  refine attempt_holds (quiet_holds (op_asks (by trivial)) (hcov hrec₄ hlost₄)) ?_ ?_
  swap
  · rintro e t ⟨-, ht⟩
    exact ⟨hfail (ht.recorded hrec₄) (ht.allLost hlost₄) rfl, ht.on.trans hon₄⟩
  rintro _ t₅ ⟨-, h₅⟩
  refine (quiet_holds (physical_subnets_quiet dev) (h₅.covered (hcov hrec₄ hlost₄))).bind ?_
  rintro subnets t₆ ⟨-, h₆⟩
  replace h₆ := h₅.trans _ _ _ h₆
  have hslot : ∀ tb, Recorded { t₆ with slot := tb } [] ∧ AllLost { t₆ with slot := tb } :=
    fun tb => ⟨h₆.recorded hrec₄, h₆.allLost hlost₄⟩
  refine (set_egress_holds (hcov (hslot _).1 (hslot _).2)).bind ?_
  rintro _ _ rfl
  refine (quiet_holds (op_asks (by trivial)) (hcov (hslot _).1 (hslot _).2)).bind ?_
  rintro _ t₇ ⟨-, h₇⟩
  refine (quiet_holds (op_asks (by trivial)) (h₇.covered (hcov (hslot _).1 (hslot _).2))).bind ?_
  rintro _ t₈ ⟨-, h₈⟩
  replace h₈ := h₇.trans _ _ _ h₈
  refine (open_routes_holds hS (h₈.recorded (hslot _).1) (h₈.allLost (hslot _).2)
    ⟨_, h₈.slot, rfl⟩ ?_ ?_ rfl rfl).mono fun r t ht => ⟨ht.1, ?_⟩
  · rw [h₈.refused]
    change _ = (wanted.ipv6 && !t₆.outcome.refused)
    rw [h₆.refused, href₄, Bool.not_not]
  · rw [h₈.left_out]
    change t₆.outcome.left_out = false
    rw [h₆.left_out, hleft₄]
  · rw [ht.2, h₈.on]
    change t₆.on = s.on
    rw [h₆.on, hon₄]

/-! ### The close -/

omit hS in
/-- The device goes, and takes with it what it takes. -/
theorem close_device_holds {closing : Closing} (hrec : Recorded s []) (hlost : AllLost s) :
    (close_device closing).Holds Sys.Step Guard
      (fun _ t => Recorded t [] ∧ AllLost t ∧ t.on = s.on) s := by
  have hcov : Covered s := hrec.covered hlost (by simp)
  refine Prog.Holds.bind (Q := fun _ t => Recorded t [] ∧ AllLost t ∧ t.on = s.on) ?_
    fun _ _ ht => ht
  refine (blocking_holds (J := fun w => ∀ n ∈ w.installed, n ∈ s.world.installed)
    (G := fun w u => ∀ n ∈ u.installed, n ∈ w.installed) (Q := fun _ _ => True)
    (fun w u hg hw n hn => hw n (hg n hn)) (fun _ _ => trivial) ?_ ?_ fun n hn => hn).bind ?_
  · intro t hw hl hsl n hn hout
    rw [hsl]
    exact hcov n (hw n hn) (hl ▸ hout)
  · rintro x u ⟨hu, -⟩
    exact ⟨hu, trivial⟩
  · rintro r _ ⟨u, -, hu, rfl⟩ _ _ rfl
    have hr : Recorded { s with world := u } [] := fun n hn =>
      iff_of_false (fun hin => by simpa using (hrec n hn).1 (hu n hin)) (by simp)
    have hl : AllLost { s with world := u } := hlost
    exact ⟨hr.covered hl (by simp), hr, hl, rfl⟩

/-- The routes go: nothing is on record. -/
theorem close_routes_holds {dev : Str} {routes : Option RouteSet} {closing : Closing}
    (hrec : Recorded s ((routes.map RouteSet.nets).getD [])) (hlost : AllLost s)
    (hcov : Covered s) :
    (close_routes S dev routes closing).Holds Sys.Step Guard
      (fun _ t => Recorded t [] ∧ AllLost t ∧ t.on = s.on) s := by
  cases routes with
  | none => exact ⟨hrec, hlost, rfl⟩
  | some routes =>
    refine (ask_routes_holds hS .empty routes.nets hrec (by simp) (by simp) ?_ hcov
      (by simp)).bind ?_
    · intro n _ hn
      exact iff_of_false (by simp) hn
    rintro r t ht
    have hR : Recorded t [] := by
      cases r with
      | error e => exact ht.error e rfl
      | ok b =>
        cases b with
        | true => exact ht.ok rfl [] (by simp)
        | false => exact ht.no rfl [] (by simp [RouteSet.empty])
    have hl : AllLost { t with lost := t.astray } := fun n hn => hn
    refine (left_behind_holds (Recorded.covered hR hl (by simp))).bind ?_
    rintro _ _ rfl
    exact ⟨hR, hl, ht.on⟩

theorem undo_stage_quiet (stage : Stage) (saved : List Undo) (closing : Closing) :
    Quiet (undo_stage S stage saved closing) :=
  undo_each_quiet hS _ _

/-- **A close leaves nothing on record**, whatever fails in it. -/
theorem close_holds {on : On} {saved : List Undo} {rewrite : Bool}
    (hrec : Recorded s (onNets on)) (hlost : AllLost s) (hcov : Covered s)
    (hdev : on.dev = none → on.routes = none) :
    (close S on saved rewrite).Holds Sys.Step Guard
      (fun _ t => Recorded t [] ∧ AllLost t ∧ t.on = s.on) s := by
  have hend : ∀ {t : Sys}, Recorded t [] → AllLost t → Covered t :=
    fun hr hl => hr.covered hl (by simp)
  unfold close
  split
  · rename_i hd
    rw [onNets, hdev hd] at hrec
    refine (quiet_holds (op_asks (by trivial)) hcov).bind ?_
    rintro _ t ⟨-, ht⟩
    exact ⟨ht.recorded hrec, ht.allLost hlost, ht.on⟩
  rename_i dev hd
  refine (quiet_holds (close_dns_quiet hS _ _ _) hcov).bind ?_
  rintro closing t₁ ⟨-, h₁⟩
  refine (close_routes_holds hS (h₁.recorded hrec) (h₁.allLost hlost) (h₁.covered hcov)).bind ?_
  rintro closing t₂ ⟨hr₂, hl₂, hon₂⟩
  -- the table goes once nothing is on record
  have hegress : (only_if on.egress close_egress).Holds Sys.Step Guard
      (fun _ t => Recorded t [] ∧ AllLost t ∧ t.on = s.on) t₂ := by
    cases on.egress
    · exact ⟨hr₂, hl₂, hon₂.trans h₁.on⟩
    · have hs₂ : Recorded { t₂ with slot := none } [] ∧ AllLost { t₂ with slot := none } :=
        ⟨hr₂, hl₂⟩
      refine (set_egress_holds (hend hs₂.1 hs₂.2)).bind ?_
      rintro _ _ rfl
      refine (quiet_holds (op_asks (by trivial)) (hend hs₂.1 hs₂.2)).bind ?_
      rintro _ t ⟨-, ht⟩
      refine (quiet_holds (op_asks (by trivial)) (ht.covered (hend hs₂.1 hs₂.2))).mono ?_
      rintro _ u ⟨-, hu⟩
      replace hu := ht.trans _ _ _ hu
      exact ⟨hu.recorded hs₂.1, hu.allLost hs₂.2, hu.on.trans (hon₂.trans h₁.on)⟩
  refine hegress.bind ?_
  rintro _ t₃ ⟨hr₃, hl₃, hon₃⟩
  refine (only_if_quiet (op_asks (by trivial)) (hend hr₃ hl₃)).bind ?_
  rintro _ t₄ h₄
  refine (close_device_holds (h₄.recorded hr₃) (h₄.allLost hl₃)).bind ?_
  rintro closing t₅ ⟨hr₅, hl₅, hon₅⟩
  have hadjust : ∀ closing, Quiet (close_adjust S on.adjust saved closing) := by
    intro closing
    unfold close_adjust
    split_ifs
    · exact undo_stage_quiet hS _ _ _
    · trivial
  refine (quiet_holds (hadjust closing) (hend hr₅ hl₅)).bind ?_
  rintro closing t₆ ⟨-, h₆⟩
  refine (only_if_quiet (rewrite_backup_quiet closing saved)
    (h₆.covered (hend hr₅ hl₅))).bind ?_
  rintro _ t₇ h₇
  replace h₇ := h₆.trans _ _ _ h₇
  refine (quiet_holds (op_asks (by trivial)) (h₇.covered (hend hr₅ hl₅))).bind ?_
  rintro _ t₈ ⟨-, h₈⟩
  replace h₈ := h₇.trans _ _ _ h₈
  exact ⟨h₈.recorded hr₅, h₈.allLost hl₅,
    h₈.on.trans (hon₅.trans (h₄.on.trans hon₃))⟩

/-! ### The calls -/

/-- What is on between two calls: its routes are the ones in the adapter, and in the table. -/
structure Standing (on : On) (old : RouteSet) (s : Sys) : Prop where
  dev : on.dev.isSome
  routes : on.routes = some old
  recorded : Recorded s old.nets
  table : ∀ n ∈ old.nets, n ∈ slotNets s.slot

omit hS in
theorem Standing.still {on : On} {old : RouteSet} (h : Standing on old s) (ht : Still s t) :
    Standing on old t :=
  ⟨h.dev, h.routes, ht.recorded h.recorded, fun n hn => by rw [ht.slot]; exact h.table n hn⟩

/-- What is true between two calls. -/
structure Rests (s : Sys) : Prop where
  covered : Covered s
  off : s.on = none → Recorded s []
  on : ∀ on, s.on = some on → ∃ old, Standing on old s

omit hS in
/-- A call begins: the table may be without what is astray. -/
theorem began_holds (h : Rests s) :
    (op .began).Holds Sys.Step Guard
      (fun _ t => t = { s with lost := s.astray, outcome := .default } ∧ Rests t ∧ AllLost t)
      s := by
  rintro x _ rfl
  have hl : AllLost { s with lost := s.astray, outcome := .default } := fun n hn => hn
  have hcov : Covered { s with lost := s.astray, outcome := .default } := by
    cases hon : s.on with
    | none =>
      have hr : Recorded { s with lost := s.astray, outcome := .default } [] := h.off hon
      exact hr.covered hl (by simp)
    | some on =>
      obtain ⟨old, hst⟩ := h.on on hon
      have hr : Recorded { s with lost := s.astray, outcome := .default } old.nets := hst.recorded
      exact hr.covered hl hst.table
  refine ⟨hcov, rfl, ⟨hcov, h.off, fun on hon => ?_⟩, hl⟩
  obtain ⟨old, hst⟩ := h.on on hon
  exact ⟨old, hst.dev, hst.routes, hst.recorded, hst.table⟩

omit hS in
/-- Reading what is on. -/
theorem on_holds {α : Type} {k : Option On → M α} {Q : α → Sys → Prop} (hs : Covered s)
    (hk : (k s.on).Holds Sys.Step Guard Q s) :
    (op .on >>= k).Holds Sys.Step Guard Q s := by
  rintro x _ ⟨rfl, rfl⟩
  exact ⟨hs, hk⟩

omit hS in
theorem set_on_holds {on : Option On} (hs : Covered s) :
    (op (.set_on on)).Holds Sys.Step Guard (fun _ t => t = { s with on := on }) s := by
  rintro x _ rfl
  exact ⟨hs, rfl⟩

/-- The routes in the adapter are the ones on record, which are these, and so are the table's. -/
def Installed (s : Sys) (routes tabled : RouteSet) : Prop :=
  ∃ on table, s.on = some on ∧ on.routes = some routes ∧ Recorded s routes.nets ∧
    s.slot = some table ∧ table.routes = tabled

/-- **What `enable` does.** -/
theorem enable_holds {wanted : Wanted} (h : Rests s) :
    (enable S wanted).Holds Sys.Step Guard
      (fun r t => Rests t ∧ (s.on = none → r = .ok () →
        Installed t (had .empty wanted t.outcome) wanted.routes)) s := by
  refine (began_holds h).bind ?_
  rintro _ t₁ ⟨ht₁, h₁, hl₁⟩
  have hon₁ : t₁.on = s.on := by rw [ht₁]
  refine on_holds h₁.covered ?_
  cases hon : t₁.on with
  | some on => exact ⟨h₁, fun hs => by simp [hon₁.trans hs] at hon⟩
  | none =>
    have hr₁ := h₁.off hon
    change (saved_undo.andThen _).Holds _ _ _ _
    refine (quiet_holds saved_undo_quiet h₁.covered).andThen ?_ ?_
    swap
    · rintro e t ⟨-, ht⟩
      refine ⟨⟨ht.covered h₁.covered, fun _ => ht.recorded hr₁, fun on hs => ?_⟩, nofun⟩
      rw [ht.on, hon] at hs
      cases hs
    rintro saved t₂ ⟨-, h₂⟩
    refine (open_holds hS (h₂.recorded hr₁) (h₂.allLost hl₁) ?_ ?_).bind ?_
    · rw [h₂.refused, ht₁]
      rfl
    · rw [h₂.left_out, ht₁]
      rfl
    rintro ⟨on, r⟩ t₃ ⟨h₃, hon₃⟩
    rw [h₂.on, hon] at hon₃
    cases r with
    | ok a =>
      obtain ⟨hdev, hroutes, tb, htb, htbr⟩ := h₃.ok rfl
      refine (quiet_holds (op_asks (by trivial)) h₃.covered).bind ?_
      rintro _ t₄ ⟨-, h₄⟩
      refine (set_on_holds (h₄.covered h₃.covered)).bind ?_
      rintro _ _ rfl
      have hrec : Recorded t₄ (had .empty wanted t₃.outcome).nets := by
        have hr := h₄.recorded h₃.recorded
        rwa [onNets, hroutes] at hr
      have hout : had .empty wanted t₄.outcome = had .empty wanted t₃.outcome := by
        unfold had
        rw [h₄.refused, h₄.left_out]
      refine ⟨⟨h₄.covered h₃.covered, nofun, ?_⟩, fun _ _ => ?_⟩
      · rintro on' hon'
        obtain rfl : on = on' := Option.some.inj hon'
        refine ⟨_, hdev, hroutes, hrec, fun n hn => ?_⟩
        change n ∈ slotNets t₄.slot
        rw [h₄.slot, htb]
        change n ∈ tb.routes.nets
        rw [htbr]
        exact had_empty_subset hn
      · exact ⟨on, tb, rfl, hroutes.trans (congrArg some hout.symm), hout ▸ hrec,
          h₄.slot.trans htb, htbr⟩
    | error e =>
      refine (quiet_holds saved_undo_quiet h₃.covered).bind ?_
      rintro current t₄ ⟨-, h₄⟩
      have hclose : ∀ saved rewrite, (close S on saved rewrite).Holds Sys.Step Guard
          (fun _ t => Recorded t [] ∧ AllLost t ∧ t.on = none) t₄ := fun saved rewrite =>
        (close_holds hS (h₄.recorded h₃.recorded) (h₄.allLost h₃.lost) (h₄.covered h₃.covered)
          h₃.dev).mono fun _ t ht => ⟨ht.1, ht.2.1, ht.2.2.trans (h₄.on.trans hon₃)⟩
      have hend : ∀ t, (Recorded t [] ∧ AllLost t ∧ t.on = none) → Rests t := fun t ht =>
        ⟨ht.1.covered ht.2.1 (by simp), fun _ => ht.1, fun on hs => by
          rw [ht.2.2] at hs
          cases hs⟩
      cases current with
      | ok current => exact (hclose current true).bind fun _ t ht => ⟨hend t ht, nofun⟩
      | error e' => exact (hclose saved false).bind fun _ t ht => ⟨hend t ht, nofun⟩

/-- **What `disable` does.** -/
theorem disable_holds (h : Rests s) :
    (disable S).Holds Sys.Step Guard (fun _ t => Rests t) s := by
  refine (began_holds h).bind ?_
  rintro _ t₁ ⟨-, h₁, hl₁⟩
  refine on_holds h₁.covered ?_
  cases hon : t₁.on with
  | none => exact h₁
  | some on =>
    obtain ⟨old, hst⟩ := h₁.on on hon
    refine (set_on_holds h₁.covered).bind ?_
    rintro _ t₂ ht₂
    have hcov₂ : Covered t₂ := ht₂ ▸ h₁.covered
    have hon₂ : t₂.on = none := by rw [ht₂]
    have hrec₂ : Recorded t₂ (onNets on) := by
      rw [onNets, hst.routes, ht₂]
      exact hst.recorded
    have hlost₂ : AllLost t₂ := ht₂ ▸ hl₁
    refine (quiet_holds saved_undo_quiet hcov₂).bind ?_
    rintro saved t₃ ⟨-, h₃⟩
    have hclose : ∀ saved rewrite, (close S on saved rewrite).Holds Sys.Step Guard
        (fun _ t => Rests t) t₃ := by
      intro saved rewrite
      refine (close_holds hS (h₃.recorded hrec₂) (h₃.allLost hlost₂) (h₃.covered hcov₂) ?_).mono ?_
      · intro hd
        have := hst.dev
        rw [hd] at this
        cases this
      · rintro _ t ⟨hr, hl, ho⟩
        refine ⟨hr.covered hl (by simp), fun _ => hr, fun on hs => ?_⟩
        rw [ho, h₃.on, hon₂] at hs
        cases hs
    cases saved with
    | ok saved => exact hclose saved true
    | error e => exact hclose [] false

/-- The adapter's address, in a follow. -/
theorem follow_address_holds {dev : Str} {turning_on ipv6 : Bool} {on : On} {old : RouteSet}
    (hst : Standing on old s) (hlost : AllLost s) (hcov : Covered s)
    (href : s.outcome.refused = false) (hon : turning_on → ipv6) :
    (follow_address S dev turning_on ipv6).Holds Sys.Step Guard
      (fun b t => Standing on old t ∧ AllLost t ∧ Covered t ∧ t.on = s.on ∧
        t.outcome.left_out = s.outcome.left_out ∧
        (t.outcome.failed = false → b = (ipv6 && !t.outcome.refused))) s := by
  unfold follow_address
  cases turning_on with
  | false => exact ⟨hst, hlost, hcov, rfl, rfl, fun _ => by simp [href]⟩
  | true =>
    refine (ask_address_holds (hS.configure_ipv6 dev) hcov).bind ?_
    rintro r _ ⟨u, hu, rfl⟩
    have hst' : Standing on old (u.ended .address (.ofBool r)) :=
      ⟨hst.dev, hst.routes, hu.recorded hst.recorded, (hst.still hu).table⟩
    have hl' : AllLost (u.ended .address (.ofBool r)) := hu.allLost hlost
    have hc' : Covered (u.ended .address (.ofBool r)) := hu.covered hcov
    have hr : u.outcome.refused = false := hu.refused.trans href
    cases r with
    | ok had =>
      refine ⟨hst', hl', hc', hu.on, hu.left_out, fun _ => ?_⟩
      rw [hon rfl]
      cases had <;> simp [Sys.ended, How.ofBool, hr]
    | error e =>
      exact ⟨hst', hl', hc', hu.on, hu.left_out, fun hf => by simp [Sys.ended, How.ofBool] at hf⟩

/-- What the routes of a follow leave. -/
structure Followed (on : On) (old : RouteSet) (wanted : Wanted) (ipv6 : Bool)
    (r : Option RouteSet × Bool × Bool) (s t : Sys) : Prop where
  covered : Covered t
  on : t.on = s.on
  refused : t.outcome.refused = s.outcome.refused
  standing : ∃ R, r.1 = some R ∧ Recorded t R.nets ∧ ∀ n ∈ R.nets, n ∈ slotNets t.slot
  done : t.outcome.failed = false → s.outcome.failed = false ∧ ∃ table,
    r.1 = some (if t.outcome.left_out then ⟨wanted.routes.v4,
      old.v6.filter (· ∈ (asked wanted ipv6).v6)⟩ else asked wanted ipv6) ∧
    t.slot = some table ∧ r.1 = some table.routes

theorem follow_routes_holds {on : On} {old : RouteSet} {dev : Str} {wanted : Wanted}
    {was_ipv6 ipv6 : Bool} {subnets : List (IpNetAny × Str)} (hst : Standing on old s)
    (hlost : AllLost s) (hleft : s.outcome.left_out = false) :
    (follow_routes S dev on.routes wanted was_ipv6 ipv6 subnets).Holds Sys.Step Guard
      (fun r t => Followed on old wanted ipv6 r s t) s := by
  have hnext : (if ipv6 then wanted.routes else (⟨wanted.routes.v4, []⟩ : RouteSet)) =
      asked wanted ipv6 := by
    cases ipv6 <;> rfl
  unfold follow_routes
  rw [hnext, hst.routes, Option.getD_some]
  generalize hnxt : asked wanted ipv6 = next
  have hv4 : wanted.routes.v4 = next.v4 := by
    rw [← hnxt]
    rfl
  dsimp only
  split_ifs with hsame
  · -- nothing to add or remove
    simp only [Bool.and_eq_true] at hsame
    have hadd := RouteSet.nets_of_is_empty hsame.1
    have hrem := RouteSet.nets_of_is_empty hsame.2
    have hnets : ∀ n, n ∈ next.nets ↔ n ∈ old.nets := by
      intro n
      have h₁ : n ∈ (old.diff next).1.nets ↔ _ := RouteSet.mem_diff_add
      have h₂ : n ∈ (old.diff next).2.nets ↔ _ := RouteSet.mem_diff_remove
      rw [hadd] at h₁
      rw [hrem] at h₂
      simp only [List.not_mem_nil, false_iff, not_and, not_not] at h₁ h₂
      exact ⟨h₁, h₂⟩
    have hrec : Recorded { s with slot := some (table next wanted subnets) } next.nets :=
      fun n hn => (hst.recorded n hn).trans (hnets n).symm
    have hl : AllLost { s with slot := some (table next wanted subnets) } := hlost
    have hc := hrec.covered hl fun n hn => hn
    refine (set_egress_holds hc).bind ?_
    rintro changed _ rfl
    refine ⟨hc, rfl, rfl, ⟨next, rfl, hrec, fun n hn => hn⟩, fun hf => ⟨hf, _, ?_, rfl, rfl⟩⟩
    rw [hnxt]
    simp [hleft]
  · have hin : ∀ n, n ∈ (union old next).nets ↔ n ∈ old.nets ∨ n ∈ next.nets := fun n => mem_union
    have hrec₁ :
        Recorded { s with slot := some (table (union old next) wanted subnets) } old.nets :=
      hst.recorded
    have hl₁ : AllLost { s with slot := some (table (union old next) wanted subnets) } := hlost
    have hc₁ := hrec₁.covered hl₁ fun n hn => (hin n).2 (.inl hn)
    refine (set_egress_holds hc₁).bind ?_
    rintro changed _ rfl
    refine (ask_routes_holds hS old old.nets hrec₁
      (fun n hn => (RouteSet.mem_diff_add.1 hn).2) (fun n hn => (RouteSet.mem_diff_remove.1 hn).1)
      (fun n _ _ => Iff.rfl) hc₁
      (fun n hn => (hin n).2 (.inr (RouteSet.mem_diff_add.1 hn).1))).bind ?_
    rintro r t ht
    cases r with
    | error e =>
      refine ⟨ht.covered, ht.on, ht.refused, ⟨old, rfl, ht.error e rfl, fun n hn => ?_⟩,
        fun hf => ?_⟩
      · rw [ht.slot]
        exact (hin n).2 (.inl hn)
      · have := ht.failed
        simp [hf, How.ofBool] at this
    | ok added =>
      have hlo := ht.left_out
      change t.outcome.left_out = (s.outcome.left_out || _) at hlo
      rw [hleft, Bool.false_or] at hlo
      have hfa := ht.failed
      change t.outcome.failed = (s.outcome.failed || _) at hfa
      -- the routes that go on record
      have hR : ∃ R, R = (if added then next
          else ⟨next.v4, old.v6.filter (· ∉ (old.diff next).2.v6)⟩) ∧
          Recorded t R.nets ∧ R = (if t.outcome.left_out then
            ⟨wanted.routes.v4, old.v6.filter (· ∈ next.v6)⟩ else next) := by
        cases added with
        | true =>
          have hfalse : t.outcome.left_out = false := by simpa [How.ofBool] using hlo
          refine ⟨next, rfl, ht.ok rfl _ fun n => ?_, by simp [hfalse]⟩
          rw [RouteSet.mem_diff_add, RouteSet.mem_diff_remove]
          tauto
        | false =>
          have htrue : t.outcome.left_out = true := by simpa [How.ofBool] using hlo
          have hkept : old.v6.filter (· ∉ (old.diff next).2.v6) =
              old.v6.filter (· ∈ next.v6) := by
            refine List.filter_congr fun n hn => ?_
            simp [RouteSet.diff, hn]
          refine ⟨_, rfl, ht.no rfl _ fun n => ?_, ?_⟩
          · cases n with
            | v4 n =>
              by_cases ho : n ∈ old.v4 <;> simp [RouteSet.diff, ho]
            | v6 n => simp
          · rw [htrue, if_pos rfl, hv4]
            exact congrArg (RouteSet.mk next.v4) hkept
      obtain ⟨R, hRdef, hRrec, hRout⟩ := hR
      have hl : AllLost { t with lost := t.astray } := fun n hn => hn
      have hsub : ∀ n ∈ R.nets, n ∈ old.nets ∨ n ∈ next.nets := by
        intro n hn
        rw [hRdef] at hn
        cases added with
        | true => exact .inr hn
        | false =>
          cases n with
          | v4 n => exact .inr (by simpa using hn)
          | v6 n => exact .inl (by simp at hn ⊢; exact hn.1)
      have hc₂ : Covered { t with lost := t.astray } :=
        Recorded.covered (s := { t with lost := t.astray }) hRrec hl fun n hn => by
          change n ∈ slotNets t.slot
          rw [ht.slot]
          exact (hin n).2 (hsub n hn)
      refine (left_behind_holds hc₂).bind ?_
      rintro _ _ rfl
      rw [← hRdef]
      have hc₃ : Covered { t with lost := t.astray, slot := some (table R wanted subnets) } :=
        Recorded.covered (s := { t with
          lost := t.astray
          slot := some (table R wanted subnets) }) hRrec hl fun n hn => hn
      refine (set_egress_holds hc₃).bind ?_
      rintro changed' _ rfl
      refine ⟨hc₃, ht.on, ht.refused, ⟨R, rfl, hRrec, fun n hn => hn⟩, fun hf => ⟨?_, _, ?_, rfl,
        rfl⟩⟩
      · change t.outcome.failed = false at hf
        rw [hf] at hfa
        exact (Bool.or_eq_false_iff.1 hfa.symm).1
      · rw [hnxt]
        exact congrArg some hRout

/-- **What `follow` does.** -/
theorem follow_holds {wanted : Wanted} {network_changed : Bool} (h : Rests s) :
    (follow S wanted network_changed).Holds Sys.Step Guard
      (fun _ t => Rests t ∧ ∀ on, s.on = some on → t.outcome.failed = false →
        ∃ old, on.routes = some old ∧
          Installed t (had old wanted t.outcome) (had old wanted t.outcome)) s := by
  refine (began_holds h).bind ?_
  rintro _ t₁ ⟨ht₁, h₁, hl₁⟩
  have hon₁ : t₁.on = s.on := by rw [ht₁]
  have href₁ : t₁.outcome.refused = false := by rw [ht₁]; rfl
  have hleft₁ : t₁.outcome.left_out = false := by rw [ht₁]; rfl
  refine on_holds h₁.covered ?_
  cases hon : t₁.on with
  | none => exact ⟨h₁, fun on hs => by rw [← hon₁, hon] at hs; cases hs⟩
  | some on =>
    obtain ⟨old, hst⟩ := h₁.on on hon
    obtain ⟨dev, hdev⟩ := Option.isSome_iff_exists.1 hst.dev
    dsimp only
    rw [hdev]
    dsimp only
    refine (set_on_holds h₁.covered).bind ?_
    rintro _ t₂ ht₂
    have hst₂ : Standing on old t₂ := by
      subst ht₂
      exact ⟨hst.dev, hst.routes, hst.recorded, hst.table⟩
    have hl₂ : AllLost t₂ := ht₂ ▸ hl₁
    have hc₂ : Covered t₂ := ht₂ ▸ h₁.covered
    refine (only_if_quiet (take_the_dns_again_quiet hS _ _ _ _) hc₂).bind ?_
    rintro _ t₃ h₃
    refine (follow_address_holds hS (hst₂.still h₃) (h₃.allLost hl₂) (h₃.covered hc₂) ?_ ?_).bind ?_
    · rw [h₃.refused, ht₂]
      exact href₁
    · intro hto
      exact (Bool.and_eq_true_iff.1 hto).2
    rintro ipv6 t₄ ⟨hst₄, hl₄, hc₄, -, hleft₄, hipv6⟩
    refine (quiet_holds (physical_subnets_quiet dev) hc₄).bind ?_
    rintro subnets t₅ ⟨-, h₅⟩
    refine (follow_routes_holds hS (hst₄.still h₅) (h₅.allLost hl₄) ?_).bind ?_
    · rw [h₅.left_out, hleft₄, h₃.left_out, ht₂]
      exact hleft₁
    rintro routed t₆ h₆
    refine (only_if_quiet (take_the_dns_again_quiet hS _ _ _ _) h₆.covered).bind ?_
    rintro _ t₇ h₇
    refine (only_if_quiet (op_asks (by trivial)) (h₇.covered h₆.covered)).bind ?_
    rintro _ t₈ h₈
    replace h₈ := h₇.trans _ _ _ h₈
    refine (quiet_holds (only_when_asks (call_quiet (hS.unconfigure_ipv6 dev)))
      (h₈.covered h₆.covered)).bind ?_
    rintro _ t₉ ⟨-, h₉⟩
    replace h₉ := h₈.trans _ _ _ h₉
    refine (only_if_quiet (adjust_again_quiet hS _) (h₉.covered h₆.covered)).bind ?_
    rintro _ u hu
    replace hu := h₉.trans _ _ _ hu
    refine (set_on_holds (hu.covered h₆.covered)).mono ?_
    rintro _ _ rfl
    obtain ⟨R, hR, hRrec, hRslot⟩ := h₆.standing
    refine ⟨⟨hu.covered h₆.covered, nofun, ?_⟩, fun on' hs hf => ⟨old, ?_, ?_⟩⟩
    · rintro on' hon'
      obtain rfl := Option.some.inj hon'
      refine ⟨R, ?_, hR, hu.recorded hRrec, fun n hn => ?_⟩
      · rfl
      · change n ∈ slotNets u.slot
        rw [hu.slot]
        exact hRslot n hn
    · have : on = on' := by
        rw [← hon₁, hon] at hs
        exact Option.some.inj hs
      exact this ▸ hst.routes
    · have hf₆ : t₆.outcome.failed = false := by
        cases hb : t₆.outcome.failed with
        | false => rfl
        | true => exact absurd (hu.failed hb) (by simp [show u.outcome.failed = false from hf])
      obtain ⟨hf₅, tb, hrt, htb, hrtb⟩ := h₆.done hf₆
      have hf₄ : t₄.outcome.failed = false := by
        cases hb : t₄.outcome.failed with
        | false => rfl
        | true => exact absurd (h₅.failed hb) (by simp [hf₅])
      have hout : (if t₆.outcome.left_out then ⟨wanted.routes.v4,
          old.v6.filter (· ∈ (asked wanted ipv6).v6)⟩ else asked wanted ipv6) =
          had old wanted u.outcome := by
        unfold had
        rw [hu.refused, hu.left_out, h₆.refused, h₅.refused, ← hipv6 hf₄]
        rfl
      rw [hout] at hrt
      have heq : R = had old wanted u.outcome := Option.some.inj (hR.symm.trans hrt)
      refine ⟨_, tb, rfl, hrt, ?_, hu.slot.trans htb, Option.some.inj (hrtb.symm.trans hrt)⟩
      rw [← heq]
      exact hu.recorded hRrec

/-- What a start does once its call began. -/
theorem recover_quiet : Quiet (do
    let state ← op .snapshot
    match state.enhanced_backup with
    | none =>
      only_if state.enhanced_mode (op (.update fun s => { s with enhanced_mode := false }))
      return none
    | some (.unreadable e) => return some (.error (cannot_be_read e))
    | some (.undo actions) =>
      let closing ← undo_each S actions.zipIdx.reverse .default
      rewrite_backup closing actions
      return some closing.result : M (Option (Except Str Unit))) := by
  refine (op_asks (by trivial)).bind fun state _ => ?_
  split
  · exact (only_if_asks (op_asks (by trivial))).bind fun _ _ => trivial
  · trivial
  · refine (undo_each_quiet hS _ _).bind fun closing _ => ?_
    exact (rewrite_backup_quiet _ _).bind fun _ _ => trivial

/-- A start leaves the routes alone: there are none. -/
theorem recover_holds (hcov : Covered s) (hrec : Recorded s []) (hon : s.on = none) :
    (recover S).Holds Sys.Step Guard (fun _ t => Rests t) s := by
  have hrests : Rests s := ⟨hcov, fun _ => hrec, fun on hs => by rw [hon] at hs; cases hs⟩
  refine (began_holds hrests).bind ?_
  rintro _ t ⟨ht, h₁, -⟩
  have hon₁ : t.on = none := by rw [ht]; exact hon
  refine (quiet_holds (recover_quiet hS) h₁.covered).mono ?_
  rintro r u ⟨-, hu⟩
  refine ⟨hu.covered h₁.covered, fun _ => hu.recorded (h₁.off hon₁), fun on hs => ?_⟩
  rw [hu.on, hon₁] at hs
  cases hs

end Routes

/-! ### Every run -/

/-- The configurations of a run of the enhanced mode on this system. -/
abbrev System.Reached (S : System) (s₀ : Sys)
    (c : Conf Op Op.Ans Call (Option (Except Str Unit)) Sys) : Prop :=
  (manager S).Reaches Sys.Step Sys.Fresh (.down s₀) c

/-- The egress table covers what goes into the adapter, over every sequence of calls, deaths and
starts. -/
structure System.CoversRoutes (S : System) (s₀ : Sys) : Prop where
  /-- A network in the adapter is covered by the table, but for what was astray when the call in
  progress began or its routes had ended. -/
  covered {c} (hc : S.Reached s₀ c) {n : IpNetAny} (hn : n ∈ c.state.world.installed)
    (hl : n ∉ c.state.lost) : Covers c.state.slot n
  /-- An `enable` that succeeds leaves the routes that could be had, and a table of the wanted
  ones. -/
  enable {s t : Sys} {wanted : Wanted} (hs : S.Reached s₀ (.idle s)) (hon : s.on = none)
    (hr : (enable S wanted).Runs Sys.Step s (.ok ()) t) :
    Installed t (had .empty wanted t.outcome) wanted.routes
  /-- A `follow` none of whose calls fails leaves the routes that could be had, and a table of
  those. -/
  follow {s t : Sys} {wanted : Wanted} {network_changed : Bool} {on : On}
    (hs : S.Reached s₀ (.idle s)) (hon : s.on = some on)
    (hr : (follow S wanted network_changed).Runs Sys.Step s () t)
    (hf : t.outcome.failed = false) :
    ∃ old, on.routes = some old ∧
      Installed t (had old wanted t.outcome) (had old wanted t.outcome)

/-- What is true in every configuration reached. -/
theorem System.Routing.sound {S : System} (hS : S.Routing) {s₀ : Sys} (h₀ : Covered s₀) {c}
    (hc : S.Reached s₀ c) : Process.Sound Sys.Step Guard Covered Rests c := by
  refine Process.sound (fun _ _ h => h) (fun _ h => h.covered) ?_ (fun call s hs => ?_) ?_ hc
  · rintro s _ - rfl
    have hcov : Covered s.restarted := fun n hn => by cases hn
    exact ⟨hcov, recover_holds hS hcov (fun n _ => iff_of_false (by simp [Sys.restarted]) (by simp))
      rfl⟩
  · cases call with
    | enable wanted => exact (enable_holds hS hs).bind fun r t ht => ht.1
    | disable => exact (disable_holds hS hs).bind fun r t ht => ht
    | follow wanted changed => exact (follow_holds hS hs).bind fun r t ht => ht.1
  · exact h₀

theorem System.Routing.coversRoutes {S : System} (hS : S.Routing) {s₀ : Sys} (h₀ : Covered s₀) :
    S.CoversRoutes s₀ where
  covered hc n hn hl := covers_of_mem (((hS.sound h₀ hc).off fun _ h => h.covered) n hn hl)
  enable hs hon hr := ((enable_holds hS (hS.sound h₀ hs)).runs hr).2 hon rfl
  follow hs hon hr hf := ((follow_holds hS (hS.sound h₀ hs)).runs hr).2 _ hon hf

/-- **The egress table covers what is in the adapter**, on macOS and on Linux. -/
theorem table_covers (dns : Str → Option (List IpAddr)) (rp_filter : Str → ℕ) :
    Macos.system.CoversRoutes (Sys.first dns rp_filter) ∧
      ∀ tools, (Linux.system tools).CoversRoutes (Sys.first dns rp_filter) := by
  have h₀ : Covered (Sys.first dns rp_filter) := fun n hn => by cases hn
  exact ⟨Macos.routing.coversRoutes h₀, fun tools => (Linux.routing tools).coversRoutes h₀⟩

/-! ### Two runs in which it does not -/

/-- Every tool succeeds, but for the addition of the networks that are refused. -/
def answer (refused : List IpNetAny) : (t : Tool) → World → t.Ans × World
  | .open_device, w => (.ok "utun7".toList, w)
  | .step (.add_routes _ R), w =>
    let r : Except Str Unit :=
      if R.nets.any (· ∈ refused) then .error "File exists".toList else .ok ()
    (r, { w with
      installed := w.installed ++ if R.nets.any (· ∈ refused) then [] else R.nets
      undeleted := w.undeleted.filter fun n => n ∉ R.nets ∨ r ≠ .ok () })
  | .step (.remove_routes _ R), w =>
    let left := w.installed.filter (· ∉ R.nets)
    (.ok (), { w with
      installed := left
      undeleted := w.undeleted.filter (· ∉ R.nets) ++ R.nets.filter (· ∈ left) })
  | .step (.configure _), w | .step (.configure_ipv6 _), w | .step (.unconfigure_ipv6 _), w
  | .step (.resolvectl _), w | .step (.flush_dns _), w => (.ok (), w)
  | .subnets _, w => (.ok [], w)
  | .listallnetworkservices, w => (.ok [], w)
  | .getdnsservers service, w => (.ok (w.dns service), w)
  | .setdnsservers service servers, w =>
    (.ok (), { w with
      dns := fun s => if s = service then some servers else w.dns s
      done := (Tool.setdnsservers service servers).unwritten w.done })
  | .to_take, w => (w.to_take, w)
  | .set_to_take services, w => ((), { w with to_take := services })
  | .gone service, w => ((), { w with gone := service :: w.gone })
  | .behind_the_stub, w => (true, w)
  | .took_dns, w => (w.took_dns, w)
  | .set_took_dns took, w => ((), { w with took_dns := took })
  | .read_rp_filter name, w => (.ok (w.rp_filter name), w)
  | .write_rp_filter name value, w =>
    (.ok (), { w with
      rp_filter := fun s => if s = name then value else w.rp_filter s
      done := (Tool.write_rp_filter name value).unwritten w.done })
  | .physical_dns _ _ _, w => (none, w)
  | .close, w => ((), { w with installed := [] })

theorem answer_run (refused : List IpNetAny) (t : Tool) (w : World) :
    t.Run w (answer refused t w).1 (answer refused t w).2 := by
  cases t with
  | step a =>
    cases a with
    | add_routes dev R =>
      refine ⟨⟨fun n hn => List.mem_append_left _ hn, fun n hn => ?_, fun hok n hn => ?_⟩, rfl⟩
      · rcases List.mem_append.1 hn with hn | hn
        · exact .inl hn
        · split_ifs at hn
          · cases hn
          · exact .inr hn
      · refine List.mem_append_right _ ?_
        change (if _ then Except.error _ else _) = _ at hok
        split_ifs at hok with h
        rw [if_neg h]
        exact hn
    | remove_routes dev R =>
      refine ⟨⟨fun n hn hR => ?_, fun n hn => ?_, fun _ n hn hin => ?_⟩, rfl⟩
      · simpa [answer] using ⟨hn, hR⟩
      · exact (List.mem_filter.1 hn).1
      · simp only [answer, List.mem_filter, decide_eq_true_eq] at hin
        exact hin.2 hn
    | _ => rfl
  | listallnetworkservices => exact ⟨rfl, fun l hl => by cases hl; simp⟩
  | getdnsservers service => exact ⟨rfl, fun v hv => by cases hv; rfl⟩
  | setdnsservers service servers =>
    refine ⟨fun k hk => ?_, fun _ => by simp [answer], rfl⟩
    cases k with
    | dns other =>
      have hne : other ≠ service := fun h => hk (h ▸ rfl)
      simp [answer, World.value, hne]
    | rp_filter => rfl
  | to_take | took_dns => exact ⟨rfl, rfl⟩
  | read_rp_filter name => exact ⟨rfl, fun v hv => by cases hv; rfl⟩
  | write_rp_filter name value =>
    refine ⟨fun other hne => by simp [answer, hne], fun _ => by simp [answer], rfl⟩
  | close => exact ⟨fun n hn => (by cases hn), rfl⟩
  | _ => rfl

/-- The whole system with these tools, where every write of `state.json` succeeds. -/
def play (refused : List IpNetAny) : (o : Op) → Sys → o.Ans × Sys
  | .tool t, s => (some (answer refused t s.world).1, { s with
      world := (answer refused t s.world).2 })
  | .snapshot, s => (s.mem, s)
  | .update f, s => ((), { s with mem := f s.mem, file := f s.mem })
  | .try_update f, s => (.ok (), { s with mem := f s.mem, file := f s.mem })
  | .on, s => (s.on, s)
  | .set_on on, s => ((), { s with on := on })
  | .start, s => (.ok (), s)
  | .stop, s => ((), s)
  | .set_egress table, s => (decide (s.slot ≠ table), { s with slot := table })
  | .link f, s => ((), { s with links := f s.links })
  | .system_dns_changed, s => ((), s)
  | .began, s => ((), { s with lost := s.astray, outcome := .default })
  | .call_ended c how, s => ((), s.ended c how)
  | .left_behind, s => ((), { s with lost := s.astray })

theorem play_step (refused : List IpNetAny) (o : Op) (s : Sys) :
    Sys.Step o s (play refused o s).1 (play refused o s).2 := by
  cases o with
  | tool t => exact ⟨_, _, answer_run refused t s.world, fun z hz => (Option.some.inj hz).symm, rfl⟩
  | snapshot | on => exact ⟨rfl, rfl⟩
  | update f => exact .inl rfl
  | set_egress table => exact ⟨by simp [play], rfl⟩
  | _ => rfl

namespace Macos

/-- A call of the manager on macOS in which these networks are refused. -/
def after (refused : List IpNetAny) (c : Call) (s : Sys) : Sys :=
  (((manager system).prog c).play (play refused) s).2

/-- The first start, on a machine with no network service. -/
def started : Sys :=
  ((recover system).play (play []) (Sys.first (fun _ => none) fun _ => 0).restarted).2

theorem reaches_started : system.Reached (Sys.first (fun _ => none) fun _ => 0) (.idle started) :=
  Process.reaches_start rfl (Prog.play_runs Sys.Step (play_step []) _ _)

theorem reaches_after {s₀ s : Sys} (h : system.Reached s₀ (.idle s)) (refused : List IpNetAny)
    (c : Call) : system.Reached s₀ (.idle (after refused c s)) :=
  h.trans (Process.reaches_call (Prog.play_runs Sys.Step (play_step refused) _ _))

theorem one_le : 8 ≤ 32 := by decide
theorem two_le : 7 ≤ 32 := by decide
theorem four_le : 6 ≤ 32 := by decide
theorem one6_le : 8 ≤ 128 := by decide
theorem two6_le : 7 ≤ 128 := by decide

def one : Ipv4Net := ⟨0x01000000, 8, one_le⟩
def two : Ipv4Net := ⟨0x02000000, 7, two_le⟩
def four : Ipv4Net := ⟨0x04000000, 6, four_le⟩
def one6 : Ipv6Net := ⟨0x01000000000000000000000000000000, 8, one6_le⟩
def two6 : Ipv6Net := ⟨0x02000000000000000000000000000000, 7, two6_le⟩

/-- IPv6 is on with one route, and a second one cannot be added. -/
def halved : Sys :=
  after [.v6 two6] (.follow ⟨⟨[one], [one6, two6]⟩, true, none⟩ false)
    (after [] (.enable ⟨⟨[one], [one6]⟩, true, none⟩) started)

/-- The second of two routes cannot be added, and neither is wanted afterwards. -/
def stranded : Sys :=
  after [] (.follow ⟨⟨[one], []⟩, false, none⟩ false)
    (after [.v4 four] (.follow ⟨⟨[one, two, four], []⟩, false, none⟩ false)
      (after [] (.enable ⟨⟨[one], []⟩, false, none⟩) started))

end Macos

/-- **Two follows all of whose calls succeed.**  After the first the adapter has neither the wanted
routes nor the IPv4 ones alone; after the second it has a route that a call of `routes` which failed
before it left there, and that the table does not cover. -/
theorem not_table_covers :
    (Macos.system.Reached (Sys.first (fun _ => none) fun _ => 0) (.idle Macos.halved) ∧
      Macos.halved.outcome.failed = false ∧
      .v6 Macos.one6 ∈ Macos.halved.world.installed ∧
      .v6 Macos.two6 ∉ Macos.halved.world.installed) ∧
    Macos.system.Reached (Sys.first (fun _ => none) fun _ => 0) (.idle Macos.stranded) ∧
      Macos.stranded.outcome.failed = false ∧
      .v4 Macos.two ∈ Macos.stranded.world.installed ∧
      ¬ Covers Macos.stranded.slot (.v4 Macos.two) := by
  refine ⟨⟨?_, by decide +kernel, by decide +kernel, by decide +kernel⟩, ?_, by decide +kernel,
    by decide +kernel, ?_⟩
  · exact Macos.reaches_after (Macos.reaches_after Macos.reaches_started _ _) _ _
  · exact Macos.reaches_after (Macos.reaches_after (Macos.reaches_after Macos.reaches_started _ _)
      _ _) _ _
  · rintro ⟨table, htable, hcovers⟩
    have hslot : Macos.stranded.slot = some ⟨⟨[Macos.one], []⟩, none, []⟩ := by decide +kernel
    obtain rfl := Option.some.inj (hslot.symm.trans htable)
    exact absurd (hcovers (.v4 0x02000001) (by decide +kernel)) (by decide +kernel)

end Rurge.Enhanced
