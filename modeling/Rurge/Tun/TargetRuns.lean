import Rurge.Tun.Targets

/-!
# The two indices of a session stay inverse

A new destination is looked for by its endpoint alone.  That no destination has its target already
rests on the leases: a destination at a fake address holds its index, so the index keeps its name,
and no other index has that name meanwhile.
-/

namespace Rurge

namespace Tun

open FakeIp
open Capture (RejectKind)

/-! ### Fake addresses -/

/-- Two addresses of one family that stand for the same index are the same. -/
theorem indexOf_injective {ip ip' : IpAddr} {i : ℕ} (h : indexOf ip = some i)
    (h' : indexOf ip' = some i) (hfamily : ip.isIpv4 = ip'.isIpv4) : ip = ip' := by
  unfold indexOf at h h'
  obtain ⟨bits, hbits, h⟩ := Option.bind_eq_some_iff.1 h
  obtain ⟨bits', hbits', h'⟩ := Option.bind_eq_some_iff.1 h'
  have hsame : bits = bits' := by
    split_ifs at h h' with hle hle'
    have hbits := Option.some_inj.1 h
    have hbits' := Option.some_inj.1 h'
    omega
  subst hsame
  rcases ip with ip | ip <;> rcases ip' with ip' | ip'
  · refine congrArg IpAddr.v4 (BitVec.eq_of_toNat_eq ?_)
    exact Option.some_inj.1 (hbits.trans hbits'.symm)
  · cases hfamily
  · cases hfamily
  · refine congrArg IpAddr.v6 (BitVec.eq_of_toNat_eq ?_)
    simp only at hbits hbits'
    split_ifs at hbits hbits' with hhigh hhigh'
    have hlow : ip.toNat % 2 ^ 32 = ip'.toNat % 2 ^ 32 :=
      Option.some_inj.1 (hbits.trans hbits'.symm)
    rw [← Nat.div_add_mod ip.toNat (2 ^ 32), ← Nat.div_add_mod ip'.toNat (2 ^ 32), hhigh, hhigh',
      hlow]

/-! ### What the pool does for a session -/

/-- A system that stands, with the leases of a session among those outstanding. -/
structure Holds (pool : System) (leases : List ℕ) : Prop where
  ok : pool.Ok
  count : ∀ i, leases.count i ≤ pool.out.count i

variable {pool : System} {leases : List ℕ}

theorem Holds.mem (h : Holds pool leases) {i : ℕ} (hi : i ∈ leases) : i ∈ pool.out :=
  List.count_pos_iff.1 ((List.count_pos_iff.2 hi).trans_le (h.count i))

/-- A lease is taken, or none is. -/
theorem Holds.lease (h : Holds pool leases) (ip : IpAddr) :
    (pool.pool.lease ip).1 = none ∧ Holds (pool.step (.lease ip)) leases ∨
    ∃ name index, (pool.pool.lease ip).1 = some (name, index) ∧ indexOf ip = some index ∧
      (pool.step (.lease ip)).pool.names index = some name ∧
      Holds (pool.step (.lease ip)) (index :: leases) := by
  have hok := h.ok.step (.lease ip)
  rcases pool.pool.lease_cases ip with hnone | ⟨index, name, hname, hsome⟩
  · rw [System.step_lease_none hnone] at hok ⊢
    exact .inl ⟨by rw [hnone], h⟩
  · rw [System.step_lease_some hsome] at hok ⊢
    refine .inr ⟨name, index, by rw [hsome], ?_, hname, hok, fun i => ?_⟩
    · unfold State.lease at hsome
      cases hlookup : pool.pool.lookup ip with
      | none =>
        rw [hlookup] at hsome
        cases hsome
      | some found =>
        obtain ⟨j, n⟩ := found
        rw [hlookup] at hsome
        simp only at hsome
        split_ifs at hsome
        · cases hsome
        · obtain ⟨rfl, rfl⟩ : n = name ∧ j = index := by simpa using congrArg Prod.fst hsome
          exact State.lookup_index hlookup
    · simp only [List.count_cons]
      exact Nat.add_le_add_right (h.count i) _

theorem drop_names (pool : System) (i : ℕ) :
    (pool.step (.drop i)).pool.names = pool.pool.names := by
  rw [System.step_drop]
  split_ifs <;> simp

/-- One of the leases a session has is dropped. -/
theorem Holds.drop {i : ℕ} (h : Holds pool (i :: leases)) : Holds (pool.step (.drop i)) leases := by
  have hmem : i ∈ pool.out := h.mem (List.mem_cons_self ..)
  refine ⟨h.ok.step (.drop i), fun j => ?_⟩
  have hcount := h.count j
  rw [System.step_drop, if_pos hmem]
  change leases.count j ≤ (pool.out.erase i).count j
  by_cases hij : j = i
  · subst hij
    rw [List.count_cons_self] at hcount
    rw [List.count_erase_self]
    omega
  · rw [List.count_cons_of_ne (Ne.symm hij)] at hcount
    rwa [List.count_erase_of_ne hij]

theorem drop_leases_names (pool : System) (gone : List ℕ) :
    (drop_leases pool gone).pool.names = pool.pool.names := by
  unfold drop_leases
  induction gone generalizing pool with
  | nil => rfl
  | cons i gone ih => rw [List.foldl_cons, ih, drop_names]

theorem Holds.drop_leases {gone : List ℕ} (h : Holds pool (gone ++ leases)) :
    Holds (Tun.drop_leases pool gone) leases := by
  unfold Tun.drop_leases
  induction gone generalizing pool with
  | nil => exact h
  | cons i gone ih => exact ih h.drop

/-- What others do to the pool: the names of the session's leases stay. -/
theorem Holds.others (h : Holds pool leases) {op : Op}
    (hop : ∀ i, op = .drop i → leases.count i < pool.out.count i) :
    Holds (pool.step op) leases ∧
      ∀ i ∈ leases, (pool.step op).pool.names i = pool.pool.names i := by
  refine ⟨⟨h.ok.step op, fun j => ?_⟩, fun i hi => (h.ok.leased_keeps (h.mem hi) op).2⟩
  have hcount := h.count j
  cases op with
  | assign name now => exact hcount
  | nameOf ip => exact hcount
  | save => exact hcount
  | lease ip =>
    rcases pool.pool.lease_cases ip with hnone | ⟨index, name, hname, hsome⟩
    · rw [System.step_lease_none hnone]
      exact hcount
    · rw [System.step_lease_some hsome]
      exact hcount.trans (List.count_le_count_cons)
  | drop i =>
    have hless := hop i rfl
    have hmem : i ∈ pool.out := List.count_pos_iff.1 (Nat.zero_lt_of_lt hless)
    rw [System.step_drop, if_pos hmem]
    change leases.count j ≤ (pool.out.erase i).count j
    by_cases hij : j = i
    · subst hij
      rw [List.count_erase_self]
      omega
    · rwa [List.count_erase_of_ne hij]

/-! ### What a session keeps -/

/-- The target an endpoint stands for, with the index it is held by where the endpoint is at a fake
address. -/
def Stands (names : ℕ → Option Str) (endpoint : Endpoint) (target : Target) (lease : Option ℕ) :
    Prop :=
  (lease = none ∧ target = ⟨.ip endpoint.ip, endpoint.port⟩) ∨
    ∃ index name, lease = some index ∧ indexOf endpoint.ip = some index ∧
      names index = some name ∧ target = ⟨.domain name, endpoint.port⟩

/-- A destination as it is kept: at its own endpoint, of the app's family, with the target its
address stands for, which the index it holds names. -/
structure EntryOk (names : ℕ → Option Str) (app endpoint : Endpoint) (e : Entry) : Prop where
  endpoint_eq : e.endpoint = endpoint
  family : endpoint.ip.isIpv4 = app.ip.isIpv4
  stands : Stands names endpoint e.target e.lease

/-- The target of the destination at an endpoint. -/
def Targets.target (t : Targets) (endpoint : Endpoint) : Option Target :=
  (t.by_endpoint.lookup endpoint).map Entry.target

/-- The two indices hold the same pairs, at most `max` of them, each at the endpoint the app sent to
last for its target. -/
structure SessionOk (names : ℕ → Option Str) (sent : List (Target × Endpoint)) (app : Endpoint)
    (t : Targets) : Prop where
  entries : ∀ endpoint e, t.by_endpoint.lookup endpoint = some e → EntryOk names app endpoint e
  inverse : PartialInverse t.target t.endpoints.lookup
  le_max : t.by_endpoint.entries.length ≤ t.max
  sent : ∀ endpoint e, t.by_endpoint.lookup endpoint = some e → sent.lookup e.target = some endpoint

variable {names : ℕ → Option Str} {sent : List (Target × Endpoint)} {app : Endpoint} {t : Targets}

theorem sessionOk_empty (names : ℕ → Option Str) (sent : List (Target × Endpoint)) (app : Endpoint)
    (max : ℕ) : SessionOk names sent app ⟨max, ∅, ∅⟩ where
  entries endpoint e he := by cases he
  inverse := PartialInverse.empty
  le_max := Nat.zero_le _
  sent endpoint e he := by cases he

theorem Targets.mem_leases {i : ℕ} :
    i ∈ t.leases ↔ ∃ endpoint e, t.by_endpoint.lookup endpoint = some e ∧ e.lease = some i := by
  unfold Targets.leases
  rw [List.mem_filterMap]
  constructor
  · rintro ⟨⟨endpoint, e⟩, hmem, hlease⟩
    exact ⟨endpoint, e, Assoc.mem_entries.1 hmem, hlease⟩
  · rintro ⟨endpoint, e, hlookup, hlease⟩
    exact ⟨⟨endpoint, e⟩, Assoc.mem_entries.2 hlookup, hlease⟩

/-- The destination of a target is the one both indices have. -/
theorem SessionOk.by_target_iff (h : SessionOk names sent app t) {target : Target} {e : Entry} :
    t.by_target target = some e ↔
      t.by_endpoint.lookup e.endpoint = some e ∧ e.target = target := by
  unfold Targets.by_target
  rw [Option.bind_eq_some_iff]
  constructor
  · rintro ⟨endpoint, hendpoint, hlookup⟩
    obtain ⟨e', he', htarget⟩ := Option.map_eq_some_iff.1 ((h.inverse endpoint target).2 hendpoint)
    obtain rfl : e' = e := Option.some_inj.1 (he'.symm.trans hlookup)
    rw [(h.entries endpoint e' hlookup).endpoint_eq]
    exact ⟨hlookup, htarget⟩
  · rintro ⟨hlookup, rfl⟩
    refine ⟨e.endpoint, (h.inverse _ _).1 ?_, hlookup⟩
    rw [Targets.target, hlookup]
    rfl

/-- Names the session's leases rest on may be read in another state of the pool. -/
theorem SessionOk.renamed {names' : ℕ → Option Str} (h : SessionOk names sent app t)
    (hnames : ∀ i ∈ t.leases, names' i = names i) : SessionOk names' sent app t where
  entries endpoint e he := by
    obtain ⟨hendpoint, hfamily, htarget⟩ := h.entries endpoint e he
    refine ⟨hendpoint, hfamily, htarget.imp id ?_⟩
    rintro ⟨index, name, hlease, hindex, hname, htarget⟩
    refine ⟨index, name, hlease, hindex, ?_, htarget⟩
    rw [hnames index (Targets.mem_leases.2 ⟨endpoint, e, he, hlease⟩), hname]
  inverse := h.inverse
  le_max := h.le_max
  sent := h.sent

/-- Another datagram queued for a destination the session has. -/
theorem SessionOk.sent_again (h : SessionOk names sent app t) {endpoint : Endpoint} {e : Entry}
    (he : t.by_endpoint.lookup endpoint = some e) :
    SessionOk names ((e.target, endpoint) :: sent) app t where
  entries := h.entries
  inverse := h.inverse
  le_max := h.le_max
  sent endpoint' e' he' := by
    rw [List.lookup_cons]
    by_cases hsame : e'.target = e.target
    · have hendpoint : endpoint' = endpoint := by
        refine h.inverse.injective (b := e.target) ?_ ?_
        · rw [Targets.target, he', Option.map_some, hsame]
        · rw [Targets.target, he]
          rfl
      simp [hsame, hendpoint]
    · simp only [beq_eq_false_iff_ne.2 hsame]
      exact h.sent endpoint' e' he'

/-- A destination changed in place, but for its target, its endpoint and its lease. -/
theorem SessionOk.modify (h : SessionOk names sent app t) (endpoint : Endpoint)
    {f : Entry → Entry} (hf : ∀ e, (f e).target = e.target ∧ (f e).endpoint = e.endpoint ∧
      (f e).lease = e.lease) : SessionOk names sent app (t.modify endpoint f) := by
  have hcases : ∀ endpoint' e', (t.modify endpoint f).by_endpoint.lookup endpoint' = some e' →
      ∃ e, t.by_endpoint.lookup endpoint' = some e ∧ e'.target = e.target ∧
        e'.endpoint = e.endpoint ∧ e'.lease = e.lease := by
    intro endpoint' e' he'
    rw [Targets.modify, Assoc.lookup_modify] at he'
    obtain ⟨e, he, rfl⟩ := Option.map_eq_some_iff.1 he'
    refine ⟨e, he, ?_⟩
    split_ifs
    · exact hf e
    · exact ⟨rfl, rfl, rfl⟩
  have htarget : (t.modify endpoint f).target = t.target := by
    funext endpoint'
    rw [Targets.target, Targets.modify, Assoc.lookup_modify, Option.map_map, Targets.target]
    congr 1
    funext e
    simp only [Function.comp_apply]
    split_ifs
    · exact (hf e).1
    · rfl
  refine ⟨fun endpoint' e' he' => ?_, ?_, ?_, fun endpoint' e' he' => ?_⟩
  · obtain ⟨e, he, htarget, hendpoint, hlease⟩ := hcases endpoint' e' he'
    obtain ⟨hat, hfamily, hsplit⟩ := h.entries endpoint' e he
    refine ⟨hendpoint.trans hat, hfamily, ?_⟩
    rw [htarget, hlease]
    exact hsplit
  · rw [htarget]
    exact h.inverse
  · exact (List.length_map _).trans_le h.le_max
  · obtain ⟨e, he, htarget, -⟩ := hcases endpoint' e' he'
    rw [htarget]
    exact h.sent endpoint' e he

theorem Targets.leases_modify (t : Targets) (endpoint : Endpoint) {f : Entry → Entry}
    (hf : ∀ e, (f e).lease = e.lease) : (t.modify endpoint f).leases = t.leases := by
  unfold Targets.leases Targets.modify Assoc.modify
  simp only [List.filterMap_map]
  congr 1
  funext e
  simp only [Function.comp_apply]
  split_ifs
  · exact hf e.2
  · rfl

/-- The target a datagram's destination stands for, or none. -/
theorem Holds.target_of (h : Holds pool leases) (d : Datagram) :
    ∃ pool', (∀ i ∈ leases, pool'.pool.names i = pool.pool.names i) ∧
      ((Tun.target_of pool d = (none, pool') ∧ Holds pool' leases) ∨
        ∃ target lease, Tun.target_of pool d = (some (target, lease), pool') ∧
          Holds pool' (lease.toList ++ leases) ∧ Stands pool'.pool.names d.dst target lease) := by
  unfold Tun.target_of
  split
  · have hnames := (@Holds.others _ _ h (.lease d.dst.ip) (fun i hi => by cases hi)).2
    refine ⟨pool.step (.lease d.dst.ip), hnames, ?_⟩
    rcases h.lease d.dst.ip with ⟨hnone, hholds⟩ | ⟨name, index, hsome, hindex, hname, hholds⟩
    · rw [hnone]
      exact .inl ⟨rfl, hholds⟩
    · rw [hsome]
      exact .inr ⟨_, some index, rfl, hholds, .inr ⟨index, name, rfl, hindex, hname, rfl⟩⟩
  · exact ⟨pool, fun _ _ => rfl, .inr ⟨_, none, rfl, h, .inl ⟨rfl, rfl⟩⟩⟩

/-- **A destination that is new by its endpoint is new by its target**: one that had the target
would hold the index its address stands for, and no other index has the name. -/
theorem SessionOk.target_free (h : SessionOk pool.pool.names sent app t) (hok : pool.Ok)
    {endpoint : Endpoint} {target : Target} {lease : Option ℕ}
    (hnone : t.by_endpoint.lookup endpoint = none)
    (hfamily : endpoint.ip.isIpv4 = app.ip.isIpv4)
    (hstands : Stands pool.pool.names endpoint target lease) :
    t.endpoints.lookup target = none := by
  rw [Option.eq_none_iff_forall_not_mem]
  intro endpoint' hendpoint'
  obtain ⟨e, he, htarget⟩ := Option.map_eq_some_iff.1 ((h.inverse endpoint' target).2 hendpoint')
  have hentry := h.entries endpoint' e he
  have hne : endpoint' ≠ endpoint := by
    rintro rfl
    rw [hnone] at he
    cases he
  refine hne ?_
  have hstands' := hentry.stands
  rw [htarget] at hstands'
  rcases hstands with ⟨-, rfl⟩ | ⟨index, name, -, hindex, hname, rfl⟩ <;>
    rcases hstands' with ⟨-, hsame⟩ | ⟨index', name', -, hindex', hname', hsame⟩
  · injection hsame with hhost hport
    injection hhost with hip
    exact Endpoint.ext hip.symm hport.symm
  · injection hsame with hhost
    cases hhost
  · injection hsame with hhost
    cases hhost
  · injection hsame with hhost hport
    injection hhost with hnames
    subst hnames
    have hindices : index = index' := hok.inverse.injective hname hname'
    subst hindices
    have hip := indexOf_injective hindex' hindex (hentry.family.trans hfamily.symm)
    exact Endpoint.ext hip hport.symm

theorem SessionOk.insert (h : SessionOk names sent app t) {endpoint : Endpoint} {target : Target}
    {lease : Option ℕ} (hnone : t.by_endpoint.lookup endpoint = none)
    (hfree : t.endpoints.lookup target = none) (hfull : t.by_endpoint.entries.length < t.max)
    (hfamily : endpoint.ip.isIpv4 = app.ip.isIpv4) (hstands : Stands names endpoint target lease)
    (quote : Quote) (now : ℕ) :
    SessionOk names ((target, endpoint) :: sent) app
      (t.insert (.new endpoint target lease quote now)) := by
  have hlookup : ∀ endpoint',
      (t.insert (.new endpoint target lease quote now)).by_endpoint.lookup endpoint' =
        Function.update t.by_endpoint.lookup endpoint (some (.new endpoint target lease quote now))
          endpoint' := fun endpoint' => congrFun (Assoc.lookup_insert _ _ _) endpoint'
  have htarget : (t.insert (.new endpoint target lease quote now)).target =
      Function.update t.target endpoint (some target) := by
    funext endpoint'
    rw [Targets.target, hlookup]
    by_cases hsame : endpoint' = endpoint
    · subst hsame
      rw [Function.update_self, Function.update_self]
      rfl
    · rw [Function.update_of_ne hsame, Function.update_of_ne hsame]
      rfl
  refine ⟨fun endpoint' e he => ?_, ?_, ?_, fun endpoint' e he => ?_⟩
  · rw [hlookup] at he
    by_cases hsame : endpoint' = endpoint
    · subst hsame
      rw [Function.update_self] at he
      cases he
      exact ⟨rfl, hfamily, hstands⟩
    · rw [Function.update_of_ne hsame] at he
      exact h.entries endpoint' e he
  · rw [htarget]
    have hendpoints : (t.insert (.new endpoint target lease quote now)).endpoints.lookup =
        Function.update t.endpoints.lookup target (some endpoint) := Assoc.lookup_insert _ _ _
    rw [hendpoints]
    refine h.inverse.insert ?_ hfree
    rw [Targets.target, hnone]
    rfl
  · have hnot : endpoint ∉ t.by_endpoint := AList.lookup_eq_none.1 hnone
    change (AList.insert endpoint _ t.by_endpoint).entries.length ≤ t.max
    rw [AList.entries_insert_of_notMem hnot]
    exact hfull
  · rw [hlookup] at he
    rw [List.lookup_cons]
    by_cases hsame : endpoint' = endpoint
    · subst hsame
      rw [Function.update_self] at he
      cases he
      simp [Entry.new]
    · rw [Function.update_of_ne hsame] at he
      have hne : e.target ≠ target := by
        intro heq
        have hat : t.endpoints.lookup target = some endpoint' :=
          (h.inverse endpoint' target).1 (by rw [Targets.target, he, Option.map_some, heq])
        rw [hfree] at hat
        cases hat
      simp only [beq_eq_false_iff_ne.2 hne]
      exact h.sent endpoint' e he

theorem Targets.leases_insert {e : Entry} (hnone : t.by_endpoint.lookup e.endpoint = none) :
    (t.insert e).leases = e.lease.toList ++ t.leases := by
  unfold Targets.leases Targets.insert
  rw [AList.entries_insert_of_notMem (AList.lookup_eq_none.1 hnone), List.filterMap_cons]
  cases e.lease <;> rfl

/-! ### Sweeping -/

variable {now idle : ℕ}

theorem Targets.lookup_sweep (t : Targets) (now idle : ℕ) (endpoint : Endpoint) :
    (t.sweep now idle).by_endpoint.lookup endpoint =
      (t.by_endpoint.lookup endpoint).filter (·.keep now idle) :=
  Assoc.lookup_retain _ _ _

theorem Targets.mem_gone {target : Target} :
    target ∈ (t.gone now idle).map Entry.target ↔ ∃ endpoint e,
      t.by_endpoint.lookup endpoint = some e ∧ e.keep now idle = false ∧ e.target = target := by
  unfold Targets.gone
  simp only [List.map_map, List.mem_map, List.mem_filter, Function.comp_apply,
    Bool.not_eq_true']
  constructor
  · rintro ⟨⟨endpoint, e⟩, ⟨hmem, hkeep⟩, rfl⟩
    exact ⟨endpoint, e, Assoc.mem_entries.1 hmem, hkeep, rfl⟩
  · rintro ⟨endpoint, e, hlookup, hkeep, rfl⟩
    exact ⟨⟨endpoint, e⟩, ⟨Assoc.mem_entries.2 hlookup, hkeep⟩, rfl⟩

theorem SessionOk.sweep (h : SessionOk names sent app t) (now idle : ℕ) :
    SessionOk names sent app (t.sweep now idle) := by
  have hlookup : ∀ {endpoint e}, (t.sweep now idle).by_endpoint.lookup endpoint = some e →
      t.by_endpoint.lookup endpoint = some e ∧ e.keep now idle = true := by
    intro endpoint e he
    rw [Targets.lookup_sweep, Option.filter_eq_some_iff] at he
    exact he
  refine ⟨fun endpoint e he => h.entries endpoint e (hlookup he).1, fun endpoint target => ?_, ?_,
    fun endpoint e he => h.sent endpoint e (hlookup he).1⟩
  · change _ ↔ (Assoc.eraseAll ((t.gone now idle).map Entry.target) t.endpoints).lookup target = _
    rw [Assoc.lookup_eraseAll, Targets.target, Option.map_eq_some_iff]
    constructor
    · rintro ⟨e, he, rfl⟩
      obtain ⟨he, hkeep⟩ := hlookup he
      have hat : t.endpoints.lookup e.target = some endpoint :=
        (h.inverse endpoint e.target).1 (by rw [Targets.target, he]; rfl)
      rw [if_neg, hat]
      rintro hgone
      obtain ⟨endpoint', e', he', hkeep', htarget⟩ := Targets.mem_gone.1 hgone
      obtain rfl : endpoint' = endpoint := by
        refine h.inverse.injective (b := e.target) ?_ ((h.inverse endpoint e.target).2 hat)
        rw [Targets.target, he', Option.map_some, htarget]
      obtain rfl : e' = e := Option.some_inj.1 (he'.symm.trans he)
      rw [hkeep] at hkeep'
      cases hkeep'
    · intro hat
      split_ifs at hat with hgone
      obtain ⟨e, he, htarget⟩ := Option.map_eq_some_iff.1 ((h.inverse endpoint target).2 hat)
      refine ⟨e, ?_, htarget⟩
      rw [Targets.lookup_sweep, he, Option.filter_some, if_pos]
      by_contra hkeep
      exact hgone (Targets.mem_gone.2 ⟨endpoint, e, he, Bool.not_eq_true _ |>.mp hkeep, htarget⟩)
  · exact (List.length_filter_le _ _).trans h.le_max

/-- The leases of a session are those it keeps in a sweep and those that go. -/
theorem Targets.count_sweep (t : Targets) (now idle i : ℕ) :
    (((t.gone now idle).filterMap Entry.lease) ++ (t.sweep now idle).leases).count i =
      t.leases.count i := by
  have hperm := (List.filter_append_perm (fun e => !e.2.keep now idle)
    t.by_endpoint.entries).filterMap fun e => e.2.lease
  unfold Targets.gone Targets.leases
  rw [List.filterMap_map, ← hperm.count_eq i, List.filterMap_append]
  simp only [Bool.not_not]
  rfl

/-! ### Whole runs -/

/-- What every run keeps. -/
structure World.Ok (w : World) : Prop where
  holds : Holds w.pool w.leases
  session : ∀ s, w.session = some s → SessionOk w.pool.pool.names w.sent s.app s.targets

variable {options : TunOptions} {w : World}

theorem World.Ok.begin (h : w.Ok) (hnone : w.session = none) (d : Datagram) :
    (w.receive options d).Ok := by
  have hholds : Holds w.pool [] := by
    have hholds := h.holds
    rwa [World.leases, hnone] at hholds
  obtain ⟨pool', -, ⟨htarget, hholds'⟩ | ⟨target, lease, htarget, hholds', hstands⟩⟩ :=
    hholds.target_of d
  · have heq : w.receive options d = { w with pool := pool' } := by
      simp only [World.receive, hnone, Tun.begin, htarget]
    rw [heq]
    refine ⟨?_, fun s hs => absurd (hs.symm.trans hnone) (by simp)⟩
    change Holds pool' (w.session.elim [] fun s => s.targets.leases)
    rw [hnone]
    exact hholds'
  · have heq : w.receive options d = ⟨pool', some ⟨d.app, false,
        (Targets.new options.max_udp_targets).insert (.new d.dst target lease d.quote d.now)⟩,
        (target, d.dst) :: w.sent⟩ := by
      simp only [World.receive, hnone, Tun.begin, htarget]
    have hnew : SessionOk pool'.pool.names w.sent d.app (.new options.max_udp_targets) :=
      sessionOk_empty _ _ _ _
    rw [heq]
    refine ⟨?_, ?_⟩
    · change Holds pool' (Targets.leases _)
      rw [Targets.leases_insert (AList.lookup_empty _)]
      exact hholds'
    · rintro s ⟨rfl⟩
      exact hnew.insert (AList.lookup_empty _) (AList.lookup_empty _) options.positive d.family
        hstands _ _

theorem World.Ok.deliver (h : w.Ok) {s : Session} (hs : w.session = some s) (d : Datagram)
    (happ : s.app = d.app) :
    World.Ok ⟨(Tun.deliver w.pool s.targets d).1,
      some { s with targets := (Tun.deliver w.pool s.targets d).2.1 },
      ((Tun.deliver w.pool s.targets d).2.2.map (·, d.dst)).toList ++ w.sent⟩ := by
  have hsession := h.session s hs
  have hholds : Holds w.pool s.targets.leases := by
    have hholds := h.holds
    rwa [World.leases, hs] at hholds
  unfold Tun.deliver
  cases hlookup : s.targets.by_endpoint.lookup d.dst with
  | some entry =>
    have hf : ∀ e : Entry, (e.sent d.quote d.now).target = e.target ∧
        (e.sent d.quote d.now).endpoint = e.endpoint ∧ (e.sent d.quote d.now).lease = e.lease :=
      fun e => ⟨rfl, rfl, rfl⟩
    refine ⟨?_, ?_⟩
    · change Holds w.pool (Targets.leases _)
      rw [Targets.leases_modify _ _ fun e => (hf e).2.2]
      exact hholds
    · rintro s' ⟨rfl⟩
      exact (hsession.sent_again hlookup).modify d.dst hf
  | none =>
    obtain ⟨pool', hnames, ⟨htarget, hholds'⟩ | ⟨target, lease, htarget, hholds', hstands⟩⟩ :=
      hholds.target_of d
    · simp only [htarget]
      exact ⟨hholds', fun s' hs' => by
        cases hs'
        exact hsession.renamed hnames⟩
    · simp only [htarget]
      have hsession' := hsession.renamed hnames
      by_cases hfull : s.targets.is_full = true
      · simp only [hfull, if_true]
        cases lease with
        | none =>
          refine ⟨hholds', ?_⟩
          rintro s' ⟨rfl⟩
          exact hsession'
        | some index =>
          refine ⟨Holds.drop hholds', ?_⟩
          rintro s' ⟨rfl⟩
          refine hsession'.renamed fun i _ => ?_
          exact congrFun (drop_names pool' index) i
      · rw [if_neg hfull]
        have hroom : s.targets.by_endpoint.entries.length < s.targets.max := by
          unfold Targets.is_full at hfull
          simpa using hfull
        have hfamily : d.dst.ip.isIpv4 = s.app.ip.isIpv4 := happ ▸ d.family
        have hfree := hsession'.target_free hholds'.ok hlookup hfamily hstands
        refine ⟨?_, ?_⟩
        · change Holds pool' (Targets.leases _)
          rw [Targets.leases_insert hlookup]
          exact hholds'
        · rintro s' ⟨rfl⟩
          exact hsession'.insert hlookup hfree hroom hfamily hstands _ _

/-- **One event** keeps the two indices inverse. -/
theorem World.Ok.step (h : w.Ok) (event : Event) : (w.step options event).Ok := by
  cases event with
  | datagram d =>
    change (w.receive options d).Ok
    cases hs : w.session with
    | none => exact h.begin hs d
    | some s =>
      simp only [World.receive, hs]
      split_ifs with hours
      · exact h.deliver hs d hours.1
      · exact h
  | reply source answers now =>
    cases hs : w.session with
    | none =>
      have heq : w.step options (.reply source answers now) = w := by
        simp only [World.step, hs, Option.map_none]
        rw [← hs]
      rw [heq]
      exact h
    | some s =>
      have hsession := h.session s hs
      have hholds := h.holds
      rw [World.leases, hs] at hholds
      have hf : ∀ e : Entry, (e.answered now).target = e.target ∧
          (e.answered now).endpoint = e.endpoint ∧ (e.answered now).lease = e.lease :=
        fun e => ⟨rfl, rfl, rfl⟩
      simp only [World.step, hs, Option.map_some]
      unfold source_of
      cases answers.bind s.targets.by_target with
      | some entry =>
        refine ⟨?_, ?_⟩
        · change Holds w.pool (Targets.leases _)
          rw [Targets.leases_modify _ _ fun e => (hf e).2.2]
          exact hholds
        · rintro s' ⟨rfl⟩
          exact hsession.modify _ hf
      | none =>
        refine ⟨hholds, ?_⟩
        rintro s' ⟨rfl⟩
        exact hsession
  | refused target kind => exact h
  | sweep now =>
    have hholds := h.holds
    unfold World.leases at hholds
    simp only [World.step]
    cases hs : w.session with
    | none =>
      rw [hs] at hholds
      exact ⟨hholds, fun s' hs' => by cases hs'⟩
    | some s =>
      rw [hs] at hholds
      simp only [Option.elim_some, Option.map_some]
      refine ⟨Holds.drop_leases ⟨hholds.ok, fun i => ?_⟩, ?_⟩
      · change List.count i (_ ++ (s.targets.sweep now options.udp_idle).leases) ≤ _
        rw [Targets.count_sweep]
        exact hholds.count i
      · rintro s' ⟨rfl⟩
        refine ((h.session s hs).sweep now options.udp_idle).renamed fun i _ => ?_
        exact congrFun (drop_leases_names _ _) i
  | mark_ending =>
    simp only [World.step]
    refine ⟨?_, fun s' hs' => ?_⟩
    · have hholds := h.holds
      unfold World.leases at hholds ⊢
      cases hs : w.session <;> rw [hs] at hholds <;> exact hholds
    · obtain ⟨s, hs, rfl⟩ := Option.map_eq_some_iff.1 hs'
      exact h.session s hs
  | ended =>
    simp only [World.step]
    refine ⟨?_, fun s' hs' => ?_⟩
    · have hnone : World.leases
          { w with
            pool := drop_leases w.pool w.leases
            session := w.session.map fun s =>
              { s with ending := true, targets := s.targets.clear } } = [] := by
        unfold World.leases
        cases w.session <;> rfl
      rw [hnone]
      refine Holds.drop_leases ?_
      rw [List.append_nil]
      exact h.holds
    · obtain ⟨s, -, rfl⟩ := Option.map_eq_some_iff.1 hs'
      exact sessionOk_empty _ _ _ _
  | pool op =>
    have hothers : (∀ i, op = .drop i → w.leases.count i < w.pool.out.count i) →
        World.Ok { w with pool := w.pool.step op } := by
      intro hop
      obtain ⟨hholds, hnames⟩ := h.holds.others hop
      refine ⟨hholds, fun s hs => (h.session s hs).renamed fun i hi => hnames i ?_⟩
      rw [World.leases, hs]
      exact hi
    simp only [World.step]
    cases op with
    | drop index =>
      simp only
      split_ifs with hless
      · refine hothers fun i hi => ?_
        cases hi
        exact hless
      · exact h
    | assign name now => exact hothers fun i hi => by cases hi
    | nameOf ip => exact hothers fun i hi => by cases hi
    | lease ip => exact hothers fun i hi => by cases hi
    | save => exact hothers fun i hi => by cases hi

theorem World.ok_run (options : TunOptions) (start : Start) (events : List Event) :
    (World.run options start events).Ok :=
  Runs.run_invariant (I := World.Ok) (fun _ event h => h.step event)
    ⟨⟨start.ok, fun i => by simp [World.new, World.leases]⟩, fun s hs => by cases hs⟩ events

/-- What the two indices of a session are to each other, and what a sweep and a reply make of
them. -/
structure Inverse (options : TunOptions) (w : World) (s : Session) : Prop where
  /-- The two indices hold the same pairs, each from its own side. -/
  same : ∀ endpoint target, s.targets.endpoints.lookup target = some endpoint ↔
    ∃ e, s.targets.by_endpoint.lookup endpoint = some e ∧ e.target = target
  at_endpoint : ∀ endpoint e, s.targets.by_endpoint.lookup endpoint = some e →
    e.endpoint = endpoint
  le_max : s.targets.by_endpoint.entries.length ≤ s.targets.max
  /-- The destination of a target is at the endpoint the app sent to last for it, and no other
  destination is the target's. -/
  by_target : ∀ target e, s.targets.by_target target = some e →
    w.sent.lookup target = some e.endpoint ∧
      ∀ endpoint e', s.targets.by_endpoint.lookup endpoint = some e' → e'.target = target → e' = e
  found : ∀ endpoint e, s.targets.by_endpoint.lookup endpoint = some e →
    s.targets.by_target e.target = some e
  /-- A sweep lets those destinations go that had no datagram either way for `udp_idle`, from
  both. -/
  swept : ∀ now endpoint e, (s.targets.sweep now options.udp_idle).by_endpoint.lookup endpoint =
      some e ↔ s.targets.by_endpoint.lookup endpoint = some e ∧
        now - max e.up e.down < options.udp_idle
  swept_targets : ∀ now target endpoint,
    (s.targets.sweep now options.udp_idle).endpoints.lookup target = some endpoint ↔
      ∃ e, s.targets.by_endpoint.lookup endpoint = some e ∧ e.target = target ∧
        now - max e.up e.down < options.udp_idle
  /-- A reply that answers a flow of the session's is from the endpoint the app sent to. -/
  answered : ∀ source target now, (s.targets.by_target target).isSome →
    ∃ endpoint, (source_of w.pool s source (some target) now).1 = .ok endpoint ∧
      w.sent.lookup target = some endpoint

/-- **The two indices stay inverse**, whatever datagrams, replies, refusals and sweeps come, and
whatever others do to the pool. -/
theorem indices_inverse (options : TunOptions) (start : Start) (events : List Event) :
    ∀ s, (World.run options start events).session = some s →
      Inverse options (World.run options start events) s := by
  intro s hs
  have h := (World.ok_run options start events).session s hs
  have hsame : ∀ {names sent app} {t : Targets}, SessionOk names sent app t →
      ∀ endpoint target, t.endpoints.lookup target = some endpoint ↔
        ∃ e, t.by_endpoint.lookup endpoint = some e ∧ e.target = target := by
    intro names sent app t h endpoint target
    rw [← h.inverse endpoint target, Targets.target, Option.map_eq_some_iff]
  have hswept : ∀ now endpoint e,
      (s.targets.sweep now options.udp_idle).by_endpoint.lookup endpoint = some e ↔
        s.targets.by_endpoint.lookup endpoint = some e ∧
          now - max e.up e.down < options.udp_idle := by
    intro now endpoint e
    rw [Targets.lookup_sweep, Option.filter_eq_some_iff, Entry.keep, decide_eq_true_iff]
  have hfound : ∀ endpoint e, s.targets.by_endpoint.lookup endpoint = some e →
      s.targets.by_target e.target = some e := by
    intro endpoint e he
    refine h.by_target_iff.2 ⟨?_, rfl⟩
    rw [(h.entries endpoint e he).endpoint_eq]
    exact he
  have hlast : ∀ target e, s.targets.by_target target = some e →
      (World.run options start events).sent.lookup target = some e.endpoint := by
    intro target e he
    obtain ⟨hlookup, rfl⟩ := h.by_target_iff.1 he
    exact h.sent e.endpoint e hlookup
  refine ⟨hsame h, fun endpoint e he => (h.entries endpoint e he).endpoint_eq, h.le_max,
    fun target e he => ⟨hlast target e he, ?_⟩, hfound, hswept, ?_, ?_⟩
  · rintro endpoint e' he' rfl
    exact Option.some_inj.1 ((hfound endpoint e' he').symm.trans he)
  · intro now target endpoint
    rw [hsame (h.sweep now options.udp_idle)]
    simp only [hswept, and_assoc, and_comm]
  · intro source target now hsome
    obtain ⟨e, he⟩ := Option.isSome_iff_exists.1 hsome
    refine ⟨e.endpoint, ?_, hlast target e he⟩
    simp only [source_of, Option.bind_some, he]

/-- A session that sent to two addresses of the Internet, of which one answered: a sweep lets the
other go, and the app sends to it again. -/
theorem indices_inverse_sent :
    let options : TunOptions := ⟨4, 60, by decide⟩
    let sends (ip : BitVec 32) (now : ℕ) : Event :=
      .datagram ⟨⟨.v4 1, 1000⟩, ⟨.v4 ip, 53⟩, rfl, .of [], now⟩
    let events : List Event := [sends 2 7, sends 3 8,
      .reply ⟨.ip (.v4 3), 53⟩ (some ⟨.ip (.v4 3), 53⟩) 30, .sweep 67, sends 2 70]
    ∃ s, (World.run options (.empty 10 0 0) events).session = some s ∧
      (World.run options (.empty 10 0 0) events).sent.length = 3 ∧
      s.targets.by_endpoint.entries.length = 2 ∧
      Inverse options (World.run options (.empty 10 0 0) events) s :=
  ⟨_, rfl, rfl, rfl, indices_inverse _ _ _ _ rfl⟩

end Tun

end Rurge
