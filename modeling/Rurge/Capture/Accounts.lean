import Rurge.Capture.Store

/-!
# What a store holds, over whole runs

A store with the bodies on their way into it: chunks come for any of them in any order, entries are
committed, dropped, put and cleared.  Beside it stand the bytes each body was given and the entries
stored so far, which nothing reads but the results.
-/

namespace Rurge

namespace Capture

/-- What is done to a store and to the bodies on their way into it. -/
inductive Action
  | begin
  | chunk (i : ℕ) (axis : Axis) (data : List UInt8)
  | commit (i : ℕ) (make : Body → Body → Entry)
  | drop (i : ℕ)
  | put (entry : Entry)
  | clear (session : Option Str)

/-- A store and the bodies on their way into it, in the order they began; nothing where one is
gone. -/
structure System where
  inner : Inner
  pendings : List (Option Pending)

/-- One action.  What is done to a body that is gone is done to nothing. -/
def step (limits : Limits) (s : System) : Action → Option System
  | .begin => some { s with pendings := s.pendings ++ [some .new] }
  | .chunk i axis data =>
    match s.pendings[i]? with
    | some (some p) => do
      let (p, inner) ← p.chunk limits axis s.inner data
      return ⟨inner, s.pendings.set i (some p)⟩
    | _ => some s
  | .commit i make =>
    match s.pendings[i]? with
    | some (some p) => do
      let (inner, _) ← p.commit limits make s.inner
      return ⟨inner, s.pendings.set i none⟩
    | _ => some s
  | .drop i =>
    match s.pendings[i]? with
    | some (some p) => do
      let inner ← p.drop s.inner
      return ⟨inner, s.pendings.set i none⟩
    | _ => some s
  | .put entry => do
    let (inner, _) ← s.inner.insert entry 0 limits.total
    return { s with inner }
  | .clear session => do
    let inner ← s.inner.clear session
    return { s with inner }

/-- A system with the bytes its bodies were given and the entries it stored. -/
structure Watched where
  system : System
  given : List (List UInt8 × List UInt8)
  log : List Entry

/-- What a body was given once `data` came. -/
def give (axis : Axis) (data : List UInt8) (g : List UInt8 × List UInt8) :
    List UInt8 × List UInt8 :=
  match axis with
  | .Request => (g.1 ++ data, g.2)
  | .Response => (g.1, g.2 ++ data)

/-- What the bodies were given after an action. -/
def gives (given : List (List UInt8 × List UInt8)) : Action → List (List UInt8 × List UInt8)
  | .begin => given ++ [([], [])]
  | .chunk i axis data => given.modify i (give axis data)
  | _ => given

/-- One action watched. -/
def watch (limits : Limits) (w : Watched) (a : Action) : Option Watched := do
  let system ← step limits w.system a
  let log := if system.inner.stored = w.system.inner.stored then w.log
    else w.log ++ (system.inner.queue.getLast?.map Kept.entry).toList
  return ⟨system, gives w.given a, log⟩

/-- Before any action. -/
def Watched.empty : Watched := ⟨⟨.empty, []⟩, [], []⟩

/-! ### What the bodies hold -/

/-- What a body still coming reserved. -/
def holds (p : Option Pending) : ℕ := p.elim 0 Pending.held

/-- What the bodies still coming reserved together. -/
def held (pendings : List (Option Pending)) : ℕ := (pendings.map holds).sum

theorem held_append (ps qs : List (Option Pending)) : held (ps ++ qs) = held ps + held qs := by
  simp [held]

theorem held_set {pendings : List (Option Pending)} {i : ℕ} {p : Option Pending}
    (h : pendings[i]? = some p) (q : Option Pending) :
    held (pendings.set i q) + holds p = held pendings + holds q := by
  obtain ⟨hlt, hget⟩ := List.getElem?_eq_some_iff.1 h
  have hsplit : pendings = pendings.take i ++ p :: pendings.drop (i + 1) := by
    rw [← hget, ← List.drop_eq_getElem_cons hlt, List.take_append_drop]
  have hcons : ∀ (q : Option Pending) (qs : List (Option Pending)),
      held (q :: qs) = holds q + held qs := fun q qs => by simp [held]
  rw [List.set_eq_take_append_cons_drop, if_pos hlt, held_append, hcons]
  conv_rhs => rw [hsplit, held_append, hcons]
  omega

theorem le_held {pendings : List (Option Pending)} {i : ℕ} {p : Pending}
    (h : pendings[i]? = some (some p)) : p.held ≤ held pendings :=
  List.le_sum_of_mem (List.mem_map.2 ⟨some p, List.mem_of_getElem? h, rfl⟩)

/-! ### What every run keeps -/

/-- A body as it is stored: the beginning of the bytes given, up to the limit unless a reservation
failed, with how many they were, and truncated where it is not all of them. -/
structure BodyOf (limit : ℕ) (given : List UInt8) (b : Body) : Prop where
  beginning : b.data <+: given
  size : b.size = given.length
  truncated : b.truncated.isSome ↔ b.data.length < b.size
  whole : b.truncated ≠ some .Budget → b.data = given.take limit

theorem Took.bodyOf {limit : ℕ} {given : List UInt8} {taking : Taking}
    (h : Took limit given taking) : BodyOf limit given taking.finish := by
  rw [Taking.finish_eq]
  refine ⟨h.beginning, h.size, ?_, h.whole⟩
  rw [h.truncated, h.size]

/-- The counts are what they count: `kept` the cost of the queue, `reserved` what the bodies still
coming hold, both within the total; the queue is in the order the entries were stored; and each body
has of what it was given what it may. -/
structure Accounts (limits : Limits) (w : Watched) : Prop where
  balanced : Balanced limits.total w.system.inner
  reserved : w.system.inner.reserved = held w.system.pendings
  order : (w.system.inner.queue.map Kept.entry).Sublist w.log
  length : w.given.length = w.system.pendings.length
  bodies : ∀ (i : ℕ) (p : Pending), w.system.pendings[i]? = some (some p) →
    ∃ g : List UInt8 × List UInt8, w.given[i]? = some g ∧
      Took limits.body g.1 p.request ∧ Took limits.body g.2 p.response

/-- The body an action is done to. -/
def Action.body : Action → Option ℕ
  | .chunk i _ _ => some i
  | .commit i _ => some i
  | .drop i => some i
  | _ => none

/-- One action in order: it leaves the other bodies alone; but for clearing, it evicts the oldest
entries alone, while what is reserved and what is stored does not fit; where it stores and reserves
nothing more, the queue is as it was; and what a commit stores is the entry made of its two
bodies. -/
structure Orderly (limits : Limits) (a : Action) (w w' : Watched) : Prop where
  others : ∀ (i : ℕ) (p : Pending), a.body ≠ some i → w.system.pendings[i]? = some (some p) →
    w'.system.pendings[i]? = some (some p)
  evicts : (∀ session, a ≠ .clear session) → ∃ (k : ℕ) (new : List Kept),
    w'.system.inner.queue = w.system.inner.queue.drop k ++ new ∧
      Evicted w.system.inner.queue k (w'.system.inner.reserved + costs new) limits.total ∧
      ((new = [] ∧ w'.log = w.log) ∨ ∃ e, new = [⟨e, cost e⟩] ∧ w'.log = w.log ++ [e])
  refused : (∀ session, a ≠ .clear session) → w'.log = w.log →
    w'.system.inner.reserved ≤ w.system.inner.reserved →
    w'.system.inner.queue = w.system.inner.queue
  committed : ∀ (i : ℕ) (make : Body → Body → Entry) (p : Pending), a = .commit i make →
    w.system.pendings[i]? = some (some p) →
    w'.log = w.log ∨ w'.log = w.log ++ [(make p.request.finish p.response.finish).owned]

theorem accounts_empty (limits : Limits) : Accounts limits .empty where
  balanced := ⟨rfl, by simp [Watched.empty, Inner.empty], Nat.zero_le _⟩
  reserved := rfl
  order := List.Sublist.refl _
  length := rfl
  bodies i p h := by simp [Watched.empty] at h

/-- What came of an action: the action succeeded, and all is in order. -/
def Goes (limits : Limits) (w : Watched) (a : Action) : Prop :=
  ∃ w', watch limits w a = some w' ∧ Accounts limits w' ∧ Orderly limits a w w'

variable {limits : Limits} {w : Watched}

/-- Nothing evicted where all fits. -/
theorem evicted_zero {queue : List Kept} {rest total : ℕ} (h : costs queue + rest ≤ total) :
    Evicted queue 0 rest total where
  le_length := Nat.zero_le _
  needed j hj := absurd hj (Nat.not_lt_zero j)
  fits _ := h

/-- Where what is reserved grew no larger, nothing is evicted for it. -/
theorem Balanced.evicted_eq_zero {total : ℕ} {inner : Inner} (h : Balanced total inner) {k rest : ℕ}
    (hk : Evicted inner.queue k rest total) (hrest : rest ≤ inner.reserved) : k = 0 := by
  by_contra hne
  have hfull := hk.needed 0 (Nat.pos_of_ne_zero hne)
  have hle := h.le_total
  rw [h.kept_eq] at hle
  rw [List.drop_zero] at hfull
  omega

/-- What an action other than clearing did: the `k` oldest entries evicted, and `new` stored. -/
structure Moved (limits : Limits) (w : Watched) (a : Action) (s : System) (k : ℕ)
    (new : List Kept) : Prop where
  step_eq : step limits w.system a = some s
  balanced : Balanced limits.total s.inner
  reserved : s.inner.reserved = held s.pendings
  length : (gives w.given a).length = s.pendings.length
  bodies : ∀ (i : ℕ) (p : Pending), s.pendings[i]? = some (some p) →
    ∃ g : List UInt8 × List UInt8, (gives w.given a)[i]? = some g ∧
      Took limits.body g.1 p.request ∧ Took limits.body g.2 p.response
  queue_eq : s.inner.queue = w.system.inner.queue.drop k ++ new
  evicted : Evicted w.system.inner.queue k (s.inner.reserved + costs new) limits.total
  stored_eq : s.inner.stored = w.system.inner.stored + new.length
  new_eq : new = [] ∨ ∃ e, new = [⟨e, cost e⟩]
  others : ∀ (i : ℕ) (p : Pending), a.body ≠ some i → w.system.pendings[i]? = some (some p) →
    s.pendings[i]? = some (some p)
  committed : ∀ (i : ℕ) (make : Body → Body → Entry) (p : Pending), a = .commit i make →
    w.system.pendings[i]? = some (some p) →
    new = [] ∨ new.map Kept.entry = [(make p.request.finish p.response.finish).owned]

/-- An action that moved so is in order. -/
theorem Moved.goes {a : Action} (h : Accounts limits w) (s : System) (k : ℕ) (new : List Kept)
    (hm : Moved limits w a s k new) : Goes limits w a := by
  have hlog : (if s.inner.stored = w.system.inner.stored then w.log
      else w.log ++ (s.inner.queue.getLast?.map Kept.entry).toList) =
      w.log ++ new.map Kept.entry := by
    rcases hm.new_eq with rfl | ⟨e, rfl⟩
    · rw [List.map_nil, List.append_nil]
      exact if_pos hm.stored_eq
    · rw [if_neg (by rw [hm.stored_eq]; simp), hm.queue_eq, List.getLast?_concat]
      rfl
  have hwatch : watch limits w a = some ⟨s, gives w.given a, w.log ++ new.map Kept.entry⟩ := by
    simp only [watch, hm.step_eq, Option.bind_eq_bind, Option.bind_some, Option.pure_def, hlog]
  refine ⟨_, hwatch, ⟨hm.balanced, hm.reserved, ?_, hm.length, hm.bodies⟩,
    ⟨hm.others, fun _ => ⟨k, new, hm.queue_eq, hm.evicted, ?_⟩, fun _ hsame hless => ?_, ?_⟩⟩
  · change (s.inner.queue.map Kept.entry).Sublist _
    rw [hm.queue_eq, List.map_append]
    exact ((List.drop_sublist k _).map Kept.entry |>.trans h.order).append (List.Sublist.refl _)
  · rcases hm.new_eq with rfl | ⟨e, rfl⟩
    · exact .inl ⟨rfl, List.append_nil _⟩
    · exact .inr ⟨e, rfl, rfl⟩
  · have hnew : new = [] := List.map_eq_nil_iff.1 (List.append_right_eq_self.1 hsame)
    have hk : k = 0 := by
      refine h.balanced.evicted_eq_zero hm.evicted ?_
      rw [hnew]
      exact hless
    change s.inner.queue = _
    rw [hm.queue_eq, hnew, hk, List.drop_zero, List.append_nil]
  · rintro i make p rfl hp
    rcases hm.committed i make p rfl hp with hnew | hnew
    · left
      change w.log ++ _ = w.log
      rw [hnew, List.map_nil, List.append_nil]
    · exact .inr (congrArg (w.log ++ ·) hnew)

/-! ### One action -/

/-- Where nothing is stored and the bodies hold what they held, nothing moved in the store. -/
theorem Accounts.evicted_zero (h : Accounts limits w) :
    Evicted w.system.inner.queue 0 (w.system.inner.reserved + costs []) limits.total := by
  refine Capture.evicted_zero ?_
  have hle := h.balanced.le_total
  rw [h.balanced.kept_eq] at hle
  exact hle

/-- A body other than the one that goes is still there. -/
theorem getElem?_set_none {pendings : List (Option Pending)} {i j : ℕ} {p : Pending}
    (h : (pendings.set i none)[j]? = some (some p)) : pendings[j]? = some (some p) := by
  rw [List.getElem?_set] at h
  split_ifs at h <;> simp_all

theorem getElem?_set_ne {pendings : List (Option Pending)} {i j : ℕ} {p : Pending}
    (q : Option Pending) (hne : i ≠ j) (h : pendings[j]? = some (some p)) :
    (pendings.set i q)[j]? = some (some p) := by
  rw [List.getElem?_set_ne hne]
  exact h

/-- An action done to a body that is gone. -/
theorem Accounts.nowhere (h : Accounts limits w) {a : Action} {i : ℕ} (hbody : a.body = some i)
    (hgone : ∀ p, w.system.pendings[i]? ≠ some (some p)) : Goes limits w a := by
  have hstep : step limits w.system a = some w.system := by
    cases a <;> cases hbody <;> rw [step] <;> split <;> first | rfl | exact absurd ‹_› (hgone _)
  refine Moved.goes h _ 0 [] ⟨hstep, h.balanced, h.reserved, ?_, ?_, by simp,
    h.evicted_zero, by simp, .inl rfl, fun _ _ _ hp => hp, fun _ _ _ _ _ => .inl rfl⟩
  · rw [← h.length]
    cases a <;> simp [gives] at hbody ⊢
    cases hbody
  · intro j p hp
    obtain ⟨g, hg, htook⟩ := h.bodies j p hp
    refine ⟨g, ?_, htook⟩
    have hne : i ≠ j := by
      rintro rfl
      exact hgone p hp
    cases a <;> cases hbody <;> simp only [gives, hg]
    rw [List.getElem?_modify_ne _ _ hne, hg]

theorem Accounts.begin (h : Accounts limits w) : Goes limits w .begin := by
  refine Moved.goes h ⟨w.system.inner, w.system.pendings ++ [some .new]⟩ 0 []
    ⟨rfl, h.balanced, ?_, ?_, ?_, by simp, h.evicted_zero, by simp, .inl rfl, ?_, ?_⟩
  · rw [held_append, ← h.reserved]
    rfl
  · simp [gives, h.length]
  · intro i p hp
    change (w.system.pendings ++ [some .new])[i]? = _ at hp
    change ∃ g, (w.given ++ [([], [])])[i]? = _ ∧ _
    rw [List.getElem?_append] at hp ⊢
    rw [h.length]
    split_ifs at hp ⊢ with hlt
    · exact h.bodies i p hp
    · obtain ⟨rfl⟩ : some Pending.new = some p := by
        rw [List.getElem?_singleton] at hp
        split_ifs at hp
        exact Option.some_inj.1 hp
      refine ⟨([], []), ?_, took_empty _, took_empty _⟩
      rw [List.getElem?_singleton] at hp ⊢
      split_ifs at hp ⊢
      rfl
  · intro i p _ hp
    exact (List.getElem?_append_left (List.getElem?_eq_some_iff.1 hp).1).trans hp
  · intro i make p ha
    cases ha

/-- What a body goes to once `data` came for it, and with it the store. -/
theorem Accounts.chunk (h : Accounts limits w) (i : ℕ) (axis : Axis) (data : List UInt8) :
    Goes limits w (.chunk i axis data) := by
  by_cases hgone : ∀ p, w.system.pendings[i]? ≠ some (some p)
  · exact h.nowhere rfl hgone
  push Not at hgone
  obtain ⟨p, hp⟩ := hgone
  obtain ⟨g, hg, hrequest, hresponse⟩ := h.bodies i p hp
  obtain ⟨p', inner', hchunk, hreq, hres, hbalanced, hstored, hmoved⟩ :
      ∃ p' inner', p.chunk limits axis w.system.inner data = some (p', inner') ∧
        Took limits.body (give axis data g).1 p'.request ∧
        Took limits.body (give axis data g).2 p'.response ∧
        Balanced limits.total inner' ∧ inner'.stored = w.system.inner.stored ∧
        ((inner' = w.system.inner ∧ p'.held = p.held) ∨ ∃ n k, 0 < n ∧ p'.held = p.held + n ∧
          inner'.reserved = w.system.inner.reserved + n ∧
          inner'.queue = w.system.inner.queue.drop k ∧
          Evicted w.system.inner.queue k inner'.reserved limits.total) := by
    cases axis with
    | Request =>
      obtain ⟨taking, held, inner', htake, htook, hrest⟩ :=
        hrequest.take p.held data h.balanced
      refine ⟨{ p with request := taking, held }, inner', ?_, htook, hresponse, hrest⟩
      simp only [Pending.chunk, htake, Option.bind_eq_bind, Option.bind_some, Option.pure_def]
    | Response =>
      obtain ⟨taking, held, inner', htake, htook, hrest⟩ :=
        hresponse.take p.held data h.balanced
      refine ⟨{ p with response := taking, held }, inner', ?_, hrequest, htook, hrest⟩
      simp only [Pending.chunk, htake, Option.bind_eq_bind, Option.bind_some, Option.pure_def]
  have hset := held_set hp (some p')
  have hreserved := h.reserved
  obtain ⟨k, hreserved', hqueue, hevicted⟩ : ∃ k,
      inner'.reserved = held (w.system.pendings.set i (some p')) ∧
      inner'.queue = w.system.inner.queue.drop k ∧
      Evicted w.system.inner.queue k inner'.reserved limits.total := by
    simp only [holds, Option.elim_some] at hset
    rcases hmoved with ⟨rfl, hheld⟩ | ⟨n, k, -, hheld, hres, hqueue, hevicted⟩
    · exact ⟨0, by omega, rfl, h.evicted_zero⟩
    · exact ⟨k, by omega, hqueue, hevicted⟩
  refine Moved.goes h ⟨inner', w.system.pendings.set i (some p')⟩ k []
    ⟨?_, hbalanced, hreserved', ?_, ?_, ?_, hevicted, hstored, .inl rfl, ?_, ?_⟩
  · simp only [step, hp, hchunk, Option.bind_eq_bind, Option.bind_some, Option.pure_def]
  · simp [gives, h.length]
  · intro j q hq
    change (w.system.pendings.set i (some p'))[j]? = _ at hq
    change ∃ g, (w.given.modify i (give axis data))[j]? = _ ∧ _
    by_cases hij : i = j
    · subst hij
      rw [List.getElem?_set_self (List.getElem?_eq_some_iff.1 hp).1] at hq
      obtain ⟨rfl⟩ := hq
      exact ⟨give axis data g, by rw [List.getElem?_modify_eq, hg]; rfl, hreq, hres⟩
    · rw [List.getElem?_set_ne hij] at hq
      rw [List.getElem?_modify_ne _ _ hij]
      exact h.bodies j q hq
  · rw [List.append_nil]
    exact hqueue
  · intro j q hj hq
    exact getElem?_set_ne _ (fun hij => hj (congrArg some hij)) hq
  · intro j make q ha
    cases ha

/-- A body that goes, with the store it leaves: what it held is reserved no more. -/
theorem Accounts.gone (h : Accounts limits w) {i : ℕ} {p : Pending} {inner' : Inner}
    (hp : w.system.pendings[i]? = some (some p))
    (hreserved : inner'.reserved = w.system.inner.reserved - p.held) :
    inner'.reserved = held (w.system.pendings.set i none) := by
  have hset := held_set hp none
  have hreserved' := h.reserved
  simp only [holds, Option.elim_some, Option.elim_none] at hset
  omega

theorem Accounts.drop (h : Accounts limits w) (i : ℕ) : Goes limits w (.drop i) := by
  by_cases hgone : ∀ p, w.system.pendings[i]? ≠ some (some p)
  · exact h.nowhere rfl hgone
  push Not at hgone
  obtain ⟨p, hp⟩ := hgone
  have hle : p.held ≤ w.system.inner.reserved := h.reserved ▸ le_held hp
  have hdrop : p.drop w.system.inner =
      some { w.system.inner with reserved := w.system.inner.reserved - p.held } := by
    unfold Pending.drop
    by_cases hzero : 0 < p.held
    · simp only [if_pos hzero, sub, if_pos hle, Option.bind_eq_bind, Option.bind_some,
        Option.pure_def]
    · rw [if_neg hzero, Nat.eq_zero_of_not_pos hzero, Nat.sub_zero]
  have hfits := h.balanced.le_total
  refine Moved.goes h
    ⟨{ w.system.inner with reserved := w.system.inner.reserved - p.held },
      w.system.pendings.set i none⟩ 0 []
    ⟨?_, ⟨h.balanced.kept_eq, h.balanced.cost_eq, ?_⟩, h.gone hp rfl, ?_, ?_, by simp, ?_,
      by simp, .inl rfl, ?_, ?_⟩
  · simp only [step, hp, hdrop, Option.bind_eq_bind, Option.bind_some, Option.pure_def]
  · change w.system.inner.kept + (w.system.inner.reserved - p.held) ≤ _
    omega
  · simp [gives, h.length]
  · exact fun j q hq => h.bodies j q (getElem?_set_none hq)
  · refine Capture.evicted_zero ?_
    rw [h.balanced.kept_eq] at hfits
    change costs w.system.inner.queue + (w.system.inner.reserved - p.held + 0) ≤ _
    omega
  · exact fun j q hj hq => getElem?_set_ne _ (fun hij => hj (congrArg some hij)) hq
  · intro j make q ha
    cases ha

/-- What storing an entry comes to, dropped or not. -/
theorem Accounts.insert (h : Accounts limits w) (entry : Entry) {n : ℕ}
    (hn : n ≤ w.system.inner.reserved) :
    ∃ inner' added k new, w.system.inner.insert entry n limits.total = some (inner', added) ∧
      Balanced limits.total inner' ∧ inner'.reserved = w.system.inner.reserved - n ∧
      inner'.queue = w.system.inner.queue.drop k ++ new ∧
      Evicted w.system.inner.queue k (inner'.reserved + costs new) limits.total ∧
      inner'.stored = w.system.inner.stored + new.length ∧
      (new = [] ∨ new = [⟨entry, cost entry⟩]) := by
  obtain ⟨inner', hbalanced, hreserved,
      ⟨hinsert, hqueue, hstored⟩ | ⟨k, hinsert, hqueue, hk, hstored⟩⟩ := h.balanced.insert entry hn
  · refine ⟨inner', false, 0, [], hinsert, hbalanced, hreserved, ?_, ?_, hstored, .inl rfl⟩
    · rw [List.drop_zero, List.append_nil]
      exact hqueue
    · have hfits := hbalanced.le_total
      rw [hbalanced.kept_eq, hqueue] at hfits
      exact Capture.evicted_zero hfits
  · exact ⟨inner', true, k, _, hinsert, hbalanced, hreserved, hqueue, hk, hstored, .inr rfl⟩

theorem Accounts.commit (h : Accounts limits w) (i : ℕ) (make : Body → Body → Entry) :
    Goes limits w (.commit i make) := by
  by_cases hgone : ∀ p, w.system.pendings[i]? ≠ some (some p)
  · exact h.nowhere rfl hgone
  push Not at hgone
  obtain ⟨p, hp⟩ := hgone
  have hle : p.held ≤ w.system.inner.reserved := h.reserved ▸ le_held hp
  obtain ⟨inner', added, k, new, hinsert, hbalanced, hreserved, hqueue, hk, hstored, hnew⟩ :=
    h.insert (make p.request.finish p.response.finish).owned hle
  refine Moved.goes h ⟨inner', w.system.pendings.set i none⟩ k new
    ⟨?_, hbalanced, h.gone hp hreserved, ?_, ?_, hqueue, hk, hstored, ?_, ?_, ?_⟩
  · simp only [step, hp, Pending.commit, hinsert, Option.bind_eq_bind, Option.bind_some,
      Option.pure_def]
  · simp [gives, h.length]
  · exact fun j q hq => h.bodies j q (getElem?_set_none hq)
  · exact hnew.imp id fun hnew => ⟨_, hnew⟩
  · exact fun j q hj hq => getElem?_set_ne _ (fun hij => hj (congrArg some hij)) hq
  · intro j make' q ha hq
    cases ha
    obtain rfl : p = q := by
      rw [hp] at hq
      exact Option.some_inj.1 (Option.some_inj.1 hq)
    exact hnew.imp id fun hnew => congrArg (List.map Kept.entry) hnew

theorem Accounts.put (h : Accounts limits w) (entry : Entry) : Goes limits w (.put entry) := by
  obtain ⟨inner', added, k, new, hinsert, hbalanced, hreserved, hqueue, hk, hstored, hnew⟩ :=
    h.insert entry (Nat.zero_le _)
  refine Moved.goes h ⟨inner', w.system.pendings⟩ k new
    ⟨?_, hbalanced, hreserved.trans h.reserved, h.length, h.bodies, hqueue, hk, hstored, ?_,
      fun _ _ _ hp => hp, ?_⟩
  · simp only [step, hinsert, Option.bind_eq_bind, Option.bind_some, Option.pure_def]
  · exact hnew.imp id fun hnew => ⟨_, hnew⟩
  · intro j make q ha
    cases ha

/-- Clearing takes entries out, and nothing else. -/
theorem Accounts.clear (h : Accounts limits w) (session : Option Str) :
    Goes limits w (.clear session) := by
  obtain ⟨inner', hclear, hbalanced, hreserved, hsub, hstored⟩ := h.balanced.clear session
  have hwatch : watch limits w (.clear session) =
      some ⟨⟨inner', w.system.pendings⟩, w.given, w.log⟩ := by
    simp only [watch, step, hclear, hstored, gives, Option.bind_eq_bind, Option.bind_some,
      Option.pure_def, if_true]
  refine ⟨_, hwatch, ⟨hbalanced, hreserved.trans h.reserved, (hsub.map _).trans h.order, h.length,
    h.bodies⟩, ⟨fun _ _ _ hp => hp, fun hnot => absurd rfl (hnot session),
    fun hnot => absurd rfl (hnot session), ?_⟩⟩
  intro j make q ha
  cases ha

/-- **Each action keeps the accounts**, whatever it is done to. -/
theorem Accounts.step (h : Accounts limits w) (a : Action) : Goes limits w a := by
  cases a with
  | begin => exact h.begin
  | chunk i axis data => exact h.chunk i axis data
  | commit i make => exact h.commit i make
  | drop i => exact h.drop i
  | put entry => exact h.put entry
  | clear session => exact h.clear session

/-! ### Whole runs -/

/-- Any run of actions from the empty store. -/
def runs (limits : Limits) (as : List Action) : Option Watched :=
  as.foldlM (watch limits) .empty

theorem accounts_run (limits : Limits) (as : List Action) :
    ∃ w, runs limits as = some w ∧ Accounts limits w := by
  induction as using List.reverseRecOn with
  | nil => exact ⟨.empty, rfl, accounts_empty limits⟩
  | append_singleton as a ih =>
    obtain ⟨w, hrun, hw⟩ := ih
    obtain ⟨w', hwatch, hw', -⟩ := hw.step a
    refine ⟨w', ?_, hw'⟩
    unfold runs at hrun ⊢
    rw [List.foldlM_append, hrun]
    simp [hwatch]

/-- **The store's accounts**: whatever order chunks come in, entries are committed, dropped, put and
cleared, no count goes below zero, `kept` is what the queue costs, `reserved` is what the bodies
still coming hold and both are within the total; the queue is in the order the entries were stored;
each body still coming would be stored as the beginning of what it was given, up to the limit unless
a reservation failed; and what one action does after that is in order: the oldest entries are
evicted, and only while the new bytes do not fit, and what is refused leaves the queue and the other
bodies as they were. -/
theorem store_accounts (limits : Limits) (as : List Action) :
    ∃ w, runs limits as = some w ∧ Accounts limits w ∧
      (∀ (i : ℕ) (p : Pending), w.system.pendings[i]? = some (some p) →
        ∃ g : List UInt8 × List UInt8, w.given[i]? = some g ∧
          BodyOf limits.body g.1 p.request.finish ∧ BodyOf limits.body g.2 p.response.finish) ∧
      ∀ a, ∃ w', runs limits (as ++ [a]) = some w' ∧ Orderly limits a w w' := by
  obtain ⟨w, hrun, hw⟩ := accounts_run limits as
  refine ⟨w, hrun, hw, fun i p hp => ?_, fun a => ?_⟩
  · obtain ⟨g, hg, hrequest, hresponse⟩ := hw.bodies i p hp
    exact ⟨g, hg, hrequest.bodyOf, hresponse.bodyOf⟩
  · obtain ⟨w', hwatch, -, horderly⟩ := hw.step a
    refine ⟨w', ?_, horderly⟩
    unfold runs at hrun ⊢
    rw [List.foldlM_append, hrun]
    simp [hwatch]

end Capture

end Rurge
