import Rurge.Capture.Entry

/-!
# The store of captured entries

One queue of entries from the oldest to the newest, each costed as it is stored, and the bytes of
bodies reserved while they are still coming (`Pending`).  What is taken away from a count is taken
by `sub`, which fails where the count would go below zero.
-/

namespace Rurge

namespace Capture

/-- A subtraction that may not go below zero. -/
def sub (a b : ℕ) : Option ℕ := if b ≤ a then some (a - b) else none

/-- One stored entry and what it costs. -/
structure Kept where
  entry : Entry
  cost : ℕ
  deriving DecidableEq

/-- The queue, from the oldest entry to the newest, what it costs together, what the bodies still
coming reserved, and the four counts. -/
structure Inner where
  queue : List Kept
  kept : ℕ
  reserved : ℕ
  stored : ℕ
  evicted : ℕ
  dropped : ℕ
  truncated : ℕ
  deriving DecidableEq

/-- The oldest entries evicted until `kept + rest` fits in `total`: what is left of the queue, what
it costs, and how many were evicted. -/
def room (rest total : ℕ) : List Kept → ℕ → ℕ → Option (List Kept × ℕ × ℕ)
  | [], kept, evicted => some ([], kept, evicted)
  | k :: queue, kept, evicted =>
    if total < kept + rest then do
      let kept ← sub kept k.cost
      room rest total queue kept (evicted + 1)
    else some (k :: queue, kept, evicted)

namespace Inner

def empty : Inner := ⟨[], 0, 0, 0, 0, 0, 0⟩

def room (inner : Inner) (rest total : ℕ) : Option Inner := do
  let (queue, kept, evicted) ← Capture.room rest total inner.queue inner.kept inner.evicted
  return { inner with queue, kept, evicted }

/-- `n` bytes reserved for a body still coming; refused when not even an empty store has the
room. -/
def reserve (inner : Inner) (n total : ℕ) : Option (Inner × Bool) :=
  if total < inner.reserved + n then some (inner, false)
  else do
    let inner ← inner.room (inner.reserved + n) total
    return ({ inner with reserved := inner.reserved + n }, true)

/-- `entry` stored, which reserved `held` bytes already; refused when it is dropped. -/
def insert (inner : Inner) (entry : Entry) (held total : ℕ) : Option (Inner × Bool) := do
  let reserved ← sub inner.reserved held
  let inner := { inner with reserved }
  if total < inner.reserved + cost entry then
    return ({ inner with dropped := inner.dropped + 1 }, false)
  else
    let inner ← inner.room (inner.reserved + cost entry) total
    let truncated := entry.request_body.truncated.isSome || entry.response_body.truncated.isSome
    return ({ inner with
      queue := inner.queue ++ [⟨entry, cost entry⟩]
      kept := inner.kept + cost entry
      stored := inner.stored + 1
      truncated := if truncated then inner.truncated + 1 else inner.truncated }, true)

/-- The entries of a session dropped, or every entry. -/
def clear (inner : Inner) (session : Option Str) : Option Inner :=
  match session with
  | none => some { inner with queue := [], kept := 0 }
  | some name => do
    let freed := ((inner.queue.filter fun k => k.entry.session = name).map Kept.cost).sum
    let kept ← sub inner.kept freed
    return { inner with queue := inner.queue.filter fun k => k.entry.session ≠ name, kept }

end Inner

/-- One body on its way into the store: the chunks that fit, how many bytes went by, and why it
stops short. -/
structure Taking where
  chunks : List (List UInt8)
  stored : ℕ
  size : ℕ
  truncated : Option Truncated
  deriving DecidableEq

def Taking.empty : Taking := ⟨[], 0, 0, none⟩

/-- The body as it is stored: the chunks joined. -/
def Taking.finish (taking : Taking) : Body :=
  ⟨match taking.chunks with
    | [] => []
    | [chunk] => chunk
    | chunks => chunks.flatten, taking.size, taking.truncated⟩

/-- `data` taken into a body: every byte counts, and what is left of the body limit is kept, once it
is reserved. -/
def take (limits : Limits) (taking : Taking) (held : ℕ) (inner : Inner) (data : List UInt8) :
    Option (Taking × ℕ × Inner) :=
  if data = [] then some (taking, held, inner)
  else
    let taking := { taking with size := taking.size + data.length }
    if taking.truncated.isSome then some (taking, held, inner)
    else
      let n := min data.length (limits.body - taking.stored)
      if n = 0 then some ({ taking with truncated := some .Limit }, held, inner)
      else do
        let (inner, reserved) ← inner.reserve n limits.total
        if reserved = false then return ({ taking with truncated := some .Budget }, held, inner)
        else
          return ({ taking with
            chunks := taking.chunks ++ [data.take n]
            stored := taking.stored + n
            truncated := if n < data.length then some .Limit else taking.truncated },
            held + n, inner)

/-- Which of the two bodies of a request a chunk goes to. -/
inductive Axis
  | Request
  | Response
  deriving DecidableEq

/-- A body being captured before its entry is stored, and what its two bodies reserved so far. -/
structure Pending where
  request : Taking
  response : Taking
  held : ℕ
  deriving DecidableEq

namespace Pending

def new : Pending := ⟨.empty, .empty, 0⟩

/-- The next chunk of one of the two bodies. -/
def chunk (limits : Limits) (p : Pending) (axis : Axis) (inner : Inner) (data : List UInt8) :
    Option (Pending × Inner) :=
  match axis with
  | .Request => do
    let (taking, held, inner) ← take limits p.request p.held inner data
    return ({ p with request := taking, held }, inner)
  | .Response => do
    let (taking, held, inner) ← take limits p.response p.held inner data
    return ({ p with response := taking, held }, inner)

/-- The entry `make` builds of the two bodies, stored. -/
def commit (limits : Limits) (p : Pending) (make : Body → Body → Entry) (inner : Inner) :
    Option (Inner × Bool) :=
  inner.insert (make p.request.finish p.response.finish).owned p.held limits.total

/-- What it reserved given back. -/
def drop (p : Pending) (inner : Inner) : Option Inner :=
  if 0 < p.held then do
    let reserved ← sub inner.reserved p.held
    return { inner with reserved }
  else some inner

end Pending

/-! ### Evicting -/

/-- What entries cost together. -/
def costs (queue : List Kept) : ℕ := (queue.map Kept.cost).sum

@[simp] theorem costs_nil : costs [] = 0 := rfl

@[simp] theorem costs_cons (k : Kept) (queue : List Kept) :
    costs (k :: queue) = k.cost + costs queue := rfl

@[simp] theorem costs_append (queue queue' : List Kept) :
    costs (queue ++ queue') = costs queue + costs queue' := by
  simp [costs]

/-- The first `n` evicted: no more than it takes. -/
structure Evicted (queue : List Kept) (n rest total : ℕ) : Prop where
  le_length : n ≤ queue.length
  needed : ∀ j < n, total < costs (queue.drop j) + rest
  fits : rest ≤ total → costs (queue.drop n) + rest ≤ total

/-- **Making room** takes nothing away that is not there, and evicts the oldest entries while the
rest does not fit. -/
theorem room_spec (rest total : ℕ) (queue : List Kept) (evicted : ℕ) :
    ∃ n, Evicted queue n rest total ∧ room rest total queue (costs queue) evicted =
      some (queue.drop n, costs (queue.drop n), evicted + n) := by
  induction queue generalizing evicted with
  | nil => exact ⟨0, ⟨le_rfl, by simp, by simp⟩, rfl⟩
  | cons k queue ih =>
    by_cases hfull : total < costs (k :: queue) + rest
    · obtain ⟨n, hn, hroom⟩ := ih (evicted + 1)
      refine ⟨n + 1, ⟨Nat.succ_le_succ hn.le_length, fun j hj => ?_, hn.fits⟩, ?_⟩
      · cases j with
        | zero => exact hfull
        | succ j => exact hn.needed j (Nat.lt_of_succ_lt_succ hj)
      · have hsub : sub (costs (k :: queue)) k.cost = some (costs queue) := by
          rw [sub, costs_cons, if_pos (Nat.le_add_right _ _), Nat.add_sub_cancel_left]
        rw [room, if_pos hfull, hsub]
        simp only [Option.bind_eq_bind, Option.bind_some, hroom, List.drop_succ_cons]
        rw [Nat.add_assoc, Nat.add_comm 1 n]
    · refine ⟨0, ⟨Nat.zero_le _, fun j hj => absurd hj (Nat.not_lt_zero j), fun _ => ?_⟩, ?_⟩
      · exact not_lt.1 hfull
      · rw [room, if_neg hfull]
        rfl

/-! ### What each operation does -/

/-- The counts are what they count, and within the total. -/
structure Balanced (total : ℕ) (inner : Inner) : Prop where
  kept_eq : inner.kept = costs inner.queue
  cost_eq : ∀ k ∈ inner.queue, k.cost = cost k.entry
  le_total : inner.kept + inner.reserved ≤ total

variable {total : ℕ} {inner : Inner}

/-- What reserving comes to: refused, with nothing changed, or room made and the bytes reserved. -/
theorem Balanced.reserve (h : Balanced total inner) (n : ℕ) :
    inner.reserve n total = some (inner, false) ∨
    ∃ inner' k, inner.reserve n total = some (inner', true) ∧ Balanced total inner' ∧
      inner'.reserved = inner.reserved + n ∧ inner'.queue = inner.queue.drop k ∧
      Evicted inner.queue k inner'.reserved total ∧ inner'.stored = inner.stored := by
  unfold Inner.reserve
  by_cases hfull : total < inner.reserved + n
  · exact .inl (if_pos hfull)
  · obtain ⟨k, hk, hroom⟩ := room_spec (inner.reserved + n) total inner.queue inner.evicted
    rw [← h.kept_eq] at hroom
    refine .inr ⟨{ inner with
      queue := inner.queue.drop k
      kept := costs (inner.queue.drop k)
      evicted := inner.evicted + k
      reserved := inner.reserved + n }, k, ?_, ⟨rfl, ?_, hk.fits (not_lt.1 hfull)⟩, rfl, rfl, hk,
      rfl⟩
    · simp only [if_neg hfull, Inner.room, hroom, Option.bind_eq_bind, Option.bind_some,
        Option.pure_def]
    · exact fun x hx => h.cost_eq x (List.mem_of_mem_drop hx)

/-- What storing an entry comes to: what it held is given back; then it is dropped, with the queue
as it was, or room is made and it is the newest. -/
theorem Balanced.insert (h : Balanced total inner) (entry : Entry) {held : ℕ}
    (hheld : held ≤ inner.reserved) :
    ∃ inner', Balanced total inner' ∧ inner'.reserved = inner.reserved - held ∧
      ((inner.insert entry held total = some (inner', false) ∧ inner'.queue = inner.queue ∧
          inner'.stored = inner.stored) ∨
        ∃ k, inner.insert entry held total = some (inner', true) ∧
          inner'.queue = inner.queue.drop k ++ [⟨entry, cost entry⟩] ∧
          Evicted inner.queue k (inner'.reserved + cost entry) total ∧
          inner'.stored = inner.stored + 1) := by
  have hsub : sub inner.reserved held = some (inner.reserved - held) := if_pos hheld
  have hle := h.le_total
  by_cases hfull : total < inner.reserved - held + cost entry
  · refine ⟨{ inner with reserved := inner.reserved - held, dropped := inner.dropped + 1 },
      ⟨h.kept_eq, h.cost_eq, ?_⟩, rfl, .inl ⟨?_, rfl, rfl⟩⟩
    · change inner.kept + (inner.reserved - held) ≤ total
      omega
    · simp only [Inner.insert, hsub, Option.bind_eq_bind, Option.bind_some, if_pos hfull,
        Option.pure_def]
  · obtain ⟨k, hk, hroom⟩ :=
      room_spec (inner.reserved - held + cost entry) total inner.queue inner.evicted
    rw [← h.kept_eq] at hroom
    have hfits := hk.fits (not_lt.1 hfull)
    refine ⟨{ inner with
      queue := inner.queue.drop k ++ [⟨entry, cost entry⟩]
      kept := costs (inner.queue.drop k) + cost entry
      reserved := inner.reserved - held
      evicted := inner.evicted + k
      stored := inner.stored + 1
      truncated := if entry.request_body.truncated.isSome || entry.response_body.truncated.isSome
        then inner.truncated + 1 else inner.truncated }, ⟨?_, ?_, ?_⟩, rfl,
      .inr ⟨k, ?_, rfl, hk, rfl⟩⟩
    · simp
    · intro x hx
      rcases List.mem_append.1 hx with hx | hx
      · exact h.cost_eq x (List.mem_of_mem_drop hx)
      · rw [List.mem_singleton.1 hx]
    · change costs (inner.queue.drop k) + cost entry + (inner.reserved - held) ≤ total
      omega
    · simp only [Inner.insert, hsub, Option.bind_eq_bind, Option.bind_some, if_neg hfull,
        Inner.room, hroom, Option.pure_def]

/-- Clearing takes away what the entries cost that go. -/
theorem Balanced.clear (h : Balanced total inner) (session : Option Str) :
    ∃ inner', inner.clear session = some inner' ∧ Balanced total inner' ∧
      inner'.reserved = inner.reserved ∧ inner'.queue.Sublist inner.queue ∧
      inner'.stored = inner.stored := by
  have hle := h.le_total
  cases session with
  | none =>
    refine ⟨_, rfl, ⟨rfl, by simp, ?_⟩, rfl, List.nil_sublist _, rfl⟩
    change 0 + inner.reserved ≤ total
    omega
  | some name =>
    have hsplit : ∀ queue : List Kept, costs (queue.filter fun k => k.entry.session = name) +
        costs (queue.filter fun k => k.entry.session ≠ name) = costs queue := by
      intro queue
      induction queue with
      | nil => rfl
      | cons k queue ih =>
        by_cases hk : k.entry.session = name
        · simp only [List.filter_cons, hk, decide_true, if_true, ne_eq, not_true_eq_false,
            decide_false, Bool.false_eq_true, if_false, costs_cons] at ih ⊢
          omega
        · simp only [List.filter_cons, hk, decide_true, if_true, ne_eq, not_false_eq_true,
            decide_false, Bool.false_eq_true, if_false, costs_cons] at ih ⊢
          omega
    have hall := hsplit inner.queue
    rw [← h.kept_eq] at hall
    refine ⟨{ inner with
      queue := inner.queue.filter fun k => k.entry.session ≠ name
      kept := inner.kept - costs (inner.queue.filter fun k => k.entry.session = name) },
      ?_, ⟨?_, fun x hx => h.cost_eq x (List.mem_of_mem_filter hx), ?_⟩, rfl,
      List.filter_sublist, rfl⟩
    · have hsub : sub inner.kept (costs (inner.queue.filter fun k => k.entry.session = name)) =
          some (inner.kept - costs (inner.queue.filter fun k => k.entry.session = name)) :=
        if_pos (by omega)
      simp only [Inner.clear]
      rw [show ((inner.queue.filter fun k => k.entry.session = name).map Kept.cost).sum =
        costs (inner.queue.filter fun k => k.entry.session = name) from rfl, hsub]
      rfl
    · change inner.kept - costs (inner.queue.filter fun k => k.entry.session = name) =
        costs (inner.queue.filter fun k => k.entry.session ≠ name)
      omega
    · change inner.kept - _ + inner.reserved ≤ total
      omega

/-! ### Bodies -/

/-- The bytes taken. -/
def Taking.data (taking : Taking) : List UInt8 := taking.chunks.flatten

theorem Taking.finish_eq (taking : Taking) :
    taking.finish = ⟨taking.data, taking.size, taking.truncated⟩ := by
  unfold Taking.finish Taking.data
  rcases taking.chunks with _ | ⟨chunk, _ | ⟨chunk', chunks⟩⟩ <;> simp

/-- Of the bytes given the beginning was taken, up to the limit where no reservation failed; and the
body is truncated where that is not all. -/
structure Took (body : ℕ) (given : List UInt8) (taking : Taking) : Prop where
  size : taking.size = given.length
  stored : taking.stored = taking.data.length
  beginning : taking.data <+: given
  le_body : taking.data.length ≤ body
  truncated : taking.truncated.isSome ↔ taking.data.length < given.length
  whole : taking.truncated ≠ some .Budget → taking.data = given.take body

theorem took_empty (body : ℕ) : Took body [] .empty where
  size := rfl
  stored := rfl
  beginning := List.prefix_rfl
  le_body := Nat.zero_le _
  truncated := by simp [Taking.empty, Taking.data]
  whole _ := by simp [Taking.empty, Taking.data]

variable {limits : Limits} {given : List UInt8} {taking : Taking}

/-- A body that is not truncated has all that was given. -/
theorem Took.data_eq (h : Took limits.body given taking) (hnone : taking.truncated = none) :
    taking.data = given ∧ given.length ≤ limits.body := by
  have hall : taking.data.length = given.length := by
    have hle := h.beginning.length_le
    have hnot := mt h.truncated.2
    rw [hnone] at hnot
    simp only [Option.isSome_none, Bool.false_eq_true, not_false_eq_true, forall_const,
      not_lt] at hnot
    omega
  have heq := h.beginning.eq_of_length hall
  exact ⟨heq, heq ▸ h.le_body⟩

/-- One chunk more of a body that is truncated already: it only counts. -/
theorem Took.count (h : Took limits.body given taking) (hsome : taking.truncated.isSome)
    (data : List UInt8) :
    Took limits.body (given ++ data) { taking with size := taking.size + data.length } := by
  have hless := h.truncated.1 hsome
  refine ⟨?_, h.stored, h.beginning.trans (List.prefix_append _ _), h.le_body, ?_, fun hnot => ?_⟩
  · rw [List.length_append, ← h.size]
  · refine iff_of_true hsome ?_
    rw [List.length_append]
    exact hless.trans_le (Nat.le_add_right _ _)
  · have heq := h.whole hnot
    have hbody : limits.body ≤ given.length := by
      rw [heq, List.length_take] at hless
      omega
    rw [List.take_append_of_le_length hbody]
    exact heq

/-- **One chunk**: what is taken of it is reserved first, and where nothing is the store is as it
was. -/
theorem Took.take (h : Took limits.body given taking) (held : ℕ) (data : List UInt8)
    (hinner : Balanced limits.total inner) :
    ∃ taking' held' inner', take limits taking held inner data = some (taking', held', inner') ∧
      Took limits.body (given ++ data) taking' ∧ Balanced limits.total inner' ∧
      inner'.stored = inner.stored ∧
      ((inner' = inner ∧ held' = held) ∨ ∃ n k, 0 < n ∧ held' = held + n ∧
        inner'.reserved = inner.reserved + n ∧ inner'.queue = inner.queue.drop k ∧
        Evicted inner.queue k inner'.reserved limits.total) := by
  unfold Capture.take
  by_cases hempty : data = []
  · subst hempty
    rw [if_pos rfl]
    exact ⟨taking, held, inner, rfl, by rwa [List.append_nil], hinner, rfl, .inl ⟨rfl, rfl⟩⟩
  rw [if_neg hempty]
  have hpos := List.length_pos_iff.2 hempty
  cases htruncated : taking.truncated with
  | some why =>
    refine ⟨_, held, inner, if_pos rfl, ?_, hinner, rfl, .inl ⟨rfl, rfl⟩⟩
    have hcount := h.count (by simp [htruncated]) data
    rwa [htruncated] at hcount
  | none =>
    obtain ⟨hdata, hbody⟩ := h.data_eq htruncated
    have hstored : taking.stored = given.length := h.stored.trans (congrArg List.length hdata)
    have hlong : given.length = taking.data.length := hstored.symm.trans h.stored
    simp only [Option.isSome_none, Bool.false_eq_true, if_false, hstored]
    by_cases hzero : min data.length (limits.body - given.length) = 0
    · rw [if_pos hzero]
      refine ⟨_, held, inner, rfl, ⟨?_, hlong, ?_, h.le_body, ?_, fun _ => ?_⟩, hinner, rfl,
        .inl ⟨rfl, rfl⟩⟩
      · rw [List.length_append, ← h.size]
      · exact h.beginning.trans (List.prefix_append _ _)
      · refine iff_of_true rfl ?_
        change taking.data.length < _
        rw [hdata, List.length_append]
        omega
      · change taking.data = _
        rw [hdata, List.take_append_of_le_length (by omega), List.take_of_length_le (by omega)]
    rw [if_neg hzero]
    rcases hinner.reserve (min data.length (limits.body - given.length)) with
      hrefused | ⟨inner', k, hreserve, hbalanced, hreserved, hqueue, hevicted, hcount⟩
    · rw [hrefused]
      refine ⟨_, held, inner, rfl, ⟨?_, hlong, ?_, h.le_body, ?_, fun hnot => ?_⟩, hinner, rfl,
        .inl ⟨rfl, rfl⟩⟩
      · rw [List.length_append, ← h.size]
      · exact h.beginning.trans (List.prefix_append _ _)
      · refine iff_of_true rfl ?_
        change taking.data.length < _
        rw [hdata, List.length_append]
        omega
      · exact absurd rfl hnot
    · rw [hreserve]
      set n := min data.length (limits.body - given.length) with hn
      have hnew : Taking.data
          { taking with
            size := taking.size + data.length
            chunks := taking.chunks ++ [data.take n]
            stored := given.length + n
            truncated := if n < data.length then some .Limit else none } =
          given ++ data.take n := by
        rw [Taking.data, List.flatten_append, List.flatten_singleton]
        exact congrArg (· ++ data.take n) hdata
      have hlength : (given ++ data.take n).length = given.length + n := by
        rw [List.length_append, List.length_take]
        omega
      refine ⟨_, held + n, inner', rfl, ⟨?_, ?_, ?_, ?_, ?_, fun _ => ?_⟩, hbalanced, hcount,
        .inr ⟨n, k, Nat.pos_of_ne_zero hzero, rfl, hreserved, hqueue, hevicted⟩⟩
      · rw [List.length_append, ← h.size]
      · rw [hnew, hlength]
      · rw [hnew]
        exact (List.prefix_append_right_inj given).2 (List.take_prefix _ _)
      · rw [hnew, hlength]
        omega
      · rw [hnew, hlength, List.length_append]
        by_cases hless : n < data.length
        · rw [if_pos hless]
          exact iff_of_true rfl (by omega)
        · rw [if_neg hless]
          exact iff_of_false (by simp) (by omega)
      · rw [hnew, List.take_append, List.take_of_length_le hbody, hn]
        congr 1
        rcases le_total data.length (limits.body - given.length) with hle | hle
        · rw [min_eq_left hle, List.take_of_length_le le_rfl, List.take_of_length_le hle]
        · rw [min_eq_right hle]

end Capture

end Rurge
