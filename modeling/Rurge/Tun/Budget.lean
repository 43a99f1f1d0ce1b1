import Mathlib

/-!
# The budget of the TUN's socket buffers

`tcp/budget.rs`: a socket takes its two buffers out of one budget when it is made, sized by what is
left then, and gives them back when it goes; what it has not read goes on holding the receive
buffer's part (`keep_unread`, `Leftover`).  The counter is a machine word.

`Step` is a take, or a give back of a socket's whole `Sizes` or of one part of it, by any shard; so
a run is any interleaving of them.
-/

namespace Rurge.Tun

/-- What is left of the budget is shared out in this many parts. -/
def DIVISOR : ℕ := 32

/-- The largest receive buffer. -/
def RX_MAX : ℕ := 65535

/-- What a `usize` counts to. -/
@[irreducible] def USIZE : ℕ := 2 ^ 64

theorem USIZE_pos : 0 < USIZE := by
  unfold USIZE
  exact Nat.two_pow_pos 64

/-- The two buffers of one socket. -/
structure Sizes where
  rx : ℕ
  tx : ℕ
  deriving DecidableEq

/-- The bytes of both. -/
def Sizes.total (s : Sizes) : ℕ := s.rx + s.tx

structure Budget where
  budget : ℕ
  min : ℕ
  tx_max : ℕ
  /-- The buffers of every socket there is, in bytes. -/
  used : ℕ

namespace Budget

def new (budget min tx_max : ℕ) : Budget := ⟨budget, min, tx_max, 0⟩

/-- The buffers of a new socket when this much is used. -/
def sizes (b : Budget) (used : ℕ) : Sizes :=
  let left := b.budget - used
  let share := max (left / DIVISOR) b.min
  ⟨Min.min share RX_MAX, Min.min share b.tx_max⟩

/-- One atomic step: the sizes by what was used, and the counter after. -/
def take (b : Budget) : Sizes × Budget :=
  let taken := b.sizes b.used
  (taken, { b with used := (b.used + taken.rx + taken.tx) % USIZE })

/-- `fetch_sub`, which wraps. -/
def give_back (b : Budget) (sizes : Sizes) : Budget :=
  { b with used := (b.used + (USIZE - (sizes.rx + sizes.tx) % USIZE)) % USIZE }

/-- A counter that wraps at `m` loses nothing when it falls by no more than it counts. -/
theorem wrapping_sub {m used n : ℕ} (hn : n ≤ used) (hm : used < m) :
    (used + (m - n % m)) % m = used - n := by
  have hback : used + (m - n) = used - n + m := by omega
  rw [Nat.mod_eq_of_lt (Nat.lt_of_le_of_lt hn hm), hback, Nat.add_mod_right,
    Nat.mod_eq_of_lt (by omega)]

/-- The counter falls by what is given back. -/
theorem give_back_used {b : Budget} {sizes : Sizes} (hle : sizes.total ≤ b.used)
    (hlt : b.used < USIZE) : (b.give_back sizes).used = b.used - sizes.total :=
  wrapping_sub hle hlt

/-- The smallest buffers a socket gets. -/
def least (b : Budget) : Sizes := ⟨Min.min b.min RX_MAX, Min.min b.min b.tx_max⟩

/-- The same options; `used` may differ. -/
structure Same (b c : Budget) : Prop where
  budget : c.budget = b.budget
  min : c.min = b.min
  tx_max : c.tx_max = b.tx_max

theorem Same.least {b c : Budget} (h : Same b c) : c.least = b.least := by
  unfold Budget.least
  rw [h.min, h.tx_max]

theorem least_le_sizes (b : Budget) (used : ℕ) :
    b.least.rx ≤ (b.sizes used).rx ∧ b.least.tx ≤ (b.sizes used).tx := by
  simp only [least, sizes]
  omega

/-- A take stays in the budget, or it is of the smallest buffers. -/
theorem sizes_total (b : Budget) (used : ℕ) :
    used + (b.sizes used).total ≤ b.budget ∨ b.sizes used = b.least := by
  by_cases h : b.min < (b.budget - used) / DIVISOR
  · left
    -- two shares are at most a sixteenth of what is left
    have hshare : 2 * ((b.budget - used) / DIVISOR) ≤ b.budget - used := by
      unfold DIVISOR
      omega
    simp only [Sizes.total, sizes]
    omega
  · right
    have hmax : Max.max ((b.budget - used) / DIVISOR) b.min = b.min := by omega
    simp only [sizes, least, hmax]

end Budget

/-! ### The sockets that hold buffers -/

/-- What a socket still holds of what it took. -/
structure Held where
  rx : Option ℕ
  tx : Option ℕ
  deriving DecidableEq

namespace Held

/-- The bytes of what is held. -/
def total (h : Held) : ℕ := h.rx.getD 0 + h.tx.getD 0

/-- Whether anything is. -/
def holds (h : Held) : Bool := h.rx.isSome || h.tx.isSome

/-- The smallest buffers of the parts that are held. -/
def floor (least : Sizes) (h : Held) : ℕ :=
  (if h.rx.isSome then least.rx else 0) + if h.tx.isSome then least.tx else 0

/-- Each part that is held is at least the smallest. -/
structure AtLeast (least : Sizes) (h : Held) : Prop where
  rx : ∀ n, h.rx = some n → least.rx ≤ n
  tx : ∀ n, h.tx = some n → least.tx ≤ n

end Held

/-- The budget, and its sockets. -/
structure Pool where
  budget : Budget
  sockets : List Held

namespace Pool

/-- What is outstanding. -/
def outstanding (p : Pool) : ℕ := (p.sockets.map Held.total).sum

/-- The sockets that hold buffers. -/
def holding (p : Pool) : ℕ := (p.sockets.filter Held.holds).length

def new (budget min tx_max : ℕ) : Pool := ⟨.new budget min tx_max, []⟩

/-- What a step gives back. -/
inductive Gives : Held → Sizes → Held → Prop
  | whole (rx tx : ℕ) : Gives ⟨some rx, some tx⟩ ⟨rx, tx⟩ ⟨none, none⟩
  | rx (rx : ℕ) (tx : Option ℕ) : Gives ⟨some rx, tx⟩ ⟨rx, 0⟩ ⟨none, tx⟩
  | tx (rx : Option ℕ) (tx : ℕ) : Gives ⟨rx, some tx⟩ ⟨0, tx⟩ ⟨rx, none⟩

/-- A new socket. -/
def take (p : Pool) : Pool :=
  ⟨p.budget.take.2, ⟨some p.budget.take.1.rx, some p.budget.take.1.tx⟩ :: p.sockets⟩

/-- One take, or one give back by any of the sockets. -/
inductive Step : Pool → Pool → Prop
  | take (p : Pool) : Step p p.take
  | give_back (b : Budget) (before after : List Held) {h h' : Held} {sizes : Sizes}
      (hg : Gives h sizes h') :
      Step ⟨b, before ++ h :: after⟩ ⟨b.give_back sizes, before ++ h' :: after⟩

/-- The budget and the smallest buffers of the sockets that hold some fit a `usize`. -/
def Fits (p : Pool) : Prop :=
  p.budget.budget + p.holding * p.budget.least.total < USIZE

instance (p : Pool) : Decidable p.Fits := Nat.decLt _ _

/-- The pools of the runs in which that is so. -/
abbrev Reaches : Pool → Pool → Prop := Relation.ReflTransGen fun p q => Step p q ∧ q.Fits

/-- The smallest buffers of the parts that are held. -/
def floors (p : Pool) : ℕ := (p.sockets.map (Held.floor p.budget.least)).sum

/-- What is true after every step. -/
structure Counted (b : Budget) (p : Pool) : Prop where
  same : b.Same p.budget
  used : p.budget.used = p.outstanding
  bound : p.outstanding ≤ b.budget + p.floors
  least : ∀ h ∈ p.sockets, h.AtLeast b.least

end Pool

theorem Held.floor_le {least : Sizes} (h : Held) :
    h.floor least ≤ if h.holds then least.total else 0 := by
  obtain ⟨rx, tx⟩ := h
  cases rx <;> cases tx <;> simp [floor, holds, Sizes.total]

namespace Pool

/-- A part that is held counts no more than a whole socket does. -/
theorem floors_le (p : Pool) : p.floors ≤ p.holding * p.budget.least.total := by
  unfold floors holding
  induction p.sockets with
  | nil => simp
  | cons h l ih =>
    have hh := @Held.floor_le p.budget.least h
    rw [List.map_cons, List.sum_cons, List.filter_cons]
    split_ifs with hholds
    · rw [if_pos hholds] at hh
      rw [List.length_cons, Nat.succ_mul]
      omega
    · rw [if_neg hholds] at hh
      omega

/-- What is given back: the socket's total falls by it, and by at least what the smallest buffers of
the parts given come to. -/
theorem Gives.total {h h' : Held} {sizes least : Sizes} (hg : Gives h sizes h')
    (hl : h.AtLeast least) :
    h.total = h'.total + sizes.total ∧ h.floor least ≤ h'.floor least + sizes.total ∧
      h'.AtLeast least := by
  cases hg with
  | whole rx tx =>
    have hrx := hl.rx rx rfl
    have htx := hl.tx tx rfl
    refine ⟨?_, ?_, nofun, nofun⟩
    · simp [Held.total, Sizes.total]
    · simp [Held.floor, Sizes.total]
      omega
  | rx rx tx =>
    have hrx := hl.rx rx rfl
    refine ⟨?_, ?_, nofun, hl.tx⟩
    · simp [Held.total, Sizes.total]
      omega
    · simp [Held.floor, Sizes.total]
      omega
  | tx rx tx =>
    have htx := hl.tx tx rfl
    refine ⟨?_, ?_, hl.rx, nofun⟩
    · simp [Held.total, Sizes.total]
    · simp [Held.floor, Sizes.total]
      omega

theorem Counted.fits {b : Budget} {p : Pool} (hsame : b.Same p.budget)
    (hbound : p.outstanding ≤ b.budget + p.floors) (hfits : p.Fits) : p.outstanding < USIZE := by
  have hfloors := p.floors_le
  unfold Fits at hfits
  rw [hsame.budget] at hfits
  omega

/-- A take. -/
theorem Counted.take {b : Budget} {p : Pool} (h : Counted b p) (hfits : p.take.Fits) :
    Counted b p.take := by
  set taken := p.budget.take.1
  set q : Pool := p.take with hq
  have hleast : p.budget.least = b.least := h.same.least
  have hsizes : taken = p.budget.sizes p.budget.used := rfl
  have hsame : b.Same q.budget := ⟨h.same.budget, h.same.min, h.same.tx_max⟩
  have hout : q.outstanding = p.outstanding + taken.total := by
    change Held.total ⟨some taken.rx, some taken.tx⟩ + _ = _
    rw [Nat.add_comm]
    rfl
  have hfloors : q.floors = p.floors + b.least.total := by
    unfold floors
    rw [hsame.least, hleast, hq, Pool.take, List.map_cons, List.sum_cons, Nat.add_comm]
    rfl
  have hmin := p.budget.least_le_sizes p.budget.used
  rw [← hsizes, hleast] at hmin
  have hbound : q.outstanding ≤ b.budget + q.floors := by
    have hb := h.bound
    rcases p.budget.sizes_total p.budget.used with hle | hle
    · rw [← hsizes, h.used] at hle
      have hbudget := h.same.budget
      omega
    · rw [hleast, ← hsizes] at hle
      rw [hout, hfloors, hle]
      omega
  refine ⟨hsame, ?_, hbound, ?_⟩
  · change (p.budget.used + taken.rx + taken.tx) % USIZE = _
    have hlt := fits hsame hbound hfits
    rw [hout] at hlt ⊢
    rw [h.used, Nat.add_assoc]
    exact Nat.mod_eq_of_lt hlt
  · rintro x hx
    rcases List.mem_cons.1 hx with rfl | hx
    · exact ⟨fun n hn => Option.some.inj hn ▸ hmin.1, fun n hn => Option.some.inj hn ▸ hmin.2⟩
    · exact h.least x hx

/-- What is given back is part of what is used. -/
theorem Counted.le_used {b : Budget} {p : Pool} (h : Counted b p) {x x' : Held} (hx : x ∈ p.sockets)
    {sizes : Sizes} (hg : Gives x sizes x') : sizes.total ≤ p.budget.used := by
  obtain ⟨before, after, hp⟩ := List.append_of_mem hx
  obtain ⟨htotal, -, -⟩ := hg.total (h.least x hx)
  rw [h.used, outstanding, hp, List.map_append, List.sum_append, List.map_cons, List.sum_cons]
  omega

/-- A give back. -/
theorem Counted.give_back {b c : Budget} {before after : List Held} {x x' : Held} {sizes : Sizes}
    (hg : Gives x sizes x') (h : Counted b ⟨c, before ++ x :: after⟩)
    (hlt : outstanding ⟨c, before ++ x :: after⟩ < USIZE) :
    Counted b ⟨c.give_back sizes, before ++ x' :: after⟩ := by
  have hx : x ∈ before ++ x :: after := by simp
  have hle := h.le_used hx hg
  obtain ⟨htotal, hfloor, hleast⟩ := hg.total (h.least x hx)
  have hused := h.used
  have hbound := h.bound
  have hc : c.least = b.least := h.same.least
  have hsame : b.Same (c.give_back sizes) := ⟨h.same.budget, h.same.min, h.same.tx_max⟩
  have hc' := hsame.least
  simp only [outstanding, floors, hc, List.map_append, List.map_cons, List.sum_append,
    List.sum_cons] at hused hbound hlt
  refine ⟨hsame, ?_, ?_, ?_⟩
  · have hfall := Budget.give_back_used hle (hused ▸ hlt)
    change (c.give_back sizes).used = _
    rw [hfall, hused]
    simp only [outstanding, List.map_append, List.map_cons, List.sum_append, List.sum_cons]
    omega
  · simp only [outstanding, floors, hc', List.map_append, List.map_cons, List.sum_append,
      List.sum_cons]
    omega
  · rintro y hy
    rcases List.mem_append.1 hy with hy | hy
    · exact h.least y (List.mem_append_left _ hy)
    · rcases List.mem_cons.1 hy with rfl | hy
      · exact hleast
      · exact h.least y (by simp [hy])

/-- One step. -/
theorem Counted.step {b : Budget} {p q : Pool} (h : Counted b p) (hp : p.outstanding < USIZE)
    (hst : Step p q) (hq : q.Fits) : Counted b q ∧ q.outstanding < USIZE := by
  cases hst with
  | take =>
    have ht := h.take hq
    exact ⟨ht, fits ht.same ht.bound hq⟩
  | give_back c before after hg =>
    have ht := h.give_back hg hp
    exact ⟨ht, fits ht.same ht.bound hq⟩

/-- Every run. -/
theorem Counted.reaches {b : Budget} {p q : Pool} (h : Counted b p) (hp : p.outstanding < USIZE)
    (hr : Reaches p q) : Counted b q ∧ q.outstanding < USIZE := by
  induction hr with
  | refl => exact ⟨h, hp⟩
  | tail _ hs ih => exact ih.1.step ih.2 hs.1 hs.2

theorem counted_new (budget min tx_max : ℕ) :
    Counted (.new budget min tx_max) (new budget min tx_max) :=
  ⟨⟨rfl, rfl, rfl⟩, rfl, Nat.zero_le _, nofun⟩

/-- What the budget promises of a pool. -/
structure Bounded (b : Budget) (p : Pool) : Prop where
  /-- A take returns buffers of at least the smallest sizes. -/
  take : b.least.rx ≤ p.budget.take.1.rx ∧ b.least.tx ≤ p.budget.take.1.tx
  /-- What is used is what is outstanding. -/
  used : p.budget.used = p.outstanding
  /-- A give back takes no more than is used. -/
  give_back : ∀ h ∈ p.sockets, ∀ sizes h', Gives h sizes h' → sizes.total ≤ p.budget.used
  /-- It is over the budget by no more than the smallest buffers of the sockets that hold some. -/
  bound : p.budget.used ≤ b.budget + p.holding * b.least.total

theorem Counted.bounded {b : Budget} {p : Pool} (h : Counted b p) : Bounded b p where
  take := h.same.least ▸ p.budget.least_le_sizes p.budget.used
  used := h.used
  give_back _ hx _ _ hg := h.le_used hx hg
  bound := by
    have hfloors := p.floors_le
    rw [h.same.least] at hfloors
    have hbound := h.bound
    rw [h.used]
    omega

/-- **The TUN's buffer budget is bounded**, in every run in which the budget and the smallest
buffers of the sockets that hold some fit a `usize`. -/
theorem budget_bounded (budget min tx_max : ℕ) {p : Pool}
    (h : Reaches (new budget min tx_max) p) : Bounded (.new budget min tx_max) p :=
  ((counted_new budget min tx_max).reaches USIZE_pos h).1.bounded

/-- Two sockets, the second of which gives back its send buffer. -/
theorem budget_bounded_two_sockets :
    Bounded (.new 1024 16 100) ⟨(new 1024 16 100).take.take.budget.give_back ⟨0, 30⟩,
      [] ++ ⟨some 30, none⟩ :: [⟨some 32, some 32⟩]⟩ := by
  refine budget_bounded 1024 16 100 (.tail (.tail (.tail .refl ⟨.take _, by decide +kernel⟩)
    ⟨.take _, by decide +kernel⟩) ⟨?_, by decide +kernel⟩)
  have htwo : (new 1024 16 100).take.take.sockets = [⟨some 30, some 30⟩, ⟨some 32, some 32⟩] := by
    decide +kernel
  have hst : Step ⟨_, [] ++ ⟨some 30, some 30⟩ :: [⟨some 32, some 32⟩]⟩ _ :=
    .give_back (new 1024 16 100).take.take.budget [] [⟨some 32, some 32⟩] (.tx (some 30) 30)
  rw [List.nil_append, ← htwo] at hst
  exact hst

/-- A socket whose smallest send buffer is as large as a `usize` counts is counted wrong. -/
theorem not_budget_bounded :
    ∃ p, Relation.ReflTransGen Step (new 0 (2 ^ 64 - 1) (2 ^ 64 - 1)) p ∧
      p.budget.used ≠ p.outstanding :=
  ⟨_, .single (.take _), by decide +kernel⟩

end Pool

end Rurge.Tun
