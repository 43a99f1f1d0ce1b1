import Rurge.Lib.Runs

/-!
# A limit in a window that slides

A `Limiter` remembers when the calls it let through were let through, and forgets from the front
what is a whole window ago.  Where no call comes less than a window away from what is forgotten, no
interval shorter than the window holds more than `max` of those let through.
-/

namespace Rurge

namespace Tun

open Runs

/-- Lets at most `max` things through in any `window`. -/
structure Limiter where
  max : ℕ
  window : ℕ
  allowed : List ℕ
  deriving DecidableEq

namespace Limiter

def new (max window : ℕ) : Limiter := ⟨max, window, []⟩

/-- Whether what was let through at `then_` is a whole window ago, as far as `now` tells. -/
def expired (l : Limiter) (now then_ : ℕ) : Bool := l.window ≤ now - then_

/-- Whether the thing that happens at `now` is let through. -/
def allow (l : Limiter) (now : ℕ) : Limiter × Bool :=
  let allowed := l.allowed.dropWhile (l.expired now)
  if l.max ≤ allowed.length then ({ l with allowed }, false)
  else ({ l with allowed := allowed ++ [now] }, true)

/-- A limiter with the calls it let through, and those of them it forgot. -/
structure History where
  limiter : Limiter
  passed : List ℕ
  popped : List ℕ

/-- One more call at `now`. -/
def call (h : History) (now : ℕ) : History where
  limiter := (h.limiter.allow now).1
  passed := if (h.limiter.allow now).2 then h.passed ++ [now] else h.passed
  popped := h.popped ++ h.limiter.allowed.takeWhile (h.limiter.expired now)

/-- Before any call. -/
def fresh (max window : ℕ) : History := ⟨new max window, [], []⟩

/-- The call comes a window away at least from every one that is forgotten. -/
def Clear (h : History) (now : ℕ) : Prop :=
  ∀ t ∈ h.popped, t + h.limiter.window ≤ now ∨ now + h.limiter.window ≤ t

instance (h : History) (now : ℕ) : Decidable (Clear h now) := by
  unfold Clear
  infer_instance

/-- What holds of every history. -/
structure Kept (max window : ℕ) (h : History) : Prop where
  max_eq : h.limiter.max = max
  window_eq : h.limiter.window = window
  passed : h.passed = h.popped ++ h.limiter.allowed
  length_le : h.limiter.allowed.length ≤ max

/-- What one call does: it forgets, and is refused or remembered. -/
theorem call_cases (h : History) (now : ℕ) :
    (call h now).popped = h.popped ++ h.limiter.allowed.takeWhile (h.limiter.expired now) ∧
    ((h.limiter.max ≤ (h.limiter.allowed.dropWhile (h.limiter.expired now)).length ∧
        (h.limiter.allow now).2 = false ∧ (call h now).passed = h.passed ∧
        (call h now).limiter =
          { h.limiter with allowed := h.limiter.allowed.dropWhile (h.limiter.expired now) }) ∨
      ((h.limiter.allowed.dropWhile (h.limiter.expired now)).length < h.limiter.max ∧
        (h.limiter.allow now).2 = true ∧ (call h now).passed = h.passed ++ [now] ∧
        (call h now).limiter = { h.limiter with
          allowed := h.limiter.allowed.dropWhile (h.limiter.expired now) ++ [now] })) := by
  refine ⟨rfl, ?_⟩
  rcases le_or_gt h.limiter.max
    (h.limiter.allowed.dropWhile (h.limiter.expired now)).length with hfull | hroom
  · have hallow : h.limiter.allow now =
        ({ h.limiter with allowed := h.limiter.allowed.dropWhile (h.limiter.expired now) },
          false) := if_pos hfull
    refine .inl ⟨hfull, by rw [hallow], ?_, ?_⟩
    · simp only [call, hallow, Bool.false_eq_true, if_false]
    · simp only [call, hallow]
  · have hallow : h.limiter.allow now = ({ h.limiter with
        allowed := h.limiter.allowed.dropWhile (h.limiter.expired now) ++ [now] }, true) :=
      if_neg (not_le.2 hroom)
    refine .inr ⟨hroom, by rw [hallow], ?_, ?_⟩
    · simp only [call, hallow, if_true]
    · simp only [call, hallow]

theorem kept_fresh (max window : ℕ) : Kept max window (fresh max window) :=
  ⟨rfl, rfl, rfl, Nat.zero_le _⟩

variable {max window : ℕ} {h : History} {now : ℕ}

theorem Kept.call (hk : Kept max window h) (now : ℕ) : Kept max window (call h now) := by
  obtain ⟨hpopped, ⟨-, -, hpassed, hlimiter⟩ | ⟨hroom, -, hpassed, hlimiter⟩⟩ := call_cases h now
  · refine ⟨by rw [hlimiter]; exact hk.max_eq, by rw [hlimiter]; exact hk.window_eq, ?_, ?_⟩
    · rw [hpassed, hpopped, hlimiter, List.append_assoc, List.takeWhile_append_dropWhile,
        hk.passed]
    · rw [hlimiter]
      exact (List.dropWhile_sublist _).length_le.trans hk.length_le
  · refine ⟨by rw [hlimiter]; exact hk.max_eq, by rw [hlimiter]; exact hk.window_eq, ?_, ?_⟩
    · rw [hpassed, hpopped, hlimiter, List.append_assoc, ← List.append_assoc (List.takeWhile ..),
        List.takeWhile_append_dropWhile, hk.passed, List.append_assoc]
    · rw [hlimiter, List.length_append, List.length_singleton]
      exact hroom.trans_eq hk.max_eq

/-- How many of the calls let through have their now from `a` to `b`. -/
def within (h : History) (a b : ℕ) : ℕ := h.passed.countP fun t => a ≤ t ∧ t ≤ b

/-- No interval shorter than the window holds more than `max`. -/
def Bounded (max window : ℕ) (h : History) : Prop :=
  ∀ a b, b < a + window → within h a b ≤ max

/-- **One call.**  A call clear of what is forgotten leaves every interval bounded. -/
theorem Bounded.call (hk : Kept max window h) (hb : Bounded max window h) (hclear : Clear h now) :
    Bounded max window (call h now) := by
  intro a b hab
  have hnext := hk.call now
  obtain ⟨hpopped, ⟨-, -, hpassed, -⟩ | ⟨-, -, hpassed, -⟩⟩ := call_cases h now
  · rw [within, hpassed]
    exact hb a b hab
  by_cases hnow : a ≤ now ∧ now ≤ b
  · -- all that is forgotten lies outside the interval, and the rest is no more than `max`
    have hnone : (Limiter.call h now).popped.countP (fun t => a ≤ t ∧ t ≤ b) = 0 := by
      rw [List.countP_eq_zero]
      intro t ht
      rw [decide_eq_true_eq]
      rw [hpopped] at ht
      rcases List.mem_append.1 ht with ht | ht
      · have := hclear t ht
        rw [hk.window_eq] at this
        omega
      · have := List.mem_takeWhile_imp ht
        simp only [expired, hk.window_eq, decide_eq_true_eq] at this
        omega
    rw [within, hnext.passed, List.countP_append, hnone, Nat.zero_add]
    exact List.countP_le_length.trans hnext.length_le
  · have hold : within (Limiter.call h now) a b = within h a b := by
      rw [within, within, hpassed, List.countP_append, List.countP_singleton,
        if_neg (by simpa using hnow), Nat.add_zero]
    rw [hold]
    exact hb a b hab

/-- **A run** of calls each clear of what is forgotten leaves every interval bounded. -/
theorem bounded_of_clear {nows : List ℕ}
    (hclear : Along Limiter.call Clear (fresh max window) nows) :
    Bounded max window (run Limiter.call (fresh max window) nows) := by
  refine (hclear.invariant (I := fun h => Kept max window h ∧ Bounded max window h)
    (fun h now hh hc => ⟨hh.1.call now, hh.2.call hh.1 hc⟩) ⟨kept_fresh max window, ?_⟩).2
  exact fun a b _ => Nat.zero_le _

theorem passed_sublist (h : History) (nows : List ℕ) :
    (run call h nows).passed.Sublist (h.passed ++ nows) := by
  induction nows generalizing h with
  | nil => simp
  | cons now nows ih =>
    have hone : (call h now).passed.Sublist (h.passed ++ [now]) := by
      obtain ⟨-, ⟨-, -, hpassed, -⟩ | ⟨-, -, hpassed, -⟩⟩ := call_cases h now
      · rw [hpassed]
        exact List.sublist_append_left _ _
      · rw [hpassed]
    have hrest := (ih (call h now)).trans (hone.append_right nows)
    rwa [List.append_assoc, List.singleton_append] at hrest

/-- A call refused among calls in order: `max` were let through less than a window before it. -/
theorem refused_full (hk : Kept max window h) (hsorted : (h.passed ++ [now]).Pairwise (· ≤ ·))
    (hrefused : (h.limiter.allow now).2 = false) :
    max ≤ h.passed.countP fun t => now < t + window := by
  obtain ⟨-, ⟨hfull, -, -, -⟩ | ⟨-, hpassed, -, -⟩⟩ := call_cases h now
  swap
  · rw [hpassed] at hrefused
    cases hrefused
  have hearlier : ∀ t ∈ h.passed, t ≤ now := fun t ht =>
    (List.pairwise_append.1 hsorted).2.2 t ht now List.mem_cons_self
  have hqueue : h.limiter.allowed.Sublist h.passed := by
    rw [hk.passed]
    exact List.sublist_append_right _ _
  have hleft := List.dropWhile_sublist (h.limiter.expired now) (l := h.limiter.allowed)
  have hpairs := (List.pairwise_append.1 hsorted).1.sublist (hleft.trans hqueue)
  -- what is not forgotten is less than a window ago: the oldest is, and the others are later
  have hyoung : ∀ t ∈ h.limiter.allowed.dropWhile (h.limiter.expired now), now < t + window := by
    intro t ht
    cases hcases : h.limiter.allowed.dropWhile (h.limiter.expired now) with
    | nil =>
      rw [hcases] at ht
      cases ht
    | cons oldest rest =>
      have hnot : ¬ h.limiter.expired now oldest = true := by
        have hne : h.limiter.allowed.dropWhile (h.limiter.expired now) ≠ [] := by
          rw [hcases]
          exact List.cons_ne_nil _ _
        have := List.head_dropWhile_not (h.limiter.expired now) hne
        simpa [hcases] using this
      rw [hcases] at ht hpairs
      have hle : oldest ≤ t := by
        rcases List.mem_cons.1 ht with rfl | ht
        · exact le_rfl
        · exact (List.pairwise_cons.1 hpairs).1 t ht
      have hold := hearlier oldest (by
        refine (hleft.trans hqueue).subset ?_
        rw [hcases]
        exact List.mem_cons_self)
      simp only [expired, hk.window_eq, decide_eq_true_eq] at hnot
      omega
  calc max ≤ (h.limiter.allowed.dropWhile (h.limiter.expired now)).length :=
        hk.max_eq.symm.trans_le hfull
    _ = (h.limiter.allowed.dropWhile (h.limiter.expired now)).countP
          fun t => now < t + window := by
        rw [eq_comm, List.countP_eq_length]
        exact fun t ht => decide_eq_true (hyoung t ht)
    _ ≤ _ := (hleft.trans hqueue).countP_le

/-- Calls in order are clear of whatever was forgotten. -/
theorem clear_of_sorted {nows : List ℕ} (hk : Kept max window h)
    (hsorted : nows.Pairwise (· ≤ ·))
    (hpopped : ∀ t ∈ h.popped, ∀ now ∈ nows, t + window ≤ now)
    (hallowed : ∀ t ∈ h.limiter.allowed, ∀ now ∈ nows, t ≤ now) : Along call Clear h nows := by
  induction nows generalizing h with
  | nil => trivial
  | cons now nows ih =>
    obtain ⟨hnow, hrest⟩ := List.pairwise_cons.1 hsorted
    refine ⟨fun t ht => .inl ?_, ih (hk.call now) hrest ?_ ?_⟩
    · rw [hk.window_eq]
      exact hpopped t ht now List.mem_cons_self
    · intro t ht later hlater
      rcases List.mem_append.1 ht with ht | ht
      · exact hpopped t ht later (List.mem_cons_of_mem _ hlater)
      · have hgone := List.mem_takeWhile_imp ht
        have hbefore := hallowed t ((List.takeWhile_sublist _).subset ht) now List.mem_cons_self
        have := hnow later hlater
        simp only [expired, hk.window_eq, decide_eq_true_eq] at hgone
        omega
    · intro t ht later hlater
      have hmem : t ∈ h.limiter.allowed ∨ t = now := by
        obtain ⟨-, ⟨-, -, -, hlimiter⟩ | ⟨-, -, -, hlimiter⟩⟩ := call_cases h now
        · rw [hlimiter] at ht
          exact .inl ((List.dropWhile_sublist _).subset ht)
        · rw [hlimiter] at ht
          rcases List.mem_append.1 ht with ht | ht
          · exact .inl ((List.dropWhile_sublist _).subset ht)
          · exact .inr (List.mem_singleton.1 ht)
      rcases hmem with ht | rfl
      · exact hallowed t ht later (List.mem_cons_of_mem _ hlater)
      · exact hnow later hlater

/-- Calls in order: at most `max` in any interval shorter than the window. -/
theorem bounded_of_sorted (max window : ℕ) {nows : List ℕ} (hsorted : nows.Pairwise (· ≤ ·)) :
    Bounded max window (run call (fresh max window) nows) := by
  refine bounded_of_clear (clear_of_sorted (kept_fresh max window) hsorted ?_ ?_)
  · simp [fresh]
  · simp [fresh, new]

/-- **The limit is kept.**  In every run whose calls come a window away at least from whatever was
forgotten before, no interval shorter than the window holds more than `max` of the calls let
through; and of calls in order one is refused only if `max` were let through less than a window
before it. -/
theorem limit_kept (max window : ℕ) (nows : List ℕ) :
    (Along call Clear (fresh max window) nows →
      ∀ a b, b < a + window → within (run call (fresh max window) nows) a b ≤ max) ∧
    ∀ now, (nows ++ [now]).Pairwise (· ≤ ·) →
      ((run call (fresh max window) nows).limiter.allow now).2 = false →
      max ≤ (run call (fresh max window) nows).passed.countP fun t => now < t + window := by
  have hkept : Kept max window (run call (fresh max window) nows) :=
    run_invariant (fun h now hk => hk.call now) (kept_fresh max window) nows
  refine ⟨fun hclear => ?_, fun now hsorted hrefused => refused_full hkept ?_ hrefused⟩
  · exact bounded_of_clear hclear
  · exact hsorted.sublist ((passed_sublist (fresh max window) nows).append_right [now])

/-- Calls of which one is earlier than the one before it, and by then one was forgotten; and calls
in order, the last of them refused. -/
theorem limit_kept_four :
    (run call (fresh 2 10) [0, 5, 12, 11, 14, 16]).popped = [0, 5] ∧
      within (run call (fresh 2 10) [0, 5, 12, 11, 14, 16]) 10 19 ≤ 2 ∧
      2 ≤ (run call (fresh 2 10) [0, 5, 12]).passed.countP fun t => 14 < t + 10 := by
  refine ⟨by decide, ?_, (limit_kept 2 10 [0, 5, 12]).2 14 (by decide) (by decide)⟩
  exact (limit_kept 2 10 [0, 5, 12, 11, 14, 16]).1
    ⟨by decide, by decide, by decide, by decide, by decide, by decide, trivial⟩ 10 19 (by decide)

/-- Three are let through in nine tenths of a window where two may be: what the third call forgot
still counts for the fourth. -/
theorem limit_exceeded : within (run call (fresh 2 10) [0, 0, 10, 9]) 0 9 = 3 := by decide

end Limiter

end Tun

end Rurge
