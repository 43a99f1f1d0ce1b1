import Mathlib.Data.List.Basic
import Mathlib.Tactic.SplitIfs

/-!
# Brackets

Which brackets of a list pair up when each closing one takes the last opening one that is still
open, and those that find no partner stand for themselves.  `returns n bs` says that `bs` closes the
bracket that `n` others were opened after; `partners d bs` says of each entry of `bs` whether it has
a partner, `d` brackets being open before it; `pending d bs` is how many of those `d` are closed in
`bs`.

Where none is, what follows pairs up as if nothing stood before it (`partners_drop`), and what comes
before pairs up as if nothing followed (`returns_append`).
-/

namespace Brackets

/-- An entry of a list with brackets in it. -/
inductive Bracket
  | opening
  | closing
  | other
  deriving DecidableEq

open Brackets.Bracket

/-- Whether the bracket that `n` others were opened after is closed. -/
def returns : ℕ → List Bracket → Bool
  | _, [] => false
  | n, opening :: bs => returns (n + 1) bs
  | 0, closing :: _ => true
  | n + 1, closing :: bs => returns n bs
  | n, other :: bs => returns n bs

/-- Which entries have a partner, `d` brackets being open. -/
def partners : ℕ → List Bracket → List Bool
  | _, [] => []
  | d, opening :: bs => returns 0 bs :: partners (d + 1) bs
  | 0, closing :: bs => false :: partners 0 bs
  | d + 1, closing :: bs => true :: partners d bs
  | d, other :: bs => false :: partners d bs

/-- How many brackets are open after a list, `d` being open before it. -/
def openAfter : ℕ → List Bracket → ℕ
  | d, [] => d
  | d, opening :: bs => openAfter (d + 1) bs
  | d, closing :: bs => openAfter (d - 1) bs
  | d, other :: bs => openAfter d bs

/-- How many of `d` open brackets are closed. -/
def pending : ℕ → List Bracket → ℕ
  | 0, _ => 0
  | d + 1, bs => pending d bs + (returns d bs).toNat

/-! ### Closing -/

@[simp] theorem returns_opening (n : ℕ) (bs : List Bracket) :
    returns n (opening :: bs) = returns (n + 1) bs := by
  cases n <;> rfl

@[simp] theorem returns_closing_zero (bs : List Bracket) : returns 0 (closing :: bs) = true := rfl

@[simp] theorem returns_closing_succ (n : ℕ) (bs : List Bracket) :
    returns (n + 1) (closing :: bs) = returns n bs := rfl

@[simp] theorem returns_other (n : ℕ) (bs : List Bracket) :
    returns n (other :: bs) = returns n bs := by
  cases n <;> rfl

@[simp] theorem returns_nil (n : ℕ) : returns n [] = false := by
  cases n <;> rfl

/-- The brackets opened later are closed first. -/
theorem returns_pred {n : ℕ} {bs : List Bracket} (h : returns (n + 1) bs = true) :
    returns n bs = true := by
  induction bs generalizing n with
  | nil => simp at h
  | cons b bs ih =>
    cases b with
    | opening =>
      rw [returns_opening] at h ⊢
      exact ih h
    | closing =>
      cases n with
      | zero => rfl
      | succ n => exact ih h
    | other =>
      rw [returns_other] at h ⊢
      exact ih h

theorem returns_of_le {m n : ℕ} {bs : List Bracket} (h : returns n bs = true) (hle : m ≤ n) :
    returns m bs = true := by
  obtain ⟨d, rfl⟩ := Nat.exists_eq_add_of_le hle
  induction d with
  | zero => exact h
  | succ d ih => exact ih (returns_pred h) (Nat.le_add_right m d)

/-- What is closed in a list is closed in a longer one. -/
theorem returns_append_left {n : ℕ} {bs : List Bracket} (h : returns n bs = true)
    (cs : List Bracket) : returns n (bs ++ cs) = true := by
  induction bs generalizing n with
  | nil => simp at h
  | cons b bs ih =>
    cases b with
    | opening =>
      rw [List.cons_append, returns_opening] at *
      exact ih h
    | closing =>
      cases n with
      | zero => rfl
      | succ n => exact ih h
    | other =>
      rw [List.cons_append, returns_other] at *
      exact ih h

/-- What follows closes nothing that was open before. -/
theorem returns_append {bs cs : List Bracket} (h : returns 0 cs = false) (n : ℕ) :
    returns n (bs ++ cs) = returns n bs := by
  induction bs generalizing n with
  | nil =>
    rw [List.nil_append, returns_nil]
    by_contra hne
    have hreturns : returns n cs = true := by simpa using hne
    rw [returns_of_le hreturns (Nat.zero_le n)] at h
    cases h
  | cons b bs ih =>
    cases b with
    | opening => rw [List.cons_append, returns_opening, returns_opening, ih]
    | closing =>
      cases n with
      | zero => rfl
      | succ n => rw [List.cons_append, returns_closing_succ, returns_closing_succ, ih]
    | other => rw [List.cons_append, returns_other, returns_other, ih]

/-- A bracket that is not closed is still open. -/
theorem lt_openAfter {n : ℕ} {bs : List Bracket} (h : returns n bs = false) (d : ℕ) :
    d < openAfter (d + n + 1) bs := by
  induction bs generalizing n with
  | nil =>
    rw [openAfter]
    omega
  | cons b bs ih =>
    cases b with
    | opening =>
      rw [returns_opening] at h
      exact ih h
    | closing =>
      cases n with
      | zero => cases h
      | succ n => exact ih h
    | other =>
      rw [returns_other] at h
      exact ih h

/-! ### Where nothing open is closed later -/

/-- None of the `d` open brackets is closed in what follows. -/
def Settled (d : ℕ) (bs : List Bracket) : Prop := d = 0 ∨ returns 0 bs = false

theorem pending_eq_zero {d : ℕ} {bs : List Bracket} : pending d bs = 0 ↔ Settled d bs := by
  induction d with
  | zero => simp [pending, Settled]
  | succ d ih =>
    rw [pending, Nat.add_eq_zero_iff, ih, Bool.toNat_eq_zero]
    constructor
    · rintro ⟨rfl | hnot, hd⟩
      · exact .inr hd
      · exact .inr hnot
    · rintro (hd | hnot)
      · cases hd
      · refine ⟨.inr hnot, ?_⟩
        by_contra hne
        rw [returns_of_le (by simpa using hne) (Nat.zero_le d)] at hnot
        cases hnot

theorem pending_opening (d : ℕ) (bs : List Bracket) :
    pending (d + 1) bs = pending d (opening :: bs) + (returns 0 bs).toNat := by
  induction d with
  | zero => rfl
  | succ d ih =>
    rw [pending, ih, pending, returns_opening]
    omega

theorem pending_closing (d : ℕ) (bs : List Bracket) :
    pending (d + 1) (closing :: bs) = pending d bs + 1 := by
  induction d with
  | zero => rfl
  | succ d ih =>
    rw [pending, ih, pending, returns_closing_succ]
    omega

theorem pending_other (d : ℕ) (bs : List Bracket) : pending d (other :: bs) = pending d bs := by
  induction d with
  | zero => rfl
  | succ d ih => rw [pending, pending, ih, returns_other]

/-- The brackets below an open one that is not closed are not closed either. -/
theorem pending_drop {n : ℕ} {bs : List Bracket} (h : returns n bs = false) (d : ℕ) :
    pending (d + n) bs = pending n bs := by
  induction d with
  | zero => rw [Nat.zero_add]
  | succ d ih =>
    have hnot : returns (d + n) bs = false := by
      by_contra hne
      rw [returns_of_le (by simpa using hne) (Nat.le_add_left n d)] at h
      cases h
    rw [Nat.succ_add, pending, ih, hnot]
    rfl

/-- Where none of the `d` open brackets is closed, the list pairs up as if nothing were open. -/
theorem partners_drop {n : ℕ} {bs : List Bracket} (h : returns n bs = false) (d : ℕ) :
    partners (d + n) bs = partners n bs := by
  induction bs generalizing n with
  | nil => cases n <;> cases d <;> rfl
  | cons b bs ih =>
    cases b with
    | opening =>
      rw [returns_opening] at h
      rw [partners, partners, Nat.add_assoc, ih h]
    | closing =>
      cases n with
      | zero => cases h
      | succ n =>
        rw [← Nat.add_assoc, partners, partners, ih h]
    | other =>
      rw [returns_other] at h
      rw [partners, partners, ih h]

/-- **Where nothing open is closed later, what came before pairs up as if nothing followed.** -/
theorem settled_append {d : ℕ} {bs cs : List Bracket} (h : Settled (openAfter d bs) cs) :
    Settled d (bs ++ cs) ↔ Settled d bs := by
  rcases h with hzero | hnot
  · cases d with
    | zero => simp [Settled]
    | succ d =>
      have hreturns : returns 0 bs = true := by
        by_contra hne
        have hlt := lt_openAfter (n := 0) (by simpa using hne) d
        rw [Nat.add_zero, hzero] at hlt
        exact absurd hlt (Nat.not_lt_zero d)
      simp [Settled, hreturns, returns_append_left hreturns cs]
  · rw [Settled, Settled, returns_append hnot]

/-! ### Pairing by places -/

/-- The open brackets `os`, the last one first, that are closed in `bs` are noted in `paired`; `n`
others were opened after them. -/
def settle (n : ℕ) : List ℕ → List Bracket → List Bool → List Bool
  | [], _, paired => paired
  | o :: os, bs, paired =>
    settle (n + 1) os bs (if returns n bs = true then paired.set o true else paired)

theorem settle_congr {m n : ℕ} {bs cs : List Bracket}
    (h : ∀ i, returns (m + i) bs = returns (n + i) cs) (os : List ℕ) (paired : List Bool) :
    settle m os bs paired = settle n os cs paired := by
  induction os generalizing m n paired with
  | nil => rfl
  | cons o os ih =>
    have hzero := h 0
    rw [Nat.add_zero, Nat.add_zero] at hzero
    rw [settle, settle, hzero]
    refine ih (fun i => ?_) _
    rw [Nat.add_assoc, Nat.add_assoc, Nat.add_comm 1 i]
    exact h (i + 1)

theorem settle_nil (n : ℕ) (os : List ℕ) (paired : List Bool) : settle n os [] paired = paired := by
  induction os generalizing n with
  | nil => rfl
  | cons o os ih =>
    rw [settle, returns_nil, if_neg Bool.false_ne_true]
    exact ih (n + 1)

/-- What is noted of earlier places leaves the later ones. -/
theorem settle_append {n : ℕ} {os : List ℕ} {bs : List Bracket} {paired : List Bool}
    (h : ∀ o ∈ os, o < paired.length) (rest : List Bool) :
    settle n os bs (paired ++ rest) = settle n os bs paired ++ rest := by
  induction os generalizing n paired with
  | nil => rfl
  | cons o os ih =>
    rw [settle, settle]
    have ho := h o List.mem_cons_self
    split_ifs
    · rw [List.set_append_left _ _ ho]
      refine ih fun o' ho' => ?_
      rw [List.length_set]
      exact h o' (List.mem_cons_of_mem _ ho')
    · exact ih fun o' ho' => h o' (List.mem_cons_of_mem _ ho')

end Brackets
