import Rurge.FakeIp.Pool
import Rurge.Lib.Inverse

/-!
# Where an index stands

Every index that was had is named or held back, and never both; a named one stands in the recency
order or has leases.  `Inv` says so of a state together with the leases outstanding, `Inv s out
(some i)` when the index `i` was taken and is given to nobody yet.  One lemma for each part of the
pool says how it keeps the invariant.
-/

namespace Rurge

namespace FakeIp

namespace State

/-- The invariant of the pool, with the leases outstanding in `out` and perhaps an index that was
taken and not given yet. -/
structure Inv (s : State) (out : List ℕ) (free : Option ℕ) : Prop where
  count : s.count ≤ FAKE_COUNT
  cursor : s.cursor ≤ s.count
  inverse : PartialInverse s.names s.indices
  normal : ∀ i n, s.names i = some n → normalize n = some n
  named : ∀ i, (s.names i).isSome = true → i < s.bound
  heldBelow : ∀ i ∈ s.held, i < s.bound
  heldNodup : s.held.Nodup
  split : ∀ i, i < s.bound → some i ≠ free → (i ∈ s.held ↔ s.names i = none)
  free : ∀ i, free = some i → i < s.bound ∧ s.names i = none ∧ i ∉ s.held
  idleNodup : s.idle.Nodup
  idle : ∀ i, i ∈ s.idle ↔ (s.names i).isSome = true ∧ i ∉ out
  leases : ∀ i, s.leases i = if out.count i = 0 then none else some (out.count i)
  leased : ∀ i ∈ out, (s.names i).isSome = true

theorem bound_le_count {s : State} (h : s.cursor ≤ s.count) : s.bound ≤ s.count := by
  unfold bound
  split_ifs <;> omega

section

variable {s : State} {out : List ℕ} {free : Option ℕ}

theorem Inv.bound_le (h : s.Inv out free) : s.bound ≤ s.count := bound_le_count h.cursor

theorem Inv.not_idle_of_unnamed (h : s.Inv out free) {i : ℕ} (hi : s.names i = none) :
    i ∉ s.idle := by
  intro hm
  have := ((h.idle i).1 hm).1
  simp [hi] at this

theorem Inv.not_leased_of_unnamed (h : s.Inv out free) {i : ℕ} (hi : s.names i = none) :
    i ∉ out := by
  intro hm
  have := h.leased i hm
  simp [hi] at this

theorem Inv.leases_eq_none (h : s.Inv out free) {i : ℕ} : s.leases i = none ↔ i ∉ out := by
  rw [h.leases, ← List.count_eq_zero]
  split_ifs with h0 <;> simp [h0]

/-! ### Taking an index -/

theorem takeFresh_cases (s : State) :
    (s.takeFresh = (none, s) ∧ s.bound = s.count ∧ (s.wrapped = true ∨ s.count ≤ s.cursor)) ∨
    (s.wrapped = false ∧ s.cursor < s.count ∧ s.takeFresh = (some s.cursor, { s with
      cursor := s.cursor + 1
      wrapped := s.cursor + 1 = s.count })) ∨
    (s.count < s.cursor ∧ s.takeFresh = (none, s)) := by
  unfold takeFresh bound
  cases hw : s.wrapped with
  | true => exact Or.inl ⟨by simp, by simp, Or.inl rfl⟩
  | false =>
    rcases lt_trichotomy s.cursor s.count with hlt | heq | hgt
    · exact Or.inr (Or.inl ⟨rfl, hlt, by simp [not_le.2 hlt]⟩)
    · exact Or.inl ⟨by simp [heq], by simp [heq], Or.inr heq.ge⟩
    · exact Or.inr (Or.inr ⟨hgt, by simp [hgt.le]⟩)

/-- The index used longest ago taken out of the names. -/
def dropOldest (s : State) (i : ℕ) (n : Str) (idle : List ℕ) : State :=
  { s with
    idle := idle
    names := Function.update s.names i none
    indices := Function.update s.indices n none }

/-- **What the allocator hands out next**: nothing, when every index was had and none is idle; the
index at the cursor; or the one used longest ago, once every index was had. -/
theorem takeNext_cases (h : s.Inv out free) :
    (s.takeNext = (none, s) ∧ s.bound = s.count ∧ s.idle = []) ∨
    (s.wrapped = false ∧ s.cursor < s.count ∧ s.takeNext = (some s.cursor, { s with
      cursor := s.cursor + 1
      wrapped := s.cursor + 1 = s.count })) ∨
    ∃ i n idle, s.bound = s.count ∧ s.idle = i :: idle ∧ s.names i = some n ∧
      s.takeNext = (some i, s.dropOldest i n idle) := by
  unfold takeNext
  rcases s.takeFresh_cases with ⟨heq, hbound, -⟩ | ⟨hw, hlt, heq⟩ | ⟨hgt, -⟩
  · rw [heq]
    dsimp only
    unfold takeIdle
    cases hidle : s.idle with
    | nil => exact Or.inl ⟨rfl, hbound, rfl⟩
    | cons i idle =>
      refine Or.inr (Or.inr ?_)
      obtain ⟨n, hn⟩ := Option.isSome_iff_exists.1 ((h.idle i).1 (by simp [hidle])).1
      exact ⟨i, n, idle, hbound, rfl, hn, by simp [hn, dropOldest]⟩
  · rw [heq]
    exact Or.inr (Or.inl ⟨hw, hlt, rfl⟩)
  · have := h.cursor
    omega

/-- The index at the cursor is taken. -/
theorem Inv.fresh (h : s.Inv out none) (hw : s.wrapped = false) (hlt : s.cursor < s.count) :
    Inv { s with cursor := s.cursor + 1, wrapped := s.cursor + 1 = s.count } out
      (some s.cursor) := by
  have hbound : s.bound = s.cursor := by simp [bound, hw]
  have hbound' : State.bound { s with
      cursor := s.cursor + 1
      wrapped := s.cursor + 1 = s.count } = s.cursor + 1 := by
    unfold bound
    dsimp only
    split_ifs with heq
    · simpa using (of_decide_eq_true heq).symm
    · rfl
  have hfree : s.names s.cursor = none := by
    by_contra hne
    have := h.named s.cursor (Option.isSome_iff_ne_none.2 hne)
    omega
  refine { h with cursor := hlt, named := ?_, heldBelow := ?_, split := ?_, free := ?_ }
  · intro i hi
    have := h.named i hi
    omega
  · intro i hi
    have := h.heldBelow i hi
    omega
  · intro i hi hne
    have hlt' : i < s.bound := by
      have : i ≠ s.cursor := fun heq => hne (congrArg some heq)
      omega
    exact h.split i hlt' (by simp)
  · intro i hi
    obtain rfl := Option.some.inj hi
    refine ⟨by omega, hfree, fun hm => ?_⟩
    have := h.heldBelow _ hm
    omega

/-- The index used longest ago is taken, and its name goes. -/
theorem Inv.oldest (h : s.Inv out none) {i : ℕ} {n : Str} {idle : List ℕ}
    (hidle : s.idle = i :: idle) (hn : s.names i = some n) :
    (s.dropOldest i n idle).Inv out (some i) := by
  have hnodup := h.idleNodup
  rw [hidle, List.nodup_cons] at hnodup
  have hout : i ∉ out := ((h.idle i).1 (by simp [hidle])).2
  have hlt : i < s.bound := h.named i (by simp [hn])
  have hheld : i ∉ s.held := fun hm => by
    have := (h.split i hlt (by simp)).1 hm
    simp [hn] at this
  have hnames : ∀ j, j ≠ i → (s.dropOldest i n idle).names j = s.names j := fun j hj =>
    Function.update_of_ne hj ..
  have hself : (s.dropOldest i n idle).names i = none := Function.update_self ..
  refine { h with
    inverse := h.inverse.remove hn, normal := ?_, named := ?_, split := ?_, free := ?_,
    idleNodup := hnodup.2, idle := ?_, leased := ?_ }
  · intro j m hj
    by_cases hji : j = i
    · rw [hji, hself] at hj
      cases hj
    · exact h.normal j m (hnames j hji ▸ hj)
  · intro j hj
    by_cases hji : j = i
    · exact hji ▸ hlt
    · exact h.named j (hnames j hji ▸ hj)
  · intro j hj hne
    have hji : j ≠ i := fun heq => hne (congrArg some heq)
    rw [hnames j hji]
    exact h.split j hj (by simp)
  · intro j hj
    obtain rfl := Option.some.inj hj
    exact ⟨hlt, hself, hheld⟩
  · intro j
    have := h.idle j
    rw [hidle, List.mem_cons] at this
    by_cases hji : j = i
    · subst hji
      simp [hnodup.1, dropOldest]
    · rw [hnames j hji, ← this]
      simp [hji, dropOldest]
  · intro j hj
    rw [hnames j (fun heq => hout (heq ▸ hj))]
    exact h.leased j hj

/-- What taking an index leaves as it was. -/
structure Frame (s s' : State) (i : ℕ) : Prop where
  count : s'.count = s.count
  names : ∀ j, j ≠ i → s'.names j = s.names j
  indices : ∀ n, s.indices n = none → s'.indices n = none

theorem frame_dropOldest (s : State) (i : ℕ) (n : Str) (idle : List ℕ) :
    Frame s (s.dropOldest i n idle) i := by
  refine ⟨rfl, fun j hj => Function.update_of_ne hj .., fun m hm => ?_⟩
  unfold dropOldest
  by_cases hmn : m = n
  · simp [hmn]
  · exact (Function.update_of_ne hmn ..).trans hm

/-- **An index taken from the allocator stands nowhere else.** -/
theorem Inv.takeNext (h : s.Inv out none) {i : ℕ} {s' : State}
    (ht : s.takeNext = (some i, s')) : s'.Inv out (some i) ∧ Frame s s' i ∧ s'.held = s.held ∧
      s'.heldUntil = s.heldUntil := by
  rcases takeNext_cases h with ⟨heq, -⟩ | ⟨hw, hlt, heq⟩ | ⟨j, n, idle, -, hidle, hn, heq⟩
  · rw [heq] at ht
    cases ht
  · rw [heq] at ht
    cases ht
    exact ⟨h.fresh hw hlt, ⟨rfl, fun _ _ => rfl, fun _ => id⟩, rfl, rfl⟩
  · rw [heq] at ht
    cases ht
    exact ⟨h.oldest hidle hn, frame_dropOldest .., rfl, rfl⟩

/-- An index that was held back is let go. -/
theorem Inv.letGo (h : s.Inv out none) {i : ℕ} {held : List ℕ} (hheld : s.held = i :: held) :
    Inv { s with held := held } out (some i) := by
  have hnodup := h.heldNodup
  rw [hheld, List.nodup_cons] at hnodup
  have hlt : i < s.bound := h.heldBelow i (by simp [hheld])
  refine { h with heldBelow := ?_, heldNodup := hnodup.2, split := ?_, free := ?_ }
  · exact fun j hj => h.heldBelow j (by simp [hheld, hj])
  · intro j hj hne
    have hji : j ≠ i := fun heq => hne (congrArg some heq)
    rw [← h.split j hj (by simp), hheld]
    simp [hji]
  · intro j hj
    obtain rfl := Option.some.inj hj
    exact ⟨hlt, (h.split _ hlt (by simp)).1 (by simp [hheld]), hnodup.1⟩

/-- **An index taken stands nowhere else.** -/
theorem Inv.take (h : s.Inv out none) {now i : ℕ} {s' : State} (ht : s.take now = (some i, s')) :
    s'.Inv out (some i) ∧ Frame s s' i := by
  unfold State.take at ht
  split at ht
  · rename_i j held hheld
    cases ht
    split_ifs at hheld
    exact ⟨h.letGo hheld, ⟨rfl, fun _ _ => rfl, fun _ => id⟩⟩
  · exact ⟨(h.takeNext ht).1, (h.takeNext ht).2.1⟩

/-- **Nothing is taken only when nothing is there**: no index that was never had, none that is held
back and let go, none that is idle. -/
theorem Inv.take_none (h : s.Inv out none) {now : ℕ} {s' : State}
    (ht : s.take now = (none, s')) : s' = s ∧ s.bound = s.count ∧ s.idle = [] ∧
      ¬ (s.held ≠ [] ∧ ∃ until_, s.heldUntil = some until_ ∧ until_ ≤ now) := by
  unfold State.take at ht
  split at ht
  · cases ht
  · rename_i hheld
    rcases takeNext_cases h with ⟨heq, hbound, hidle⟩ | ⟨-, -, heq⟩ | ⟨j, n, idle, -, -, -, heq⟩
    · rw [heq] at ht
      cases ht
      refine ⟨rfl, hbound, hidle, ?_⟩
      rintro ⟨hne, until_, huntil, hle⟩
      rw [if_pos (by simp [huntil, hle])] at hheld
      exact hne hheld
    · rw [heq] at ht
      cases ht
    · rw [heq] at ht
      cases ht

/-! ### Giving, holding and using an index -/

/-- The taken index is held back. -/
theorem Inv.hold {i : ℕ} (h : s.Inv out (some i)) :
    Inv { s with held := s.held ++ [i] } out none := by
  obtain ⟨hlt, hname, hheld⟩ := h.free i rfl
  refine { h with heldBelow := ?_, heldNodup := ?_, split := ?_, free := by simp }
  · intro j hj
    rcases List.mem_append.1 hj with hj | hj
    · exact h.heldBelow j hj
    · exact List.mem_singleton.1 hj ▸ hlt
  · rw [List.nodup_append]
    refine ⟨h.heldNodup, by simp, ?_⟩
    rintro j hj k hk rfl
    exact hheld (List.mem_singleton.1 hk ▸ hj)
  · intro j hj _
    by_cases hji : j = i
    · simp [hji, hname]
    · rw [← h.split j hj (by simpa using hji)]
      simp [hji]

/-- The taken index gets a name. -/
theorem Inv.enter {i : ℕ} (h : s.Inv out (some i)) {n : Str} (hn : normalize n = some n)
    (hnew : s.indices n = none) : (s.enter i n).Inv out none := by
  obtain ⟨hlt, hname, hheld⟩ := h.free i rfl
  have hnames : ∀ j, j ≠ i → (s.enter i n).names j = s.names j := fun j hj =>
    Function.update_of_ne hj ..
  have hself : (s.enter i n).names i = some n := Function.update_self ..
  refine { h with
    inverse := h.inverse.insert hname hnew, normal := ?_, named := ?_, split := ?_,
    free := by simp, idleNodup := Recency.nodup_put h.idleNodup i, idle := ?_, leased := ?_ }
  · intro j m hj
    by_cases hji : j = i
    · rw [hji, hself] at hj
      exact Option.some.inj hj ▸ hn
    · exact h.normal j m (hnames j hji ▸ hj)
  · intro j hj
    by_cases hji : j = i
    · exact hji ▸ hlt
    · exact h.named j (hnames j hji ▸ hj)
  · intro j hj _
    by_cases hji : j = i
    · rw [hji, hself]
      exact iff_of_false hheld (by simp)
    · rw [hnames j hji]
      exact h.split j hj (by simpa using hji)
  · intro j
    rw [show (s.enter i n).idle = Recency.put s.idle i from rfl, Recency.mem_put h.idleNodup,
      h.idle]
    by_cases hji : j = i
    · subst hji
      simp [hself, h.not_leased_of_unnamed hname]
    · simp [hji, hnames j hji]
  · intro j hj
    rw [hnames j (fun heq => h.not_leased_of_unnamed hname (heq ▸ hj))]
    exact h.leased j hj

theorem Inv.give {i : ℕ} (h : s.Inv out (some i)) {n : Str} (hn : normalize n = some n)
    (hnew : s.indices n = none) : (s.give i n).Inv out none :=
  { h.enter hn hnew with }

theorem Inv.refresh (h : s.Inv out none) (i : ℕ) : (s.refresh i).Inv out none :=
  { h with
    idleNodup := Recency.nodup_promote h.idleNodup i
    idle := fun j => (Recency.mem_promote h.idleNodup).trans (h.idle j) }

theorem Inv.takeIfDirty (h : s.Inv out none) : s.takeIfDirty.2.Inv out none := { h with }

end

end State

end FakeIp

end Rurge
