import Rurge.Quic.Crypto

/-!
# Reassembly of the CRYPTO bytes

The pieces are the canonical ones of the partial string that was delivered, whatever the order of
the frames.  `add_spec` says what one frame does to them, `reassembly` what any number of them do.
-/

namespace Rurge

namespace Quic

namespace Pieces

open Segments

/-! ### Filling in -/

theorem length_overwrite (slots bytes : List UInt8) :
    (overwrite slots bytes).length = slots.length := by
  fun_induction overwrite slots bytes <;> simp_all

theorem getElem?_overwrite (slots bytes : List UInt8) {j : ℕ} (hj : j < slots.length) :
    (overwrite slots bytes)[j]? = bytes[j]?.or slots[j]? := by
  induction slots generalizing bytes j with
  | nil => simp at hj
  | cons slot slots ih =>
    cases bytes with
    | nil => simp [overwrite]
    | cons byte bytes =>
      cases j with
      | zero => rfl
      | succ j => exact ih bytes (Nat.lt_of_succ_lt_succ hj)

/-- A stretch of a list written over. -/
theorem getElem?_written {into bytes : List UInt8} {d t j : ℕ} (ht : d + t ≤ into.length) :
    (into.take d ++ overwrite ((into.drop d).take t) bytes ++ into.drop (d + t))[j]? =
      if d ≤ j ∧ j < d + t then bytes[j - d]?.or into[j]? else into[j]? := by
  have hd : (into.take d).length = d := by
    rw [List.length_take]
    omega
  have hmid : (overwrite ((into.drop d).take t) bytes).length = t := by
    rw [length_overwrite, List.length_take, List.length_drop]
    omega
  rcases Nat.lt_or_ge j d with hlt | hge
  · rw [List.append_assoc, List.getElem?_append_left (by omega), List.getElem?_take_of_lt hlt,
      if_neg (by omega)]
  · rcases Nat.lt_or_ge j (d + t) with hlt | hge'
    · rw [List.getElem?_append_left (by rw [List.length_append]; omega),
        List.getElem?_append_right (by omega), hd, getElem?_overwrite, if_pos ⟨hge, hlt⟩,
        List.getElem?_take_of_lt (by omega), List.getElem?_drop]
      · congr 2
        omega
      · rw [List.length_take, List.length_drop]
        omega
    · rw [List.getElem?_append_right (by rw [List.length_append]; omega), List.length_append, hd,
        hmid, List.getElem?_drop, if_neg (by omega)]
      congr 1
      omega

theorem length_fillFrom {into : List UInt8} {from_ to_ : ℕ} (h : into.length = to_ - from_)
    (start len : ℕ) (bytes : List UInt8) :
    (fillFrom into from_ to_ start len bytes).length = into.length := by
  unfold fillFrom
  dsimp only
  split_ifs
  · rfl
  · simp only [List.length_append, length_overwrite, List.length_take, List.length_drop]
    omega

/-- **What is filled in**: within its range, the bytes where they reach and else what was there. -/
theorem get_fillFrom {into bytes : List UInt8} {from_ to_ start i : ℕ}
    (hinto : into.length = to_ - from_) (hi : from_ ≤ i ∧ i < to_) :
    get (from_, fillFrom into from_ to_ start bytes.length bytes) i =
      (get (start, bytes) i).or (get (from_, into) i) := by
  obtain ⟨hfrom, hto⟩ := hi
  have hmiss : i < start ∨ start + bytes.length ≤ i → get (start, bytes) i = none :=
    fun h => get_eq_none.2 h
  unfold fillFrom
  dsimp only
  split_ifs with hnone
  · rw [hmiss (by omega), Option.none_or]
  · rw [show ∀ l, get (from_, l) i = l[i - from_]? from fun l => if_pos hfrom,
      show get (from_, into) i = into[i - from_]? from if_pos hfrom,
      getElem?_written (by omega)]
    split_ifs with hin
    · have hstart : start ≤ i := by omega
      rw [show get (start, bytes) i = bytes[i - start]? from if_pos hstart,
        List.getElem?_take_of_lt (by omega), List.getElem?_drop]
      congr 2
      omega
    · rw [hmiss (by omega), Option.none_or]

/-- Pieces filled in one after the other. -/
theorem get_foldl_fillFrom {into : List UInt8} {from_ to_ i : ℕ} {ps : List (ℕ × List UInt8)}
    (hps : ps.Pairwise fun p q => stop p < q.1) (hinto : into.length = to_ - from_)
    (hi : from_ ≤ i ∧ i < to_) :
    get (from_, ps.foldl (fun into p => fillFrom into from_ to_ p.1 p.2.length p.2) into) i =
      (cover ps i).or (get (from_, into) i) := by
  induction ps generalizing into with
  | nil => simp
  | cons p ps ih =>
    rw [List.pairwise_cons] at hps
    rw [List.foldl_cons, ih hps.2 ((length_fillFrom hinto ..).trans hinto), get_fillFrom hinto hi,
      cover_cons]
    cases hp : get p i with
    | none => simp
    | some v =>
      -- where this piece is, none of the later ones are
      have hin := get_isSome.1 (Option.isSome_iff_exists.2 ⟨v, hp⟩)
      have hrest : cover ps i = none := cover_eq_none.2 fun q hq => by
        have := hps.1 q hq
        exact get_eq_none.2 (Or.inl (by omega))
      rw [hrest]
      rfl

theorem length_foldl_fillFrom {into : List UInt8} {from_ to_ : ℕ} (ps : List (ℕ × List UInt8))
    (hinto : into.length = to_ - from_) :
    (ps.foldl (fun into p => fillFrom into from_ to_ p.1 p.2.length p.2) into).length =
      to_ - from_ := by
  induction ps generalizing into with
  | nil => exact hinto
  | cons p ps ih => exact ih ((length_fillFrom hinto ..).trans hinto)

/-! ### Joining -/

theorem splitLongest_eq_none {ps : List (ℕ × List UInt8)} : splitLongest ps = none ↔ ps = [] := by
  cases ps with
  | nil => simp [splitLongest]
  | cons p ps =>
    refine iff_of_false ?_ (by simp)
    unfold splitLongest
    split
    · simp
    · split_ifs <;> simp

theorem splitLongest_eq_some {ps before after : List (ℕ × List UInt8)} {kept : ℕ × List UInt8}
    (h : splitLongest ps = some (before, kept, after)) : ps = before ++ kept :: after := by
  induction ps generalizing before kept after with
  | nil => cases h
  | cons p ps ih =>
    unfold splitLongest at h
    split at h
    · cases h
      rfl
    · rename_i b q a hs
      split_ifs at h
      · cases h
        rw [ih hs]
        rfl
      · cases h
        rfl

section

variable {offset : ℕ} {data : List UInt8} {met before after : List (ℕ × List UInt8)}
  {kept : ℕ × List UInt8}

/-- What is between the first and the last of the pieces met is delivered or held. -/
theorem covered_of_met (hmet : Canonical met)
    (htouch : ∀ p ∈ met, offset ≤ stop p ∧ p.1 ≤ offset + data.length) {first last : ℕ × List UInt8}
    (hfirst : met.head? = some first) (hlast : met.getLast? = some last) {i : ℕ}
    (hi : min offset first.1 ≤ i ∧ i < max (offset + data.length) (stop last)) :
    ((cover met i).or (get (offset, data) i)).isSome = true := by
  rw [Option.isSome_or]
  by_cases hdata : offset ≤ i ∧ i < offset + data.length
  · rw [get_isSome.2 (show (offset, data).1 ≤ i ∧ i < stop (offset, data) from hdata), Bool.or_true]
  · have hheld : ∃ p ∈ met, p.1 ≤ i ∧ i < stop p := by
      rcases Nat.lt_or_ge i offset with hlt | hge
      · have hmem := List.mem_of_head? hfirst
        have := htouch first hmem
        exact ⟨first, hmem, by omega⟩
      · have hmem := List.mem_of_getLast? hlast
        have := htouch last hmem
        exact ⟨last, hmem, by omega⟩
    obtain ⟨p, hp, hin⟩ := hheld
    obtain ⟨v, hv⟩ := Option.isSome_iff_exists.1 (get_isSome.2 hin)
    rw [cover_of_get hmet.apart hp hv]
    rfl

/-- The bytes of a stretch beside the piece that is kept. -/
theorem get_filled {others : List (ℕ × List UInt8)}
    (hothers : others.Pairwise fun p q => stop p < q.1)
    {from_ to_ i : ℕ} (hi : from_ ≤ i ∧ i < to_)
    (hcovered : ((cover others i).or (get (offset, data) i)).isSome = true) :
    get (from_, others.foldl (fun into p => fillFrom into from_ to_ p.1 p.2.length p.2)
      (fillFrom (List.replicate (to_ - from_) 0) from_ to_ offset data.length data)) i =
      (cover others i).or (get (offset, data) i) := by
  have hzeros : (List.replicate (to_ - from_) (0 : UInt8)).length = to_ - from_ :=
    List.length_replicate
  rw [get_foldl_fillFrom hothers ((length_fillFrom hzeros ..).trans hzeros) hi,
    get_fillFrom hzeros hi, ← Option.or_assoc]
  obtain ⟨v, hv⟩ := Option.isSome_iff_exists.1 hcovered
  rw [hv]
  rfl

theorem length_filled (others : List (ℕ × List UInt8)) (from_ to_ : ℕ) :
    (others.foldl (fun into p => fillFrom into from_ to_ p.1 p.2.length p.2)
      (fillFrom (List.replicate (to_ - from_) 0) from_ to_ offset data.length data)).length =
      to_ - from_ := by
  have hzeros : (List.replicate (to_ - from_) (0 : UInt8)).length = to_ - from_ :=
    List.length_replicate
  exact length_foldl_fillFrom others ((length_fillFrom hzeros ..).trans hzeros)

/-- The first piece starts before the others and the last one ends behind them. -/
theorem canonical_bounds (hmet : Canonical met) {first last p : ℕ × List UInt8}
    (hfirst : met.head? = some first) (hlast : met.getLast? = some last) (hp : p ∈ met) :
    first.1 ≤ p.1 ∧ stop p ≤ stop last := by
  constructor
  · obtain ⟨rest, rfl⟩ := List.head?_eq_some_iff.1 hfirst
    rcases List.mem_cons.1 hp with rfl | hp
    · exact le_rfl
    · have h₁ := (List.pairwise_cons.1 hmet.apart).1 p hp
      have h₂ := hmet.start_lt
      omega
  · obtain ⟨rest, rfl⟩ := List.getLast?_eq_some_iff.1 hlast
    rcases List.mem_append.1 hp with hp | hp
    · have h₁ := (List.pairwise_append.1 hmet.apart).2.2 p hp last (by simp)
      unfold stop at *
      omega
    · rw [List.mem_singleton.1 hp]

/-- The piece that is kept, with what is written before and after it. -/
theorem get_beside {start : ℕ} {b a : List UInt8} (hb : b.length = kept.1 - start)
    (hle : start ≤ kept.1) (i : ℕ) : get (start, b ++ kept.2 ++ a) i =
      ((get (start, b) i).or (get kept i)).or (get (stop kept, a) i) := by
  rw [get_append, get_append, List.length_append, hb, ← Nat.add_assoc,
    Nat.add_sub_cancel' hle]
  rfl

/-- **What is joined holds what the pieces met and the data hold.** -/
theorem get_join (hmet : Canonical met)
    (htouch : ∀ p ∈ met, offset ≤ stop p ∧ p.1 ≤ offset + data.length)
    (hsplit : met = before ++ kept :: after) (i : ℕ) :
    get (join offset data met kept (before ++ after)) i =
      (cover met i).or (get (offset, data) i) := by
  have hne : met ≠ [] := by simp [hsplit]
  have hkept : kept ∈ met := by simp [hsplit]
  obtain ⟨first, hfirst⟩ := Option.isSome_iff_exists.1 (List.isSome_head?.2 hne)
  obtain ⟨last, hlast⟩ := Option.isSome_iff_exists.1 (List.getLast?_isSome.2 hne)
  have hothers : (before ++ after).Pairwise fun p q => stop p < q.1 := by
    refine hmet.apart.sublist ?_
    rw [hsplit]
    exact (List.sublist_cons_self kept after).append_left before
  have hcover : get kept i = none → cover met i = cover (before ++ after) i := by
    intro hnone
    rw [hsplit, cover_append, cover_cons, hnone, Option.none_or, cover_append]
  obtain ⟨hstart, hstop⟩ := canonical_bounds hmet hfirst hlast hkept
  unfold join
  rw [hfirst, hlast]
  dsimp only [Option.elim_some]
  generalize hs : min offset first.1 = start
  generalize he : max (offset + data.length) (stop last) = end_
  have hwithin : kept.1 ≤ stop kept := Nat.le_add_right _ _
  rw [get_beside (length_filled ..) (by omega)]
  have hb : ∀ l : List UInt8, l.length = kept.1 - start →
      (i < start ∨ kept.1 ≤ i) → get (start, l) i = none := by
    intro l hl hi
    refine get_eq_none.2 ?_
    show i < start ∨ start + l.length ≤ i
    omega
  have ha : ∀ l : List UInt8, l.length = end_ - stop kept →
      (i < stop kept ∨ end_ ≤ i) → get (stop kept, l) i = none := by
    intro l hl hi
    refine get_eq_none.2 ?_
    show i < stop kept ∨ stop kept + l.length ≤ i
    omega
  by_cases hin : start ≤ i ∧ i < end_
  · have hcovered := covered_of_met hmet htouch hfirst hlast (hs ▸ he ▸ hin)
    cases hk : get kept i with
    | some v =>
      have hi := get_isSome.1 (Option.isSome_iff_exists.2 ⟨v, hk⟩)
      rw [hb _ (length_filled ..) (Or.inr hi.1), cover_of_get hmet.apart hkept hk]
      rfl
    | none =>
      rw [hcover hk] at hcovered ⊢
      rcases get_eq_none.1 hk with hi | hi
      · rw [get_filled hothers ⟨hin.1, hi⟩ hcovered, ha _ (length_filled ..) (by omega)]
        simp
      · rw [get_filled hothers ⟨hi, hin.2⟩ hcovered, hb _ (length_filled ..) (by omega)]
        simp
  · have hnone : ∀ p ∈ met, get p i = none := by
      intro p hp
      obtain ⟨h₁, h₂⟩ := canonical_bounds hmet hfirst hlast hp
      exact get_eq_none.2 (by omega)
    have hdata : get (offset, data) i = none := get_eq_none.2 (by unfold stop; dsimp only; omega)
    rw [hb _ (length_filled ..) (by omega), ha _ (length_filled ..) (by omega),
      hnone kept hkept, cover_eq_none.2 hnone, hdata]
    rfl

end

/-! ### One frame -/

/-- Two pieces say different things of a position. -/
def Conflict (offset : ℕ) (data : List UInt8) (q : ℕ × List UInt8) : Prop :=
  ∃ i v w, get q i = some v ∧ get (offset, data) i = some w ∧ v ≠ w

theorem differs_iff {offset : ℕ} {data : List UInt8} {q : ℕ × List UInt8} :
    differs offset data q = true ↔ Conflict offset data q := by
  unfold differs
  dsimp only
  generalize hfrom : max offset q.1 = from_
  generalize hto : min (offset + data.length) (stop q) = to_
  have hstop : stop q = q.1 + q.2.length := rfl
  have hget : ∀ i, from_ ≤ i → i < to_ →
      get (offset, data) i = data[i - offset]? ∧ get q i = q.2[i - q.1]? := by
    intro i h₁ h₂
    constructor
    · exact if_pos (by dsimp only; omega)
    · exact if_pos (by omega)
  have hslice : (data.drop (from_ - offset)).take (to_ - from_) =
      (q.2.drop (from_ - q.1)).take (to_ - from_) ↔
      ∀ i, from_ ≤ i → i < to_ → get (offset, data) i = get q i := by
    constructor
    · intro h i h₁ h₂
      have := congrArg (·[i - from_]?) h
      simp only [List.getElem?_take_of_lt (show i - from_ < to_ - from_ by omega),
        List.getElem?_drop] at this
      rw [(hget i h₁ h₂).1, (hget i h₁ h₂).2,
        show i - offset = from_ - offset + (i - from_) by omega, this]
      congr 1
      omega
    · intro h
      refine List.ext_getElem? fun j => ?_
      by_cases hj : j < to_ - from_
      · rw [List.getElem?_take_of_lt hj, List.getElem?_take_of_lt hj, List.getElem?_drop,
          List.getElem?_drop]
        have := h (from_ + j) (by omega) (by omega)
        rw [(hget _ (by omega) (by omega)).1, (hget _ (by omega) (by omega)).2] at this
        rw [show from_ - offset + j = from_ + j - offset by omega, this]
        congr 1
        omega
      · rw [List.getElem?_eq_none (by rw [List.length_take]; omega),
          List.getElem?_eq_none (by rw [List.length_take]; omega)]
  rw [Bool.and_eq_true, decide_eq_true_eq, bne_iff_ne, ne_eq, hslice]
  constructor
  · rintro ⟨-, hne⟩
    push Not at hne
    obtain ⟨i, h₁, h₂, hne⟩ := hne
    obtain ⟨v, hv⟩ := Option.isSome_iff_exists.1 (get_isSome.2 (show q.1 ≤ i ∧ i < stop q by omega))
    obtain ⟨w, hw⟩ := Option.isSome_iff_exists.1
      (get_isSome.2 (show (offset, data).1 ≤ i ∧ i < stop (offset, data) by
        unfold stop
        dsimp only
        omega))
    refine ⟨i, v, w, hv, hw, ?_⟩
    rintro rfl
    exact hne (hw.trans hv.symm)
  · rintro ⟨i, v, w, hv, hw, hne⟩
    obtain ⟨h₁, h₂⟩ := get_isSome.1 (Option.isSome_iff_exists.2 ⟨v, hv⟩)
    obtain ⟨h₃, h₄⟩ := get_isSome.1 (Option.isSome_iff_exists.2 ⟨w, hw⟩)
    have h₄ : i < offset + data.length := h₄
    have h₃ : offset ≤ i := h₃
    refine ⟨by omega, fun h => hne ?_⟩
    have := h i (by omega) (by omega)
    rw [hv, hw] at this
    exact (Option.some.inj this).symm

/-- What adding a frame does once the pieces it meets are found. -/
theorem add_met {p : Pieces} {l met r : List (ℕ × List UInt8)} {offset : ℕ} {data : List UInt8}
    (hend : offset + data.length ≤ MAX_HELLO) (hdata : data ≠ [])
    (hps : p.pieces = l ++ met ++ r)
    (hl : (p.pieces.takeWhile fun q => stop q < offset) = l)
    (hlm : (p.pieces.takeWhile fun q => q.1 ≤ offset + data.length) = l ++ met) :
    p.add offset data =
      if met.any (differs offset data) then .error CHANGED
      else if met.length = 1 ∧ met.all fun q => q.1 ≤ offset ∧ offset + data.length ≤ stop q then
        .ok p
      else match splitLongest met with
        | none =>
          let pieces := l ++ (offset, data) :: p.pieces.drop l.length
          if 32 < pieces.length then .error TOO_MANY else seeHead { p with pieces := pieces }
        | some (before, kept, after) =>
          seeHead { p with
            pieces := l ++ join offset data met kept (before ++ after) :: r } := by
  have h64 : checkedAdd offset data.length = some (offset + data.length) := by
    refine if_pos ?_
    have : MAX_HELLO < 2 ^ 64 := by decide
    omega
  have htake : p.pieces.take (l ++ met).length = l ++ met := by
    rw [hps]
    exact List.take_left
  have hdrop : p.pieces.drop (l ++ met).length = r := by
    rw [hps]
    exact List.drop_left
  have hfirst : p.pieces.take l.length = l := by
    rw [hps, List.append_assoc]
    exact List.take_left
  have hcount : (l ++ met).length - l.length = met.length := by
    rw [List.length_append]
    omega
  unfold add
  rw [h64]
  dsimp only
  rw [if_neg (not_lt.2 hend), if_neg hdata, hl, hlm, htake, hdrop, hfirst, hcount]
  cases hsplit : splitLongest met <;> simp only [List.drop_left, hsplit]

/-- **What adding a frame does**, by the pieces before it, those it meets and those behind it. -/
theorem add_cases {p : Pieces} (hp : Canonical p.pieces) (offset : ℕ) (data : List UInt8) :
    (MAX_HELLO < offset + data.length ∧ p.add offset data = .error BEYOND) ∨
    offset + data.length ≤ MAX_HELLO ∧ (data = [] ∧ p.add offset data = .ok p ∨
    data ≠ [] ∧ ∃ l met r, p.pieces = l ++ met ++ r ∧ (∀ q ∈ l, stop q < offset) ∧
      (∀ q ∈ met, offset ≤ stop q ∧ q.1 ≤ offset + data.length) ∧
      (∀ q ∈ r, offset + data.length < q.1) ∧
      ((∃ q ∈ met, Conflict offset data q) ∧ p.add offset data = .error CHANGED ∨
      (∀ q ∈ met, ¬ Conflict offset data q) ∧
        ((∃ q, met = [q] ∧ q.1 ≤ offset ∧ offset + data.length ≤ stop q ∧
          p.add offset data = .ok p) ∨
        (met = [] ∧ p.add offset data =
          if 32 < (l ++ (offset, data) :: r).length then .error TOO_MANY
          else seeHead { p with pieces := l ++ (offset, data) :: r }) ∨
        ∃ before kept after, met = before ++ kept :: after ∧ p.add offset data =
          seeHead { p with
            pieces := l ++ join offset data met kept (before ++ after) :: r }))) := by
  by_cases hlong : MAX_HELLO < offset + data.length
  · refine Or.inl ⟨hlong, ?_⟩
    unfold add checkedAdd
    by_cases h64 : offset + data.length < 2 ^ 64
    · rw [if_pos h64]
      exact if_pos hlong
    · rw [if_neg h64]
  · have h64 : checkedAdd offset data.length = some (offset + data.length) := by
      refine if_pos ?_
      have : MAX_HELLO < 2 ^ 64 := by decide
      omega
    refine Or.inr ⟨not_lt.1 hlong, ?_⟩
    by_cases hdata : data = []
    · refine Or.inl ⟨hdata, ?_⟩
      unfold add
      rw [h64]
      dsimp only
      rw [if_neg hlong, if_pos hdata]
    · obtain ⟨l, met, r, hps, hl, hlm, hbefore, hmet, hafter⟩ :=
        hp.exists_met (Nat.le_add_right offset data.length)
      have hdrop : p.pieces.drop (l ++ met).length = r := by
        rw [hps]
        exact List.drop_left
      refine Or.inr ⟨hdata, l, met, r, hps, hbefore, hmet, hafter, ?_⟩
      have hadd := add_met (not_lt.1 hlong) hdata hps hl hlm
      by_cases hany : ∃ q ∈ met, Conflict offset data q
      · refine Or.inl ⟨hany, ?_⟩
        rw [hadd, if_pos]
        obtain ⟨q, hq, hconflict⟩ := hany
        exact List.any_eq_true.2 ⟨q, hq, differs_iff.2 hconflict⟩
      · push Not at hany
        have hnone : ¬ met.any (differs offset data) = true := by
          rw [List.any_eq_true]
          rintro ⟨q, hq, hdiff⟩
          exact hany q hq (differs_iff.1 hdiff)
        rw [if_neg hnone] at hadd
        refine Or.inr ⟨hany, ?_⟩
        by_cases hinside : met.length = 1 ∧
            (met.all fun q => q.1 ≤ offset ∧ offset + data.length ≤ stop q) = true
        · rw [if_pos hinside] at hadd
          obtain ⟨hone, hall⟩ := hinside
          obtain ⟨q, rfl⟩ := List.length_eq_one_iff.1 hone
          have hq : q.1 ≤ offset ∧ offset + data.length ≤ stop q := by simpa using hall
          exact Or.inl ⟨q, rfl, hq.1, hq.2, hadd⟩
        · rw [if_neg hinside] at hadd
          refine Or.inr ?_
          cases hsplit : splitLongest met with
          | none =>
            obtain rfl := splitLongest_eq_none.1 hsplit
            rw [List.append_nil] at hdrop
            rw [hsplit, hdrop] at hadd
            exact Or.inl ⟨rfl, hadd⟩
          | some e =>
            obtain ⟨before, kept, after⟩ := e
            rw [hsplit] at hadd
            exact Or.inr ⟨before, kept, after, splitLongest_eq_some hsplit, hadd⟩

/-! ### The head -/

/-- The partial string begins with a whole ClientHello: `bytes`, its type, its length and its
body. -/
def Found (c : ℕ → Option UInt8) (bytes : List UInt8) : Prop :=
  ∃ b₁ b₂ b₃ body, bytes = 1 :: b₁ :: b₂ :: b₃ :: body ∧
    body.length = (b₁.toNat * 256 + b₂.toNat) * 256 + b₃.toNat ∧
    ∀ i < bytes.length, c i = bytes[i]?

/-- A partial string begins with one ClientHello at most. -/
theorem Found.unique {c : ℕ → Option UInt8} {bytes bytes' : List UInt8} (h : Found c bytes)
    (h' : Found c bytes') : bytes = bytes' := by
  obtain ⟨b₁, b₂, b₃, body, rfl, hbody, hc⟩ := h
  obtain ⟨b₁', b₂', b₃', body', rfl, hbody', hc'⟩ := h'
  have heads : ∀ i < 4,
      (1 :: b₁ :: b₂ :: b₃ :: body)[i]? = (1 :: b₁' :: b₂' :: b₃' :: body')[i]? := by
    intro i hi
    rw [← hc i (by simp only [List.length_cons]; omega),
      ← hc' i (by simp only [List.length_cons]; omega)]
  have h₁ := heads 1 (by decide)
  have h₂ := heads 2 (by decide)
  have h₃ := heads 3 (by decide)
  simp only [List.getElem?_cons_succ, List.getElem?_cons_zero, Option.some.injEq] at h₁ h₂ h₃
  subst h₁ h₂ h₃
  refine List.ext_getElem? fun i => ?_
  by_cases hi : i < body.length + 4
  · rw [← hc i (by simpa only [List.length_cons] using hi),
      ← hc' i (by simp only [List.length_cons]; omega)]
  · rw [List.getElem?_eq_none (by simp only [List.length_cons]; omega),
      List.getElem?_eq_none (by simp only [List.length_cons]; omega)]

/-- More bytes do not undo a ClientHello. -/
theorem Found.mono {c c' : ℕ → Option UInt8} (hmono : ∀ i v, c i = some v → c' i = some v)
    {bytes : List UInt8} (h : Found c bytes) : Found c' bytes := by
  obtain ⟨b₁, b₂, b₃, body, rfl, hbody, hc⟩ := h
  refine ⟨b₁, b₂, b₃, body, rfl, hbody, fun i hi => ?_⟩
  rw [List.getElem?_eq_getElem hi]
  exact hmono i _ ((hc i hi).trans (List.getElem?_eq_getElem hi))

/-- The length that is remembered is that of the ClientHello that is there. -/
def Remembers (p : Pieces) : Prop :=
  ∀ n, p.whole = some n ↔ ∃ bytes, Found (cover p.pieces) bytes ∧ bytes.length = n

/-- The head stands in the first piece, which begins at zero. -/
theorem Found.exists_piece {ps : List (ℕ × List UInt8)} (hps : Canonical ps) {bytes : List UInt8}
    (h : Found (cover ps) bytes) :
    ∃ kept rest, ps = (0, kept) :: rest ∧ kept.take bytes.length = bytes ∧
      bytes.length ≤ kept.length := by
  obtain ⟨b₁, b₂, b₃, body, hbytes, -, hc⟩ := h
  have hpos : 0 < bytes.length := by simp [hbytes]
  cases ps with
  | nil =>
    have := hc 0 hpos
    simp [hbytes] at this
  | cons p ps =>
    obtain ⟨start, kept⟩ := p
    have hzero : start = 0 := by
      by_contra hne
      have := hc 0 hpos
      rw [hps.cover_before (show 0 < start by omega)] at this
      simp [hbytes] at this
    subst hzero
    have hstop : stop (0, kept) = kept.length := Nat.zero_add _
    have hlength : bytes.length ≤ kept.length := by
      by_contra hlt
      have := hc kept.length (by omega)
      rw [hps.cover_first (by omega), get_eq_none.2 (Or.inr (by omega)),
        List.getElem?_eq_getElem (by omega)] at this
      cases this
    refine ⟨kept, ps, rfl, ?_, hlength⟩
    refine List.ext_getElem? fun i => ?_
    by_cases hi : i < bytes.length
    · have := hc i hi
      rw [hps.cover_first (by omega)] at this
      rw [List.getElem?_take_of_lt hi, ← this]
      rfl
    · rw [List.getElem?_eq_none (by rw [List.length_take]; omega),
        List.getElem?_eq_none (by omega)]

/-- The first bytes of the first piece are a ClientHello, if they are as long as they say. -/
theorem found_take {rest : List (ℕ × List UInt8)} {b₁ b₂ b₃ : UInt8} {tail : List UInt8}
    (hps : Canonical ((0, 1 :: b₁ :: b₂ :: b₃ :: tail) :: rest))
    (hle : (b₁.toNat * 256 + b₂.toNat) * 256 + b₃.toNat ≤ tail.length) :
    Found (cover ((0, 1 :: b₁ :: b₂ :: b₃ :: tail) :: rest))
      (1 :: b₁ :: b₂ :: b₃ :: tail.take ((b₁.toNat * 256 + b₂.toNat) * 256 + b₃.toNat)) := by
  refine ⟨b₁, b₂, b₃, _, rfl, by rw [List.length_take]; omega, fun i hi => ?_⟩
  generalize (b₁.toNat * 256 + b₂.toNat) * 256 + b₃.toNat = n at hle hi ⊢
  have htake : 1 :: b₁ :: b₂ :: b₃ :: tail.take n = (1 :: b₁ :: b₂ :: b₃ :: tail).take (n + 4) :=
    rfl
  rw [htake] at hi ⊢
  rw [List.length_take] at hi
  have hstop : stop (0, 1 :: b₁ :: b₂ :: b₃ :: tail) = (1 :: b₁ :: b₂ :: b₃ :: tail).length :=
    Nat.zero_add _
  rw [hps.cover_first (by omega), List.getElem?_take_of_lt (by omega)]
  rfl

/-- **The look at the head keeps the pieces and remembers what is there.** -/
theorem seeHead_ok {p q : Pieces} (hp : Canonical p.pieces)
    (hold : ∀ n, p.whole = some n → ∃ bytes, Found (cover p.pieces) bytes ∧ bytes.length = n)
    (h : p.seeHead = .ok q) : q.pieces = p.pieces ∧ q.Remembers := by
  -- where the head is not whole, nothing changes
  have hsame : (∀ bytes, ¬ Found (cover p.pieces) bytes) → p.Remembers := by
    intro hnone n
    exact ⟨hold n, fun ⟨bytes, hfound, _⟩ => absurd hfound (hnone bytes)⟩
  obtain ⟨pieces, whole⟩ := p
  dsimp only at hp
  unfold seeHead at h
  dsimp only at h
  split at h
  · rename_i buffer rest
    split at h
    · rename_i kind b₁ b₂ b₃ tail
      split_ifs at h with hkind hlong hwhole
      · cases h
        rw [not_not] at hkind
        subst hkind
        refine ⟨rfl, fun n => ?_⟩
        have hfound := found_take hp (by simp only [List.length_cons] at hwhole; omega)
        have hlength : (1 :: b₁ :: b₂ :: b₃ ::
            tail.take ((b₁.toNat * 256 + b₂.toNat) * 256 + b₃.toNat)).length =
            4 + ((b₁.toNat * 256 + b₂.toNat) * 256 + b₃.toNat) := by
          simp only [List.length_cons, List.length_take] at hwhole ⊢
          omega
        constructor
        · intro hn
          exact ⟨_, hfound, hlength.trans (Option.some.inj hn)⟩
        · rintro ⟨bytes, hbytes, rfl⟩
          rw [hbytes.unique hfound, hlength]
      · cases h
        refine ⟨rfl, hsame fun bytes hfound => hwhole ?_⟩
        obtain ⟨kept, rest', heq, htake, hle⟩ := hfound.exists_piece hp
        obtain ⟨c₁, c₂, c₃, body, hbytes, hbody, -⟩ := hfound
        cases heq
        rw [hbytes] at htake hle
        simp only [List.length_cons, List.take_succ_cons, List.cons.injEq] at htake hle ⊢
        obtain ⟨-, rfl, rfl, rfl, -⟩ := htake
        omega
    · rename_i hshort
      cases h
      refine ⟨rfl, hsame fun bytes hfound => ?_⟩
      obtain ⟨kept, rest', heq, htake, hle⟩ := hfound.exists_piece hp
      obtain ⟨c₁, c₂, c₃, body, hbytes, -, -⟩ := hfound
      cases heq
      rw [hbytes] at hle
      match buffer, hle with
      | c :: c₁ :: c₂ :: c₃ :: tail, _ => exact hshort c c₁ c₂ c₃ tail rfl
  · rename_i hfirst
    cases h
    refine ⟨rfl, hsame fun bytes hfound => ?_⟩
    obtain ⟨kept, rest, heq, -, -⟩ := hfound.exists_piece hp
    exact hfirst kept rest heq

/-! ### Adding keeps the pieces canonical -/

/-- One piece in place of those met and the data. -/
theorem replace_met {l met r : List (ℕ × List UInt8)} {offset : ℕ} {data : List UInt8}
    {piece : ℕ × List UInt8} (hp : Canonical (l ++ met ++ r)) (hne : piece.2 ≠ [])
    (hl : ∀ q ∈ l, stop q < piece.1) (hr : ∀ q ∈ r, stop piece < q.1)
    (hafter : ∀ q ∈ r, offset + data.length < q.1)
    (hget : ∀ i, get piece i = (cover met i).or (get (offset, data) i)) :
    Canonical (l ++ piece :: r) ∧ ∀ i, cover (l ++ piece :: r) i =
      (cover (l ++ met ++ r) i).or (get (offset, data) i) := by
  have happart := List.pairwise_append.1 hp.apart
  have hleft := List.pairwise_append.1 happart.1
  constructor
  · constructor
    · intro q hq
      rcases List.mem_append.1 hq with hq | hq
      · exact hp.nonempty q (by simp [hq])
      · rcases List.mem_cons.1 hq with rfl | hq
        · exact hne
        · exact hp.nonempty q (by simp [hq])
    · rw [List.pairwise_append]
      refine ⟨hleft.1, List.pairwise_cons.2 ⟨hr, happart.2.1⟩, fun q hq q' hq' => ?_⟩
      rcases List.mem_cons.1 hq' with rfl | hq'
      · exact hl q hq
      · exact happart.2.2 q (List.mem_append_left _ hq) q' hq'
  · intro i
    rw [cover_append, cover_cons, cover_append, cover_append, hget]
    cases hd : get (offset, data) i with
    | none => simp [Option.or_assoc]
    | some w =>
      have hi : i < offset + data.length := (get_isSome.1 (Option.isSome_iff_exists.2 ⟨w, hd⟩)).2
      have hrest : cover r i = none := cover_eq_none.2 fun q hq => by
        have := hafter q hq
        exact get_eq_none.2 (Or.inl (by omega))
      rw [hrest]
      simp

/-- Where the joined piece begins and ends. -/
theorem join_bounds (offset : ℕ) (data : List UInt8) {met : List (ℕ × List UInt8)}
    (others : List (ℕ × List UInt8)) {kept first last : ℕ × List UInt8} (hmet : Canonical met)
    (hkept : kept ∈ met)
    (hfirst : met.head? = some first) (hlast : met.getLast? = some last) :
    (join offset data met kept others).1 = min offset first.1 ∧
      stop (join offset data met kept others) = max (offset + data.length) (stop last) := by
  obtain ⟨hstart, hstop⟩ := canonical_bounds hmet hfirst hlast hkept
  unfold join
  rw [hfirst, hlast]
  refine ⟨rfl, ?_⟩
  dsimp only [Option.elim_some]
  rw [stop]
  dsimp only
  rw [List.length_append, List.length_append, length_filled, length_filled]
  have hk : stop kept = kept.1 + kept.2.length := rfl
  omega

/-- **A frame that is added**: the pieces stay canonical, hold what they held and the frame, and
nothing they held is contradicted. -/
theorem add_ok {p q : Pieces} {offset : ℕ} {data : List UInt8} (hp : Canonical p.pieces)
    (hr : p.Remembers) (h : p.add offset data = .ok q) :
    Canonical q.pieces ∧ q.Remembers ∧
      (∀ i, cover q.pieces i = (cover p.pieces i).or (get (offset, data) i)) ∧
      ∀ i v w, cover p.pieces i = some v → get (offset, data) i = some w → v = w := by
  rcases add_cases hp offset data with
    ⟨-, heq⟩ | ⟨-, ⟨rfl, heq⟩ | ⟨hdata, l, met, r, hps, hbefore, hmet, hafter, hcase⟩⟩
  · rw [heq] at h
    cases h
  · rw [heq] at h
    cases h
    exact ⟨hp, hr, fun i => by rw [get_nil, Option.or_none],
      fun i v w _ hw => by simp [get_nil] at hw⟩
  · rcases hcase with ⟨-, heq⟩ | ⟨hagree, hcase⟩
    · rw [heq] at h
      cases h
    · have hboth : ∀ i v w, cover p.pieces i = some v → get (offset, data) i = some w → v = w := by
        intro i v w hv hw
        obtain ⟨s, hs, hsv⟩ := exists_of_cover hv
        have h₁ := get_isSome.1 (Option.isSome_iff_exists.2 ⟨v, hsv⟩)
        have h₂ : offset ≤ i ∧ i < offset + data.length :=
          get_isSome.1 (Option.isSome_iff_exists.2 ⟨w, hw⟩)
        have hsm : s ∈ met := by
          rw [hps, List.mem_append, List.mem_append] at hs
          rcases hs with (hs | hs) | hs
          · have := hbefore s hs
            omega
          · exact hs
          · have := hafter s hs
            omega
        by_contra hne
        exact hagree s hsm ⟨i, v, w, hsv, hw, hne⟩
      -- the pieces with one new one among them, and a look at the head
      have hnew : ∀ piece : ℕ × List UInt8, piece.2 ≠ [] → (∀ s ∈ l, stop s < piece.1) →
          (∀ s ∈ r, stop piece < s.1) →
          (∀ i, get piece i = (cover met i).or (get (offset, data) i)) →
          seeHead { p with pieces := l ++ piece :: r } = .ok q →
          Canonical q.pieces ∧ q.Remembers ∧
            ∀ i, cover q.pieces i = (cover p.pieces i).or (get (offset, data) i) := by
        intro piece hne hl hright hget hq
        obtain ⟨hcanon, hcover⟩ := replace_met (hps ▸ hp) hne hl hright hafter hget
        rw [← hps] at hcover
        have hmono : ∀ i v, cover p.pieces i = some v → cover (l ++ piece :: r) i = some v := by
          intro i v hv
          rw [hcover, hv]
          rfl
        obtain ⟨hpieces, hrem⟩ := seeHead_ok hcanon (fun n hn => by
          obtain ⟨bytes, hfound, hlen⟩ := (hr n).1 hn
          exact ⟨bytes, hfound.mono hmono, hlen⟩) hq
        rw [hpieces]
        exact ⟨hcanon, hrem, hcover⟩
      rcases hcase with ⟨s, rfl, hs₁, hs₂, heq⟩ | ⟨rfl, heq⟩ | ⟨before, kept, after, hsplit, heq⟩
      · rw [heq] at h
        cases h
        refine ⟨hp, hr, fun i => ?_, hboth⟩
        cases hd : get (offset, data) i with
        | none => simp
        | some w =>
          have hi : offset ≤ i ∧ i < offset + data.length :=
            get_isSome.1 (Option.isSome_iff_exists.2 ⟨w, hd⟩)
          obtain ⟨v, hv⟩ := Option.isSome_iff_exists.1 (get_isSome.2 (show s.1 ≤ i ∧ i < stop s by
            omega))
          have hcover := cover_of_get hp.apart (by simp [hps]) hv
          rw [hcover]
          rfl
      · rw [heq] at h
        split_ifs at h with hmany
        obtain ⟨h₁, h₂, h₃⟩ := hnew (offset, data) hdata hbefore hafter (by simp) h
        exact ⟨h₁, h₂, h₃, hboth⟩
      · rw [heq] at h
        have hcanon : Canonical met := by
          refine ⟨fun s hs => hp.nonempty s (by simp [hps, hs]), ?_⟩
          have := hp.apart
          rw [hps] at this
          exact (List.pairwise_append.1 (List.pairwise_append.1 this).1).2.1
        have hne : met ≠ [] := by simp [hsplit]
        have hkept : kept ∈ met := by simp [hsplit]
        obtain ⟨first, hfirst⟩ := Option.isSome_iff_exists.1 (List.isSome_head?.2 hne)
        obtain ⟨last, hlast⟩ := Option.isSome_iff_exists.1 (List.getLast?_isSome.2 hne)
        obtain ⟨hstart, hstop⟩ :=
          join_bounds offset data (before ++ after) hcanon hkept hfirst hlast
        have happart := hp.apart
        rw [hps, List.pairwise_append, List.pairwise_append] at happart
        obtain ⟨⟨-, -, hlm⟩, -, hlmr⟩ := happart
        have hfirst' := List.mem_of_head? hfirst
        have hlast' := List.mem_of_getLast? hlast
        have hlength : 0 < data.length := List.length_pos_iff.2 hdata
        have hjoined : (join offset data met kept (before ++ after)).2 ≠ [] := by
          intro hnil
          rw [stop, hnil, List.length_nil] at hstop
          omega
        have hl : ∀ s ∈ l, stop s < (join offset data met kept (before ++ after)).1 := by
          intro s hs
          have h₁ := hbefore s hs
          have h₂ := hlm s hs first hfirst'
          omega
        have hright : ∀ s ∈ r, stop (join offset data met kept (before ++ after)) < s.1 := by
          intro s hs
          have h₁ := hafter s hs
          have h₂ := hlmr last (List.mem_append_right _ hlast') s hs
          omega
        obtain ⟨h₁, h₂, h₃⟩ := hnew _ hjoined hl hright (get_join hcanon hmet hsplit) h
        exact ⟨h₁, h₂, h₃, hboth⟩

theorem seeHead_error {p : Pieces} {why : Str} (h : p.seeHead = .error why) :
    why = NO_CLIENT_HELLO ∨ why = TOO_LONG := by
  unfold seeHead at h
  dsimp only at h
  split at h
  · split at h
    · split_ifs at h
      · exact Or.inl (Except.error.inj h).symm
      · exact Or.inr (Except.error.inj h).symm
    · cases h
  · cases h

theorem changed_ne : CHANGED ≠ BEYOND ∧ CHANGED ≠ TOO_MANY ∧ CHANGED ≠ NO_CLIENT_HELLO ∧
    CHANGED ≠ TOO_LONG := by
  decide +kernel

theorem seeHead_ne_changed (p : Pieces) : p.seeHead ≠ .error CHANGED := by
  intro h
  rcases seeHead_error h with h | h
  · exact changed_ne.2.2.1 h
  · exact changed_ne.2.2.2 h

/-- **A frame is found changed exactly when it says otherwise of a byte that is held.** -/
theorem add_changed {p : Pieces} (hp : Canonical p.pieces) (offset : ℕ) (data : List UInt8) :
    p.add offset data = .error CHANGED ↔ offset + data.length ≤ MAX_HELLO ∧
      ∃ i v w, cover p.pieces i = some v ∧ get (offset, data) i = some w ∧ v ≠ w := by
  rcases add_cases hp offset data with
    ⟨hlong, heq⟩ | ⟨hshort, ⟨rfl, heq⟩ | ⟨-, l, met, r, hps, hbefore, -, hafter, hcase⟩⟩
  · refine iff_of_false (fun h => ?_) fun h => (not_le.2 hlong) h.1
    rw [heq, Except.error.injEq] at h
    exact changed_ne.1 h.symm
  · refine iff_of_false (fun h => ?_) fun ⟨_, i, v, w, _, hw, _⟩ => by simp [get_nil] at hw
    rw [heq] at h
    cases h
  · have hconflict : (∃ i v w, cover p.pieces i = some v ∧ get (offset, data) i = some w ∧ v ≠ w) ↔
        ∃ q ∈ met, Conflict offset data q := by
      constructor
      · rintro ⟨i, v, w, hv, hw, hne⟩
        obtain ⟨q, hq, hqv⟩ := exists_of_cover hv
        have h₁ := get_isSome.1 (Option.isSome_iff_exists.2 ⟨v, hqv⟩)
        have h₂ : offset ≤ i ∧ i < offset + data.length :=
          get_isSome.1 (Option.isSome_iff_exists.2 ⟨w, hw⟩)
        refine ⟨q, ?_, i, v, w, hqv, hw, hne⟩
        rw [hps, List.mem_append, List.mem_append] at hq
        rcases hq with (hq | hq) | hq
        · have := hbefore q hq
          omega
        · exact hq
        · have := hafter q hq
          omega
      · rintro ⟨q, hq, i, v, w, hqv, hw, hne⟩
        exact ⟨i, v, w, cover_of_get hp.apart (by simp [hps, hq]) hqv, hw, hne⟩
    rw [hconflict]
    rcases hcase with ⟨hany, heq⟩ | ⟨hnone, hcase⟩
    · exact iff_of_true heq ⟨hshort, hany⟩
    · refine iff_of_false (fun h => ?_) fun ⟨_, q, hq, hc⟩ => hnone q hq hc
      rcases hcase with ⟨-, -, -, -, heq⟩ | ⟨-, heq⟩ | ⟨_, _, _, -, heq⟩
      · rw [heq] at h
        cases h
      · rw [heq] at h
        split_ifs at h
        · exact changed_ne.2.1 (Except.error.inj h).symm
        · exact seeHead_ne_changed _ h
      · rw [heq] at h
        exact seeHead_ne_changed _ h

/-! ### Any number of frames -/

/-- The pieces after the frames `frames`, each an offset and its bytes, if all of them are added. -/
def addAll (p : Pieces) : List (ℕ × List UInt8) → Except Str Pieces
  | [] => .ok p
  | (offset, data) :: frames =>
    match p.add offset data with
    | .error why => .error why
    | .ok p => p.addAll frames

/-- What is known of the pieces when the frames `frames` were delivered. -/
structure Holds (frames : List (ℕ × List UInt8)) (p : Pieces) : Prop where
  canonical : Canonical p.pieces
  remembers : p.Remembers
  delivered : ∀ i v, cover p.pieces i = some v ↔ ∃ f ∈ frames, get f i = some v

theorem holds_new : new.Holds [] := by
  refine ⟨⟨by simp [new], List.Pairwise.nil⟩, ?_, by simp [new]⟩
  intro n
  refine iff_of_false (by simp [new]) ?_
  rintro ⟨bytes, ⟨b₁, b₂, b₃, body, rfl, -, hc⟩, -⟩
  simpa [new] using hc 0 (by simp)

theorem Holds.add {frames : List (ℕ × List UInt8)} {p q : Pieces} {offset : ℕ}
    {data : List UInt8} (h : p.Holds frames) (hq : p.add offset data = .ok q) :
    q.Holds (frames ++ [(offset, data)]) := by
  obtain ⟨hcanon, hrem, hcover, hboth⟩ := add_ok h.canonical h.remembers hq
  refine ⟨hcanon, hrem, fun i v => ?_⟩
  rw [hcover, Option.or_eq_some_iff, h.delivered]
  constructor
  · rintro (⟨f, hf, hv⟩ | ⟨-, hv⟩)
    · exact ⟨f, by simp [hf], hv⟩
    · exact ⟨(offset, data), by simp, hv⟩
  · rintro ⟨f, hf, hv⟩
    rcases List.mem_append.1 hf with hf | hf
    · exact Or.inl ⟨f, hf, hv⟩
    · obtain rfl := List.mem_singleton.1 hf
      cases hc : cover p.pieces i with
      | none => exact Or.inr ⟨rfl, hv⟩
      | some u =>
        obtain rfl := hboth i u v hc hv
        exact Or.inl ((h.delivered i u).1 hc)

theorem Holds.addAll {frames more : List (ℕ × List UInt8)} {p q : Pieces} (h : p.Holds frames)
    (hq : p.addAll more = .ok q) : q.Holds (frames ++ more) := by
  induction more generalizing p frames with
  | nil =>
    cases hq
    simpa using h
  | cons f more ih =>
    obtain ⟨offset, data⟩ := f
    unfold Pieces.addAll at hq
    cases ha : p.add offset data with
    | error why => simp [ha] at hq
    | ok p' =>
      simp only [ha] at hq
      simpa using ih (h.add ha) hq

/-- The ClientHello that is given is the one at the head of what was delivered. -/
theorem finish_eq_some {p : Pieces} (hp : Canonical p.pieces) (hr : p.Remembers)
    {bytes : List UInt8} : p.finish = some bytes ↔ Found (cover p.pieces) bytes := by
  have hgives : ∀ b, Found (cover p.pieces) b → p.finish = some b := by
    intro b hb
    obtain ⟨kept, rest, hps, htake, -⟩ := hb.exists_piece hp
    unfold finish
    rw [(hr b.length).2 ⟨b, hb, rfl⟩, hps]
    exact congrArg some htake
  refine ⟨fun h => ?_, hgives bytes⟩
  cases hw : p.whole with
  | none =>
    unfold finish at h
    rw [hw] at h
    cases h
  | some n =>
    obtain ⟨b, hb, -⟩ := (hr n).1 hw
    obtain rfl : b = bytes := Option.some.inj ((hgives b hb).symm.trans h)
    exact hb

/-- **Pieces that hold the same frames, in whatever order they came, are the same.** -/
theorem Holds.unique {frames frames' : List (ℕ × List UInt8)} {p q : Pieces} (hp : p.Holds frames)
    (hq : q.Holds frames') (hsame : ∀ f, f ∈ frames ↔ f ∈ frames') : p = q := by
  have hpieces : p.pieces = q.pieces := by
    refine canonical_ext hp.canonical hq.canonical (funext fun i => Option.ext fun v => ?_)
    rw [hp.delivered, hq.delivered]
    simp only [hsame]
  have hwhole : p.whole = q.whole := Option.ext fun n => by
    rw [hp.remembers, hq.remembers, hpieces]
  cases p
  cases q
  simp_all

/-- **Reassembly**: whatever frames were added, all of them, the pieces stand in order, apart, and
hold what was delivered and nothing else; the next frame is found changed exactly when it
contradicts them; the ClientHello is the one that was delivered from offset zero on; and frames
added in another order leave the same. -/
theorem reassembly (frames : List (ℕ × List UInt8)) (p : Pieces) (h : new.addAll frames = .ok p) :
    Canonical p.pieces ∧
    (∀ i v, cover p.pieces i = some v ↔ ∃ f ∈ frames, get f i = some v) ∧
    (∀ offset data, p.add offset data = .error CHANGED ↔ offset + data.length ≤ MAX_HELLO ∧
      ∃ i v w, cover p.pieces i = some v ∧ get (offset, data) i = some w ∧ v ≠ w) ∧
    (∀ bytes, p.finish = some bytes ↔ Found (cover p.pieces) bytes) ∧
    (∀ n, p.whole = some n ↔ ∃ bytes, p.finish = some bytes ∧ bytes.length = n) ∧
    ∀ frames' q, frames'.Perm frames → new.addAll frames' = .ok q →
      q = p ∧ q.finish = p.finish := by
  have hp : p.Holds frames := holds_new.addAll h
  have hfinish := fun bytes => @finish_eq_some p hp.canonical hp.remembers bytes
  refine ⟨hp.canonical, hp.delivered, add_changed hp.canonical, hfinish, fun n => ?_, ?_⟩
  · rw [hp.remembers]
    simp only [hfinish]
  · intro frames' q hperm hq
    have heq : q = p := (holds_new.addAll hq).unique hp fun f => hperm.mem_iff
    exact ⟨heq, congrArg finish heq⟩

/-- A ClientHello of one byte, its two halves delivered back to front. -/
theorem reassembly_halves :
    let p : Pieces := ⟨[(0, [1, 0, 0, 1, 7])], some 5⟩
    new.addAll [(2, [0, 1, 7]), (0, [1, 0, 0])] = .ok p ∧ Canonical p.pieces ∧
      Found (cover p.pieces) [1, 0, 0, 1, 7] := by
  intro p
  have hadded : new.addAll [(2, [0, 1, 7]), (0, [1, 0, 0])] = .ok p := by decide +kernel
  have h := reassembly [(2, [0, 1, 7]), (0, [1, 0, 0])] p hadded
  exact ⟨hadded, h.1, (h.2.2.2.1 _).1 (by decide)⟩

end Pieces

end Quic

end Rurge
