import Rurge.Config.Glob

/-!
# What a wildcard pattern matches

A text fits the tokens of a pattern when it can be cut into as many runs as there are tokens, each
run one that its token takes (`Fits`).  The walk of `Glob.isMatch` keeps the last `*` alone to go
back to; every earlier one may be forgotten, as the last one takes whatever an earlier one could
have (`fits_star_later`).  So the walk ends, and says whether the text fits (`isMatch_spec`).
-/

namespace Rurge.Glob

/-! ### Fitting -/

/-- What a token stands for. -/
def Takes : Tok → Str → Prop
  | .lit l, run => run = [l]
  | .one, run => ∃ c, run = [c]
  | .cls negate ranges, run =>
    ∃ c, run = [c] ∧ ((∃ r ∈ ranges, r.1 ≤ c ∧ c ≤ r.2) ↔ negate = false)
  | .any, _ => True

/-- The text can be cut into runs that the tokens take, one each. -/
def Fits (toks : List Tok) (text : Str) : Prop :=
  ∃ runs, runs.flatten = text ∧ List.Forall₂ Takes toks runs

theorem takes_iff {t : Tok} (h : t ≠ .any) {run : Str} :
    Takes t run ↔ ∃ c, run = [c] ∧ tokMatches t c = true := by
  cases t with
  | any => exact absurd rfl h
  | lit l => simp [Takes, tokMatches]
  | one => simp [Takes, tokMatches]
  | cls negate ranges =>
    refine exists_congr fun c => and_congr_right fun _ => ?_
    cases negate <;> simp [tokMatches]

@[simp] theorem fits_nil {text : Str} : Fits [] text ↔ text = [] := by
  simp [Fits, eq_comm]

theorem fits_cons {t : Tok} {toks : List Tok} {text : Str} :
    Fits (t :: toks) text ↔ ∃ run rest, text = run ++ rest ∧ Takes t run ∧ Fits toks rest := by
  constructor
  · rintro ⟨runs, rfl, h⟩
    cases h with
    | cons ht hr => exact ⟨_, _, List.flatten_cons, ht, _, rfl, hr⟩
  · rintro ⟨run, rest, rfl, ht, runs, rfl, hr⟩
    exact ⟨run :: runs, List.flatten_cons, .cons ht hr⟩

theorem fits_one {t : Tok} (h : t ≠ .any) {toks : List Tok} {text : Str} :
    Fits (t :: toks) text ↔
      ∃ c rest, text = c :: rest ∧ tokMatches t c = true ∧ Fits toks rest := by
  rw [fits_cons]
  constructor
  · rintro ⟨run, rest, rfl, ht, hr⟩
    obtain ⟨c, rfl, hc⟩ := (takes_iff h).1 ht
    exact ⟨c, rest, rfl, hc, hr⟩
  · rintro ⟨c, rest, rfl, hc, hr⟩
    exact ⟨[c], rest, rfl, (takes_iff h).2 ⟨c, rfl, hc⟩, hr⟩

theorem fits_any {toks : List Tok} {text : Str} :
    Fits (.any :: toks) text ↔ ∃ run rest, text = run ++ rest ∧ Fits toks rest := by
  simp only [fits_cons, Takes, true_and]

theorem fits_any_cons {toks : List Tok} {c : Char} {text : Str} :
    Fits (.any :: toks) (c :: text) ↔ Fits toks (c :: text) ∨ Fits (.any :: toks) text := by
  simp only [fits_any]
  constructor
  · rintro ⟨run, rest, heq, hr⟩
    cases run with
    | nil => exact .inl (by rw [show c :: text = rest from heq]; exact hr)
    | cons d run =>
      obtain ⟨rfl, rfl⟩ := List.cons.inj heq
      exact .inr ⟨run, rest, rfl, hr⟩
  · rintro (hr | ⟨run, rest, rfl, hr⟩)
    · exact ⟨[], _, rfl, hr⟩
    · exact ⟨c :: run, rest, rfl, hr⟩

theorem fits_empty (toks : List Tok) : Fits toks [] ↔ toks.all (· == .any) = true := by
  induction toks with
  | nil => simp
  | cons t toks ih =>
    by_cases h : t = .any
    · subst h
      rw [fits_any, List.all_cons, beq_self_eq_true, Bool.true_and, ← ih]
      constructor
      · rintro ⟨run, rest, heq, hr⟩
        obtain ⟨rfl, rfl⟩ := List.append_eq_nil_iff.1 heq.symm
        exact hr
      · exact fun hr => ⟨[], [], rfl, hr⟩
    · simp [fits_one h, h]

/-! ### Tokens that are passed one by one -/

/-- The tokens of `seg` match the characters of `part`, one each. -/
abbrev Passed (seg : List Tok) (part : Str) : Prop :=
  List.Forall₂ (fun t c => tokMatches t c = true) seg part

theorem ne_any {t : Tok} {c : Char} (h : tokMatches t c = true) : t ≠ .any := by
  rintro rfl
  cases h

theorem fits_passed {seg toks : List Tok} {part text : Str} (h : Passed seg part) :
    Fits (seg ++ toks) (part ++ text) ↔ Fits toks text := by
  induction h with
  | nil => rfl
  | @cons t c seg part hc _ ih => simp [fits_one (ne_any hc), hc, ih]

/-- Tokens other than `*` take as many characters as they are. -/
theorem fits_length {seg toks : List Tok} (h : ∀ t ∈ seg, t ≠ .any) {text : Str}
    (hf : Fits (seg ++ toks) text) :
    ∃ part rest, text = part ++ rest ∧ part.length = seg.length ∧ Fits toks rest := by
  induction seg generalizing text with
  | nil => exact ⟨[], text, rfl, rfl, hf⟩
  | cons t seg ih =>
    obtain ⟨c, rest, rfl, -, hr⟩ := (fits_one (h t List.mem_cons_self)).1 hf
    obtain ⟨part, rest, rfl, hlength, hr⟩ := ih (fun t ht => h t (List.mem_cons_of_mem _ ht)) hr
    exact ⟨c :: part, rest, rfl, by rw [List.length_cons, hlength, List.length_cons], hr⟩

theorem Passed.no_any {seg : List Tok} {part : Str} (h : Passed seg part) :
    ∀ t ∈ seg, t ≠ .any := by
  induction h with
  | nil => simp
  | cons hc _ ih => exact List.forall_mem_cons.2 ⟨ne_any hc, ih⟩

/-- What fits past the passed tokens, after a `*` that took something, fits what is left of the text
with something put in front. -/
theorem fits_after {seg toks : List Tok} {part text : Str} (h : Passed seg part)
    (hf : Fits (.any :: (seg ++ toks)) (part ++ text)) :
    ∃ run rest, text = run ++ rest ∧ Fits toks rest := by
  obtain ⟨run, rest, heq, hr⟩ := fits_any.1 hf
  obtain ⟨part', rest', rfl, hlength, hr⟩ := fits_length h.no_any hr
  have hle : part.length ≤ (run ++ part').length := by
    rw [List.length_append, hlength, h.length_eq]
    exact Nat.le_add_left ..
  refine ⟨(run ++ part').drop part.length, rest', ?_, hr⟩
  calc text = (part ++ text).drop part.length := List.drop_left.symm
    _ = ((run ++ part') ++ rest').drop part.length := by rw [heq, List.append_assoc]
    _ = (run ++ part').drop part.length ++ rest' := List.drop_append_of_le_length hle

/-- **The last `*` takes what an earlier one could have.** -/
theorem fits_star_later {seg toks : List Tok} {part text : Str} (h : Passed seg part) :
    Fits (.any :: (seg ++ .any :: toks)) (part ++ text) ↔ Fits (.any :: toks) text := by
  constructor
  · intro hf
    obtain ⟨run, rest, rfl, hrest⟩ := fits_after h hf
    obtain ⟨run', rest', rfl, hr⟩ := fits_any.1 hrest
    exact fits_any.2 ⟨run ++ run', rest', (List.append_assoc ..).symm, hr⟩
  · exact fun hf => fits_any.2 ⟨[], _, rfl, (fits_passed h).2 hf⟩

/-- With the text used up, only what takes nothing is left to fit. -/
theorem fits_star_end {seg toks : List Tok} {part : Str} (h : Passed seg part) :
    Fits (.any :: (seg ++ toks)) part ↔ Fits toks [] := by
  constructor
  · intro hf
    rw [← List.append_nil part] at hf
    obtain ⟨run, rest, heq, hr⟩ := fits_after h hf
    obtain ⟨rfl, rfl⟩ := List.append_eq_nil_iff.1 heq.symm
    exact hr
  · intro hf
    refine fits_any.2 ⟨[], part, rfl, ?_⟩
    have hfits := (fits_passed h).2 hf
    rwa [List.append_nil] at hfits

/-! ### The walk -/

/-- `walk`, with `none` for one that is not over. -/
def walkWithin (toks : List Tok) (input : Str) : ℕ → ℕ → ℕ → Option (ℕ × ℕ) → Option Bool
  | 0, _, _, _ => none
  | fuel + 1, si, pi, star =>
    match input[si]? with
    | none => some ((toks.drop pi).all (· == .any))
    | some c =>
      if (toks[pi]?).any (tokMatches · c) then walkWithin toks input fuel (si + 1) (pi + 1) star
      else if toks[pi]? = some .any then walkWithin toks input fuel si (pi + 1) (some (pi, si))
      else
        match star with
        | some (sp, ss) => walkWithin toks input fuel (ss + 1) (sp + 1) (some (sp, ss + 1))
        | none => some false

theorem walk_of_within {toks : List Tok} {input : Str} {fuel si pi : ℕ} {star : Option (ℕ × ℕ)}
    {b : Bool} (h : walkWithin toks input fuel si pi star = some b) :
    walk toks input fuel si pi star = b := by
  induction fuel generalizing si pi star with
  | zero => cases h
  | succ fuel ih =>
    rw [walkWithin.eq_def] at h
    rw [walk.eq_def]
    dsimp only at h ⊢
    cases hc : input[si]? with
    | none =>
      rw [hc] at h
      exact Option.some.inj h
    | some c =>
      rw [hc] at h
      dsimp only at h ⊢
      split_ifs at h ⊢
      · exact ih h
      · exact ih h
      · cases star with
        | none => exact Option.some.inj h
        | some p => exact ih h

/-- What the walk keeps: the whole text fits the tokens as what is left does; from the last `*` on,
the tokens passed matched one by one. -/
structure Walking (toks : List Tok) (input : Str) (si pi : ℕ) (star : Option (ℕ × ℕ)) : Prop where
  pi_le : pi ≤ toks.length
  si_le : si ≤ input.length
  first : star = none → (Fits toks input ↔ Fits (toks.drop pi) (input.drop si))
  later : ∀ sp ss, star = some (sp, ss) → sp < pi ∧ ss ≤ si ∧
    (Fits toks input ↔ Fits (toks.drop sp) (input.drop ss)) ∧
    ∃ seg part, Passed seg part ∧ toks.drop sp = .any :: (seg ++ toks.drop pi) ∧
      input.drop ss = part ++ input.drop si

section Walking

variable {toks : List Tok} {input : Str} {si pi : ℕ} {star : Option (ℕ × ℕ)}

theorem walking_start : Walking toks input 0 0 none :=
  ⟨Nat.zero_le _, Nat.zero_le _, fun _ => Iff.rfl, nofun⟩

theorem drop_of_getElem? {α : Type*} {l : List α} {i : ℕ} {a : α} (h : l[i]? = some a) :
    l.drop i = a :: l.drop (i + 1) := by
  obtain ⟨hi, rfl⟩ := List.getElem?_eq_some_iff.1 h
  exact List.drop_eq_getElem_cons hi

theorem Walking.pass (h : Walking toks input si pi star) {t : Tok} {c : Char}
    (hc : input[si]? = some c) (ht : toks[pi]? = some t) (hm : tokMatches t c = true) :
    Walking toks input (si + 1) (pi + 1) star := by
  have hinput := drop_of_getElem? hc
  have htoks := drop_of_getElem? ht
  refine ⟨(List.getElem?_eq_some_iff.1 ht).1, (List.getElem?_eq_some_iff.1 hc).1, fun hstar => ?_,
    fun sp ss hstar => ?_⟩
  · rw [h.first hstar, hinput, htoks]
    simp [fits_one (ne_any hm), hm]
  · obtain ⟨hsp, hss, hiff, seg, part, hpassed, hsp', hss'⟩ := h.later sp ss hstar
    refine ⟨hsp.trans (Nat.lt_succ_self _), hss.trans (Nat.le_succ _), hiff, seg ++ [t],
      part ++ [c], List.rel_append hpassed (.cons hm .nil), ?_, ?_⟩
    · rw [hsp', htoks, List.append_assoc, List.singleton_append]
    · rw [hss', hinput, List.append_assoc, List.singleton_append]

theorem Walking.reach (h : Walking toks input si pi star) (ht : toks[pi]? = some .any) :
    Walking toks input si (pi + 1) (some (pi, si)) := by
  have htoks := drop_of_getElem? ht
  refine ⟨(List.getElem?_eq_some_iff.1 ht).1, h.si_le, nofun, ?_⟩
  rintro _ _ ⟨⟩
  refine ⟨Nat.lt_succ_self _, le_rfl, ?_, [], [], .nil, htoks, rfl⟩
  cases hstar : star with
  | none => exact h.first hstar
  | some p =>
    obtain ⟨-, -, hiff, seg, part, hpassed, hsp, hss⟩ := h.later p.1 p.2 hstar
    rw [hiff, hsp, hss, htoks, fits_star_later hpassed]

/-- The walk is stuck: what is left of the text does not fit. -/
theorem stuck {c : Char} (hc : input[si]? = some c)
    (hm : ¬ (toks[pi]?).any (tokMatches · c) = true) (ha : toks[pi]? ≠ some .any) :
    ¬ Fits (toks.drop pi) (input.drop si) := by
  rw [drop_of_getElem? hc]
  cases ht : toks[pi]? with
  | none =>
    rw [List.drop_eq_nil_of_le (List.getElem?_eq_none_iff.1 ht)]
    simp
  | some t =>
    rw [drop_of_getElem? ht, fits_one (fun h => ha (ht.trans (congrArg some h)))]
    rintro ⟨c', rest, heq, hc', -⟩
    obtain ⟨rfl, -⟩ := List.cons.inj heq
    exact hm (by rw [ht]; exact hc')

theorem Walking.back {sp ss : ℕ} (h : Walking toks input si pi (some (sp, ss))) {c : Char}
    (hc : input[si]? = some c) (hstuck : ¬ Fits (toks.drop pi) (input.drop si)) :
    Walking toks input (ss + 1) (sp + 1) (some (sp, ss + 1)) := by
  obtain ⟨hsp, hss, hiff, seg, part, hpassed, hsp', hss'⟩ := h.later sp ss rfl
  have hsi := (List.getElem?_eq_some_iff.1 hc).1
  have hnext : toks.drop (sp + 1) = seg ++ toks.drop pi := by
    rw [← List.tail_drop, hsp', List.tail_cons]
  have hlt : ss < input.length := hss.trans_lt hsi
  refine ⟨hsp.trans_le h.pi_le, hlt, nofun, ?_⟩
  rintro _ _ ⟨⟩
  refine ⟨Nat.lt_succ_self _, le_rfl, ?_, [], [], .nil, by rw [hsp', hnext]; rfl, rfl⟩
  -- the `*` has to take one character more, as what follows it does not fit here
  have hnot : ¬ Fits (seg ++ toks.drop pi) (input.drop ss) := by
    rw [hss', fits_passed hpassed]
    exact hstuck
  have hdrop := List.drop_eq_getElem_cons hlt
  rw [hiff, hsp', hdrop, fits_any_cons, ← hdrop]
  exact or_iff_right hnot

/-- At the end of the text the text fits when nothing but stars is left. -/
theorem Walking.over (h : Walking toks input si pi star) (hc : input[si]? = none) :
    (toks.drop pi).all (· == .any) = true ↔ Fits toks input := by
  have hend := List.drop_eq_nil_of_le (List.getElem?_eq_none_iff.1 hc)
  rw [← fits_empty]
  cases hstar : star with
  | none => rw [h.first hstar, hend]
  | some p =>
    obtain ⟨-, -, hiff, seg, part, hpassed, hsp, hss⟩ := h.later p.1 p.2 hstar
    rw [hiff, hsp, hss, hend, List.append_nil, fits_star_end hpassed]

end Walking

/-! ### The walk ends -/

/-- More than the steps that are left: stars to come, places of the text for the last star, tokens
to pass. -/
def todo (m n pi : ℕ) : Option (ℕ × ℕ) → ℕ
  | none => (m + 1) * ((n + 2) * (m + 2)) + ((n + 1) * (m + 2) + (m + 1 - pi))
  | some (sp, ss) => (m - sp) * ((n + 2) * (m + 2)) + ((n + 1 - ss) * (m + 2) + (m + 1 - pi))

theorem inner_lt {m n b c : ℕ} (hb : b ≤ n + 1) (hc : c ≤ m + 1) :
    b * (m + 2) + c < (n + 2) * (m + 2) := by
  have hmul : b * (m + 2) ≤ (n + 1) * (m + 2) := Nat.mul_le_mul_right _ hb
  have hsplit : (n + 2) * (m + 2) = (n + 1) * (m + 2) + (m + 2) := Nat.succ_mul ..
  omega

theorem todo_start (m n : ℕ) : todo m n 0 none < walkFuel m n := by
  have hinner : (n + 1) * (m + 2) + (m + 1 - 0) < (n + 2) * (m + 2) := inner_lt le_rfl (by omega)
  have hsplit : (m + 2) * ((n + 2) * (m + 2)) =
      (m + 1) * ((n + 2) * (m + 2)) + (n + 2) * (m + 2) := Nat.succ_mul ..
  rw [todo, walkFuel, Nat.mul_assoc]
  omega

theorem todo_pass {m pi : ℕ} (n : ℕ) (h : pi < m) (star : Option (ℕ × ℕ)) :
    todo m n (pi + 1) star < todo m n pi star := by
  cases star with
  | none =>
    rw [todo, todo]
    omega
  | some p =>
    obtain ⟨sp, ss⟩ := p
    rw [todo, todo]
    omega

theorem todo_star {m pi : ℕ} (n si : ℕ) {star : Option (ℕ × ℕ)} (h : pi < m)
    (hstar : ∀ sp ss, star = some (sp, ss) → sp < pi) :
    todo m n (pi + 1) (some (pi, si)) < todo m n pi star := by
  have hinner : (n + 1 - si) * (m + 2) + (m + 1 - (pi + 1)) < (n + 2) * (m + 2) :=
    inner_lt (by omega) (by omega)
  have hsplit : (m - pi + 1) * ((n + 2) * (m + 2)) =
      (m - pi) * ((n + 2) * (m + 2)) + (n + 2) * (m + 2) := Nat.succ_mul ..
  cases star with
  | none =>
    have hle : (m - pi + 1) * ((n + 2) * (m + 2)) ≤ (m + 1) * ((n + 2) * (m + 2)) :=
      Nat.mul_le_mul_right _ (by omega)
    rw [todo, todo]
    omega
  | some p =>
    obtain ⟨sp, ss⟩ := p
    have hsp := hstar sp ss rfl
    have hle : (m - pi + 1) * ((n + 2) * (m + 2)) ≤ (m - sp) * ((n + 2) * (m + 2)) :=
      Nat.mul_le_mul_right _ (by omega)
    rw [todo, todo]
    omega

theorem todo_back {n ss : ℕ} (m pi sp : ℕ) (h : ss < n) :
    todo m n (sp + 1) (some (sp, ss + 1)) < todo m n pi (some (sp, ss)) := by
  have hsplit : (n + 1 - (ss + 1) + 1) * (m + 2) = (n + 1 - (ss + 1)) * (m + 2) + (m + 2) :=
    Nat.succ_mul ..
  have heq : n + 1 - (ss + 1) + 1 = n + 1 - ss := by omega
  rw [heq] at hsplit
  rw [todo, todo]
  omega

/-- **The walk ends, and says whether the text fits.** -/
theorem walkWithin_spec {toks : List Tok} {input : Str} {fuel si pi : ℕ} {star : Option (ℕ × ℕ)}
    (h : Walking toks input si pi star) (hfuel : todo toks.length input.length pi star < fuel) :
    ∃ b, walkWithin toks input fuel si pi star = some b ∧ (b = true ↔ Fits toks input) := by
  induction fuel generalizing si pi star with
  | zero => exact absurd hfuel (Nat.not_lt_zero _)
  | succ fuel ih =>
    rw [walkWithin.eq_def]
    dsimp only
    cases hc : input[si]? with
    | none => exact ⟨_, rfl, h.over hc⟩
    | some c =>
      dsimp only
      by_cases hm : (toks[pi]?).any (tokMatches · c) = true
      · obtain ⟨t, ht, htm⟩ := Option.any_eq_true _ _ |>.1 hm
        rw [if_pos hm]
        have hlt := todo_pass input.length (List.getElem?_eq_some_iff.1 ht).1 star
        exact ih (h.pass hc ht htm) (by omega)
      rw [if_neg hm]
      by_cases ha : toks[pi]? = some .any
      · rw [if_pos ha]
        have hlt := todo_star input.length si (List.getElem?_eq_some_iff.1 ha).1
          fun sp ss hstar => (h.later sp ss hstar).1
        exact ih (h.reach ha) (by omega)
      rw [if_neg ha]
      have hstuck := stuck hc hm ha
      cases star with
      | none =>
        refine ⟨false, rfl, ?_⟩
        rw [h.first rfl]
        exact iff_of_false nofun hstuck
      | some p =>
        obtain ⟨sp, ss⟩ := p
        have hss := (h.later sp ss rfl).2.1.trans_lt (List.getElem?_eq_some_iff.1 hc).1
        have hlt := todo_back toks.length pi sp hss
        exact ih (h.back hc hstuck) (by omega)

/-! ### Patterns that are read -/

/-- A token compared with characters that are folded. -/
def Folded (ci : Bool) : Tok → Prop
  | .lit c => fold c ci = c
  | .cls _ ranges => ∀ r ∈ ranges, fold r.1 ci = r.1 ∧ fold r.2 ci = r.2
  | _ => True

@[simp] theorem fold_fold (c : Char) (ci : Bool) : fold (fold c ci) ci = fold c ci := by
  cases ci with
  | false => rfl
  | true => exact Char.toLower_toLower_eq_toLower c

/-- Ranges whose bounds are folded. -/
abbrev FoldedRanges (ci : Bool) (ranges : List (Char × Char)) : Prop :=
  ∀ r ∈ ranges, fold r.1 ci = r.1 ∧ fold r.2 ci = r.2

theorem FoldedRanges.concat {ci : Bool} {ranges : List (Char × Char)} (h : FoldedRanges ci ranges)
    (lo hi : Char) : FoldedRanges ci (ranges ++ [(fold lo ci, fold hi ci)]) := by
  intro r hr
  rcases List.mem_append.1 hr with hr | hr
  · exact h r hr
  · obtain rfl := List.mem_singleton.1 hr
    exact ⟨fold_fold lo ci, fold_fold hi ci⟩

theorem folded_classRanges {ci : Bool} {ranges : List (Char × Char)} {text : Str}
    {read : List (Char × Char) × List Char} (hranges : FoldedRanges ci ranges)
    (h : classRanges ci ranges text = some read) : FoldedRanges ci read.1 := by
  fun_induction classRanges ci ranges text with
  | case1 => cases h
  | case2 =>
    cases h
    exact hranges
  | case3 ranges lo _ _ hi _ _ ih => exact ih (hranges.concat lo hi) h
  | case4 ranges lo _ _ _ _ _ ih => exact ih (hranges.concat lo lo) h
  | case5 ranges lo _ _ _ ih => exact ih (hranges.concat lo lo) h

theorem folded_concat {ci : Bool} {toks : List Tok} {u : Tok} (h : ∀ t ∈ toks, Folded ci t)
    (hu : Folded ci u) : ∀ t ∈ toks ++ [u], Folded ci t := by
  intro t ht
  rcases List.mem_append.1 ht with ht | ht
  · exact h t ht
  · obtain rfl := List.mem_singleton.1 ht
    exact hu

theorem folded_tokens {opts : GlobOptions} {fuel : ℕ} {toks read : List Tok} {text : Str}
    (htoks : ∀ t ∈ toks, Folded opts.caseInsensitive t)
    (h : tokens opts fuel toks text = some read) : ∀ t ∈ read, Folded opts.caseInsensitive t := by
  fun_induction tokens opts fuel toks text with
  | case1 =>
    cases h
    exact htoks
  | case2 => cases h
  | case3 fuel toks rest ih =>
    refine ih ?_ h
    split_ifs
    · exact htoks
    · exact folded_concat (u := .any) htoks trivial
  | case4 fuel toks rest _ ih => exact ih (folded_concat (u := .one) htoks trivial) h
  | case5 => cases h
  | case6 fuel toks c rest _ _ _ _ ranges rest' hread ih =>
    have hranges := folded_classRanges (by simp [FoldedRanges]) hread
    exact ih (folded_concat (u := .cls _ ranges) htoks hranges) h
  | case7 fuel toks c rest _ _ _ ih =>
    exact ih (folded_concat (u := .lit _) htoks (fold_fold c _)) h

/-- **What a pattern that is read matches:** the walk over a text ends, and the text matches when it
fits the tokens, both folded when the case does not matter. -/
theorem isMatch_spec (pattern : Str) (opts : GlobOptions) {g : Glob}
    (h : new pattern opts = some g) (s : Str) :
    g.ci = opts.caseInsensitive ∧ (∀ t ∈ g.toks, Folded g.ci t) ∧
      walkWithin g.toks (s.map (fold · g.ci)) (walkFuel g.toks.length s.length) 0 0 none =
        some (g.isMatch s) ∧
      (g.isMatch s = true ↔ Fits g.toks (s.map (fold · g.ci))) := by
  obtain ⟨toks, htoks, rfl⟩ := Option.map_eq_some_iff.1 h
  have hlength : (s.map (fold · opts.caseInsensitive)).length = s.length := List.length_map _
  obtain ⟨b, hb, hiff⟩ := walkWithin_spec
    (@walking_start toks (s.map (fold · opts.caseInsensitive))) (todo_start _ _)
  have hmatch : Glob.isMatch ⟨pattern, toks, opts.caseInsensitive⟩ s = b := walk_of_within hb
  rw [hlength] at hb
  exact ⟨rfl, folded_tokens (by simp) htoks, by rw [hmatch]; exact hb, by rw [hmatch]; exact hiff⟩

/-- The pattern `A*[!0-9]?` in either case, and a text for which its star is tried twice. -/
theorem isMatch_star_class :
    let g : Glob := ⟨['A', '*', '[', '!', '0', '-', '9', ']', '?'],
      [.lit 'a', .any, .cls true [('0', '9')], .one], true⟩
    new ['A', '*', '[', '!', '0', '-', '9', ']', '?'] ⟨true, true⟩ = some g ∧
      g.isMatch ['a', '1', 'b', '2'] = true ∧ Fits g.toks ['a', '1', 'b', '2'] := by
  have hspec := isMatch_spec ['A', '*', '[', '!', '0', '-', '9', ']', '?'] ⟨true, true⟩ rfl
    ['a', '1', 'b', '2']
  have hmatch : Glob.isMatch ⟨['A', '*', '[', '!', '0', '-', '9', ']', '?'],
    [.lit 'a', .any, .cls true [('0', '9')], .one], true⟩ ['a', '1', 'b', '2'] = true := by decide
  exact ⟨rfl, hmatch, hspec.2.2.2.1 hmatch⟩

end Rurge.Glob
