import Rurge.Config.Value
import Rurge.Lib.Brackets

/-!
# Cutting a list again

What is taken out of a list is read again by itself.  `cutting_law`: a list is cut the same from
behind any separator, an item read alone is that item, and the items and the separators between them
are the whole text.

The first pass begins anew behind a comma outside quotes (`Reading.scan_split`), and what `Brackets`
says of the second is put together with the cuts in `cuts`, whose equations follow the marks.
-/

namespace Rurge

namespace Value

open Brackets

/-! ### The first pass -/

/-- What a mark is to the pairing. -/
def Mark.bracket : Mark → Bracket
  | .Open => .opening
  | .Close => .closing
  | .Comma _ _ | .Eq _ => .other

/-- A mark `a` places further on. -/
def Mark.shift (a : ℕ) : Mark → Mark
  | .Comma pos width => .Comma (pos + a) width
  | .Eq pos => .Eq (pos + a)
  | .Open => .Open
  | .Close => .Close

@[simp] theorem bracket_shift (a : ℕ) (m : Mark) : (m.shift a).bracket = m.bracket := by
  cases m <;> rfl

/-- An item `a` places further on. -/
def ItemSpan.shift (a : ℕ) (span : ItemSpan) : ItemSpan :=
  ⟨span.start + a, span.stop + a, span.sep_end + a, span.eq.map (· + a)⟩

/-- Where the first pass stands: whether a quote would open, whether an `=` was seen since a value
last started, and the quote that is open, with whether a backslash takes the next character. -/
structure Reading where
  at_start : Bool
  seen_eq : Bool
  quote : Option (Char × Bool)

namespace Reading

/-- At the start of a text, and behind a comma outside quotes. -/
def start : Reading := ⟨true, false, none⟩

/-- One character outside quotes. -/
def plain (wide : Bool) (i : ℕ) (r : Reading) (c : Char) : Option Mark × Reading :=
  if r.at_start ∧ Str.isWhiteSpace c then (none, r)
  else if r.at_start ∧ (c = '"' ∨ c = '\'') then (none, ⟨false, r.seen_eq, some (c, false)⟩)
  else if c = ',' then (some (.Comma i 1), start)
  else if wide ∧ c = '，' then (some (.Comma i 1), ⟨false, r.seen_eq, none⟩)
  else if c = '(' then (some .Open, ⟨true, false, none⟩)
  else if c = ')' then (some .Close, ⟨false, r.seen_eq, none⟩)
  else if c = '=' ∧ r.seen_eq = false then (some (.Eq i), ⟨true, true, none⟩)
  else (none, ⟨false, r.seen_eq, none⟩)

/-- One character, at place `i`: what is noted of it, and where the pass stands behind it. -/
def step (wide : Bool) (i : ℕ) (r : Reading) (c : Char) : Option Mark × Reading :=
  match r.quote with
  | some (q, true) => (none, ⟨r.at_start, r.seen_eq, some (q, false)⟩)
  | some (q, false) =>
    if q = '"' ∧ c = '\\' then (none, ⟨r.at_start, r.seen_eq, some (q, true)⟩)
    else if c = q then (none, ⟨r.at_start, r.seen_eq, none⟩)
    else (none, r)
  | none => r.plain wide i c

/-- The marks of a text, one character after the other. -/
def scan (wide : Bool) (i : ℕ) (r : Reading) : Str → List Mark
  | [] => []
  | c :: rest => (r.step wide i c).1.toList ++ scan wide (i + 1) (r.step wide i c).2 rest

end Reading

/-- The first pass is one step for each character. -/
theorem marks_eq_scan (wide : Bool) : ∀ (text : Str) (i : ℕ) (at_start seen_eq : Bool)
    (quote : Option Char), marks wide i at_start seen_eq quote text =
      Reading.scan wide i ⟨at_start, seen_eq, quote.map (·, false)⟩ text
  | [], _, _, _, _ => by rw [marks, Reading.scan]
  | c :: rest, i, at_start, seen_eq, some q => by
    rw [marks.eq_def]
    simp only [Reading.scan, Reading.step, Option.map_some]
    split_ifs with hescape hclose
    · cases rest with
      | nil => rfl
      | cons c' rest =>
        dsimp only
        rw [marks_eq_scan wide rest]
        rfl
    · rw [marks_eq_scan wide rest]
      rfl
    · rw [marks_eq_scan wide rest]
      rfl
  | c :: rest, i, at_start, seen_eq, none => by
    rw [marks.eq_def]
    simp only [Reading.scan, Reading.step, Reading.plain, Option.map_none]
    split_ifs with hblank
    · rw [marks_eq_scan wide rest, hblank.1]
      rfl
    all_goals
      rw [marks_eq_scan wide rest]
      rfl
termination_by text => text.length

theorem Reading.step_shift (wide : Bool) (a i : ℕ) (r : Reading) (c : Char) :
    r.step wide (i + a) c =
      ((r.step wide i c).1.map (Mark.shift a), (r.step wide i c).2) := by
  unfold Reading.step
  split
  case h_1 => rfl
  case h_2 => split_ifs <;> rfl
  case h_3 =>
    unfold Reading.plain
    split_ifs <;> rfl

/-- The marks of a text further on. -/
theorem Reading.scan_shift (wide : Bool) (a i : ℕ) (r : Reading) (text : Str) :
    scan wide (i + a) r text = (scan wide i r text).map (Mark.shift a) := by
  induction text generalizing i r with
  | nil => rfl
  | cons c rest ih =>
    rw [scan, scan, Reading.step_shift, Nat.add_right_comm, ih, List.map_append]
    cases (r.step wide i c).1 <;> rfl

/-- A comma is noted where one stands outside quotes, and the pass begins anew behind it. -/
theorem Reading.step_comma {i pos width : ℕ} {r : Reading} {c : Char}
    (h : (r.step false i c).1 = some (.Comma pos width)) :
    c = ',' ∧ pos = i ∧ width = 1 ∧ (r.step false i c).2 = start := by
  unfold Reading.step at h ⊢
  split at h
  case h_1 => cases h
  case h_2 =>
    split_ifs at h
  case h_3 =>
    unfold Reading.plain at h ⊢
    split_ifs at h ⊢ with hblank hquote hcomma hwide
    · cases h
      exact ⟨hcomma, rfl, rfl, rfl⟩
    · exact hwide.1.elim
    all_goals cases h

/-- **The first pass is cut at a comma it notes**: before it stand the marks of the text before, and
behind it those of the text behind, read from the start. -/
theorem Reading.scan_split {i pos width : ℕ} {r : Reading} {text : Str} {before after : List Mark}
    (h : scan false i r text = before ++ .Comma pos width :: after) :
    ∃ j, text[j]? = some ',' ∧ pos = i + j ∧ width = 1 ∧ scan false i r (text.take j) = before ∧
      scan false (i + j + 1) start (text.drop (j + 1)) = after := by
  induction text generalizing i r before with
  | nil => simp [scan] at h
  | cons c rest ih =>
    have hrest : ∀ {before' : List Mark}, scan false (i + 1) (r.step false i c).2 rest =
        before' ++ .Comma pos width :: after → ∃ j, (c :: rest)[j]? = some ',' ∧ pos = i + j ∧
          width = 1 ∧ scan false i r ((c :: rest).take j) =
            (r.step false i c).1.toList ++ before' ∧
              scan false (i + j + 1) start ((c :: rest).drop (j + 1)) = after := by
      intro before' h'
      obtain ⟨j, hj, hpos, hwidth, hbefore, hafter⟩ := ih h'
      refine ⟨j + 1, hj, by omega, hwidth, ?_, ?_⟩
      · rw [List.take_succ_cons, scan, hbefore]
      · rw [List.drop_succ_cons, ← hafter]
        congr 1
        omega
    rw [scan] at h
    cases hm : (r.step false i c).1 with
    | none =>
      rw [hm] at h hrest
      exact hrest h
    | some m =>
      rw [hm] at h hrest
      cases before with
      | nil =>
        obtain ⟨rfl, hafter⟩ := List.cons.inj h
        obtain ⟨rfl, rfl, rfl, hstart⟩ := Reading.step_comma hm
        refine ⟨0, rfl, rfl, rfl, rfl, ?_⟩
        rw [← hafter, hstart]
        rfl
      | cons m' before =>
        obtain ⟨rfl, hafter⟩ := List.cons.inj h
        exact hrest hafter

/-! ### The second pass -/

/-- The marks as the pairing sees them. -/
def brackets (ms : List Mark) : List Bracket := ms.map Mark.bracket

@[simp] theorem brackets_cons (m : Mark) (ms : List Mark) :
    brackets (m :: ms) = m.bracket :: brackets ms := rfl

/-- A mark without a partner. -/
theorem pair_alone {m : Mark} {ms : List Mark} {k : ℕ} {opened : List ℕ} {front : List Bool}
    (hfront : front.length = k) (hopened : ∀ o ∈ opened, o < k)
    (ih : ∀ (k : ℕ) (opened : List ℕ) (front : List Bool), front.length = k →
      (∀ o ∈ opened, o < k) → pair k opened (front ++ List.replicate ms.length false) ms =
        settle 0 opened (brackets ms) front ++ partners opened.length (brackets ms))
    (hm : m.bracket = .other) :
    pair (k + 1) opened (front ++ false :: List.replicate ms.length false) ms =
      settle 0 opened (brackets (m :: ms)) front ++
        partners opened.length (brackets (m :: ms)) := by
  have hlater : ∀ o ∈ opened, o < k + 1 := fun o ho => Nat.lt_succ_of_lt (hopened o ho)
  have hsettle : settle 0 opened (brackets ms) front =
      settle 0 opened (.other :: brackets ms) front :=
    settle_congr (fun j => (returns_other _ _).symm) _ _
  have hpartners : false :: partners opened.length (brackets ms) =
      partners opened.length (.other :: brackets ms) := by
    cases opened <;> rfl
  rw [List.append_cons, ih _ _ _ (by simp [hfront]) hlater,
    settle_append fun o ho => hfront ▸ hopened o ho, brackets_cons, hm, hsettle, ← hpartners,
    List.append_assoc]
  rfl

/-- **The pairing by places is the pairing of brackets.** -/
theorem pair_eq (ms : List Mark) : ∀ (k : ℕ) (opened : List ℕ) (front : List Bool),
    front.length = k → (∀ o ∈ opened, o < k) →
      pair k opened (front ++ List.replicate ms.length false) ms =
        settle 0 opened (brackets ms) front ++ partners opened.length (brackets ms) := by
  induction ms with
  | nil =>
    intro k opened front _ _
    rw [pair, brackets, List.map_nil, settle_nil]
    cases opened <;> rfl
  | cons m ms ih =>
    intro k opened front hfront hopened
    rw [List.length_cons, List.replicate_succ]
    cases m with
    | Comma pos width => exact pair_alone hfront hopened ih rfl
    | Eq pos => exact pair_alone hfront hopened ih rfl
    | Open =>
      have hset : (if returns 0 (brackets ms) = true then (front ++ [false]).set k true
          else front ++ [false]) = front ++ [returns 0 (brackets ms)] := by
        cases returns 0 (brackets ms) with
        | false => rfl
        | true =>
          rw [if_pos rfl, List.set_append_right _ _ (by omega), hfront, Nat.sub_self]
          rfl
      have hsettle : settle 1 opened (brackets ms) front =
          settle 0 opened (.opening :: brackets ms) front :=
        settle_congr (fun j => by rw [returns_opening, Nat.zero_add, Nat.add_comm]) _ _
      rw [pair, List.append_cons, ih _ _ _ (by simp [hfront]) (by
        intro o ho
        rcases List.mem_cons.1 ho with rfl | ho
        · exact Nat.lt_succ_self _
        · exact Nat.lt_succ_of_lt (hopened o ho)), settle, hset,
        settle_append fun o ho => hfront ▸ hopened o ho, hsettle, List.append_assoc]
      rfl
    | Close =>
      cases opened with
      | nil =>
        rw [pair, List.append_cons, ih _ _ _ (by simp [hfront])
          (fun o ho => absurd ho List.not_mem_nil), settle, settle, List.append_assoc]
        rfl
      | cons o opened =>
        have ho := hopened o List.mem_cons_self
        have hset : ((front ++ false :: List.replicate ms.length false).set o true).set k true =
            (front.set o true ++ [true]) ++ List.replicate ms.length false := by
          rw [List.set_append_left _ _ (by omega), List.set_append_right _ _ (by simp; omega),
            List.length_set, hfront, Nat.sub_self, List.append_assoc]
          rfl
        have hsettle : settle 0 opened (brackets ms) (front.set o true) =
            settle 1 opened (.closing :: brackets ms) (front.set o true) :=
          settle_congr (fun j => by
            rw [Nat.add_comm 1 j, returns_closing_succ, Nat.zero_add]) _ _
        rw [pair, hset, ih _ _ _ (by simp [hfront]) fun o' ho' =>
          Nat.lt_succ_of_lt (hopened o' (List.mem_cons_of_mem _ ho')),
          settle_append fun o' ho' => by
            rw [List.length_set, hfront]
            exact hopened o' (List.mem_cons_of_mem _ ho'), hsettle, List.append_assoc]
        rfl

/-! ### The cuts -/

/-- The cuts of the marks `ms`, `d` parentheses being open before them. -/
def cuts (size d start : ℕ) (eq : Option ℕ) (ms : List Mark) : List ItemSpan :=
  cut_items size (pending d (brackets ms)) start eq (ms.zip (partners d (brackets ms)))

/-- **The items of a text are the cuts of its marks.** -/
theorem item_spans_eq (text : Str) :
    item_spans text false = cuts text.length 0 0 none (Reading.scan false 0 .start text) := by
  have hmarks : marks false 0 true false none text = Reading.scan false 0 .start text :=
    marks_eq_scan ..
  have hpair := pair_eq (Reading.scan false 0 .start text) 0 [] [] rfl fun o ho => nomatch ho
  rw [item_spans, hmarks]
  exact congrArg (fun flags => cut_items text.length 0 0 none (List.zip _ flags)) hpair

section

variable {size d start : ℕ} {eq : Option ℕ} {ms : List Mark}

@[simp] theorem cuts_nil : cuts size d start eq [] = [⟨start, size, size, eq⟩] := rfl

@[simp] theorem cuts_open : cuts size d start eq (.Open :: ms) = cuts size (d + 1) start eq ms := by
  unfold cuts
  rw [pending_opening]
  cases hr : returns 0 (brackets ms) with
  | true => simp [brackets_cons, Mark.bracket, partners, hr, cut_items]
  | false => simp [brackets_cons, Mark.bracket, partners, hr, cut_items]

@[simp] theorem cuts_close :
    cuts size d start eq (.Close :: ms) = cuts size (d - 1) start eq ms := by
  unfold cuts
  cases d with
  | zero => simp [brackets_cons, Mark.bracket, partners, pending, cut_items]
  | succ d => simp [brackets_cons, Mark.bracket, partners, pending_closing, cut_items]

theorem cuts_eq (pos : ℕ) : cuts size d start eq (.Eq pos :: ms) =
    cuts size d start (if pending d (brackets ms) = 0 ∧ eq = none then some pos else eq) ms := by
  unfold cuts
  rw [brackets_cons, Mark.bracket, pending_other]
  have hpartners : partners d (.other :: brackets ms) = false :: partners d (brackets ms) := by
    cases d <;> rfl
  rw [hpartners, List.zip_cons_cons, cut_items]
  split_ifs <;> rfl

theorem cuts_comma (pos width : ℕ) : cuts size d start eq (.Comma pos width :: ms) =
    if pending d (brackets ms) = 0 then
      ⟨start, pos, pos + width, eq⟩ :: cuts size d (pos + width) none ms
    else cuts size d start eq ms := by
  unfold cuts
  rw [brackets_cons, Mark.bracket, pending_other]
  have hpartners : partners d (.other :: brackets ms) = false :: partners d (brackets ms) := by
    cases d <;> rfl
  rw [hpartners, List.zip_cons_cons, cut_items]

/-- Where none of the open parentheses is closed, the cuts are as if nothing were open. -/
theorem cuts_settled (h : Settled d (brackets ms)) :
    cuts size d start eq ms = cuts size 0 start eq ms := by
  unfold cuts
  rcases h with rfl | hnot
  · rfl
  · have hpending := pending_drop hnot d
    have hpartners := partners_drop hnot d
    rw [Nat.add_zero] at hpending hpartners
    rw [hpending, hpartners]

/-- The cuts of marks further on. -/
theorem cuts_shift (a : ℕ) :
    cuts (size + a) d (start + a) (eq.map (· + a)) (ms.map (Mark.shift a)) =
      (cuts size d start eq ms).map (ItemSpan.shift a) := by
  have hbrackets : ∀ ms : List Mark, brackets (ms.map (Mark.shift a)) = brackets ms := fun ms => by
    simp [brackets, Function.comp_def]
  induction ms generalizing d start eq with
  | nil => rfl
  | cons m ms ih =>
    rw [List.map_cons]
    cases m with
    | Open => rw [Mark.shift, cuts_open, cuts_open, ih]
    | Close => rw [Mark.shift, cuts_close, cuts_close, ih]
    | Eq pos =>
      rw [Mark.shift, cuts_eq, cuts_eq, hbrackets, ← ih]
      congr 1
      cases eq <;> simp
    | Comma pos width =>
      have hplace : pos + a + width = pos + width + a := by omega
      rw [Mark.shift, cuts_comma, cuts_comma, hbrackets]
      split_ifs
      · rw [List.map_cons, ← ih, hplace]
        rfl
      · exact ih

/-- **The first cut**: what stands before it is cut alone as it is there, and what stands behind it
as if nothing stood before. -/
theorem cuts_first : (∃ eq', cuts size d start eq ms = [⟨start, size, size, eq'⟩]) ∨
    ∃ before after pos width eq', ms = before ++ .Comma pos width :: after ∧
      Settled (openAfter d (brackets before)) (brackets after) ∧
        cuts pos d start eq before = [⟨start, pos, pos, eq'⟩] ∧
          cuts size d start eq ms =
            ⟨start, pos, pos + width, eq'⟩ :: cuts size 0 (pos + width) none after := by
  induction ms generalizing d eq with
  | nil => exact .inl ⟨eq, rfl⟩
  | cons m ms ih =>
    have hsame : ∀ {before after : List Mark} {pos width d : ℕ},
        ms = before ++ .Comma pos width :: after →
          Settled (openAfter d (brackets before)) (brackets after) →
            (pending d (brackets ms) = 0 ↔ pending d (brackets before) = 0) := by
      rintro before after pos width d rfl hsettled
      rw [pending_eq_zero, pending_eq_zero]
      have happend : brackets (before ++ .Comma pos width :: after) =
          brackets before ++ .other :: brackets after := by simp [brackets, Mark.bracket]
      rw [happend]
      exact settled_append (hsettled.imp_right fun h => by rwa [returns_other])
    cases m with
    | Open =>
      rw [cuts_open]
      rcases @ih (d + 1) eq with hone | ⟨before, after, pos, width, eq', hms, hsettled,
        halone, hcuts⟩
      · exact .inl hone
      · exact .inr ⟨.Open :: before, after, pos, width, eq', by rw [hms]; rfl, hsettled,
          by rw [cuts_open, halone], hcuts⟩
    | Close =>
      rw [cuts_close]
      rcases @ih (d - 1) eq with hone | ⟨before, after, pos, width, eq', hms, hsettled,
        halone, hcuts⟩
      · exact .inl hone
      · exact .inr ⟨.Close :: before, after, pos, width, eq', by rw [hms]; rfl, hsettled,
          by rw [cuts_close, halone], hcuts⟩
    | Eq e =>
      rw [cuts_eq]
      rcases @ih d (if pending d (brackets ms) = 0 ∧ eq = none then some e else eq) with
        hone | ⟨before, after, pos, width, eq', hms, hsettled, halone, hcuts⟩
      · exact .inl hone
      · refine .inr ⟨.Eq e :: before, after, pos, width, eq', by rw [hms]; rfl, hsettled, ?_, hcuts⟩
        rw [cuts_eq]
        simp only [hsame hms hsettled] at halone
        exact halone
    | Comma pos width =>
      rw [cuts_comma]
      by_cases hzero : pending d (brackets ms) = 0
      · have hsettled := pending_eq_zero.1 hzero
        rw [if_pos hzero, cuts_settled hsettled]
        exact .inr ⟨[], ms, pos, width, eq, rfl, hsettled, rfl, rfl⟩
      · rw [if_neg hzero]
        rcases @ih d eq with hone | ⟨before, after, pos', width', eq', hms, hsettled,
          halone, hcuts⟩
        · exact .inl hone
        · refine .inr ⟨.Comma pos width :: before, after, pos', width', eq', by rw [hms]; rfl,
            hsettled, ?_, hcuts⟩
          rw [cuts_comma, if_neg (fun h => hzero ((hsame hms hsettled).2 h)), halone]

end

/-! ### The law -/

theorem Reading.scan_at (p : ℕ) (text : Str) :
    scan false p start text = (scan false 0 start text).map (Mark.shift p) := by
  have h := scan_shift false p 0 start text
  rwa [Nat.zero_add] at h

/-- **The first item of a text**: it is the whole text, or ends at a comma; read alone it is the
same, and the rest is cut as if it stood alone. -/
theorem item_spans_first (text : Str) :
    (∃ eq, item_spans text false = [⟨0, text.length, text.length, eq⟩]) ∨
      ∃ p eq, text[p]? = some ',' ∧ item_spans (text.take p) false = [⟨0, p, p, eq⟩] ∧
        item_spans text false =
          ⟨0, p, p + 1, eq⟩ :: (item_spans (text.drop (p + 1)) false).map (·.shift (p + 1)) := by
  rw [item_spans_eq]
  rcases cuts_first with hone | ⟨before, after, pos, width, eq, hms, -, halone, hcuts⟩
  · exact .inl hone
  · obtain ⟨p, hcomma, rfl, rfl, hbefore, hafter⟩ := Reading.scan_split hms
    have hlt : p < text.length := (List.getElem?_eq_some_iff.1 hcomma).1
    rw [Nat.zero_add] at halone hcuts hafter
    refine .inr ⟨p, eq, hcomma, ?_, ?_⟩
    · rw [item_spans_eq, hbefore, List.length_take, Nat.min_eq_left hlt.le]
      exact halone
    · have hsize : (text.drop (p + 1)).length + (p + 1) = text.length := by
        rw [List.length_drop]
        omega
      have hshift := @cuts_shift (text.drop (p + 1)).length 0 0 none
        (Reading.scan false 0 .start (text.drop (p + 1))) (p + 1)
      rw [hsize, Nat.zero_add, ← Reading.scan_at, hafter] at hshift
      rw [hcuts, item_spans_eq, ← hshift]
      rfl

/-- The items of a text and the separators between them, from place `i` on. -/
def Tiles (text : Str) (i : ℕ) : List ItemSpan → Prop
  | [] => False
  | [span] => span.start = i ∧ i ≤ span.stop ∧ span.stop = text.length ∧ span.sep_end = span.stop
  | span :: spans => span.start = i ∧ i ≤ span.stop ∧ text[span.stop]? = some ',' ∧
      span.sep_end = span.stop + 1 ∧ Tiles text span.sep_end spans

/-- How a text is cut. -/
structure CutAnywhere (text : Str) : Prop where
  /-- read again from behind a separator, the rest is cut where it was -/
  rest : ∀ (k : ℕ) (span : ItemSpan), (item_spans text false)[k]? = some span →
    k + 1 < (item_spans text false).length →
      (item_spans (text.drop span.sep_end) false).map (·.shift span.sep_end) =
        (item_spans text false).drop (k + 1)
  /-- an item read alone is that item -/
  alone : ∀ span ∈ item_spans text false,
    (item_spans (slice text span.start span.stop) false).map (·.shift span.start) =
      [{ span with sep_end := span.stop }]
  tiles : Tiles text 0 (item_spans text false)

theorem shift_comp_shift (a b : ℕ) :
    (fun span : ItemSpan => span.shift a) ∘ (fun span : ItemSpan => span.shift b) =
      fun span : ItemSpan => span.shift (b + a) := by
  funext span
  simp [ItemSpan.shift, Nat.add_assoc, Option.map_map, Function.comp_def]

theorem shift_zero (span : ItemSpan) : span.shift 0 = span := by
  cases span
  simp [ItemSpan.shift]

theorem slice_shift (text : Str) (a i j : ℕ) :
    slice text (i + a) (j + a) = slice (text.drop a) i j := by
  rw [slice, slice, List.take_drop, List.drop_drop, Nat.add_comm a j, Nat.add_comm a i]

theorem tiles_shift {text : Str} {a : ℕ} (ha : a ≤ text.length) {spans : List ItemSpan} {i : ℕ}
    (h : Tiles (text.drop a) i spans) : Tiles text (i + a) (spans.map (·.shift a)) := by
  induction spans generalizing i with
  | nil => exact h
  | cons span spans ih =>
    cases spans with
    | nil =>
      obtain ⟨hstart, hle, hstop, hsep⟩ := h
      rw [List.length_drop] at hstop
      refine ⟨congrArg (· + a) hstart, Nat.add_le_add_right hle a, ?_, congrArg (· + a) hsep⟩
      simp only [ItemSpan.shift]
      omega
    | cons next spans =>
      obtain ⟨hstart, hle, hcomma, hsep, hrest⟩ := h
      refine ⟨congrArg (· + a) hstart, Nat.add_le_add_right hle a, ?_, ?_, ih hrest⟩
      · rw [List.getElem?_drop, Nat.add_comm] at hcomma
        exact hcomma
      · simp only [ItemSpan.shift]
        omega

theorem tiles_cons {text : Str} {i : ℕ} {span : ItemSpan} {spans : List ItemSpan}
    (hstart : span.start = i) (hle : i ≤ span.stop) (hcomma : text[span.stop]? = some ',')
    (hsep : span.sep_end = span.stop + 1) (h : Tiles text span.sep_end spans) :
    Tiles text i (span :: spans) := by
  cases spans with
  | nil => exact h.elim
  | cons next spans => exact ⟨hstart, hle, hcomma, hsep, h⟩

theorem CutAnywhere.one {text : Str} {eq : Option ℕ}
    (h : item_spans text false = [⟨0, text.length, text.length, eq⟩]) : CutAnywhere text where
  rest := fun k span _ hlt => by
    rw [h, List.length_singleton] at hlt
    omega
  alone := fun span hspan => by
    rw [h, List.mem_singleton] at hspan
    subst hspan
    rw [show slice text 0 text.length = text from List.take_length, h, List.map_singleton,
      shift_zero]
  tiles := by
    rw [h]
    exact ⟨rfl, Nat.zero_le _, rfl, rfl⟩

theorem CutAnywhere.more {text : Str} {p : ℕ} {eq : Option ℕ} (hcomma : text[p]? = some ',')
    (halone : item_spans (text.take p) false = [⟨0, p, p, eq⟩])
    (hcuts : item_spans text false =
      ⟨0, p, p + 1, eq⟩ :: (item_spans (text.drop (p + 1)) false).map (·.shift (p + 1)))
    (h : CutAnywhere (text.drop (p + 1))) : CutAnywhere text := by
  have hlt : p < text.length := (List.getElem?_eq_some_iff.1 hcomma).1
  refine ⟨fun k span hspan hk => ?_, fun span hspan => ?_, ?_⟩
  · rw [hcuts] at hspan hk ⊢
    cases k with
    | zero =>
      cases hspan
      rfl
    | succ k =>
      rw [List.getElem?_cons_succ, List.getElem?_map, Option.map_eq_some_iff] at hspan
      obtain ⟨span', hspan', rfl⟩ := hspan
      rw [List.length_cons, List.length_map] at hk
      have hsep : (span'.shift (p + 1)).sep_end = span'.sep_end + (p + 1) := rfl
      rw [List.drop_succ_cons, ← List.map_drop, ← h.rest k span' hspan' (by omega), List.map_map,
        List.drop_drop, shift_comp_shift, hsep, Nat.add_comm (p + 1)]
  · rw [hcuts] at hspan
    rcases List.mem_cons.1 hspan with rfl | hspan
    · rw [show slice text 0 p = text.take p from rfl, halone, List.map_singleton, shift_zero]
    · obtain ⟨span', hspan', rfl⟩ := List.mem_map.1 hspan
      have hone := congrArg (List.map (·.shift (p + 1))) (h.alone span' hspan')
      rw [List.map_map, shift_comp_shift, ← slice_shift] at hone
      exact hone
  · rw [hcuts]
    have hrest := tiles_shift (Nat.succ_le_of_lt hlt) h.tiles
    rw [Nat.zero_add] at hrest
    exact tiles_cons rfl (Nat.zero_le p) hcomma rfl hrest

/-- **A list is cut the same from behind any separator, an item read alone is that item, and the
items and their separators are the whole text.** -/
theorem cutting_law (text : Str) : CutAnywhere text := by
  induction hn : text.length using Nat.strong_induction_on generalizing text with
  | _ n ih =>
    rcases item_spans_first text with ⟨eq, hone⟩ | ⟨p, eq, hcomma, halone, hcuts⟩
    · exact .one hone
    · have hlt : p < text.length := (List.getElem?_eq_some_iff.1 hcomma).1
      refine .more hcomma halone hcuts (ih _ ?_ _ rfl)
      rw [List.length_drop]
      omega

end Value

end Rurge
