import Rurge.Config.RequirementText

/-!
# The directive of a line

Where a line is cut: at its start, where a directive begins and its name ends, or else at the last
marker that stands outside quotes after a blank, or at a tag the line ends in (`split_line_spec`).
-/

namespace Rurge

namespace Config

namespace Requirement

/-! ### Quotes -/

/-- Where a reader of a line is: outside double quotes, inside them, or after a backslash there. -/
inductive Quote
  | outside
  | inside
  | escaped
  deriving DecidableEq

def Quote.next : Quote → Char → Quote
  | .outside, c => if c = '"' then .inside else .outside
  | .inside, c => if c = '\\' then .escaped else if c = '"' then .outside else .inside
  | .escaped, _ => .inside

/-- Where a reader is after a text. -/
def quote_after (s : Str) : Quote := s.foldl Quote.next .outside

theorem quote_after_concat (s : Str) (c : Char) :
    quote_after (s ++ [c]) = (quote_after s).next c := by
  rw [quote_after, List.foldl_concat]
  rfl

/-- A marker stands at a place outside double quotes, a blank before it. -/
def Standing (marker line : Str) (p : ℕ) : Prop :=
  quote_after (line.take p) = .outside ∧ (line.take p).getLast?.any is_ascii_whitespace = true ∧
    marker <+: line.drop p

/-- The last place before `n` where the marker stands, if there is one. -/
def Last (marker line : Str) (n : ℕ) : Option ℕ → Prop
  | none => ∀ p < n, ¬Standing marker line p
  | some p => p < n ∧ Standing marker line p ∧ ∀ q < n, p < q → ¬Standing marker line q

theorem Last.skip {marker line : Str} {n : ℕ} {found : Option ℕ} (h : Last marker line n found)
    (hn : ¬Standing marker line n) : Last marker line (n + 1) found := by
  cases found with
  | none =>
    intro p hp
    rcases Nat.lt_succ_iff_lt_or_eq.1 hp with hp | rfl
    · exact h p hp
    · exact hn
  | some p =>
    refine ⟨h.1.trans (Nat.lt_succ_self n), h.2.1, fun q hq hpq => ?_⟩
    rcases Nat.lt_succ_iff_lt_or_eq.1 hq with hq | rfl
    · exact h.2.2 q hq hpq
    · exact hn

theorem Last.found {marker line : Str} {n : ℕ} (hn : Standing marker line n) :
    Last marker line (n + 1) (some n) :=
  ⟨Nat.lt_succ_self n, hn, fun _ hq hlt => absurd (Nat.lt_succ_iff.1 hq) hlt.not_ge⟩

/-- A place after the text `before`. -/
theorem standing_append {marker before rest : Str} :
    Standing marker (before ++ rest) before.length ↔
      quote_after before = .outside ∧ before.getLast?.any is_ascii_whitespace = true ∧
        marker <+: rest := by
  rw [Standing, List.take_left, List.drop_left]

/-- The scanner at a place: what it remembers is what stands before. -/
theorem find_suffix_marker_from {marker : Str} {blank in_quotes : Bool} {i : ℕ} {found : Option ℕ}
    {rest : Str} (hmarker : ∀ s, ¬marker <+: '"' :: s) (before : Str) (hi : i = before.length)
    (hblank : before.getLast?.any is_ascii_whitespace = blank)
    (hquote : quote_after before = if in_quotes then .inside else .outside)
    (hfound : Last marker (before ++ rest) i found) :
    Last marker (before ++ rest) (before ++ rest).length
      (find_suffix_marker marker blank in_quotes i found rest) := by
  fun_induction find_suffix_marker marker blank in_quotes i found rest generalizing before with
  | case1 blank in_quotes i found =>
    rw [List.append_nil] at hfound ⊢
    exact hi ▸ hfound
  | case2 blank i found =>
    have hstand : ¬Standing marker (before ++ ['\\']) i := by
      rw [hi, standing_append, hquote]
      simp
    rw [List.length_append, List.length_singleton, ← hi]
    exact hfound.skip hstand
  | case3 blank i found next rest ih =>
    have hescaped : quote_after (before ++ ['\\']) = .escaped := by
      rw [quote_after_concat, hquote]
      rfl
    have hfirst : ¬Standing marker (before ++ '\\' :: next :: rest) i := by
      rw [hi, standing_append, hquote]
      simp
    have hsecond : ¬Standing marker (before ++ '\\' :: next :: rest) (i + 1) := by
      have heq : before ++ '\\' :: next :: rest = (before ++ ['\\']) ++ next :: rest := by simp
      have hlen : i + 1 = (before ++ ['\\']).length := by simp [hi]
      rw [heq, hlen, standing_append, hescaped]
      simp
    have heq : before ++ '\\' :: next :: rest = (before ++ ['\\'] ++ [next]) ++ rest := by simp
    rw [heq] at hfound hfirst hsecond ⊢
    refine ih _ (by simp [hi]) (by rw [List.getLast?_concat]; rfl) ?_
      ((hfound.skip hfirst).skip hsecond)
    rw [quote_after_concat, hescaped]
    rfl
  | case4 blank i found c rest hc ih =>
    have hstand : ¬Standing marker (before ++ c :: rest) i := by
      rw [hi, standing_append, hquote]
      simp
    have heq : before ++ c :: rest = (before ++ [c]) ++ rest := by simp
    rw [heq] at hfound hstand ⊢
    refine ih _ (by simp [hi]) (by rw [List.getLast?_concat]; rfl) ?_ (hfound.skip hstand)
    rw [quote_after_concat, hquote]
    by_cases hq : c = '"' <;> simp [Quote.next, hc, hq]
  | case5 blank in_quotes i found rest hout ih =>
    rw [if_neg hout] at hquote
    have hstand : ¬Standing marker (before ++ '"' :: rest) i := by
      rw [hi, standing_append]
      exact fun h => hmarker rest h.2.2
    have heq : before ++ '"' :: rest = (before ++ ['"']) ++ rest := by simp
    rw [heq] at hfound hstand ⊢
    refine ih _ (by simp [hi]) (by rw [List.getLast?_concat]; rfl) ?_ (hfound.skip hstand)
    rw [quote_after_concat, hquote]
    rfl
  | case6 blank in_quotes i found c rest hout hc ih =>
    rw [if_neg hout] at hquote
    have hstand : Standing marker (before ++ c :: rest) i ↔
        blank = true ∧ marker.isPrefixOf (c :: rest) = true := by
      rw [hi, standing_append, hblank, List.isPrefixOf_iff_prefix]
      exact and_iff_right hquote
    have heq : before ++ c :: rest = (before ++ [c]) ++ rest := by simp
    rw [heq] at hfound hstand ⊢
    refine ih _ (by simp [hi]) (by rw [List.getLast?_concat]; rfl) ?_ ?_
    · rw [quote_after_concat, hquote]
      simp [Quote.next, hc]
    · split_ifs with hmarker
      · exact Last.found (hstand.2 hmarker)
      · exact hfound.skip fun h => hmarker (hstand.1 h)

/-- The two markers of a requirement at the end of a line. -/
def MARKERS : List Str := ["#!REQUIREMENT".toList, "//!REQUIREMENT".toList]

/-- The scanner finds the last place where the marker stands. -/
theorem find_suffix_marker_last {marker : Str} (h : marker ∈ MARKERS) (line : Str) :
    Last marker line line.length (find_suffix_marker marker false false 0 none line) := by
  refine find_suffix_marker_from (fun s hs => ?_) [] rfl rfl rfl
    fun _ hp => absurd hp (Nat.not_lt_zero _)
  simp only [MARKERS, List.mem_cons, List.not_mem_nil, or_false] at h
  rcases h with rfl | rfl <;> simp at hs

/-! ### Slices -/

/-- Two slices of a text, one wholly before the other. -/
def Before (line a b : Str) : Prop := ∃ x y z, line = x ++ a ++ y ++ b ++ z

theorem before_of_infix {line s t u a b : Str} (h : line = s ++ t ++ u) (ha : a <:+: s)
    (hb : b <:+: u) : Before line a b := by
  obtain ⟨x, y, rfl⟩ := ha
  obtain ⟨z, w, rfl⟩ := hb
  exact ⟨x, y ++ t ++ z, w, by simp [h]⟩

theorem trim_within (s : Str) : Str.trim s <:+: s :=
  (List.rdropWhile_prefix _ _).isInfix.trans (List.dropWhile_suffix _).isInfix

/-- An expression and what follows it are slices of what follows the directive. -/
theorem take_expr_before {rest expr after : Str} (h : take_expr rest = .ok (expr, after)) :
    ∃ x y, rest = x ++ expr ++ y ++ after := by
  obtain ⟨x, hx⟩ := List.dropWhile_suffix (l := rest) Str.isWhiteSpace
  unfold take_expr at h
  split at h
  · cases h
  · rename_i inner hinner
    split_ifs at h with hmem
    rw [Except.ok.injEq, Prod.mk.injEq] at h
    obtain ⟨rfl, rfl⟩ := h
    obtain ⟨s, t, rfl, hs⟩ := List.eq_append_cons_of_mem hmem
    have hne : ∀ c ∈ s, decide (c ≠ '"') = true := fun c hc =>
      decide_eq_true fun heq => hs (heq ▸ hc)
    rw [List.takeWhile_append_of_pos hne, List.dropWhile_append_of_pos hne]
    rw [hinner] at hx
    exact ⟨x ++ ['"'], ['"'], by simp [← hx]⟩
  · rw [Except.ok.injEq, Prod.mk.injEq] at h
    obtain ⟨rfl, rfl⟩ := h
    exact ⟨x, [], by rw [List.append_nil, List.append_assoc, List.takeWhile_append_dropWhile, hx]⟩

/-! ### Where a line is cut -/

/-- A directive whose name ends begins a line: `#!REQUIREMENT`, or a tag at the end of the line or
before a blank. -/
def NameEnds (t : Str) : Prop :=
  "#!REQUIREMENT".toList <+: t ∨ ∃ tag expr rest, (tag, expr) ∈ SIMPLIFIED ∧
    t = "#!".toList ++ tag ++ rest ∧ rest.head?.all Str.isWhiteSpace = true

/-- A line ends in a tag after a blank. -/
def TagEnds (t : Str) : Prop :=
  ∃ tag expr start body, (tag, expr) ∈ SIMPLIFIED ∧ start ∈ ["#!".toList, "//!".toList] ∧
    t = body ++ (start ++ tag) ∧ body.getLast?.any Str.isWhiteSpace = true

/-- A line cut at its start. -/
def CutAtStart (t : Str) : Except Str (Option Str × Str) → Prop
  | .ok (some expr, content) => "#!REQUIREMENT".toList <+: t ∧ Before t expr content ∨
      ∃ tag rest, (tag, expr) ∈ SIMPLIFIED ∧ t = "#!".toList ++ tag ++ rest ∧
        content = Str.trim rest
  | .ok (none, _) => False
  | .error _ => "#!REQUIREMENT".toList <+: t

/-- A line cut at its end, or not at all. -/
def CutAtEnd (t : Str) : Except Str (Option Str × Str) → Prop
  | .ok (some expr, content) =>
      (∃ marker ∈ MARKERS, ∃ p, Last marker t t.length (some p) ∧ content = Str.trim (t.take p) ∧
        expr <:+: t.drop (p + marker.length) ∧ Before t content expr) ∨
      (∀ marker ∈ MARKERS, Last marker t t.length none) ∧
        ∃ tag start body, (tag, expr) ∈ SIMPLIFIED ∧ start ∈ ["#!".toList, "//!".toList] ∧
          t = body ++ (start ++ tag) ∧ body.getLast?.any Str.isWhiteSpace = true ∧
          content = Str.trim body
  | .ok (none, content) =>
      content = t ∧ (∀ marker ∈ MARKERS, Last marker t t.length none) ∧ ¬TagEnds t
  | .error _ => ∃ marker ∈ MARKERS, ∃ p, Last marker t t.length (some p) ∧
      Str.trim (t.drop (p + marker.length)) = []

theorem stripPrefix_eq_some {start s rest : Str} :
    Str.stripPrefix start s = some rest ↔ s = start ++ rest := by
  rw [Str.stripPrefix, List.isPrefixOf?_eq_some_iff_append_eq]
  exact eq_comm

theorem stripSuffix_eq_some {stop s rest : Str} :
    Str.stripSuffix stop s = some rest ↔ s = rest ++ stop := by
  rw [Str.stripSuffix, List.isSuffixOf?_eq_some_iff_append_eq]
  exact eq_comm

theorem stripPrefix_isSome {start s : Str} : (∃ rest, Str.stripPrefix start s = some rest) ↔
    start <+: s := by
  constructor
  · rintro ⟨rest, h⟩
    exact ⟨rest, (stripPrefix_eq_some.1 h).symm⟩
  · rintro ⟨rest, h⟩
    exact ⟨rest, stripPrefix_eq_some.2 h.symm⟩

/-- Where a directive begins with a name that ends, the section parser sees one. -/
theorem NameEnds.prefixed {t : Str} (h : NameEnds t) : is_requirement_prefix t = true := by
  have hdir : ∀ name rest : Str, t = "#!".toList ++ name ++ rest →
      ("REQUIREMENT".toList.isPrefixOf (name ++ rest) ||
        SIMPLIFIED.any (·.1.isPrefixOf (name ++ rest))) = true →
      is_requirement_prefix t = true := by
    intro name rest ht hany
    have hstrip : Str.stripPrefix "#!".toList t = some (name ++ rest) :=
      stripPrefix_eq_some.2 (by rw [ht, List.append_assoc])
    rw [ is_requirement_prefix, hstrip]
    exact hany
  rcases h with ⟨rest, hrest⟩ | ⟨tag, expr, rest, hmem, ht, -⟩
  · refine hdir "REQUIREMENT".toList rest hrest.symm ?_
    rw [List.isPrefixOf_iff_prefix.2 (List.prefix_append _ _), Bool.true_or]
  · refine hdir tag rest ht ?_
    rw [Bool.or_eq_true, List.any_eq_true]
    exact .inr ⟨_, hmem, List.isPrefixOf_iff_prefix.2 (List.prefix_append _ _)⟩

theorem leading_tag_eq_some {t expr content : Str} (h : leading_tag t = some (expr, content)) :
    ∃ tag rest, (tag, expr) ∈ SIMPLIFIED ∧ t = "#!".toList ++ tag ++ rest ∧
      rest.head?.all Str.isWhiteSpace = true ∧ content = Str.trim rest := by
  obtain ⟨⟨tag, expr'⟩, hmem, htag⟩ := List.exists_of_findSome?_eq_some h
  dsimp only at htag
  cases hstrip : Str.stripPrefix ("#!".toList ++ tag) t with
  | none =>
    rw [hstrip] at htag
    cases htag
  | some rest =>
    simp only [hstrip] at htag
    split_ifs at htag with hblank
    rw [Option.some.injEq, Prod.mk.injEq] at htag
    obtain ⟨rfl, rfl⟩ := htag
    exact ⟨tag, rest, hmem, stripPrefix_eq_some.1 hstrip, hblank, rfl⟩

theorem leading_tag_eq_none {t : Str} (h : leading_tag t = none) {tag expr rest : Str}
    (hmem : (tag, expr) ∈ SIMPLIFIED) (ht : t = "#!".toList ++ tag ++ rest) :
    ¬rest.head?.all Str.isWhiteSpace = true := by
  intro hblank
  have htag := List.findSome?_eq_none_iff.1 h (tag, expr) hmem
  dsimp only at htag
  rw [stripPrefix_eq_some.2 ht] at htag
  simp [hblank] at htag

theorem trailing_tag_eq_some {t expr content : Str} (h : trailing_tag t = some (expr, content)) :
    ∃ tag start body, (tag, expr) ∈ SIMPLIFIED ∧ start ∈ ["#!".toList, "//!".toList] ∧
      t = body ++ (start ++ tag) ∧ body.getLast?.any Str.isWhiteSpace = true ∧
      content = Str.trim body := by
  obtain ⟨⟨tag, expr'⟩, hmem, htag⟩ := List.exists_of_findSome?_eq_some h
  obtain ⟨start, hstart, htag⟩ := List.exists_of_findSome?_eq_some htag
  cases hstrip : Str.stripSuffix (start ++ tag) t with
  | none =>
    rw [hstrip] at htag
    cases htag
  | some body =>
    simp only [hstrip] at htag
    split_ifs at htag with hblank
    rw [Option.some.injEq, Prod.mk.injEq] at htag
    obtain ⟨rfl, rfl⟩ := htag
    exact ⟨tag, start, body, hmem, hstart, stripSuffix_eq_some.1 hstrip, hblank, rfl⟩

theorem trailing_tag_eq_none {t : Str} (h : trailing_tag t = none) : ¬TagEnds t := by
  rintro ⟨tag, expr, start, body, hmem, hstart, ht, hblank⟩
  have htag := List.findSome?_eq_none_iff.1 h (tag, expr) hmem
  have hone := List.findSome?_eq_none_iff.1 htag start hstart
  rw [stripSuffix_eq_some.2 ht] at hone
  simp [hblank] at hone

/-- What is cut off at a marker. -/
theorem trailing_requirement_eq_some {t : Str} {r : Except Str (Str × Str)}
    (h : trailing_requirement t = some r) :
    CutAtEnd t (r.map fun (expr, content) => (some expr, content)) := by
  obtain ⟨marker, hmarker, hmap⟩ := List.exists_of_findSome?_eq_some h
  obtain ⟨p, hp, hr⟩ := Option.map_eq_some_iff.1 hmap
  have hlast := find_suffix_marker_last hmarker t
  rw [hp] at hlast
  simp only at hr
  split_ifs at hr with hempty
  · subst hr
    exact ⟨marker, hmarker, p, hlast, hempty⟩
  · subst hr
    have hinfix : (((Str.stripPrefix ['"'] (Str.trim (t.drop (p + marker.length)))).bind
        (Str.stripSuffix ['"'])).getD (Str.trim (t.drop (p + marker.length)))) <:+:
        t.drop (p + marker.length) := by
      refine List.IsInfix.trans ?_ (trim_within _)
      generalize Str.trim (t.drop (p + marker.length)) = expr
      cases hinner : (Str.stripPrefix ['"'] expr).bind (Str.stripSuffix ['"']) with
      | none => exact List.infix_rfl
      | some inner =>
        obtain ⟨mid, hmid, hin⟩ := Option.bind_eq_some_iff.1 hinner
        rw [stripPrefix_eq_some.1 hmid, stripSuffix_eq_some.1 hin]
        exact ⟨['"'], ['"'], by simp⟩
    obtain ⟨rest, hrest⟩ := hlast.2.1.2.2
    have hdrop : t.drop (p + marker.length) = rest := by
      rw [← List.drop_drop, ← hrest, List.drop_left]
    have hsplit : t = t.take p ++ marker ++ t.drop (p + marker.length) := by
      rw [hdrop, List.append_assoc, hrest, List.take_append_drop]
    exact .inl ⟨marker, hmarker, p, hlast, rfl, hinfix,
      before_of_infix hsplit (trim_within _) hinfix⟩

theorem trailing_requirement_eq_none {t : Str} (h : trailing_requirement t = none) :
    ∀ marker ∈ MARKERS, Last marker t t.length none := by
  intro marker hmarker
  have hnone := Option.map_eq_none_iff.1 (List.findSome?_eq_none_iff.1 h marker hmarker)
  have hlast := find_suffix_marker_last hmarker t
  rwa [hnone] at hlast

/-- **Where a line is cut.**  At its start exactly where the section parser sees a directive and its
name ends; otherwise at the last marker of a requirement that stands outside quotes after a blank,
or at a tag the line ends in; what is cut off and what is left are slices of the line. -/
theorem split_line_spec (line : Str) :
    let t := Str.trim line
    (NameEnds t → is_requirement_prefix t = true ∧ CutAtStart t (split_line line)) ∧
      (¬NameEnds t → CutAtEnd t (split_line line)) := by
  intro t
  refine ⟨fun h => ⟨h.prefixed, ?_⟩, fun h => ?_⟩
  · unfold split_line
    cases hdir : Str.stripPrefix "#!REQUIREMENT".toList t with
    | some rest =>
      have hstart := stripPrefix_isSome.1 ⟨rest, hdir⟩
      cases hexpr : take_expr rest with
      | error e =>
        simp only [t] at hdir hstart
        simp only [hdir, hexpr, Except.map]
        exact hstart
      | ok p =>
        obtain ⟨expr, after⟩ := p
        obtain ⟨x, y, hxy⟩ := take_expr_before hexpr
        have hbefore : Before t expr (Str.trim after) := by
          refine before_of_infix (s := "#!REQUIREMENT".toList ++ x ++ expr) (t := y) (u := after) ?_
            ⟨"#!REQUIREMENT".toList ++ x, [], by simp⟩ (trim_within _)
          rw [stripPrefix_eq_some.1 hdir, hxy]
          simp
        simp only [t] at hdir hbefore hstart
        simp only [hdir, hexpr, Except.map]
        exact .inl ⟨hstart, hbefore⟩
    | none =>
      rcases h with hstart | ⟨tag, expr, rest, hmem, ht, hblank⟩
      · obtain ⟨rest, hrest⟩ := stripPrefix_isSome.2 hstart
        rw [hdir] at hrest
        cases hrest
      · cases hlead : leading_tag t with
        | none => exact absurd hblank (leading_tag_eq_none hlead hmem ht)
        | some p =>
          obtain ⟨expr', content⟩ := p
          obtain ⟨tag', rest', hmem', ht', -, hcontent⟩ := leading_tag_eq_some hlead
          simp only [t] at hdir hlead
          simp only [hdir, hlead]
          exact .inr ⟨tag', rest', hmem', ht', hcontent⟩
  · unfold split_line
    have hdir : Str.stripPrefix "#!REQUIREMENT".toList t = none := by
      rw [Option.eq_none_iff_forall_not_mem]
      exact fun rest hrest => h (.inl (stripPrefix_isSome.1 ⟨rest, hrest⟩))
    have hlead : leading_tag t = none := by
      rw [Option.eq_none_iff_forall_not_mem]
      rintro ⟨expr, content⟩ hp
      obtain ⟨tag, rest, hmem, ht, hblank, -⟩ := leading_tag_eq_some hp
      exact h (.inr ⟨tag, expr, rest, hmem, ht, hblank⟩)
    simp only [t] at hdir hlead
    simp only [hdir, hlead]
    cases htrail : trailing_requirement t with
    | some r =>
      exact trailing_requirement_eq_some htrail
    | none =>
      have hnone := trailing_requirement_eq_none htrail
      cases htag : trailing_tag t with
      | some p =>
        obtain ⟨expr, content⟩ := p
        exact .inr ⟨hnone, trailing_tag_eq_some htag⟩
      | none => exact ⟨rfl, hnone, trailing_tag_eq_none htag⟩

/-- **What a requirement says.**  A text is accepted with a tree exactly when its tokens are a
sentence of the grammar with that tree; the tree evaluates to what the sentence means; a tree that
can be written is read back from its text with the fewest parentheses, up to the association of
equal operators; and a line is cut where a directive begins whose name ends, or else at its end. -/
theorem requirement_spec (given : Given) :
    (∀ src e, parse given src = .ok e ↔
      ∃ toks, tokenize given (Str.trim src) = .ok toks ∧ Sentence .or e toks) ∧
    (∀ src e env, parse given src = .ok e →
      ∃ toks, tokenize given (Str.trim src) = .ok toks ∧ (∃ p, Means given env .or toks p) ∧
        ∀ p, Means given env .or toks p → (eval given env e = true ↔ p)) ∧
    (∀ words e, e.Written → (∃ e', parse given (text words e) = .ok e' ∧ Same e' e) ∧
      ∀ src e' toks, parse given src = .ok e' → Same e' e →
        tokenize given (Str.trim src) = .ok toks → parens (print words .or e) ≤ parens toks) ∧
    ∀ line, (NameEnds (Str.trim line) →
        is_requirement_prefix (Str.trim line) = true ∧
          CutAtStart (Str.trim line) (split_line line)) ∧
      (¬NameEnds (Str.trim line) → CutAtEnd (Str.trim line) (split_line line)) := by
  refine ⟨fun src e => parse_eq_ok, fun src e env h => ?_,
    fun words e h => parse_text given words h, split_line_spec⟩
  obtain ⟨toks, htoks, hsent⟩ := parse_eq_ok.1 h
  exact ⟨toks, htoks, hsent.eval_iff⟩

/-- A line that only begins like a tag, and a line whose expression is the tag's. -/
theorem begins_like_tag :
    is_requirement_prefix "#!LINUX-ONLYX DOMAIN,a,REJECT".toList = true ∧
    split_line "#!LINUX-ONLYX DOMAIN,a,REJECT".toList =
      .ok (none, "#!LINUX-ONLYX DOMAIN,a,REJECT".toList) ∧
    split_line "#!IOS-ONLY DOMAIN,a,REJECT".toList =
      .ok (some "SYSTEM == 'iOS'".toList, "DOMAIN,a,REJECT".toList) ∧
    ¬"SYSTEM == 'iOS'".toList <:+: "#!IOS-ONLY DOMAIN,a,REJECT".toList := by
  refine ⟨by decide +kernel, by decide +kernel, by decide +kernel, fun h => ?_⟩
  have hmem : '=' ∈ "SYSTEM == 'iOS'".toList := by decide +kernel
  have hnot : '=' ∉ "#!IOS-ONLY DOMAIN,a,REJECT".toList := by decide +kernel
  exact hnot (h.subset hmem)

end Requirement

end Config

end Rurge
