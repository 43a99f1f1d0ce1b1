import Rurge.Lib.Bisect
import Rurge.Rules.DomainIndex

/-!
# The domain index as it lies in memory

`domain_index.rs` keeps the keys in one sorted array and the entries in two beside it, and searches
the keys by halves.  `arrays_of_rows` says that these are the rows of `Rules.DomainIndex`, so a
lookup in them finds the same (`lookup_eq`), which is the smallest entry of the names it should find
(`lookup_smallest`).
-/

namespace Rurge

open DomainIndex DomainIndexBuilder

/-- The source's `DomainIndex`. -/
structure DomainArrays where
  keys : List Str
  exact : List ℕ
  suffix : List ℕ
  deriving DecidableEq

namespace DomainArrays

/-- One more item of the sorted ones: a key and two slots, unless the last key is the item's, and
then the entry into the last slot of its kind. -/
def push (a : DomainArrays) (it : Item) : DomainArrays :=
  let same := a.keys.getLast? = some it.key
  let a := if same then a else
    ⟨a.keys ++ [it.key], a.exact ++ [NO_ENTRY], a.suffix ++ [NO_ENTRY]⟩
  match it.kind with
  | .exact => { a with exact := a.exact.modifyLast (better · it.entry) }
  | .suffix => { a with suffix := a.suffix.modifyLast (better · it.entry) }

def build (b : DomainIndexBuilder) : DomainArrays :=
  (b.insertionSort le).foldl push ⟨[], [], []⟩

/-- `str::cmp`. -/
def order (a b : Str) : Ordering := if a < b then .lt else if b < a then .gt else .eq

def slot (a : DomainArrays) (key : Str) : Option ℕ := Bisect.search (order · key) a.keys

/-- `consider`, once for each hit that is looked at. -/
def considered (a : DomainArrays) (full : Str) : List DomainHit :=
  (Fields.prefixes '.' full).flatMap (fun p =>
    ((a.slot p).bind fun s => a.suffix[s]?.map fun e => ⟨e, .suffix⟩).toList) ++
  ((a.slot full).bind fun s => a.suffix[s]?.map fun e => ⟨e, .suffix⟩).toList ++
  ((a.slot full).bind fun s => a.exact[s]?.map fun e => ⟨e, .exact⟩).toList

/-- The hit with the smallest entry number, or `none`. -/
def lookup (a : DomainArrays) (host : Str) : Option DomainHit :=
  match reverseLabels host with
  | some full => (a.considered full).foldl consider none
  | none => none

/-! ### The rows in three arrays -/

/-- The arrays whose rows, last one first, are `rows`. -/
def ofRows (rows : List Row) : DomainArrays :=
  ⟨rows.reverse.map (·.key), rows.reverse.map (·.exact), rows.reverse.map (·.suffix)⟩

theorem modifyLast_pair (f : ℕ → ℕ) (l : List ℕ) (x y : ℕ) :
    (l ++ [x, y]).modifyLast f = l ++ [x, f y] := by
  simpa using List.modifyLast_concat f y (l ++ [x])

theorem push_ofRows (rows : List Row) (it : Item) :
    (ofRows rows).push it = ofRows (place rows it) := by
  cases rows with
  | nil =>
    have hone (f : ℕ → ℕ) (x : ℕ) : [x].modifyLast f = [f x] := List.modifyLast_concat f x []
    cases hkind : it.kind <;> simp [push, ofRows, place, put, hkind, hone]
  | cons row rows =>
    by_cases h : row.key = it.key
    · cases hkind : it.kind <;> simp [push, ofRows, place, put, hkind, h, List.modifyLast_concat]
    · cases hkind : it.kind <;> simp [push, ofRows, place, put, hkind, h, modifyLast_pair]

theorem build_eq (b : DomainIndexBuilder) : build b = ofRows b.build.rows := by
  have hfold (items : List Item) (rows : List Row) :
      items.foldl push (ofRows rows) = ofRows (items.foldl DomainIndexBuilder.place rows) := by
    induction items generalizing rows with
    | nil => rfl
    | cons it items ih => rw [List.foldl_cons, List.foldl_cons, push_ofRows, ih]
  exact hfold (b.insertionSort le) []

theorem rows_descend {items : List Item} (hs : items.Pairwise fun a b => a.key ≤ b.key) :
    (items.foldl DomainIndexBuilder.place []).Pairwise fun a b => b.key < a.key := by
  have hle : (items.foldl DomainIndexBuilder.place []).Pairwise fun a b => b.key ≤ a.key := by
    induction items using List.reverseRecOn with
    | nil => exact .nil
    | append_singleton items it ih =>
      rw [List.pairwise_append] at hs
      obtain ⟨hs, -, hlast⟩ := hs
      have hrows := ih hs
      have hnew : ∀ row ∈ items.foldl DomainIndexBuilder.place [], row.key ≤ it.key := by
        intro row hrow
        obtain ⟨i, hi, hkey⟩ := (holds_foldl_place items hs).occurs row hrow
        exact hkey ▸ hlast i hi it (List.mem_singleton_self it)
      rw [List.foldl_append, List.foldl_cons, List.foldl_nil]
      cases hfold : items.foldl DomainIndexBuilder.place [] with
      | nil => exact List.pairwise_singleton ..
      | cons row rows =>
        rw [hfold] at hrows hnew
        by_cases h : row.key = it.key
        · rw [DomainIndexBuilder.place, if_pos h]
          rw [List.pairwise_cons] at hrows ⊢
          simpa using hrows
        · rw [DomainIndexBuilder.place, if_neg h]
          refine List.pairwise_cons.2 ⟨fun r hr => ?_, hrows⟩
          rw [put_key]
          exact hnew r hr
  exact (hle.and (holds_foldl_place items hs).distinct).imp fun h => lt_of_le_of_ne h.1 h.2.symm

/-- The keys are sorted, each one once. -/
theorem keys_ascend (b : DomainIndexBuilder) : (build b).keys.Pairwise (· < ·) := by
  have hsorted : (b.insertionSort le).Pairwise fun x y => x.key ≤ y.key := by
    refine (List.pairwise_insertionSort le b).imp ?_
    rintro x y (h | ⟨h, -⟩)
    · exact h.le
    · exact h.le
  rw [build_eq]
  exact List.pairwise_map.2 (List.pairwise_reverse.2 (rows_descend hsorted))

theorem order_gt (a b : Str) : order a b = .gt ↔ b < a := by
  unfold order
  split_ifs with hlt hgt
  · exact iff_of_false nofun hlt.asymm
  · exact iff_of_true rfl hgt
  · exact iff_of_false nofun hgt

theorem order_eq (a b : Str) : order a b = .eq ↔ a = b := by
  unfold order
  split_ifs with hlt hgt
  · exact iff_of_false nofun hlt.ne
  · exact iff_of_false nofun hgt.ne'
  · exact iff_of_true rfl (le_antisymm (not_lt.1 hgt) (not_lt.1 hlt))

/-- The search finds the place of the row that `slot` finds, or there is none. -/
theorem slot_cases (b : DomainIndexBuilder) (key : Str) :
    (b.build.slot key = none ∧ (build b).slot key = none) ∨
      ∃ row s, b.build.slot key = some row ∧ (build b).slot key = some s ∧
        (build b).exact[s]? = some row.exact ∧ (build b).suffix[s]? = some row.suffix := by
  have hfound (s : ℕ) : (build b).slot key = some s ↔ (build b).keys[s]? = some key :=
    Bisect.search_eq_some (keys_ascend b) (order_gt · key) (order_eq · key)
  rw [build_eq] at hfound ⊢
  cases hrow : b.build.slot key with
  | none =>
    refine .inl ⟨rfl, ?_⟩
    rw [Option.eq_none_iff_forall_ne_some]
    intro s hs
    have hkeys := (hfound s).1 hs
    rw [ofRows, List.getElem?_map, Option.map_eq_some_iff] at hkeys
    obtain ⟨row, hmem, hkey⟩ := hkeys
    have hnot := List.find?_eq_none.1 hrow row (List.mem_reverse.1 (List.mem_of_getElem? hmem))
    simp [hkey] at hnot
  | some row =>
    have hkey : row.key = key := by simpa using List.find?_some hrow
    have hmem := List.mem_reverse.2 (List.mem_of_find?_eq_some hrow)
    obtain ⟨s, hs⟩ := List.mem_iff_getElem?.1 hmem
    refine .inr ⟨row, s, rfl, (hfound s).2 ?_, ?_, ?_⟩
    · rw [ofRows, List.getElem?_map, hs, Option.map_some, hkey]
    · rw [ofRows, List.getElem?_map, hs, Option.map_some]
    · rw [ofRows, List.getElem?_map, hs, Option.map_some]

theorem considered_eq (b : DomainIndexBuilder) (full : Str) :
    (build b).considered full = b.build.candidates full := by
  rw [considered, candidates, List.append_assoc]
  congr 1
  · refine List.flatMap_congr fun p _ => ?_
    rcases slot_cases b p with ⟨hrow, hs⟩ | ⟨row, s, hrow, hs, -, hsuffix⟩
    · rw [hrow, hs]
      rfl
    · rw [hrow, hs, Option.bind_some, hsuffix]
      rfl
  · rcases slot_cases b full with ⟨hrow, hs⟩ | ⟨row, s, hrow, hs, hexact, hsuffix⟩
    · rw [hrow, hs]
      rfl
    · rw [hrow, hs, Option.bind_some, Option.bind_some, hsuffix, hexact]
      rfl

/-- **A lookup in the arrays finds what one in the rows does.** -/
theorem lookup_eq (b : DomainIndexBuilder) (host : Str) :
    (build b).lookup host = b.build.lookup host := by
  rw [lookup, DomainIndex.lookup]
  cases reverseLabels host with
  | none => rfl
  | some full =>
    dsimp only
    rw [considered_eq]

/-! ### What a lookup finds -/

/-- A call of `add_exact` or of `add_suffix`. -/
structure Call where
  kind : DomainMatchKind
  domain : Str
  entry : ℕ

def added (calls : List Call) : DomainIndexBuilder :=
  calls.foldl (fun b c => match c.kind with
    | .exact => b.addExact c.domain c.entry
    | .suffix => b.addSuffix c.domain c.entry) []

/-- The name is the host's, or for a suffix the host's end from a label on, both in normal form. -/
def Call.Names (c : Call) (host : Str) : Prop :=
  normal c.domain = normal host ∨
    (c.kind = .suffix ∧ ∃ head, normal host = head ++ '.' :: normal c.domain)

theorem mem_added {calls : List Call} {it : Item} :
    it ∈ added calls ↔ ∃ c ∈ calls, reverseLabels c.domain = some it.key ∧ c.entry = it.entry ∧
      c.kind = it.kind := by
  have hadd (b : DomainIndexBuilder) (c : Call) : it ∈ b.add c.domain c.entry c.kind ↔
      it ∈ b ∨ (reverseLabels c.domain = some it.key ∧ c.entry = it.entry ∧ c.kind = it.kind) := by
    obtain ⟨key, entry, kind⟩ := it
    rw [DomainIndexBuilder.add]
    cases reverseLabels c.domain with
    | none => simp
    | some k => simp [eq_comm]
  induction calls using List.reverseRecOn with
  | nil => simp [added]
  | append_singleton calls c ih =>
    have hcall : added (calls ++ [c]) = (added calls).add c.domain c.entry c.kind := by
      rw [added, List.foldl_append, List.foldl_cons, List.foldl_nil]
      cases c.kind <;> rfl
    rw [hcall, hadd, or_congr_left ih]
    simp [or_and_right, exists_or]

/-- An item is hit when its name is the host's or ends it. -/
theorem hits_iff {c : Call} {it : Item} {host full : Str}
    (hkey : reverseLabels c.domain = some it.key) (hkind : c.kind = it.kind)
    (hfull : reverseLabels host = some full) : it.Hits full ↔ c.Names host := by
  obtain ⟨-, hkey⟩ := reverseLabels_eq_some.1 hkey
  obtain ⟨-, hfull⟩ := reverseLabels_eq_some.1 hfull
  rw [Item.Hits, ← hkey, ← hfull, (Fields.reverseFields_injective '.').eq_iff,
    Fields.reverseFields_mem_prefixes, ← hkind]
  rfl

/-- **A lookup finds the smallest entry of the names that are not empty and name the host, and
nothing when there is none.** -/
theorem lookup_smallest (calls : List Call) (h : ∀ c ∈ calls, c.entry < NO_ENTRY) (host : Str) :
    (∀ hit, (build (added calls)).lookup host = some hit →
      (∃ c ∈ calls, normal c.domain ≠ [] ∧ c.Names host ∧ c.entry = hit.entry) ∧
      ∀ c ∈ calls, normal c.domain ≠ [] → c.Names host → hit.entry ≤ c.entry) ∧
    ((build (added calls)).lookup host = none ↔
      ∀ c ∈ calls, normal c.domain ≠ [] → ¬ c.Names host) := by
  have hentry : ∀ it ∈ added calls, it.entry ≤ NO_ENTRY := fun it hit => by
    obtain ⟨c, hc, -, hentry, -⟩ := mem_added.1 hit
    exact hentry ▸ (h c hc).le
  -- a call that names the host has an item that is hit
  have hitem {full : Str} (hfull : reverseLabels host = some full) {c : Call} (hc : c ∈ calls)
      (hne : normal c.domain ≠ []) (hn : c.Names host) :
      ∃ it ∈ added calls, it.Hits full ∧ it.entry = c.entry := by
    have hkey := reverseLabels_eq_some.2 ⟨hne, rfl⟩
    exact ⟨⟨_, c.entry, c.kind⟩, mem_added.2 ⟨c, hc, hkey, rfl, rfl⟩,
      (hits_iff hkey rfl hfull).2 hn, rfl⟩
  have hsome (hit : DomainHit) (hl : (build (added calls)).lookup host = some hit) :
      (∃ c ∈ calls, normal c.domain ≠ [] ∧ c.Names host ∧ c.entry = hit.entry) ∧
      ∀ c ∈ calls, normal c.domain ≠ [] → c.Names host → hit.entry ≤ c.entry := by
    rw [lookup_eq] at hl
    obtain ⟨full, hfull, -, ⟨it, hmem, hhits, heq, -⟩, hmin⟩ := lookup_some hentry hl
    obtain ⟨c, hc, hkey, hce, hkind⟩ := mem_added.1 hmem
    refine ⟨⟨c, hc, (reverseLabels_eq_some.1 hkey).1, (hits_iff hkey hkind hfull).1 hhits,
      hce.trans heq⟩, fun c' hc' hne hn => ?_⟩
    obtain ⟨it', hmem', hhits', heq'⟩ := hitem hfull hc' hne hn
    exact heq' ▸ hmin it' hmem' hhits' (heq' ▸ (h c' hc').ne)
  refine ⟨hsome, fun hl c hc hne hn => ?_, fun hnone => ?_⟩
  · rw [lookup_eq] at hl
    have hhost : normal host ≠ [] := by
      rcases hn with hn | ⟨-, head, hn⟩
      · exact hn ▸ hne
      · rw [hn]
        simp
    have hfull := reverseLabels_eq_some.2 ⟨hhost, rfl⟩
    obtain ⟨it, hmem, hhits, heq⟩ := hitem hfull hc hne hn
    exact (h c hc).ne (heq ▸ lookup_none hentry hl hfull it hmem hhits)
  · cases hl : (build (added calls)).lookup host with
    | none => rfl
    | some hit =>
      obtain ⟨⟨c, hc, hne, hn, -⟩, -⟩ := hsome hit hl
      exact absurd hn (hnone c hc hne)

/-- Two names for one host, one by its end: the smaller entry is found. -/
theorem lookup_two_names :
    let calls : List Call := [⟨.exact, ['a', '.', 'b'], 7⟩, ⟨.suffix, ['B', '.'], 3⟩]
    (build (added calls)).lookup ['a', '.', 'b'] = some ⟨3, .suffix⟩ ∧
      ∀ c ∈ calls, normal c.domain ≠ [] → c.Names ['a', '.', 'b'] → 3 ≤ c.entry := by
  intro calls
  have hl : (build (added calls)).lookup ['a', '.', 'b'] = some ⟨3, .suffix⟩ := by decide
  exact ⟨hl, ((lookup_smallest calls (by decide) _).1 _ hl).2⟩

/-- An empty name is not added, so an empty host is not found by it. -/
theorem lookup_empty_name :
    let call : Call := ⟨.exact, ['.'], 0⟩
    call.Names ['.'] ∧ (build (added [call])).lookup ['.'] = none :=
  ⟨.inl rfl, by decide⟩

end DomainArrays

end Rurge
