import Rurge.Lib.Fields
import Rurge.Text

/-!
# The domain index

Exact and suffix names over reversed labels: `www.example.com` is kept as `com.example.www` in one
sorted table, and a lookup tries every prefix of the reversed host that ends at a label.  The rows
of the table stand for the source's three parallel arrays.

`lookup_some` and `lookup_none` say what a lookup finds in terms of the names that were added.
-/

namespace Rurge

/-- Slot value meaning "no entry". -/
def NO_ENTRY : ℕ := 2 ^ 32 - 1

inductive DomainMatchKind
  | exact
  | suffix
  deriving DecidableEq

structure DomainHit where
  entry : ℕ
  kind : DomainMatchKind
  deriving DecidableEq

namespace DomainIndex

/-- A name without the blanks and dots around it, folded. -/
def normal (domain : Str) : Str := Str.toAsciiLowercase (Str.trimMatches '.' (Str.trim domain))

/-- `www.Example.com.` gives `com.example.www`; `none` for an empty name. -/
def reverseLabels (domain : Str) : Option Str :=
  let d := normal domain
  if d = [] then none else some (Fields.reverseFields '.' d)

theorem reverseLabels_eq_some {t full : Str} :
    reverseLabels t = some full ↔
      normal t ≠ [] ∧ Fields.reverseFields '.' (normal t) = full := by
  unfold reverseLabels
  by_cases h : normal t = [] <;> simp [h]

theorem reverseLabels_eq_none {t : Str} : reverseLabels t = none ↔ normal t = [] := by
  unfold reverseLabels
  by_cases h : normal t = [] <;> simp [h]

/-- A name added to the index. -/
structure Item where
  key : Str
  entry : ℕ
  kind : DomainMatchKind

/-- A key with its two slots. -/
structure Row where
  key : Str
  exact : ℕ
  suffix : ℕ

end DomainIndex

/-- The rows, last one first. -/
structure DomainIndex where
  rows : List DomainIndex.Row

abbrev DomainIndexBuilder := List DomainIndex.Item

namespace DomainIndexBuilder

open DomainIndex

def add (b : DomainIndexBuilder) (domain : Str) (entry : ℕ) (kind : DomainMatchKind) :
    DomainIndexBuilder :=
  match reverseLabels domain with
  | some k => b ++ [⟨k, entry, kind⟩]
  | none => b

def addExact (b : DomainIndexBuilder) (domain : Str) (entry : ℕ) : DomainIndexBuilder :=
  b.add domain entry .exact

def addSuffix (b : DomainIndexBuilder) (domain : Str) (entry : ℕ) : DomainIndexBuilder :=
  b.add domain entry .suffix

/-- The order of the items: by key, then by entry. -/
def le (a b : Item) : Prop := a.key < b.key ∨ (a.key = b.key ∧ a.entry ≤ b.entry)

instance : DecidableRel le := fun a b =>
  inferInstanceAs (Decidable (a.key < b.key ∨ (a.key = b.key ∧ a.entry ≤ b.entry)))

/-- The slot after one more entry. -/
def better (slot entry : ℕ) : ℕ := if slot = NO_ENTRY ∨ entry < slot then entry else slot

def put (row : Row) (it : Item) : Row :=
  match it.kind with
  | .exact => { row with exact := better row.exact it.entry }
  | .suffix => { row with suffix := better row.suffix it.entry }

/-- One more item: into the last row when that has its key, else into a new one. -/
def place (rows : List Row) (it : Item) : List Row :=
  match rows with
  | [] => [put ⟨it.key, NO_ENTRY, NO_ENTRY⟩ it]
  | row :: rows =>
    if row.key = it.key then put row it :: rows
    else put ⟨it.key, NO_ENTRY, NO_ENTRY⟩ it :: row :: rows

def build (b : DomainIndexBuilder) : DomainIndex := ⟨(b.insertionSort le).foldl place []⟩

end DomainIndexBuilder

namespace DomainIndex

open DomainIndexBuilder

def isEmpty (idx : DomainIndex) : Bool := idx.rows.isEmpty

/-- The row of a key; the source finds it by a binary search. -/
def slot (idx : DomainIndex) (key : Str) : Option Row := idx.rows.find? (·.key == key)

/-- A candidate taken when it is an entry and smaller than the best so far. -/
def consider (best : Option DomainHit) (c : DomainHit) : Option DomainHit :=
  if c.entry ≠ NO_ENTRY ∧ best.all (c.entry < ·.entry) then some c else best

/-- What a lookup looks at: the suffixes of the names above the host, then the host's own two
slots. -/
def candidates (idx : DomainIndex) (full : Str) : List DomainHit :=
  (Fields.prefixes '.' full).flatMap
      (fun p => ((idx.slot p).map fun r => ⟨r.suffix, .suffix⟩).toList)
    ++ ((idx.slot full).map fun r => [⟨r.suffix, .suffix⟩, ⟨r.exact, .exact⟩]).getD []

/-- The hit with the smallest entry number, or `none`. -/
def lookup (idx : DomainIndex) (host : Str) : Option DomainHit :=
  match reverseLabels host with
  | some full => (idx.candidates full).foldl consider none
  | none => none

/-! ### The table -/

/-- The entries of one key and kind, in the order they were added. -/
def entriesOf (items : List Item) (key : Str) (kind : DomainMatchKind) : List ℕ :=
  (items.filter fun it => it.key = key ∧ it.kind = kind).map (·.entry)

/-- The slot of one key and kind. -/
def slotOf (items : List Item) (key : Str) (kind : DomainMatchKind) : ℕ :=
  (entriesOf items key kind).foldl better NO_ENTRY

theorem slotOf_concat (items : List Item) (it : Item) (key : Str) (kind : DomainMatchKind) :
    slotOf (items ++ [it]) key kind =
      if it.key = key ∧ it.kind = kind then better (slotOf items key kind) it.entry
      else slotOf items key kind := by
  by_cases h : it.key = key ∧ it.kind = kind
  · simp [slotOf, entriesOf, List.filter_append, h]
  · rw [if_neg h]
    simp [slotOf, entriesOf, List.filter_append, h]

/-- What the rows hold once `items` are placed. -/
structure Holds (items : List Item) (rows : List Row) : Prop where
  head : rows.head?.map (·.key) = items.getLast?.map (·.key)
  distinct : rows.Pairwise fun a b => a.key ≠ b.key
  covers : ∀ it ∈ items, ∃ row ∈ rows, row.key = it.key
  occurs : ∀ row ∈ rows, ∃ it ∈ items, it.key = row.key
  exact : ∀ row ∈ rows, row.exact = slotOf items row.key .exact
  suffix : ∀ row ∈ rows, row.suffix = slotOf items row.key .suffix

@[simp] theorem put_key (row : Row) (it : Item) : (put row it).key = row.key := by
  unfold put; cases it.kind <;> rfl

theorem put_exact (row : Row) (it : Item) :
    (put row it).exact = if it.kind = .exact then better row.exact it.entry else row.exact := by
  unfold put; cases it.kind <;> simp

theorem put_suffix (row : Row) (it : Item) :
    (put row it).suffix = if it.kind = .suffix then better row.suffix it.entry else row.suffix := by
  unfold put; cases it.kind <;> simp

theorem slotOf_fresh {items : List Item} {key : Str} (h : ∀ it ∈ items, it.key ≠ key)
    (kind : DomainMatchKind) : slotOf items key kind = NO_ENTRY := by
  have hnil : entriesOf items key kind = [] := by
    rw [entriesOf, List.map_eq_nil_iff, List.filter_eq_nil_iff]
    intro it hit
    simp [h it hit]
  simp [slotOf, hnil]

/-- A row beside the one an item goes into keeps its slots. -/
theorem slotOf_other {items : List Item} {it : Item} {key : Str} (h : it.key ≠ key)
    (kind : DomainMatchKind) : slotOf (items ++ [it]) key kind = slotOf items key kind := by
  rw [slotOf_concat, if_neg (fun hk => h hk.1)]

/-- The item goes into the row of its key. -/
theorem Holds.place_last {items : List Item} {row : Row} {rows : List Row} {it : Item}
    (h : Holds items (row :: rows)) (hkey : row.key = it.key) :
    Holds (items ++ [it]) (put row it :: rows) := by
  have hother : ∀ r ∈ rows, it.key ≠ r.key := fun r hr =>
    hkey ▸ (List.pairwise_cons.1 h.distinct).1 r hr
  constructor
  · simp [hkey]
  · rw [List.pairwise_cons] at *
    simpa using h.distinct
  · intro i hi
    rcases List.mem_append.1 hi with hi | hi
    · obtain ⟨r, hr, hrk⟩ := h.covers i hi
      rcases List.mem_cons.1 hr with rfl | hr
      · exact ⟨_, List.mem_cons_self, by simpa using hrk⟩
      · exact ⟨r, List.mem_cons_of_mem _ hr, hrk⟩
    · obtain rfl := List.mem_singleton.1 hi
      exact ⟨_, List.mem_cons_self, by simpa using hkey⟩
  · intro r hr
    rcases List.mem_cons.1 hr with rfl | hr
    · exact ⟨it, by simp, by simp [hkey]⟩
    · obtain ⟨i, hi, hik⟩ := h.occurs r (List.mem_cons_of_mem _ hr)
      exact ⟨i, List.mem_append_left _ hi, hik⟩
  · intro r hr
    rcases List.mem_cons.1 hr with rfl | hr
    · rw [put_exact, put_key, slotOf_concat, ← h.exact row List.mem_cons_self]
      simp [hkey]
    · rw [slotOf_other (hother r hr), h.exact r (List.mem_cons_of_mem _ hr)]
  · intro r hr
    rcases List.mem_cons.1 hr with rfl | hr
    · rw [put_suffix, put_key, slotOf_concat, ← h.suffix row List.mem_cons_self]
      simp [hkey]
    · rw [slotOf_other (hother r hr), h.suffix r (List.mem_cons_of_mem _ hr)]

/-- The item's key is new. -/
theorem Holds.place_new {items : List Item} {rows : List Row} {it : Item} (h : Holds items rows)
    (hnew : ∀ i ∈ items, i.key ≠ it.key) :
    Holds (items ++ [it]) (put ⟨it.key, NO_ENTRY, NO_ENTRY⟩ it :: rows) := by
  have hother : ∀ r ∈ rows, it.key ≠ r.key := by
    intro r hr hk
    obtain ⟨i, hi, hik⟩ := h.occurs r hr
    exact hnew i hi (hik.trans hk.symm)
  constructor
  · simp
  · rw [List.pairwise_cons]
    exact ⟨by simpa using hother, h.distinct⟩
  · intro i hi
    rcases List.mem_append.1 hi with hi | hi
    · obtain ⟨r, hr, hrk⟩ := h.covers i hi
      exact ⟨r, List.mem_cons_of_mem _ hr, hrk⟩
    · obtain rfl := List.mem_singleton.1 hi
      exact ⟨_, List.mem_cons_self, by simp⟩
  · intro r hr
    rcases List.mem_cons.1 hr with rfl | hr
    · exact ⟨it, by simp, by simp⟩
    · obtain ⟨i, hi, hik⟩ := h.occurs r hr
      exact ⟨i, List.mem_append_left _ hi, hik⟩
  · intro r hr
    rcases List.mem_cons.1 hr with rfl | hr
    · rw [put_exact, put_key, slotOf_concat, slotOf_fresh hnew]
      simp
    · rw [slotOf_other (hother r hr), h.exact r hr]
  · intro r hr
    rcases List.mem_cons.1 hr with rfl | hr
    · rw [put_suffix, put_key, slotOf_concat, slotOf_fresh hnew]
      simp
    · rw [slotOf_other (hother r hr), h.suffix r hr]

theorem holds_foldl_place (items : List Item) (hs : items.Pairwise fun a b => a.key ≤ b.key) :
    Holds items (items.foldl place []) := by
  induction items using List.reverseRecOn with
  | nil => constructor <;> simp
  | append_singleton items it ih =>
    rw [List.pairwise_append] at hs
    obtain ⟨hs, -, hle⟩ := hs
    have h := ih hs
    rw [List.foldl_append, List.foldl_cons, List.foldl_nil]
    have hnew : (∀ i, items.getLast? = some i → i.key ≠ it.key) →
        ∀ i ∈ items, i.key ≠ it.key := by
      intro hlast i hi
      obtain ⟨front, l, rfl⟩ : ∃ front l, items = front ++ [l] :=
        ⟨items.dropLast, items.getLast (List.ne_nil_of_mem hi),
          (List.dropLast_append_getLast _).symm⟩
      have hl : l.key < it.key :=
        lt_of_le_of_ne (hle l (by simp) it (by simp)) (hlast l List.getLast?_concat)
      rcases List.mem_append.1 hi with hi | hi
      · have : i.key ≤ l.key := (List.pairwise_append.1 hs).2.2 i hi l (by simp)
        exact (lt_of_le_of_lt this hl).ne
      · obtain rfl := List.mem_singleton.1 hi
        exact hl.ne
    cases hrows : items.foldl place [] with
    | nil =>
      rw [hrows] at h
      have hnil : items.getLast? = none := by simpa using h.head.symm
      exact h.place_new (hnew (by simp [hnil]))
    | cons row rows =>
      rw [hrows] at h
      by_cases hkey : row.key = it.key
      · rw [show place (row :: rows) it = put row it :: rows by simp [place, hkey]]
        exact h.place_last hkey
      · rw [show place (row :: rows) it = put ⟨it.key, NO_ENTRY, NO_ENTRY⟩ it :: row :: rows by
          simp [place, hkey]]
        refine h.place_new (hnew fun i hi => ?_)
        have hhead : row.key = i.key := by simpa [hi] using h.head
        exact hhead ▸ hkey

theorem le_total' (a b : Item) : le a b ∨ le b a := by
  unfold le
  rcases lt_trichotomy a.key b.key with h | h | h
  · exact Or.inl (Or.inl h)
  · rcases Nat.le_total a.entry b.entry with h' | h'
    · exact Or.inl (Or.inr ⟨h, h'⟩)
    · exact Or.inr (Or.inr ⟨h.symm, h'⟩)
  · exact Or.inr (Or.inl h)

theorem le_trans' (a b c : Item) : le a b → le b c → le a c := by
  unfold le
  rintro (h | ⟨h, h'⟩) (k | ⟨k, k'⟩)
  · exact Or.inl (h.trans k)
  · exact Or.inl (k ▸ h)
  · exact Or.inl (h ▸ k)
  · exact Or.inr ⟨h.trans k, h'.trans k'⟩

instance : Std.Total le := ⟨le_total'⟩

instance : IsTrans Item le := ⟨le_trans'⟩

/-- **The built table holds the items added.** -/
theorem holds_build (b : DomainIndexBuilder) :
    Holds (b.insertionSort le) b.build.rows := by
  refine holds_foldl_place _ ((List.pairwise_insertionSort le b).imp ?_)
  rintro x y (h | ⟨h, -⟩)
  · exact h.le
  · exact h.le

/-! ### Slots and candidates -/

theorem better_eq_min {slot entry : ℕ} (he : entry ≤ NO_ENTRY) :
    better slot entry = min slot entry := by
  unfold better
  split_ifs with h <;> omega

theorem foldl_better {l : List ℕ} (hl : ∀ e ∈ l, e ≤ NO_ENTRY) {s : ℕ} (hs : s ≤ NO_ENTRY) :
    l.foldl better s ≤ s ∧ (∀ e ∈ l, l.foldl better s ≤ e) ∧
      (l.foldl better s = s ∨ l.foldl better s ∈ l) := by
  induction l generalizing s with
  | nil => simp
  | cons e l ih =>
    have he := hl e (by simp)
    rw [List.foldl_cons, better_eq_min he]
    obtain ⟨h₁, h₂, h₃⟩ := ih (fun x hx => hl x (by simp [hx])) (le_trans (min_le_left s e) hs)
    refine ⟨by omega, ?_, ?_⟩
    · intro x hx
      rcases List.mem_cons.1 hx with rfl | hx
      · omega
      · exact h₂ x hx
    · rcases h₃ with h₃ | h₃
      · rcases Nat.le_total s e with hse | hse
        · left
          rw [h₃, min_eq_left hse]
        · right
          rw [h₃, min_eq_right hse]
          exact List.mem_cons_self
      · right; simp [h₃]

theorem mem_entriesOf {items : List Item} {key : Str} {kind : DomainMatchKind} {e : ℕ} :
    e ∈ entriesOf items key kind ↔ ∃ it ∈ items, it.key = key ∧ it.kind = kind ∧ it.entry = e := by
  simp [entriesOf, and_assoc]

/-- The fold over the candidates keeps the smallest one that is an entry. -/
theorem foldl_consider (l : List DomainHit) (best : Option DomainHit)
    (hbest : ∀ b, best = some b → b.entry ≠ NO_ENTRY) :
    match l.foldl consider best with
    | none => best = none ∧ ∀ c ∈ l, c.entry = NO_ENTRY
    | some h => (best = some h ∨ h ∈ l) ∧ h.entry ≠ NO_ENTRY ∧
        (∀ b, best = some b → h.entry ≤ b.entry) ∧
        ∀ c ∈ l, c.entry ≠ NO_ENTRY → h.entry ≤ c.entry := by
  induction l generalizing best with
  | nil => cases best <;> simp_all
  | cons c l ih =>
    rw [List.foldl_cons]
    by_cases hc : c.entry ≠ NO_ENTRY ∧ best.all (c.entry < ·.entry)
    · rw [show consider best c = some c by simp [consider, hc]]
      have := ih (some c) (by simpa using hc.1)
      cases hr : l.foldl consider (some c) with
      | none => simp [hr] at this
      | some h =>
        rw [hr] at this
        obtain ⟨h₁, h₂, h₃, h₄⟩ := this
        have hle := h₃ c rfl
        refine ⟨Or.inr ?_, h₂, ?_, ?_⟩
        · rcases h₁ with h₁ | h₁
          · simp [Option.some.inj h₁]
          · exact List.mem_cons_of_mem _ h₁
        · rintro b rfl
          have : c.entry < b.entry := by simpa using hc.2
          omega
        · intro x hx hxe
          rcases List.mem_cons.1 hx with rfl | hx
          · exact hle
          · exact h₄ x hx hxe
    · rw [show consider best c = best by simp [consider, hc]]
      have := ih best hbest
      cases hr : l.foldl consider best with
      | none =>
        rw [hr] at this
        refine ⟨this.1, fun x hx => ?_⟩
        rcases List.mem_cons.1 hx with rfl | hx
        · simpa [this.1] using hc
        · exact this.2 x hx
      | some h =>
        rw [hr] at this
        obtain ⟨h₁, h₂, h₃, h₄⟩ := this
        refine ⟨h₁.imp_right (List.mem_cons_of_mem _), h₂, h₃, ?_⟩
        intro x hx hxe
        rcases List.mem_cons.1 hx with rfl | hx
        · cases hb : best with
          | none => simp [hb, hxe] at hc
          | some b =>
            have : b.entry ≤ x.entry := by simpa [hb, hxe] using hc
            exact (h₃ b hb).trans this
        · exact h₄ x hx hxe

/-! ### What a lookup finds -/

/-- The item is found for the reversed host `full`. -/
def Item.Hits (it : Item) (full : Str) : Prop :=
  it.key = full ∨ (it.kind = .suffix ∧ it.key ∈ Fields.prefixes '.' full)

theorem slot_some {b : DomainIndexBuilder} {key : Str} {row : Row}
    (h : b.build.slot key = some row) : row.key = key ∧
      row.exact = slotOf (b.insertionSort le) key .exact ∧
      row.suffix = slotOf (b.insertionSort le) key .suffix := by
  have hk : row.key = key := by simpa using List.find?_some h
  have hmem := List.mem_of_find?_eq_some h
  exact ⟨hk, hk ▸ (holds_build b).exact row hmem, hk ▸ (holds_build b).suffix row hmem⟩

theorem slot_none {b : DomainIndexBuilder} {key : Str} (h : b.build.slot key = none) :
    ∀ it ∈ b, it.key ≠ key := by
  intro it hit hk
  obtain ⟨row, hrow, hrk⟩ := (holds_build b).covers it (List.mem_insertionSort le |>.2 hit)
  have := List.find?_eq_none.1 h row hrow
  simp [hrk, hk] at this

/-- The candidates are the slots of the items that hit. -/
theorem mem_candidates {b : DomainIndexBuilder} {full : Str} {c : DomainHit} :
    c ∈ b.build.candidates full ↔
      (c.kind = .suffix ∧ ∃ row, ∃ p ∈ Fields.prefixes '.' full, b.build.slot p = some row ∧
        c.entry = row.suffix) ∨
      ∃ row, b.build.slot full = some row ∧
        c.entry = match c.kind with | .exact => row.exact | .suffix => row.suffix := by
  obtain ⟨e, k⟩ := c
  unfold candidates
  rw [List.mem_append]
  refine or_congr ?_ ?_
  · constructor
    · simp only [List.mem_flatMap, Option.mem_toList, Option.map_eq_some_iff]
      rintro ⟨p, hp, row, hrow, heq⟩
      cases heq
      exact ⟨rfl, row, p, hp, hrow, rfl⟩
    · rintro ⟨rfl, row, p, hp, hrow, rfl⟩
      simp only [List.mem_flatMap, Option.mem_toList, Option.map_eq_some_iff]
      exact ⟨p, hp, row, hrow, rfl⟩
  · cases hs : b.build.slot full with
    | none => simp
    | some row => cases k <;> simp

theorem slotOf_le {b : DomainIndexBuilder} (hb : ∀ it ∈ b, it.entry ≤ NO_ENTRY) {key : Str}
    {kind : DomainMatchKind} {it : Item} (hit : it ∈ b) (hk : it.key = key)
    (hkind : it.kind = kind) : slotOf (b.insertionSort le) key kind ≤ it.entry := by
  have hmem : ∀ e ∈ entriesOf (b.insertionSort le) key kind, e ≤ NO_ENTRY := by
    intro e he
    obtain ⟨i, hi, -, -, rfl⟩ := mem_entriesOf.1 he
    exact hb i ((List.mem_insertionSort le).1 hi)
  exact (foldl_better hmem le_rfl).2.1 _
    (mem_entriesOf.2 ⟨it, (List.mem_insertionSort le).2 hit, hk, hkind, rfl⟩)

theorem slotOf_mem {b : DomainIndexBuilder} (hb : ∀ it ∈ b, it.entry ≤ NO_ENTRY) {key : Str}
    {kind : DomainMatchKind} (h : slotOf (b.insertionSort le) key kind ≠ NO_ENTRY) :
    ∃ it ∈ b, it.key = key ∧ it.kind = kind ∧
      it.entry = slotOf (b.insertionSort le) key kind := by
  have hmem : ∀ e ∈ entriesOf (b.insertionSort le) key kind, e ≤ NO_ENTRY := by
    intro e he
    obtain ⟨i, hi, -, -, rfl⟩ := mem_entriesOf.1 he
    exact hb i ((List.mem_insertionSort le).1 hi)
  rcases (foldl_better hmem le_rfl).2.2 with h' | h'
  · exact absurd h' h
  · obtain ⟨it, hit, hk, hkind, he⟩ := mem_entriesOf.1 h'
    exact ⟨it, (List.mem_insertionSort le).1 hit, hk, hkind, he⟩

/-- Every item that hits has a candidate at most as large. -/
theorem candidate_of_hits {b : DomainIndexBuilder} (hb : ∀ it ∈ b, it.entry ≤ NO_ENTRY)
    {full : Str} {it : Item} (hit : it ∈ b) (hh : it.Hits full) :
    ∃ c ∈ b.build.candidates full, c.entry ≤ it.entry := by
  have hslot : ∃ row, b.build.slot it.key = some row := by
    cases hs : b.build.slot it.key with
    | none => exact absurd rfl (slot_none hs it hit)
    | some row => exact ⟨row, rfl⟩
  obtain ⟨row, hrow⟩ := hslot
  obtain ⟨-, hex, hsuf⟩ := slot_some hrow
  rcases hh with hk | ⟨hkind, hp⟩
  · cases hkind : it.kind with
    | exact =>
      refine ⟨⟨row.exact, .exact⟩, mem_candidates.2 (Or.inr ⟨row, hk ▸ hrow, rfl⟩), ?_⟩
      exact hex ▸ slotOf_le hb hit rfl hkind
    | suffix =>
      refine ⟨⟨row.suffix, .suffix⟩, mem_candidates.2 (Or.inr ⟨row, hk ▸ hrow, rfl⟩), ?_⟩
      exact hsuf ▸ slotOf_le hb hit rfl hkind
  · refine ⟨⟨row.suffix, .suffix⟩, mem_candidates.2 (Or.inl ⟨rfl, row, _, hp, hrow, rfl⟩), ?_⟩
    exact hsuf ▸ slotOf_le hb hit rfl hkind

/-- Every candidate that is an entry is the entry of an item that hits. -/
theorem hits_of_candidate {b : DomainIndexBuilder} (hb : ∀ it ∈ b, it.entry ≤ NO_ENTRY)
    {full : Str} {c : DomainHit} (hc : c ∈ b.build.candidates full) (hne : c.entry ≠ NO_ENTRY) :
    ∃ it ∈ b, it.Hits full ∧ it.entry = c.entry ∧ it.kind = c.kind := by
  rcases mem_candidates.1 hc with ⟨hkind, row, p, hp, hrow, he⟩ | ⟨row, hrow, he⟩
  · obtain ⟨-, -, hsuf⟩ := slot_some hrow
    obtain ⟨it, hit, hk, hik, hie⟩ := slotOf_mem hb (hsuf ▸ he ▸ hne)
    exact ⟨it, hit, Or.inr ⟨hik, hk ▸ hp⟩, by rw [hie, he, hsuf], hik.trans hkind.symm⟩
  · obtain ⟨-, hex, hsuf⟩ := slot_some hrow
    cases hkind : c.kind with
    | exact =>
      simp only [hkind] at he
      obtain ⟨it, hit, hk, hik, hie⟩ := slotOf_mem hb (hex ▸ he ▸ hne)
      exact ⟨it, hit, Or.inl hk, by rw [hie, he, hex], hik⟩
    | suffix =>
      simp only [hkind] at he
      obtain ⟨it, hit, hk, hik, hie⟩ := slotOf_mem hb (hsuf ▸ he ▸ hne)
      exact ⟨it, hit, Or.inl hk, by rw [hie, he, hsuf], hik⟩

/-- **A hit is the smallest entry among the items that hit.** -/
theorem lookup_some {b : DomainIndexBuilder} (hb : ∀ it ∈ b, it.entry ≤ NO_ENTRY) {host : Str}
    {hit : DomainHit} (h : b.build.lookup host = some hit) :
    ∃ full, reverseLabels host = some full ∧ hit.entry ≠ NO_ENTRY ∧
      (∃ it ∈ b, it.Hits full ∧ it.entry = hit.entry ∧ it.kind = hit.kind) ∧
      ∀ it ∈ b, it.Hits full → it.entry ≠ NO_ENTRY → hit.entry ≤ it.entry := by
  unfold lookup at h
  cases hfull : reverseLabels host with
  | none => simp [hfull] at h
  | some full =>
    simp only [hfull] at h
    have := foldl_consider (b.build.candidates full) none (by simp)
    rw [h] at this
    obtain ⟨hmem, hne, -, hmin⟩ := this
    have hmem : hit ∈ b.build.candidates full := by simpa using hmem
    refine ⟨full, rfl, hne, hits_of_candidate hb hmem hne, fun it hit' hh hie => ?_⟩
    obtain ⟨c, hc, hle⟩ := candidate_of_hits hb hit' hh
    have hcn : c.entry ≠ NO_ENTRY := by
      have := hb it hit'
      omega
    exact (hmin c hc hcn).trans hle

/-- **Nothing is found when no item hits.** -/
theorem lookup_none {b : DomainIndexBuilder} (hb : ∀ it ∈ b, it.entry ≤ NO_ENTRY) {host full : Str}
    (h : b.build.lookup host = none) (hfull : reverseLabels host = some full) :
    ∀ it ∈ b, it.Hits full → it.entry = NO_ENTRY := by
  intro it hit hh
  unfold lookup at h
  simp only [hfull] at h
  have := foldl_consider (b.build.candidates full) none (by simp)
  rw [h] at this
  obtain ⟨c, hc, hle⟩ := candidate_of_hits hb hit hh
  have := this.2 c hc
  have := hb it hit
  omega

theorem lookup_of_isEmpty {idx : DomainIndex} (h : idx.isEmpty = true) (host : Str) :
    idx.lookup host = none := by
  have hrows : idx.rows = [] := List.isEmpty_iff.1 h
  have hslot : ∀ key, idx.slot key = none := fun key => by simp [slot, hrows]
  unfold lookup
  cases reverseLabels host with
  | none => rfl
  | some full =>
    have : idx.candidates full = [] := by simp [candidates, hslot]
    simp [this]

end DomainIndex

end Rurge
