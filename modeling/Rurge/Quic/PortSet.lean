import Mathlib

/-!
# The ports a connection hops among

`hop.rs`: `PortSet::new` merges ranges that overlap or touch into ascending runs, `nth` and
`index_of` number the ports of the runs, and `other_than` draws another port.  Sums and differences
are checked: `none` is one that overflows, an index past the set, or a remainder by zero.
-/

namespace Rurge.Quic

/-- `RangeInclusive<u16>` with `start <= end`. -/
structure PortRange where
  start : ℕ
  end_ : ℕ
  start_le : start ≤ end_
  lt : end_ < 65536
  deriving DecidableEq

namespace PortRange

def contains (r : PortRange) (port : ℕ) : Prop := r.start ≤ port ∧ port ≤ r.end_

instance (r : PortRange) (port : ℕ) : Decidable (r.contains port) :=
  inferInstanceAs (Decidable (_ ∧ _))

end PortRange

/-! ### Checked arithmetic -/

def add_u16 (a b : ℕ) : Option ℕ := if a + b < 65536 then some (a + b) else none

def add_u32 (a b : ℕ) : Option ℕ := if a + b < 2 ^ 32 then some (a + b) else none

def sub_uint (a b : ℕ) : Option ℕ := if b ≤ a then some (a - b) else none

/-- `below`, with the number that was drawn. -/
def below (n draw : ℕ) : Option ℕ := if n = 0 then none else some (draw % n)

/-! ### Merging -/

/-- One more range behind the runs, the last of which comes first. -/
def merge (runs : List PortRange) (range : PortRange) : Option (List PortRange) :=
  match runs with
  | last :: runs => do
    if range.start ≤ (← add_u32 last.end_ 1) then
      if h : range.end_ > last.end_ then
        return ⟨last.start, range.end_, last.start_le.trans h.le, range.lt⟩ :: runs
      else return last :: runs
    else return range :: last :: runs
  | [] => return [range]

def sorted (ranges : List PortRange) : List PortRange :=
  ranges.insertionSort (·.start ≤ ·.start)

/-- `PortSet::new`; the runs are those of the source's `PortSet`. -/
def runs_of (ranges : List PortRange) : Option (List PortRange) :=
  ((sorted ranges).foldlM merge []).map List.reverse

/-! ### Counting -/

/-- `end - start + 1`. -/
def run_len (run : PortRange) : Option ℕ := do add_u32 (← sub_uint run.end_ run.start) 1

def len (runs : List PortRange) : Option ℕ :=
  runs.foldlM (fun n run => do add_u32 n (← run_len run)) 0

/-- The port at `index` in ascending order. -/
def nth : List PortRange → ℕ → Option ℕ
  -- `unreachable!`
  | [], _ => none
  | run :: runs, index => do
    let len ← run_len run
    if index < len then add_u16 run.start (index % 65536) else nth runs (← sub_uint index len)

/-- The loop of `index_of`, `before` ports on. -/
def index_from (port : ℕ) : List PortRange → ℕ → Option (Option ℕ)
  | [], _ => some none
  | run :: runs, before => do
    if run.contains port then return some (← add_u32 before (← sub_uint port run.start))
    else index_from port runs (← add_u32 before (← run_len run))

def index_of (runs : List PortRange) (port : ℕ) : Option (Option ℕ) := index_from port runs 0

/-- Any port of the set. -/
def random (runs : List PortRange) (draw : ℕ) : Option ℕ := do nth runs (← below (← len runs) draw)

/-- Any port of the set but `port`; `port` itself when it is the only one. -/
def other_than (runs : List PortRange) (port draw : ℕ) : Option ℕ := do
  match ← index_of runs port with
  | some at_ =>
    if (← len runs) > 1 then
      let pick ← below (← sub_uint (← len runs) 1) draw
      nth runs (← if pick ≥ at_ then add_u32 pick 1 else some pick)
    else random runs draw
  | none => random runs draw

/-! ### Runs that are apart -/

/-- One run ends before the other begins, and they do not touch. -/
def Before (a b : PortRange) : Prop := a.end_ + 1 < b.start

/-- The runs of a set: ascending, each port once. -/
structure PortSet where
  runs : List PortRange
  apart : runs.Pairwise Before

namespace PortRange

variable (r : PortRange)

/-- The ports of a range in ascending order. -/
def ports : List ℕ := List.range' r.start (r.end_ - r.start + 1)

@[simp] theorem mem_ports {r : PortRange} {p : ℕ} : p ∈ r.ports ↔ r.contains p := by
  have hle := r.start_le
  rw [ports, List.mem_range'_1, contains]
  omega

theorem length_ports : r.ports.length = r.end_ - r.start + 1 := List.length_range'

theorem run_len_eq : run_len r = some r.ports.length := by
  have hle := r.start_le
  have hlt := r.lt
  rw [length_ports, run_len, sub_uint, if_pos hle]
  exact if_pos (by omega)

theorem getElem?_ports {i : ℕ} (h : i < r.ports.length) : r.ports[i]? = some (r.start + i) := by
  rw [length_ports] at h
  rw [ports, List.getElem?_range' h, Nat.one_mul]

end PortRange

/-! ### What merging keeps -/

theorem merge_spec {runs : List PortRange} {range : PortRange}
    (hruns : runs.Pairwise fun a b => Before b a)
    (hstart : ∀ last ∈ runs.head?, last.start ≤ range.start) :
    ∃ runs', merge runs range = some runs' ∧ runs'.Pairwise (fun a b => Before b a) ∧
      (∀ last ∈ runs'.head?, last.start ≤ range.start) ∧
      ∀ p, (∃ r ∈ runs', r.contains p) ↔ (∃ r ∈ runs, r.contains p) ∨ range.contains p := by
  cases runs with
  | nil => exact ⟨[range], rfl, List.pairwise_singleton .., by simp, by simp⟩
  | cons last runs =>
    have hlast : last.start ≤ range.start := hstart last rfl
    have hsum : add_u32 last.end_ 1 = some (last.end_ + 1) := if_pos (by have := last.lt; omega)
    rw [List.pairwise_cons] at hruns
    by_cases htouch : range.start ≤ last.end_ + 1
    · by_cases hlong : range.end_ > last.end_
      · let run : PortRange :=
          ⟨last.start, range.end_, last.start_le.trans hlong.le, range.lt⟩
        have hrun (p : ℕ) : run.contains p ↔ last.contains p ∨ range.contains p := by
          have hle := last.start_le
          simp only [PortRange.contains, run]
          omega
        refine ⟨run :: runs, ?_, List.pairwise_cons.2 hruns, ?_, fun p => ?_⟩
        · simp [merge, hsum, htouch, hlong, run]
        · rintro _ ⟨⟩
          exact hlast
        · rw [List.exists_mem_cons_iff, List.exists_mem_cons_iff, hrun, or_right_comm]
      · have hrange (p : ℕ) (hp : range.contains p) : last.contains p :=
          ⟨hlast.trans hp.1, hp.2.trans (not_lt.1 hlong)⟩
        refine ⟨last :: runs, ?_, List.pairwise_cons.2 hruns, ?_, fun p => ?_⟩
        · simp [merge, hsum, htouch, hlong]
        · rintro _ ⟨⟩
          exact hlast
        · rw [List.exists_mem_cons_iff]
          exact (or_iff_left_of_imp fun hp => .inl (hrange p hp)).symm
    · refine ⟨range :: last :: runs, by simp [merge, hsum, htouch],
        List.pairwise_cons.2 ⟨fun r hr => ?_, List.pairwise_cons.2 hruns⟩, ?_, fun p => ?_⟩
      · rcases List.mem_cons.1 hr with rfl | hr
        · exact not_le.1 htouch
        · have hbefore : r.end_ + 1 < last.start := hruns.1 r hr
          exact hbefore.trans_le hlast
      · rintro _ ⟨⟩
        exact le_rfl
      · rw [List.exists_mem_cons_iff, or_comm]

theorem merge_all {ranges runs : List PortRange}
    (hsorted : ranges.Pairwise fun a b => a.start ≤ b.start)
    (hruns : runs.Pairwise fun a b => Before b a)
    (hstart : ∀ last ∈ runs.head?, ∀ r ∈ ranges, last.start ≤ r.start) :
    ∃ runs', ranges.foldlM merge runs = some runs' ∧ runs'.Pairwise (fun a b => Before b a) ∧
      ∀ p, (∃ r ∈ runs', r.contains p) ↔
        (∃ r ∈ runs, r.contains p) ∨ ∃ r ∈ ranges, r.contains p := by
  induction ranges generalizing runs with
  | nil => exact ⟨runs, rfl, hruns, by simp⟩
  | cons range ranges ih =>
    rw [List.pairwise_cons] at hsorted
    obtain ⟨runs₁, hmerge, hruns₁, hstart₁, hports₁⟩ :=
      merge_spec hruns fun last hlast => hstart last hlast range List.mem_cons_self
    obtain ⟨runs₂, hfold, hruns₂, hports₂⟩ := ih hsorted.2 hruns₁ fun last hlast r hr =>
      (hstart₁ last hlast).trans (hsorted.1 r hr)
    refine ⟨runs₂, ?_, hruns₂, fun p => ?_⟩
    · rw [List.foldlM_cons, hmerge]
      exact hfold
    · rw [hports₂, hports₁, List.exists_mem_cons_iff, or_assoc]

/-- **The runs of any ranges are apart, and have the ranges' ports.** -/
theorem runs_of_spec (ranges : List PortRange) :
    ∃ s : PortSet, runs_of ranges = some s.runs ∧
      ∀ p, (∃ r ∈ s.runs, r.contains p) ↔ ∃ r ∈ ranges, r.contains p := by
  have hsorted : (sorted ranges).Pairwise fun a b => a.start ≤ b.start := by
    have : Std.Total fun a b : PortRange => a.start ≤ b.start := ⟨fun a b => le_total ..⟩
    have : IsTrans PortRange fun a b => a.start ≤ b.start := ⟨fun a b c => le_trans⟩
    exact List.pairwise_insertionSort _ ranges
  obtain ⟨runs, hfold, hruns, hports⟩ := merge_all hsorted .nil nofun
  refine ⟨⟨runs.reverse, List.pairwise_reverse.2 hruns⟩, ?_, fun p => ?_⟩
  · rw [runs_of, hfold, Option.map_some]
  · simp only [List.mem_reverse, hports, sorted, List.mem_insertionSort]
    simp

/-! ### The ports in order -/

/-- The ports of the runs, one after the other. -/
def ports_of (runs : List PortRange) : List ℕ := runs.flatMap PortRange.ports

@[simp] theorem ports_of_cons (run : PortRange) (runs : List PortRange) :
    ports_of (run :: runs) = run.ports ++ ports_of runs := rfl

theorem mem_ports_of {runs : List PortRange} {p : ℕ} :
    p ∈ ports_of runs ↔ ∃ r ∈ runs, r.contains p := by
  simp [ports_of]

theorem ports_ascend {runs : List PortRange} (h : runs.Pairwise Before) :
    (ports_of runs).Pairwise (· < ·) := by
  induction runs with
  | nil => exact .nil
  | cons run runs ih =>
    rw [List.pairwise_cons] at h
    rw [ports_of_cons, List.pairwise_append]
    refine ⟨List.pairwise_lt_range' .., ih h.2, fun a ha b hb => ?_⟩
    obtain ⟨r, hr, hbr⟩ := mem_ports_of.1 hb
    have hbefore : run.end_ + 1 < r.start := h.1 r hr
    have harun := PortRange.mem_ports.1 ha
    exact harun.2.trans_lt ((Nat.lt_succ_self _).trans (hbefore.trans_le hbr.1))

theorem port_lt {runs : List PortRange} {p : ℕ} (h : p ∈ ports_of runs) : p < 65536 := by
  obtain ⟨r, -, hr⟩ := mem_ports_of.1 h
  exact hr.2.trans_lt r.lt

theorem length_ports_le {runs : List PortRange} (h : runs.Pairwise Before) :
    (ports_of runs).length ≤ 65536 := by
  have hsub : ports_of runs ⊆ List.range 65536 := fun p hp => List.mem_range.2 (port_lt hp)
  have hnodup : (ports_of runs).Nodup := (ports_ascend h).imp fun hlt => hlt.ne
  simpa using (hnodup.subperm hsub).length_le

/-! ### Counting never overflows -/

theorem len_from {runs : List PortRange} {n : ℕ} (h : n + (ports_of runs).length ≤ 65536) :
    runs.foldlM (fun n run => do add_u32 n (← run_len run)) n =
      some (n + (ports_of runs).length) := by
  induction runs generalizing n with
  | nil => rfl
  | cons run runs ih =>
    rw [ports_of_cons, List.length_append] at h ⊢
    have hadd : add_u32 n run.ports.length = some (n + run.ports.length) := if_pos (by omega)
    rw [List.foldlM_cons, PortRange.run_len_eq]
    simp only [Option.bind_eq_bind, Option.bind_some, hadd]
    rw [← Nat.add_assoc]
    exact ih (by omega)

theorem nth_eq (runs : List PortRange) (index : ℕ) : nth runs index = (ports_of runs)[index]? := by
  induction runs generalizing index with
  | nil => rfl
  | cons run runs ih =>
    rw [nth, PortRange.run_len_eq, ports_of_cons]
    simp only [Option.bind_eq_bind, Option.bind_some]
    by_cases hin : index < run.ports.length
    · have hlength := run.length_ports
      have hle := run.start_le
      have hlt := run.lt
      have hindex : index % 65536 = index := Nat.mod_eq_of_lt (by omega)
      rw [if_pos hin, List.getElem?_append_left hin, run.getElem?_ports hin, hindex]
      exact if_pos (by omega)
    · have hsub : sub_uint index run.ports.length = some (index - run.ports.length) :=
        if_pos (not_lt.1 hin)
      rw [if_neg hin, hsub, Option.bind_some, ih, List.getElem?_append_right (not_lt.1 hin)]

theorem index_from_spec {runs : List PortRange} (port : ℕ) {before : ℕ}
    (h : before + (ports_of runs).length ≤ 65536) :
    (port ∉ ports_of runs ∧ index_from port runs before = some none) ∨
      ∃ i, (ports_of runs)[i]? = some port ∧
        index_from port runs before = some (some (before + i)) := by
  induction runs generalizing before with
  | nil => exact .inl ⟨List.not_mem_nil, rfl⟩
  | cons run runs ih =>
    rw [ports_of_cons, List.length_append] at h
    have hlength := run.length_ports
    rw [index_from, ports_of_cons]
    by_cases hin : run.contains port
    · have hi : port - run.start < run.ports.length := by
        have hcontains := hin
        rw [PortRange.contains] at hcontains
        omega
      have hsub : sub_uint port run.start = some (port - run.start) := if_pos hin.1
      have hadd : add_u32 before (port - run.start) = some (before + (port - run.start)) :=
        if_pos (by omega)
      refine .inr ⟨port - run.start, ?_, ?_⟩
      · rw [List.getElem?_append_left hi, run.getElem?_ports hi, Nat.add_sub_cancel' hin.1]
      · rw [if_pos hin, hsub]
        simp [hadd]
    · have hadd : add_u32 before run.ports.length = some (before + run.ports.length) :=
        if_pos (by omega)
      have hnext : (do index_from port runs (← add_u32 before (← run_len run))) =
          index_from port runs (before + run.ports.length) := by
        simp [PortRange.run_len_eq, hadd]
      rw [if_neg hin, hnext]
      rcases @ih (before + run.ports.length) (by omega) with ⟨hnot, hnone⟩ | ⟨i, hi, hsome⟩
      · refine .inl ⟨fun hp => ?_, hnone⟩
        rcases List.mem_append.1 hp with hp | hp
        · exact hin (PortRange.mem_ports.1 hp)
        · exact hnot hp
      · refine .inr ⟨run.ports.length + i, ?_, by rw [hsome, Nat.add_assoc]⟩
        rw [List.getElem?_append_right (Nat.le_add_right ..), Nat.add_sub_cancel_left]
        exact hi

namespace PortSet

variable (s : PortSet)

abbrev ports : List ℕ := ports_of s.runs

theorem len_eq : len s.runs = some s.ports.length := by
  have hlen := len_from (n := 0) ((Nat.zero_add _).trans_le (length_ports_le s.apart))
  rwa [Nat.zero_add] at hlen

theorem index_of_some {p i : ℕ} (h : s.ports[i]? = some p) :
    index_of s.runs p = some (some i) := by
  have hnodup : s.ports.Nodup := (ports_ascend s.apart).imp fun hlt => hlt.ne
  have hspec := index_from_spec p ((Nat.zero_add _).trans_le (length_ports_le s.apart))
  rw [index_of]
  rcases hspec with ⟨hnot, -⟩ | ⟨j, hj, hsome⟩
  · exact absurd (List.mem_of_getElem? h) hnot
  · have hi := (List.getElem?_eq_some_iff.1 h).1
    rw [hsome, Nat.zero_add, (List.getElem?_inj hi hnodup).1 (h.trans hj.symm)]

theorem index_of_none {p : ℕ} (h : p ∉ s.ports) : index_of s.runs p = some none := by
  rcases index_from_spec p ((Nat.zero_add _).trans_le (length_ports_le s.apart)) with
    ⟨-, hnone⟩ | ⟨i, hi, -⟩
  · exact hnone
  · exact absurd (List.mem_of_getElem? hi) h

/-- A draw that goes round the index of one port. -/
def skip (at_ pick : ℕ) : ℕ := if pick ≥ at_ then pick + 1 else pick

theorem other_than_eq {p at_ : ℕ} (hat : s.ports[at_]? = some p) (hmany : 1 < s.ports.length)
    (draw : ℕ) :
    other_than s.runs p draw = s.ports[skip at_ (draw % (s.ports.length - 1))]? := by
  have hmax : s.ports.length ≤ 65536 := length_ports_le s.apart
  have hpick : draw % (s.ports.length - 1) < s.ports.length - 1 := Nat.mod_lt _ (by omega)
  have hsub : sub_uint s.ports.length 1 = some (s.ports.length - 1) := if_pos hmany.le
  have hbelow : below (s.ports.length - 1) draw = some (draw % (s.ports.length - 1)) :=
    if_neg (by omega)
  have hadd : add_u32 (draw % (s.ports.length - 1)) 1 = some (draw % (s.ports.length - 1) + 1) :=
    if_pos (by omega)
  rw [other_than, s.index_of_some hat]
  simp only [s.len_eq, hsub, hbelow, hadd, nth_eq, gt_iff_lt, if_pos hmany, Option.bind_eq_bind,
    Option.bind_some, skip]
  split_ifs <;> rfl

theorem random_some (h : 0 < s.ports.length) (draw : ℕ) :
    ∃ p ∈ s.ports, random s.runs draw = some p := by
  have hi : draw % s.ports.length < s.ports.length := Nat.mod_lt _ h
  have hbelow : below s.ports.length draw = some (draw % s.ports.length) := if_neg h.ne'
  refine ⟨s.ports[draw % s.ports.length], List.getElem_mem hi, ?_⟩
  rw [random, s.len_eq]
  simp only [Option.bind_eq_bind, Option.bind_some, hbelow, nth_eq]
  exact List.getElem?_eq_getElem hi

end PortSet

/-! ### All of the set -/

/-- What the set made of `ranges` is to the hops, `n` being how many ports it has. -/
structure Hops (ranges : List PortRange) (s : PortSet) (n : ℕ) : Prop where
  made : runs_of ranges = some s.runs
  same : ∀ p, (∃ r ∈ s.runs, r.contains p) ↔ ∃ r ∈ ranges, r.contains p
  count : len s.runs = some n
  enumerates : ∀ i < n, ∃ p, nth s.runs i = some p ∧ ∃ r ∈ ranges, r.contains p
  increases : ∀ i j p q, i < j → nth s.runs i = some p → nth s.runs j = some q → p < q
  inverse : ∀ p i, index_of s.runs p = some (some i) ↔ nth s.runs i = some p
  on : ∀ p, (∃ r ∈ ranges, r.contains p) → ∃ i < n, index_of s.runs p = some (some i)
  off : ∀ p, (¬ ∃ r ∈ ranges, r.contains p) → index_of s.runs p = some none
  any : 0 < n → ∀ draw, ∃ p, random s.runs draw = some p ∧ ∃ r ∈ ranges, r.contains p
  other : ∀ p, (∃ r ∈ ranges, r.contains p) → 1 < n → ∀ draw,
    ∃ q, other_than s.runs p draw = some q ∧ q ≠ p ∧ ∃ r ∈ ranges, r.contains q
  each : ∀ p, (∃ r ∈ ranges, r.contains p) → 1 < n → ∀ q, (∃ r ∈ ranges, r.contains q) → q ≠ p →
    ∃! draw, draw < n - 1 ∧ other_than s.runs p draw = some q

/-- **The set made of any ranges has their ports, numbers them in order, and draws each other port
for one number.** -/
theorem port_set_spec (ranges : List PortRange) : ∃ s n, Hops ranges s n := by
  obtain ⟨s, hmade, hsame⟩ := runs_of_spec ranges
  have hmem (p : ℕ) : p ∈ s.ports ↔ ∃ r ∈ ranges, r.contains p := mem_ports_of.trans (hsame p)
  have hascend := ports_ascend s.apart
  have hnodup : s.ports.Nodup := hascend.imp fun hlt => hlt.ne
  have hplace {p : ℕ} (hp : ∃ r ∈ ranges, r.contains p) : ∃ i, s.ports[i]? = some p :=
    List.mem_iff_getElem?.1 ((hmem p).2 hp)
  refine ⟨s, s.ports.length, hmade, hsame, s.len_eq, fun i hi => ?_, fun i j p q hij hi hj => ?_,
    fun p i => ⟨fun h => ?_, fun h => ?_⟩, fun p hp => ?_, fun p hp => ?_, fun h draw => ?_,
    fun p hp hmany draw => ?_, fun p hp hmany q hq hne => ?_⟩
  · rw [nth_eq]
    exact ⟨s.ports[i], List.getElem?_eq_getElem hi, (hmem _).1 (List.getElem_mem hi)⟩
  · rw [nth_eq] at hi hj
    obtain ⟨hi', rfl⟩ := List.getElem?_eq_some_iff.1 hi
    obtain ⟨hj', rfl⟩ := List.getElem?_eq_some_iff.1 hj
    exact List.pairwise_iff_getElem.1 hascend i j hi' hj' hij
  · rw [nth_eq]
    by_cases hp : p ∈ s.ports
    · obtain ⟨j, hj⟩ := List.mem_iff_getElem?.1 hp
      rw [s.index_of_some hj] at h
      cases h
      exact hj
    · rw [s.index_of_none hp] at h
      cases h
  · rw [nth_eq] at h
    exact s.index_of_some h
  · obtain ⟨i, hi⟩ := hplace hp
    exact ⟨i, (List.getElem?_eq_some_iff.1 hi).1, s.index_of_some hi⟩
  · exact s.index_of_none fun h => hp ((hmem p).1 h)
  · obtain ⟨p, hp, hrandom⟩ := s.random_some h draw
    exact ⟨p, hrandom, (hmem p).1 hp⟩
  · obtain ⟨at_, hat⟩ := hplace hp
    have hlt : PortSet.skip at_ (draw % (s.ports.length - 1)) < s.ports.length := by
      have hpick : draw % (s.ports.length - 1) < s.ports.length - 1 := Nat.mod_lt _ (by omega)
      rw [PortSet.skip]
      split_ifs <;> omega
    rw [s.other_than_eq hat hmany]
    refine ⟨s.ports[_], List.getElem?_eq_getElem hlt, fun heq => ?_,
      (hmem _).1 (List.getElem_mem hlt)⟩
    have hat' := (List.getElem?_inj hlt hnodup).1
      ((List.getElem?_eq_getElem hlt).trans ((congrArg some heq).trans hat.symm))
    rw [PortSet.skip] at hat'
    split_ifs at hat' <;> omega
  · obtain ⟨at_, hat⟩ := hplace hp
    obtain ⟨to_, hto⟩ := hplace hq
    have hto' := (List.getElem?_eq_some_iff.1 hto).1
    have hat' := (List.getElem?_eq_some_iff.1 hat).1
    have hdiff : to_ ≠ at_ := by
      rintro rfl
      exact hne (Option.some.inj (hto.symm.trans hat))
    -- the draw is the index of `q`, less one past the index of `p`
    refine ⟨if to_ > at_ then to_ - 1 else to_, ⟨by split_ifs <;> omega, ?_⟩, ?_⟩
    · rw [s.other_than_eq hat hmany, Nat.mod_eq_of_lt (by split_ifs <;> omega), ← hto]
      congr 1
      rw [PortSet.skip]
      split_ifs <;> omega
    · rintro draw ⟨hdraw, hother⟩
      rw [s.other_than_eq hat hmany, Nat.mod_eq_of_lt hdraw] at hother
      have hskip := (List.getElem?_inj (List.getElem?_eq_some_iff.1 hother).1 hnodup).1
        (hother.trans hto.symm)
      rw [PortSet.skip] at hskip
      split_ifs at hskip ⊢ <;> omega

/-- Every port there is but 0, from two ranges that touch. -/
example : (runs_of [⟨81, 65535, by decide, by decide⟩, ⟨1, 80, by decide, by decide⟩]).bind len =
    some 65535 := by decide

end Rurge.Quic
