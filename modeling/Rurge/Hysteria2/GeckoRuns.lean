import Rurge.Hysteria2.Gecko

/-!
# Packets put together from what comes

Fragments of many packets come mixed, late and more than once.  What is put together is a packet
that was sent wherever no two packets of one source share a number within the time a fragment
waits, and a packet is put together unless its fragments come too late or too many others come in
between.
-/

namespace Rurge

namespace Obfs

/-- A packet cut in fragments under a message number. -/
structure Cut where
  packet : Bytes
  message : UInt8
  count : UInt8
  count_ok : MIN_FRAGMENTS ≤ count ∧ count ≤ MAX_FRAGMENTS

namespace Cut

variable (c : Cut)

/-- Its frame of an index. -/
def frame (index : UInt8) (h : index < c.count) : Frame :=
  ⟨c.message, index, c.count, chunk c.packet c.count.toNat index.toNat, c.count_ok, h⟩

/-- Its parts. -/
def parts : List Bytes := pieces c.packet c.count.toNat

theorem two_le : 2 ≤ c.count.toNat := c.count_ok.1

@[simp] theorem length_parts : c.parts.length = c.count.toNat := length_pieces _ _

theorem flatten_parts : c.parts.flatten = c.packet :=
  flatten_pieces c.packet (by have := c.two_le; omega)

theorem getElem?_parts {index : UInt8} (h : index < c.count) :
    c.parts[index.toNat]? = some (chunk c.packet c.count.toNat index.toNat) :=
  getElem?_pieces h

end Cut

/-- A fragment that came: when, from where, and of which of that source's packets. -/
structure Came (book : SocketAddr → ℕ → Cut) where
  now : ℕ
  source : SocketAddr
  no : ℕ
  index : UInt8
  index_ok : index < (book source no).count

namespace Came

variable {book : SocketAddr → ℕ → Cut} (x : Came book)

/-- The packet it is of. -/
def cut : Cut := book x.source x.no

def frame : Frame := x.cut.frame x.index x.index_ok

/-- What the fragments of its packet are kept under. -/
def key : SocketAddr × UInt8 := (x.source, x.cut.message)

/-- Of the same packet. -/
def Same (y : Came book) : Prop := y.source = x.source ∧ y.no = x.no

instance (y : Came book) : Decidable (x.Same y) := inferInstanceAs (Decidable (_ ∧ _))

end Came

def Pending.key (p : Pending) : SocketAddr × UInt8 := (p.source, p.message)

/-- A fragment put in its place. -/
def Pending.put (p : Pending) (frame : Frame) : Pending :=
  { p with chunks := p.chunks.set frame.index.toNat (some frame.chunk), missing := p.missing - 1 }

namespace Reassembly

variable {now : ℕ} {source : SocketAddr} {frame : Frame} {r older newer : Reassembly} {p : Pending}

/-- What waits after all that came. -/
def fed {book : SocketAddr → ℕ → Cut} (came : List (Came book)) : Reassembly :=
  came.foldl (fun r x => (feed x.now x.source x.frame r).1) []

theorem fed_concat {book : SocketAddr → ℕ → Cut} (came : List (Came book)) (x : Came book) :
    fed (came ++ [x]) = (feed x.now x.source x.frame (fed came)).1 := by
  simp [fed]

/-! ### One fragment -/

/-- What becomes of the packet a fragment is put in, and what it makes whole. -/
def taken (p : Pending) (frame : Frame) : Option Pending × Option Bytes :=
  if p.chunks.length = frame.count.toNat ∧
      (p.chunks.getD frame.index.toNat none).isSome = false then
    if 0 < p.missing - 1 then (some (p.put frame), none)
    else (none, some (Parts.whole (p.put frame).chunks))
  else (some p, none)

theorem taken_of_room (hcount : p.chunks.length = frame.count.toNat)
    (hroom : (p.chunks.getD frame.index.toNat none).isSome = false) :
    taken p frame = if 0 < p.missing - 1 then (some (p.put frame), none)
      else (none, some (Parts.whole (p.put frame).chunks)) :=
  if_pos ⟨hcount, hroom⟩

theorem taken_of_not (h : ¬ (p.chunks.length = frame.count.toNat ∧
    (p.chunks.getD frame.index.toNat none).isSome = false)) : taken p frame = (some p, none) :=
  if_neg h

theorem take_in_at (older newer : Reassembly) (p : Pending) (frame : Frame) :
    take_in frame (older ++ p :: newer) older.length =
      (older ++ (taken p frame).1.toList ++ newer, (taken p frame).2) := by
  have hget : (older ++ p :: newer)[older.length]? = some p := by simp
  rw [take_in, hget]
  dsimp only
  by_cases hcount : p.chunks.length = frame.count.toNat
  · have hlt : frame.index.toNat < p.chunks.length := by
      rw [hcount]
      exact frame.index_ok
    have hget' : p.chunks.getD frame.index.toNat none = p.chunks[frame.index.toNat] :=
      List.getD_eq_getElem _ _ hlt
    rw [dif_pos hcount]
    cases hsome : (p.chunks[frame.index.toNat]).isSome with
    | true =>
      rw [taken_of_not (by rw [hget', hsome]; simp)]
      simp
    | false =>
      rw [if_neg Bool.false_ne_true, taken_of_room hcount (hget' ▸ hsome)]
      split
      · simp [Pending.put]
      · simp [Pending.put, List.eraseIdx_append_of_length_le]
  · rw [dif_neg hcount, taken_of_not fun h => hcount h.1]
    simp

theorem position_eq (hp : p.key = (source, frame.message))
    (hnot : ∀ q ∈ older, q.key ≠ (source, frame.message)) :
    position source frame.message (older ++ p :: newer) = some older.length := by
  obtain ⟨rfl, hmessage⟩ := Prod.mk.inj hp
  have hnone : older.findIdx? (fun pending => pending.source = p.source &&
      pending.message = frame.message) = none := by
    rw [List.findIdx?_eq_none_iff]
    intro q hq
    have hq' := hnot q hq
    simp only [Pending.key, ne_eq, Prod.mk.injEq, not_and] at hq'
    by_cases hsource : q.source = p.source
    · simp [hsource, hq' hsource]
    · simp [hsource]
  rw [position, List.findIdx?_append, hnone]
  simp [List.findIdx?_cons, hmessage]

/-- A fragment of a packet that is under way. -/
theorem feed_known (hr : retain now r = older ++ p :: newer) (hp : p.key = (source, frame.message))
    (hnot : ∀ q ∈ older, q.key ≠ (source, frame.message)) :
    feed now source frame r =
      (older ++ (taken p frame).1.toList ++ newer, (taken p frame).2) := by
  rw [feed, hr]
  dsimp only
  rw [position_eq hp hnot]
  exact take_in_at older newer p frame

/-- What a fragment begins. -/
def fresh (now : ℕ) (source : SocketAddr) (frame : Frame) : Pending :=
  Pending.put ⟨source, frame.message, List.replicate frame.count.toNat none, frame.count.toNat, now⟩
    frame

theorem taken_fresh : taken ⟨source, frame.message, List.replicate frame.count.toNat none,
    frame.count.toNat, now⟩ frame = (some (fresh now source frame), none) := by
  have hcount : 2 ≤ frame.count.toNat := frame.count_ok.1
  have hindex : frame.index.toNat < frame.count.toNat := frame.index_ok
  rw [taken_of_room (by simp) (by simp [hindex]),
    if_pos (show 0 < frame.count.toNat - 1 by omega), fresh]

/-- A fragment of a packet that is not. -/
theorem feed_new (hnot : ∀ q ∈ retain now r, q.key ≠ (source, frame.message)) :
    feed now source frame r =
      ((if (retain now r).length = PENDING then (retain now r).eraseIdx 0 else retain now r) ++
        [fresh now source frame], none) := by
  have hnone : position source frame.message (retain now r) = none := by
    rw [position, List.findIdx?_eq_none_iff]
    intro q hq
    have hq' := hnot q hq
    simp only [Pending.key, ne_eq, Prod.mk.injEq, not_and] at hq'
    by_cases hsource : q.source = source
    · simp [hsource, hq' hsource]
    · simp [hsource]
  rw [feed]
  dsimp only
  rw [hnone]
  dsimp only
  rw [begun, List.length_append, List.length_singleton, Nat.add_sub_cancel, take_in_at,
    taken_fresh]
  simp

/-! ### Keys -/

/-- What a fragment is put in, and what waited beside it. -/
theorem feed_cases (hkeys : (r.map Pending.key).Nodup) :
    (∃ older p newer, retain now r = older ++ p :: newer ∧ p.key = (source, frame.message) ∧
      feed now source frame r = (older ++ (taken p frame).1.toList ++ newer, (taken p frame).2)) ∨
    (∀ q ∈ retain now r, q.key ≠ (source, frame.message)) := by
  by_cases h : ∃ p ∈ retain now r, p.key = (source, frame.message)
  · obtain ⟨p, hp, hkey⟩ := h
    obtain ⟨older, newer, hr⟩ := List.append_of_mem hp
    have hnodup : ((retain now r).map Pending.key).Nodup :=
      hkeys.sublist (List.filter_sublist.map _)
    rw [hr, List.map_append, List.map_cons] at hnodup
    have hnot : ∀ q ∈ older, q.key ≠ (source, frame.message) := by
      intro q hq hsame
      exact (List.nodup_append.1 hnodup).2.2 _ (List.mem_map_of_mem hq) _ List.mem_cons_self
        (hsame.trans hkey.symm)
    exact .inl ⟨older, p, newer, hr, hkey, feed_known hr hkey hnot⟩
  · push Not at h
    exact .inr h

theorem key_taken {p : Pending} : ∀ q ∈ (taken p frame).1, q.key = p.key ∧ q.since = p.since := by
  intro q hq
  unfold taken at hq
  split at hq
  · split at hq
    · obtain rfl := Option.some.inj hq
      exact ⟨rfl, rfl⟩
    · cases hq
  · obtain rfl := Option.some.inj hq
    exact ⟨rfl, rfl⟩

/-- At most one packet is under way under a key. -/
theorem nodup_keys_feed (hkeys : (r.map Pending.key).Nodup) :
    ((feed now source frame r).1.map Pending.key).Nodup := by
  have hnodup : ((retain now r).map Pending.key).Nodup := hkeys.sublist (List.filter_sublist.map _)
  obtain ⟨older, p, newer, hr, hkey, heq⟩ | hnot := feed_cases hkeys
  · rw [heq]
    rw [hr] at hnodup
    refine hnodup.sublist ?_
    simp only [List.map_append, List.map_cons]
    cases htaken : (taken p frame).1 with
    | none => simp
    | some q =>
      have hq := (key_taken q htaken).1
      simp [hq]
  · rw [feed_new hnot, List.map_append, List.map_singleton]
    have hfresh : (fresh now source frame).key = (source, frame.message) := rfl
    refine List.Nodup.append (hnodup.sublist ?_) (List.nodup_singleton _) ?_
    · split
      · exact (List.eraseIdx_sublist ..).map _
      · exact List.Sublist.refl _
    · rw [List.disjoint_singleton, hfresh]
      intro hmem
      obtain ⟨q, hq, hsame⟩ := List.mem_map.1 hmem
      refine hnot q ?_ hsame
      split at hq
      · exact List.mem_of_mem_eraseIdx hq
      · exact hq

/-! ### What waits is of packets that came -/

variable {book : SocketAddr → ℕ → Cut} {came : List (Came book)} {x : Came book}

/-- What waits under way of a packet: some of its parts, since the first of them came. -/
def Stands (came : List (Came book)) (p : Pending) : Prop :=
  ∃ first ∈ came, p.key = first.key ∧ p.since = first.now ∧ ∃ seen,
    p.chunks = Parts.filled first.cut.parts seen ∧ p.missing = Parts.missing p.chunks

theorem Stands.mono {p : Pending} (h : Stands came p) (x : Came book) : Stands (came ++ [x]) p := by
  obtain ⟨first, hfirst, h⟩ := h
  exact ⟨first, List.mem_append_left _ hfirst, h⟩

/-- A part put among those of its packet. -/
theorem taken_filled {c : Cut} {index : UInt8} (hindex : index < c.count) {seen : List ℕ}
    (hchunks : p.chunks = Parts.filled c.parts seen)
    (hmissing : p.missing = Parts.missing p.chunks) :
    (index.toNat ∈ seen ∧ taken p (c.frame index hindex) = (some p, none)) ∨
    (index.toNat ∉ seen ∧ (p.put (c.frame index hindex)).chunks =
        Parts.filled c.parts (index.toNat :: seen) ∧
      (p.put (c.frame index hindex)).missing = Parts.missing (p.put (c.frame index hindex)).chunks ∧
      ((∃ i < c.count.toNat, i ∉ index.toNat :: seen) ∧
          taken p (c.frame index hindex) = (some (p.put (c.frame index hindex)), none) ∨
        (∀ i < c.count.toNat, i ∈ index.toNat :: seen) ∧
          taken p (c.frame index hindex) = (none, some c.packet))) := by
  have hpart := c.getElem?_parts hindex
  have hlength : p.chunks.length = (c.frame index hindex).count.toNat := by
    rw [hchunks, Parts.length_filled, Cut.length_parts]
    rfl
  have hget : p.chunks.getD index.toNat none =
      if index.toNat ∈ seen then some (chunk c.packet c.count.toNat index.toNat) else none := by
    rw [List.getD_eq_getElem?_getD, hchunks, Parts.getElem?_filled hpart, Option.getD_some]
  by_cases hseen : index.toNat ∈ seen
  · refine .inl ⟨hseen, taken_of_not fun h => ?_⟩
    have hroom := h.2
    simp only [Cut.frame, hget, if_pos hseen, Option.isSome_some] at hroom
    cases hroom
  · have hput : (p.put (c.frame index hindex)).chunks =
        Parts.filled c.parts (index.toNat :: seen) := by
      rw [← Parts.set_filled hpart, ← hchunks]
      rfl
    have hless : (p.put (c.frame index hindex)).missing =
        Parts.missing (p.put (c.frame index hindex)).chunks := by
      have hcons := Parts.missing_filled_cons hpart hseen
      rw [hput]
      simp only [Pending.put]
      rw [hmissing, hchunks]
      omega
    have hzero := @Parts.missing_filled_eq_zero _ c.parts (index.toNat :: seen)
    rw [Cut.length_parts] at hzero
    have hroom : (p.chunks.getD (c.frame index hindex).index.toNat none).isSome = false := by
      simp only [Cut.frame, hget, if_neg hseen, Option.isSome_none]
    have hleft : p.missing - 1 = (p.put (c.frame index hindex)).missing := rfl
    rw [hput] at hless
    refine .inr ⟨hseen, hput, by rw [hput, hless], ?_⟩
    rw [taken_of_room hlength hroom, hleft, hless]
    by_cases hall : ∀ i < c.count.toNat, i ∈ index.toNat :: seen
    · refine .inr ⟨hall, ?_⟩
      rw [if_neg (by rw [hzero.2 hall]; exact lt_irrefl 0), hput,
        Parts.whole_filled (by simpa using hall), c.flatten_parts]
    · refine .inl ⟨by push Not at hall; exact hall, ?_⟩
      rw [if_pos (Nat.pos_of_ne_zero fun h => hall (hzero.1 h))]

theorem taken_came {seen : List ℕ} (hchunks : p.chunks = Parts.filled x.cut.parts seen)
    (hmissing : p.missing = Parts.missing p.chunks) :
    (x.index.toNat ∈ seen ∧ taken p x.frame = (some p, none)) ∨
    (x.index.toNat ∉ seen ∧
      (p.put x.frame).chunks = Parts.filled x.cut.parts (x.index.toNat :: seen) ∧
      (p.put x.frame).missing = Parts.missing (p.put x.frame).chunks ∧
      ((∃ i < x.cut.count.toNat, i ∉ x.index.toNat :: seen) ∧
          taken p x.frame = (some (p.put x.frame), none) ∨
        (∀ i < x.cut.count.toNat, i ∈ x.index.toNat :: seen) ∧
          taken p x.frame = (none, some x.cut.packet))) :=
  taken_filled x.index_ok hchunks hmissing

theorem fresh_filled (x : Came book) :
    (fresh x.now x.source x.frame).chunks = Parts.filled x.cut.parts [x.index.toNat] ∧
      (fresh x.now x.source x.frame).missing =
        Parts.missing (fresh x.now x.source x.frame).chunks := by
  have hpart := x.cut.getElem?_parts x.index_ok
  have hnil := Parts.filled_nil x.cut.parts
  rw [Cut.length_parts] at hnil
  have hchunks : (fresh x.now x.source x.frame).chunks =
      Parts.filled x.cut.parts [x.index.toNat] := by
    rw [← Parts.set_filled hpart, hnil]
    rfl
  have hless := Parts.missing_filled_cons hpart (List.not_mem_nil (a := x.index.toNat))
  have hall : Parts.missing (Parts.filled x.cut.parts []) = x.cut.count.toNat := by
    rw [hnil, Parts.missing, List.countP_replicate]
    rfl
  refine ⟨hchunks, ?_⟩
  rw [hchunks]
  show x.cut.count.toNat - 1 = _
  omega

/-- What waits was begun less than `TTL` ago. -/
theorem since_of_retain {p : Pending} (h : p ∈ retain now r) : p ∈ r ∧ now - p.since < TTL := by
  simpa [retain] using h

theorem Came.cut_of_same {y : Came book} (h : x.Same y) : y.cut = x.cut := by
  unfold Came.cut
  rw [h.1, h.2]

/-- **A fragment makes no other packet whole than its own**, where none that came within `TTL`
before it under its key is of another. -/
theorem feed_stands (hstands : ∀ p ∈ r, Stands came p) (hkeys : (r.map Pending.key).Nodup)
    (hclear : ∀ y ∈ came, y.key = x.key → x.now - y.now < TTL → x.Same y) :
    (∀ p ∈ (feed x.now x.source x.frame r).1, Stands (came ++ [x]) p) ∧
      ∀ out, (feed x.now x.source x.frame r).2 = some out → out = x.cut.packet := by
  have hold : ∀ p ∈ retain x.now r, Stands (came ++ [x]) p := fun p hp =>
    (hstands p (since_of_retain hp).1).mono x
  obtain ⟨older, p, newer, hr, hkey, heq⟩ | hnot :=
    @feed_cases x.now x.source x.frame r hkeys
  · have hmem : p ∈ retain x.now r := by simp [hr]
    obtain ⟨hp, hsince⟩ := since_of_retain hmem
    obtain ⟨first, hfirst, hpkey, hpsince, seen, hchunks, hmissing⟩ := hstands p hp
    have hsame : x.Same first :=
      hclear first hfirst (hpkey.symm.trans hkey) (hpsince ▸ hsince)
    rw [Came.cut_of_same hsame] at hchunks
    have htaken := taken_came hchunks hmissing
    rw [heq]
    refine ⟨fun q hq => ?_, fun out hout => ?_⟩
    · rcases List.mem_append.1 hq with hq | hq
      · rcases List.mem_append.1 hq with hq | hq
        · exact hold q (by simp [hr, hq])
        · rw [Option.mem_toList] at hq
          obtain ⟨-, hsome⟩ | ⟨-, hput, hless, ⟨-, hsome⟩ | ⟨-, hnone⟩⟩ := htaken
          · rw [hsome] at hq
            obtain rfl := Option.some.inj hq
            exact hold p hmem
          · rw [hsome] at hq
            obtain rfl := Option.some.inj hq
            exact ⟨first, List.mem_append_left _ hfirst, hpkey, hpsince, _,
              by rw [hput, Came.cut_of_same hsame], hless⟩
          · rw [hnone] at hq
            cases hq
      · exact hold q (by simp [hr, hq])
    · obtain ⟨-, hsome⟩ | ⟨-, -, -, ⟨-, hsome⟩ | ⟨-, hnone⟩⟩ := htaken
      · rw [hsome] at hout
        cases hout
      · rw [hsome] at hout
        cases hout
      · rw [hnone] at hout
        exact (Option.some.inj hout).symm
  · rw [feed_new hnot]
    refine ⟨fun q hq => ?_, fun out hout => by cases hout⟩
    rcases List.mem_append.1 hq with hq | hq
    · refine hold q ?_
      split at hq
      · exact List.mem_of_mem_eraseIdx hq
      · exact hq
    · obtain rfl := List.mem_singleton.1 hq
      obtain ⟨hchunks, hmissing⟩ := fresh_filled x
      exact ⟨x, by simp, rfl, rfl, _, hchunks, hmissing⟩

/-- No two packets of one source share a number within `TTL` of each other. -/
def Clear (came : List (Came book)) : Prop :=
  came.Pairwise fun y x => y.key = x.key → x.now - y.now < TTL → x.Same y

theorem nodup_keys_fed (came : List (Came book)) : ((fed came).map Pending.key).Nodup := by
  induction came using List.reverseRecOn with
  | nil => exact List.nodup_nil
  | append_singleton came x ih =>
    rw [fed_concat]
    exact nodup_keys_feed ih

theorem stands_fed (h : Clear came) : ∀ p ∈ fed came, Stands came p := by
  induction came using List.reverseRecOn with
  | nil => simp [fed]
  | append_singleton came x ih =>
    obtain ⟨hcame, -, hx⟩ := List.pairwise_append.1 h
    rw [fed_concat]
    exact (feed_stands (ih hcame) (nodup_keys_fed came) fun y hy => hx y hy x (by simp)).1

/-- **What is made whole is a packet that was sent.** -/
theorem whole_sent {x : Came book} (h : Clear (came ++ [x])) {out : Bytes}
    (hout : (feed x.now x.source x.frame (fed came)).2 = some out) : out = x.cut.packet := by
  obtain ⟨hcame, -, hx⟩ := List.pairwise_append.1 h
  exact (feed_stands (stands_fed hcame) (nodup_keys_fed came)
    fun y hy => hx y hy x (by simp)).2 out hout

/-! ### What comes in time is put together -/

/-- The parts of a packet among the fragments that came. -/
def parts_seen (first : Came book) (came : List (Came book)) : List ℕ :=
  (came.filter fun y => first.Same y).map fun y => y.index.toNat

theorem parts_seen_concat (first : Came book) (came : List (Came book)) (x : Came book) :
    parts_seen first (came ++ [x]) =
      parts_seen first came ++ if first.Same x then [x.index.toNat] else [] := by
  unfold parts_seen
  rw [List.filter_append, List.map_append]
  by_cases h : first.Same x <;> simp [h]

/-- The packet of `first` waits, with the parts that came since; what was begun after it is of
others that came since. -/
def Held (first : Came book) (since : List (Came book)) (r : Reassembly) : Prop :=
  ∃ older p newer, r = older ++ p :: newer ∧ p.key = first.key ∧ p.since = first.now ∧
    p.chunks = Parts.filled first.cut.parts (parts_seen first (first :: since)) ∧
    p.missing = Parts.missing p.chunks ∧ ∀ q ∈ newer, ∃ y ∈ since, ¬ first.Same y ∧ q.key = y.key

/-- At most seven other packets have fragments among these. -/
def FewOthers (first : Came book) (came : List (Came book)) : Prop :=
  ∃ others : List (SocketAddr × ℕ), others.length < PENDING ∧
    ∀ y ∈ came, ¬ first.Same y → (y.source, y.no) ∈ others

variable {first : Came book} {since : List (Came book)}

theorem FewOthers.mono {others : List (Came book)} (h : FewOthers first since)
    (hsub : ∀ y ∈ others, y ∈ since) : FewOthers first others := by
  obtain ⟨packets, hfew, hall⟩ := h
  exact ⟨packets, hfew, fun y hy => hall y (hsub y hy)⟩

theorem retain_append (older newer : Reassembly) :
    retain now (older ++ newer) = retain now older ++ retain now newer := List.filter_append ..

/-- What waits for less than `TTL` stays, and what was begun after it is begun after it. -/
theorem Held.kept (h : Held first since r) (hnow : now - first.now < TTL) :
    Held first since (retain now r) := by
  obtain ⟨older, p, newer, rfl, hkey, hsince, hchunks, hmissing, hnewer⟩ := h
  refine ⟨retain now older, p, retain now newer, ?_, hkey, hsince, hchunks, hmissing,
    fun q hq => hnewer q (since_of_retain hq).1⟩
  have hkept : retain now (p :: newer) = p :: retain now newer :=
    List.filter_cons_of_pos (by simpa [hsince] using hnow)
  rw [retain_append, hkept]

/-- A fragment of another packet leaves it waiting: it is the oldest only while fewer others were
begun than there is room for. -/
theorem Held.other (h : Held first since r) (hkeys : (r.map Pending.key).Nodup)
    (hnow : x.now - first.now < TTL) (hkey : x.key ≠ first.key)
    (hfew : FewOthers first (since ++ [x])) :
    Held first (since ++ [x]) (feed x.now x.source x.frame r).1 := by
  have hnot : ¬ first.Same x := by
    intro hsame
    refine hkey ?_
    rw [Came.key, Came.key, Came.cut_of_same hsame, hsame.1]
  have hparts : parts_seen first (first :: (since ++ [x])) = parts_seen first (first :: since) := by
    rw [← List.cons_append, parts_seen_concat, if_neg hnot, List.append_nil]
  obtain ⟨older, p, newer, hr, hpkey, hsince, hchunks, hmissing, hnewer⟩ := h.kept hnow
  have hnodup : ((retain x.now r).map Pending.key).Nodup :=
    hkeys.sublist (List.filter_sublist.map _)
  have hlater : ∀ q ∈ newer, ∃ y ∈ since ++ [x], ¬ first.Same y ∧ q.key = y.key := by
    intro q hq
    obtain ⟨y, hy, h⟩ := hnewer q hq
    exact ⟨y, List.mem_append_left _ hy, h⟩
  obtain ⟨before, q, after, hr', hqkey, heq⟩ | hnone := @feed_cases x.now x.source x.frame r hkeys
  · have hne : p ≠ q := by
      rintro rfl
      exact hkey (hqkey.symm.trans hpkey)
    rw [heq]
    rw [hr] at hr'
    rcases List.append_eq_append_iff.1 hr' with ⟨a, rfl, ha⟩ | ⟨c, rfl, hc⟩
    · cases a with
      | nil => exact absurd (List.cons.inj ha).1 hne
      | cons p' a =>
        obtain ⟨rfl, rfl⟩ := List.cons.inj ha
        refine ⟨older, p, a ++ (taken q x.frame).1.toList ++ after, by simp, hpkey, hsince,
          hparts ▸ hchunks, hmissing, fun q' hq' => ?_⟩
        rcases List.mem_append.1 hq' with hq' | hq'
        · rcases List.mem_append.1 hq' with hq' | hq'
          · exact hlater q' (by simp [hq'])
          · obtain ⟨y, hy, hsame, hykey⟩ := hlater q (by simp)
            exact ⟨y, hy, hsame, ((key_taken q' (Option.mem_toList.1 hq')).1).trans hykey⟩
        · exact hlater q' (by simp [hq'])
    · cases c with
      | nil => exact absurd (List.cons.inj hc).1.symm hne
      | cons q' c =>
        obtain ⟨rfl, rfl⟩ := List.cons.inj hc
        exact ⟨before ++ (taken q x.frame).1.toList ++ c, p, newer, by simp, hpkey, hsince,
          hparts ▸ hchunks, hmissing, hlater⟩
  · rw [feed_new hnone]
    have hfresh : (fresh x.now x.source x.frame).key = x.key := rfl
    have hroom : (retain x.now r).length = PENDING → older ≠ [] := by
      rintro hfull rfl
      obtain ⟨packets, hless, hpackets⟩ := hfew
      rw [List.nil_append] at hr
      have hdistinct : (newer.map Pending.key ++ [x.key]).Nodup := by
        rw [hr] at hnodup
        refine List.Nodup.append (List.nodup_cons.1 hnodup).2 (List.nodup_singleton _) ?_
        rw [List.disjoint_singleton]
        intro hmem
        obtain ⟨q, hq, hsame⟩ := List.mem_map.1 hmem
        exact hnone q (by simp [hr, hq]) hsame
      have hsub : newer.map Pending.key ++ [x.key] ⊆
          packets.map fun packet => (packet.1, (book packet.1 packet.2).message) := by
        intro k hk
        obtain ⟨y, hy, hsame, rfl⟩ : ∃ y ∈ since ++ [x], ¬ first.Same y ∧ k = y.key := by
          rcases List.mem_append.1 hk with hk | hk
          · obtain ⟨q, hq, rfl⟩ := List.mem_map.1 hk
            exact hlater q hq
          · exact ⟨x, by simp, hnot, List.mem_singleton.1 hk⟩
        exact List.mem_map.2 ⟨_, hpackets y hy hsame, rfl⟩
      have hle := (List.subperm_of_subset hdistinct hsub).length_le
      rw [hr] at hfull
      simp only [List.length_append, List.length_map, List.length_cons,
        List.length_nil] at hle hfull
      omega
    have hafter : ∀ q ∈ newer ++ [fresh x.now x.source x.frame],
        ∃ y ∈ since ++ [x], ¬ first.Same y ∧ q.key = y.key := by
      intro q hq
      rcases List.mem_append.1 hq with hq | hq
      · exact hlater q hq
      · obtain rfl := List.mem_singleton.1 hq
        exact ⟨x, by simp, hnot, hfresh⟩
    split
    case isTrue hfull =>
      have hpos := List.length_pos_iff.2 (hroom hfull)
      refine ⟨older.eraseIdx 0, p, newer ++ [fresh x.now x.source x.frame], ?_, hpkey, hsince,
        hparts ▸ hchunks, hmissing, hafter⟩
      rw [hr, List.eraseIdx_append_of_lt_length hpos]
      simp
    case isFalse =>
      exact ⟨older, p, newer ++ [fresh x.now x.source x.frame], by simp [hr], hpkey, hsince,
        hparts ▸ hchunks, hmissing, hafter⟩

/-- A fragment of the packet itself: it waits on with it, or is whole. -/
theorem Held.same (h : Held first since r) (hkeys : (r.map Pending.key).Nodup)
    (hnow : x.now - first.now < TTL) (hsame : first.Same x) :
    ((∃ i < first.cut.count.toNat, i ∉ parts_seen first (first :: (since ++ [x]))) →
      Held first (since ++ [x]) (feed x.now x.source x.frame r).1) ∧
    (x.index.toNat ∉ parts_seen first (first :: since) →
      (∀ i < first.cut.count.toNat, i ∈ parts_seen first (first :: (since ++ [x]))) →
        (feed x.now x.source x.frame r).2 = some first.cut.packet) := by
  have hcut := Came.cut_of_same hsame
  have hxkey : x.key = first.key := by rw [Came.key, Came.key, hcut, hsame.1]
  have hparts : ∀ i, i ∈ x.index.toNat :: parts_seen first (first :: since) ↔
      i ∈ parts_seen first (first :: (since ++ [x])) := by
    intro i
    rw [← List.cons_append, parts_seen_concat, if_pos hsame, List.mem_append, List.mem_singleton,
      List.mem_cons, or_comm]
  obtain ⟨older, p, newer, hr, hpkey, hsince, hchunks, hmissing, hnewer⟩ := h.kept hnow
  have hnodup : ((retain x.now r).map Pending.key).Nodup :=
    hkeys.sublist (List.filter_sublist.map _)
  have hnot : ∀ q ∈ older, q.key ≠ (x.source, x.frame.message) := by
    intro q hq hqkey
    rw [hr, List.map_append, List.map_cons] at hnodup
    exact (List.nodup_append.1 hnodup).2.2 _ (List.mem_map_of_mem hq) _ List.mem_cons_self
      ((hqkey.trans hxkey).trans hpkey.symm)
  have hlater : ∀ q ∈ newer, ∃ y ∈ since ++ [x], ¬ first.Same y ∧ q.key = y.key := by
    intro q hq
    obtain ⟨y, hy, h⟩ := hnewer q hq
    exact ⟨y, List.mem_append_left _ hy, h⟩
  rw [feed_known hr (hpkey.trans hxkey.symm) hnot]
  obtain ⟨hseen, hsome⟩ | ⟨hseen, hput, hless, ⟨hleft, hsome⟩ | ⟨hall, hnone⟩⟩ :=
    taken_came (hcut ▸ hchunks) hmissing
  · rw [hsome]
    refine ⟨fun _ => ⟨older, p, newer, by simp, hpkey, hsince, ?_, hmissing, hlater⟩,
      fun hunseen => absurd hseen hunseen⟩
    rw [hchunks]
    refine Parts.filled_congr fun i => ?_
    rw [← hparts, List.mem_cons]
    exact ⟨.inr, fun h => h.elim (fun h => h ▸ hseen) id⟩
  · rw [hsome]
    refine ⟨fun _ => ⟨older, p.put x.frame, newer, by simp, hpkey, hsince, ?_, hless, hlater⟩,
      fun _ hevery => ?_⟩
    · rw [hput, hcut]
      exact Parts.filled_congr hparts
    · obtain ⟨i, hi, hnot⟩ := hleft
      exact absurd ((hparts i).2 (hevery i (hcut ▸ hi))) hnot
  · rw [hnone]
    refine ⟨fun ⟨i, hi, hnot⟩ => ?_, fun _ _ => by rw [hcut]⟩
    exact absurd ((hparts i).1 (hall i (hcut.symm ▸ hi))) hnot

/-- What waits was begun by a fragment that came. -/
theorem begun_fed (came : List (Came book)) :
    ∀ p ∈ fed came, ∃ y ∈ came, p.key = y.key ∧ p.since = y.now := by
  induction came using List.reverseRecOn with
  | nil => simp [fed]
  | append_singleton came x ih =>
    have hold : ∀ p ∈ retain x.now (fed came),
        ∃ y ∈ came ++ [x], p.key = y.key ∧ p.since = y.now := by
      intro p hp
      obtain ⟨y, hy, h⟩ := ih p (since_of_retain hp).1
      exact ⟨y, List.mem_append_left _ hy, h⟩
    rw [fed_concat]
    obtain ⟨older, p, newer, hr, -, heq⟩ | hnot :=
      @feed_cases x.now x.source x.frame (fed came) (nodup_keys_fed came)
    · rw [heq]
      intro q hq
      rcases List.mem_append.1 hq with hq | hq
      · rcases List.mem_append.1 hq with hq | hq
        · exact hold q (by simp [hr, hq])
        · obtain ⟨y, hy, hkey, hsince⟩ := hold p (by simp [hr])
          obtain ⟨hkey', hsince'⟩ := key_taken q (Option.mem_toList.1 hq)
          exact ⟨y, hy, hkey'.trans hkey, hsince'.trans hsince⟩
      · exact hold q (by simp [hr, hq])
    · rw [feed_new hnot]
      intro q hq
      rcases List.mem_append.1 hq with hq | hq
      · refine hold q ?_
        split at hq
        · exact List.mem_of_mem_eraseIdx hq
        · exact hq
      · obtain rfl := List.mem_singleton.1 hq
        exact ⟨x, by simp, rfl, rfl⟩

theorem held_first {before : List (Came book)}
    (hbefore : ∀ y ∈ before, y.key = first.key → TTL ≤ first.now - y.now) :
    Held first [] (fed (before ++ [first])) := by
  have hnot : ∀ q ∈ retain first.now (fed before), q.key ≠ (first.source, first.frame.message) := by
    intro q hq hkey
    obtain ⟨hmem, hsince⟩ := since_of_retain hq
    obtain ⟨y, hy, hykey, hnow⟩ := begun_fed before q hmem
    exact absurd (hbefore y hy (hykey.symm.trans hkey)) (not_le.2 (hnow ▸ hsince))
  obtain ⟨hchunks, hmissing⟩ := fresh_filled first
  rw [fed_concat, feed_new hnot]
  refine ⟨_, _, [], rfl, rfl, rfl, ?_, hmissing, by simp⟩
  rw [hchunks]
  simp [parts_seen, Came.Same]

/-- **A packet is put together** where its fragments all come within `TTL` of the first of them,
with fragments of at most seven others in between, and none of another with its number from `TTL`
before the first of them on. -/
theorem whole_in_time {before between : List (Came book)} {last : Came book}
    (hbefore : ∀ y ∈ before, y.key = first.key → TTL ≤ first.now - y.now)
    (hbetween : ∀ y ∈ between, y.key = first.key → first.Same y)
    (hnow : ∀ y ∈ between ++ [last], y.now - first.now < TTL) (hfew : FewOthers first between)
    (hlast : first.Same last)
    (hunseen : last.index.toNat ∉ parts_seen first (first :: between))
    (hall : ∀ i < first.cut.count.toNat, i ∈ parts_seen first (first :: (between ++ [last]))) :
    (feed last.now last.source last.frame (fed (before ++ first :: between))).2 =
      some first.cut.packet := by
  have hindex : last.index.toNat < first.cut.count.toNat :=
    Came.cut_of_same hlast ▸ last.index_ok
  have hheld : Held first between (fed (before ++ first :: between)) := by
    clear hall
    induction between using List.reverseRecOn with
    | nil => exact held_first hbefore
    | append_singleton between x ih =>
      rw [← List.cons_append, parts_seen_concat, List.mem_append, not_or] at hunseen
      have hbetween' : ∀ y ∈ between, y.key = first.key → first.Same y :=
        fun y hy => hbetween y (List.mem_append_left _ hy)
      have hx : x.now - first.now < TTL := hnow x (by simp)
      have hlater := ih hbetween' (fun y hy => hnow y (by
        rcases List.mem_append.1 hy with hy | hy
        · simp [hy]
        · simp [List.mem_singleton.1 hy])) (hfew.mono fun y hy => List.mem_append_left _ hy)
        hunseen.1
      have hkeys := nodup_keys_fed (before ++ first :: between)
      have hsplit : before ++ first :: (between ++ [x]) = (before ++ first :: between) ++ [x] := by
        simp
      rw [hsplit, fed_concat]
      by_cases hkey : x.key = first.key
      · have hsame := hbetween x (by simp) hkey
        refine (hlater.same hkeys hx hsame).1 ⟨_, hindex, ?_⟩
        rw [← List.cons_append, parts_seen_concat, List.mem_append, not_or]
        exact hunseen
      · exact hlater.other hkeys hx hkey hfew
  exact (hheld.same (nodup_keys_fed _) (hnow last (by simp)) hlast).2 hunseen hall

end Reassembly

end Obfs

end Rurge
