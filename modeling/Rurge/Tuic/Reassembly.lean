import Rurge.Lib.Parts
import Rurge.Tuic.Udp

/-!
# Putting TUIC's packets together

`feed` takes the messages of an association as they come: at most eight packets are put together
at a time, each whole once every fragment came.  What comes of one packet is what would come of it
alone, as long as no more than eight are under way.
-/

namespace Rurge

namespace Tuic

/-- An association's packets put together at a time. -/
def UNDER_WAY : ℕ := 8

/-- A packet, and where it came from. -/
abbrev Packet := List UInt8 × Target

/-- A packet being put together. -/
structure Assembly where
  packet : UInt16
  parts : List (Option (List UInt8))
  missing : ℕ
  size : ℕ
  source : Option Target
  deriving DecidableEq

/-- What becomes of a packet when a fragment of it comes. -/
inductive Taken
  | seen
  | too_long
  | more (p : Assembly)
  | whole (packet : Option Packet)

/-- A fragment put in its place. -/
def Assembly.take_in (p : Assembly) (m : Message) : Taken :=
  let fragment := m.fragment.toNat
  if (p.parts.getD fragment none).isSome then .seen
  else
    let size := p.size + m.payload.length
    if MAX_DATAGRAM < size then .too_long
    else
      let source := if fragment = 0 then m.source else p.source
      let parts := p.parts.set fragment (some m.payload)
      let missing := p.missing - 1
      if 0 < missing then .more ⟨p.packet, parts, missing, size, source⟩
      else .whole (source.map fun source => (Parts.whole parts, source))

/-- A packet begun at the back, the oldest dropped where there is no room. -/
def start (r : List Assembly) (m : Message) : List Assembly × ℕ :=
  let r := if r.length = UNDER_WAY then r.tail else r
  (r ++ [⟨m.packet, List.replicate m.fragments.toNat none, m.fragments.toNat, 0, none⟩], r.length)

/-- The packets, and where the one that `m` is of stands: begun anew where its count differs. -/
def find_or_start (r : List Assembly) (m : Message) : List Assembly × ℕ :=
  match r.findIdx? fun p => p.packet = m.packet with
  | some at_ =>
    if (r[at_]?.map fun p => p.parts.length) = some m.fragments.toNat then (r, at_)
    else start (r.eraseIdx at_) m
  | none => start r m

/-- The fragment put into the packet that stands at `at_`. -/
def put_in (r : List Assembly) (at_ : ℕ) (m : Message) : List Assembly × Option Packet :=
  match r[at_]? with
  | none => (r, none)
  | some p =>
    match p.take_in m with
    | .seen => (r, none)
    | .too_long => (r.eraseIdx at_, none)
    | .more p => (r.set at_ p, none)
    | .whole packet => (r.eraseIdx at_, packet)

/-- The packet `m` makes whole, and its source: the message's own payload when it is no
fragment. -/
def feed (r : List Assembly) (m : Message) : List Assembly × Option Packet :=
  let count := m.fragments.toNat
  if count ≤ 1 then (r, m.source.map fun source => (m.payload, source))
  else if count ≤ m.fragment.toNat then (r, none)
  else put_in (find_or_start r m).1 (find_or_start r m).2 m

/-- What is handed on, message by message. -/
def outputs : List Assembly → List Message → List (Option Packet)
  | _, [] => []
  | r, m :: ms => (feed r m).2 :: outputs (feed r m).1 ms

/-! ### Each packet by itself -/

/-- The packets of one id. -/
def own (q : UInt16) (r : List Assembly) : List Assembly := r.filter fun p => p.packet = q

theorem own_append (q : UInt16) (r s : List Assembly) : own q (r ++ s) = own q r ++ own q s :=
  List.filter_append ..

theorem own_eq_nil {q : UInt16} {r : List Assembly} : own q r = [] ↔ ∀ p ∈ r, p.packet ≠ q := by
  simp [own]

/-- Where the packet of a message stands, before and after the others. -/
structure Found (r : List Assembly) (m : Message) (before : List Assembly) (p : Assembly)
    (after : List Assembly) : Prop where
  found : find_or_start r m = (before ++ p :: after, before.length)
  alone : find_or_start (own m.packet r) m = ([p], 0)
  packet : p.packet = m.packet
  others : ∀ q ≠ m.packet, own q (before ++ after) = own q r
  apart : ∀ x ∈ before ++ after, x.packet ≠ m.packet ∧ x ∈ r
  nodup : ((before ++ after).map Assembly.packet).Nodup

/-- The packet `m` begins. -/
def started (m : Message) : Assembly :=
  ⟨m.packet, List.replicate m.fragments.toNat none, m.fragments.toNat, 0, none⟩

theorem start_of_room {r : List Assembly} {m : Message} (h : r.length < UNDER_WAY) :
    start r m = (r ++ [started m], r.length) := by
  simp only [start, if_neg h.ne]
  rfl

/-- The one packet of an id, between the others. -/
theorem exists_split {r : List Assembly} {q : UInt16} (hnodup : (r.map Assembly.packet).Nodup)
    {at_ : ℕ} (h : r.findIdx? (fun p => p.packet = q) = some at_) :
    ∃ before p after, r = before ++ p :: after ∧ at_ = before.length ∧ p.packet = q ∧
      ∀ x ∈ before ++ after, x.packet ≠ q := by
  obtain ⟨hlt, hpacket, -⟩ := List.findIdx?_eq_some_iff_getElem.1 h
  have hsplit : r = r.take at_ ++ r[at_] :: r.drop (at_ + 1) := by
    rw [← List.drop_eq_getElem_cons hlt, List.take_append_drop]
  have hq : r[at_].packet = q := of_decide_eq_true hpacket
  refine ⟨r.take at_, r[at_], r.drop (at_ + 1), hsplit, ?_, hq, fun x hx hxq => ?_⟩
  · rw [List.length_take]
    omega
  · rw [hsplit, List.map_append, List.map_cons] at hnodup
    have hmem := List.mem_map_of_mem (f := Assembly.packet) hx
    rw [List.map_append, hxq, ← hq] at hmem
    exact (List.nodup_middle.1 hnodup).notMem hmem

theorem found (r : List Assembly) (m : Message) (hnodup : (r.map Assembly.packet).Nodup)
    (hroom : own m.packet r = [] → r.length < UNDER_WAY) (hmost : r.length ≤ UNDER_WAY) :
    ∃ before p after, Found r m before p after := by
  cases hfind : r.findIdx? fun p => p.packet = m.packet with
  | none =>
    have hnone : ∀ p ∈ r, p.packet ≠ m.packet := by
      simpa [List.findIdx?_eq_none_iff] using hfind
    have hown := own_eq_nil.2 hnone
    refine ⟨r, started m, [],
      { found := ?_
        alone := ?_
        packet := rfl
        others := fun q _ => by rw [List.append_nil]
        apart := fun x hx => ?_
        nodup := by rwa [List.append_nil] }⟩
    · rw [find_or_start, hfind]
      exact start_of_room (hroom hown)
    · rw [hown]
      rfl
    · rw [List.append_nil] at hx
      exact ⟨hnone x hx, hx⟩
  | some at_ =>
    obtain ⟨before, p, after, rfl, rfl, hpacket, hothers⟩ := exists_split hnodup hfind
    have hrest : own m.packet (before ++ p :: after) = [p] := by
      have hbefore := own_eq_nil.2 fun x hx => hothers x (List.mem_append_left _ hx)
      have hafter := own_eq_nil.2 fun x hx => hothers x (List.mem_append_right _ hx)
      rw [own_append, hbefore, List.nil_append]
      change (p :: after).filter _ = _
      rw [List.filter_cons_of_pos (by simp [hpacket])]
      exact congrArg _ hafter
    have hkept : ∀ q ≠ m.packet, own q (before ++ after) = own q (before ++ p :: after) := by
      intro q hq
      rw [own_append, own_append]
      refine congrArg _ (List.filter_cons_of_neg ?_).symm
      simpa [hpacket] using hq.symm
    have hapart : ∀ x ∈ before ++ after, x.packet ≠ m.packet ∧ x ∈ before ++ p :: after := by
      intro x hx
      refine ⟨hothers x hx, ?_⟩
      rcases List.mem_append.1 hx with h | h
      · exact List.mem_append_left _ h
      · exact List.mem_append_right _ (List.mem_cons_of_mem _ h)
    have hclean : ((before ++ after).map Assembly.packet).Nodup := by
      rw [List.map_append, List.map_cons] at hnodup
      rw [List.map_append]
      exact (List.nodup_middle.1 hnodup).of_cons
    have hget : (before ++ p :: after)[before.length]? = some p := by simp
    have hone : [p].findIdx? (fun x => x.packet = m.packet) = some 0 := by simp [hpacket]
    by_cases hcount : p.parts.length = m.fragments.toNat
    · refine ⟨before, p, after, ?_, ?_, hpacket, hkept, hapart, hclean⟩
      · rw [find_or_start, hfind]
        simp only [hget, Option.map_some, hcount, if_true]
      · rw [hrest, find_or_start, hone]
        simp [hcount]
    · refine ⟨before ++ after, started m, [], ?_, ?_, rfl, fun q hq => ?_, fun x hx => ?_, ?_⟩
      · rw [find_or_start, hfind]
        have hless : (before ++ after).length < UNDER_WAY := by
          simp only [List.length_append, List.length_cons] at hmost ⊢
          omega
        have herase : (before ++ p :: after).eraseIdx before.length = before ++ after := by
          rw [List.eraseIdx_append_of_length_le le_rfl, Nat.sub_self, List.eraseIdx_cons_zero]
        simp only [hget, Option.map_some, Option.some.injEq, hcount, if_false, herase]
        exact start_of_room hless
      · rw [hrest, find_or_start, hone]
        simp only [List.getElem?_cons_zero, Option.map_some, Option.some.injEq, hcount, if_false]
        rfl
      · rw [List.append_nil]
        exact hkept q hq
      · rw [List.append_nil] at hx
        exact hapart x hx
      · rwa [List.append_nil]

/-- A fragment put in leaves the packets around alone. -/
theorem put_in_between (before after : List Assembly) (p : Assembly) (m : Message) :
    put_in (before ++ p :: after) before.length m =
      (before ++ (put_in [p] 0 m).1 ++ after, (put_in [p] 0 m).2) := by
  have hget : (before ++ p :: after)[before.length]? = some p := by simp
  have herase : (before ++ p :: after).eraseIdx before.length = before ++ after := by
    rw [List.eraseIdx_append_of_length_le le_rfl, Nat.sub_self, List.eraseIdx_cons_zero]
  simp only [put_in, hget, List.getElem?_cons_zero]
  cases p.take_in m with
  | seen => simp
  | too_long => simp [herase]
  | more p' => simp
  | whole packet => simp [herase]

/-- What a fragment put in leaves of its packet. -/
theorem put_in_own {p : Assembly} {m : Message} {x : Assembly} (hx : x ∈ (put_in [p] 0 m).1) :
    (put_in [p] 0 m).1 = [x] ∧ x.packet = p.packet := by
  simp only [put_in, List.getElem?_cons_zero] at hx ⊢
  cases htaken : p.take_in m with
  | seen =>
    rw [htaken] at hx
    obtain rfl := List.mem_singleton.1 hx
    exact ⟨rfl, rfl⟩
  | too_long =>
    rw [htaken] at hx
    simp at hx
  | more p' =>
    rw [htaken] at hx
    obtain rfl := List.mem_singleton.1 hx
    refine ⟨rfl, ?_⟩
    unfold Assembly.take_in at htaken
    simp only at htaken
    split_ifs at htaken <;> exact (congrArg Assembly.packet (Taken.more.inj htaken)).symm
  | whole packet =>
    rw [htaken] at hx
    simp at hx

/-- Packets under way: one of an id, and none but of the ids `ids`. -/
structure UnderWay (ids : Finset UInt16) (r : List Assembly) : Prop where
  nodup : (r.map Assembly.packet).Nodup
  known : ∀ p ∈ r, p.packet ∈ ids

theorem UnderWay.length_le {ids : Finset UInt16} {r : List Assembly} (h : UnderWay ids r) :
    r.length ≤ ids.card := by
  rw [← List.length_map Assembly.packet, ← List.toFinset_card_of_nodup h.nodup]
  refine Finset.card_le_card fun q hq => ?_
  obtain ⟨p, hp, rfl⟩ := List.mem_map.1 (List.mem_toFinset.1 hq)
  exact h.known p hp

/-- A packet that is begun finds room, where there are no more than eight ids. -/
theorem UnderWay.room {ids : Finset UInt16} {r : List Assembly} (h : UnderWay ids r)
    (hids : ids.card ≤ UNDER_WAY) {q : UInt16} (hq : q ∈ ids) (hown : own q r = []) :
    r.length < UNDER_WAY := by
  have hrest : UnderWay (ids.erase q) r :=
    ⟨h.nodup, fun p hp => Finset.mem_erase.2 ⟨own_eq_nil.1 hown p hp, h.known p hp⟩⟩
  exact (hrest.length_le.trans_lt (Finset.card_erase_lt_of_mem hq)).trans_le hids

/-- A message counts for the packets under way if it is a fragment. -/
def Counts (ids : Finset UInt16) (m : Message) : Prop := 1 < m.fragments.toNat → m.packet ∈ ids

/-- What one message does, it does to the packet it is of alone. -/
structure Isolated (ids : Finset UInt16) (r : List Assembly) (m : Message) : Prop where
  output : (feed r m).2 = (feed (own m.packet r) m).2
  mine : own m.packet (feed r m).1 = (feed (own m.packet r) m).1
  others : ∀ q ≠ m.packet, own q (feed r m).1 = own q r
  under_way : UnderWay ids (feed r m).1

theorem feed_isolated {ids : Finset UInt16} (hids : ids.card ≤ UNDER_WAY) {r : List Assembly}
    (h : UnderWay ids r) {m : Message} (hm : Counts ids m) : Isolated ids r m := by
  by_cases hwhole : m.fragments.toNat ≤ 1
  · have hfeed : ∀ s, feed s m = (s, m.source.map fun source => (m.payload, source)) :=
      fun s => if_pos hwhole
    exact ⟨by rw [hfeed, hfeed], by rw [hfeed, hfeed], fun q _ => by rw [hfeed],
      by rw [hfeed]; exact h⟩
  by_cases hpast : m.fragments.toNat ≤ m.fragment.toNat
  · have hfeed : ∀ s, feed s m = (s, none) := fun s => by
      simp only [feed, if_neg hwhole, if_pos hpast]
    exact ⟨by rw [hfeed, hfeed], by rw [hfeed, hfeed], fun q _ => by rw [hfeed],
      by rw [hfeed]; exact h⟩
  have hknown := hm (by omega)
  obtain ⟨before, p, after, hfound⟩ := found r m h.nodup (h.room hids hknown)
    (h.length_le.trans hids)
  have hfeed : feed r m =
      (before ++ (put_in [p] 0 m).1 ++ after, (put_in [p] 0 m).2) := by
    simp only [feed, if_neg hwhole, if_neg hpast, hfound.found]
    exact put_in_between before after p m
  have halone : feed (own m.packet r) m = put_in [p] 0 m := by
    simp only [feed, if_neg hwhole, if_neg hpast, hfound.alone]
  have hmine : ∀ x ∈ (put_in [p] 0 m).1, x.packet = m.packet := fun x hx =>
    (put_in_own hx).2.trans hfound.packet
  have hbefore : own m.packet before = [] :=
    own_eq_nil.2 fun x hx => (hfound.apart x (List.mem_append_left _ hx)).1
  have hafter : own m.packet after = [] :=
    own_eq_nil.2 fun x hx => (hfound.apart x (List.mem_append_right _ hx)).1
  refine ⟨by rw [hfeed, halone], ?_, fun q hq => ?_, ?_, ?_⟩
  · have hall : own m.packet (put_in [p] 0 m).1 = (put_in [p] 0 m).1 :=
      List.filter_eq_self.2 fun x hx => decide_eq_true (hmine x hx)
    rw [hfeed, halone, own_append, own_append, hbefore, hafter, hall, List.nil_append,
      List.append_nil]
  · have hnone : own q (put_in [p] 0 m).1 = [] :=
      own_eq_nil.2 fun x hx heq => hq (heq.symm.trans (hmine x hx))
    rw [hfeed, ← hfound.others q hq, own_append, own_append, own_append, hnone, List.append_nil]
  · rw [hfeed]
    have hclean := hfound.nodup
    cases hput : (put_in [p] 0 m).1 with
    | nil => rwa [List.append_nil]
    | cons x xs =>
      have hx := @put_in_own p m x (by rw [hput]; exact List.mem_cons_self)
      rw [hput] at hx
      obtain rfl : xs = [] := (List.cons.inj hx.1).2
      rw [List.append_assoc, List.singleton_append, List.map_append, List.map_cons,
        List.nodup_middle, ← List.map_append]
      refine List.nodup_cons.2 ⟨fun hmem => ?_, hclean⟩
      obtain ⟨y, hy, heq⟩ := List.mem_map.1 hmem
      exact (hfound.apart y hy).1 (heq.trans (hx.2.trans hfound.packet))
  · rw [hfeed]
    intro x hx
    rcases List.mem_append.1 hx with hx | hx
    · rcases List.mem_append.1 hx with hx | hx
      · exact h.known x (hfound.apart x (List.mem_append_left _ hx)).2
      · exact hmine x hx ▸ hknown
    · exact h.known x (hfound.apart x (List.mem_append_right _ hx)).2

/-- What is handed on at the messages of one id. -/
def outputs_of (q : UInt16) (r : List Assembly) (ms : List Message) : List (Option Packet) :=
  ((ms.zip (outputs r ms)).filter fun x => x.1.packet = q).map Prod.snd

/-- **Nothing is mixed.**  With no more than eight packets under way, what comes of the messages of
one id is what comes of them alone. -/
theorem outputs_isolated {ids : Finset UInt16} (hids : ids.card ≤ UNDER_WAY) {r : List Assembly}
    (h : UnderWay ids r) {ms : List Message} (hms : ∀ m ∈ ms, Counts ids m) (q : UInt16) :
    outputs_of q r ms = outputs (own q r) (ms.filter fun m => m.packet = q) := by
  induction ms generalizing r with
  | nil => rfl
  | cons m ms ih =>
    have hstep := feed_isolated hids h (hms m List.mem_cons_self)
    have hrest := ih hstep.under_way fun m' hm' => hms m' (List.mem_cons_of_mem _ hm')
    unfold outputs_of at hrest ⊢
    rw [outputs, List.zip_cons_cons]
    by_cases hq : m.packet = q
    · subst hq
      rw [List.filter_cons_of_pos (by simp), List.filter_cons_of_pos (by simp), List.map_cons,
        hrest, outputs, hstep.output, hstep.mine]
    · rw [List.filter_cons_of_neg (by simpa using hq), List.filter_cons_of_neg (by simpa using hq),
        hrest, hstep.others q (Ne.symm hq)]

/-! ### One packet, fragment by fragment -/

section Fragments

variable (association : UInt32) (packet : UInt16) (source : Target) (pieces : List (List UInt8))

/-- The message of a fragment: the first names the source. -/
def fragment_message (fragment : ℕ) (piece : List UInt8) : Message :=
  ⟨association, packet, .ofNat pieces.length, .ofNat fragment,
    if fragment = 0 then some source else none, piece⟩

/-- The packet once the fragments `seen` came. -/
def assembled (seen : List ℕ) : Assembly :=
  ⟨packet, Parts.filled pieces seen, Parts.missing (Parts.filled pieces seen),
    Parts.size (Parts.filled pieces seen), if 0 ∈ seen then some source else none⟩

/-- The packets under way once the fragments `seen` came, not all of them. -/
def kept (seen : List ℕ) : List Assembly :=
  if seen = [] then [] else [assembled packet source pieces seen]

variable {association packet source pieces} {i : ℕ} {piece : List UInt8} {seen : List ℕ}

/-- The packet is found as it is kept. -/
theorem find_kept (hmost : pieces.length ≤ MAX_FRAGMENTS) :
    find_or_start (kept packet source pieces seen)
        (fragment_message association packet source pieces i piece) =
      ([assembled packet source pieces seen], 0) := by
  have hcount : (UInt8.ofNat pieces.length).toNat = pieces.length :=
    UInt8.toNat_ofNat_of_lt' (lt_of_le_of_lt hmost (by decide))
  unfold kept
  split_ifs with hnil
  · subst hnil
    have hmissing : Parts.missing (List.replicate pieces.length (none : Option (List UInt8))) =
        pieces.length := by
      rw [Parts.missing, List.countP_replicate]
      rfl
    have hsize : Parts.size (List.replicate pieces.length (none : Option (List UInt8))) = 0 := by
      simp [Parts.size]
    simp [find_or_start, start, fragment_message, assembled, hcount, hmissing, hsize,
      Parts.filled_nil, UNDER_WAY]
  · simp [find_or_start, fragment_message, assembled, hcount]

/-- A fragment that came already. -/
theorem take_seen (hmost : pieces.length ≤ MAX_FRAGMENTS) (hpiece : pieces[i]? = some piece)
    (hin : i ∈ seen) :
    (assembled packet source pieces seen).take_in
      (fragment_message association packet source pieces i piece) = .seen := by
  have hi : i < pieces.length := (List.getElem?_eq_some_iff.1 hpiece).1
  have hfragment : (UInt8.ofNat i).toNat = i :=
    UInt8.toNat_ofNat_of_lt' (hi.trans_le hmost |>.trans (by decide))
  have hpart : (Parts.filled pieces seen).getD i none = some piece := by
    rw [List.getD_eq_getElem?_getD, Parts.getElem?_filled hpiece, Option.getD_some, if_pos hin]
  simp only [Assembly.take_in, fragment_message, hfragment, assembled, hpart, Option.isSome_some,
    if_true]

/-- A fragment that did not come yet. -/
theorem take_fresh (hmost : pieces.length ≤ MAX_FRAGMENTS)
    (hsize : pieces.flatten.length ≤ MAX_DATAGRAM) (hpiece : pieces[i]? = some piece)
    (hin : i ∉ seen) :
    (assembled packet source pieces seen).take_in
        (fragment_message association packet source pieces i piece) =
      if ∀ k < pieces.length, k ∈ i :: seen then .whole (some (pieces.flatten, source))
      else .more (assembled packet source pieces (i :: seen)) := by
  have hi : i < pieces.length := (List.getElem?_eq_some_iff.1 hpiece).1
  have hfragment : (UInt8.ofNat i).toNat = i :=
    UInt8.toNat_ofNat_of_lt' (hi.trans_le hmost |>.trans (by decide))
  have hpart : (Parts.filled pieces seen).getD i none = none := by
    rw [List.getD_eq_getElem?_getD, Parts.getElem?_filled hpiece, Option.getD_some, if_neg hin]
  have hroom := (Parts.size_filled_le pieces (i :: seen)).trans hsize
  have hmissing := Parts.missing_filled_cons hpiece hin
  have hleft : Parts.missing (Parts.filled pieces seen) - 1 =
      Parts.missing (Parts.filled pieces (i :: seen)) := by omega
  have hsource : (if i = 0 then (if i = 0 then some source else none)
      else if 0 ∈ seen then some source else none) =
        if 0 ∈ i :: seen then some source else none := by
    by_cases h0 : i = 0
    · simp [h0]
    · simp [h0, Ne.symm h0]
  simp only [Assembly.take_in, fragment_message, hfragment, assembled, hpart, Option.isSome_none,
    Bool.false_eq_true, if_false, Parts.set_filled hpiece, hleft, hsource,
    ← Parts.size_filled_cons hpiece hin, if_neg (Nat.not_lt.2 hroom)]
  by_cases hall : ∀ k < pieces.length, k ∈ i :: seen
  · have hzero := Parts.missing_filled_eq_zero.2 hall
    rw [if_neg (by omega), if_pos hall, if_pos (hall 0 (by omega)), Parts.whole_filled hall,
      Option.map_some]
  · have hpos : 0 < Parts.missing (Parts.filled pieces (i :: seen)) :=
      Nat.pos_of_ne_zero fun hzero => hall (Parts.missing_filled_eq_zero.1 hzero)
    rw [if_pos hpos, if_neg hall]

/-- **One fragment.**  The last one makes the packet whole; any other is kept. -/
theorem feed_fragment (hmost : pieces.length ≤ MAX_FRAGMENTS) (htwo : 1 < pieces.length)
    (hsize : pieces.flatten.length ≤ MAX_DATAGRAM) (hpiece : pieces[i]? = some piece)
    (hseen : ∃ k < pieces.length, k ∉ seen) :
    feed (kept packet source pieces seen)
        (fragment_message association packet source pieces i piece) =
      if ∀ k < pieces.length, k ∈ i :: seen then ([], some (pieces.flatten, source))
      else (kept packet source pieces (i :: seen), none) := by
  have hcount : (UInt8.ofNat pieces.length).toNat = pieces.length :=
    UInt8.toNat_ofNat_of_lt' (lt_of_le_of_lt hmost (by decide))
  have hi : i < pieces.length := (List.getElem?_eq_some_iff.1 hpiece).1
  have hfragment : (UInt8.ofNat i).toNat = i :=
    UInt8.toNat_ofNat_of_lt' (hi.trans_le hmost |>.trans (by decide))
  have hfeed : feed (kept packet source pieces seen)
      (fragment_message association packet source pieces i piece) =
        put_in [assembled packet source pieces seen] 0
          (fragment_message association packet source pieces i piece) := by
    simp only [feed, find_kept hmost]
    rw [if_neg, if_neg]
    · simp only [fragment_message, hcount, hfragment]
      omega
    · simp only [fragment_message, hcount]
      omega
  have hnext : kept packet source pieces (i :: seen) =
      [assembled packet source pieces (i :: seen)] := if_neg (List.cons_ne_nil _ _)
  rw [hfeed, hnext]
  simp only [put_in, List.getElem?_cons_zero]
  by_cases hin : i ∈ seen
  · have hmem : ∀ k, k ∈ i :: seen ↔ k ∈ seen := fun k =>
      ⟨fun h => (List.mem_cons.1 h).elim (fun h => h ▸ hin) id, List.mem_cons_of_mem i⟩
    have hsame : assembled packet source pieces (i :: seen) =
        assembled packet source pieces seen := by
      simp only [assembled, Parts.filled_congr hmem, hmem]
    have hnot : ¬ ∀ k < pieces.length, k ∈ i :: seen := by
      obtain ⟨k, hk, hk'⟩ := hseen
      exact fun h => hk' ((hmem k).1 (h k hk))
    rw [take_seen hmost hpiece hin, if_neg hnot, hsame]
  · rw [take_fresh hmost hsize hpiece hin]
    split_ifs <;> rfl

/-- **A packet put together.**  Of its fragments in any order, none handed on before the last that
was missing makes it whole. -/
theorem outputs_fragments (hmost : pieces.length ≤ MAX_FRAGMENTS) (htwo : 1 < pieces.length)
    (hsize : pieces.flatten.length ≤ MAX_DATAGRAM) {ks : List ℕ} {j : ℕ}
    (hks : ∀ k ∈ ks ++ [j], k < pieces.length) (hbefore : ∃ k < pieces.length, k ∉ ks ++ seen)
    (hafter : ∀ k < pieces.length, k ∈ ks ++ [j] ++ seen) :
    outputs (kept packet source pieces seen) ((ks ++ [j]).map fun k =>
        fragment_message association packet source pieces k (pieces.getD k [])) =
      List.replicate ks.length none ++ [some (pieces.flatten, source)] := by
  have hget : ∀ {k}, k < pieces.length → pieces[k]? = some (pieces.getD k []) := by
    intro k hk
    rw [List.getD_eq_getElem?_getD, List.getElem?_eq_getElem hk, Option.getD_some]
  induction ks generalizing seen with
  | nil =>
    have hj := hks j (by simp)
    have hall : ∀ k < pieces.length, k ∈ j :: seen := hafter
    rw [List.nil_append] at hbefore
    rw [List.nil_append, List.map_singleton, outputs,
      feed_fragment hmost htwo hsize (hget hj) hbefore, if_pos hall]
    rfl
  | cons k ks ih =>
    have hk := hks k (by simp)
    obtain ⟨l, hl, hlk⟩ := hbefore
    have hmem : ∀ x, x ∈ k :: ks ++ seen ↔ x ∈ ks ++ k :: seen := by
      intro x
      simp only [List.mem_append, List.mem_cons]
      tauto
    have hnot : ¬ ∀ x < pieces.length, x ∈ k :: seen := fun h =>
      hlk ((hmem l).2 (List.mem_append_right _ (h l hl)))
    have hrest := @ih (k :: seen) (fun x hx => hks x (List.mem_cons_of_mem _ hx))
      ⟨l, hl, fun h => hlk ((hmem l).2 h)⟩ fun x hx => by
        have := hafter x hx
        simp only [List.mem_append, List.mem_cons] at this ⊢
        tauto
    rw [List.cons_append, List.map_cons, outputs, feed_fragment hmost htwo hsize (hget hk)
      ⟨l, hl, fun h => hlk (List.mem_append_right _ h)⟩, if_neg hnot, hrest, List.length_cons,
      List.replicate_succ, List.cons_append]

end Fragments

/-- The message a packet's fragment is read as. -/
theorem parse_message {association packet : UInt16} {address : List UInt8} {source : Target}
    {pieces : List (List UInt8)} (haddress : get address = some (some source, address.length))
    (hsize : pieces.flatten.length ≤ MAX_DATAGRAM) {k : ℕ} (hk : k < pieces.length) :
    ((messages association packet address pieces)[k]?).bind (Message.parse .V5) =
      some (fragment_message association.toUInt32 packet source pieces k (pieces.getD k [])) := by
  have hpiece : pieces[k]? = some (pieces.getD k []) := by
    rw [List.getD_eq_getElem?_getD, List.getElem?_eq_getElem hk, Option.getD_some]
  have hshort : (pieces.getD k []).length ≤ 65535 := by
    have hmem := List.mem_of_getElem? hpiece
    exact (List.sublist_flatten_of_mem hmem).length_le.trans hsize
  have hsource : get (if k = 0 then address else [NONE]) =
      some (if k = 0 then some source else none, (if k = 0 then address else [NONE]).length) := by
    split_ifs
    · exact haddress
    · exact get_none
  rw [messages, List.getElem?_map, List.getElem?_zipIdx, hpiece, Option.map_some, Option.map_some,
    Option.bind_some, Nat.zero_add, parse_encode _ _ _ _ hsource hshort]
  rfl

/-- **Packets in fragments.**  A packet of at most 65535 bytes, to an address that names a target,
is refused exactly when it does not fit whole and its first fragment has no room for any of it or
255 fragments cannot carry it.  Else it goes in at most 255 messages, none longer than `max`; and
whatever messages come, of this packet those in any order and any number of times until the last
that was missing, of others no fragments but of seven ids at most: at this packet's messages nothing
is handed on before the last, and at the last the payload and the target; and what comes of any id
is what comes of its messages alone. -/
theorem fragments_put_together (association packet : UInt16) {address payload : List UInt8}
    {source : Target} (max : ℕ) (haddress : get address = some (some source, address.length))
    (hsize : payload.length ≤ MAX_DATAGRAM) :
    ((∃ e, datagrams association packet address payload max = .error e) ↔
      max < HEADER + address.length + payload.length ∧
        (max ≤ HEADER + address.length ∨
          max - (HEADER + address.length) + (MAX_FRAGMENTS - 1) * (max - (HEADER + 1)) <
            payload.length)) ∧
    ∀ ds, datagrams association packet address payload max = .ok ds →
      ds.length ≤ MAX_FRAGMENTS ∧ (∀ d ∈ ds, d.length ≤ max) ∧
      ∀ (others : Finset UInt16) (r : List Assembly) (ms : List Message) (ks : List ℕ) (j : ℕ),
        others.card ≤ 7 → packet ∉ others → UnderWay others r →
        (∀ m ∈ ms, m.packet ≠ packet → Counts others m) →
        ((ms.filter fun m => m.packet = packet).map some =
          (ks ++ [j]).map fun k => (ds[k]?).bind (Message.parse .V5)) →
        (∃ k < ds.length, k ∉ ks) → (∀ k < ds.length, k ∈ ks ++ [j]) →
        outputs_of packet r ms = List.replicate ks.length none ++ [some (payload, source)] ∧
          ∀ q, outputs_of q r ms = outputs (own q r) (ms.filter fun m => m.packet = q) := by
  have hnonempty : address ≠ [] := by
    rintro rfl
    cases haddress
  refine ⟨datagrams_refuses association packet max hnonempty hsize, fun ds hds => ?_⟩
  obtain ⟨pieces, hcarry⟩ := datagrams_carry hnonempty hds
  have hlength : ds.length = pieces.length := by
    rw [hcarry.messages, messages, List.length_map, List.length_zipIdx]
  rw [hlength]
  refine ⟨hcarry.le_fragments, hcarry.le_max, ?_⟩
  intro others r ms ks j hothers hpacket hr hcounts hown hbefore hafter
  have hids : (insert packet others).card ≤ UNDER_WAY := by
    rw [Finset.card_insert_of_notMem hpacket]
    exact Nat.succ_le_succ hothers
  have hway : UnderWay (insert packet others) r :=
    ⟨hr.nodup, fun p hp => Finset.mem_insert_of_mem (hr.known p hp)⟩
  have hms : ∀ m ∈ ms, Counts (insert packet others) m := by
    intro m hm hmany
    by_cases hmine : m.packet = packet
    · exact hmine ▸ Finset.mem_insert_self _ _
    · exact Finset.mem_insert_of_mem (hcounts m hm hmine hmany)
  have hisolated := outputs_isolated hids hway hms
  refine ⟨?_, hisolated⟩
  have hflat : pieces.flatten.length ≤ MAX_DATAGRAM := by rwa [hcarry.flatten]
  have hnone : own packet r = [] :=
    own_eq_nil.2 fun p hp heq => hpacket (heq ▸ hr.known p hp)
  -- an index past the messages reads as none, so none of them is
  have hks : ∀ k ∈ ks ++ [j], k < pieces.length := by
    intro k hk
    by_contra hpast
    have hmem : (ds[k]?).bind (Message.parse .V5) ∈
        (ms.filter fun m => m.packet = packet).map some := by
      rw [hown]
      exact List.mem_map_of_mem hk
    rw [List.getElem?_eq_none (by omega), Option.bind_none] at hmem
    obtain ⟨m, -, hm⟩ := List.mem_map.1 hmem
    cases hm
  have hmessages : (ms.filter fun m => m.packet = packet) = (ks ++ [j]).map fun k =>
      fragment_message association.toUInt32 packet source pieces k (pieces.getD k []) := by
    apply List.map_injective_iff.2 (Option.some_injective Message)
    rw [hown, List.map_map]
    refine List.map_congr_left fun k hk => ?_
    rw [hcarry.messages]
    exact parse_message haddress hflat (hks k hk)
  rw [hisolated, hnone, hmessages]
  rcases Nat.lt_or_ge 1 pieces.length with htwo | hone
  · have hwhole := @outputs_fragments association.toUInt32 packet source pieces []
      hcarry.le_fragments htwo hflat ks j hks (by simpa using hbefore) (by simpa using hafter)
    rw [hcarry.flatten] at hwhole
    exact hwhole
  · -- one piece: the message is whole by itself
    obtain ⟨k, hk, hkks⟩ := hbefore
    obtain rfl : ks = [] := by
      rw [List.eq_nil_iff_forall_not_mem]
      intro x hx
      have := hks x (List.mem_append_left _ hx)
      obtain rfl : x = k := by omega
      exact hkks hx
    have hj := hks j (by simp)
    obtain ⟨piece, rfl⟩ : ∃ piece, pieces = [piece] := by
      match pieces, hcarry.pos, hone with
      | [piece], _, _ => exact ⟨piece, rfl⟩
    obtain rfl : j = 0 := by simpa using hj
    have hflatten : piece = payload := by simpa using hcarry.flatten
    subst hflatten
    rfl

/-- Two fragments, the second before the first. -/
theorem fragments_put_together_two : ∃ ds ms,
    datagrams 1 7 (put_target (.v4 0xc6120001) 443) [1, 2, 3] 18 = .ok ds ∧
      ms.map some = [1, 0].map (fun k => (ds[k]?).bind (Message.parse .V5)) ∧
      outputs_of 7 [] ms = [none, some ([1, 2, 3], ⟨.ip (.v4 0xc6120001), 443⟩)] := by
  have haddress : get (put_target (.v4 0xc6120001) 443) =
      some (some ⟨.ip (.v4 0xc6120001), 443⟩, (put_target (.v4 0xc6120001) 443).length) := by
    decide +kernel
  have hds : datagrams 1 7 (put_target (.v4 0xc6120001) 443) [1, 2, 3] 18 =
      .ok (messages 1 7 (put_target (.v4 0xc6120001) 443) [[1], [2, 3]]) := by decide +kernel
  obtain ⟨-, -, hput⟩ := (fragments_put_together 1 7 18 haddress
    (by decide : [1, 2, 3].length ≤ MAX_DATAGRAM)).2 _ hds
  refine ⟨_, [⟨1, 7, 2, 1, none, [2, 3]⟩,
    ⟨1, 7, 2, 0, some ⟨.ip (.v4 0xc6120001), 443⟩, [1]⟩], hds, by decide +kernel, ?_⟩
  exact (hput ∅ [] _ [1] 0 (by decide) (by decide) ⟨by decide, by simp⟩ (by simp)
    (by decide +kernel) ⟨0, by decide, by decide⟩ (by decide)).1

/-- An address that leaves no room in the first of its fragments is refused, though two messages
no longer would be put together. -/
theorem refused_though_carried :
    (∃ e, datagrams 1 7 (put_target (.v4 0xc6120001) 443) [0] 17 = .error e) ∧
      ∃ ds : List (List UInt8), ds.length ≤ MAX_FRAGMENTS ∧ (∀ d ∈ ds, d.length ≤ 17) ∧
        outputs [] (ds.filterMap (Message.parse .V5)) =
          [none, some ([0], ⟨.ip (.v4 0xc6120001), 443⟩)] :=
  ⟨⟨_, rfl⟩, [encode 1 7 2 0 (put_target (.v4 0xc6120001) 443) [], encode 1 7 2 1 [NONE] [0]],
    by decide, by decide +kernel, by decide +kernel⟩

end Tuic

end Rurge
