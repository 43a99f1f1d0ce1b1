import Rurge.Hysteria2.Udp
import Rurge.Lib.Parts

/-!
# Putting Hysteria 2's packets together

`feed` takes a session's messages as they come and puts one packet together at a time: a fragment
of another drops the one under way, and what more comes of one that is over is dropped too.
-/

namespace Rurge

namespace Hysteria2

/-- A session's packet put together from its fragments. -/
inductive Reassembly
  | Idle
  | Collecting (packet : UInt16) (parts : List (Option (List UInt8))) (missing size : ℕ)
  | Over (packet : UInt16) (fragments : UInt8)
  deriving DecidableEq

namespace Reassembly

/-- Whether the packet under way, or over, is the one of `packet` in `fragments`. -/
def known : Reassembly → UInt16 → UInt8 → Bool
  | .Idle, _, _ => false
  | .Collecting packet parts _ _, p, count => packet == p && parts.length == count.toNat
  | .Over packet fragments, p, count => packet == p && fragments == count

/-- The packet of a fragment: the one that is known, or that one begun. -/
def begun (r : Reassembly) (m : Message) : Reassembly :=
  if r.known m.packet m.fragments then r
  else .Collecting m.packet (List.replicate m.fragments.toNat none) m.fragments.toNat 0

/-- A fragment of the packet put in its place. -/
def take_in (r : Reassembly) (m : Message) : Reassembly × Option (List UInt8) :=
  match r with
  | .Collecting packet parts missing size =>
    let fragment := m.fragment.toNat
    if (parts.getD fragment none).isSome then (r, none)
    else
      let size := size + m.payload.length
      if MAX_DATAGRAM < size then (.Over m.packet m.fragments, none)
      else
        let parts := parts.set fragment (some m.payload)
        let missing := missing - 1
        if 0 < missing then (.Collecting packet parts missing size, none)
        else (.Over m.packet m.fragments, some (Parts.whole parts))
  | _ => (r, none)

/-- The packet `m` makes whole: the message's own payload when it is no fragment. -/
def feed (r : Reassembly) (m : Message) : Reassembly × Option (List UInt8) :=
  let count := m.fragments.toNat
  if count ≤ 1 then (r, some m.payload)
  else if count ≤ m.fragment.toNat then (r, none)
  else (r.begun m).take_in m

/-- What is handed on, message by message: a whole packet, under the address of the message that
made it whole. -/
def outputs : Reassembly → List Message → List (Option (List UInt8 × List UInt8))
  | _, [] => []
  | r, m :: ms => (r.feed m).2.map (m.address, ·) :: outputs (r.feed m).1 ms

/-! ### A packet and its fragments -/

section Fragments

variable (session : UInt32) (packet : UInt16) (address : List UInt8) (pieces : List (List UInt8))

/-- The message of a fragment. -/
def fragment_message (fragment : ℕ) (piece : List UInt8) : Message :=
  ⟨session, packet, .ofNat fragment, .ofNat pieces.length, address, piece⟩

/-- The packet once the fragments `seen` came. -/
def collecting (seen : List ℕ) : Reassembly :=
  .Collecting packet (Parts.filled pieces seen) (Parts.missing (Parts.filled pieces seen))
    (Parts.size (Parts.filled pieces seen))

/-- The state once the fragments `seen` came: that of another packet before the first. -/
def Stands (seen : List ℕ) (r : Reassembly) : Prop :=
  if seen = [] then r.known packet (.ofNat pieces.length) = false
  else r = collecting packet pieces seen

variable {session packet address pieces} {i : ℕ} {piece : List UInt8} {seen : List ℕ}
  {r : Reassembly}

theorem Stands.begun (h : Stands packet pieces seen r) (hmost : pieces.length ≤ MAX_FRAGMENTS) :
    r.begun (fragment_message session packet address pieces i piece) =
      collecting packet pieces seen := by
  have hcount : (UInt8.ofNat pieces.length).toNat = pieces.length :=
    UInt8.toNat_ofNat_of_lt' (lt_of_le_of_lt hmost (by decide))
  unfold Stands at h
  split_ifs at h with hnil
  · subst hnil
    have hmissing : Parts.missing (List.replicate pieces.length (none : Option (List UInt8))) =
        pieces.length := by
      rw [Parts.missing, List.countP_replicate]
      rfl
    have hsize : Parts.size (List.replicate pieces.length (none : Option (List UInt8))) = 0 := by
      simp [Parts.size]
    simp [Reassembly.begun, fragment_message, h, hcount, collecting, Parts.filled_nil, hmissing,
      hsize]
  · subst h
    simp [Reassembly.begun, fragment_message, known, collecting, hcount]

/-- **One fragment** of the packet, seen already or new. -/
theorem feed_fragment (h : Stands packet pieces seen r) (hmost : pieces.length ≤ MAX_FRAGMENTS)
    (htwo : 1 < pieces.length) (hpiece : pieces[i]? = some piece)
    (hseen : ∃ k < pieces.length, k ∉ seen) :
    r.feed (fragment_message session packet address pieces i piece) =
      if i ∈ seen then (collecting packet pieces seen, none)
      else if MAX_DATAGRAM < Parts.size (Parts.filled pieces (i :: seen)) then
        (.Over packet (.ofNat pieces.length), none)
      else if ∀ k < pieces.length, k ∈ i :: seen then
        (.Over packet (.ofNat pieces.length), some pieces.flatten)
      else (collecting packet pieces (i :: seen), none) := by
  have hcount : (UInt8.ofNat pieces.length).toNat = pieces.length :=
    UInt8.toNat_ofNat_of_lt' (lt_of_le_of_lt hmost (by decide))
  have hi : i < pieces.length := (List.getElem?_eq_some_iff.1 hpiece).1
  have hfragment : (UInt8.ofNat i).toNat = i :=
    UInt8.toNat_ofNat_of_lt' (hi.trans_le hmost |>.trans (by decide))
  have hfeed : r.feed (fragment_message session packet address pieces i piece) =
      (collecting packet pieces seen).take_in
        (fragment_message session packet address pieces i piece) := by
    simp only [feed, h.begun hmost]
    rw [if_neg, if_neg]
    · simp only [fragment_message, hcount, hfragment]
      omega
    · simp only [fragment_message, hcount]
      omega
  rw [hfeed]
  by_cases hin : i ∈ seen
  · have hpart : (Parts.filled pieces seen).getD i none = some piece := by
      rw [List.getD_eq_getElem?_getD, Parts.getElem?_filled hpiece, Option.getD_some, if_pos hin]
    simp only [take_in, collecting, fragment_message, hfragment, hpart, Option.isSome_some,
      if_true, if_pos hin]
  · have hpart : (Parts.filled pieces seen).getD i none = none := by
      rw [List.getD_eq_getElem?_getD, Parts.getElem?_filled hpiece, Option.getD_some, if_neg hin]
    have hmissing := Parts.missing_filled_cons hpiece hin
    have hleft : Parts.missing (Parts.filled pieces seen) - 1 =
        Parts.missing (Parts.filled pieces (i :: seen)) := by omega
    simp only [take_in, collecting, fragment_message, hfragment, hpart, Option.isSome_none,
      Bool.false_eq_true, if_false, Parts.set_filled hpiece, hleft,
      ← Parts.size_filled_cons hpiece hin, if_neg hin]
    refine if_congr Iff.rfl rfl ?_
    by_cases hall : ∀ k < pieces.length, k ∈ i :: seen
    · have hzero := Parts.missing_filled_eq_zero.2 hall
      rw [if_neg (by omega), if_pos hall, Parts.whole_filled hall]
    · have hpos : 0 < Parts.missing (Parts.filled pieces (i :: seen)) :=
        Nat.pos_of_ne_zero fun hzero => hall (Parts.missing_filled_eq_zero.1 hzero)
      rw [if_pos hpos, if_neg hall]

/-- Whatever more comes of a packet that is over is dropped. -/
theorem outputs_over (htwo : 1 < (UInt8.ofNat pieces.length).toNat) (ks : List ℕ) :
    (outputs (.Over packet (.ofNat pieces.length)) (ks.map fun k =>
      fragment_message session packet address pieces k (pieces.getD k []))).filterMap id = [] := by
  induction ks with
  | nil => rfl
  | cons k ks ih =>
    have hfeed : (Over packet (.ofNat pieces.length)).feed
        (fragment_message session packet address pieces k (pieces.getD k [])) =
          (.Over packet (.ofNat pieces.length), none) := by
      have hcount : ¬ (UInt8.ofNat pieces.length).toNat ≤ 1 := not_le.2 htwo
      simp only [feed, fragment_message, hcount, if_false, begun, known, beq_self_eq_true,
        Bool.and_self, if_true, take_in, ite_self]
    rw [List.map_cons, outputs, hfeed]
    exact ih

/-- **A packet put together.**  Of its fragments, in any order and any number of times, the packet
comes once if every one is among them, and not at all else. -/
theorem outputs_fragments (h : Stands packet pieces seen r) (hmost : pieces.length ≤ MAX_FRAGMENTS)
    (htwo : 1 < pieces.length) {ks : List ℕ} (hks : ∀ k ∈ ks, k < pieces.length)
    (hseen : ∃ k < pieces.length, k ∉ seen) :
    (outputs r (ks.map fun k =>
        fragment_message session packet address pieces k (pieces.getD k []))).filterMap id =
      if pieces.flatten.length ≤ MAX_DATAGRAM ∧ ∀ k < pieces.length, k ∈ ks ++ seen then
        [(address, pieces.flatten)] else [] := by
  have hcount : (UInt8.ofNat pieces.length).toNat = pieces.length :=
    UInt8.toNat_ofNat_of_lt' (lt_of_le_of_lt hmost (by decide))
  induction ks generalizing seen r with
  | nil =>
    obtain ⟨k, hk, hnot⟩ := hseen
    rw [if_neg fun hall => hnot (hall.2 k hk)]
    rfl
  | cons k ks ih =>
    have hk := hks k List.mem_cons_self
    have hrest := fun x hx => hks x (List.mem_cons_of_mem _ hx)
    have hget : pieces[k]? = some (pieces.getD k []) := by
      rw [List.getD_eq_getElem?_getD, List.getElem?_eq_getElem hk, Option.getD_some]
    have hmem : ∀ x, x ∈ k :: ks ++ seen ↔ x ∈ ks ++ k :: seen := by
      intro x
      simp only [List.mem_append, List.mem_cons]
      tauto
    simp only [hmem]
    rw [List.map_cons, outputs, feed_fragment h hmost htwo hget hseen]
    by_cases hin : k ∈ seen
    · have hstands : Stands packet pieces seen (collecting packet pieces seen) := by
        rw [Stands, if_neg (List.ne_nil_of_mem hin)]
      have hsame : ∀ x, x ∈ ks ++ k :: seen ↔ x ∈ ks ++ seen := by
        intro x
        simp only [List.mem_append, List.mem_cons]
        exact ⟨fun hx => hx.imp_right fun hx => hx.elim (fun hx => hx ▸ hin) id, fun hx =>
          hx.imp_right .inr⟩
      rw [if_pos hin, Option.map_none, List.filterMap_cons_none rfl, ih hstands hrest hseen]
      simp only [hsame]
    rw [if_neg hin]
    by_cases hlong : MAX_DATAGRAM < Parts.size (Parts.filled pieces (k :: seen))
    · have hflat := hlong.trans_le (Parts.size_filled_le pieces (k :: seen))
      rw [if_pos hlong, Option.map_none, List.filterMap_cons_none rfl,
        outputs_over (by omega) ks, if_neg fun hall => absurd hall.1 (not_le.2 hflat)]
    rw [if_neg hlong]
    by_cases hall : ∀ x < pieces.length, x ∈ k :: seen
    · have hsize : Parts.size (Parts.filled pieces (k :: seen)) = pieces.flatten.length := by
        rw [← Parts.length_whole, Parts.whole_filled hall]
      rw [if_pos hall, if_pos ⟨by omega, fun x hx => List.mem_append_right _ (hall x hx)⟩,
        Option.map_some, List.filterMap_cons_some (f := id) rfl, outputs_over (by omega) ks]
      rfl
    · have hstands : Stands packet pieces (k :: seen) (collecting packet pieces (k :: seen)) := by
        rw [Stands, if_neg (List.cons_ne_nil _ _)]
      push Not at hall
      have hnot : ¬ ∀ x < pieces.length, x ∈ k :: seen := by
        push Not
        exact hall
      rw [if_neg hnot, Option.map_none, List.filterMap_cons_none rfl, ih hstands hrest hall]

end Fragments

/-! ### What a packet is put together of -/

/-- What is put together at `m` is the payloads of fragments in `ms` of the same packet and count,
each at its place. -/
def MadeOf (ms : List Message) (m : Message) (whole : List UInt8) : Prop :=
  ∃ pieces : List (List UInt8), pieces.length = m.fragments.toNat ∧ pieces.flatten = whole ∧
    ∀ i piece, pieces[i]? = some piece → ∃ f ∈ ms, f.packet = m.packet ∧
      f.fragments = m.fragments ∧ f.fragment.toNat = i ∧ f.payload = piece

/-- The parts are payloads of fragments in `ms`. -/
def Traced (ms : List Message) : Reassembly → Prop
  | .Collecting packet parts missing _ => missing = Parts.missing parts ∧
      ∀ i piece, parts[i]? = some (some piece) → ∃ f ∈ ms, f.packet = packet ∧
        f.fragments.toNat = parts.length ∧ f.fragment.toNat = i ∧ f.payload = piece
  | _ => True

theorem Traced.mono {ms ns : List Message} {r : Reassembly} (h : Traced ms r)
    (hsub : ∀ m ∈ ms, m ∈ ns) : Traced ns r := by
  cases r with
  | Idle => trivial
  | Over => trivial
  | Collecting packet parts missing size =>
    refine ⟨h.1, fun i piece hpiece => ?_⟩
    obtain ⟨f, hf, hof⟩ := h.2 i piece hpiece
    exact ⟨f, hsub f hf, hof⟩

/-- The packet of a fragment has its id and its count. -/
theorem begun_cases {ms : List Message} {r : Reassembly} (h : Traced ms r) (m : Message) :
    (∃ parts missing size, r.begun m = .Collecting m.packet parts missing size ∧
      parts.length = m.fragments.toNat ∧ Traced ms (r.begun m)) ∨
    (r.begun m = .Over m.packet m.fragments ∧ r = .Over m.packet m.fragments) := by
  unfold begun
  by_cases hknown : r.known m.packet m.fragments = true
  · rw [if_pos hknown]
    cases r with
    | Idle => simp [known] at hknown
    | Over packet fragments =>
      simp only [known, Bool.and_eq_true, beq_iff_eq] at hknown
      obtain ⟨rfl, rfl⟩ := hknown
      exact .inr ⟨rfl, rfl⟩
    | Collecting packet parts missing size =>
      simp only [known, Bool.and_eq_true, beq_iff_eq] at hknown
      obtain ⟨rfl, hcount⟩ := hknown
      exact .inl ⟨parts, missing, size, rfl, hcount, h⟩
  · rw [if_neg hknown]
    refine .inl ⟨_, _, _, rfl, List.length_replicate, ?_, fun i piece hpiece => ?_⟩
    · rw [Parts.missing, List.countP_replicate]
      rfl
    · have := List.mem_of_getElem? hpiece
      rw [List.mem_replicate] at this
      cases this.2

/-- **One message**: what is under way stays traced, and what is put together is. -/
theorem feed_traced {ms : List Message} {r : Reassembly} (h : Traced ms r) (m : Message) :
    Traced (ms ++ [m]) (r.feed m).1 ∧
      ∀ whole, 1 < m.fragments.toNat → (r.feed m).2 = some whole → MadeOf (ms ++ [m]) m whole := by
  have hlater : ∀ s, Traced ms s → Traced (ms ++ [m]) s := fun s hs =>
    hs.mono fun f hf => List.mem_append_left _ hf
  unfold feed
  by_cases hone : m.fragments.toNat ≤ 1
  · rw [if_pos hone]
    exact ⟨hlater r h, fun whole hmany => absurd hone (not_le.2 hmany)⟩
  by_cases hpast : m.fragments.toNat ≤ m.fragment.toNat
  · rw [if_neg hone, if_pos hpast]
    exact ⟨hlater r h, fun whole _ hwhole => by cases hwhole⟩
  rw [if_neg hone, if_neg hpast]
  rcases begun_cases h m with ⟨parts, missing, size, hbegun, hcount, htraced⟩ | ⟨hbegun, rfl⟩
  swap
  · rw [hbegun]
    exact ⟨trivial, fun whole _ hwhole => by cases hwhole⟩
  rw [hbegun] at htraced ⊢
  have hlt : m.fragment.toNat < parts.length := by omega
  cases hpart : parts[m.fragment.toNat] with
  | some part =>
    have hseen : (parts.getD m.fragment.toNat none).isSome = true := by
      rw [List.getD_eq_getElem?_getD, List.getElem?_eq_getElem hlt, hpart]
      rfl
    simp only [take_in, hseen, if_true]
    exact ⟨hlater _ htraced, fun whole _ hwhole => by cases hwhole⟩
  | none =>
    have hget : parts[m.fragment.toNat]? = some none := by
      rw [List.getElem?_eq_getElem hlt, hpart]
    have hseen : (parts.getD m.fragment.toNat none).isSome = false := by
      rw [List.getD_eq_getElem?_getD, hget]
      rfl
    have hmissing := Parts.missing_set hget m.payload
    -- every part put in comes of a message, the new one of `m`
    have hpieces : ∀ i piece, (parts.set m.fragment.toNat (some m.payload))[i]? =
        some (some piece) → ∃ f ∈ ms ++ [m], f.packet = m.packet ∧
          f.fragments.toNat = parts.length ∧ f.fragment.toNat = i ∧ f.payload = piece := by
      intro i piece hpiece
      rcases eq_or_ne m.fragment.toNat i with rfl | hne
      · rw [List.getElem?_set_self hlt] at hpiece
        exact ⟨m, by simp, rfl, hcount.symm, rfl, Option.some.inj (Option.some.inj hpiece)⟩
      · rw [List.getElem?_set_ne hne] at hpiece
        obtain ⟨f, hf, hof⟩ := htraced.2 i piece hpiece
        exact ⟨f, List.mem_append_left _ hf, hof⟩
    simp only [take_in, hseen, Bool.false_eq_true, if_false]
    split_ifs with hlong hleft
    · exact ⟨trivial, fun whole _ hwhole => by cases hwhole⟩
    · have hkept := htraced.1
      refine ⟨⟨by omega, fun i piece hpiece => ?_⟩, fun whole _ hwhole => by cases hwhole⟩
      rw [List.length_set]
      exact hpieces i piece hpiece
    · refine ⟨trivial, fun whole _ hwhole => ?_⟩
      have hkept := htraced.1
      have hall := Parts.eq_map_some
        (show Parts.missing (parts.set m.fragment.toNat (some m.payload)) = 0 by omega)
      refine ⟨(parts.set m.fragment.toNat (some m.payload)).filterMap id, ?_,
        Option.some.inj hwhole, fun i piece hpiece => ?_⟩
      · have hlength := congrArg List.length hall
        rw [List.length_map, List.length_set] at hlength
        omega
      · have hplace : (parts.set m.fragment.toNat (some m.payload))[i]? = some (some piece) := by
          rw [hall, List.getElem?_map, hpiece]
          rfl
        obtain ⟨f, hf, hid, hfragments, hof⟩ := hpieces i piece hplace
        exact ⟨f, hf, hid, UInt8.toNat_inj.1 (hfragments.trans hcount), hof⟩

/-- **A run**: whatever is put together comes of fragments of its own. -/
theorem outputs_traced {before : List Message} {r : Reassembly} (h : Traced before r)
    {ms : List Message} {n : ℕ} {m : Message} {address whole : List UInt8} (hm : ms[n]? = some m)
    (hwhole : (outputs r ms)[n]? = some (some (address, whole))) (hmany : 1 < m.fragments.toNat) :
    MadeOf (before ++ ms.take (n + 1)) m whole := by
  induction ms generalizing before r n with
  | nil => cases hm
  | cons x ms ih =>
    have hstep := feed_traced h x
    cases n with
    | zero =>
      obtain rfl := Option.some.inj hm
      rw [outputs, List.getElem?_cons_zero] at hwhole
      obtain ⟨whole', hfed, heq⟩ := Option.map_eq_some_iff.1 (Option.some.inj hwhole)
      cases heq
      exact hstep.2 whole hmany hfed
    | succ n =>
      rw [List.getElem?_cons_succ] at hm
      rw [outputs, List.getElem?_cons_succ] at hwhole
      have := ih hstep.1 hm hwhole
      rwa [List.append_assoc] at this

end Reassembly

/-- The message a packet's fragment is read as. -/
theorem parse_message {session : UInt32} {packet : UInt16} {address : List UInt8}
    {pieces : List (List UInt8)} (hpos : 1 ≤ address.length) (hmost : address.length ≤ MAX_ADDRESS)
    {k : ℕ} (hk : k < pieces.length) :
    ((messages session packet address pieces)[k]?).bind Message.parse =
      some (Reassembly.fragment_message session packet address pieces k (pieces.getD k [])) := by
  have hpiece : pieces[k]? = some (pieces.getD k []) := by
    rw [List.getD_eq_getElem?_getD, List.getElem?_eq_getElem hk, Option.getD_some]
  rw [messages, List.getElem?_map, List.getElem?_zipIdx, hpiece, Option.map_some, Option.map_some,
    Option.bind_some, Nat.zero_add]
  exact parse_header session packet (.ofNat k) (.ofNat pieces.length) _ hpos hmost

/-- The messages that were fed, where each is a message of the packet. -/
theorem messages_fed {session : UInt32} {packet : UInt16} {address : List UInt8}
    {pieces : List (List UInt8)} (hpos : 1 ≤ address.length) (hmost : address.length ≤ MAX_ADDRESS)
    {ks : List ℕ} {ms : List Message}
    (hfed : ms.map some =
      ks.map fun k => ((messages session packet address pieces)[k]?).bind Message.parse) :
    (∀ k ∈ ks, k < pieces.length) ∧ ms = ks.map fun k =>
      Reassembly.fragment_message session packet address pieces k (pieces.getD k []) := by
  have hlength : (messages session packet address pieces).length = pieces.length := by
    rw [messages, List.length_map, List.length_zipIdx]
  -- an index past the messages reads as none, so none of them is
  have hks : ∀ k ∈ ks, k < pieces.length := by
    intro k hk
    by_contra hpast
    have hmem := List.mem_map_of_mem (f := fun k =>
      ((messages session packet address pieces)[k]?).bind Message.parse) hk
    rw [← hfed] at hmem
    simp only [List.getElem?_eq_none (hlength ▸ not_lt.1 hpast), Option.bind_none] at hmem
    obtain ⟨m, -, hm⟩ := List.mem_map.1 hmem
    cases hm
  refine ⟨hks, List.map_injective_iff.2 (Option.some_injective Message) ?_⟩
  rw [hfed, List.map_map]
  exact List.map_congr_left fun k hk => parse_message hpos hmost (hks k hk)

/-- **Packets in fragments.**  A packet goes in at most 255 messages, none longer than `max`.  To an
address of 1 to 2048 bytes: where it goes whole, it comes every time its message is fed; where it
goes in fragments, of its messages fed in any order and any number of times, to a session whose
packet is another, it comes once if it is no longer than 65535 bytes and every message is among
them, and not at all else.  In every run, what is put together at a fragment is the payloads of
fragments of the same packet and count that were fed, each at its place. -/
theorem packets_put_together (random : Option UInt32) (session : UInt32)
    (address payload : List UInt8)
    (max : ℕ) {ds : List (List UInt8)}
    (hds : datagrams random session address payload max = .ok ds) :
    ds.length ≤ MAX_FRAGMENTS ∧ (∀ d ∈ ds, d.length ≤ max) ∧
    (1 ≤ address.length → address.length ≤ MAX_ADDRESS →
      ∀ (r : Reassembly) (ks : List ℕ) (ms : List Message),
        (ms.map some = ks.map fun k => (ds[k]?).bind Message.parse) →
        (ds.length = 1 → r.outputs ms = List.replicate ks.length (some (address, payload))) ∧
        (1 < ds.length → r.known (packet_id random) (.ofNat ds.length) = false →
          (r.outputs ms).filterMap id =
            if payload.length ≤ MAX_DATAGRAM ∧ ∀ k < ds.length, k ∈ ks then [(address, payload)]
            else [])) ∧
    ∀ (ms : List Message) (n : ℕ) (m : Message) (from_ whole : List UInt8), ms[n]? = some m →
      (Reassembly.Idle.outputs ms)[n]? = some (some (from_, whole)) → 1 < m.fragments.toNat →
      Reassembly.MadeOf (ms.take (n + 1)) m whole := by
  have hsafe : ∀ (ms : List Message) (n : ℕ) (m : Message) (from_ whole : List UInt8),
      ms[n]? = some m → (Reassembly.Idle.outputs ms)[n]? = some (some (from_, whole)) →
      1 < m.fragments.toNat → Reassembly.MadeOf (ms.take (n + 1)) m whole :=
    fun ms n m from_ whole hm hwhole hmany =>
      @Reassembly.outputs_traced [] .Idle trivial ms n m from_ whole hm hwhole hmany
  rcases datagrams_carry hds with hcarry | ⟨pieces, htwo, hcarry⟩
  · have hone : ds.length = 1 := by
      rw [hcarry.messages, messages, List.length_map, List.length_zipIdx, List.length_singleton]
    refine ⟨by rw [hone]; decide, hcarry.le_max, fun hpos hmost r ks ms hfed => ?_, hsafe⟩
    refine ⟨fun _ => ?_, fun hmany => absurd hone (ne_of_gt hmany)⟩
    rw [hcarry.messages] at hfed
    obtain ⟨hks, rfl⟩ := messages_fed hpos hmost hfed
    clear hfed
    induction ks with
    | nil => rfl
    | cons k ks ih =>
      obtain rfl : k = 0 := by simpa using hks k List.mem_cons_self
      rw [List.map_cons, List.length_cons, List.replicate_succ,
        ← ih fun x hx => hks x (List.mem_cons_of_mem _ hx)]
      rfl
  · have hlength : ds.length = pieces.length := by
      rw [hcarry.messages, messages, List.length_map, List.length_zipIdx]
    rw [hlength]
    refine ⟨hcarry.le_fragments, hcarry.le_max, fun hpos hmost r ks ms hfed => ?_, hsafe⟩
    refine ⟨fun hone => absurd hone (ne_of_gt htwo), fun _ hknown => ?_⟩
    rw [hcarry.messages] at hfed
    obtain ⟨hks, rfl⟩ := messages_fed hpos hmost hfed
    have hstands : Reassembly.Stands (packet_id random) pieces [] r := by
      rwa [Reassembly.Stands, if_pos rfl]
    have hput := @Reassembly.outputs_fragments session (packet_id random) address pieces [] r
      hstands
      hcarry.le_fragments htwo ks hks ⟨0, by omega, List.not_mem_nil⟩
    rwa [hcarry.flatten, List.append_nil] at hput

/-- Two fragments, the second first and twice, and the first again once the packet is whole. -/
theorem packets_put_together_two : ∃ ds ms, datagrams none 7 [97] [1, 2, 3] 12 = .ok ds ∧
    ms.map some = [1, 1, 0, 0].map (fun k => (ds[k]?).bind Message.parse) ∧
      (Reassembly.Idle.outputs ms).filterMap id = [([97], [1, 2, 3])] := by
  have hds : datagrams none 7 [97] [1, 2, 3] 12 = .ok (messages 7 1 [97] [[1, 2], [3]]) := by
    decide +kernel
  obtain ⟨-, -, hput, -⟩ := packets_put_together none 7 [97] [1, 2, 3] 12 hds
  refine ⟨_, [⟨7, 1, 1, 2, [97], [3]⟩, ⟨7, 1, 1, 2, [97], [3]⟩, ⟨7, 1, 0, 2, [97], [1, 2]⟩,
    ⟨7, 1, 0, 2, [97], [1, 2]⟩], hds, by decide +kernel, ?_⟩
  exact (hput (by decide) (by decide) .Idle [1, 1, 0, 0] _ (by decide +kernel)).2 (by decide) rfl

/-- What goes in fragments and is longer than a datagram can be is never put together. -/
theorem never_put_together {random : Option UInt32} {session : UInt32}
    {address payload : List UInt8} {max : ℕ} {ds : List (List UInt8)}
    (hds : datagrams random session address payload max = .ok ds) (hfits : max < payload.length)
    (hlong : MAX_DATAGRAM < payload.length) (hpos : 1 ≤ address.length)
    (hmost : address.length ≤ MAX_ADDRESS) :
    (Reassembly.Idle.outputs (ds.filterMap Message.parse)).filterMap id = [] := by
  rcases datagrams_carry hds with hcarry | ⟨pieces, htwo, hcarry⟩
  · have hmessage := hcarry.le_max _ (by rw [hcarry.messages]; exact List.mem_cons_self)
    rw [List.length_append] at hmessage
    omega
  have hmessages : ds.filterMap Message.parse = (List.range pieces.length).map fun k =>
      Reassembly.fragment_message session (packet_id random) address pieces k
        (pieces.getD k []) := by
    have hlength : ds.length = pieces.length := by
      rw [hcarry.messages, messages, List.length_map, List.length_zipIdx]
    have hparsed : ds.map Message.parse = (List.range pieces.length).map fun k =>
        some (Reassembly.fragment_message session (packet_id random) address pieces k
          (pieces.getD k [])) := by
      refine List.ext_getElem (by simp [hlength]) fun k hk hk' => ?_
      have hlt : k < pieces.length := by simpa using hk'
      have := @parse_message session (packet_id random) address pieces hpos hmost k hlt
      rw [← hcarry.messages, List.getElem?_eq_getElem (hlength ▸ hlt)] at this
      simpa using this
    calc ds.filterMap Message.parse = (ds.map Message.parse).filterMap id := by
          rw [List.filterMap_map]
          rfl
      _ = _ := by
          rw [hparsed, List.filterMap_map]
          exact congrFun List.filterMap_eq_map' _
  have hstands : Reassembly.Stands (packet_id random) pieces [] .Idle := by
    rw [Reassembly.Stands, if_pos rfl]
    rfl
  rw [hmessages, Reassembly.outputs_fragments hstands hcarry.le_fragments htwo
    (fun k hk => List.mem_range.1 hk) ⟨0, by omega, List.not_mem_nil⟩, hcarry.flatten,
    if_neg fun h => absurd h.1 (not_le.2 hlong)]

/-- A packet that goes whole comes as often as its message; one of 65536 bytes in fragments never
comes; nor does one to no address; and one under the id and count of the packet before it is taken
for more of that. -/
theorem put_together_fails :
    (∃ ds, datagrams none 7 [97] [1] 12 = .ok ds ∧
      Reassembly.Idle.outputs ((ds ++ ds).filterMap Message.parse) =
        [some ([97], [1]), some ([97], [1])]) ∧
    (∃ ds, datagrams none 7 [97] (List.replicate 65536 0) 40000 = .ok ds ∧
      (Reassembly.Idle.outputs (ds.filterMap Message.parse)).filterMap id = []) ∧
    (∃ ds, datagrams none 7 [] [1] 12 = .ok ds ∧ ds.filterMap Message.parse = []) ∧
    ∃ ds es, datagrams none 7 [97] [1, 2, 3] 12 = .ok ds ∧
      datagrams none 7 [97] [4, 5, 6] 12 = .ok es ∧
      (Reassembly.Idle.outputs ((ds ++ es).filterMap Message.parse)).filterMap id =
        [([97], [1, 2, 3])] := by
  refine ⟨⟨messages 7 0 [97] [[1]], by decide +kernel, by decide +kernel⟩, ?_,
    ⟨messages 7 0 [] [[1]], by decide +kernel, by decide +kernel⟩,
    messages 7 1 [97] [[1, 2], [3]], messages 7 1 [97] [[4, 5], [6]], by decide +kernel,
    by decide +kernel, by decide +kernel⟩
  obtain ⟨ds, hds⟩ : ∃ ds, datagrams none 7 [97] (List.replicate 65536 0) 40000 = .ok ds := by
    have hheader : (header 7 0 0 1 [97]).length = 10 := by decide +kernel
    simp only [datagrams, hheader, List.length_replicate]
    rw [if_neg (by norm_num), if_neg (by norm_num), if_neg (by decide)]
    exact ⟨_, rfl⟩
  have hlength : (List.replicate 65536 (0 : UInt8)).length = 65536 := List.length_replicate
  exact ⟨ds, hds, never_put_together hds (by rw [hlength]; norm_num) (by rw [hlength]; decide)
    (by decide) (by decide)⟩

end Hysteria2

end Rurge
