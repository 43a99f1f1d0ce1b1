import Rurge.Hysteria2.Obfs

/-!
# The runs of an obfuscated socket

Every datagram that arrives is opened once, whole and in its turn, and what it brings is handed on
once; what was sent whole comes whole, and what was sent in fragments is put together as
`GeckoRuns` has it.
-/

namespace Rurge

namespace Obfs

open BigEndian

variable {o : Obfuscated} {clock : ℕ → ℕ}

/-! ### What is sent -/

/-- What holds of all that was made of a packet. -/
structure Made (o : Obfuscated) (x : Sent) : Prop where
  whole : x.cut = none → (o.gecko && is_long_header x.packet) = false ∧
    ∃ salt, x.datagrams = [o.salamander.seal_ salt (List.replicate SALT 0 ++ x.packet)]
  fragmented : ∀ c, x.cut = some c → o.gecko = true ∧ is_long_header x.packet = true ∧
    c.packet = x.packet ∧
      ∃ draws, x.datagrams = fragments o.salamander draws c.packet c.count c.message

theorem sends_concat (attempts : List Attempt) (a : Attempt) :
    o.sends (attempts ++ [a]) = (o.try_send (o.sends attempts) a).1 := by
  simp [Obfuscated.sends]

theorem try_send_cases (s : Sender) (a : Attempt) :
    ((o.gecko && is_long_header a.packet) = true ∧
      (o.try_send s a).1 = ⟨s.messages + 1, s.sent ++ [o.fragmented s.messages a]⟩) ∨
    ((o.gecko && is_long_header a.packet) = false ∧
      (o.try_send s a).1 = ⟨s.messages, s.sent ++ [o.whole a]⟩) := by
  unfold Obfuscated.try_send
  cases h : o.gecko && is_long_header a.packet with
  | true => exact .inl ⟨rfl, by rw [if_pos rfl]⟩
  | false => exact .inr ⟨rfl, by rw [if_neg Bool.false_ne_true]⟩

theorem made_sends (attempts : List Attempt) : ∀ x ∈ (o.sends attempts).sent, Made o x := by
  induction attempts using List.reverseRecOn with
  | nil => simp [Obfuscated.sends]
  | append_singleton attempts a ih =>
    intro x hx
    rw [sends_concat] at hx
    obtain ⟨hlong, heq⟩ | ⟨hshort, heq⟩ := @try_send_cases o (o.sends attempts) a
    · rw [heq] at hx
      rcases List.mem_append.1 hx with hx | hx
      · exact ih x hx
      · obtain rfl := List.mem_singleton.1 hx
        rw [Bool.and_eq_true] at hlong
        refine ⟨fun h => (by cases h), fun c hc => ?_⟩
        obtain rfl := Option.some.inj hc
        exact ⟨hlong.1, hlong.2, rfl, a.draws, rfl⟩
    · rw [heq] at hx
      rcases List.mem_append.1 hx with hx | hx
      · exact ih x hx
      · obtain rfl := List.mem_singleton.1 hx
        exact ⟨fun _ => ⟨hshort, _, rfl⟩, fun c hc => (by cases hc)⟩

/-- The packets sent are those quinn gave. -/
theorem packets_sends (attempts : List Attempt) :
    (o.sends attempts).sent.map Sent.packet = attempts.map Attempt.packet := by
  induction attempts using List.reverseRecOn with
  | nil => rfl
  | append_singleton attempts a ih =>
    rw [sends_concat, List.map_append, ← ih]
    obtain ⟨-, heq⟩ | ⟨-, heq⟩ := @try_send_cases o (o.sends attempts) a
    · rw [heq, List.map_append]
      rfl
    · rw [heq, List.map_append]
      rfl

/-- The packets of a source that went in fragments are numbered one after the other. -/
theorem numbers_sends (attempts : List Attempt) :
    ((o.sends attempts).sent.filterMap Sent.cut).map Cut.message =
        (List.range ((o.sends attempts).sent.filterMap Sent.cut).length).map UInt8.ofNat ∧
      (o.sends attempts).messages =
        UInt8.ofNat ((o.sends attempts).sent.filterMap Sent.cut).length := by
  induction attempts using List.reverseRecOn with
  | nil => exact ⟨rfl, rfl⟩
  | append_singleton attempts a ih =>
    rw [sends_concat]
    obtain ⟨-, heq⟩ | ⟨-, heq⟩ := @try_send_cases o (o.sends attempts) a
    · have hcut : (o.fragmented (o.sends attempts).messages a).cut =
          some (Obfuscated.cut (o.sends attempts).messages a) := rfl
      rw [heq]
      generalize o.sends attempts = s at *
      obtain ⟨hnumbers, hnext⟩ := ih
      simp only [List.filterMap_append, List.filterMap_cons_some hcut, List.filterMap_nil,
        List.map_append, List.length_append, List.length_singleton, List.map_singleton,
        List.range_succ, hnumbers]
      exact ⟨by rw [← hnext]; rfl, by rw [hnext, UInt8.ofNat_add]; rfl⟩
    · have hcut : (o.whole a).cut = none := rfl
      rw [heq]
      generalize o.sends attempts = s at *
      simp only [List.filterMap_append, List.filterMap_cons_none hcut, List.filterMap_nil,
        List.append_nil]
      exact ih

/-! ### What is opened -/

/-- The datagram went out, as `label` says: which of the packets, and which of its datagrams. -/
def Went (sent : List Sent) (label : ℕ × ℕ) (datagram : Bytes) : Prop :=
  ∃ x, sent[label.1]? = some x ∧ label.2 ∈ x.out ∧ x.datagrams[label.2]? = some datagram

/-- A packet that was sent whole is opened as it was sent. -/
theorem open_whole {x : Sent} (hmade : Made o x) (hcut : x.cut = none) (hpacket : x.packet ≠ [])
    {i : ℕ} {datagram : Bytes} (h : x.datagrams[i]? = some datagram) (now : ℕ)
    (source : SocketAddr) (r : Reassembly) :
    o.open_ now datagram source r = (r, some x.packet) := by
  obtain ⟨hshort, salt, hdatagrams⟩ := hmade.whole hcut
  rw [hdatagrams] at h
  obtain rfl := List.mem_singleton.1 (List.mem_of_getElem? h)
  rw [Obfuscated.open_, o.salamander.open_sealed salt hpacket]
  dsimp only
  rw [if_pos]
  rw [Bool.and_eq_false_iff] at hshort
  rcases hshort with h | h
  · simp [h]
  · simp [h]

/-- A fragment is fed as the frame it was made of. -/
theorem open_fragment {x : Sent} (hmade : Made o x) {c : Cut} (hcut : x.cut = some c)
    {i : ℕ} {datagram : Bytes} (h : x.datagrams[i]? = some datagram) (now : ℕ)
    (source : SocketAddr) (r : Reassembly) :
    ∃ hi : UInt8.ofNat i < c.count, (UInt8.ofNat i).toNat = i ∧
      o.open_ now datagram source r = r.feed now source (c.frame (.ofNat i) hi) := by
  obtain ⟨hgecko, -, -, draws, hdatagrams⟩ := hmade.fragmented c hcut
  rw [hdatagrams, fragments, List.getElem?_map] at h
  obtain ⟨i', hi', rfl⟩ := Option.map_eq_some_iff.1 h
  obtain ⟨hlt, hsame⟩ := List.getElem?_eq_some_iff.1 hi'
  rw [List.getElem_range] at hsame
  obtain rfl := hsame
  rw [List.length_range] at hlt
  have hmost : c.count.toNat ≤ 8 := c.count_ok.2
  have hnat : (UInt8.ofNat i).toNat = i := UInt8.toNat_ofNat_of_lt' (by
    have : UInt8.size = 256 := rfl
    omega)
  have hi : UInt8.ofNat i < c.count := by
    rw [UInt8.lt_iff_toNat_lt, hnat]
    exact hlt
  refine ⟨hi, hnat, ?_⟩
  have hnonempty : frame (draws i) c.message c.count (.ofNat i) (chunk c.packet c.count.toNat i) ≠
      [] := by simp [frame]
  rw [Obfuscated.open_, o.salamander.open_sealed _ hnonempty]
  dsimp only
  rw [is_long_header_frame, hgecko, if_neg (by simp), parse_frame _ _ _ c.count_ok hi]
  simp only [Cut.frame, hnat]

/-! ### Each datagram in its turn -/

/-- The datagrams of a read with their labels. -/
def tags (source : SocketAddr) : List Bytes → List (ℕ × ℕ) → List (Bytes × SocketAddr × (ℕ × ℕ))
  | [], _ => []
  | datagram :: rest, labels =>
    (datagram, source, labels.headD (0, 0)) :: tags source rest labels.tail

/-- What a read brings. -/
def Read.brings (read : Read) : List (Bytes × SocketAddr × (ℕ × ℕ)) :=
  tags read.source (chunks read.stride read.bytes) read.labels

/-- Its datagrams are apart. -/
def Read.Apart (read : Read) : Prop := read.bytes = [] ∨ 0 < read.stride

def Opened.tag (e : Opened) : Bytes × SocketAddr × (ℕ × ℕ) := (e.datagram, e.source, e.label)

/-- What was handed on. -/
def Opened.handed (e : Opened) : Option (Bytes × SocketAddr) := e.packet.map (·, e.source)

namespace Received

variable {s : Received}

/-- What of the read was not opened yet. -/
def rest (s : Received) : List (Bytes × SocketAddr × (ℕ × ℕ)) :=
  tags s.read.source (chunks s.read.stride (s.read.bytes.drop s.at_)) s.read.labels

variable (o clock) in
/-- The fragments that wait after these were opened. -/
def after (opened : List Opened) : Reassembly :=
  opened.foldl (fun r e => (o.open_ e.now e.datagram e.source r).1) []

theorem after_concat (opened : List Opened) (e : Opened) :
    after o (opened ++ [e]) = (o.open_ e.now e.datagram e.source (after o opened)).1 := by
  simp [after]

variable (o clock) in
/-- What was opened brought what it does after what was opened before. -/
structure Faithful (s : Received) : Prop where
  reassembly : s.reassembly = after o s.opened
  opened : ∀ before e later, s.opened = before ++ e :: later → e.now = clock before.length ∧
    e.packet = (o.open_ e.now e.datagram e.source (after o before)).2.filter fun packet =>
      packet.length ≤ e.room

/-- The next datagram is within the read. -/
theorem at_le_end (h : s.at_ < s.read.bytes.length) (hstride : 0 < s.read.stride) :
    s.at_ < s.end_ ∧ s.end_ ≤ s.read.bytes.length := by
  unfold end_
  omega

theorem rest_eq_cons (h : s.at_ < s.read.bytes.length) (hstride : 0 < s.read.stride) (room : ℕ) :
    ∃ e : Opened, (s.next o clock room).1.opened = s.opened ++ [e] ∧
      e.packet = (s.next o clock room).2 ∧ e.source = s.read.source ∧
      s.rest = e.tag :: (s.next o clock room).1.rest := by
  refine ⟨_, rfl, rfl, rfl, ?_⟩
  have hne : s.read.bytes.drop s.at_ ≠ [] := by
    rw [Ne, List.drop_eq_nil_iff]
    omega
  have hdatagram : (s.read.bytes.take s.end_).drop s.at_ =
      (s.read.bytes.drop s.at_).take s.read.stride := by
    rw [List.drop_take, List.take_eq_take_iff, List.length_drop, end_]
    omega
  have hrest : s.read.bytes.drop s.end_ = (s.read.bytes.drop s.at_).drop s.read.stride := by
    rw [List.drop_drop, end_]
    rcases le_total (s.at_ + s.read.stride) s.read.bytes.length with hle | hle
    · rw [min_eq_right hle]
    · rw [min_eq_left hle, List.drop_length, List.drop_eq_nil_of_le hle]
  unfold rest
  rw [chunks_eq_cons hstride hne, ← hdatagram, ← hrest]
  rfl

theorem Faithful.next (h : Faithful o clock s) (room : ℕ) :
    Faithful o clock (s.next o clock room).1 := by
  refine ⟨?_, fun before e later heq => ?_⟩
  · simp only [Received.next, after_concat, h.reassembly]
  · simp only [Received.next] at heq
    rcases List.eq_nil_or_concat later with rfl | ⟨later, e', rfl⟩
    · obtain ⟨rfl, hlast⟩ := List.append_inj' heq rfl
      obtain rfl := (List.cons.inj hlast).1
      exact ⟨rfl, by dsimp only; rw [h.reassembly]⟩
    · rw [List.concat_eq_append, ← List.cons_append, ← List.append_assoc] at heq
      exact h.opened before e later (List.append_inj' heq rfl).1

variable (o clock) in
/-- What becomes of a read while its datagrams are opened. -/
structure Takes (s s' : Received) (news : List Opened) : Prop where
  opened : s'.opened = s.opened ++ news
  rest : s.rest = news.map Opened.tag ++ s'.rest
  faithful : Faithful o clock s → Faithful o clock s'
  apart : s'.read.Apart
  within : s'.at_ ≤ s'.read.bytes.length

theorem take_read_spec (s : Received) (rooms : List ℕ) (hapart : s.read.Apart)
    (hwithin : s.at_ ≤ s.read.bytes.length) : ∃ s' news, Takes o clock s s' news ∧
      s.take_read o clock rooms = some (s', news.filterMap Opened.handed) ∧
      (news.filterMap Opened.handed = [] → rooms ≠ [] → s'.rest = []) := by
  induction hleft : s.read.bytes.length - s.at_ using Nat.strong_induction_on
    generalizing s rooms with
  | _ left ih =>
    have hsame : Takes o clock s s [] := ⟨by simp, by simp, id, hapart, hwithin⟩
    unfold take_read
    cases rooms with
    | nil => exact ⟨s, [], hsame, rfl, fun _ h => absurd rfl h⟩
    | cons room others =>
      by_cases h : s.at_ < s.read.bytes.length
      · have hstride : 0 < s.read.stride := by
          rcases hapart with hnil | hstride
          · simp [hnil] at h
          · exact hstride
        obtain ⟨hend, hend'⟩ := at_le_end h hstride
        obtain ⟨e, hopened, hpacket, hsource, hrest⟩ := @rest_eq_cons o clock s h hstride room
        have hnext : ∀ rooms, ∃ s' news, Takes o clock s s' (e :: news) ∧
            (s.next o clock room).1.take_read o clock rooms =
              some (s', news.filterMap Opened.handed) ∧
            (news.filterMap Opened.handed = [] → rooms ≠ [] → s'.rest = []) := by
          intro rooms
          obtain ⟨s', news, htakes, heq, hall⟩ := ih _ (by
            simp only [next]
            omega) (s.next o clock room).1 rooms (.inr hstride) hend' rfl
          refine ⟨s', news, ⟨?_, ?_, fun hs => htakes.faithful (hs.next room), htakes.apart,
            htakes.within⟩, heq, hall⟩
          · rw [htakes.opened, hopened, List.append_assoc, List.singleton_append]
          · rw [hrest, htakes.rest, List.map_cons, List.cons_append]
        dsimp only
        rw [dif_pos h, dif_pos hstride]
        cases hbrings : (s.next o clock room).2 with
        | none =>
          obtain ⟨s', news, htakes, heq, hall⟩ := hnext (room :: others)
          have hhanded : e.handed = none := by rw [Opened.handed, hpacket, hbrings, Option.map_none]
          exact ⟨s', e :: news, htakes, by rw [List.filterMap_cons_none hhanded]; exact heq,
            by rw [List.filterMap_cons_none hhanded]; exact hall⟩
        | some packet =>
          obtain ⟨s', news, htakes, heq, -⟩ := hnext others
          have hhanded : e.handed = some (packet, s.read.source) := by
            rw [Opened.handed, hpacket, hbrings, hsource, Option.map_some]
          refine ⟨s', e :: news, htakes, ?_, ?_⟩
          · rw [List.filterMap_cons_some hhanded]
            dsimp only
            rw [heq, Option.map_some]
          · rw [List.filterMap_cons_some hhanded]
            simp
      · dsimp only
        rw [dif_neg h]
        refine ⟨s, [], hsame, rfl, fun _ _ => ?_⟩
        rw [rest, List.drop_eq_nil_of_le (not_lt.1 h), chunks_nil]
        rfl

theorem take_read_done (h : ¬ s.at_ < s.read.bytes.length) (room : ℕ) (rooms : List ℕ) :
    s.take_read o clock (room :: rooms) = some (s, []) := by
  rw [take_read, dif_neg h]

end Received

/-! ### Polls -/

/-- What an inner read brings, if it does not fail. -/
def held (inbox : List (Except Str Read)) : List (Bytes × SocketAddr × (ℕ × ℕ)) :=
  inbox.flatMap fun result => match result with
    | .ok read => read.brings
    | .error _ => []

/-- The datagrams of every read are apart. -/
def AllApart (inbox : List (Except Str Read)) : Prop := ∀ read, .ok read ∈ inbox → read.Apart

namespace Socket

variable (o clock) in
/-- What becomes of the socket in a poll. -/
structure Polls (s s' : Received) (inbox inbox' : List (Except Str Read)) (news : List Opened) :
    Prop where
  opened : s'.opened = s.opened ++ news
  every : s.rest ++ held inbox = news.map Opened.tag ++ (s'.rest ++ held inbox')
  faithful : Received.Faithful o clock s → Received.Faithful o clock s'
  apart : s'.read.Apart
  within : s'.at_ ≤ s'.read.bytes.length
  inbox : ∀ result ∈ inbox', result ∈ inbox

/-- **A poll comes to an end**, and what it hands on is what the datagrams opened in it bring. -/
theorem poll_recv_spec {rooms : List ℕ} (hrooms : rooms ≠ []) (s : Received)
    (inbox : List (Except Str Read)) (hapart : s.read.Apart)
    (hwithin : s.at_ ≤ s.read.bytes.length) (hinbox : AllApart inbox) :
    ∃ polled s' inbox' news, poll_recv o clock rooms s inbox = some (polled, s', inbox') ∧
      Polls o clock s s' inbox inbox' news ∧ given polled = news.filterMap Opened.handed := by
  induction inbox generalizing s with
  | nil =>
    obtain ⟨s', news, htakes, heq, hall⟩ := @s.take_read_spec o clock rooms hapart hwithin
    unfold poll_recv
    rw [heq]
    cases hfound : news.filterMap Opened.handed with
    | nil =>
      have hrest := hall hfound hrooms
      refine ⟨_, _, _, news, rfl, ⟨htakes.opened, ?_, fun hs => ?_, .inl rfl, le_rfl, by simp⟩,
        hfound.symm⟩
      · rw [htakes.rest, hrest]
        simp [Received.rest, Read.default, tags]
      · have hs' := htakes.faithful hs
        exact ⟨hs'.reassembly, hs'.opened⟩
    | cons packet packets =>
      exact ⟨_, s', [], news, rfl, ⟨htakes.opened, by simp [htakes.rest], htakes.faithful,
        htakes.apart, htakes.within, by simp⟩, hfound.symm⟩
  | cons result inbox ih =>
    obtain ⟨s', news, htakes, heq, hall⟩ := @s.take_read_spec o clock rooms hapart hwithin
    have hrestInbox : AllApart inbox := fun read hread => hinbox read (List.mem_cons_of_mem _ hread)
    unfold poll_recv
    rw [heq]
    cases hfound : news.filterMap Opened.handed with
    | nil =>
      have hrest := hall hfound hrooms
      cases result with
      | error e =>
        refine ⟨_, _, inbox, news, rfl, ⟨htakes.opened, ?_, fun hs => ?_, .inl rfl, le_rfl,
          fun result h => List.mem_cons_of_mem _ h⟩, hfound.symm⟩
        · rw [htakes.rest, hrest]
          simp [Received.rest, Read.default, tags, held]
        · have hs' := htakes.faithful hs
          exact ⟨hs'.reassembly, hs'.opened⟩
      | ok read =>
        obtain ⟨polled, s'', inbox', news', heq', hpolls, hgiven⟩ :=
          ih { s' with read := read, at_ := 0 } (hinbox read List.mem_cons_self) (Nat.zero_le _)
            hrestInbox
        refine ⟨polled, s'', inbox', news ++ news', heq', ⟨?_, ?_, fun hs => hpolls.faithful ?_,
          hpolls.apart, hpolls.within, fun result h => List.mem_cons_of_mem _ (hpolls.inbox _ h)⟩,
          ?_⟩
        · rw [hpolls.opened]
          dsimp only
          rw [htakes.opened, List.append_assoc]
        · have hevery := hpolls.every
          have hbrings : Received.rest { s' with read := read, at_ := 0 } = read.brings := rfl
          rw [hbrings] at hevery
          rw [htakes.rest, hrest, List.append_nil, List.map_append, List.append_assoc, ← hevery]
          simp [held]
        · have hs' := htakes.faithful hs
          exact ⟨hs'.reassembly, hs'.opened⟩
        · rw [List.filterMap_append, hfound, hgiven, List.nil_append]
    | cons packet packets =>
      exact ⟨_, s', result :: inbox, news, rfl, ⟨htakes.opened, by simp [htakes.rest],
        htakes.faithful, htakes.apart, htakes.within, fun _ h => h⟩, hfound.symm⟩

theorem poll_recv_next {rooms : List ℕ} {s s' : Received} {read : Read}
    {inbox : List (Except Str Read)} (h : s.take_read o clock rooms = some (s', [])) :
    poll_recv o clock rooms s (.ok read :: inbox) =
      poll_recv o clock rooms { s' with read := read, at_ := 0 } inbox := by
  rw [poll_recv, h]

theorem poll_recv_ready {rooms : List ℕ} {s s' : Received} {inbox : List (Except Str Read)}
    {packet : Bytes × SocketAddr} {packets : List (Bytes × SocketAddr)}
    (h : s.take_read o clock rooms = some (s', packet :: packets)) :
    poll_recv o clock rooms s inbox = some (.Ready (packet :: packets), s', inbox) := by
  rw [poll_recv, h]

theorem handed_poll {rooms : List ℕ} {s : Socket} {polled : Polled} {received : Received}
    {inbox : List (Except Str Read)}
    (h : poll_recv o clock rooms s.received s.inbox = some (polled, received, inbox)) :
    (s.step o clock (.poll rooms)).handed = s.handed ++ given polled := by
  simp only [step, h]

variable (o clock) in
/-- The receiving side in any state it comes to. -/
structure Orderly (s : Socket) : Prop where
  every : s.received.opened.map Opened.tag ++ (s.received.rest ++ held s.inbox) =
    s.arrived.flatMap Read.brings
  handed : s.handed = s.received.opened.filterMap Opened.handed
  faithful : Received.Faithful o clock s.received
  apart : s.received.read.Apart
  within : s.received.at_ ≤ s.received.read.bytes.length
  inbox : AllApart s.inbox

/-- What is read has its datagrams apart, and quinn polls with a buffer at least. -/
def Usual : Action → Prop
  | .arrive read => read.Apart
  | .fail _ => True
  | .poll rooms => rooms ≠ []

theorem held_append (inbox inbox' : List (Except Str Read)) :
    held (inbox ++ inbox') = held inbox ++ held inbox' := List.flatMap_append

theorem arrived_poll (s : Socket) (rooms : List ℕ) :
    (s.step o clock (.poll rooms)).arrived = s.arrived := by
  unfold step
  dsimp only
  split <;> rfl

theorem Orderly.new : Orderly o clock Socket.new := by
  refine ⟨rfl, rfl, ⟨rfl, fun before e later h => ?_⟩, .inl rfl, le_rfl,
    by simp [AllApart, Socket.new]⟩
  simp [Socket.new] at h

theorem Orderly.step {s : Socket} (h : Orderly o clock s) {a : Action} (ha : Usual a) :
    Orderly o clock (s.step o clock a) := by
  cases a with
  | arrive read =>
    refine ⟨?_, h.handed, h.faithful, h.apart, h.within, fun read' hread => ?_⟩
    · simp only [Socket.step, held_append, List.flatMap_append, ← h.every, List.append_assoc]
      simp [held]
    · rcases List.mem_append.1 hread with hread | hread
      · exact h.inbox read' hread
      · obtain rfl := Except.ok.inj (List.mem_singleton.1 hread)
        exact ha
  | fail e =>
    refine ⟨?_, h.handed, h.faithful, h.apart, h.within, fun read hread => ?_⟩
    · simp only [Socket.step, held_append, ← h.every]
      simp [held]
    · rcases List.mem_append.1 hread with hread | hread
      · exact h.inbox read hread
      · cases List.mem_singleton.1 hread
  | poll rooms =>
    obtain ⟨polled, s', inbox', news, heq, hpolls, hgiven⟩ :=
      @poll_recv_spec o clock _ ha s.received s.inbox h.apart h.within h.inbox
    simp only [Socket.step, heq]
    refine ⟨?_, ?_, hpolls.faithful h.faithful, hpolls.apart, hpolls.within,
      fun read hread => h.inbox read (hpolls.inbox _ hread)⟩
    · dsimp only
      rw [hpolls.opened, List.map_append, List.append_assoc, ← hpolls.every, h.every]
    · dsimp only
      rw [hpolls.opened, List.filterMap_append, h.handed, hgiven]

end Socket

/-! ### What was opened and what was sent -/

variable {sent : SocketAddr → List Sent}

variable (sent) in
/-- In which fragments the packet was cut that a datagram is of. -/
def cut_of (e : Opened) : Option Cut := ((sent e.source)[e.label.1]?).bind Sent.cut

variable (sent) in
/-- In which fragments each packet was cut. -/
def book (source : SocketAddr) (no : ℕ) : Cut :=
  (((sent source)[no]?).bind Sent.cut).getD ⟨[], 0, 2, by decide⟩

variable (sent) in
/-- The fragment that was opened, if it is one. -/
def came_of (e : Opened) : Option (Came (book sent)) :=
  if h : (cut_of sent e).isSome ∧ UInt8.ofNat e.label.2 < (book sent e.source e.label.1).count then
    some ⟨e.now, e.source, e.label.1, .ofNat e.label.2, h.2⟩
  else none

variable (o sent) in
/-- What was opened is what was sent. -/
structure Genuine (e : Opened) : Prop where
  went : Went (sent e.source) e.label e.datagram
  made : ∀ x ∈ sent e.source, Made o x ∧ x.packet ≠ []

theorem came_of_none {e : Opened} (h : Genuine o sent e) (hcut : cut_of sent e = none) :
    came_of sent e = none ∧ ∃ x ∈ sent e.source, (sent e.source)[e.label.1]? = some x ∧
      x.cut = none ∧ ∀ r, o.open_ e.now e.datagram e.source r = (r, some x.packet) := by
  obtain ⟨x, hx, -, hdatagram⟩ := h.went
  have hmem := List.mem_of_getElem? hx
  have hnone : x.cut = none := by rwa [cut_of, hx, Option.bind_some] at hcut
  refine ⟨dif_neg (by simp [hcut]), x, hmem, hx, hnone, fun r => ?_⟩
  exact open_whole (h.made x hmem).1 hnone (h.made x hmem).2 hdatagram _ _ _

theorem came_of_some {e : Opened} (h : Genuine o sent e) {c : Cut} (hcut : cut_of sent e = some c) :
    ∃ y, came_of sent e = some y ∧ y.cut = c ∧ y.source = e.source ∧ y.no = e.label.1 ∧
      y.now = e.now ∧ y.index.toNat = e.label.2 ∧
      (∃ x ∈ sent e.source, (sent e.source)[e.label.1]? = some x ∧ c.packet = x.packet) ∧
      ∀ r, o.open_ e.now e.datagram e.source r = r.feed y.now y.source y.frame := by
  obtain ⟨x, hx, -, hdatagram⟩ := h.went
  have hmem := List.mem_of_getElem? hx
  have hsome : x.cut = some c := by rwa [cut_of, hx, Option.bind_some] at hcut
  have hbook : book sent e.source e.label.1 = c := by
    rw [book, hx, Option.bind_some, hsome, Option.getD_some]
  have hmade := (h.made x hmem).1
  obtain ⟨hi, hnat, -⟩ := open_fragment hmade hsome hdatagram e.now e.source []
  have hindex : UInt8.ofNat e.label.2 < (book sent e.source e.label.1).count := hbook ▸ hi
  refine ⟨⟨e.now, e.source, e.label.1, .ofNat e.label.2, hindex⟩,
    dif_pos ⟨by simp [hcut], hindex⟩, hbook, rfl, rfl, rfl, hnat,
    ⟨x, hmem, hx, (hmade.fragmented c hsome).2.2.1⟩, fun r => ?_⟩
  obtain ⟨hi', -, heq⟩ := open_fragment hmade hsome hdatagram e.now e.source r
  rw [heq]
  subst hbook
  rfl

theorem after_eq_fed {opened : List Opened} (h : ∀ e ∈ opened, Genuine o sent e) :
    Received.after o opened = Reassembly.fed (opened.filterMap (came_of sent)) := by
  induction opened using List.reverseRecOn with
  | nil => rfl
  | append_singleton opened e ih =>
    have he := h e (by simp)
    rw [Received.after_concat, List.filterMap_append, ih fun f hf => h f (by simp [hf])]
    cases hcut : cut_of sent e with
    | none =>
      obtain ⟨hnone, x, -, -, -, hopen⟩ := came_of_none he hcut
      rw [hopen, List.filterMap_cons_none hnone, List.filterMap_nil, List.append_nil]
    | some c =>
      obtain ⟨y, hy, -, -, -, -, -, -, hopen⟩ := came_of_some he hcut
      rw [hopen, List.filterMap_cons_some hy, List.filterMap_nil, Reassembly.fed_concat]

variable (sent) in
/-- Fragments of one source under one number. -/
def Alike (e f : Opened) : Prop :=
  e.source = f.source ∧ ∃ c d, cut_of sent e = some c ∧ cut_of sent f = some d ∧
    c.message = d.message

/-- Datagrams of one packet. -/
def SamePacket (e f : Opened) : Prop := f.source = e.source ∧ f.label.1 = e.label.1

variable (sent) in
/-- No two packets of one source under one number have fragments opened within `TTL`. -/
def NumbersApart (opened : List Opened) : Prop :=
  opened.Pairwise fun e f => Alike sent e f → f.now - e.now < TTL → SamePacket f e

theorem clear_of_apart {opened : List Opened} (h : ∀ e ∈ opened, Genuine o sent e)
    (hapart : NumbersApart sent opened) :
    Reassembly.Clear (opened.filterMap (came_of sent)) := by
  rw [Reassembly.Clear, List.pairwise_filterMap]
  refine List.Pairwise.imp_of_mem (fun {e f} he hf hef y hy x hx hkey hnow => ?_) hapart
  have hcut : ∀ {e : Opened} {y}, came_of sent e = some y → ∃ c, cut_of sent e = some c := by
    intro e y hy
    by_contra hnone
    rw [not_exists] at hnone
    rw [came_of, dif_neg] at hy
    · cases hy
    · rintro ⟨hsome, -⟩
      obtain ⟨c, hc⟩ := Option.isSome_iff_exists.1 hsome
      exact hnone c hc
  obtain ⟨c, hc⟩ := hcut hy
  obtain ⟨d, hd⟩ := hcut hx
  obtain ⟨y', hy', hycut, hysource, hyno, hynow, -⟩ := came_of_some (h e he) hc
  obtain ⟨x', hx', hxcut, hxsource, hxno, hxnow, -⟩ := came_of_some (h f hf) hd
  obtain rfl := Option.some.inj (hy.symm.trans hy')
  obtain rfl := Option.some.inj (hx.symm.trans hx')
  obtain ⟨hsource, hmessage⟩ := Prod.mk.inj hkey
  have hsame := hef ⟨hysource.symm.trans (hsource.trans hxsource), c, d, hc, hd,
    by rw [← hycut, ← hxcut, hmessage]⟩ (hynow ▸ hxnow ▸ hnow)
  exact ⟨hsource, hyno.trans (hsame.2.trans hxno.symm)⟩

/-! ### What is handed on -/

section

variable {opened before later : List Opened} {e : Opened}

/-- **What is handed on was sent**, where no two packets share a number in time. -/
theorem handed_sent (hgenuine : ∀ f ∈ before ++ [e], Genuine o sent f)
    (hapart : NumbersApart sent (before ++ [e])) {p : Bytes}
    (h : (o.open_ e.now e.datagram e.source (Received.after o before)).2 = some p) :
    ∃ x ∈ sent e.source, x.packet = p := by
  have he := hgenuine e (by simp)
  cases hcut : cut_of sent e with
  | none =>
    obtain ⟨-, x, hx, -, -, hopen⟩ := came_of_none he hcut
    rw [hopen] at h
    exact ⟨x, hx, Option.some.inj h⟩
  | some c =>
    obtain ⟨y, hy, hycut, -, -, -, -, ⟨x, hx, -, hpacket⟩, hopen⟩ := came_of_some he hcut
    have hclear := clear_of_apart hgenuine hapart
    rw [List.filterMap_append, List.filterMap_cons_some hy, List.filterMap_nil] at hclear
    rw [hopen, after_eq_fed fun f hf => hgenuine f (List.mem_append_left _ hf)] at h
    exact ⟨x, hx, by rw [← hpacket, ← hycut, Reassembly.whole_sent hclear h]⟩

variable (sent) in
/-- The fragments of a packet cut so all come in time: `first` is the first of them and `last` the
last that was missing, within `TTL`, none of another packet under its number from `TTL` before on,
and those of seven others at most in between. -/
structure InTime (c : Cut) (before : List Opened) (first : Opened) (between : List Opened)
    (last : Opened) : Prop where
  begins : ∀ e ∈ before, ¬ SamePacket first e
  ends : SamePacket first last
  missing : ∀ e ∈ first :: between, SamePacket first e → e.label.2 ≠ last.label.2
  all : ∀ i < c.count.toNat, ∃ e ∈ first :: (between ++ [last]), SamePacket first e ∧ e.label.2 = i
  in_time : last.now - first.now < TTL
  alone : ∀ e ∈ before, Alike sent e first → SamePacket first e ∨ TTL ≤ first.now - e.now
  alone' : ∀ e ∈ between, Alike sent e first → SamePacket first e
  few : ∃ others : List (SocketAddr × ℕ), others.length ≤ 7 ∧ ∀ e ∈ between,
    (cut_of sent e).isSome → SamePacket first e ∨ (e.source, e.label.1) ∈ others

theorem mem_cames {opened : List Opened} (h : ∀ e ∈ opened, Genuine o sent e) {y : Came (book sent)}
    (hy : y ∈ opened.filterMap (came_of sent)) : ∃ e ∈ opened, came_of sent e = some y ∧
      ∃ c, cut_of sent e = some c ∧ y.cut = c ∧ y.source = e.source ∧ y.no = e.label.1 ∧
        y.now = e.now ∧ y.index.toNat = e.label.2 := by
  obtain ⟨e, he, hsome⟩ := List.mem_filterMap.1 hy
  refine ⟨e, he, hsome, ?_⟩
  cases hcut : cut_of sent e with
  | none =>
    rw [(came_of_none (h e he) hcut).1] at hsome
    cases hsome
  | some c =>
    obtain ⟨y', hy', hycut, hsource, hno, hnow, hindex, -⟩ := came_of_some (h e he) hcut
    obtain rfl := Option.some.inj (hsome.symm.trans hy')
    exact ⟨c, rfl, hycut, hsource, hno, hnow, hindex⟩

/-- **What comes in time is handed on.** -/
theorem handed_in_time {first last : Opened} {between : List Opened} {c : Cut} {x : Sent}
    (hgenuine : ∀ e ∈ before ++ first :: (between ++ [last]), Genuine o sent e)
    (hnow : ∀ e ∈ between, e.now ≤ last.now) (hx : (sent first.source)[first.label.1]? = some x)
    (hcut : x.cut = some c) (h : InTime sent c before first between last) :
    (o.open_ last.now last.datagram last.source
      (Received.after o (before ++ first :: between))).2 = some x.packet := by
  have hfirst : cut_of sent first = some c := by rw [cut_of, hx, Option.bind_some, hcut]
  have hlast : cut_of sent last = some c := by
    rw [cut_of, h.ends.1, h.ends.2, hx, Option.bind_some, hcut]
  have hbefore : ∀ e ∈ before, Genuine o sent e := fun e he => hgenuine e (by simp [he])
  have hbetween : ∀ e ∈ between, Genuine o sent e := fun e he => hgenuine e (by simp [he])
  obtain ⟨y, hy, hycut, hysource, hyno, hynow, hyindex, ⟨x', -, hx', hpacket⟩, -⟩ :=
    came_of_some (hgenuine first (by simp)) hfirst
  obtain ⟨z, hz, hzcut, hzsource, hzno, hznow, hzindex, -, hopen⟩ :=
    came_of_some (hgenuine last (by simp)) hlast
  obtain rfl := Option.some.inj (hx.symm.trans hx')
  have hsame : ∀ {e : Opened} {w : Came (book sent)}, w.source = e.source → w.no = e.label.1 →
      (SamePacket first e ↔ y.Same w) := by
    intro e w hsource hno
    simp only [SamePacket, Came.Same, hsource, hno, hysource, hyno]
  have hparts : ∀ {es : List Opened}, (∀ e ∈ es, Genuine o sent e) → ∀ i,
      i ∈ Reassembly.parts_seen y (es.filterMap (came_of sent)) ↔
        ∃ e ∈ es, SamePacket first e ∧ e.label.2 = i := by
    intro es hes i
    simp only [Reassembly.parts_seen, List.mem_map, List.mem_filter, decide_eq_true_eq]
    constructor
    · rintro ⟨w, ⟨hw, hwsame⟩, rfl⟩
      obtain ⟨e, he, -, -, -, -, hsource, hno, -, hindex⟩ := mem_cames hes hw
      exact ⟨e, he, (hsame hsource hno).2 hwsame, hindex.symm⟩
    · rintro ⟨e, he, hesame, rfl⟩
      have hecut : cut_of sent e = some c := by
        rw [cut_of, hesame.1, hesame.2, hx, Option.bind_some, hcut]
      obtain ⟨w, hw, -, hsource, hno, -, hindex, -⟩ := came_of_some (hes e he) hecut
      exact ⟨w, ⟨List.mem_filterMap.2 ⟨e, he, hw⟩, (hsame hsource hno).1 hesame⟩, hindex⟩
  have halike : ∀ {e : Opened} {w : Came (book sent)} {d : Cut}, cut_of sent e = some d →
      w.cut = d → w.source = e.source → w.key = y.key → Alike sent e first := by
    intro e w d hd hwcut hsource hkey
    obtain ⟨hsources, hmessage⟩ := Prod.mk.inj hkey
    exact ⟨hsource.symm.trans (hsources.trans hysource), d, c, hd, hfirst,
      by rw [← hwcut, hmessage, hycut]⟩
  have hsplit : (before ++ first :: between).filterMap (came_of sent) =
      before.filterMap (came_of sent) ++ y :: between.filterMap (came_of sent) := by
    rw [List.filterMap_append, List.filterMap_cons_some hy]
  have hwhole := @Reassembly.whole_in_time (book sent) y (before.filterMap (came_of sent))
    (between.filterMap (came_of sent)) z ?_ ?_ ?_ ?_ ((hsame hzsource hzno).1 h.ends) ?_ ?_
  · rw [hopen, after_eq_fed fun e he => hgenuine e (by
      rcases List.mem_append.1 he with he | he
      · simp [he]
      · rcases List.mem_cons.1 he with rfl | he
        · simp
        · simp [he]), hsplit, hwhole, hycut, hpacket]
  · intro w hw hkey
    obtain ⟨e, he, -, d, hd, hwcut, hsource, hno, hwnow, -⟩ := mem_cames hbefore hw
    rcases h.alone e he (halike hd hwcut hsource hkey) with hesame | hlong
    · exact absurd hesame (h.begins e he)
    · rwa [hynow, hwnow]
  · intro w hw hkey
    obtain ⟨e, he, -, d, hd, hwcut, hsource, hno, -, -⟩ := mem_cames hbetween hw
    exact (hsame hsource hno).1 (h.alone' e he (halike hd hwcut hsource hkey))
  · intro w hw
    have hin := h.in_time
    rcases List.mem_append.1 hw with hw | hw
    · obtain ⟨e, he, -, d, -, -, -, -, hwnow, -⟩ := mem_cames hbetween hw
      have hle := hnow e he
      rw [hwnow, hynow]
      omega
    · rw [List.mem_singleton.1 hw, hznow, hynow]
      exact hin
  · obtain ⟨others, hfew, hothers⟩ := h.few
    refine ⟨others, Nat.lt_succ_of_le hfew, fun w hw hnot => ?_⟩
    obtain ⟨e, he, -, d, hd, -, hsource, hno, -, -⟩ := mem_cames hbetween hw
    rcases hothers e he (by simp [hd]) with hesame | hmem
    · exact absurd ((hsame hsource hno).1 hesame) hnot
    · rwa [hsource, hno]
  · have hseen := @hparts (first :: between) (by
      intro e he
      rcases List.mem_cons.1 he with rfl | he
      · exact hgenuine e (by simp)
      · exact hbetween e he) z.index.toNat
    rw [List.filterMap_cons_some hy] at hseen
    rw [hseen]
    rintro ⟨e, he, hesame, hindex⟩
    exact h.missing e he hesame (hindex.trans hzindex)
  · intro i hi
    have hseen := @hparts (first :: (between ++ [last])) (by
      intro e he
      exact hgenuine e (List.mem_append_right _ he)) i
    rw [List.filterMap_cons_some hy, List.filterMap_append, List.filterMap_cons_some hz,
      List.filterMap_nil] at hseen
    rw [hseen]
    exact h.all i (hycut ▸ hi)

end

/-! ### What the obfuscation promises -/

variable (o clock) in
/-- What holds whatever is read. -/
structure Socket.Keeps (s : Socket) : Prop where
  /-- Each datagram that arrived was opened once and whole, or will be. -/
  once : s.received.opened.map Opened.tag ++ (s.received.rest ++ held s.inbox) =
    s.arrived.flatMap Read.brings
  handed : s.handed = s.received.opened.filterMap Opened.handed
  /-- A poll comes to an end, and the next datagram is within the read. -/
  returns : ∀ rooms ≠ [], (Socket.poll_recv o clock rooms s.received s.inbox).isSome
  within : s.received.at_ ≤ s.received.read.bytes.length ∧
    (s.received.at_ < s.received.read.bytes.length →
      s.received.at_ < s.received.end_ ∧ s.received.end_ ≤ s.received.read.bytes.length)

variable (o) in
/-- What holds of what was sent. -/
structure Sender.Keeps (attempts : List Attempt) (sent : List Sent) : Prop where
  packets : sent.map Sent.packet = attempts.map Attempt.packet
  /-- A packet with a long header goes in fragments, where Gecko is on, and no other. -/
  cuts : ∀ x ∈ sent, x.cut = none ↔ (o.gecko && is_long_header x.packet) = false
  numbers : (sent.filterMap Sent.cut).map Cut.message =
    (List.range (sent.filterMap Sent.cut).length).map UInt8.ofNat
  slices : ∀ x ∈ sent, ∀ c, x.cut = some c → ∀ index < c.count.toNat,
    let size := x.packet.length / c.count.toNat
    let end_ := if index + 1 = c.count.toNat then x.packet.length else index * size + size
    index * size ≤ end_ ∧ end_ ≤ x.packet.length

/-- What holds where what is read is what was sent. -/
structure Socket.Delivers (sent : SocketAddr → List Sent) (s : Socket) : Prop where
  /-- What is handed on was sent, where no two packets share a number in time. -/
  genuine : NumbersApart sent s.received.opened → ∀ p ∈ s.handed, ∃ x ∈ sent p.2, x.packet = p.1
  /-- A packet that went whole is handed on once for each copy, if there is room. -/
  whole : ∀ e ∈ s.received.opened, ∀ x, (sent e.source)[e.label.1]? = some x → x.cut = none →
    e.packet = if x.packet.length ≤ e.room then some x.packet else none
  /-- One that went in fragments is handed on where they come in time. -/
  in_time : ∀ before first between last later x c,
    s.received.opened = before ++ first :: (between ++ last :: later) →
    (sent first.source)[first.label.1]? = some x → x.cut = some c →
    InTime sent c before first between last → x.packet.length ≤ last.room →
    last.packet = some x.packet

theorem Sender.keeps (attempts : List Attempt) :
    Sender.Keeps o attempts (o.sends attempts).sent := by
  refine ⟨packets_sends attempts, fun x hx => ?_, (numbers_sends attempts).1,
    fun x _ c _ index hindex => chunk_within x.packet hindex⟩
  have hmade := made_sends attempts x hx
  refine ⟨fun hcut => (hmade.whole hcut).1, fun hshort => ?_⟩
  cases hcut : x.cut with
  | none => rfl
  | some c =>
    obtain ⟨hgecko, hlong, -⟩ := hmade.fragmented c hcut
    simp [hgecko, hlong] at hshort

theorem Socket.Orderly.keeps {s : Socket} (h : Socket.Orderly o clock s) :
    Socket.Keeps o clock s := by
  refine ⟨h.every, h.handed, fun rooms hrooms => ?_, h.within, fun hlt => ?_⟩
  · obtain ⟨polled, s', inbox', news, heq, -⟩ :=
      @Socket.poll_recv_spec o clock _ hrooms s.received s.inbox h.apart h.within h.inbox
    rw [heq]
    rfl
  · rcases h.apart with hnil | hstride
    · simp [hnil] at hlt
    · exact Received.at_le_end hlt hstride

theorem Socket.Orderly.delivers {s : Socket} (h : Socket.Orderly o clock s)
    (hclock : Monotone clock) (hgenuine : ∀ e ∈ s.received.opened, Genuine o sent e) :
    Socket.Delivers sent s := by
  refine ⟨fun hapart p hp => ?_, fun e he x hx hcut => ?_, ?_⟩
  · rw [h.handed] at hp
    obtain ⟨e, he, hhanded⟩ := List.mem_filterMap.1 hp
    obtain ⟨packet, hpacket, rfl⟩ := Option.map_eq_some_iff.1 hhanded
    obtain ⟨before, later, hopened⟩ := List.append_of_mem he
    have hopen := (h.faithful.opened before e later hopened).2
    rw [hpacket] at hopen
    have hsome := (Option.filter_eq_some_iff.1 hopen.symm).1
    have hsplit : before ++ e :: later = (before ++ [e]) ++ later := by simp
    rw [hopened, hsplit] at hapart
    refine handed_sent (fun f hf => hgenuine f ?_) (List.pairwise_append.1 hapart).1 hsome
    rw [hopened, hsplit]
    exact List.mem_append_left _ hf
  · obtain ⟨before, later, hopened⟩ := List.append_of_mem he
    have hnone : cut_of sent e = none := by rw [cut_of, hx, Option.bind_some, hcut]
    obtain ⟨-, x', -, hx', -, hopen⟩ := came_of_none (hgenuine e he) hnone
    obtain rfl := Option.some.inj (hx.symm.trans hx')
    rw [(h.faithful.opened before e later hopened).2, hopen, Option.filter_some]
    simp
  · intro before first between last later x c hopened hx hcut hin hroom
    have hlast : s.received.opened = (before ++ first :: between) ++ last :: later := by
      rw [hopened]
      simp
    have hentry := h.faithful.opened _ last later hlast
    have hnow : ∀ e ∈ between, e.now ≤ last.now := by
      intro e he
      obtain ⟨b, b', rfl⟩ := List.append_of_mem he
      have hsplit : s.received.opened =
          (before ++ first :: b) ++ e :: (b' ++ last :: later) := by
        rw [hopened]
        simp
      rw [(h.faithful.opened _ e _ hsplit).1, hentry.1]
      refine hclock ?_
      simp only [List.length_append, List.length_cons]
      omega
    have hmem : ∀ e ∈ before ++ first :: (between ++ [last]), Genuine o sent e := by
      intro e he
      refine hgenuine e ?_
      rw [hopened]
      have hsplit : before ++ first :: (between ++ last :: later) =
          (before ++ first :: (between ++ [last])) ++ later := by simp
      rw [hsplit]
      exact List.mem_append_left _ he
    rw [hentry.2, handed_in_time hmem hnow hx hcut hin, Option.filter_some]
    simp [hroom]

/-- **Obfuscation loses and mixes nothing**: each datagram is opened once, in its turn; what was
sent whole comes as it was sent, and so does what was sent in fragments that come in time. -/
theorem obfs_spec (o : Obfuscated) (attempts : SocketAddr → List Attempt) (clock : ℕ → ℕ)
    (hclock : Monotone clock) (as : List Action)
    (hpackets : ∀ source, ∀ a ∈ attempts source, a.packet ≠ [])
    (husual : ∀ a ∈ as, Socket.Usual a) :
    let sent := fun source => (o.sends (attempts source)).sent
    let s := Runs.run (Socket.step o clock) Socket.new as
    (∀ source, Sender.Keeps o (attempts source) (sent source)) ∧ Socket.Keeps o clock s ∧
      ((∀ t ∈ s.arrived.flatMap Read.brings, Went (sent t.2.1) t.2.2 t.1) →
        Socket.Delivers sent s) := by
  have horderly : Socket.Orderly o clock (Runs.run (Socket.step o clock) Socket.new as) :=
    (Runs.along_of_forall husual).invariant (fun s a hs ha => hs.step ha) Socket.Orderly.new
  refine ⟨fun source => Sender.keeps _, horderly.keeps, fun hwent => ?_⟩
  refine horderly.delivers hclock fun e he => ⟨?_, fun x hx => ?_⟩
  · refine hwent e.tag ?_
    rw [← horderly.every]
    exact List.mem_append_left _ (List.mem_map_of_mem he)
  · refine ⟨made_sends _ x hx, ?_⟩
    have hmem := List.mem_map_of_mem (f := Sent.packet) hx
    rw [packets_sends] at hmem
    obtain ⟨a, ha, hpacket⟩ := List.mem_map.1 hmem
    rw [← hpacket]
    exact hpackets _ a ha

/-! ### Examples -/

/-- No mask at all, and Gecko. -/
def bare : Obfuscated := ⟨⟨fun _ _ => 0⟩, true⟩

def home : SocketAddr := ⟨.v4 0, 443⟩

/-- Padding as short as can be, of zeros. -/
def zeros : Draw := ⟨none, fun _ => 0, ⟨List.replicate SALT 0, rfl⟩⟩

/-- Long-header packets, one every `TTL`: the first 256 the same, the one after them another. -/
def tick (k : ℕ) : Attempt where
  packet := [0x80 + .ofNat (k / 256), .ofNat (k / 256)]
  at_ := k * TTL
  count := none
  draws := fun _ => zeros
  outcomes := fun _ => .went

def ticks : List Attempt := (List.range 257).map tick

/-- What is made of the `k`-th. -/
def ticked (k : ℕ) : Sent := bare.fragmented (.ofNat k) (tick k)

theorem long_tick (k : ℕ) (hk : k < 257) : is_long_header (tick k).packet = true := by
  have hall : ∀ k < 257, is_long_header (tick k).packet = true := by decide +kernel
  exact hall k hk

theorem sends_ticks (n : ℕ) (hn : n ≤ 257) : bare.sends ((List.range n).map tick) =
    ⟨.ofNat n, (List.range n).map ticked⟩ := by
  induction n with
  | zero => rfl
  | succ n ih =>
    rw [List.range_succ, List.map_append, List.map_singleton, sends_concat, ih (by omega)]
    obtain ⟨-, heq⟩ | ⟨hshort, -⟩ :=
      @try_send_cases bare ⟨.ofNat n, (List.range n).map ticked⟩ (tick n)
    · rw [heq, List.map_append, List.map_singleton, UInt8.ofNat_add]
      rfl
    · rw [long_tick n (by omega)] at hshort
      cases hshort

theorem length_ticked (k : ℕ) : (ticked k).datagrams.length = 2 := by
  simp [ticked, Obfuscated.fragmented, fragments, fragment_count, tick, below, MIN_FRAGMENTS]

theorem went_tick {k i : ℕ} (hk : k < 257) (hi : i < 2) :
    Went (bare.sends ticks).sent (k, i) ((ticked k).datagrams.getD i []) := by
  have hsent : (bare.sends ticks).sent = (List.range 257).map ticked := by
    rw [ticks, sends_ticks 257 le_rfl]
  have hlength := length_ticked k
  refine ⟨ticked k, ?_, ?_, ?_⟩
  · rw [hsent, List.getElem?_map, List.getElem?_range hk]
    rfl
  · have hout : (ticked k).out = [0, 1] := rfl
    rw [hout]
    interval_cases i <;> simp
  · rw [List.getElem?_eq_getElem (hlength ▸ hi), List.getD_eq_getElem _ _ (hlength ▸ hi)]

/-- A read of one fragment. -/
def part (k i : ℕ) : Read := ⟨(ticked k).datagrams.getD i [], 1200, home, [(k, i)]⟩

/-- A late copy of the first packet's first fragment, then the second of the packet 256 after it. -/
def late : List Action := [.arrive (part 0 0), .arrive (part 256 1), .poll [1500]]

theorem usual_late : ∀ a ∈ late, Socket.Usual a := by
  intro a ha
  simp only [late, List.mem_cons, List.not_mem_nil, or_false] at ha
  rcases ha with rfl | rfl | rfl
  · exact .inr (by decide)
  · exact .inr (by decide)
  · exact List.cons_ne_nil _ _

theorem packets_ticks : ∀ a ∈ ticks, a.packet ≠ [] := by
  intro a ha
  obtain ⟨k, -, rfl⟩ := List.mem_map.1 ha
  exact List.cons_ne_nil _ _

theorem made_ticked {k : ℕ} (hk : k < 257) : Made bare (ticked k) := by
  refine ⟨fun h => (by cases h), fun c hc => ?_⟩
  obtain rfl := Option.some.inj hc
  exact ⟨rfl, long_tick k hk, rfl, _, rfl⟩

/-- The fragments are as short as can be. -/
theorem length_part (k : ℕ) {i : ℕ} (hi : i < 2) : (part k i).bytes.length = 512 := by
  have hchunk : (chunk (tick k).packet 2 i).length = 1 := by
    interval_cases i <;> simp [chunk, tick]
  have hcount : (fragment_count (tick k).count).toNat = 2 := rfl
  have hget : (ticked k).datagrams[i]? = some (bare.salamander.seal_ zeros.salt
      (List.replicate SALT 0 ++ frame zeros (.ofNat k) 2 (.ofNat i)
        (chunk (tick k).packet 2 i))) := by
    simp only [ticked, Obfuscated.fragmented, fragments, hcount, List.getElem?_map,
      List.getElem?_range hi]
    rfl
  have hpadding : padding none 1 = 498 := by decide
  rw [part, List.getD_eq_getElem?_getD, hget, Option.getD_some, Salamander.seal_,
    List.drop_left' List.length_replicate, List.length_append, length_mask, frame]
  simp only [hchunk, zeros, hpadding, List.length_append, List.length_cons, List.length_nil,
    length_u16, List.length_map, List.length_range, List.length_replicate, SALT]

theorem brings_part (k : ℕ) {i : ℕ} (hi : i < 2) :
    (part k i).brings = [((ticked k).datagrams.getD i [], home, (k, i))] := by
  have h := length_part k hi
  have hne : (part k i).bytes ≠ [] := List.ne_nil_of_length_pos (by omega)
  have hchunks : chunks 1200 (part k i).bytes = [(part k i).bytes] := by
    rw [chunks_eq_cons (by norm_num) hne, List.take_of_length_le (by omega),
      List.drop_eq_nil_of_le (by omega), chunks_nil]
  change tags home (chunks 1200 (part k i).bytes) [(k, i)] = _
  rw [hchunks]
  rfl

/-- What arrives was sent. -/
theorem went_late (clock : ℕ → ℕ) :
    ∀ t ∈ (Runs.run (Socket.step bare clock) Socket.new late).arrived.flatMap Read.brings,
      t.2.1 = home ∧ Went (bare.sends ticks).sent t.2.2 t.1 := by
  have harrived : (Runs.run (Socket.step bare clock) Socket.new late).arrived =
      [part 0 0, part 256 1] := by
    rw [late, Runs.run_cons, Runs.run_cons, Runs.run_cons, Runs.run_nil, Socket.arrived_poll]
    rfl
  intro t ht
  rw [harrived] at ht
  simp only [List.flatMap_cons, List.flatMap_nil, List.append_nil,
    brings_part 0 zero_lt_two, brings_part 256 one_lt_two, List.mem_append,
    List.mem_singleton] at ht
  rcases ht with rfl | rfl
  · exact ⟨rfl, went_tick (by norm_num) (by norm_num)⟩
  · exact ⟨rfl, went_tick (by norm_num) (by norm_num)⟩

theorem obfs_spec_late :
    let s := Runs.run (Socket.step bare id) Socket.new late
    Sender.Keeps bare ticks (bare.sends ticks).sent ∧ Socket.Keeps bare id s ∧
      Socket.Delivers (fun _ => (bare.sends ticks).sent) s := by
  obtain ⟨hsender, hsocket, hdelivers⟩ := obfs_spec bare (fun _ => ticks) id monotone_id late
    (fun _ => packets_ticks) usual_late
  exact ⟨hsender home, hsocket, hdelivers fun t ht => (went_late id t ht).2⟩

/-- The frame of a fragment. -/
def part_frame (k i : ℕ) (hi : UInt8.ofNat i < 2) : Frame :=
  (Obfuscated.cut (.ofNat k) (tick k)).frame (.ofNat i) hi

theorem take_part (clock : ℕ → ℕ) (r : Reassembly) (opened : List Opened) {k i : ℕ} (hk : k < 257)
    (hi : i < 2) (hi' : UInt8.ofNat i < 2) : ∃ s : Received,
      Received.take_read bare clock ⟨part k i, 0, r, opened⟩ [1500] = some (s,
        ((r.feed (clock opened.length) home (part_frame k i hi')).2.filter fun packet =>
          packet.length ≤ 1500).toList.map (·, home)) ∧
      s.reassembly = (r.feed (clock opened.length) home (part_frame k i hi')).1 ∧
      s.opened.length = opened.length + 1 := by
  have hlength := length_part k hi
  have hdatagrams : (ticked k).datagrams[i]? = some (part k i).bytes := by
    have hlt : i < (ticked k).datagrams.length := by rwa [length_ticked]
    rw [part, List.getD_eq_getElem _ _ hlt, List.getElem?_eq_getElem hlt]
  obtain ⟨hindex, -, hopen⟩ := open_fragment (made_ticked hk) rfl hdatagrams
    (clock opened.length) home r
  have hend : Received.end_ ⟨part k i, 0, r, opened⟩ = 512 := by
    simp only [Received.end_, hlength]
    rfl
  have hnext : (Received.next bare clock ⟨part k i, 0, r, opened⟩ 1500).2 =
      (r.feed (clock opened.length) home (part_frame k i hi')).2.filter fun packet =>
        packet.length ≤ 1500 := by
    simp only [Received.next, hend, List.drop_zero]
    rw [List.take_of_length_le hlength.le]
    change (bare.open_ (clock opened.length) (part k i).bytes home r).2.filter _ = _
    rw [hopen]
    rfl
  have hstride : 0 < (⟨part k i, 0, r, opened⟩ : Received).read.stride := by
    change 0 < 1200
    norm_num
  refine ⟨(Received.next bare clock ⟨part k i, 0, r, opened⟩ 1500).1, ?_, ?_, ?_⟩
  · rw [Received.take_read, dif_pos (by dsimp only; omega), dif_pos hstride,
      hnext]
    cases (r.feed (clock opened.length) home (part_frame k i hi')).2.filter
        fun packet => packet.length ≤ 1500 with
    | none =>
      dsimp only
      rw [Received.take_read, dif_neg]
      · rfl
      · simp only [Received.next, hend, hlength]
        omega
    | some packet =>
      dsimp only
      rw [Received.take_read]
      rfl
  · simp only [Received.next, hend, List.drop_zero]
    rw [List.take_of_length_le hlength.le]
    change (bare.open_ (clock opened.length) (part k i).bytes home r).1 = _
    rw [hopen]
    rfl
  · simp [Received.next]

/-- At most one of the packets is sent within any `TTL`. -/
theorem few_ticks (t : ℕ) :
    (ticks.filter fun a => t ≤ a.at_ ∧ a.at_ < t + TTL).length < 256 := by
  have hpos : 0 < TTL := by decide
  have hone : ∀ k ∈ (List.range 257).filter (fun k => t ≤ k * TTL ∧ k * TTL < t + TTL),
      k = (t + TTL - 1) / TTL := by
    intro k hk
    obtain ⟨hle, hlt⟩ : t ≤ k * TTL ∧ k * TTL < t + TTL := by simpa using (List.mem_filter.1 hk).2
    refine (Nat.div_eq_of_lt_le ?_ ?_).symm
    · omega
    · rw [Nat.succ_mul]
      omega
  have hfilter : ticks.filter (fun a => t ≤ a.at_ ∧ a.at_ < t + TTL) =
      ((List.range 257).filter fun k => t ≤ k * TTL ∧ k * TTL < t + TTL).map tick := by
    rw [ticks, List.filter_map]
    rfl
  have hsub := List.subperm_of_subset (List.nodup_range.filter _)
    (fun k hk => List.mem_singleton.2 (hone k hk))
  have hle := hsub.length_le
  rw [hfilter, List.length_map]
  simp only [List.length_singleton] at hle
  omega

/-- The two fragments make one packet. -/
theorem handed_late :
    (((Socket.new.step bare (fun n => 257 * TTL + n) (.arrive (part 0 0))).step bare
      (fun n => 257 * TTL + n) (.arrive (part 256 1))).step bare (fun n => 257 * TTL + n)
        (.poll [1500])).handed = [([0x80, 1], home)] := by
  set clock : ℕ → ℕ := fun n => 257 * TTL + n with hclock
  obtain ⟨s, hs, hwaits, hopened⟩ := @take_part clock [] [] 0 0 (by norm_num) zero_lt_two
    (by decide)
  obtain ⟨s', hs', -, -⟩ := @take_part clock s.reassembly s.opened 256 1 (by norm_num) one_lt_two
    (by decide)
  have hfirst : (Reassembly.feed (clock 0) home (part_frame 0 0 (by decide)) []).2 = none := by
    decide +kernel
  have hsecond : (s.reassembly.feed (clock 1) home (part_frame 256 1 (by decide))).2 =
      some [0x80, 1] := by
    rw [hwaits]
    decide +kernel
  have hroom : (some [0x80, 1] : Option Bytes).filter (fun packet => packet.length ≤ 1500) =
      some [0x80, 1] := rfl
  rw [List.length_nil, hfirst, Option.filter_none, Option.toList_none, List.map_nil] at hs
  rw [hopened, List.length_nil, Nat.zero_add, hsecond, hroom, Option.toList_some,
    List.map_singleton] at hs'
  have hempty : Received.take_read bare clock Socket.new.received [1500] =
      some (Socket.new.received, []) := Received.take_read_done (lt_irrefl 0) _ _
  have hpoll : Socket.poll_recv bare clock [1500] Socket.new.received
      [.ok (part 0 0), .ok (part 256 1)] = some (.Ready [([0x80, 1], home)], s', []) :=
    (Socket.poll_recv_next hempty).trans
      ((Socket.poll_recv_next hs).trans (Socket.poll_recv_ready hs'))
  exact @Socket.handed_poll bare clock [1500] ((Socket.new.step bare clock
    (.arrive (part 0 0))).step bare clock (.arrive (part 256 1))) _ _ _ hpoll

/-- A short-header packet, and a read of it. -/
def short : Attempt := ⟨[0x40, 1], 0, none, fun _ => zeros, fun _ => .went⟩

def short_read : Read := ⟨(bare.whole short).datagrams.getD 0 [], 1200, home, [(0, 0)]⟩

/-- A late copy meets the next use of its number: what is handed on is a packet that nobody sent,
though no two packets of the source were sent within the time a fragment waits. And a short-header
packet that does not fit the buffer is dropped. -/
theorem mixed :
    let s := Runs.run (Socket.step bare fun n => 257 * TTL + n) Socket.new late
    (∀ t, (ticks.filter fun a => t ≤ a.at_ ∧ a.at_ < t + TTL).length < 256) ∧
    (∀ a ∈ ticks, a.packet ≠ []) ∧ (∀ a ∈ late, Socket.Usual a) ∧
    (∀ t ∈ s.arrived.flatMap Read.brings,
      t.2.1 = home ∧ Went (bare.sends ticks).sent t.2.2 t.1) ∧
    s.handed = [([0x80, 1], home)] ∧ (∀ x ∈ (bare.sends ticks).sent, x.packet ≠ [0x80, 1]) ∧
    is_long_header short.packet = false ∧
    Went (bare.sends [short]).sent (0, 0) short_read.bytes ∧
    (Runs.run (Socket.step bare id) Socket.new [.arrive short_read, .poll [1]]).handed = [] := by
  refine ⟨few_ticks, packets_ticks, usual_late, went_late _, ?_, ?_, rfl,
    ⟨bare.whole short, rfl, by decide, rfl⟩, by decide +kernel⟩
  · rw [late, Runs.run_cons, Runs.run_cons, Runs.run_cons, Runs.run_nil]
    exact handed_late
  · intro x hx
    have hmem := List.mem_map_of_mem (f := Sent.packet) hx
    rw [packets_sends] at hmem
    have hall : ∀ packet ∈ ticks.map Attempt.packet, packet ≠ [0x80, 1] := by decide +kernel
    exact hall _ hmem

end Obfs

end Rurge
