import Rurge.Proto.TargetUdpRuns

/-!
# Datagrams go out whole

On a connection on which no write failed or was dropped in the middle, what is out is the datagrams
that were sent, each as one chunk or one capsule, and a part of the one that is being written.
-/

namespace Rurge

namespace TargetUdp

/-! ### One write after the other -/

/-- What is out are these frames: each one chunk, or one after the other in the stream. -/
def Carrier.Out (carrier : Carrier) (wire frames : List (List UInt8)) : Prop :=
  match carrier with
  | .Vmess => wire = frames
  | .H2 => wire.flatten = frames.flatten

/-- What is out are these frames and what of `frame` is not left. -/
def Carrier.Partly (carrier : Carrier) (writer : Writer) (frames : List (List UInt8))
    (frame left : List UInt8) : Prop :=
  match carrier with
  | .Vmess => left = frame ∧ (writer.parked = none ∧ writer.wire = frames ∨
        writer.parked = some frame.length ∧ writer.wire = frames ++ [frame]) ∨
      left = [] ∧ writer.parked = none ∧ writer.wire = frames ++ [frame]
  | .H2 => writer.parked = none ∧ writer.wire.flatten ++ left = frames.flatten ++ frame

/-- A datagram that goes. -/
def Carrier.Fits (carrier : Carrier) (buf : List UInt8) : Prop :=
  buf.length ≤ carrier.MAX_PAYLOAD ∧ (carrier = .Vmess → buf ≠ [])

variable {carrier : Carrier} {writer : Writer} {frames : List (List UInt8)} {buf left : List UInt8}

theorem out_nil (carrier : Carrier) : carrier.Out [] [] := by cases carrier <;> rfl

theorem partly_begin (hparked : writer.parked = none) (hout : carrier.Out writer.wire frames) :
    carrier.Partly writer frames (carrier.frame buf) (carrier.frame buf) := by
  cases carrier with
  | Vmess => exact .inl ⟨rfl, .inl ⟨hparked, hout⟩⟩
  | H2 => exact ⟨hparked, congrArg (· ++ datagram buf) hout⟩

theorem frame_ne_nil (hfits : carrier.Fits buf) : carrier.frame buf ≠ [] := by
  cases carrier with
  | Vmess => exact hfits.2 rfl
  | H2 =>
    intro hnil
    have hput : Varint.put 0 ≠ [] := by decide
    simp [Carrier.frame, datagram, hput] at hnil

theorem partly_done (hfits : carrier.Fits buf)
    (h : carrier.Partly writer frames (carrier.frame buf) []) :
    writer.parked = none ∧ carrier.Out writer.wire (frames ++ [carrier.frame buf]) := by
  cases carrier with
  | Vmess =>
    rcases h with ⟨hnil, -⟩ | ⟨-, hparked, hwire⟩
    · exact absurd hnil.symm (frame_ne_nil hfits)
    · exact ⟨hparked, hwire⟩
  | H2 =>
    refine ⟨h.1, ?_⟩
    rw [Carrier.Out, List.flatten_append, List.flatten_singleton, ← h.2, List.append_nil]

/-- Where nothing of the frame is out, what is out are the others. -/
theorem partly_not_begun (h : carrier.Partly writer frames (carrier.frame buf) (carrier.frame buf))
    (hfits : carrier.Fits buf) (hparked : writer.parked = none) :
    carrier.Out writer.wire frames := by
  cases carrier with
  | Vmess =>
    rcases h with ⟨-, ⟨-, hwire⟩ | ⟨hsome, -⟩⟩ | ⟨hnil, -⟩
    · exact hwire
    · rw [hparked] at hsome
      cases hsome
    · exact absurd hnil (frame_ne_nil hfits)
  | H2 => exact List.append_cancel_right h.2

/-- **A write that goes on takes a part of what is left, and puts that part on the wire.** -/
theorem partly_write (hfits : carrier.Fits buf) (hleft : left ≠ []) (room : ℕ)
    (h : carrier.Partly writer frames (carrier.frame buf) left) :
    carrier.Partly (poll_write carrier writer left room).1 frames (carrier.frame buf)
      (left.drop ((poll_write carrier writer left room).2.getD 0)) := by
  cases carrier with
  | Vmess =>
    obtain ⟨rfl, hwriter⟩ : left = buf ∧ (writer.parked = none ∧ writer.wire = frames ∨
        writer.parked = some buf.length ∧ writer.wire = frames ++ [buf]) := by
      rcases h with h | ⟨hnil, -⟩
      · exact h
      · exact absurd hnil hleft
    have hlen : min left.length Carrier.Vmess.MAX_PAYLOAD = left.length := min_eq_left hfits.1
    rcases hwriter with ⟨hparked, hwire⟩ | ⟨hparked, hwire⟩
    · simp only [poll_write, hparked, hwire, hlen, List.take_length]
      split_ifs
      · exact .inl ⟨rfl, .inr ⟨rfl, rfl⟩⟩
      · refine .inr ⟨?_, rfl, rfl⟩
        simp
    · simp only [poll_write, hparked, hwire]
      split_ifs
      · exact .inl ⟨rfl, .inr ⟨rfl, rfl⟩⟩
      · refine .inr ⟨?_, rfl, rfl⟩
        simp
  | H2 =>
    obtain ⟨hparked, hwire⟩ := h
    simp only [poll_write]
    split_ifs
    · exact ⟨hparked, hwire⟩
    · refine ⟨rfl, ?_⟩
      rw [List.flatten_append, List.flatten_singleton, ← hwire, List.append_assoc]
      congr 1
      simp only [Option.getD_some]
      rcases le_total room left.length with hle | hle
      · rw [min_eq_left hle, List.take_append_drop]
      · rw [min_eq_right hle, List.take_of_length_le hle, List.drop_length, List.append_nil]

namespace World

variable {Target : Type*} [DecidableEq Target] {w w' : World Target} {k i c : ℕ}
  {s s' : Sender Target}

/-! ### What is out of every connection -/

/-- What the sender `k` writes. -/
def frameOf (w : World Target) (k : ℕ) : List UInt8 :=
  (w.senders[k]?.map fun s => w.carrier.frame s.buf).getD []

/-- What the connection `c` has out, and who writes the rest. -/
def WriterOk (w : World Target) (c : ℕ) (conn : Conn Target) : Prop :=
  match conn.lock with
  | none => conn.writer.parked = none ∧
      w.carrier.Out conn.writer.wire (conn.sent.map w.frameOf)
  | some k => ∃ (s : Sender Target) (i : ℕ) (left : List UInt8), w.senders[k]? = some s ∧
      s.phase = .Writes i c left ∧
      w.carrier.Partly conn.writer (conn.sent.map w.frameOf) (w.carrier.frame s.buf) left

/-- What holds of the writes at all times. -/
structure Written (w : World Target) : Prop where
  fits : ∀ (k : ℕ) (s : Sender Target), w.senders[k]? = some s → (∀ r, s.phase ≠ .Done r) →
    w.carrier.Fits s.buf
  /-- whoever writes has the lock -/
  writes : ∀ (k i c : ℕ) (left : List UInt8) (s : Sender Target) (conn : Conn Target),
    w.senders[k]? = some s → s.phase = .Writes i c left → w.conns[c]? = some conn →
      conn.lock = some k
  /-- so has whoever is to forget a slot after a write that failed -/
  forgets : ∀ (k i c : ℕ) (s : Sender Target) (conn : Conn Target),
    w.senders[k]? = some s → s.phase = .Forgets i c → w.conns[c]? = some conn →
      conn.lock = some k ∧ conn.cut = true
  writer : ∀ (c : ℕ) (conn : Conn Target), w.conns[c]? = some conn → conn.cut = false →
    w.WriterOk c conn
  sent : ∀ (c : ℕ) (conn : Conn Target), w.conns[c]? = some conn → ∀ k ∈ conn.sent,
    ∃ s : Sender Target, w.senders[k]? = some s ∧ s.target = conn.target

omit [DecidableEq Target] in
theorem written_new (carrier : Carrier) : (new carrier : World Target).Written where
  fits := fun k s h => by cases h
  writes := fun k i c left s conn h => by cases h
  forgets := fun k i c s conn h => by cases h
  writer := fun c conn h => by cases h
  sent := fun c conn h => by cases h

/-- Senders keep their target and their datagram. -/
def Grows (w w' : World Target) : Prop :=
  w'.carrier = w.carrier ∧ ∀ (j : ℕ) (s : Sender Target), w.senders[j]? = some s →
    ∃ s' : Sender Target, w'.senders[j]? = some s' ∧ s'.target = s.target ∧ s'.buf = s.buf

omit [DecidableEq Target] in
theorem Grows.map_frameOf (h : Grows w w') {sent : List ℕ}
    (hsent : ∀ k ∈ sent, ∃ s : Sender Target, w.senders[k]? = some s) :
    sent.map w'.frameOf = sent.map w.frameOf := by
  refine List.map_congr_left fun k hk => ?_
  obtain ⟨s, hs⟩ := hsent k hk
  obtain ⟨s', hs', -, hbuf⟩ := h.2 k s hs
  simp only [frameOf, hs, hs', Option.map_some, h.1, hbuf]

/-- A connection with what was written on it. -/
structure SameWrites (conn conn' : Conn Target) : Prop where
  target : conn'.target = conn.target
  writer : conn'.writer = conn.writer
  lock : conn'.lock = conn.lock
  sent : conn'.sent = conn.sent
  cut : conn'.cut = conn.cut

omit [DecidableEq Target] in
theorem SameWrites.refl (conn : Conn Target) : SameWrites conn conn := ⟨rfl, rfl, rfl, rfl, rfl⟩

/-- What is said of a connection that a step of `k` touches. -/
structure Touched (w w' : World Target) (k c : ℕ) (conn' : Conn Target) : Prop where
  /-- nobody else writes on it -/
  mine : ∀ (j i : ℕ) (s : Sender Target), j ≠ k → w.senders[j]? = some s →
    (∀ left, s.phase ≠ .Writes i c left) ∧ s.phase ≠ .Forgets i c
  writer : conn'.cut = false → w'.WriterOk c conn'
  sent : ∀ j ∈ conn'.sent, ∃ s : Sender Target, w'.senders[j]? = some s ∧ s.target = conn'.target

omit [DecidableEq Target] in
/-- A step of the sender `k`: every connection is as it was, and not one `k` writes on, or is one
that it touches. -/
theorem Written.next (h : w.Written) (hgrows : Grows w w')
    (hothers : ∀ j, j ≠ k → w'.senders[j]? = w.senders[j]?)
    (hfits : ∀ s', w'.senders[k]? = some s' → (∀ r, s'.phase ≠ .Done r) → w'.carrier.Fits s'.buf)
    (hwrites : ∀ (i c : ℕ) (left : List UInt8) (s' : Sender Target) (conn' : Conn Target),
      w'.senders[k]? = some s' → s'.phase = .Writes i c left → w'.conns[c]? = some conn' →
        conn'.lock = some k)
    (hforgets : ∀ (i c : ℕ) (s' : Sender Target) (conn' : Conn Target),
      w'.senders[k]? = some s' → s'.phase = .Forgets i c → w'.conns[c]? = some conn' →
        conn'.lock = some k ∧ conn'.cut = true)
    (hconns : ∀ (c : ℕ) (conn' : Conn Target), w'.conns[c]? = some conn' →
      (∃ conn : Conn Target, w.conns[c]? = some conn ∧ SameWrites conn conn' ∧
        (conn.lock = some k → conn.cut = true)) ∨ Touched w w' k c conn') : w'.Written where
  fits := fun j s hs hdone => by
    by_cases hj : j = k
    · subst hj
      exact hfits s hs hdone
    · rw [hothers j hj] at hs
      rw [hgrows.1]
      exact h.fits j s hs hdone
  writes := fun j i c left s conn' hs hphase hconn' => by
    by_cases hj : j = k
    · subst hj
      exact hwrites i c left s conn' hs hphase hconn'
    · rw [hothers j hj] at hs
      rcases hconns c conn' hconn' with ⟨conn, hconn, hsame, -⟩ | htouched
      · exact hsame.lock.trans (h.writes j i c left s conn hs hphase hconn)
      · exact absurd hphase ((htouched.mine j i s hj hs).1 left)
  forgets := fun j i c s conn' hs hphase hconn' => by
    by_cases hj : j = k
    · subst hj
      exact hforgets i c s conn' hs hphase hconn'
    · rw [hothers j hj] at hs
      rcases hconns c conn' hconn' with ⟨conn, hconn, hsame, -⟩ | htouched
      · obtain ⟨hlock, hcut⟩ := h.forgets j i c s conn hs hphase hconn
        exact ⟨hsame.lock.trans hlock, hsame.cut.trans hcut⟩
      · exact absurd hphase (htouched.mine j i s hj hs).2
  writer := fun c conn' hconn' hcut => by
    rcases hconns c conn' hconn' with ⟨conn, hconn, hsame, hmine⟩ | htouched
    · rw [hsame.cut] at hcut
      have hok := h.writer c conn hconn hcut
      have hframes := hgrows.map_frameOf fun j hj =>
        (h.sent c conn hconn j hj).imp fun s hs => hs.1
      unfold WriterOk at hok ⊢
      rw [hsame.lock, hsame.writer, hsame.sent, hframes, hgrows.1]
      cases hlock : conn.lock with
      | none => simpa only [hlock] using hok
      | some j =>
        rw [hlock] at hok hmine
        obtain ⟨s, i, left, hs, hrest⟩ := hok
        refine ⟨s, i, left, ?_, hrest⟩
        by_cases hj : j = k
        · subst hj
          rw [hmine rfl] at hcut
          cases hcut
        · rw [hothers j hj]
          exact hs
    · exact htouched.writer hcut
  sent := fun c conn' hconn' j hj => by
    rcases hconns c conn' hconn' with ⟨conn, hconn, hsame, -⟩ | htouched
    · rw [hsame.sent] at hj
      obtain ⟨s, hs, htarget⟩ := h.sent c conn hconn j hj
      obtain ⟨s', hs', ht, -⟩ := hgrows.2 j s hs
      exact ⟨s', hs', (ht.trans htarget).trans hsame.target.symm⟩
    · exact htouched.sent j hj

omit [DecidableEq Target] in
/-- A connection whose lock `k` has, and nothing was cut, is one it writes on. -/
theorem Written.not_mine (h : w.Written) (hs : w.senders[k]? = some s)
    {conn : Conn Target} (hphase : ∀ i left, s.phase ≠ .Writes i c left)
    (hconn : w.conns[c]? = some conn) (hlock : conn.lock = some k) : conn.cut = true := by
  by_contra hcut
  have hok := h.writer c conn hconn (Bool.eq_false_iff.2 hcut)
  rw [WriterOk, hlock] at hok
  obtain ⟨t, i, left, ht, hwrites, -⟩ := hok
  rw [hs] at ht
  cases ht
  exact hphase i left hwrites

omit [DecidableEq Target] in
theorem grows_set (hs : w.senders[k]? = some s) (htarget : s'.target = s.target)
    (hbuf : s'.buf = s.buf) (hcarrier : w'.carrier = w.carrier)
    (hsenders : w'.senders = w.senders.set k s') : Grows w w' := by
  refine ⟨hcarrier, fun j t ht => ?_⟩
  rw [hsenders]
  by_cases hj : j = k
  · subst hj
    rw [hs] at ht
    cases ht
    exact ⟨s', getElem?_set_self hs s', htarget, hbuf⟩
  · exact ⟨t, (List.getElem?_set_ne (Ne.symm hj)).trans ht, rfl, rfl⟩

/-- Whether a sender has the lock of a connection. -/
def Locks (phase : Phase) : Prop :=
  (∃ i c left, phase = .Writes i c left) ∨ ∃ i c, phase = .Forgets i c

/-- It is not through, and has no connection's lock. -/
def idle : Phase → Bool
  | .Writes .. | .Forgets .. | .Done _ => false
  | _ => true

theorem not_locks {phase : Phase} (h : idle phase = true) : ¬ Locks phase := by
  rintro (⟨i, c, left, rfl⟩ | ⟨i, c, rfl⟩) <;> cases h

theorem not_locks_done {r : Except Error Unit} : ¬ Locks (.Done r) := by
  rintro (⟨i, c, left, heq⟩ | ⟨i, c, heq⟩) <;> cases heq

theorem not_done {phase : Phase} (h : idle phase = true) (r : Except Error Unit) :
    phase ≠ .Done r := by
  rintro rfl
  cases h

omit [DecidableEq Target] in
/-- A step of a sender that neither has a lock nor takes one. -/
theorem Written.idle (h : w.Written) (hs : w.senders[k]? = some s)
    (hsenders : w'.senders = w.senders.set k s') (hcarrier : w'.carrier = w.carrier)
    (hconns : w'.conns = w.conns) (htarget : s'.target = s.target) (hbuf : s'.buf = s.buf)
    {phase : Phase} (hphase : s.phase = phase) (hidle : idle phase = true)
    (hphase' : ¬ Locks s'.phase) : w'.Written := by
  subst hphase
  have hself : w'.senders[k]? = some s' := hsenders ▸ getElem?_set_self hs s'
  refine h.next (k := k) (grows_set hs htarget hbuf hcarrier hsenders) (fun j hj => ?_)
    (fun t ht _ => ?_) (fun i c left t conn' ht hwrites => ?_)
    (fun i c t conn' ht hforgets => ?_) fun c conn hconn => ?_
  · rw [hsenders]
    exact List.getElem?_set_ne (Ne.symm hj)
  · rw [hself] at ht
    cases ht
    rw [hcarrier, hbuf]
    exact h.fits k s hs (not_done hidle)
  · rw [hself] at ht
    cases ht
    exact absurd (.inl ⟨i, c, left, hwrites⟩) hphase'
  · rw [hself] at ht
    cases ht
    exact absurd (.inr ⟨i, c, hforgets⟩) hphase'
  · rw [hconns] at hconn
    exact .inl ⟨conn, hconn, .refl conn, h.not_mine hs
      (fun i left hwrites => not_locks hidle (.inl ⟨i, c, left, hwrites⟩)) hconn⟩

omit [DecidableEq Target] in
/-- A step of a sender at the connection `c`, whose lock nobody else has. -/
theorem Written.touch (h : w.Written) (hs : w.senders[k]? = some s)
    (hphase : ∀ i c' left, c' ≠ c → s.phase ≠ .Writes i c' left) (hdone : ∀ r, s.phase ≠ .Done r)
    (hphase' : ∀ i c' left, s'.phase = .Writes i c' left → c' = c)
    (hforgets' : ∀ i c', s'.phase = .Forgets i c' → c' = c) {f : Conn Target → Conn Target}
    (htarget : s'.target = s.target) (hbuf : s'.buf = s.buf)
    (hmine : ∀ conn : Conn Target, w.conns[c]? = some conn → conn.lock = none ∨ conn.lock = some k)
    (hf : ∀ conn : Conn Target, w.conns[c]? = some conn → (f conn).target = conn.target ∧
      (∀ j ∈ (f conn).sent, j ∈ conn.sent ∨ j = k ∧ s.target = conn.target) ∧
      (∀ i left, s'.phase = .Writes i c left → (f conn).lock = some k) ∧
      (∀ i, s'.phase = .Forgets i c → (f conn).lock = some k ∧ (f conn).cut = true) ∧
      ((f conn).cut = false → ((w.touch c f).put k s').WriterOk c (f conn))) :
    ((w.touch c f).put k s').Written := by
  set v : World Target := (w.touch c f).put k s' with hv
  have hself : v.senders[k]? = some s' := getElem?_set_self hs s'
  have hgrows : Grows w v := grows_set hs htarget hbuf rfl rfl
  have hconns : ∀ {c' : ℕ} {conn' : Conn Target}, v.conns[c']? = some conn' →
      (c' = c ∧ ∃ conn, w.conns[c]? = some conn ∧ conn' = f conn) ∨
        c' ≠ c ∧ w.conns[c']? = some conn' := by
    intro c' conn' hconn'
    simp only [hv, put, World.touch, List.getElem?_modify, Option.map_eq_map,
      Option.map_eq_some_iff] at hconn'
    obtain ⟨conn, hconn, rfl⟩ := hconn'
    split_ifs with hc
    · subst hc
      exact .inl ⟨rfl, conn, hconn, rfl⟩
    · exact .inr ⟨Ne.symm hc, hconn⟩
  refine h.next (k := k) hgrows (fun j hj => List.getElem?_set_ne (Ne.symm hj)) (fun t ht _ => ?_)
    (fun i c' left t conn' ht hwrites hconn' => ?_) (fun i c' t conn' ht hforgets hconn' => ?_)
    fun c' conn' hconn' => ?_
  · rw [hself] at ht
    cases ht
    rw [hbuf]
    exact h.fits k s hs hdone
  · rw [hself] at ht
    cases ht
    obtain rfl := hphase' i c' left hwrites
    rcases hconns hconn' with ⟨-, conn, hconn, rfl⟩ | ⟨hne, -⟩
    · exact (hf conn hconn).2.2.1 i left hwrites
    · exact absurd rfl hne
  · rw [hself] at ht
    cases ht
    obtain rfl := hforgets' i c' hforgets
    rcases hconns hconn' with ⟨-, conn, hconn, rfl⟩ | ⟨hne, -⟩
    · exact (hf conn hconn).2.2.2.1 i hforgets
    · exact absurd rfl hne
  · rcases hconns hconn' with ⟨rfl, conn, hconn, rfl⟩ | ⟨hne, hconn⟩
    · refine .inr ⟨fun j i t hj ht => ⟨fun left hwrites => ?_, fun hforgets => ?_⟩,
        (hf conn hconn).2.2.2.2, fun j hj => ?_⟩
      · have hlock := h.writes j i c' left t conn ht hwrites hconn
        rcases hmine conn hconn with hnone | hk
        · rw [hlock] at hnone
          cases hnone
        · rw [hlock] at hk
          cases hk
          exact absurd rfl hj
      · have hlock := (h.forgets j i c' t conn ht hforgets hconn).1
        rcases hmine conn hconn with hnone | hk
        · rw [hlock] at hnone
          cases hnone
        · rw [hlock] at hk
          cases hk
          exact absurd rfl hj
      · rcases (hf conn hconn).2.1 j hj with hold | ⟨rfl, ht⟩
        · obtain ⟨t, ht, htt⟩ := h.sent c' conn hconn j hold
          obtain ⟨t', ht', htt', -⟩ := hgrows.2 j t ht
          exact ⟨t', ht', (htt'.trans htt).trans (hf conn hconn).1.symm⟩
        · exact ⟨s', hself, (htarget.trans ht).trans (hf conn hconn).1.symm⟩
    · exact .inl ⟨conn', hconn, .refl conn', h.not_mine hs
        (fun i left => hphase i c' left hne) hconn⟩

omit [DecidableEq Target] in
/-- What was sent on a connection is what it was before a step of a sender. -/
theorem Written.map_put (h : w.Written) (hs : w.senders[k]? = some s)
    (htarget : s'.target = s.target) (hbuf : s'.buf = s.buf) {f : Conn Target → Conn Target}
    {conn : Conn Target} (hconn : w.conns[c]? = some conn) :
    conn.sent.map ((w.touch c f).put k s').frameOf = conn.sent.map w.frameOf := by
  have hgrows : Grows w ((w.touch c f).put k s') := grows_set hs htarget hbuf rfl rfl
  exact hgrows.map_frameOf fun j hj => (h.sent c conn hconn j hj).imp fun _ ht => ht.1

omit [DecidableEq Target] in
/-- Whoever writes puts what there is room for on the wire. -/
theorem Written.goes_on (h : w.Written) (hs : w.senders[k]? = some s) {left : List UInt8}
    {conn : Conn Target} (hphase : s.phase = .Writes i c left) (hconn : w.conns[c]? = some conn)
    (hleft : left ≠ []) (room : ℕ) (htarget : s'.target = s.target) (hbuf : s'.buf = s.buf)
    (hphase' : s'.phase = .Writes i c
      (left.drop ((poll_write w.carrier conn.writer left room).2.getD 0))) :
    ((w.touch c fun other =>
      { other with writer := (poll_write w.carrier conn.writer left room).1 }).put k
        s').Written := by
  have hlock := h.writes k i c left s conn hs hphase hconn
  have hdone : ∀ r, s.phase ≠ .Done r := fun r heq => by
    rw [hphase] at heq
    cases heq
  refine h.touch hs (fun i' c' left' hne heq => ?_) hdone (fun i' c' left' heq => ?_)
    (fun i' c' heq => ?_) htarget hbuf (fun other hother => ?_) fun other hother => ?_
  · rw [hphase] at heq
    cases heq
    exact hne rfl
  · rw [hphase'] at heq
    cases heq
    rfl
  · rw [hphase'] at heq
    cases heq
  · rw [hconn] at hother
    cases hother
    exact .inr hlock
  · rw [hconn] at hother
    cases hother
    refine ⟨rfl, fun j hj => .inl hj, fun _ _ _ => hlock, fun i' heq => ?_, fun hcut => ?_⟩
    · rw [hphase'] at heq
      cases heq
    · have hok := h.writer c conn hconn hcut
      rw [WriterOk, hlock] at hok
      obtain ⟨t, i', left', ht, hwrites, hpartly⟩ := hok
      rw [hs] at ht
      cases ht
      rw [hphase] at hwrites
      cases hwrites
      rw [WriterOk]
      simp only [hlock]
      refine ⟨s', i, _, getElem?_set_self hs s', hphase', ?_⟩
      rw [h.map_put hs htarget hbuf hconn, hbuf]
      exact partly_write (h.fits k s hs hdone) hleft room hpartly

omit [DecidableEq Target] in
/-- Whoever gets the lock begins with the whole of its datagram. -/
theorem Written.begins (h : w.Written) (hs : w.senders[k]? = some s) {conn : Conn Target}
    (hphase : s.phase = .Locks i c) (hconn : w.conns[c]? = some conn) (hlock : conn.lock = none)
    (htarget : s'.target = s.target) (hbuf : s'.buf = s.buf)
    (hphase' : s'.phase = .Writes i c (w.carrier.frame s.buf)) :
    ((w.touch c fun conn => { conn with lock := some k }).put k s').Written := by
  refine h.touch hs (fun i' c' left' _ heq => ?_) (fun r heq => ?_) (fun i' c' left' heq => ?_)
    (fun i' c' heq => ?_) htarget hbuf (fun other hother => ?_) fun other hother => ?_
  · rw [hphase] at heq
    cases heq
  · rw [hphase] at heq
    cases heq
  · rw [hphase'] at heq
    cases heq
    rfl
  · rw [hphase'] at heq
    cases heq
  · rw [hconn] at hother
    cases hother
    exact .inl hlock
  · rw [hconn] at hother
    cases hother
    refine ⟨rfl, fun j hj => .inl hj, fun _ _ _ => rfl, fun i' heq => ?_, fun hcut => ?_⟩
    · rw [hphase'] at heq
      cases heq
    · have hok := h.writer c conn hconn hcut
      rw [WriterOk, hlock] at hok
      refine ⟨s', i, _, getElem?_set_self hs s', hphase', ?_⟩
      rw [h.map_put hs htarget hbuf hconn, hbuf]
      exact partly_begin hok.1 hok.2

omit [DecidableEq Target] in
/-- Whoever has the lock lets it go: its datagram is out, or nothing of it, or it is cut. -/
theorem Written.lets_go (h : w.Written) (hs : w.senders[k]? = some s) {left : List UInt8}
    (hphase : s.phase = .Writes i c left) {f : Conn Target → Conn Target}
    (htarget : s'.target = s.target) (hbuf : s'.buf = s.buf) (hphase' : ¬ Locks s'.phase)
    (hmine : ∀ conn : Conn Target, w.conns[c]? = some conn → s.target = conn.target)
    (hf : ∀ conn, f conn = { conn with lock := none, cut := true } ∨
      left = [] ∧ f conn = { conn with lock := none, sent := conn.sent ++ [k] } ∨
      left = w.carrier.frame s.buf ∧ conn.writer.parked = none ∧
        f conn = { conn with lock := none }) :
    ((w.touch c f).put k s').Written := by
  have hdone : ∀ r, s.phase ≠ .Done r := fun r heq => by
    rw [hphase] at heq
    cases heq
  have hfits := h.fits k s hs hdone
  refine h.touch hs (fun i' c' left' hne heq => ?_) hdone
    (fun i' c' left' heq => absurd (.inl ⟨i', c', left', heq⟩) hphase')
    (fun i' c' heq => absurd (.inr ⟨i', c', heq⟩) hphase') htarget hbuf
    (fun conn hconn => .inr (h.writes k i c left s conn hs hphase hconn)) fun conn hconn => ?_
  · rw [hphase] at heq
    cases heq
    exact hne rfl
  · have hlock := h.writes k i c left s conn hs hphase hconn
    have hpartly : conn.cut = false → w.carrier.Partly conn.writer (conn.sent.map w.frameOf)
        (w.carrier.frame s.buf) left := fun hcut => by
      have hok := h.writer c conn hconn hcut
      rw [WriterOk, hlock] at hok
      obtain ⟨t, i', left', ht, hwrites, hpartly⟩ := hok
      rw [hs] at ht
      cases ht
      rw [hphase] at hwrites
      cases hwrites
      exact hpartly
    have hframes := h.map_put (f := f) hs htarget hbuf hconn
    have hframe : ((w.touch c f).put k s').frameOf k = w.carrier.frame s.buf := by
      have hself : ((w.touch c f).put k s').senders[k]? = some s' := getElem?_set_self hs s'
      rw [frameOf, hself, Option.map_some, Option.getD_some, hbuf]
      rfl
    refine ⟨?_, ?_, fun i' left' heq => absurd (.inl ⟨i', c, left', heq⟩) hphase',
      fun i' heq => absurd (.inr ⟨i', c, heq⟩) hphase', fun hcut => ?_⟩
    · rcases hf conn with heq | ⟨-, heq⟩ | ⟨-, -, heq⟩ <;> rw [heq]
    · intro j hj
      rcases hf conn with heq | ⟨-, heq⟩ | ⟨-, -, heq⟩ <;> rw [heq] at hj
      · exact .inl hj
      · rcases List.mem_append.1 hj with hold | hnew
        · exact .inl hold
        · exact .inr ⟨List.mem_singleton.1 hnew, hmine conn hconn⟩
      · exact .inl hj
    · rcases hf conn with heq | ⟨rfl, heq⟩ | ⟨hwhole, hparked, heq⟩ <;> rw [heq] at hcut ⊢
      · cases hcut
      · rw [WriterOk]
        simp only [List.map_append, hframes, List.map_singleton, hframe]
        exact partly_done hfits (hpartly hcut)
      · rw [WriterOk]
        simp only [hframes]
        exact ⟨hparked, partly_not_begun (hwhole ▸ hpartly hcut) hfits hparked⟩

omit [DecidableEq Target] in
/-- A write fails: nothing more is said of its connection. -/
theorem Written.errs (h : w.Written) (hs : w.senders[k]? = some s) {left : List UInt8}
    (hphase : s.phase = .Writes i c left) (htarget : s'.target = s.target)
    (hbuf : s'.buf = s.buf) (hphase' : s'.phase = .Forgets i c) :
    ((w.touch c fun conn => { conn with cut := true }).put k s').Written := by
  refine h.touch hs (fun i' c' left' hne heq => ?_) (fun r heq => ?_) (fun i' c' left' heq => ?_)
    (fun i' c' heq => ?_) htarget hbuf
    (fun conn hconn => .inr (h.writes k i c left s conn hs hphase hconn)) fun conn hconn => ?_
  · rw [hphase] at heq
    cases heq
    exact hne rfl
  · rw [hphase] at heq
    cases heq
  · rw [hphase'] at heq
    cases heq
  · rw [hphase'] at heq
    cases heq
    rfl
  · have hlock := h.writes k i c left s conn hs hphase hconn
    refine ⟨rfl, fun j hj => .inl hj, fun i' left' heq => ?_, fun _ _ => ⟨hlock, rfl⟩, nofun⟩
    rw [hphase'] at heq
    cases heq

omit [DecidableEq Target] in
/-- After a write that failed the lock is let go. -/
theorem Written.gives_up (h : w.Written) (hs : w.senders[k]? = some s)
    (hphase : s.phase = .Forgets i c) (htarget : s'.target = s.target) (hbuf : s'.buf = s.buf)
    (hphase' : ¬ Locks s'.phase) :
    ((w.touch c fun conn => { conn with lock := none }).put k s').Written := by
  refine h.touch hs (fun i' c' left' _ heq => ?_) (fun r heq => ?_)
    (fun i' c' left' heq => absurd (.inl ⟨i', c', left', heq⟩) hphase')
    (fun i' c' heq => absurd (.inr ⟨i', c', heq⟩) hphase') htarget hbuf
    (fun conn hconn => .inr (h.forgets k i c s conn hs hphase hconn).1) fun conn hconn => ?_
  · rw [hphase] at heq
    cases heq
  · rw [hphase] at heq
    cases heq
  · have hcut := (h.forgets k i c s conn hs hphase hconn).2
    refine ⟨rfl, fun j hj => .inl hj, fun i' left' heq => absurd (.inl ⟨i', c, left', heq⟩) hphase',
      fun i' heq => absurd (.inr ⟨i', c, heq⟩) hphase', fun hnot => ?_⟩
    rw [hcut] at hnot
    cases hnot

omit [DecidableEq Target] in
/-- No sender makes a step, and nothing is written. -/
theorem Written.of_same (h : w.Written) (hcarrier : w'.carrier = w.carrier)
    (hsenders : w'.senders = w.senders)
    (hconns : ∀ (c : ℕ) (conn' : Conn Target), w'.conns[c]? = some conn' →
      ∃ conn : Conn Target, w.conns[c]? = some conn ∧ SameWrites conn conn') : w'.Written := by
  have hnone : ∀ s, w'.senders[w.senders.length]? ≠ some s := fun s hs => by
    rw [hsenders] at hs
    exact (List.getElem?_eq_some_iff.1 hs).1.false
  have hmine : ∀ (c : ℕ) (conn : Conn Target), w.conns[c]? = some conn →
      conn.lock = some w.senders.length → conn.cut = true := fun c conn hconn hlock => by
    by_contra hcut
    have hok := h.writer c conn hconn (Bool.eq_false_iff.2 hcut)
    rw [WriterOk, hlock] at hok
    obtain ⟨t, -, -, ht, -⟩ := hok
    exact (List.getElem?_eq_some_iff.1 ht).1.false
  refine h.next (k := w.senders.length) ⟨hcarrier, fun j s hs => ⟨s, hsenders ▸ hs, rfl, rfl⟩⟩
    (fun j _ => by rw [hsenders]) (fun s hs => absurd hs (hnone s))
    (fun i c left s conn hs => absurd hs (hnone s)) (fun i c s conn hs => absurd hs (hnone s))
    fun c conn' hconn' => ?_
  obtain ⟨conn, hconn, hsame⟩ := hconns c conn' hconn'
  exact .inl ⟨conn, hconn, hsame, hmine c conn hconn⟩

omit [DecidableEq Target] in
theorem same_touch {f : Conn Target → Conn Target} (hf : ∀ conn, SameWrites conn (f conn)) {c' : ℕ}
    {conn' : Conn Target} (h : (w.touch c f).conns[c']? = some conn') :
    ∃ conn : Conn Target, w.conns[c']? = some conn ∧ SameWrites conn conn' := by
  simp only [World.touch, List.getElem?_modify, Option.map_eq_map, Option.map_eq_some_iff] at h
  obtain ⟨conn, hconn, rfl⟩ := h
  refine ⟨conn, hconn, ?_⟩
  split_ifs
  · exact hf conn
  · exact .refl conn

omit [DecidableEq Target] in
/-- A datagram comes. -/
theorem Written.calls (h : w.Written) (target : Target) (buf : List UInt8) :
    Written { w with senders := w.senders ++ [w.call target buf] } := by
  have hself : ∀ s, (w.senders ++ [w.call target buf])[w.senders.length]? = some s →
      s = w.call target buf := fun s hs => by
    rw [List.getElem?_concat_length] at hs
    exact (Option.some_inj.1 hs).symm
  have hidle : ¬ Locks (w.call target buf).phase := by
    simp only [call, Locks]
    split_ifs <;> simp
  refine h.next (k := w.senders.length) ⟨rfl, fun j s hs => ⟨s, ?_, rfl, rfl⟩⟩ (fun j hj => ?_)
    (fun s hs hdone => ?_) (fun i c left s conn hs heq => ?_) (fun i c s conn hs heq => ?_)
    fun c conn hconn => .inl ⟨conn, hconn, .refl conn, fun hlock => ?_⟩
  · rw [List.getElem?_append_left (List.getElem?_eq_some_iff.1 hs).1, hs]
  · rw [List.getElem?_append]
    split_ifs with hlt
    · rfl
    · rw [List.getElem?_eq_none (by simpa using by omega), List.getElem?_eq_none (by omega)]
  · rw [hself s hs] at hdone ⊢
    simp only [call] at hdone ⊢
    split_ifs at hdone with hlong hempty
    · exact absurd rfl (hdone _)
    · exact absurd rfl (hdone _)
    · exact ⟨Nat.le_of_not_lt hlong, fun hc hb => hempty ⟨hc, hb⟩⟩
  · rw [hself s hs] at heq
    exact absurd (.inl ⟨i, c, left, heq⟩) hidle
  · rw [hself s hs] at heq
    exact absurd (.inr ⟨i, c, heq⟩) hidle
  · by_contra hcut
    have hok := h.writer c conn hconn (Bool.eq_false_iff.2 hcut)
    rw [WriterOk, hlock] at hok
    obtain ⟨t, -, -, ht, -⟩ := hok
    exact (List.getElem?_eq_some_iff.1 ht).1.false

/-- A dial is through: nothing is written on its connection yet, and nobody writes on it. -/
theorem Written.connects (h : w.Written) (hplaced : w.Placed) (hs : w.senders[k]? = some s)
    (hphase : s.phase = .Dials i) : (w.dialled k s i true).Written := by
  set v : World Target := w.dialled k s i true with hv
  have hself : v.senders[k]? = some { s with phase := .Fills i w.conns.length } :=
    getElem?_set_self hs _
  have hdone : ∀ r, s.phase ≠ .Done r := fun r heq => by
    rw [hphase] at heq
    cases heq
  have hthere : ∀ {j : ℕ} {t : Sender Target} {i' c' : ℕ}, w.senders[j]? = some t →
      t.phase.slot = some i' → t.phase.conn = some c' → c' ≠ w.conns.length := by
    rintro j t i' c' ht hslot hconn rfl
    obtain ⟨slot, hslot', hcell⟩ := (hplaced.sender j t ht).has i' _ hslot hconn
    obtain ⟨conn, hconn', -⟩ := hplaced.set i' _ slot hslot' hcell
    exact (List.getElem?_eq_some_iff.1 hconn').1.false
  have hgrows : Grows w v := by
    refine grows_set hs ?_ ?_ rfl rfl <;> rfl
  refine h.next (k := k) hgrows (fun j hj => List.getElem?_set_ne (Ne.symm hj))
    (fun t ht _ => ?_) (fun i' c' left t conn ht heq => ?_) (fun i' c' t conn ht heq => ?_)
    fun c' conn' hconn' => ?_
  · rw [hself] at ht
    cases ht
    exact h.fits k s hs hdone
  · rw [hself] at ht
    cases ht
    cases heq
  · rw [hself] at ht
    cases ht
    cases heq
  · rcases Fifo.getElem?_concat_cases hconn' with hconn' | ⟨hc', rfl⟩
    · refine .inl ⟨conn', hconn', .refl conn', h.not_mine hs (fun i' left heq => ?_) hconn'⟩
      rw [hphase] at heq
      cases heq
    · refine .inr ⟨fun j i' t _ ht => ⟨fun left hp => ?_, fun hp => ?_⟩, fun _ => ⟨rfl, ?_⟩,
        fun j hj => absurd hj List.not_mem_nil⟩
      · exact hthere ht (by rw [hp]; rfl) (by rw [hp]; rfl) hc'
      · exact hthere ht (by rw [hp]; rfl) (by rw [hp]; rfl) hc'
      · exact out_nil w.carrier

omit [DecidableEq Target] in
/-- The connection a sender has is one to its target. -/
theorem target_of (hslot : w.SlotFor i s.target) (hcell : w.CellIs i (.Set c))
    (hset : ∀ (i c : ℕ) (slot : Slot Target), w.slots[i]? = some slot → slot.cell = .Set c →
      w.ConnTo c slot.target) {conn : Conn Target} (hconn : w.conns[c]? = some conn) :
    s.target = conn.target := by
  obtain ⟨slot, hslot, htarget⟩ := hslot
  obtain ⟨slot', hslot', hc⟩ := hcell
  rw [hslot] at hslot'
  cases hslot'
  obtain ⟨conn', hconn', ht⟩ := hset i c slot hslot hc
  rw [hconn] at hconn'
  cases hconn'
  exact htarget.symm.trans ht.symm

theorem Placed.target_eq (h : w.Placed) (hs : w.senders[k]? = some s) (hi : s.phase.slot = some i)
    (hc : s.phase.conn = some c) {conn : Conn Target} (hconn : w.conns[c]? = some conn) :
    s.target = conn.target :=
  target_of ((h.sender k s hs).slot i hi) ((h.sender k s hs).has i c hi hc) h.set hconn

theorem leave_same (conn : Conn Target) : (w.leave c conn).carrier = w.carrier ∧
    (w.leave c conn).senders = w.senders ∧
      (w.leave c conn).conns = (w.touch c fun conn => { conn with left := true }).conns := by
  simp only [leave]
  split
  case h_1 => split_ifs <;> exact ⟨rfl, rfl, rfl⟩
  case h_2 => exact ⟨rfl, rfl, rfl⟩

theorem carrier_forget (t : Target) (i : ℕ) : (w.forget t i).carrier = w.carrier := by
  unfold forget
  split_ifs <;> rfl

/-- **Every step keeps what is out of the connections.** -/
theorem Written.step (h : w.Written) (hplaced : w.Placed) (hmoves : w.Moves w') : w'.Written := by
  cases hmoves with
  | stays => exact h
  | calls target buf => exact h.calls target buf
  | fresh hs hphase _ => exact h.idle hs rfl rfl rfl rfl rfl hphase rfl (not_locks rfl)
  | joins hs hphase _ _ => exact h.idle hs rfl rfl rfl rfl rfl hphase rfl (not_locks rfl)
  | gets hs hphase _ => exact h.idle hs rfl rfl rfl rfl rfl hphase rfl (not_locks rfl)
  | takes hs hphase _ => exact h.idle hs rfl rfl rfl rfl rfl hphase rfl (not_locks rfl)
  | connects hs hphase => exact h.connects hplaced hs hphase
  | fails hs hphase => exact h.idle hs rfl rfl rfl rfl rfl hphase rfl (not_locks rfl)
  | fills hs hphase => exact h.idle hs rfl rfl rfl rfl rfl hphase rfl (not_locks rfl)
  | @forgets k i s hs hphase =>
    have hsenders : ((w.forget s.target i).put k { s with phase := .Done (.error .Dial) }).senders =
        w.senders.set k { s with phase := .Done (.error .Dial) } := by
      rw [put, senders_forget]
    exact h.idle hs hsenders (carrier_forget s.target i) (conns_forget ..) rfl rfl hphase rfl
      not_locks_done
  | aborts hs hphase _ _ =>
    exact h.idle hs rfl rfl rfl rfl rfl hphase rfl not_locks_done
  | redials hs hphase _ _ => exact h.idle hs rfl rfl rfl rfl rfl hphase rfl (not_locks rfl)
  | enters hs hphase _ _ => exact h.idle hs rfl rfl rfl rfl rfl hphase rfl (not_locks rfl)
  | keeps hs hphase _ _ => exact h.idle hs rfl rfl rfl rfl rfl hphase rfl (not_locks rfl)
  | goes hs hphase _ _ _ => exact h.idle hs rfl rfl rfl rfl rfl hphase rfl (not_locks rfl)
  | locks hs hphase hconn hlock => exact h.begins hs hphase hconn hlock rfl rfl rfl
  | @gives_up k i c s hs hphase =>
    have hforget : (w.forget s.target i).Written :=
      h.of_same (carrier_forget ..) (senders_forget ..) fun c conn hconn =>
        ⟨conn, conns_forget (w := w) s.target i ▸ hconn, .refl conn⟩
    have hs' : (w.forget s.target i).senders[k]? = some s := by rwa [senders_forget]
    exact hforget.gives_up hs' hphase rfl rfl not_locks_done
  | errs hs hphase => exact h.errs hs hphase rfl rfl rfl
  | @sends k i c s hs hphase =>
    have hok := hplaced.sender k s hs
    refine h.lets_go hs hphase rfl rfl not_locks_done (fun conn hconn => ?_)
      fun conn => .inr (.inl ⟨rfl, rfl⟩)
    exact hplaced.target_eq hs (by rw [hphase]; rfl) (by rw [hphase]; rfl) hconn
  | writes hs hphase hconn hleft => exact h.goes_on hs hphase hconn hleft _ rfl rfl rfl
  | drops hs hphase =>
    rcases hphase with ⟨i, hphase⟩ | ⟨i, c, hphase⟩
    · exact h.idle hs rfl rfl rfl rfl rfl hphase rfl (not_locks rfl)
    · exact h.idle hs rfl rfl rfl rfl rfl hphase rfl (not_locks rfl)
  | stops hs hphase => exact h.idle hs rfl rfl rfl rfl rfl hphase rfl (not_locks rfl)
  | @cuts k i c left s hs hphase =>
    refine h.lets_go hs hphase rfl rfl (not_locks rfl) (fun conn hconn => ?_) fun conn => ?_
    · exact hplaced.target_eq hs (by rw [hphase]; rfl) (by rw [hphase]; rfl) hconn
    · split_ifs with hnil hwhole
      · exact .inr (.inl ⟨hnil, rfl⟩)
      · exact .inr (.inr ⟨hwhole.1, hwhole.2, rfl⟩)
      · exact .inl rfl
  | ends c =>
    exact h.of_same rfl rfl fun c' conn' hconn' =>
      same_touch (c := c) (f := fun conn => { conn with ended := true })
        (fun _ => ⟨rfl, rfl, rfl, rfl, rfl⟩) hconn'
  | @leaves c conn hconn _ =>
    obtain ⟨hcarrier, hsenders, hconns⟩ := leave_same (w := w) (c := c) conn
    refine h.of_same hcarrier hsenders fun c' conn' hconn' => ?_
    rw [hconns] at hconn'
    exact same_touch (c := c) (f := fun conn => { conn with left := true })
      (fun _ => ⟨rfl, rfl, rfl, rfl, rfl⟩) hconn'

end World

end TargetUdp

end Rurge
