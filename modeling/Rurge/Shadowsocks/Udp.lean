import Rurge.Config.Host
import Rurge.Lib.BigEndian
import Rurge.Lib.Fifo
import Rurge.Quic.Bytes
import Rurge.Shadowsocks.Window

/-!
# Server packets of Shadowsocks 2022

A packet is checked (`check`), then counted against the window of the server session it names.
Windows of eight server sessions are kept, a new one pushing out the oldest.  The ciphers stand as
they are: nothing is asked of them.
-/

namespace Rurge

namespace Shadowsocks

open BigEndian Runs Fifo
open Quic (slice)

/-! ### Addresses -/

/-- The host at the start of `bytes`, and where it ends. -/
def parse_socks_host (bytes : List UInt8) : Option (HostName × ℕ) := do
  let kind ← bytes.head?
  if kind = 1 then (slice bytes 1 5).map fun b => (.ip (.v4 (.ofNat 32 (ofBytes b))), 5)
  else if kind = 4 then (slice bytes 1 17).map fun b => (.ip (.v6 (.ofNat 128 (ofBytes b))), 17)
  else if kind = 3 then
    let len := (← bytes[1]?).toNat
    let name ← from_utf8 (← slice bytes 2 (2 + len))
    return (← HostName.from_wire name, 2 + len)
  else none

/-- `ATYP ADDR PORT` at the start of `bytes`, and how many bytes it took. -/
def parse_socks_addr (bytes : List UInt8) : Option (Target × ℕ) := do
  let (host, rest) ← parse_socks_host bytes
  let port ← slice bytes rest (rest + 2)
  return (⟨host, from_u16 port⟩, rest + 2)

/-! ### Sessions -/

def SERVER_PACKET : UInt8 := 1

/-- The separate header: session id and packet id. -/
def SEPARATE : ℕ := 16

/-- A server body before its address. -/
def SERVER_FIXED : ℕ := 1 + 8 + 8 + 2

/-- An AEAD's tag. -/
def TAG : ℕ := 16

/-- Server sessions whose replay windows a carrier keeps. -/
def SERVER_SESSIONS : ℕ := 8

/-- How far apart the clocks may be, in seconds. -/
def TIME_WINDOW : ℕ := 30

/-- The keys, as what they do: the separate header's block under the user key, a session's cipher,
and a body opened under its nonce and its tag. -/
structure Keys2022 (Cipher : Type) where
  aes_decrypt_block : List UInt8 → List UInt8
  body_cipher : List UInt8 → Cipher
  open_in_place : Cipher → List UInt8 → List UInt8 → List UInt8 → Option (List UInt8)

/-- One server session a carrier heard from. -/
structure ServerSession (Cipher : Type) where
  id : List UInt8
  cipher : Cipher
  window : Window

/-- A carrier's client session: its id and the server sessions, oldest first. -/
structure Session (Cipher : Type) where
  id : List UInt8
  servers : List (ServerSession Cipher)

variable {Cipher : Type} (k : Keys2022 Cipher)

/-- The server session a packet names. -/
def server_id (packet : List UInt8) : List UInt8 :=
  (k.aes_decrypt_block (packet.take SEPARATE)).take 8

/-- The packet's id. -/
def packet_id (packet : List UInt8) : ℕ :=
  ofBytes ((k.aes_decrypt_block (packet.take SEPARATE)).drop 8)

/-- The cipher of the session a packet names: the one kept, or a fresh one. -/
def Session.cipher (s : Session Cipher) (id : List UInt8) : Cipher :=
  match s.servers.find? fun server => server.id = id with
  | some server => server.cipher
  | none => k.body_cipher id

/-- Where a packet's address and payload come from and lie, if everything of it but its id checks
out. -/
def Session.check (s : Session Cipher) (packet : List UInt8) (now : ℕ) :
    Except String (Target × ℕ × ℕ) :=
  if packet.length < SEPARATE + SERVER_FIXED + TAG then .error "too short"
  else
    let separate := k.aes_decrypt_block (packet.take SEPARATE)
    let sealed := packet.drop SEPARATE
    let body := sealed.take (sealed.length - TAG)
    let tag := sealed.drop (sealed.length - TAG)
    match k.open_in_place (s.cipher k (server_id k packet)) (separate.drop 4) body tag with
    | none => .error "does not decrypt"
    | some body =>
      let time := ofBytes ((body.drop 1).take 8)
      if body.getD 0 0 ≠ SERVER_PACKET then .error "not a server's packet"
      else if TIME_WINDOW < (time - now) + (now - time) then
        .error "the server's clock differs from ours by more than 30 seconds"
      else if (body.drop 9).take 8 ≠ s.id then .error "for another client session"
      else
        let start := SERVER_FIXED + ofBytes ((body.drop 17).take 2)
        if body.length < start then .error "no address"
        else
          match parse_socks_addr (body.drop start) with
          | none => .error "no address"
          | some (from_, used) =>
            .ok (from_, SEPARATE + start + used, SEPARATE + start + (body.drop start).length)

/-- A packet that checked out counted against its session's window; a session that is new begun, the
oldest dropped where there is no room. -/
def Session.count (s : Session Cipher) (id : List UInt8) (packet_id : ℕ) : Session Cipher × Bool :=
  match s.servers.findIdx? fun server => server.id = id with
  | some i =>
    match s.servers[i]? with
    | some server =>
      ({ s with
          servers := s.servers.set i
            { server with window := (server.window.accept packet_id).1 } },
        (server.window.accept packet_id).2)
    | none => (s, false)
  | none =>
    let servers := if s.servers.length = SERVER_SESSIONS then s.servers.tail else s.servers
    ({ s with servers := servers ++ [⟨id, s.cipher k id, (Window.new.accept packet_id).1⟩] }, true)

/-- A server packet opened: checked, then counted against its session's replay window. -/
def Session.open (s : Session Cipher) (packet : List UInt8) (now : ℕ) :
    Session Cipher × Except String (Target × ℕ × ℕ) :=
  match s.check k packet now with
  | .error e => (s, .error e)
  | .ok found =>
    match s.count k (server_id k packet) (packet_id k packet) with
    | (s, true) => (s, .ok found)
    | (s, false) => (s, .error "a replay")

/-! ### What was accepted -/

/-- A packet that was accepted: its server session and its id, and whether the session was opened
for it. -/
structure Taken where
  id : List UInt8
  packet_id : ℕ
  opened : Bool
  deriving DecidableEq

/-- The server sessions opened, in order. -/
def opens (log : List Taken) : List (List UInt8) := (log.filter Taken.opened).map Taken.id

/-- The packet ids accepted of a server session since it was opened last. -/
def since (id : List UInt8) (log : List Taken) : List ℕ :=
  log.foldl (fun seen t =>
    if t.id = id then if t.opened then [t.packet_id] else seen ++ [t.packet_id] else seen) []

/-- A session with the packets it accepted. -/
structure Heard (Cipher : Type) where
  session : Session Cipher
  log : List Taken

/-- The session hears one more packet. -/
def hear (h : Heard Cipher) (packet : List UInt8 × ℕ) : Heard Cipher where
  session := (h.session.open k packet.1 packet.2).1
  log := match (h.session.open k packet.1 packet.2).2 with
    | .error _ => h.log
    | .ok _ => h.log ++ [⟨server_id k packet.1, packet_id k packet.1,
        !(h.session.servers.any fun server => server.id = server_id k packet.1)⟩]

/-- Before any packet. -/
def Heard.fresh (id : List UInt8) : Heard Cipher := ⟨⟨id, []⟩, []⟩

theorem opens_append (log log' : List Taken) : opens (log ++ log') = opens log ++ opens log' := by
  rw [opens, List.filter_append, List.map_append, opens, opens]

theorem opens_singleton (t : Taken) : opens [t] = if t.opened then [t.id] else [] := by
  cases h : t.opened <;> simp [opens, h]

theorem opens_cons_opened {t : Taken} (h : t.opened = true) (log : List Taken) :
    opens (t :: log) = t.id :: opens log := by
  rw [opens, List.filter_cons_of_pos h, List.map_cons, opens]

theorem since_concat (id : List UInt8) (log : List Taken) (t : Taken) :
    since id (log ++ [t]) =
      if t.id = id then if t.opened then [t.packet_id] else since id log ++ [t.packet_id]
      else since id log := by
  rw [since, List.foldl_append]
  rfl

/-- The last time a session was opened. -/
theorem last_opening {id : List UInt8} {log : List Taken} (h : id ∈ opens log) :
    ∃ before o rest, log = before ++ o :: rest ∧ o.opened = true ∧ o.id = id ∧
      id ∉ opens rest := by
  induction log using List.reverseRecOn with
  | nil => cases h
  | append_singleton log t ih =>
    by_cases ht : t.opened = true ∧ t.id = id
    · exact ⟨log, t, [], rfl, ht.1, ht.2, List.not_mem_nil⟩
    · have hnone : id ∉ opens [t] := by
        rw [opens_singleton]
        split_ifs with hopened
        · rw [List.mem_singleton]
          exact fun heq => ht ⟨hopened, heq.symm⟩
        · exact List.not_mem_nil
      rw [opens_append] at h
      obtain ⟨before, o, rest, rfl, ho, hid, hrest⟩ :=
        ih ((List.mem_append.1 h).resolve_right hnone)
      refine ⟨before, o, rest ++ [t], by simp, ho, hid, ?_⟩
      rw [opens_append, List.mem_append]
      exact fun hmem => hmem.elim hrest hnone

/-- What was accepted of a session since it was opened is remembered. -/
theorem mem_since {before rest : List Taken} {o t : Taken} (ho : o.opened = true)
    (hid : t.id = o.id) (hrest : o.id ∉ opens rest) (ht : t ∈ o :: rest) :
    t.packet_id ∈ since o.id (before ++ o :: rest) := by
  induction rest using List.reverseRecOn with
  | nil =>
    obtain rfl := List.mem_singleton.1 ht
    rw [since_concat, if_pos rfl, if_pos ho]
    exact List.mem_cons_self
  | append_singleton rest u ih =>
    rw [opens_append, List.mem_append, not_or] at hrest
    rw [← List.cons_append, ← List.append_assoc, since_concat]
    rw [← List.cons_append, List.mem_append] at ht
    by_cases hu : u.id = o.id
    · have hclosed : ¬ u.opened = true := fun hopened => hrest.2 (by
        rw [opens_singleton, if_pos hopened, hu]
        exact List.mem_cons_self)
      rw [if_pos hu, if_neg hclosed]
      rcases ht with ht | ht
      · exact List.mem_append_left _ (ih hrest.1 ht)
      · rw [List.mem_singleton.1 ht]
        exact List.mem_append_right _ List.mem_cons_self
    · rw [if_neg hu]
      rcases ht with ht | ht
      · exact ih hrest.1 ht
      · rw [List.mem_singleton.1 ht] at hid
        exact absurd hid hu

/-! ### What every run keeps -/

/-- Since the session that `t` was accepted of was opened, for the last time before that, eight
others were. -/
def Evicted (before : List Taken) (t : Taken) (after : List Taken) : Prop :=
  ∃ earlier o later, before ++ [t] = earlier ++ o :: later ∧ o.opened = true ∧ o.id = t.id ∧
    t.id ∉ opens later ∧ 8 ≤ ((opens (later ++ after)).filter (· ≠ t.id)).toFinset.card

/-- What holds of everything heard. -/
structure Kept (h : Heard Cipher) : Prop where
  ids : h.session.servers.map ServerSession.id = recent SERVER_SESSIONS (opens h.log)
  spaced : Spaced SERVER_SESSIONS (opens h.log)
  windows : ∀ server ∈ h.session.servers, Window.Tracks (since server.id h.log) server.window
  known : ∀ xs t ys, h.log = xs ++ t :: ys → t.id ∈ opens (xs ++ [t])
  once : ∀ xs t ys u zs, h.log = xs ++ t :: (ys ++ u :: zs) → u.id = t.id →
    u.packet_id = t.packet_id → Evicted xs t ys

theorem kept_fresh (id : List UInt8) : Kept (Heard.fresh id : Heard Cipher) where
  ids := rfl
  spaced := spaced_nil _
  windows server hserver := by cases hserver
  known xs t ys h := by simp [Heard.fresh] at h
  once xs t ys u zs h := by simp [Heard.fresh] at h

/-- A session seen twice before eight others were opened is seen in between. -/
theorem evicted_of_length {log xs ys : List Taken} {t : Taken}
    (hspaced : Spaced SERVER_SESSIONS (opens log)) (hlog : log = xs ++ t :: ys)
    (hknown : t.id ∈ opens (xs ++ [t]))
    (hfew : ∀ before o rest, log = before ++ o :: rest → o.opened = true → o.id = t.id →
      t ∈ o :: rest → ¬ (opens rest).length < SERVER_SESSIONS) : Evicted xs t ys := by
  obtain ⟨earlier, o, later, hsplit, ho, hid, hlater⟩ := last_opening hknown
  refine ⟨earlier, o, later, hsplit, ho, hid, hlater, ?_⟩
  have hall : log = earlier ++ o :: (later ++ ys) := by
    rw [hlog, ← List.singleton_append, ← List.append_assoc, hsplit, List.append_assoc,
      List.cons_append]
  have hmem : t ∈ o :: (later ++ ys) := by
    have hlast : t ∈ o :: later := by
      have := congrArg List.getLast? hsplit
      rw [List.getLast?_append_of_ne_nil _ (by simp), List.getLast?_append_of_ne_nil _ (by simp),
        List.getLast?_singleton] at this
      exact List.mem_of_getLast? this.symm
    rw [← List.cons_append]
    exact List.mem_append_left _ hlast
  have hlong := not_lt.1 (hfew earlier o (later ++ ys) hall ho hid hmem)
  rw [hall, opens_append, opens_cons_opened ho, hid] at hspaced
  obtain ⟨hother, hnodup⟩ := hspaced.behind
  calc 8 = ((opens (later ++ ys)).take SERVER_SESSIONS).toFinset.card := by
        rw [List.toFinset_card_of_nodup hnodup, List.length_take, min_eq_left hlong]
        rfl
    _ ≤ _ := by
        refine Finset.card_le_card fun id hid => ?_
        rw [List.mem_toFinset] at hid ⊢
        refine List.mem_filter.2 ⟨(List.take_sublist _ _).subset hid, ?_⟩
        simpa using fun heq : id = t.id => hother (heq ▸ hid)

variable {k} {s : Session Cipher} {id : List UInt8} {packet_id : ℕ}

/-- Counting a packet of a session that is kept. -/
theorem count_known (hnodup : (s.servers.map ServerSession.id).Nodup)
    (hid : id ∈ s.servers.map ServerSession.id) :
    ∃ before server after, s.servers = before ++ server :: after ∧ server.id = id ∧
      (∀ x ∈ before ++ after, x.id ≠ id) ∧ s.count k id packet_id =
        ({ s with servers := before ++
          { server with window := (server.window.accept packet_id).1 } :: after },
          (server.window.accept packet_id).2) := by
  obtain ⟨server, hserver, rfl⟩ := List.mem_map.1 hid
  obtain ⟨before, after, hsplit⟩ := List.append_of_mem hserver
  rw [hsplit, List.map_append, List.map_cons] at hnodup
  have hothers : ∀ x ∈ before ++ after, x.id ≠ server.id := by
    intro x hx heq
    have hmem := List.mem_map_of_mem (f := ServerSession.id) hx
    rw [List.map_append, heq] at hmem
    exact (List.nodup_middle.1 hnodup).notMem hmem
  refine ⟨before, server, after, hsplit, rfl, hothers, ?_⟩
  have hfind : s.servers.findIdx? (fun x => x.id = server.id) = some before.length := by
    rw [hsplit, List.findIdx?_append, List.findIdx?_eq_none_iff.2]
    · simp [List.findIdx?_cons]
    · intro x hx
      simpa using hothers x (List.mem_append_left _ hx)
  have hget : s.servers[before.length]? = some server := by simp [hsplit]
  simp only [Session.count, hfind, hget]
  rw [hsplit, List.set_append_right _ _ le_rfl, Nat.sub_self, List.set_cons_zero]

/-- Counting a packet of a session that is new. -/
theorem count_new (hid : id ∉ s.servers.map ServerSession.id) :
    s.count k id packet_id =
      ({ s with servers := (if s.servers.length = SERVER_SESSIONS then s.servers.tail
          else s.servers) ++ [⟨id, s.cipher k id, (Window.new.accept packet_id).1⟩] }, true) := by
  have hfind : s.servers.findIdx? (fun x => x.id = id) = none := by
    rw [List.findIdx?_eq_none_iff]
    intro x hx
    simpa using fun heq : x.id = id => hid (heq ▸ List.mem_map_of_mem hx)
  simp only [Session.count, hfind]

/-- What opening a packet comes to: it is refused before it is counted, or counted. -/
theorem open_cases (k : Keys2022 Cipher) (s : Session Cipher) (packet : List UInt8) (now : ℕ) :
    (∃ e, s.open k packet now = (s, .error e)) ∨
    ∃ found, s.open k packet now =
      ((s.count k (server_id k packet) (Shadowsocks.packet_id k packet)).1,
        if (s.count k (server_id k packet) (Shadowsocks.packet_id k packet)).2 then .ok found
        else .error "a replay") := by
  unfold Session.open
  cases s.check k packet now with
  | error e => exact .inl ⟨e, rfl⟩
  | ok found =>
    refine .inr ⟨found, ?_⟩
    rcases s.count k (server_id k packet) (Shadowsocks.packet_id k packet) with ⟨s', _ | _⟩ <;> rfl

variable {h : Heard Cipher}

theorem Kept.nodup (hk : Kept h) : (h.session.servers.map ServerSession.id).Nodup := by
  rw [hk.ids]
  exact hk.spaced.nodup_recent

theorem any_eq (servers : List (ServerSession Cipher)) (id : List UInt8) :
    (servers.any fun server => server.id = id) = decide (id ∈ servers.map ServerSession.id) := by
  rw [Bool.eq_iff_iff]
  simp

/-- **A packet that is refused** leaves the sessions and their windows as they were. -/
theorem Kept.refused (hk : Kept h) {packet : List UInt8} {now : ℕ} {e : String}
    (he : (h.session.open k packet now).2 = .error e) :
    (h.session.open k packet now).1 = h.session := by
  rcases open_cases k h.session packet now with ⟨e', hopen⟩ | ⟨found, hopen⟩
  · rw [hopen]
  rw [hopen] at he ⊢
  by_cases hid : server_id k packet ∈ h.session.servers.map ServerSession.id
  · obtain ⟨before, server, after, hsplit, -, -, hcount⟩ :=
      @count_known _ k h.session _ (Shadowsocks.packet_id k packet) hk.nodup hid
    rw [hcount] at he ⊢
    have htracks := hk.windows server (by rw [hsplit]; simp)
    cases hanswer : (server.window.accept (Shadowsocks.packet_id k packet)).2 with
    | true =>
      simp only [hanswer, if_true] at he
      cases he
    | false =>
      simp only [(htracks.accept _).2.2 hanswer]
      rw [← hsplit]
  · rw [count_new hid] at he
    cases he

/-- One packet more is the last of the log, or behind all of it. -/
theorem concat_eq_append_cons {log xs ys : List Taken} {t u : Taken}
    (h : log ++ [t] = xs ++ u :: ys) :
    (ys = [] ∧ u = t ∧ xs = log) ∨ ∃ ys', ys = ys' ++ [t] ∧ log = xs ++ u :: ys' := by
  rcases List.eq_nil_or_concat ys with rfl | ⟨ys', y, rfl⟩
  · obtain ⟨rfl, hlast⟩ := List.append_inj' h rfl
    exact .inl ⟨rfl, (List.singleton_inj.1 hlast).symm, rfl⟩
  · rw [List.concat_eq_append] at h ⊢
    rw [← List.cons_append, ← List.append_assoc] at h
    obtain ⟨rfl, hlast⟩ := List.append_inj' h rfl
    rw [List.singleton_inj.1 hlast]
    exact .inr ⟨ys', rfl, rfl⟩

/-- What one packet more does to what was heard: nothing, or it is counted against the session that
is kept, or a session is opened for it. -/
theorem hear_cases (hk : Kept h) (k : Keys2022 Cipher) (packet : List UInt8) (now : ℕ) :
    hear k h (packet, now) = h ∨
    (∃ before server after, h.session.servers = before ++ server :: after ∧
      server.id = server_id k packet ∧ (∀ x ∈ before ++ after, x.id ≠ server_id k packet) ∧
      (server.window.accept (Shadowsocks.packet_id k packet)).2 = true ∧
      (hear k h (packet, now)).session.servers = before ++ { server with
        window := (server.window.accept (Shadowsocks.packet_id k packet)).1 } :: after ∧
      (hear k h (packet, now)).log =
        h.log ++ [⟨server_id k packet, Shadowsocks.packet_id k packet, false⟩]) ∨
    (server_id k packet ∉ h.session.servers.map ServerSession.id ∧
      (hear k h (packet, now)).session.servers =
        (if h.session.servers.length = SERVER_SESSIONS then h.session.servers.tail
          else h.session.servers) ++ [⟨server_id k packet,
            h.session.cipher k (server_id k packet),
            (Window.new.accept (Shadowsocks.packet_id k packet)).1⟩] ∧
      (hear k h (packet, now)).log =
        h.log ++ [⟨server_id k packet, Shadowsocks.packet_id k packet, true⟩]) := by
  cases hresult : (h.session.open k packet now).2 with
  | error e =>
    refine .inl ?_
    simp only [hear, hresult, hk.refused hresult]
  | ok found =>
    refine .inr ?_
    rcases open_cases k h.session packet now with ⟨e, hopen⟩ | ⟨found', hopen⟩
    · rw [hopen] at hresult
      cases hresult
    by_cases hid : server_id k packet ∈ h.session.servers.map ServerSession.id
    · obtain ⟨before, server, after, hsplit, hserver, hothers, hcount⟩ :=
        @count_known _ k h.session _ (Shadowsocks.packet_id k packet) hk.nodup hid
      refine .inl ⟨before, server, after, hsplit, hserver, hothers, ?_, ?_, ?_⟩
      · rw [hopen, hcount] at hresult
        by_contra hno
        simp only [hno, if_false] at hresult
        cases hresult
      · simp only [hear, hopen, hcount]
      · simp only [hear, hresult, any_eq, hid, decide_true, Bool.not_true]
    · refine .inr ⟨hid, ?_, ?_⟩
      · simp only [hear, hopen, count_new hid]
      · simp only [hear, hresult, any_eq, hid, decide_false, Bool.not_false]

/-- **One packet.**  What holds of everything heard still holds. -/
theorem Kept.hear (hk : Kept h) (packet : List UInt8 × ℕ) : Kept (hear k h packet) := by
  obtain ⟨packet, now⟩ := packet
  rcases hear_cases hk k packet now with hsame | ⟨before, server, after, hsplit, hserver, hothers,
    hnew, hservers, hlog⟩ | ⟨hnew, hservers, hlog⟩
  · rwa [hsame]
  · set t : Taken := ⟨server_id k packet, Shadowsocks.packet_id k packet, false⟩ with ht
    have hopens : opens (h.log ++ [t]) = opens h.log := by
      rw [opens_append, opens_singleton, if_neg (by simp [ht]), List.append_nil]
    have hmem : server ∈ h.session.servers := by rw [hsplit]; simp
    have htracks := hk.windows server hmem
    rw [hserver] at htracks
    have hunseen := ((htracks.accept _).1.1 hnew).1
    refine ⟨?_, ?_, ?_, fun xs u ys heq => ?_, fun xs u ys v zs heq hid hpacket => ?_⟩
    · rw [hservers, hlog, hopens, ← hk.ids, hsplit, List.map_append, List.map_append,
        List.map_cons, List.map_cons]
    · rw [hlog, hopens]
      exact hk.spaced
    · intro x hx
      rw [hservers, List.mem_append, List.mem_cons] at hx
      rw [hlog, since_concat]
      have hother : x ∈ before ++ after → Window.Tracks (if t.id = x.id then
          if t.opened then [t.packet_id] else since x.id h.log ++ [t.packet_id]
          else since x.id h.log) x.window := fun hx => by
        rw [if_neg (hothers x hx).symm]
        refine hk.windows x ?_
        rw [hsplit, List.mem_append, List.mem_cons]
        exact (List.mem_append.1 hx).imp_right .inr
      rcases hx with hx | rfl | hx
      · exact hother (List.mem_append_left _ hx)
      · rw [if_pos hserver.symm, if_neg (by simp [ht]), hserver]
        exact (htracks.accept _).2.1 hnew
      · exact hother (List.mem_append_right _ hx)
    · rw [hlog] at heq
      rcases concat_eq_append_cons heq with ⟨-, rfl, rfl⟩ | ⟨ys', -, hold⟩
      · rw [hopens]
        refine (recent_sublist SERVER_SESSIONS _).subset ?_
        rw [← hk.ids]
        exact List.mem_map.2 ⟨server, hmem, hserver⟩
      · exact hk.known xs u ys' hold
    · rw [hlog] at heq
      have hlast : h.log ++ [t] = (xs ++ u :: ys) ++ v :: zs := by rw [heq]; simp
      rcases concat_eq_append_cons hlast with ⟨-, rfl, hold⟩ | ⟨zs', -, hold⟩
      · refine evicted_of_length hk.spaced hold.symm (hk.known xs u ys hold.symm) ?_
        intro earlier o later hlast ho hou hmem hfew
        have hnone : o.id ∉ opens later := by
          intro hin
          obtain ⟨us, vs, hsplit'⟩ := List.append_of_mem hin
          have hspaced := hk.spaced
          rw [hlast, opens_append, opens_cons_opened ho, hsplit'] at hspaced
          have := hspaced _ _ us vs rfl
          rw [hsplit', List.length_append] at hfew
          omega
        have hin := @mem_since earlier later o u ho hou.symm hnone hmem
        rw [← hlast, ← hpacket, hou, ← hid] at hin
        exact hunseen hin
      · refine hk.once xs u ys v zs' ?_ hid hpacket
        rw [hold]
        simp
  · set t : Taken := ⟨server_id k packet, Shadowsocks.packet_id k packet, true⟩ with ht
    have hopens : opens (h.log ++ [t]) = opens h.log ++ [server_id k packet] := by
      rw [opens_append, opens_singleton, if_pos (by simp [ht])]
    rw [hk.ids] at hnew
    refine ⟨?_, ?_, ?_, fun xs u ys heq => ?_, fun xs u ys v zs heq hid hpacket => ?_⟩
    · have hlength : h.session.servers.length = (recent SERVER_SESSIONS (opens h.log)).length := by
        rw [← hk.ids, List.length_map]
      rw [hservers, hlog, hopens, List.map_append, List.map_singleton]
      split_ifs with hfull
      · rw [recent_concat_of_full (by decide) (hlength ▸ hfull), ← hk.ids, List.map_tail]
      · have hmost := length_recent SERVER_SESSIONS (opens h.log)
        rw [recent_concat_of_lt (by omega), ← hk.ids]
    · rw [hlog, hopens]
      exact hk.spaced.concat hnew
    · intro x hx
      rw [hservers, List.mem_append, List.mem_singleton] at hx
      rw [hlog, since_concat]
      rcases hx with hx | rfl
      · have hold : x ∈ h.session.servers := by
          split_ifs at hx
          · exact List.mem_of_mem_tail hx
          · exact hx
        have hother : t.id ≠ x.id := by
          rintro heq
          refine hnew ?_
          rw [← hk.ids, show server_id k packet = x.id from heq]
          exact List.mem_map_of_mem hold
        rw [if_neg hother]
        exact hk.windows x hold
      · rw [if_pos rfl, if_pos rfl]
        have hfirst := Window.tracks_new.accept (Shadowsocks.packet_id k packet)
        exact hfirst.2.1 (hfirst.1.2 ⟨List.not_mem_nil, by simp⟩)
    · rw [hlog] at heq
      rcases concat_eq_append_cons heq with ⟨-, rfl, rfl⟩ | ⟨ys', -, hold⟩
      · rw [hopens]
        exact List.mem_append_right _ List.mem_cons_self
      · exact hk.known xs u ys' hold
    · rw [hlog] at heq
      have hlast : h.log ++ [t] = (xs ++ u :: ys) ++ v :: zs := by rw [heq]; simp
      rcases concat_eq_append_cons hlast with ⟨-, rfl, hold⟩ | ⟨zs', -, hold⟩
      · refine evicted_of_length hk.spaced hold.symm (hk.known xs u ys hold.symm) ?_
        intro earlier o later hlast ho hou hmem hfew
        refine hnew ?_
        rw [hlast, opens_append, opens_cons_opened ho, hou, ← hid]
        exact mem_recent hfew
      · refine hk.once xs u ys v zs' ?_ hid hpacket
        rw [hold]
        simp

/-- **Server packets.**  A window accepts an id exactly when it was not accepted before and is no
more than 8128 behind the largest accepted.  Whatever packets a session hears, one that is refused
leaves the server sessions and their windows as they were; and no packet id of a server session is
accepted twice unless, since the session was opened that it was first accepted of, eight other
server sessions were. -/
theorem replays_refused (k : Keys2022 Cipher) (client : List UInt8)
    (packets : List (List UInt8 × ℕ)) :
    (∀ (ids : List ℕ) (id : ℕ),
      ((run Window.call ⟨Window.new, []⟩ ids).window.accept id).2 = true ↔
        id ∉ (run Window.call ⟨Window.new, []⟩ ids).accepted ∧
          ∀ q ∈ (run Window.call ⟨Window.new, []⟩ ids).accepted, q ≤ id + 8128) ∧
    (∀ packet now e,
      ((run (hear k) (Heard.fresh client) packets).session.open k packet now).2 = .error e →
      ((run (hear k) (Heard.fresh client) packets).session.open k packet now).1 =
        (run (hear k) (Heard.fresh client) packets).session) ∧
    ∀ xs t ys u zs, (run (hear k) (Heard.fresh client) packets).log = xs ++ t :: (ys ++ u :: zs) →
      u.id = t.id → u.packet_id = t.packet_id → Evicted xs t ys := by
  have hkept : Kept (run (hear k) (Heard.fresh client) packets) :=
    run_invariant (fun h packet hk => hk.hear packet) (kept_fresh client) packets
  exact ⟨Window.accept_iff, fun packet now e he => hkept.refused he, hkept.once⟩

/-- Keys under which everything is sealed as it is. -/
def plain : Keys2022 Unit where
  aes_decrypt_block block := block
  body_cipher _ := ()
  open_in_place _ _ body _ := some body

/-- Packet `packet` of server session `id`, from 1.2.3.4:80, to client session 7. -/
def server_packet (id packet : UInt8) : List UInt8 :=
  List.replicate 7 0 ++ [id] ++ List.replicate 7 0 ++ [packet] ++ [SERVER_PACKET] ++
    List.replicate 8 0 ++ List.replicate 8 7 ++ [0, 0] ++ [1, 1, 2, 3, 4, 0, 80] ++
    List.replicate TAG 0

/-- Packet 5 of session 9 is accepted twice with one other session opened in between: seven were
opened before it was accepted first. -/
theorem accepted_twice :
    (run (hear plain) (Heard.fresh (List.replicate 8 7))
      ((server_packet 9 0 :: [1, 2, 3, 4, 5, 6, 7].map (server_packet · 0) ++
        [server_packet 9 5, server_packet 8 0, server_packet 9 5]).map (·, 0))).log.drop 8 =
      [⟨List.replicate 7 0 ++ [9], 5, false⟩, ⟨List.replicate 7 0 ++ [8], 0, true⟩,
        ⟨List.replicate 7 0 ++ [9], 5, true⟩] := by decide +kernel

end Shadowsocks

end Rurge
