import Rurge.Lib.BigEndian
import Rurge.Lib.Runs

/-!
# Shadow TLS, version 3

The records of the data phase, each tagged by a running digest under the password.  What is handed
on is what the server sealed (`frames_opened`), and what somebody on the way makes of it is still a
part of the server's transcript, its tags with it (`kept_to_transcript`).  Frames may be joined on
the way (`joined`).
-/

namespace Rurge

namespace ShadowTls

open BigEndian (toBytes ofBytes)
open Runs

abbrev Bytes := List UInt8

def TAG : ℕ := 4
def HEADER : ℕ := 5
def ALERT : UInt8 := 21
def APPLICATION_DATA : UInt8 := 23

/-- A running digest: what was fed to it. -/
structure Chain where
  fed : Bytes

/-- HMAC-SHA1 under a password. -/
abbrev Hmac := Bytes → { b : Bytes // b.length = 20 }

variable (mac : Hmac)

namespace Chain

def new (seed : List Bytes) : Chain := ⟨seed.flatten⟩

def update (c : Chain) (data : Bytes) : Chain := ⟨c.fed ++ data⟩

def digest (n : ℕ) (c : Chain) : Bytes := (mac c.fed).1.take n

/-- The payload goes in, the tag comes out, and goes in as well. -/
def frame_tag (c : Chain) (payload : Bytes) : Chain × Bytes :=
  let c := c.update payload
  let tag := c.digest mac TAG
  (c.update tag, tag)

/-- The chain after frames. -/
def after (c : Chain) (payloads : List Bytes) : Chain :=
  payloads.foldl (fun c payload => (c.frame_tag mac payload).1) c

end Chain

/-- The mode of a connection: `ignore` is the chain of the handshake, until the first record that it
does not verify. -/
structure Mode where
  add : Chain
  verify : Chain
  ignore : Option Chain

def data_header (len : ℕ) : Bytes := [APPLICATION_DATA, 3, 3] ++ toBytes 2 len

def record (tag payload : Bytes) : Bytes := data_header (TAG + payload.length) ++ tag ++ payload

/-- The record at the front of what came, once it is whole, in whatever pieces it came. -/
def poll_record (came : Bytes) : Option Bytes :=
  let size := HEADER + ofBytes ((came.drop 3).take 2)
  if HEADER ≤ came.length ∧ size ≤ came.length then some (came.take size) else none

namespace Mode

def seal_ (m : Mode) (payload : Bytes) : Mode × Bytes :=
  let (add, tag) := m.add.frame_tag mac payload
  ({ m with add := add }, record tag payload)

def UNAUTHENTICATED : String := "shadow-tls: a record cannot be authenticated"

def verified (m : Mode) (tag payload : Bytes) : Mode × Except String (Option ℕ) :=
  let (verify, own) := m.verify.frame_tag mac payload
  ({ m with verify := verify },
    if own = tag then .ok (some (HEADER + TAG)) else .error UNAUTHENTICATED)

/-- Where the payload of a record starts, `none` for a record to skip. -/
def open_ (m : Mode) (record : Bytes) : Mode × Except String (Option ℕ) :=
  let body := record.drop HEADER
  if record.head? = some ALERT then (m, .ok none)
  else if record.head? = some APPLICATION_DATA then
    if body.length < TAG then (m, .error UNAUTHENTICATED)
    else
      match m.ignore with
      | some chain =>
        let chain := chain.update (body.drop TAG)
        if chain.digest mac TAG = body.take TAG then ({ m with ignore := some chain }, .ok none)
        else verified mac { m with ignore := none } (body.take TAG) (body.drop TAG)
      | none => verified mac m (body.take TAG) (body.drop TAG)
  else (m, .error "shadow-tls: unexpected record type")

/-- The records of payloads. -/
def seals (m : Mode) : List Bytes → List Bytes
  | [] => []
  | payload :: payloads => (m.seal_ mac payload).2 :: (m.seal_ mac payload).1.seals payloads

end Mode

/-- The records of payloads of the handshake, that the server relays. -/
def relays (c : Chain) : List Bytes → List Bytes
  | [] => []
  | payload :: payloads =>
    record ((c.update payload).digest mac TAG) payload :: relays (c.update payload) payloads

/-- A connection: the payloads of the frames that it opened, and its error. -/
structure Framed where
  mode : Mode
  got : List Bytes
  failed : Option String

namespace Framed

def new (mode : Mode) : Framed := ⟨mode, [], none⟩

/-- A record is read whole; nothing is read behind an error. -/
def take (f : Framed) (record : Bytes) : Framed :=
  if f.failed.isSome then f
  else
    match f.mode.open_ mac record with
    | (mode, .ok (some start)) => { f with mode := mode, got := f.got ++ [record.drop start] }
    | (mode, .ok none) => { f with mode := mode }
    | (mode, .error error) => { f with mode := mode, failed := some error }

end Framed

/-! ### What is opened -/

variable {mac} {m : Mode} {add v v' c : Chain} {ignore : Option Chain} {got : List Bytes}

@[simp] theorem length_digest (c : Chain) : (c.digest mac TAG).length = TAG := by
  rw [Chain.digest, List.length_take, (mac c.fed).2]
  rfl

theorem open_record {tag : Bytes} (htag : tag.length = TAG) (payload : Bytes) :
    m.open_ mac (record tag payload) =
      match m.ignore with
      | some chain =>
        if (chain.update payload).digest mac TAG = tag then
          ({ m with ignore := some (chain.update payload) }, .ok none)
        else Mode.verified mac { m with ignore := none } tag payload
      | none => Mode.verified mac m tag payload := by
  have hdrop : (record tag payload).drop HEADER = tag ++ payload := rfl
  have hlen : ¬ (tag ++ payload).length < TAG := by
    rw [List.length_append]
    omega
  unfold Mode.open_
  dsimp only
  rw [hdrop, List.take_left' htag, List.drop_left' htag]
  exact (if_neg (show ¬ some APPLICATION_DATA = some ALERT by decide)).trans
    ((if_pos rfl).trans (if_neg hlen))

theorem after_concat (c : Chain) (payloads : List Bytes) (payload : Bytes) :
    c.after mac (payloads ++ [payload]) = ((c.after mac payloads).frame_tag mac payload).1 :=
  List.foldl_concat ..

/-- What comes of a frame depends on what was fed, not on where the frame began. -/
theorem frame_tag_congr {payload payload' : Bytes} (h : c.update payload = v.update payload') :
    c.frame_tag mac payload = v.frame_tag mac payload' := by
  rw [Chain.frame_tag, h]
  rfl

theorem fed_after (mac : Hmac) (c : Chain) (payloads : List Bytes) :
    c.fed <+: (c.after mac payloads).fed := by
  induction payloads generalizing c with
  | nil => exact List.prefix_rfl
  | cons payload payloads ih =>
    refine List.IsPrefix.trans ?_ (ih (c.frame_tag mac payload).1)
    exact (List.prefix_append _ _).trans (List.prefix_append _ _)

/-- A frame is opened that the chain of the handshake does not verify. -/
theorem take_frame (payload : Bytes) (hignore : ∀ c ∈ ignore,
      (c.update payload).digest mac TAG ≠ (v.frame_tag mac payload).2) :
    Framed.take mac ⟨⟨add, v, ignore⟩, got, none⟩ (record (v.frame_tag mac payload).2 payload) =
      ⟨⟨add, v.after mac [payload], none⟩, got ++ [payload], none⟩ := by
  have hdrop : (record (v.frame_tag mac payload).2 payload).drop (HEADER + TAG) = payload := by
    rw [← List.drop_drop]
    exact List.drop_left' (length_digest _)
  have hlen : (v.frame_tag mac payload).2.length = TAG := length_digest _
  rw [Framed.take, open_record hlen]
  cases ignore with
  | none => simp [Mode.verified, Chain.after, hdrop]
  | some c => simp [Mode.verified, Chain.after, hdrop, hignore c rfl]

theorem take_seals (payloads : List Bytes) : run (Framed.take mac) ⟨⟨add, v, none⟩, got, none⟩
    (Mode.seals mac ⟨v, v', ignore⟩ payloads) =
      ⟨⟨add, v.after mac payloads, none⟩, got ++ payloads, none⟩ := by
  induction payloads generalizing v got with
  | nil => simp [Mode.seals, Chain.after]
  | cons payload payloads ih =>
    rw [Mode.seals, run_cons]
    exact (congrArg (run _ · _) (take_frame payload (by simp))).trans
      (ih.trans (by simp [Chain.after]))

theorem take_relays (payloads : List Bytes) : run (Framed.take mac) ⟨⟨add, v, some c⟩, got, none⟩
    (relays mac c payloads) = ⟨⟨add, v, some (c.update payloads.flatten)⟩, got, none⟩ := by
  induction payloads generalizing c with
  | nil => simp [relays, Chain.update]
  | cons payload payloads ih =>
    have hfirst : Framed.take mac ⟨⟨add, v, some c⟩, got, none⟩
        (record ((c.update payload).digest mac TAG) payload) =
          ⟨⟨add, v, some (c.update payload)⟩, got, none⟩ := by
      simp [Framed.take, open_record (length_digest _)]
    rw [relays, run_cons, hfirst, ih]
    simp [Chain.update]

theorem take_alert {f : Framed} {record : Bytes} (halert : record.head? = some ALERT) :
    f.take mac record = f := by
  obtain ⟨mode, got, _ | error⟩ := f <;> simp [Framed.take, Mode.open_, halert]

/-- What an honest server writes is opened frame by frame, and nothing is handed on of the records
of the handshake before it, unless their chain happens to verify the first frame.  Alerts change
nothing, wherever they come. -/
theorem frames_opened (mac : Hmac) (add v c : Chain)
    (relayed payloads records : List Bytes) :
    let f := run (Framed.take mac) (.new ⟨add, v, some c⟩)
    let sent := relays mac c relayed ++ Mode.seals mac ⟨v, add, none⟩ payloads
    ((f sent).got = payloads ∧ (f sent).failed = none ∨ ∃ payload ∈ payloads.head?,
      ((c.update relayed.flatten).update payload).digest mac TAG = (v.frame_tag mac payload).2) ∧
    f (records.filter fun record => record.head? != some ALERT) = f records := by
  dsimp only
  constructor
  · rw [run_append, Framed.new, take_relays]
    cases payloads with
    | nil => exact .inl ⟨rfl, rfl⟩
    | cons payload payloads =>
      by_cases htag : ((c.update relayed.flatten).update payload).digest mac TAG =
          (v.frame_tag mac payload).2
      · exact .inr ⟨payload, rfl, htag⟩
      · left
        have hfirst : Framed.take mac ⟨⟨add, v, some (c.update relayed.flatten)⟩, [], none⟩
            (Mode.seal_ mac ⟨v, add, none⟩ payload).2 =
              ⟨⟨add, v.after mac [payload], none⟩, [payload], none⟩ :=
          take_frame payload (by simpa using htag)
        rw [Mode.seals, run_cons, hfirst]
        exact ⟨congrArg Framed.got (take_seals payloads),
          congrArg Framed.failed (take_seals payloads)⟩
  · generalize Framed.new _ = f
    induction records generalizing f with
    | nil => rfl
    | cons record records ih =>
      by_cases halert : record.head? = some ALERT
      · rw [List.filter_cons_of_neg (by simpa using halert), ih, run_cons, take_alert halert]
      · rw [List.filter_cons_of_pos (by simpa using halert), run_cons, ih, run_cons]

/-- What one record does. -/
theorem take_cases (mac : Hmac) (f : Framed) (record : Bytes) :
    (f.take mac record).got = f.got ∧ ((f.take mac record).failed = none →
      f.failed = none ∧ (f.take mac record).mode.verify = f.mode.verify) ∨
    f.failed = none ∧ record.head? = some APPLICATION_DATA ∧
      (f.mode.verify.frame_tag mac (record.drop (HEADER + TAG))).2 = (record.drop HEADER).take TAG ∧
      (f.take mac record).got = f.got ++ [record.drop (HEADER + TAG)] ∧
      (f.take mac record).mode.verify = f.mode.verify.after mac [record.drop (HEADER + TAG)] := by
  unfold Framed.take Mode.open_ Mode.verified
  rw [← List.drop_drop]
  obtain ⟨⟨add, verify, _ | c⟩, got, _ | e⟩ := f <;> simp <;> split_ifs <;> simp_all [Chain.after]

/-- A record that is verified and that the server, which sealed `payloads`, never fed its chain. -/
def Forged (mac : Hmac) (v : Chain) (payloads : List Bytes)
    (f : Framed) (record : Bytes) : Prop :=
  let payload := record.drop (HEADER + TAG)
  f.failed = none ∧ record.head? = some APPLICATION_DATA ∧
    (f.mode.verify.frame_tag mac payload).2 = (record.drop HEADER).take TAG ∧
    ∀ before last, before ++ [last] <+: payloads →
      (v.after mac before).update last ≠ f.mode.verify.update payload

/-- The frames that were opened, with their tags, are the beginning of what the server fed. -/
def Kept (mac : Hmac) (v : Chain) (payloads : List Bytes)
    (f : Framed) : Prop :=
  ∃ sent, sent <+: payloads ∧ v.after mac f.got = v.after mac sent ∧
    (f.failed = none → f.mode.verify = v.after mac sent)

theorem Kept.take {payloads : List Bytes} {f : Framed} {record : Bytes}
    (h : Kept mac v payloads f) (hforged : ¬ Forged mac v payloads f record) :
    Kept mac v payloads (f.take mac record) := by
  obtain ⟨sent, hsent, hgot, hverify⟩ := h
  rcases take_cases mac f record with ⟨hsame, hrest⟩ | ⟨hok, hkind, htag, hmore, hnext⟩
  · exact ⟨sent, hsent, by rw [hsame, hgot], fun h => by rw [(hrest h).2, hverify (hrest h).1]⟩
  · simp only [Forged, hok, hkind, htag, true_and, not_forall, not_not] at hforged
    obtain ⟨before, last, hprefix, hfed⟩ := hforged
    -- the server fed the same to its chain, and so its chain is the same behind the frame
    have hsame : f.mode.verify.after mac [record.drop (HEADER + TAG)] =
        v.after mac (before ++ [last]) := by
      rw [after_concat]
      exact (frame_tag_congr hfed).symm ▸ rfl
    refine ⟨_, hprefix, ?_, fun _ => by rw [hnext, hsame]⟩
    rw [hmore, after_concat, hgot, ← hverify hok, ← hsame]
    rfl

/-- Whatever records come: as long as none is forged, the frames that are opened, with their tags,
are the beginning of what the server fed to its chain, up to the end of one of its frames. -/
theorem kept_to_transcript (mac : Hmac) (add v : Chain)
    (ignore : Option Chain) (payloads records : List Bytes) :
    let f := run (Framed.take mac) (.new ⟨add, v, ignore⟩)
    (∃ sent, sent <+: payloads ∧ v.after mac (f records).got = v.after mac sent) ∨
      ∃ before record after, records = before ++ record :: after ∧
        Forged mac v payloads (f before) record := by
  dsimp only
  by_cases hforged : ∃ before record after, records = before ++ record :: after ∧
      Forged mac v payloads (run (Framed.take mac) (.new ⟨add, v, ignore⟩) before) record
  · exact .inr hforged
  · left
    suffices h : Kept mac v payloads (run (Framed.take mac) (.new ⟨add, v, ignore⟩) records) from
      h.imp fun _ h => ⟨h.1, h.2.1⟩
    induction records using List.reverseRecOn with
    | nil => exact ⟨[], List.nil_prefix, rfl, fun _ => rfl⟩
    | append_singleton records record ih =>
      rw [run_append]
      refine (ih ?_).take fun h => hforged ⟨records, record, [], rfl, h⟩
      rintro ⟨before, r, after, rfl, h⟩
      exact hforged ⟨before, r, after ++ [record], by simp, h⟩

/-- What the length field can say is read as it was written. -/
theorem poll_record_record {tag payload : Bytes} (htag : tag.length = TAG)
    (hfits : TAG + payload.length < 65536) (rest : Bytes) :
    poll_record (record tag payload ++ rest) = some (record tag payload) := by
  have hlen : (record tag payload).length = HEADER + (TAG + payload.length) := by
    simp [record, data_header, htag, HEADER]
    omega
  have hfield :
      ((record tag payload ++ rest).drop 3).take 2 = toBytes 2 (TAG + payload.length) := by
    simp [record, data_header]
  have hsize : HEADER + ofBytes (((record tag payload ++ rest).drop 3).take 2) =
      (record tag payload).length := by
    have hmod : (TAG + payload.length) % 256 ^ 2 = TAG + payload.length := Nat.mod_eq_of_lt hfits
    rw [hfield, BigEndian.ofBytes_toBytes, hmod, hlen]
  unfold poll_record
  dsimp only
  rw [hsize, List.take_left, if_pos]
  rw [List.length_append]
  omega

/-- Frames of the server that are joined to one, with the tags between them, are opened as one
frame, and the connection goes on behind them, as long as a record holds them; unless the chain of
the handshake, while there is one, happens to verify it. -/
theorem joined (mac : Hmac) (add v : Chain) (ignore : Option Chain) (got payloads : List Bytes)
    (last : Bytes) :
    let payload := (v.after mac payloads).fed.drop v.fed.length ++ last
    let tag := ((v.after mac payloads).frame_tag mac last).2
    TAG + payload.length < 65536 →
      (∀ rest, poll_record (record tag payload ++ rest) = some (record tag payload)) ∧
      ((∃ c ∈ ignore, (c.update payload).digest mac TAG = tag) ∨
        Framed.take mac ⟨⟨add, v, ignore⟩, got, none⟩ (record tag payload) =
          ⟨⟨add, v.after mac (payloads ++ [last]), none⟩, got ++ [payload], none⟩) := by
  obtain ⟨t, ht⟩ := fed_after mac v payloads
  have hfed : (v.after mac payloads).update last = v.update (t ++ last) := by
    simp [Chain.update, ← ht]
  have hdrop : (v.after mac payloads).fed.drop v.fed.length = t := by
    rw [← ht, List.drop_left]
  dsimp only
  rw [hdrop, after_concat, frame_tag_congr hfed]
  refine fun hfits => ⟨poll_record_record (length_digest _) hfits, ?_⟩
  by_cases hignore : ∃ c ∈ ignore,
      (c.update (t ++ last)).digest mac TAG = (v.frame_tag mac (t ++ last)).2
  · exact .inl hignore
  · exact .inr (take_frame (t ++ last) fun c hc htag => hignore ⟨c, hc, htag⟩)

/-- A digest that counts what was fed. -/
def counting : Hmac := fun fed => ⟨List.replicate 20 (UInt8.ofNat fed.length), by simp⟩

/-- Three frames in the first record that comes behind the handshake. -/
theorem joined_first :
    let payload := [1, 2, 2, 2, 2, 2, 7, 7, 7, 7, 3]
    poll_record (record [12, 12, 12, 12] payload ++ [23, 3]) =
        some (record [12, 12, 12, 12] payload) ∧
      Framed.take counting (.new ⟨⟨[]⟩, ⟨[7]⟩, some ⟨[]⟩⟩) (record [12, 12, 12, 12] payload) =
        ⟨⟨⟨[]⟩, ⟨7 :: (payload ++ [12, 12, 12, 12])⟩, none⟩, [payload], none⟩ := by
  obtain ⟨hread, htaken⟩ := joined counting ⟨[]⟩ ⟨[7]⟩ (some ⟨[]⟩) [] [[1], [2]] [3] (by decide)
  refine ⟨hread [23, 3], htaken.resolve_left ?_⟩
  rintro ⟨c, hc, htag⟩
  obtain rfl := Option.some.inj hc
  exact absurd htag (by decide)

end ShadowTls

end Rurge
