import Rurge.Lib.Runs
import Rurge.Proto.Obfs

/-!
# What goes out through simple-obfs

Whatever the stream below makes of the writes, what it took is one first packet and the packets
after it, the last one perhaps in part, and what they carry is what was reported as written, with
what the write that is still pending has in its packet (`writes_spec`).
-/

namespace Rurge

namespace SimpleObfs

open BigEndian (toBytes)
open StreamUdp (utf8)
open Runs

/-! ### Packets and what they carry -/

namespace Kind

def is_tls : Kind → Bool
  | .Http _ _ => false
  | .Tls _ => true

/-- The most the first packet carries. -/
def max_first : Kind → ℕ
  | .Http _ _ => MAX_RECORD
  | .Tls host => max_first_payload host

def first_packet (drawn : Drawn) (payload : Bytes) : Kind → Bytes
  | .Http uri host => request_head drawn uri host payload.length ++ payload
  | .Tls host => client_hello drawn host payload

/-- A packet after the first. -/
def packet (payload : Bytes) : Kind → Bytes
  | .Http _ _ => payload
  | .Tls _ => app_data payload

/-- The packets that carry `payloads`. -/
def packets (kind : Kind) (drawn : Drawn) : List Bytes → Bytes
  | [] => []
  | first :: rest => kind.first_packet drawn first ++ rest.flatMap kind.packet

/-- Payloads of the sizes that the packets have. -/
def Sized (kind : Kind) : List Bytes → Prop
  | [] => True
  | first :: rest =>
    (first ≠ [] ∧ first.length ≤ kind.max_first) ∧
      ∀ payload ∈ rest, payload ≠ [] ∧ (kind.is_tls = true → payload.length ≤ MAX_RECORD)

theorem packets_concat (kind : Kind) (drawn : Drawn) {payloads : List Bytes} (h : payloads ≠ [])
    (payload : Bytes) :
    kind.packets drawn (payloads ++ [payload]) =
      kind.packets drawn payloads ++ kind.packet payload := by
  obtain ⟨first, rest, rfl⟩ := List.exists_cons_of_ne_nil h
  simp [packets]

theorem Sized.concat {kind : Kind} {payloads : List Bytes} (h : kind.Sized payloads)
    (hne : payloads ≠ []) {payload : Bytes} (hpayload : payload ≠ [])
    (hsize : kind.is_tls = true → payload.length ≤ MAX_RECORD) :
    kind.Sized (payloads ++ [payload]) := by
  obtain ⟨first, rest, rfl⟩ := List.exists_cons_of_ne_nil hne
  refine ⟨h.1, fun p hp => ?_⟩
  rcases List.mem_append.1 hp with hp | hp
  · exact h.2 p hp
  · rw [List.mem_singleton.1 hp]
    exact ⟨hpayload, hsize⟩

end Kind

/-! ### The writes of a run -/

/-- The writes so far: what the stream below took, what was reported as written, and the bytes of a
write that is pending. -/
structure Writing where
  writer : Writer
  below : Bytes
  reported : Bytes
  pending : Option Bytes
  failed : Bool

/-- A write, a flush or a shutdown, with what the stream below makes of it. -/
inductive Call
  | write (data : Bytes) (answers : List Wrote)
  | flush (answers : List Wrote) (below : Poll Unit)
  | shutdown (answers : List Wrote) (below : Poll Unit)

namespace Writing

def new (kind : Kind) : Writing := ⟨.new kind, [], [], none, false⟩

/-- The state after a flush or a shutdown. -/
def flushed (s : Writing) (polled : Writer × Bytes × Poll Unit) : Writing :=
  let failed := match polled.2.2 with
    | .Ready (.error _) => true
    | _ => s.failed
  { s with writer := polled.1, below := s.below ++ polled.2.1, failed := failed }

/-- The state after a write of `data`. -/
def wrote (s : Writing) (data : Bytes) (polled : Writer × Bytes × Poll ℕ) : Writing :=
  let s := { s with writer := polled.1, below := s.below ++ polled.2.1 }
  match polled.2.2 with
  | .Pending => { s with pending := some data }
  | .Ready (.ok n) => { s with pending := none, reported := s.reported ++ data.take n }
  | .Ready (.error _) => { s with pending := some data, failed := true }

/-- A call: a pending write is made again with its bytes, and after an error there is none. -/
def step (drawn : Drawn) (s : Writing) : Call → Writing
  | .write data answers =>
    if s.failed then s
    else
      let data := s.pending.getD data
      s.wrote data (s.writer.poll_write drawn data answers)
  | .flush answers below =>
    if s.failed then s else s.flushed (s.writer.poll_flush answers below)
  | .shutdown answers below =>
    if s.failed then s else s.flushed (s.writer.poll_shutdown answers below)

end Writing

/-! ### What a write keeps -/

/-- A writer after some of its packet is out: what is left of it. -/
structure Writer.Drives (w w' : Writer) (taken : Bytes) : Prop where
  first : w'.first = w.first
  tls : w'.tls = w.tls
  accepted : w'.accepted = w.accepted
  left : w.out.drop w.sent = taken ++ w'.out.drop w'.sent
  out : w'.out = w.out ∧ w.out ≠ [] ∨ w'.out = [] ∧ w'.sent = 0

theorem Writer.drives (w : Writer) (answers : List Wrote) :
    w.Drives (w.poll_out answers).1 (w.poll_out answers).2.1 ∧
      ((w.poll_out answers).2.2 = .Ready (.ok ()) →
        (w.poll_out answers).1.out = [] ∧ (w.poll_out answers).1.sent = 0) := by
  have hne : ∀ {w : Writer}, w.sent < w.out.length → w.out ≠ [] := by
    intro w h hnil
    simp [hnil] at h
  induction answers generalizing w with
  | nil =>
    unfold Writer.poll_out
    split_ifs with hleft
    · exact ⟨⟨rfl, rfl, rfl, rfl, .inl ⟨rfl, hne hleft⟩⟩, nofun⟩
    · refine ⟨⟨rfl, rfl, rfl, ?_, .inr ⟨rfl, rfl⟩⟩, fun _ => ⟨rfl, rfl⟩⟩
      simp [List.drop_eq_nil_of_le (Nat.not_lt.1 hleft)]
  | cons answer answers ih =>
    unfold Writer.poll_out
    split_ifs with hleft
    · cases answer with
      | Pending => exact ⟨⟨rfl, rfl, rfl, rfl, .inl ⟨rfl, hne hleft⟩⟩, nofun⟩
      | Failed e => exact ⟨⟨rfl, rfl, rfl, rfl, .inl ⟨rfl, hne hleft⟩⟩, nofun⟩
      | Took n =>
        simp only
        split_ifs with hzero
        · exact ⟨⟨rfl, rfl, rfl, rfl, .inl ⟨rfl, hne hleft⟩⟩, nofun⟩
        · obtain ⟨⟨hfirst, htls, haccepted, hrest, hout⟩, hdone⟩ :=
            ih { w with sent := w.sent + min n (w.out.length - w.sent) }
          refine ⟨⟨hfirst, htls, haccepted, ?_, hout⟩, hdone⟩
          rw [List.append_assoc, ← hrest, ← List.drop_drop, List.take_append_drop]
    · refine ⟨⟨rfl, rfl, rfl, ?_, .inr ⟨rfl, rfl⟩⟩, fun _ => ⟨rfl, rfl⟩⟩
      simp [List.drop_eq_nil_of_le (Nat.not_lt.1 hleft)]

/-- What the packet on its way carries that is not reported. -/
def Writing.owed (s : Writing) : Bytes := (s.pending.getD []).take s.writer.accepted

/-- **What is out, and what it carries.** -/
structure Carries (kind : Kind) (drawn : Drawn) (s : Writing) (payloads : List Bytes) : Prop where
  goes : kind.packets drawn payloads = s.below ++ s.writer.out.drop s.writer.sent
  carried : payloads.flatten = s.reported ++ s.owed
  sized : kind.Sized payloads
  first : s.writer.first = if payloads = [] then some kind else none
  tls : s.writer.tls = kind.is_tls
  sent : s.writer.out = [] → s.writer.sent = 0
  accepted : s.writer.accepted ≤ (s.pending.getD []).length
  out : s.writer.accepted = 0 → s.writer.out = []

namespace Carries

variable {kind : Kind} {drawn : Drawn} {s : Writing} {payloads : List Bytes}

theorem drives (h : Carries kind drawn s payloads) {w : Writer} {taken : Bytes}
    (hd : s.writer.Drives w taken) :
    Carries kind drawn { s with writer := w, below := s.below ++ taken } payloads where
  goes := by rw [List.append_assoc, ← hd.left]; exact h.goes
  carried := by rw [h.carried, Writing.owed, Writing.owed, hd.accepted]
  sized := h.sized
  first := hd.first ▸ h.first
  tls := hd.tls ▸ h.tls
  sent hnil := by
    rcases hd.out with ⟨heq, hne⟩ | ⟨-, hzero⟩
    · exact absurd (heq ▸ hnil) hne
    · exact hzero
  accepted := hd.accepted ▸ h.accepted
  out hzero := by
    rcases hd.out with ⟨heq, hne⟩ | ⟨hnil, -⟩
    · exact absurd (h.out (hd.accepted ▸ hzero)) hne
    · exact hnil

theorem flushed (h : Carries kind drawn s payloads) (answers : List Wrote) (below : Poll Unit) :
    Carries kind drawn (s.flushed (s.writer.poll_flush answers below)) payloads := by
  have hdrives := h.drives (s.writer.drives answers).1
  have hparts : (s.writer.poll_flush answers below).1 = (s.writer.poll_out answers).1 ∧
      (s.writer.poll_flush answers below).2.1 = (s.writer.poll_out answers).2.1 := by
    unfold Writer.poll_flush
    split <;> simp_all
  unfold Writing.flushed
  rw [hparts.1, hparts.2]
  exact ⟨hdrives.goes, hdrives.carried, hdrives.sized, hdrives.first, hdrives.tls, hdrives.sent,
    hdrives.accepted, hdrives.out⟩

/-- A write whose packet is built. -/
theorem finish (h : Carries kind drawn s payloads) {data : Bytes} (hdata : s.pending = some data)
    (answers : List Wrote) :
    Carries kind drawn (s.wrote data (s.writer.finish data answers)) payloads := by
  obtain ⟨hd, hdone⟩ := s.writer.drives answers
  have hdrives := h.drives hd
  unfold Writer.finish
  generalize s.writer.poll_out answers = polled at hd hdone hdrives
  obtain ⟨w, taken, result⟩ := polled
  have hkept : Carries kind drawn
      { s with writer := w, below := s.below ++ taken, pending := some data } payloads := by
    rw [← hdata]
    exact hdrives
  cases result with
  | Pending => exact hkept
  | Ready result =>
    cases result with
    | error e => exact ⟨hkept.goes, hkept.carried, hkept.sized, hkept.first, hkept.tls, hkept.sent,
        hkept.accepted, hkept.out⟩
    | ok =>
      obtain ⟨hout, hsent⟩ := hdone rfl
      refine ⟨hkept.goes, ?_, hkept.sized, hkept.first, hkept.tls, hkept.sent, Nat.zero_le _,
        fun _ => hout⟩
      have hle : w.accepted ≤ data.length := hkept.accepted
      rw [hkept.carried, Writing.owed, Writing.owed]
      simp [Writing.wrote, Nat.min_eq_left hle]

/-- The next packet is built, of the first bytes of `data`. -/
theorem encode (h : Carries kind drawn s payloads) (client : kind.Writable)
    (hout : s.writer.out = []) (haccepted : s.writer.accepted = 0)
    (hpacket : ¬(s.writer.first.isNone = true ∧ s.writer.tls = false)) {data : Bytes}
    (hdata : data ≠ []) :
    ∃ payload, Carries kind drawn
      { s with
        writer :=
          { (s.writer.encode drawn data).1 with accepted := (s.writer.encode drawn data).2 }
        pending := some data } (payloads ++ [payload]) := by
  have hpos : 0 < data.length := List.length_pos_iff.2 hdata
  have hsent := h.sent hout
  have hgoes := h.goes
  rw [hout, List.drop_nil, List.append_nil] at hgoes
  have hcarried := h.carried
  rw [Writing.owed, haccepted, List.take_zero, List.append_nil] at hcarried
  -- the packet carries `n` bytes, one at least
  have hmake : ∀ {out : Bytes} {n : ℕ}, 0 < n → n ≤ data.length →
      kind.packets drawn (payloads ++ [data.take n]) = kind.packets drawn payloads ++ out →
      kind.Sized (payloads ++ [data.take n]) →
      Carries kind drawn
        { s with
          writer := { s.writer with first := none, out := out, accepted := n }
          pending := some data } (payloads ++ [data.take n]) := by
    intro out n hn hle hpackets hsized
    refine ⟨?_, ?_, hsized, ?_, h.tls, fun _ => hsent, hle, fun hzero => absurd hzero hn.ne'⟩
    · rw [hpackets, hgoes]
      simp [hsent]
    · rw [List.flatten_append, hcarried]
      simp [Writing.owed]
    · simp
  have htake : ∀ {n : ℕ}, 0 < n → data.take n ≠ [] := by
    intro n hn hnil
    rcases List.take_eq_nil_iff.1 hnil with rfl | hnil
    · exact lt_irrefl _ hn
    · exact hdata hnil
  unfold Writer.encode
  by_cases hempty : payloads = []
  · subst hempty
    have hfirst : s.writer.first = some kind := h.first
    cases kind with
    | Http uri host =>
      have hn : 0 < min data.length MAX_RECORD := lt_min hpos (by decide)
      refine ⟨data.take (min data.length MAX_RECORD), ?_⟩
      simp only [hfirst]
      refine hmake hn (min_le_left _ _) ?_ ⟨⟨htake hn, ?_⟩, nofun⟩
      · simp [Kind.packets, Kind.first_packet, List.length_take, Nat.min_comm]
      · simp [Kind.max_first, List.length_take]
    | Tls host =>
      have hroom : 0 < max_first_payload host := by
        have := client.2
        unfold max_first_payload MAX_RECORD HELLO_OVERHEAD
        unfold MAX_HOST at this
        omega
      have hn : 0 < min data.length (max_first_payload host) := lt_min hpos hroom
      refine ⟨data.take (min data.length (max_first_payload host)), ?_⟩
      simp only [hfirst]
      refine hmake hn (min_le_left _ _) ?_ ⟨⟨htake hn, ?_⟩, nofun⟩
      · simp [Kind.packets, Kind.first_packet]
      · simp [Kind.max_first, List.length_take]
  · have hfirst : s.writer.first = none := by rw [h.first, if_neg hempty]
    have htls : kind.is_tls = true := by
      rw [hfirst, h.tls] at hpacket
      simpa using hpacket
    have hn : 0 < min data.length MAX_RECORD := lt_min hpos (by decide)
    refine ⟨data.take (min data.length MAX_RECORD), ?_⟩
    simp only [hfirst, hout, List.nil_append]
    have hmade := @hmake (app_data (data.take (min data.length MAX_RECORD))) _ hn
      (min_le_left _ _) ?_ (h.sized.concat hempty (htake hn) fun _ => ?_)
    · exact hmade
    · rw [Kind.packets_concat kind drawn hempty]
      cases kind with
      | Http uri host => cases htls
      | Tls host => rfl
    · rw [List.length_take]
      exact (min_le_left _ _).trans (min_le_right _ _)

/-- A write that goes to the stream below as it is. -/
theorem passed (h : Carries kind drawn s payloads) (hout : s.writer.out = [])
    (haccepted : s.writer.accepted = 0) (hfirst : s.writer.first.isNone = true)
    (htls : s.writer.tls = false) (data : Bytes) (answers : List Wrote) :
    ∃ payloads, Carries kind drawn (s.wrote data (s.writer.pass_on data answers)) payloads := by
  have hsent := h.sent hout
  have hgoes := h.goes
  rw [hout, List.drop_nil, List.append_nil] at hgoes
  have hcarried := h.carried
  rw [Writing.owed, haccepted, List.take_zero, List.append_nil] at hcarried
  have hempty : payloads ≠ [] := by
    rintro rfl
    rw [h.first] at hfirst
    cases hfirst
  have hkept : ∀ {pending : Option Bytes} {failed : Bool}, Carries kind drawn
      { s with below := s.below ++ [], pending := pending, failed := failed } payloads := by
    intro pending failed
    refine ⟨by simp [hgoes, hout], ?_, h.sized, h.first, h.tls, h.sent, ?_, h.out⟩
    · simp [Writing.owed, haccepted, hcarried]
    · simp [haccepted]
  unfold Writer.pass_on
  split
  · exact ⟨payloads, hkept⟩
  · exact ⟨payloads, hkept⟩
  · exact ⟨payloads, hkept⟩
  · rename_i n answers
    by_cases htaken : data.take n = []
    · refine ⟨payloads, ?_⟩
      have hmin : data.take (min n data.length) = [] := by
        rw [List.take_eq_nil_iff] at htaken ⊢
        rcases htaken with rfl | hnil
        · exact .inl (Nat.zero_min _)
        · exact .inr hnil
      refine ⟨by simp [Writing.wrote, hgoes, hout, htaken], ?_, h.sized, h.first, h.tls, h.sent,
        by simp [Writing.wrote, haccepted], h.out⟩
      simp [Writing.wrote, Writing.owed, hcarried, hmin]
    · have htls' : kind.is_tls = false := h.tls ▸ htls
      refine ⟨payloads ++ [data.take n], ?_, ?_, h.sized.concat hempty htaken ?_, ?_, h.tls,
        h.sent, by simp [Writing.wrote, haccepted], h.out⟩
      · rw [Kind.packets_concat kind drawn hempty, hgoes]
        cases kind with
        | Http uri host => simp [Writing.wrote, Kind.packet, hout]
        | Tls host => cases htls'
      · rw [List.flatten_append, hcarried]
        simp [Writing.wrote, Writing.owed, List.take_eq_take_min]
      · rw [htls']
        exact nofun
      · simpa [Writing.wrote, h.first] using hempty

/-- **One call** goes on from what is out. -/
theorem step (client : kind.Writable) (h : Carries kind drawn s payloads) (call : Call) :
    ∃ payloads, Carries kind drawn (s.step drawn call) payloads := by
  cases call with
  | write data answers =>
    unfold Writing.step
    simp only
    split_ifs with hfailed
    · exact ⟨payloads, h⟩
    · generalize hdata : s.pending.getD data = data'
      unfold Writer.poll_write
      split_ifs with hnil hfresh hpass
      · subst hnil
        have hzero : s.writer.accepted = 0 := by
          have := h.accepted
          cases hpending : s.pending with
          | none => simpa [hpending] using this
          | some d =>
            rw [hpending, Option.getD_some] at hdata
            simpa [hpending, hdata] using this
        refine ⟨payloads, ?_, ?_, h.sized, h.first, h.tls, h.sent, by simp [Writing.wrote, hzero],
          h.out⟩
        · simp [Writing.wrote, h.goes]
        · rw [h.carried]
          simp [Writing.wrote, Writing.owed, hzero]
      · exact h.passed hfresh.1 hfresh.2 hpass.1 hpass.2 data' answers
      · obtain ⟨payload, hencoded⟩ := h.encode client hfresh.1 hfresh.2 hpass hnil
        exact ⟨payloads ++ [payload], hencoded.finish rfl answers⟩
      · have hne : s.writer.accepted ≠ 0 := fun hzero => hfresh ⟨h.out hzero, hzero⟩
        have hpending : s.pending = some data' := by
          cases hpending : s.pending with
          | none =>
            have := h.accepted
            rw [hpending, Option.getD_none, List.length_nil, Nat.le_zero] at this
            exact absurd this hne
          | some d => rw [← hdata, hpending, Option.getD_some]
        exact ⟨payloads, h.finish hpending answers⟩
  | flush answers below =>
    unfold Writing.step
    simp only
    split_ifs
    · exact ⟨payloads, h⟩
    · exact ⟨payloads, h.flushed answers below⟩
  | shutdown answers below =>
    unfold Writing.step
    simp only
    split_ifs
    · exact ⟨payloads, h⟩
    · exact ⟨payloads, h.flushed answers below⟩

end Carries

/-- **What goes out is carried in packets**, in any run. -/
theorem carries_run (client : ObfsClient) (drawn : Drawn) (calls : List Call) :
    ∃ payloads, Carries client.kind drawn
      (run (Writing.step drawn) (.new client.kind) calls) payloads := by
  have hnew : ∃ payloads, Carries client.kind drawn (.new client.kind) payloads := by
    refine ⟨[], rfl, rfl, trivial, rfl, ?_, fun _ => rfl, Nat.zero_le _, fun _ => rfl⟩
    cases client.kind <;> rfl
  refine run_invariant (I := fun s => ∃ payloads, Carries client.kind drawn s payloads)
    (fun s call h => ?_) hnew calls
  obtain ⟨payloads, h⟩ := h
  exact h.step client.writable call

/-! ### The form of the packets -/

/-- A length in `width` bytes and what it counts. -/
def vec (width : ℕ) (body : Bytes) : Bytes := toBytes width body.length ++ body

def extension (type : ℕ) (body : Bytes) : Bytes := put_u16 type ++ vec 2 body

/-- The extensions after the server name. -/
def tail : Bytes :=
  extension 0x0b (vec 1 [0x01, 0x00, 0x02]) ++
    extension 0x0a (vec 2 ([0x1d, 0x17, 0x19, 0x18].flatMap put_u16)) ++
    extension 0x0d (vec 2 ([0x0601, 0x0602, 0x0603, 0x0501, 0x0502, 0x0503, 0x0401, 0x0402,
      0x0403, 0x0301, 0x0302, 0x0303, 0x0201, 0x0202, 0x0203].flatMap put_u16)) ++
    extension 0x16 [] ++ extension 0x17 []

/-- The extensions of the hello: the ticket is the payload. -/
def extensions (name ticket : Bytes) : Bytes :=
  extension 0x23 ticket ++ extension 0x00 (vec 2 ([0x00] ++ vec 2 name)) ++ tail

/-- The body of the hello. -/
def hello_body (drawn : Drawn) (name ticket : Bytes) : Bytes :=
  [0x03, 0x03] ++ (toBytes 4 drawn.now.toNat ++ drawn.random.take 28) ++
    vec 1 (drawn.random.drop 28) ++ vec 2 (CIPHER_SUITES.flatMap put_u16) ++ vec 1 [0x00] ++
    vec 2 (extensions name ticket)

/-- A ClientHello whose lengths all say what is behind them. -/
def hello (drawn : Drawn) (host : Str) (ticket : Bytes) : Bytes :=
  [HANDSHAKE, 0x03, 0x01] ++ vec 2 ([0x01] ++ vec 3 (hello_body drawn (utf8 host) ticket))

@[simp] theorem length_put_u16 (n : ℕ) : (put_u16 n).length = 2 := BigEndian.length_toBytes 2 n

@[simp] theorem length_vec (width : ℕ) (body : Bytes) :
    (vec width body).length = width + body.length := by
  rw [vec, List.length_append, BigEndian.length_toBytes]

@[simp] theorem length_extension (type : ℕ) (body : Bytes) :
    (extension type body).length = 4 + body.length := by
  rw [extension, List.length_append, length_put_u16, length_vec]
  omega

theorem put_u24 {n : ℕ} (h : n < 65536) : toBytes 3 n = 0x00 :: put_u16 n := by
  have hhigh : n / 256 / 256 = 0 := by omega
  simp [toBytes, put_u16, hhigh]

theorem tail_extensions : TAIL_EXTENSIONS = tail := by decide +kernel

theorem length_tail : tail.length = 66 := by decide +kernel

theorem length_suites : (CIPHER_SUITES.flatMap put_u16).length = 56 := by decide

theorem length_extensions (name ticket : Bytes) :
    (extensions name ticket).length = 79 + ticket.length + name.length := by
  simp only [extensions, List.length_append, length_extension, length_vec, length_tail,
    List.length_singleton]
  omega

theorem length_hello_body (drawn : Drawn) (name ticket : Bytes) :
    (hello_body drawn name ticket).length = 208 + ticket.length + name.length := by
  simp only [hello_body, List.length_append, length_vec, length_extensions, length_suites,
    List.length_take, List.length_drop, drawn.random_length, BigEndian.length_toBytes,
    List.length_cons, List.length_nil]
  omega

/-- **The first packet of `obfs=tls` is such a hello**, of 16 KiB at most. -/
theorem client_hello_eq (drawn : Drawn) {host : Str} {ticket : Bytes}
    (h : HELLO_OVERHEAD + ticket.length + (utf8 host).length ≤ MAX_RECORD) :
    client_hello drawn host ticket = hello drawn host ticket ∧
      (client_hello drawn host ticket).length ≤ MAX_RECORD := by
  have hequal : client_hello drawn host ticket = hello drawn host ticket := by
    have hlength := length_hello_body drawn (utf8 host) ticket
    have hexts := length_extensions (utf8 host) ticket
    unfold HELLO_OVERHEAD MAX_RECORD at h
    -- the lengths that the code writes are those of what is behind them
    have htotal : HELLO_OVERHEAD + ticket.length + (utf8 host).length - HEADER_LEN =
        1 + (3 + (208 + ticket.length + (utf8 host).length)) := by
      unfold HELLO_OVERHEAD HEADER_LEN
      omega
    have hbody : 1 + (3 + (208 + ticket.length + (utf8 host).length)) - 4 =
        208 + ticket.length + (utf8 host).length := by omega
    have hextensions : HELLO_OVERHEAD + ticket.length + (utf8 host).length - 138 =
        79 + ticket.length + (utf8 host).length := by
      unfold HELLO_OVERHEAD
      omega
    have hnames : (utf8 host).length + 5 = 2 + (1 + (2 + (utf8 host).length)) := by omega
    have hname : (utf8 host).length + 3 = 1 + (2 + (utf8 host).length) := by omega
    have hu24 := put_u24 (n := 208 + ticket.length + (utf8 host).length) (by omega)
    unfold client_hello
    simp only [htotal, hbody, hextensions, hnames, hname]
    rw [hello, vec, List.length_append, length_vec, hlength, vec, hlength, hu24, hello_body]
    simp only [vec, hexts, length_suites]
    simp only [extensions, extension, vec, List.length_append, List.length_singleton,
      List.length_drop, drawn.random_length, ← tail_extensions, BigEndian.length_toBytes,
      List.append_assoc]
    rfl
  refine ⟨hequal, ?_⟩
  rw [hequal, hello, List.length_append, length_vec, List.length_append, length_vec,
    length_hello_body]
  unfold HELLO_OVERHEAD at h
  simp only [List.length_cons, List.length_nil]
  omega

/-- The request line and the headers of `obfs=http`. -/
def request_lines (drawn : Drawn) (uri host : Str) (len : ℕ) : List Str :=
  ["GET ".toList ++ uri ++ " HTTP/1.1".toList, "Host: ".toList ++ host,
    "User-Agent: ".toList ++ user_agent drawn, "Upgrade: websocket".toList,
    "Connection: Upgrade".toList, "Sec-WebSocket-Key: ".toList ++ base64 drawn.key,
    "Content-Length: ".toList ++ Str.decimal len]

theorem utf8_append (s t : Str) : utf8 (s ++ t) = utf8 s ++ utf8 t := List.flatMap_append

theorem utf8_CRLF : utf8 CRLF = [13, 10] := rfl

theorem request_head_eq (drawn : Drawn) (uri host : Str) (len : ℕ) :
    request_head drawn uri host len =
      ((request_lines drawn uri host len).map utf8).flatMap (· ++ [13, 10]) ++ [13, 10] := by
  simp only [request_head, request_lines, utf8_append, utf8_CRLF, List.map_cons, List.map_nil,
    List.flatMap_cons, List.flatMap_nil, List.append_assoc, List.append_nil]

/-- A text of printable characters and blanks. -/
def writable (text : Str) : Bool := text.all fun c => is_ascii_graphic c || c = ' '

theorem writable_graphic {text : Str} (h : text.all is_ascii_graphic = true) :
    writable text = true :=
  List.all_eq_true.2 fun c hc => by rw [List.all_eq_true.1 h c hc, Bool.true_or]

theorem utf8_writable {text : Str} (h : writable text = true) :
    ∀ b ∈ utf8 text, 0x20 ≤ b ∧ b ≤ 0x7e := by
  intro b hb
  obtain ⟨c, hc, hb⟩ := List.mem_flatMap.1 hb
  have hgraphic := List.all_eq_true.1 h c hc
  have hbounds : 0x20 ≤ c.toNat ∧ c.toNat ≤ 0x7e := by
    simp only [is_ascii_graphic, Bool.or_eq_true, Bool.and_eq_true, decide_eq_true_eq] at hgraphic
    rcases hgraphic with hgraphic | rfl
    · omega
    · decide
  have hcode : String.utf8EncodeChar c = [UInt8.ofNat c.toNat] := by
    have hle : ¬127 < c.toNat := by omega
    simp [String.utf8EncodeChar, hle]
  rw [hcode, List.mem_singleton] at hb
  subst hb
  rw [UInt8.le_iff_toNat_le, UInt8.le_iff_toNat_le, UInt8.toNat_ofNat_of_lt' (by
    show c.toNat < 256
    omega)]
  exact hbounds

theorem graphic_base64 (key : Bytes) : (base64 key).all is_ascii_graphic = true := by
  have hsextet : ∀ n, is_ascii_graphic (sextet n) = true := by
    intro n
    have hall : BASE64.all is_ascii_graphic = true := by decide +kernel
    unfold sextet
    rw [List.getD_eq_getElem?_getD]
    cases hget : BASE64[n % 64]? with
    | none => rfl
    | some c => exact List.all_eq_true.1 hall c (List.mem_of_getElem? hget)
  have hpad : is_ascii_graphic '=' = true := rfl
  induction key using base64.induct with
  | case1 a b c rest ih => simp [base64, hsextet, ih, -List.all_eq_true]
  | case2 a b => simp [base64, hsextet, hpad]
  | case3 a => simp [base64, hsextet, hpad]
  | case4 => rfl

/-- The parts of a line. -/
theorem writable_append {s t : Str} (hs : writable s = true) (ht : writable t = true) :
    writable (s ++ t) = true := by
  rw [writable, List.all_append]
  exact Bool.and_eq_true_iff.2 ⟨hs, ht⟩

theorem writable_request {drawn : Drawn} {uri host : Str} (huri : printable uri = true)
    (hhost : printable host = true) (len : ℕ) :
    ∀ line ∈ request_lines drawn uri host len, writable line = true := by
  have hprintable : ∀ {text : Str}, printable text = true → writable text = true := by
    intro text h
    simp only [printable, Bool.and_eq_true] at h
    exact writable_graphic h.2
  have hdecimal : ∀ n, writable (Str.decimal n) = true := fun n =>
    writable_graphic (graphic_decimal n)
  have hagent : writable (user_agent drawn) = true := by
    refine writable_append (writable_append (by decide) (hdecimal _)) ?_
    exact writable_append (s := ['.']) (by decide) (hdecimal _)
  intro line hline
  simp only [request_lines, List.mem_cons, List.not_mem_nil, or_false] at hline
  rcases hline with rfl | rfl | rfl | rfl | rfl | rfl | rfl
  · exact writable_append (writable_append (by decide) (hprintable huri)) (by decide)
  · exact writable_append (by decide) (hprintable hhost)
  · exact writable_append (by decide) hagent
  · decide
  · decide
  · exact writable_append (by decide) (writable_graphic (graphic_base64 _))
  · exact writable_append (by decide) (hdecimal _)

/-- A request whose head says how long the payload behind it is. -/
structure Requests (uri : Str) (packet payload : Bytes) (lines : List Bytes) : Prop where
  packet : packet = lines.flatMap (· ++ [13, 10]) ++ [13, 10] ++ payload
  line : lines.head? = some (utf8 ("GET ".toList ++ uri ++ " HTTP/1.1".toList))
  clean : ∀ line ∈ lines, line ≠ [] ∧ 13 ∉ line ∧ 10 ∉ line
  length : lines.filter ((utf8 "Content-Length: ".toList).isPrefixOf ·) =
    [utf8 ("Content-Length: ".toList ++ Str.decimal payload.length)]

/-- **The first packet of `obfs=http` is such a request.** -/
theorem requests (drawn : Drawn) {uri host : Str} (huri : printable uri = true)
    (hhost : printable host = true) (payload : Bytes) :
    Requests uri (request_head drawn uri host payload.length ++ payload) payload
      ((request_lines drawn uri host payload.length).map utf8) where
  packet := by rw [request_head_eq]
  line := rfl
  clean line hline := by
    obtain ⟨text, htext, rfl⟩ := List.mem_map.1 hline
    have hbytes := utf8_writable (writable_request huri hhost _ text htext)
    refine ⟨?_, fun h => absurd (hbytes _ h).1 (by decide),
      fun h => absurd (hbytes _ h).1 (by decide)⟩
    simp only [request_lines, List.mem_cons, List.not_mem_nil, or_false] at htext
    rcases htext with rfl | rfl | rfl | rfl | rfl | rfl | rfl <;>
      exact List.cons_ne_nil _ _
  length := by
    simp only [request_lines, List.map_cons, List.map_nil, utf8_append, List.filter_cons,
      List.filter_nil, List.append_assoc]
    rfl

namespace Kind

/-- What the first packet is. -/
def First (drawn : Drawn) (packet payload : Bytes) : Kind → Prop
  | .Http uri _ => (∃ lines, Requests uri packet payload lines) ∧ payload.length ≤ MAX_RECORD
  | .Tls host => packet = hello drawn host payload ∧ packet.length ≤ MAX_RECORD

/-- What a packet after it is. -/
def Later (packet payload : Bytes) : Kind → Prop
  | .Http _ _ => packet = payload
  | .Tls _ => packet = [APPLICATION_DATA, 0x03, 0x03] ++ vec 2 payload ∧
      1 ≤ payload.length ∧ payload.length ≤ MAX_RECORD

theorem first_form {kind : Kind} (h : kind.Writable) (drawn : Drawn) {payload : Bytes}
    (hsize : payload.length ≤ kind.max_first) :
    kind.First drawn (kind.first_packet drawn payload) payload := by
  cases kind with
  | Http uri host => exact ⟨⟨_, requests drawn h.2.1 h.2.2 payload⟩, hsize⟩
  | Tls host =>
    have hfits : HELLO_OVERHEAD + payload.length + (utf8 host).length ≤ MAX_RECORD := by
      have hname := h.2
      have hpayload : payload.length ≤ max_first_payload host := hsize
      unfold MAX_HOST at hname
      unfold max_first_payload at hpayload
      unfold HELLO_OVERHEAD MAX_RECORD at *
      omega
    exact client_hello_eq drawn hfits

theorem later_form {kind : Kind} {payload : Bytes} (hne : payload ≠ [])
    (hsize : kind.is_tls = true → payload.length ≤ MAX_RECORD) :
    kind.Later (kind.packet payload) payload := by
  cases kind with
  | Http uri host => rfl
  | Tls host => exact ⟨rfl, List.length_pos_iff.2 hne, hsize rfl⟩

end Kind

/-- What goes below: the packets of `payloads`, less what of the last one waits, and what they
carry: what was reported, and at most the write that is pending. -/
structure Transparent (kind : Kind) (drawn : Drawn) (s : Writing) (payloads : List Bytes) :
    Prop where
  goes : kind.packets drawn payloads = s.below ++ s.writer.out.drop s.writer.sent
  first : ∀ first ∈ payloads.head?, kind.First drawn (kind.first_packet drawn first) first
  later : ∀ payload ∈ payloads.tail, kind.Later (kind.packet payload) payload
  carried : payloads.flatten = s.reported ++ s.owed
  owed : s.owed <+: s.pending.getD []
  waits : s.pending = none → s.writer.out.drop s.writer.sent = []

/-- **What goes below is what was written**, in any run. -/
theorem writes_spec (client : ObfsClient) (drawn : Drawn) (calls : List Call) :
    ∃ payloads, Transparent client.kind drawn
      (run (Writing.step drawn) (.new client.kind) calls) payloads := by
  obtain ⟨payloads, h⟩ := carries_run client drawn calls
  refine ⟨payloads, h.goes, ?_, ?_, h.carried, List.take_prefix _ _, fun hnone => ?_⟩
  · intro first hfirst
    cases payloads with
    | nil => cases hfirst
    | cons p ps =>
      obtain rfl := Option.some.inj hfirst
      exact Kind.first_form client.writable drawn h.sized.1.2
  · intro payload hpayload
    cases payloads with
    | nil => cases hpayload
    | cons p ps =>
      obtain ⟨hne, hsize⟩ := h.sized.2 payload hpayload
      exact Kind.later_form hne hsize
  · have hzero : (run (Writing.step drawn) (.new client.kind) calls).writer.accepted = 0 := by
      simpa [hnone] using h.accepted
    rw [h.out hzero, List.drop_nil]

end SimpleObfs

end Rurge
