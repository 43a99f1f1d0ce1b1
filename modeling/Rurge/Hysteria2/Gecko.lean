import Rurge.Config.Session
import Rurge.Lib.BigEndian
import Rurge.Lib.Parts

/-!
# Salamander and Gecko

Salamander seals a packet under a key of its own, drawn by a salt that goes in front.  Gecko sends a
packet with a long header in fragments, each a frame sealed apart, and puts them together again by
source and message.  What is drawn at random is an argument.
-/

namespace Rurge

namespace Obfs

open BigEndian

abbrev Bytes := List UInt8

/-! ### Salamander -/

/-- The salt in front of every packet. -/
def SALT : ℕ := 8
/-- What the key repeats over. -/
def KEY : ℕ := 32

/-- A salt that was drawn. -/
abbrev Salt := {salt : Bytes // salt.length = SALT}

/-- Salamander keyed with a password: the key of the packets salted with a salt. -/
structure Salamander where
  key : Bytes → Fin KEY → UInt8

/-- XORs `key`, over and over, onto `bytes`. -/
def mask (bytes : Bytes) (key : Fin KEY → UInt8) : Bytes :=
  bytes.mapIdx fun i byte => byte ^^^ key ⟨i % KEY, Nat.mod_lt _ (by decide)⟩

namespace Salamander

variable (salamander : Salamander)

/-- `datagram`, room for the salt and then the payload, sealed under `salt`. -/
def seal_ (salt : Salt) (datagram : Bytes) : Bytes :=
  salt.1 ++ mask (datagram.drop SALT) (salamander.key salt.1)

/-- The payload of a sealed `datagram`; nothing for one that holds no more than a salt. -/
def open_ (datagram : Bytes) : Option Bytes :=
  if datagram.length ≤ SALT then none
  else some (mask (datagram.drop SALT) (salamander.key (datagram.take SALT)))

end Salamander

theorem mask_mask (bytes : Bytes) (key : Fin KEY → UInt8) : mask (mask bytes key) key = bytes := by
  apply List.ext_getElem
  · simp [mask]
  · intro i hi hi'
    simp [mask]

@[simp] theorem length_mask (bytes : Bytes) (key : Fin KEY → UInt8) :
    (mask bytes key).length = bytes.length := by
  simp [mask]

/-- **Salamander opens what it sealed.** -/
theorem Salamander.open_sealed (salamander : Salamander) (salt : Salt) {payload : Bytes}
    (h : payload ≠ []) :
    salamander.open_ (salamander.seal_ salt (List.replicate SALT 0 ++ payload)) = some payload := by
  have hpos := List.length_pos_iff.2 h
  have hdrop : (List.replicate SALT 0 ++ payload).drop SALT = payload :=
    List.drop_left' List.length_replicate
  rw [seal_, hdrop, open_, if_neg (by rw [List.length_append, length_mask, salt.2]; omega),
    List.drop_left' salt.2, List.take_left' salt.2, mask_mask]

/-! ### Frames -/

/-- The top bit of the first byte: a QUIC packet's long header, or a frame. -/
def TOP : UInt8 := 0x80
/-- `0x80 ‖ message ‖ index << 4 | count ‖ u16 padding`. -/
def HEADER : ℕ := 5
def MIN_FRAGMENTS : UInt8 := 2
def MAX_FRAGMENTS : UInt8 := 8
/-- What a fragment's datagram is padded to, its salt included: at least, and at most. -/
def MIN_SIZE : ℕ := 512
def MAX_SIZE : ℕ := 1200

/-- Whether `packet` has a long header: one of QUIC's handshake. -/
def is_long_header (packet : Bytes) : Bool := packet.head?.any fun first => first &&& TOP ≠ 0

/-- What a random source came to, below `n`; 0 without one. -/
def below (random : Option UInt32) (n : ℕ) : ℕ := random.elim 0 fun random => random.toNat % n

/-- How many fragments a long-header packet goes in. -/
def fragment_count (random : Option UInt32) : UInt8 :=
  MIN_FRAGMENTS + .ofNat (below random ((MAX_FRAGMENTS - MIN_FRAGMENTS).toNat + 1))

/-- What is drawn for a fragment: its size, its padding and its salt. -/
structure Draw where
  size : Option UInt32
  fill : ℕ → UInt8
  salt : Salt

/-- How long the padding of a chunk of `len` bytes is. -/
def padding (random : Option UInt32) (len : ℕ) : ℕ :=
  let bare := SALT + HEADER + len
  let least := max bare MIN_SIZE
  if MAX_SIZE < least then 0 else least - bare + below random (MAX_SIZE - least + 1)

/-- The part of `packet` that is its fragment `index` of `count`. -/
def chunk (packet : Bytes) (count index : ℕ) : Bytes :=
  let size := packet.length / count
  let start := index * size
  let end_ := if index + 1 = count then packet.length else start + size
  (packet.take end_).drop start

/-- The frame of a chunk, padded. -/
def frame (draw : Draw) (message count index : UInt8) (chunk : Bytes) : Bytes :=
  let padding := padding draw.size chunk.length
  [TOP, message, index <<< 4 ||| count] ++ (u16 (.ofNat padding) ++
    ((List.range padding).map draw.fill ++ chunk))

/-- The datagrams of `packet`, a long-header one, in `count` fragments of message `message`. -/
def fragments (salamander : Salamander) (draws : ℕ → Draw) (packet : Bytes)
    (count message : UInt8) : List Bytes :=
  (List.range count.toNat).map fun index =>
    salamander.seal_ (draws index).salt (List.replicate SALT 0 ++
      frame (draws index) message count (.ofNat index) (chunk packet count.toNat index))

/-- A frame as it came: 2 to 8 fragments, the index below the count. -/
structure Frame where
  message : UInt8
  index : UInt8
  count : UInt8
  chunk : Bytes
  count_ok : MIN_FRAGMENTS ≤ count ∧ count ≤ MAX_FRAGMENTS
  index_ok : index < count

/-- The frame `bytes` hold, if they break no rule. -/
def parse (bytes : Bytes) : Option Frame :=
  match bytes with
  | first :: message :: numbers :: high :: low :: _ =>
    let index := numbers >>> 4
    let count := numbers &&& 0x0f
    if first &&& TOP = 0 then none
    else if h : MIN_FRAGMENTS ≤ count ∧ count ≤ MAX_FRAGMENTS then
      if hi : index < count then
        let padding := (from_u16 [high, low]).toNat
        if HEADER + padding ≤ bytes.length then
          some ⟨message, index, count, bytes.drop (HEADER + padding), h, hi⟩
        else none
      else none
    else none
  | _ => none

/-! ### A frame is read back -/

theorem below_lt (random : Option UInt32) {n : ℕ} (h : 0 < n) : below random n < n := by
  cases random with
  | none => exact h
  | some random => exact Nat.mod_lt _ h

theorem padding_lt (random : Option UInt32) (len : ℕ) : padding random len < 2 ^ 16 := by
  unfold padding
  dsimp only
  split
  · norm_num
  case isFalse h =>
    have hbelow := @below_lt random (MAX_SIZE - max (SALT + HEADER + len) MIN_SIZE + 1) (by omega)
    have hmax : MAX_SIZE = 1200 := rfl
    omega

/-- The numbers of a fragment in one byte. -/
theorem numbers_read {index count : UInt8} (hcount : count ≤ MAX_FRAGMENTS) (h : index < count) :
    (index <<< 4 ||| count) >>> 4 = index ∧ (index <<< 4 ||| count) &&& 0x0f = count := by
  have hall : ∀ n < 9, ∀ m < n, ((UInt8.ofNat m <<< 4 ||| .ofNat n) >>> 4 = UInt8.ofNat m) ∧
      ((UInt8.ofNat m <<< 4 ||| .ofNat n) &&& 0x0f = UInt8.ofNat n) := by decide +kernel
  have hn : count.toNat < 9 := Nat.lt_succ_of_le hcount
  simpa using hall count.toNat hn index.toNat h

/-- **A frame is read back as it was made.** -/
theorem parse_frame (draw : Draw) (message : UInt8) {count index : UInt8} (chunk : Bytes)
    (hcount : MIN_FRAGMENTS ≤ count ∧ count ≤ MAX_FRAGMENTS) (hindex : index < count) :
    parse (frame draw message count index chunk) =
      some ⟨message, index, count, chunk, hcount, hindex⟩ := by
  obtain ⟨hread, hread'⟩ := numbers_read hcount.2 hindex
  set n := padding draw.size chunk.length with hn
  obtain ⟨high, low, hu16⟩ : ∃ high low, u16 (.ofNat n) = [high, low] :=
    List.length_eq_two.1 (length_u16 _)
  have hpadding : (from_u16 [high, low]).toNat = n := by
    rw [← hu16, from_u16_u16, UInt16.toNat_ofNat_of_lt' (padding_lt draw.size chunk.length)]
  have hframe : frame draw message count index chunk =
      TOP :: message :: (index <<< 4 ||| count) :: high :: low ::
        ((List.range n).map draw.fill ++ chunk) := by
    simp [frame, ← hn, hu16]
  have hdrop : (frame draw message count index chunk).drop (HEADER + n) = chunk := by
    rw [hframe, HEADER, Nat.add_comm, List.drop_succ_cons, List.drop_succ_cons,
      List.drop_succ_cons, List.drop_succ_cons, List.drop_succ_cons,
      List.drop_left' (by simp)]
  have hlength : HEADER + n ≤ (frame draw message count index chunk).length := by
    rw [hframe]
    simp only [List.length_cons, List.length_append, List.length_map, List.length_range, HEADER]
    omega
  have htop : ¬ TOP &&& TOP = 0 := by decide
  rw [hframe] at hdrop hlength ⊢
  simp only [parse, hread, hread', if_neg htop, dif_pos hcount, dif_pos hindex, hpadding,
    if_pos hlength, hdrop]

theorem is_long_header_frame (draw : Draw) (message count index : UInt8) (chunk : Bytes) :
    is_long_header (frame draw message count index chunk) = true := rfl

/-! ### The chunks of a packet -/

/-- The parts of `packet` that are its fragments. -/
def pieces (packet : Bytes) (count : ℕ) : List Bytes := (List.range count).map (chunk packet count)

@[simp] theorem length_pieces (packet : Bytes) (count : ℕ) :
    (pieces packet count).length = count := by
  simp [pieces]

theorem getElem?_pieces {packet : Bytes} {count index : ℕ} (h : index < count) :
    (pieces packet count)[index]? = some (chunk packet count index) := by
  rw [pieces, List.getElem?_map, List.getElem?_range h]
  rfl

/-- Where a chunk begins and ends, it is within the packet. -/
theorem chunk_within (packet : Bytes) {count index : ℕ} (h : index < count) :
    let size := packet.length / count
    let end_ := if index + 1 = count then packet.length else index * size + size
    index * size ≤ end_ ∧ end_ ≤ packet.length := by
  have hall : count * (packet.length / count) ≤ packet.length := Nat.mul_div_le _ _
  have hnext : (index + 1) * (packet.length / count) ≤ count * (packet.length / count) :=
    Nat.mul_le_mul_right _ h
  rw [Nat.succ_mul] at hnext
  dsimp only
  generalize packet.length / count = size at *
  split <;> omega

/-- **The chunks one after another are the packet.** -/
theorem flatten_pieces (packet : Bytes) {count : ℕ} (h : 0 < count) :
    (pieces packet count).flatten = packet := by
  have hbefore : ∀ k < count, ((List.range k).map (chunk packet count)).flatten =
      packet.take (k * (packet.length / count)) := by
    intro k hk
    induction k with
    | zero => simp
    | succ k ih =>
      have hmiddle : chunk packet count k =
          (packet.take ((k + 1) * (packet.length / count))).drop (k * (packet.length / count)) := by
        rw [chunk, if_neg (by omega), Nat.succ_mul]
      have hprefix : packet.take (k * (packet.length / count)) =
          (packet.take ((k + 1) * (packet.length / count))).take (k * (packet.length / count)) := by
        rw [List.take_take, min_eq_left (Nat.mul_le_mul_right _ (Nat.le_succ k))]
      rw [List.range_succ, List.map_append, List.flatten_append, ih (by omega), List.map_singleton,
        List.flatten_singleton, hmiddle, hprefix, List.take_append_drop]
  obtain ⟨k, rfl⟩ : ∃ k, count = k + 1 := ⟨count - 1, by omega⟩
  have hlast : chunk packet (k + 1) k = packet.drop (k * (packet.length / (k + 1))) := by
    rw [chunk, if_pos rfl, List.take_length]
  rw [pieces, List.range_succ, List.map_append, List.flatten_append, hbefore k (by omega),
    List.map_singleton, List.flatten_singleton, hlast, List.take_append_drop]

/-! ### Putting together -/

/-- Packets put together at a time. -/
def PENDING : ℕ := 8
/-- How long the fragments of a packet wait for the rest, in nanoseconds. -/
def TTL : ℕ := 8 * 10 ^ 9

/-- A packet being put together: its chunks so far, by index. -/
structure Pending where
  source : SocketAddr
  message : UInt8
  chunks : List (Option Bytes)
  missing : ℕ
  since : ℕ

/-- The fragments that wait for the rest of their packet, the oldest packet first. -/
abbrev Reassembly := List Pending

namespace Reassembly

/-- What has not waited for too long. -/
def retain (now : ℕ) (r : Reassembly) : Reassembly :=
  r.filter fun pending => now - pending.since < TTL

def position (source : SocketAddr) (message : UInt8) (r : Reassembly) : Option ℕ :=
  r.findIdx? fun pending => pending.source = source && pending.message = message

/-- A packet begun with a fragment of `count`: one more than there is room for drops the oldest. -/
def begun (now : ℕ) (source : SocketAddr) (frame : Frame) (r : Reassembly) : Reassembly :=
  (if r.length = PENDING then r.eraseIdx 0 else r) ++
    [⟨source, frame.message, List.replicate frame.count.toNat none, frame.count.toNat, now⟩]

/-- A fragment put in its place in the packet at `at_`. -/
def take_in (frame : Frame) (r : Reassembly) (at_ : ℕ) : Reassembly × Option Bytes :=
  match r[at_]? with
  | none => (r, none)
  | some pending =>
    if h : pending.chunks.length = frame.count.toNat then
      have hlt : frame.index.toNat < pending.chunks.length := by
        rw [h]
        exact frame.index_ok
      if (pending.chunks[frame.index.toNat]).isSome then (r, none)
      else
        let chunks := pending.chunks.set frame.index.toNat (some frame.chunk)
        let missing := pending.missing - 1
        if 0 < missing then (r.set at_ { pending with chunks := chunks, missing := missing }, none)
        else (r.eraseIdx at_, some (Parts.whole chunks))
    else (r, none)

/-- The packet that `frame`, come from `source` at `now`, makes whole. -/
def feed (now : ℕ) (source : SocketAddr) (frame : Frame) (r : Reassembly) :
    Reassembly × Option Bytes :=
  let r := retain now r
  match position source frame.message r with
  | some at_ => take_in frame r at_
  | none =>
    let r := begun now source frame r
    take_in frame r (r.length - 1)

end Reassembly

end Obfs

end Rurge
