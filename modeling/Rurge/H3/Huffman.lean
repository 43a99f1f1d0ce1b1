import Mathlib

/-!
# The Huffman code of header strings

The code as its list of codes, the tables the decoder walks (`canonical`), and the decoder, bit by
bit.  What it takes is exactly the codes of octets one after the other, filled up with at most
seven ones.
-/

namespace Rurge

namespace H3

namespace Huffman

/-- The code of each octet and then of EOS, as its value and its length in bits. -/
def CODES : List (ℕ × ℕ) :=
  [(0x1ff8, 13), (0x7fffd8, 23), (0xfffffe2, 28), (0xfffffe3, 28), (0xfffffe4, 28),
   (0xfffffe5, 28), (0xfffffe6, 28), (0xfffffe7, 28), (0xfffffe8, 28), (0xffffea, 24),
   (0x3ffffffc, 30), (0xfffffe9, 28), (0xfffffea, 28), (0x3ffffffd, 30), (0xfffffeb, 28),
   (0xfffffec, 28), (0xfffffed, 28), (0xfffffee, 28), (0xfffffef, 28), (0xffffff0, 28),
   (0xffffff1, 28), (0xffffff2, 28), (0x3ffffffe, 30), (0xffffff3, 28), (0xffffff4, 28),
   (0xffffff5, 28), (0xffffff6, 28), (0xffffff7, 28), (0xffffff8, 28), (0xffffff9, 28),
   (0xffffffa, 28), (0xffffffb, 28), (0x14, 6), (0x3f8, 10), (0x3f9, 10), (0xffa, 12),
   (0x1ff9, 13), (0x15, 6), (0xf8, 8), (0x7fa, 11), (0x3fa, 10), (0x3fb, 10), (0xf9, 8),
   (0x7fb, 11), (0xfa, 8), (0x16, 6), (0x17, 6), (0x18, 6), (0x0, 5), (0x1, 5), (0x2, 5),
   (0x19, 6), (0x1a, 6), (0x1b, 6), (0x1c, 6), (0x1d, 6), (0x1e, 6), (0x1f, 6), (0x5c, 7),
   (0xfb, 8), (0x7ffc, 15), (0x20, 6), (0xffb, 12), (0x3fc, 10), (0x1ffa, 13), (0x21, 6),
   (0x5d, 7), (0x5e, 7), (0x5f, 7), (0x60, 7), (0x61, 7), (0x62, 7), (0x63, 7), (0x64, 7),
   (0x65, 7), (0x66, 7), (0x67, 7), (0x68, 7), (0x69, 7), (0x6a, 7), (0x6b, 7), (0x6c, 7),
   (0x6d, 7), (0x6e, 7), (0x6f, 7), (0x70, 7), (0x71, 7), (0x72, 7), (0xfc, 8), (0x73, 7),
   (0xfd, 8), (0x1ffb, 13), (0x7fff0, 19), (0x1ffc, 13), (0x3ffc, 14), (0x22, 6), (0x7ffd, 15),
   (0x3, 5), (0x23, 6), (0x4, 5), (0x24, 6), (0x5, 5), (0x25, 6), (0x26, 6), (0x27, 6), (0x6, 5),
   (0x74, 7), (0x75, 7), (0x28, 6), (0x29, 6), (0x2a, 6), (0x7, 5), (0x2b, 6), (0x76, 7),
   (0x2c, 6), (0x8, 5), (0x9, 5), (0x2d, 6), (0x77, 7), (0x78, 7), (0x79, 7), (0x7a, 7),
   (0x7b, 7), (0x7ffe, 15), (0x7fc, 11), (0x3ffd, 14), (0x1ffd, 13), (0xffffffc, 28),
   (0xfffe6, 20), (0x3fffd2, 22), (0xfffe7, 20), (0xfffe8, 20), (0x3fffd3, 22), (0x3fffd4, 22),
   (0x3fffd5, 22), (0x7fffd9, 23), (0x3fffd6, 22), (0x7fffda, 23), (0x7fffdb, 23), (0x7fffdc, 23),
   (0x7fffdd, 23), (0x7fffde, 23), (0xffffeb, 24), (0x7fffdf, 23), (0xffffec, 24), (0xffffed, 24),
   (0x3fffd7, 22), (0x7fffe0, 23), (0xffffee, 24), (0x7fffe1, 23), (0x7fffe2, 23), (0x7fffe3, 23),
   (0x7fffe4, 23), (0x1fffdc, 21), (0x3fffd8, 22), (0x7fffe5, 23), (0x3fffd9, 22), (0x7fffe6, 23),
   (0x7fffe7, 23), (0xffffef, 24), (0x3fffda, 22), (0x1fffdd, 21), (0xfffe9, 20), (0x3fffdb, 22),
   (0x3fffdc, 22), (0x7fffe8, 23), (0x7fffe9, 23), (0x1fffde, 21), (0x7fffea, 23), (0x3fffdd, 22),
   (0x3fffde, 22), (0xfffff0, 24), (0x1fffdf, 21), (0x3fffdf, 22), (0x7fffeb, 23), (0x7fffec, 23),
   (0x1fffe0, 21), (0x1fffe1, 21), (0x3fffe0, 22), (0x1fffe2, 21), (0x7fffed, 23), (0x3fffe1, 22),
   (0x7fffee, 23), (0x7fffef, 23), (0xfffea, 20), (0x3fffe2, 22), (0x3fffe3, 22), (0x3fffe4, 22),
   (0x7ffff0, 23), (0x3fffe5, 22), (0x3fffe6, 22), (0x7ffff1, 23), (0x3ffffe0, 26),
   (0x3ffffe1, 26), (0xfffeb, 20), (0x7fff1, 19), (0x3fffe7, 22), (0x7ffff2, 23), (0x3fffe8, 22),
   (0x1ffffec, 25), (0x3ffffe2, 26), (0x3ffffe3, 26), (0x3ffffe4, 26), (0x7ffffde, 27),
   (0x7ffffdf, 27), (0x3ffffe5, 26), (0xfffff1, 24), (0x1ffffed, 25), (0x7fff2, 19),
   (0x1fffe3, 21), (0x3ffffe6, 26), (0x7ffffe0, 27), (0x7ffffe1, 27), (0x3ffffe7, 26),
   (0x7ffffe2, 27), (0xfffff2, 24), (0x1fffe4, 21), (0x1fffe5, 21), (0x3ffffe8, 26),
   (0x3ffffe9, 26), (0xffffffd, 28), (0x7ffffe3, 27), (0x7ffffe4, 27), (0x7ffffe5, 27),
   (0xfffec, 20), (0xfffff3, 24), (0xfffed, 20), (0x1fffe6, 21), (0x3fffe9, 22), (0x1fffe7, 21),
   (0x1fffe8, 21), (0x7ffff3, 23), (0x3fffea, 22), (0x3fffeb, 22), (0x1ffffee, 25),
   (0x1ffffef, 25), (0xfffff4, 24), (0xfffff5, 24), (0x3ffffea, 26), (0x7ffff4, 23),
   (0x3ffffeb, 26), (0x7ffffe6, 27), (0x3ffffec, 26), (0x3ffffed, 26), (0x7ffffe7, 27),
   (0x7ffffe8, 27), (0x7ffffe9, 27), (0x7ffffea, 27), (0x7ffffeb, 27), (0xffffffe, 28),
   (0x7ffffec, 27), (0x7ffffed, 27), (0x7ffffee, 27), (0x7ffffef, 27), (0x7fffff0, 27),
   (0x3ffffee, 26), (0x3fffffff, 30)]

/-- The longest code. -/
def LONGEST : ℕ := 30

/-- The canonical code as decoding walks it: for each length the first code of that length, how
many codes have it, and where their symbols start in `symbols`. -/
structure Canonical where
  first : List ℕ
  count : List ℕ
  start : List ℕ
  symbols : List ℕ
  deriving DecidableEq

/-- How many codes there are of each length. -/
def counts : List ℕ :=
  CODES.foldl (fun count code => count.modify code.2 (· + 1)) (List.replicate (LONGEST + 1) 0)

/-- The first code of each length, and where the symbols of that length start. -/
def starts : List ℕ × List ℕ :=
  let none_yet := List.replicate (LONGEST + 1) 0
  let (_, _, first, start) := (List.range' 1 LONGEST).foldl
    (fun (code, at_, first, start) len =>
      let code := (code + counts.getD (len - 1) 0) <<< 1
      (code, at_ + counts.getD len 0, first.set len code, start.set len at_))
    (0, 0, none_yet, none_yet)
  (first, start)

/-- Every symbol, by length and then octet. -/
def sorted : List ℕ :=
  (CODES.zipIdx.foldl
    (fun (symbols, next) (code, symbol) =>
      (symbols.set (next.getD code.2 0) symbol, next.modify code.2 (· + 1)))
    (List.replicate 257 0, starts.2)).1

/-- The tables, from the codes. -/
@[irreducible] def canonical : Canonical := ⟨starts.1, counts, starts.2, sorted⟩

/-! ### Decoding -/

/-- `u32::wrapping_sub`. -/
def wrapping_sub (a b : ℕ) : ℕ := if b ≤ a then a - b else 2 ^ 32 - (b - a)

/-- The symbol whose code the `len` bits of `code` are, by the tables. -/
def symbol_at (tables : Canonical) (code len : ℕ) : Option ℕ :=
  let at_ := wrapping_sub code (tables.first.getD len 0)
  if at_ < tables.count.getD len 0 then
    some (tables.symbols.getD (tables.start.getD len 0 + at_) 0)
  else none

/-- The octets decoded so far, and the bits of a code not yet complete. -/
structure Reading where
  out : List UInt8
  code : ℕ
  len : ℕ

/-- One more bit; nothing for EOS, which is not data, and for no code. -/
def push_bit (r : Reading) (bit : Bool) : Option Reading :=
  let code := r.code <<< 1 ||| bit.toNat
  let len := r.len + 1
  match symbol_at canonical code len with
  | some symbol => if symbol < 256 then some ⟨r.out ++ [.ofNat symbol], 0, 0⟩ else none
  | none => if len = LONGEST then none else some ⟨r.out, code, len⟩

/-- One more byte, the highest bit first. -/
def push_byte (r : Reading) (byte : UInt8) : Option Reading :=
  [7, 6, 5, 4, 3, 2, 1, 0].foldlM (fun r bit => push_bit r (byte.toNat.testBit bit)) r

/-- `src` decoded; nothing for what no encoder makes. -/
def decode (src : List UInt8) : Option (List UInt8) :=
  (src.foldlM push_byte ⟨[], 0, 0⟩).bind fun r =>
    if r.len ≤ 7 ∧ r.code = 1 <<< r.len - 1 then some r.out else none

/-! ### The tables -/

/-- The tables as they come out. -/
theorem canonical_eq : canonical =
    ⟨[0, 0, 0, 0, 0, 0, 20, 92, 248, 508, 1016, 2042, 4090, 8184, 16380, 32764, 65534, 131068,
       262136, 524272, 1048550, 2097116, 4194258, 8388568, 16777194, 33554412, 67108832, 134217694,
       268435426, 536870910, 1073741820],
      [0, 0, 0, 0, 0, 10, 26, 32, 6, 0, 5, 3, 2, 6, 2, 3, 0, 0, 0, 3, 8, 13, 26, 29, 12, 4, 15, 19,
       29, 0, 4],
      [0, 0, 0, 0, 0, 0, 10, 36, 68, 74, 74, 79, 82, 84, 90, 92, 95, 95, 95, 95, 98, 106, 119, 145,
       174, 186, 190, 205, 224, 253, 253],
      [48, 49, 50, 97, 99, 101, 105, 111, 115, 116, 32, 37, 45, 46, 47, 51, 52, 53, 54, 55, 56, 57,
       61, 65, 95, 98, 100, 102, 103, 104, 108, 109, 110, 112, 114, 117, 58, 66, 67, 68, 69, 70,
       71, 72, 73, 74, 75, 76, 77, 78, 79, 80, 81, 82, 83, 84, 85, 86, 87, 89, 106, 107, 113, 118,
       119, 120, 121, 122, 38, 42, 44, 59, 88, 90, 33, 34, 40, 41, 63, 39, 43, 124, 35, 62, 0, 36,
       64, 91, 93, 126, 94, 125, 60, 96, 123, 92, 195, 208, 128, 130, 131, 162, 184, 194, 224, 226,
       153, 161, 167, 172, 176, 177, 179, 209, 216, 217, 227, 229, 230, 129, 132, 133, 134, 136,
       146, 154, 156, 160, 163, 164, 169, 170, 173, 178, 181, 185, 186, 187, 189, 190, 196, 198,
       228, 232, 233, 1, 135, 137, 138, 139, 140, 141, 143, 147, 149, 150, 151, 152, 155, 157, 158,
       165, 166, 168, 174, 175, 180, 182, 183, 188, 191, 197, 231, 239, 9, 142, 144, 145, 148, 159,
       171, 206, 215, 225, 236, 237, 199, 207, 234, 235, 192, 193, 200, 201, 202, 205, 210, 213,
       218, 219, 238, 240, 242, 243, 255, 203, 204, 211, 212, 214, 221, 222, 223, 241, 244, 245,
       246, 247, 248, 250, 251, 252, 253, 254, 2, 3, 4, 5, 6, 7, 8, 11, 12, 14, 15, 16, 17, 18, 19,
       20, 21, 23, 24, 25, 26, 27, 28, 29, 30, 31, 127, 220, 249, 10, 13, 22, 256]⟩ := by
  decide +kernel

/-- The code of a symbol: its value and its length. -/
@[irreducible] def code_of (symbol : ℕ) : ℕ × ℕ := CODES.getD symbol (0, 0)

/-- Every code is found by its bits, and by no fewer of them. -/
theorem codes_found : ∀ symbol < 257, 0 < (code_of symbol).2 ∧ (code_of symbol).2 ≤ LONGEST ∧
    (code_of symbol).1 < 2 ^ (code_of symbol).2 ∧
    symbol_at canonical (code_of symbol).1 (code_of symbol).2 = some symbol ∧
    ∀ n < (code_of symbol).2,
      symbol_at canonical ((code_of symbol).1 >>> ((code_of symbol).2 - n)) n = none := by
  rw [canonical_eq]
  decide +kernel

/-- What stands in the tables are the codes. -/
theorem tables_coded : ∀ len < 31, canonical.first.getD len 0 ≤ 2 ^ 30 ∧
    canonical.count.getD len 0 ≤ 257 ∧ ∀ k < canonical.count.getD len 0,
      canonical.symbols.getD (canonical.start.getD len 0 + k) 0 < 257 ∧
      code_of (canonical.symbols.getD (canonical.start.getD len 0 + k) 0) =
        (canonical.first.getD len 0 + k, len) := by
  rw [canonical_eq]
  decide +kernel

/-- No code is of ones alone as far as padding goes. -/
theorem padding_is_no_code : ∀ n ≤ 7, symbol_at canonical (2 ^ n - 1) n = none := by
  rw [canonical_eq]
  decide +kernel

/-- Only a symbol's own bits find it. -/
theorem code_of_symbol_at {code len symbol : ℕ} (hcode : code < 2 ^ 31) (hlen : len < 31)
    (h : symbol_at canonical code len = some symbol) :
    symbol < 257 ∧ code_of symbol = (code, len) := by
  obtain ⟨hfirst, hcount, hcoded⟩ := tables_coded len hlen
  unfold symbol_at at h
  simp only at h
  split_ifs at h with hat
  obtain rfl := Option.some.inj h
  obtain ⟨hlt, hown⟩ := hcoded _ hat
  have hvalue : canonical.first.getD len 0 +
      wrapping_sub code (canonical.first.getD len 0) = code := by
    unfold wrapping_sub at hat ⊢
    split_ifs at hat ⊢ <;> omega
  rw [hvalue] at hown
  exact ⟨hlt, hown⟩

/-! ### Bits -/

/-- The lowest `n` bits of a number, the highest first. -/
def bits : ℕ → ℕ → List Bool
  | 0, _ => []
  | n + 1, code => bits n (code >>> 1) ++ [code.testBit 0]

@[simp] theorem length_bits (n code : ℕ) : (bits n code).length = n := by
  induction n generalizing code with
  | zero => rfl
  | succ n ih => rw [bits, List.length_append, ih, List.length_singleton]

theorem push_code (code : ℕ) (bit : Bool) :
    (code <<< 1 ||| bit.toNat) >>> 1 = code ∧ (code <<< 1 ||| bit.toNat).testBit 0 = bit := by
  constructor
  · cases bit <;> simp [Nat.shiftRight_or_distrib, Nat.shiftLeft_shiftRight]
  · cases bit <;> simp

theorem pushed_code (code : ℕ) : (code >>> 1) <<< 1 ||| (code.testBit 0).toNat = code := by
  have hbit : (code.testBit 0).toNat = code % 2 := by
    rw [Nat.testBit_zero]
    rcases Nat.mod_two_eq_zero_or_one code with h | h <;> simp [h]
  rw [← Nat.shiftLeft_add_eq_or_of_lt (by rw [hbit]; omega), hbit, Nat.shiftLeft_eq,
    Nat.shiftRight_eq_div_pow]
  omega

/-- The bits of a byte string. -/
def bits_of (src : List UInt8) : List Bool := src.flatMap fun byte => bits 8 byte.toNat

/-- The code of a symbol, bit by bit. -/
def code_bits (symbol : ℕ) : List Bool := bits (code_of symbol).2 (code_of symbol).1

/-- The codes of octets, one after the other. -/
def codes (out : List UInt8) : List Bool := out.flatMap fun octet => code_bits octet.toNat

theorem decode_eq (src : List UInt8) :
    decode src = ((bits_of src).foldlM push_bit ⟨[], 0, 0⟩).bind fun r =>
      if r.len ≤ 7 ∧ r.code = 1 <<< r.len - 1 then some r.out else none := by
  have hbyte : ∀ r byte, push_byte r byte = (bits 8 byte.toNat).foldlM push_bit r := by
    intro r byte
    simp [push_byte, bits, ← Nat.shiftRight_add]
  have hall : ∀ r, src.foldlM push_byte r = (bits_of src).foldlM push_bit r := by
    induction src with
    | nil => exact fun r => rfl
    | cons byte src ih =>
      intro r
      rw [List.foldlM_cons, bits_of, List.flatMap_cons, List.foldlM_append, hbyte]
      exact congrArg _ (funext ih)
  rw [decode, hall]

/-! ### What is read -/

/-- What a reading has read so far. -/
def Reading.read (r : Reading) : List Bool := codes r.out ++ bits r.len r.code

/-- A reading within a code. -/
structure Reading.Within (r : Reading) : Prop where
  len_lt : r.len < LONGEST
  code_lt : r.code < 2 ^ r.len

theorem codes_concat (out : List UInt8) (octet : UInt8) :
    codes (out ++ [octet]) = codes out ++ code_bits octet.toNat := by
  rw [codes, List.flatMap_append, List.flatMap_singleton]
  rfl

/-- One bit is read, and nothing else. -/
theorem push_bit_read {r r' : Reading} {bit : Bool} (hr : r.Within) (h : push_bit r bit = some r') :
    r'.read = r.read ++ [bit] ∧ r'.Within := by
  have hlen : r.len < 30 := hr.len_lt
  have hbits : bits (r.len + 1) (r.code <<< 1 ||| bit.toNat) = bits r.len r.code ++ [bit] := by
    rw [bits, (push_code r.code bit).1, (push_code r.code bit).2]
  have hcode : r.code <<< 1 ||| bit.toNat < 2 ^ (r.len + 1) := by
    have := hr.code_lt
    refine Nat.or_lt_two_pow ?_ ?_
    · rw [Nat.shiftLeft_eq, pow_succ]
      omega
    · exact (Bool.toNat_lt bit).trans_le (Nat.le_self_pow (by omega) 2)
  cases hfound : symbol_at canonical (r.code <<< 1 ||| bit.toNat) (r.len + 1) with
  | some symbol =>
    simp only [push_bit, hfound] at h
    split_ifs at h with hoctet
    obtain rfl := Option.some.inj h
    have hle : 2 ^ (r.len + 1) ≤ 2 ^ 31 := pow_le_pow_right₀ (by norm_num) (by omega)
    have hsmall : r.code <<< 1 ||| bit.toNat < 2 ^ 31 := hcode.trans_le hle
    obtain ⟨-, hown⟩ := code_of_symbol_at hsmall (by omega) hfound
    refine ⟨?_, show 0 < 30 by decide, show 0 < 2 ^ 0 by decide⟩
    have hsymbol : (UInt8.ofNat symbol).toNat = symbol := UInt8.toNat_ofNat_of_lt' hoctet
    rw [Reading.read, Reading.read, codes_concat, hsymbol, code_bits, hown, hbits, bits,
      List.append_nil, List.append_assoc]
  | none =>
    simp only [push_bit, hfound] at h
    split_ifs at h with hlongest
    obtain rfl := Option.some.inj h
    refine ⟨?_, ?_, hcode⟩
    · rw [Reading.read, Reading.read, hbits, List.append_assoc]
    · show r.len + 1 < 30
      have : r.len + 1 ≠ 30 := hlongest
      omega

theorem push_bits_read {r r' : Reading} {bs : List Bool} (hr : r.Within)
    (h : bs.foldlM push_bit r = some r') : r'.read = r.read ++ bs ∧ r'.Within := by
  induction bs generalizing r with
  | nil =>
    obtain rfl := Option.some.inj h
    exact ⟨(List.append_nil _).symm, hr⟩
  | cons bit bs ih =>
    rw [List.foldlM_cons] at h
    obtain ⟨r₁, hstep, hrest⟩ := Option.bind_eq_some_iff.1 h
    obtain ⟨hread, hwithin⟩ := push_bit_read hr hstep
    obtain ⟨hread', hwithin'⟩ := ih hwithin hrest
    exact ⟨by rw [hread', hread, List.append_assoc, List.singleton_append], hwithin'⟩

/-- Bits that begin no code are kept. -/
theorem push_bits_kept {out : List UInt8} {code n : ℕ} (hn : n < LONGEST)
    (h : ∀ k, 0 < k → k ≤ n → symbol_at canonical (code >>> (n - k)) k = none)
    (hcode : code < 2 ^ n) :
    (bits n code).foldlM push_bit ⟨out, 0, 0⟩ = some ⟨out, code, n⟩ := by
  induction n generalizing code with
  | zero =>
    obtain rfl : code = 0 := by omega
    rfl
  | succ n ih =>
    have hhalf : code >>> 1 < 2 ^ n := by
      rw [Nat.shiftRight_eq_div_pow]
      omega
    have hkept := @ih (code >>> 1) (by omega) (fun k hk hkn => by
      have := h k hk (by omega)
      rwa [← Nat.shiftRight_add, show 1 + (n - k) = n + 1 - k by omega]) hhalf
    have hlast := h (n + 1) (by omega) le_rfl
    rw [Nat.sub_self, Nat.shiftRight_zero] at hlast
    rw [bits, List.foldlM_append, hkept]
    simp only [Option.bind_eq_bind, Option.bind_some, List.foldlM_cons, List.foldlM_nil, push_bit,
      pushed_code, hlast, if_neg hn.ne, Option.pure_def]

/-- The bits of a code are read up to the symbol. -/
theorem push_code_bits {out : List UInt8} {symbol : ℕ} (h : symbol < 257) :
    (code_bits symbol).foldlM push_bit ⟨out, 0, 0⟩ =
      if symbol < 256 then some ⟨out ++ [.ofNat symbol], 0, 0⟩ else none := by
  obtain ⟨hpos, hlongest, hvalue, hfound, hshort⟩ := codes_found symbol h
  obtain ⟨n, hn⟩ : ∃ n, (code_of symbol).2 = n + 1 := ⟨(code_of symbol).2 - 1, by omega⟩
  have hcode : (code_of symbol).1 >>> 1 < 2 ^ n := by
    rw [hn, pow_succ] at hvalue
    rw [Nat.shiftRight_eq_div_pow]
    omega
  have hkept := @push_bits_kept out ((code_of symbol).1 >>> 1) n (by omega) (fun k _ hk => by
    have := hshort k (by omega)
    rwa [← Nat.shiftRight_add, show 1 + (n - k) = (code_of symbol).2 - k by omega]) hcode
  rw [code_bits, hn, bits, List.foldlM_append, hkept]
  rw [hn] at hfound
  simp only [Option.bind_eq_bind, Option.bind_some, List.foldlM_cons, List.foldlM_nil, push_bit,
    pushed_code, hfound, Option.pure_def]
  split_ifs <;> simp

theorem push_codes {out : List UInt8} (octets : List UInt8) :
    (codes octets).foldlM push_bit ⟨out, 0, 0⟩ = some ⟨out ++ octets, 0, 0⟩ := by
  induction octets generalizing out with
  | nil => rw [List.append_nil]; rfl
  | cons octet octets ih =>
    have hlt : octet.toNat < 256 := octet.toNat_lt
    rw [codes, List.flatMap_cons, List.foldlM_append, push_code_bits (by omega), if_pos hlt,
      Option.bind_eq_bind, Option.bind_some, UInt8.ofNat_toNat]
    have hrest := @ih (out ++ [octet])
    rwa [List.append_assoc] at hrest

theorem ones_below (n : ℕ) (k : ℕ) (h : k ≤ n) : (2 ^ n - 1) >>> (n - k) = 2 ^ k - 1 := by
  apply Nat.eq_of_testBit_eq
  intro i
  rw [Nat.testBit_shiftRight, Nat.testBit_two_pow_sub_one, Nat.testBit_two_pow_sub_one]
  exact decide_eq_decide.2 (by omega)

theorem bits_ones (n : ℕ) : bits n (2 ^ n - 1) = List.replicate n true := by
  induction n with
  | zero => rfl
  | succ n ih =>
    have hhalf := ones_below (n + 1) n (Nat.le_succ n)
    rw [Nat.add_sub_cancel_left] at hhalf
    rw [bits, hhalf, ih, Nat.testBit_two_pow_sub_one, List.replicate_succ']
    simp

/-- The octets' codes, one after the other, filled up with at most seven ones. -/
def Spelled (src out : List UInt8) : Prop :=
  ∃ n ≤ 7, bits_of src = codes out ++ List.replicate n true

theorem spelled_of_decode {src out : List UInt8} (h : decode src = some out) :
    Spelled src out := by
  rw [decode_eq] at h
  obtain ⟨r, hr, hpadding⟩ := Option.bind_eq_some_iff.1 h
  split_ifs at hpadding with hones
  obtain rfl := Option.some.inj hpadding
  obtain ⟨hread, -⟩ := push_bits_read ⟨show 0 < 30 by decide, show 0 < 2 ^ 0 by decide⟩ hr
  have hcode : r.code = 2 ^ r.len - 1 := by rw [hones.2, Nat.shiftLeft_eq, one_mul]
  refine ⟨r.len, hones.1, ?_⟩
  rw [Reading.read, hcode, bits_ones] at hread
  exact hread.symm

theorem decode_of_spelled {src out : List UInt8} (h : Spelled src out) :
    decode src = some out := by
  obtain ⟨n, hn, hbits⟩ := h
  have hkept := @push_bits_kept out (2 ^ n - 1) n (show n < 30 by omega)
    (fun k _ hk => by
      rw [ones_below n k hk]
      exact padding_is_no_code k (by omega))
    (Nat.sub_lt (Nat.two_pow_pos n) one_pos)
  rw [decode_eq, hbits, List.foldlM_append, push_codes, Option.bind_eq_bind, Option.bind_some,
    ← bits_ones, List.nil_append, hkept, Option.bind_some, if_pos]
  exact ⟨hn, by rw [Nat.shiftLeft_eq, one_mul]⟩

/-- **The decoder accepts exactly the code.**  It gives octets exactly for their codes one after
the other, filled up with at most seven ones; there is one sequence of octets at most; and EOS is
never taken for a symbol. -/
theorem decode_spec (src : List UInt8) :
    (∀ out, decode src = some out ↔ Spelled src out) ∧
      (∀ out out', Spelled src out → Spelled src out' → out = out') ∧
      ∀ out rest, bits_of src = codes out ++ code_bits 256 ++ rest → decode src = none := by
  refine ⟨fun out => ⟨spelled_of_decode, decode_of_spelled⟩, fun out out' h h' => ?_,
    fun out rest hbits => ?_⟩
  · exact Option.some.inj ((decode_of_spelled h).symm.trans (decode_of_spelled h'))
  · rw [decode_eq, hbits, List.foldlM_append, List.foldlM_append, push_codes, Option.bind_eq_bind,
      Option.bind_some, push_code_bits (by decide), if_neg (by decide)]
    rfl

/-! ### Bounds -/

/-- The symbols of a length stand within the table of symbols. -/
theorem symbols_within : ∀ len < 31,
    canonical.start.getD len 0 + canonical.count.getD len 0 ≤ 257 := by
  rw [canonical_eq]
  decide +kernel

/-- Wherever the decoder is, the next bit fits the code's word, and what it looks up stands in the
tables. -/
theorem next_bit_within {bs : List Bool} {r : Reading} (h : bs.foldlM push_bit ⟨[], 0, 0⟩ = some r)
    (bit : Bool) : r.len + 1 < 31 ∧ r.code <<< 1 ||| bit.toNat < 2 ^ 32 ∧
      ∀ at_ < canonical.count.getD (r.len + 1) 0,
        canonical.start.getD (r.len + 1) 0 + at_ < 257 := by
  obtain ⟨-, hlen, hcode⟩ := push_bits_read ⟨show 0 < 30 by decide, show 0 < 2 ^ 0 by decide⟩ h
  have hlen : r.len < 30 := hlen
  have hpow : 2 ^ r.len ≤ 2 ^ 30 := Nat.pow_le_pow_right (by decide) hlen.le
  refine ⟨by omega, Nat.or_lt_two_pow ?_ ?_, fun at_ hat => ?_⟩
  · rw [Nat.shiftLeft_eq]
    omega
  · exact (Bool.toNat_lt bit).trans (by decide)
  · have := symbols_within (r.len + 1) (by omega)
    omega

theorem length_bits_of (src : List UInt8) : (bits_of src).length = 8 * src.length := by
  simp [bits_of, List.length_flatMap, mul_comm]

theorem length_le_codes (out : List UInt8) : out.length ≤ (codes out).length := by
  induction out with
  | nil => exact Nat.zero_le _
  | cons octet out ih =>
    have hpos := (codes_found octet.toNat (octet.toNat_lt.trans (by decide))).1
    rw [codes, List.flatMap_cons, List.length_append, code_bits, length_bits, List.length_cons]
    change out.length ≤ (out.flatMap fun octet => code_bits octet.toNat).length at ih
    omega

/-- No octet comes of less than a bit. -/
theorem length_of_decode {src out : List UInt8} (h : decode src = some out) :
    out.length ≤ 8 * src.length := by
  obtain ⟨n, -, hbits⟩ := spelled_of_decode h
  have hlength := congrArg List.length hbits
  rw [length_bits_of, List.length_append] at hlength
  have := length_le_codes out
  omega

end Huffman

end H3

end Rurge
