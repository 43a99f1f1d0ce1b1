import Rurge.Text

/-!
# Addresses and networks

`IpAddr` is an address of either family, `IpNet w` a network of addresses of `w` bits (`ipnet`'s
`Ipv4Net` and `Ipv6Net`), whose prefix length never passes the width of the address.  `PrefixMap` is
the interface the program has to the `prefix_trie` crate: a map from networks in which an address is
looked up by the longest stored prefix that contains it.
-/

namespace Rurge

abbrev Ipv4Addr := BitVec 32
abbrev Ipv6Addr := BitVec 128

/-- `std::net::IpAddr`. -/
inductive IpAddr
  | v4 (ip : Ipv4Addr)
  | v6 (ip : Ipv6Addr)
  deriving DecidableEq, Repr

namespace IpAddr

def isIpv4 : IpAddr → Bool
  | v4 _ => true
  | v6 _ => false

def isIpv6 : IpAddr → Bool
  | v4 _ => false
  | v6 _ => true

/-! ### Reading an address -/

/-- The value of a decimal digit. -/
def decDigit (c : Char) : Option ℕ :=
  if '0' ≤ c ∧ c ≤ '9' then some (c.toNat - '0'.toNat) else none

/-- The value of a hexadecimal digit. -/
def hexDigit (c : Char) : Option ℕ :=
  if '0' ≤ c ∧ c ≤ '9' then some (c.toNat - '0'.toNat)
  else if 'a' ≤ c ∧ c ≤ 'f' then some (c.toNat - 'a'.toNat + 10)
  else if 'A' ≤ c ∧ c ≤ 'F' then some (c.toNat - 'A'.toNat + 10)
  else none

/-- A number in the given base: at least one digit and at most `most`. -/
def number (digit : Char → Option ℕ) (base most : ℕ) (s : Str) : Option ℕ :=
  if s.length = 0 ∨ most < s.length then none
  else s.foldl (fun acc c => do return (← acc) * base + (← digit c)) (some 0)

/-- A part of a dotted address: up to three digits, no leading zero, at most 255. -/
def octet (s : Str) : Option ℕ := do
  let n ← number decDigit 10 3 s
  if n ≤ 255 ∧ (s.length = 1 ∨ s.head? ≠ some '0') then some n else none

/-- `a.b.c.d`. -/
def parseV4 (s : Str) : Option ℕ :=
  match (s.splitOn '.').map octet with
  | [some a, some b, some c, some d] => some (((a * 256 + b) * 256 + c) * 256 + d)
  | _ => none

/-- The groups of one side of an IPv6 address; its last may be a dotted address, which stands for
two when `dotted` allows it. -/
def groups (dotted : Bool) (s : Str) : Option (List ℕ) :=
  if s = [] then some []
  else
    let parts := s.splitOn ':'
    let last := parts.getLast?.getD []
    match if dotted ∧ '.' ∈ last then parseV4 last else none with
    | some n =>
      (parts.dropLast.mapM (number hexDigit 16 4)).map (· ++ [n / 65536, n % 65536])
    | none => parts.mapM (number hexDigit 16 4)

/-- The value of eight groups. -/
def ofGroups (gs : List ℕ) : ℕ := gs.foldl (fun acc g => acc * 65536 + g) 0

/-- Eight groups, or fewer with one `::` that stands for the rest. -/
def parseV6 (s : Str) : Option ℕ :=
  match Str.find [':', ':'] s with
  | none => do
    let gs ← groups true s
    if gs.length = 8 then some (ofGroups gs) else none
  | some at_ => do
    let head ← groups false (s.take at_)
    let tail ← groups true (s.drop (at_ + 2))
    if head.length + tail.length < 8 then
      some (ofGroups (head ++ List.replicate (8 - head.length - tail.length) 0 ++ tail))
    else none

/-- `str::parse::<IpAddr>`. -/
def parse (s : Str) : Option IpAddr :=
  match parseV4 s with
  | some n => some (v4 (BitVec.ofNat 32 n))
  | none => (parseV6 s).map fun n => v6 (BitVec.ofNat 128 n)

end IpAddr

/-- A network of addresses of `w` bits. -/
structure IpNet (w : ℕ) where
  addr : BitVec w
  prefixLen : ℕ
  le : prefixLen ≤ w
  deriving DecidableEq

abbrev Ipv4Net := IpNet 32
abbrev Ipv6Net := IpNet 128

instance : LawfulBEq Ipv4Net := inferInstance
instance : LawfulBEq Ipv6Net := inferInstance

namespace IpNet

variable {w : ℕ}

/-- The network with the bits past the prefix cleared. -/
def trunc (n : IpNet w) : IpNet w :=
  ⟨(n.addr >>> (w - n.prefixLen)) <<< (w - n.prefixLen), n.prefixLen, n.le⟩

/-- The address agrees with the network on the prefix. -/
def contains (n : IpNet w) (ip : BitVec w) : Bool :=
  ip >>> (w - n.prefixLen) == n.addr >>> (w - n.prefixLen)

/-- Clearing the bits past the prefix changes none of those the prefix keeps. -/
theorem shift_trunc (x : BitVec w) (k : ℕ) : ((x >>> k) <<< k) >>> k = x >>> k := by
  apply BitVec.eq_of_getLsbD_eq
  intro i hi
  simp only [BitVec.getLsbD_ushiftRight, BitVec.getLsbD_shiftLeft]
  by_cases h : k + i < w
  · simp [h]
  · have : x.getLsbD (k + i) = false := BitVec.getLsbD_of_ge x (k + i) (by omega)
    simp [this]

@[simp] theorem trunc_prefixLen (n : IpNet w) : n.trunc.prefixLen = n.prefixLen := rfl

@[simp] theorem contains_trunc (n : IpNet w) (ip : BitVec w) :
    n.trunc.contains ip = n.contains ip := by
  simp [contains, trunc, shift_trunc]

end IpNet

/-- A network of either family (`ipnet::IpNet`). -/
inductive IpNetAny
  | v4 (net : Ipv4Net)
  | v6 (net : Ipv6Net)
  deriving DecidableEq

/-- An address of the other family is in no network. -/
def IpNetAny.contains : IpNetAny → IpAddr → Bool
  | .v4 net, .v4 ip => net.contains ip
  | .v6 net, .v6 ip => net.contains ip
  | _, _ => false

/-! ### Prefix maps -/

/-- The map of the `prefix_trie` crate, as the pairs it stores. -/
abbrev PrefixMap (w : ℕ) (α : Type) := List (IpNet w × α)

namespace PrefixMap

variable {w : ℕ} {α : Type}

def get (m : PrefixMap w α) (n : IpNet w) : Option α := m.lookup n

/-- The value of `n` replaced, or `n` added. -/
def insert (m : PrefixMap w α) (n : IpNet w) (a : α) : PrefixMap w α :=
  (n, a) :: m.filter (·.1 ≠ n)

/-- The longer of two stored prefixes. -/
def longer (best : Option (IpNet w × α)) (e : IpNet w × α) : Option (IpNet w × α) :=
  match best with
  | none => some e
  | some b => if b.1.prefixLen < e.1.prefixLen then some e else some b

/-- The longest stored prefix that contains `ip`. -/
def getLpm (m : PrefixMap w α) (ip : BitVec w) : Option (IpNet w × α) :=
  (m.filter (·.1.contains ip)).foldl longer none

theorem foldl_longer_some (l : List (IpNet w × α)) (b : IpNet w × α) :
    ∃ e, l.foldl longer (some b) = some e ∧ (e = b ∨ e ∈ l) := by
  induction l generalizing b with
  | nil => exact ⟨b, rfl, Or.inl rfl⟩
  | cons e l ih =>
    obtain ⟨b', hb', hmem⟩ : ∃ b', longer (some b) e = some b' ∧ (b' = b ∨ b' = e) := by
      by_cases hlt : b.1.prefixLen < e.1.prefixLen
      · exact ⟨e, by simp [longer, hlt], Or.inr rfl⟩
      · exact ⟨b, by simp [longer, hlt], Or.inl rfl⟩
    rw [List.foldl_cons, hb']
    obtain ⟨r, hr, hr'⟩ := ih b'
    refine ⟨r, hr, ?_⟩
    rcases hr' with rfl | h
    · rcases hmem with rfl | rfl
      · exact Or.inl rfl
      · exact Or.inr List.mem_cons_self
    · exact Or.inr (List.mem_cons_of_mem _ h)

/-- A lookup finds a stored prefix that contains the address. -/
theorem getLpm_mem {m : PrefixMap w α} {ip : BitVec w} {e : IpNet w × α}
    (h : m.getLpm ip = some e) : e ∈ m ∧ e.1.contains ip = true := by
  unfold getLpm at h
  cases hl : m.filter (·.1.contains ip) with
  | nil => rw [hl] at h; cases h
  | cons b l =>
    rw [hl] at h
    obtain ⟨r, hr, hr'⟩ := foldl_longer_some l b
    have hrb : r = e := by
      have : longer none b = some b := rfl
      rw [List.foldl_cons, this, hr] at h
      exact Option.some.inj h
    subst hrb
    have hmem : r ∈ m.filter (·.1.contains ip) := by
      rw [hl]
      rcases hr' with rfl | h'
      · exact List.mem_cons_self
      · exact List.mem_cons_of_mem _ h'
    simpa using hmem

/-- A lookup that finds nothing means no stored prefix contains the address. -/
theorem getLpm_none {m : PrefixMap w α} {ip : BitVec w} (h : m.getLpm ip = none) :
    ∀ e ∈ m, e.1.contains ip = false := by
  unfold getLpm at h
  cases hl : m.filter (·.1.contains ip) with
  | nil =>
    intro e he
    have := List.filter_eq_nil_iff.1 hl e he
    simpa using this
  | cons b l =>
    rw [hl] at h
    obtain ⟨r, hr, -⟩ := foldl_longer_some l b
    have hnone : longer none b = some b := rfl
    rw [List.foldl_cons, hnone, hr] at h
    cases h

theorem mem_insert {m : PrefixMap w α} {n : IpNet w} {a : α} {e : IpNet w × α} :
    e ∈ m.insert n a ↔ e = (n, a) ∨ (e ∈ m ∧ e.1 ≠ n) := by
  simp [insert]

theorem get_some {m : PrefixMap w α} {n : IpNet w} {a : α} (h : m.get n = some a) :
    (n, a) ∈ m := by
  induction m with
  | nil => cases h
  | cons x m ih =>
    obtain ⟨k, v⟩ := x
    by_cases hk : n = k
    · obtain rfl : v = a := by simpa [get, List.lookup_cons, hk] using h
      exact hk ▸ List.mem_cons_self
    · have hk' : (n == k) = false := by simpa using hk
      simp only [get, List.lookup_cons, hk'] at h
      exact List.mem_cons_of_mem _ (ih h)

/-- What is relied on of the map, which is another crate's. -/
structure Laws (w : ℕ) (α : Type) : Prop where
  get_some {m : PrefixMap w α} {n : IpNet w} {a : α} : m.get n = some a → (n, a) ∈ m
  mem_insert {m : PrefixMap w α} {n : IpNet w} {a : α} {e : IpNet w × α} :
    e ∈ m.insert n a ↔ e = (n, a) ∨ (e ∈ m ∧ e.1 ≠ n)
  getLpm_mem {m : PrefixMap w α} {ip : BitVec w} {e : IpNet w × α} :
    m.getLpm ip = some e → e ∈ m ∧ e.1.contains ip = true
  getLpm_none {m : PrefixMap w α} {ip : BitVec w} :
    m.getLpm ip = none → ∀ e ∈ m, e.1.contains ip = false

theorem laws : Laws w α := ⟨get_some, mem_insert, getLpm_mem, getLpm_none⟩

end PrefixMap

end Rurge
