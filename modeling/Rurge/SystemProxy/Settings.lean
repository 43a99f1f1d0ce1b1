import Rurge.Config.Session
import Rurge.Lib.Programs
import Rurge.Lib.Undo

/-!
# What the system proxy is pointed at, and how commands are run

`ProxySettings` is what the operating system is pointed at (`sysproxy/mod.rs`).  `run_all` and
`run_best_effort` run a list of commands (`command.rs`): the first stops at a failure, the second
goes on and answers the first error.
-/

namespace Rurge

namespace IpAddr

/-- `a.b.c.d`. -/
def textV4 (n : ℕ) : Str :=
  Str.decimal (n / 2 ^ 24 % 256) ++ '.' :: Str.decimal (n / 2 ^ 16 % 256) ++ '.' ::
    Str.decimal (n / 2 ^ 8 % 256) ++ '.' :: Str.decimal (n % 256)

/-- Groups of an IPv6 address with `:` between them. -/
def colons (gs : List ℕ) : Str :=
  [':'].intercalate (gs.map (Nat.toDigits 16))

/-- The first longest run of zeros: where it starts and how long it is. -/
def zeros : List ℕ → ℕ → ℕ × ℕ
  | [], _ => (0, 0)
  | g :: gs, i =>
    let here := (g :: gs).takeWhile (· = 0)
    let later := zeros gs (i + 1)
    if later.2 ≤ here.length then (i, here.length) else later

/-- The text of an IPv6 address: a mapped IPv4 address dotted, the first longest run of at least
two zero groups as `::`. -/
def textV6 (n : ℕ) : Str :=
  let gs := (List.range 8).map fun i => n / 2 ^ (16 * (7 - i)) % 65536
  if n / 2 ^ 32 = 0xffff then "::ffff:".toList ++ textV4 (n % 2 ^ 32)
  else
    let z := zeros gs 0
    if 2 ≤ z.2 then colons (gs.take z.1) ++ [':', ':'] ++ colons (gs.drop (z.1 + z.2))
    else colons gs

/-- `IpAddr`'s `Display`. -/
def toText : IpAddr → Str
  | v4 ip => textV4 ip.toNat
  | v6 ip => textV6 ip.toNat

example : toText (v4 0x7f000001) = "127.0.0.1".toList := by decide +kernel
example : toText (v6 1) = "::1".toList := by decide +kernel

end IpAddr

namespace SystemProxy

/-- What the operating system should be pointed at. -/
structure ProxySettings where
  http : Option SocketAddr
  https : Option SocketAddr
  socks : Option SocketAddr
  bypass : List Str
  exclude_simple : Bool
  deriving DecidableEq

/-- `BTreeMap<String, T>`, in the order of its keys. -/
abbrev BTreeMap (α : Type) := List (Str × α)

namespace BTreeMap

variable {α : Type}

def insert (key : Str) (a : α) : BTreeMap α → BTreeMap α
  | [] => [(key, a)]
  | e :: es =>
    if key = e.1 then (key, a) :: es
    else if key < e.1 then (key, a) :: e :: es
    else e :: insert key a es

theorem mem_insert {key : Str} {a : α} {e : Str × α} {m : BTreeMap α} (h : e ∈ m.insert key a) :
    e = (key, a) ∨ e ∈ m := by
  induction m with
  | nil => exact .inl (List.mem_singleton.1 h)
  | cons d m ih =>
    unfold insert at h
    split_ifs at h
    · exact (List.mem_cons.1 h).imp_right (.tail d)
    · exact List.mem_cons.1 h
    · rcases List.mem_cons.1 h with rfl | h
      · exact .inr (.head m)
      · exact (ih h).imp_right (.tail d)

theorem lookup_cons (key : Str) (e : Str × α) (m : BTreeMap α) :
    List.lookup key (e :: m) = if key = e.1 then some e.2 else m.lookup key := by
  rw [List.lookup_cons]
  by_cases h : key = e.1
  · simp [h]
  · rw [beq_false_of_ne h, if_neg h]

theorem lookup_insert (key key' : Str) (a : α) (m : BTreeMap α) :
    (m.insert key a).lookup key' = if key' = key then some a else m.lookup key' := by
  induction m with
  | nil => simp only [insert, lookup_cons]
  | cons d m ih =>
    unfold insert
    by_cases hd : key = d.1
    · rw [if_pos hd, lookup_cons, lookup_cons]
      by_cases h : key' = key
      · simp [h]
      · simp [h, hd ▸ h]
    · rw [if_neg hd]
      by_cases hlt : key < d.1
      · rw [if_pos hlt, lookup_cons]
      · rw [if_neg hlt, lookup_cons, lookup_cons, ih]
        by_cases h : key' = d.1
        · simp [h, Ne.symm hd]
        · simp [h]

end BTreeMap

/-! ### Running commands -/

section Commands

variable {Op : Type} {Ans : Op → Type} {C S : Type}
  (exec : C → Prog Op Ans (Except Str Unit))

/-- Runs every command, stopping at the first failure. -/
def run_all : List C → Prog Op Ans (Except Str Unit)
  | [] => .done (.ok ())
  | c :: cs => (exec c).andThen fun _ => run_all cs

/-- The commands left of a best effort that has met `first_error` so far. -/
def run_rest (first_error : Option Str) : List C → Prog Op Ans (Except Str Unit)
  | [] => .done (match first_error with | none => .ok () | some e => .error e)
  | c :: cs => exec c >>= fun
    | .ok _ => run_rest first_error cs
    | .error e => run_rest (first_error.or (some e)) cs

/-- Runs every command even when some fail; the first error is returned. -/
def run_best_effort (cs : List C) : Prog Op Ans (Except Str Unit) := run_rest exec none cs

variable {exec} {step : (o : Op) → S → Ans o → S → Prop} {G : S → S → Prop} {J : S → Prop}
  {R : C → S → S → Prop}

theorem run_rest_holds {cs : List C} {first_error : Option Str} {s : S}
    (hexec : ∀ c ∈ cs, ∀ s, J s →
      (exec c).Holds step G (fun r t => J t ∧ (r = .ok () → R c s t)) s) (hs : J s) :
    (run_rest exec first_error cs).Holds step G
      (fun r t => J t ∧ (r = .ok () → first_error = none ∧ Chain R cs s t)) s := by
  induction cs generalizing s first_error with
  | nil =>
    refine ⟨hs, fun h => ?_⟩
    cases first_error with
    | none => exact ⟨rfl, rfl⟩
    | some e => cases h
  | cons c cs ih =>
    refine (hexec c (.head cs) s hs).bind fun r t ⟨ht, hr⟩ => ?_
    have hrest : ∀ f, (run_rest exec f cs).Holds step G
        (fun r u => J u ∧ (r = .ok () → f = none ∧ Chain R cs t u)) t :=
      fun f => ih (fun d hd => hexec d (.tail c hd)) ht
    cases r with
    | ok a =>
      exact (hrest first_error).mono fun r' u ⟨hu, h⟩ =>
        ⟨hu, fun hok => ⟨(h hok).1, t, hr rfl, (h hok).2⟩⟩
    | error e =>
      refine (hrest (first_error.or (some e))).mono fun r' u ⟨hu, h⟩ => ⟨hu, fun hok => ?_⟩
      cases first_error with
      | none => exact absurd (h hok).1 (by simp)
      | some e' => exact absurd (h hok).1 (by simp)

/-- **A best effort that answers no error has done every command**, and what every command keeps
it keeps. -/
theorem run_best_effort_holds {cs : List C} {s : S}
    (hexec : ∀ c ∈ cs, ∀ s, J s →
      (exec c).Holds step G (fun r t => J t ∧ (r = .ok () → R c s t)) s) (hs : J s) :
    (run_best_effort exec cs).Holds step G
      (fun r t => J t ∧ (r = .ok () → Chain R cs s t)) s :=
  (run_rest_holds hexec hs).mono fun _ _ h => ⟨h.1, fun hok => (h.2 hok).2⟩

/-- Where every command succeeds, a best effort does. -/
theorem run_best_effort_ok {cs : List C} {s : S}
    (hexec : ∀ c ∈ cs, ∀ s, (exec c).Holds step (fun _ _ => True) (fun r _ => r = .ok ()) s) :
    (run_best_effort exec cs).Holds step (fun _ _ => True) (fun r _ => r = .ok ()) s := by
  unfold run_best_effort
  induction cs generalizing s with
  | nil => rfl
  | cons c cs ih =>
    refine (hexec c (.head cs) s).bind fun r t hr => ?_
    subst hr
    exact ih fun d hd => hexec d (.tail c hd)

end Commands

end SystemProxy

end Rurge
