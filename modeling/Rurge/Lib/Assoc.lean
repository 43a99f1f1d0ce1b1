import Mathlib

/-!
# Association tables

Association lists with one value for each key (`AList`), with what a hash table also does: a value
changed in place, the pairs that a test keeps, and several keys taken out.
-/

/-- A table of values by their keys. -/
abbrev Assoc (κ ν : Type*) := AList fun _ : κ => ν

namespace Assoc

variable {κ ν : Type*} [DecidableEq κ]

/-- The value of `a` changed by `f`. -/
def modify (a : κ) (f : ν → ν) (t : Assoc κ ν) : Assoc κ ν where
  entries := t.entries.map fun e => ⟨e.1, if e.1 = a then f e.2 else e.2⟩
  nodupKeys := by
    have hkeys : (t.entries.map fun e => (⟨e.1, if e.1 = a then f e.2 else e.2⟩ :
        Sigma fun _ : κ => ν)).keys = t.entries.keys := by
      simp [List.keys]
    change List.Nodup (List.keys _)
    rw [hkeys]
    exact t.keys_nodup

/-- The pairs that `p` keeps. -/
def retain (p : κ → ν → Bool) (t : Assoc κ ν) : Assoc κ ν where
  entries := t.entries.filter fun e => p e.1 e.2
  nodupKeys := t.nodupKeys.sublist List.filter_sublist

theorem mem_entries {t : Assoc κ ν} {a : κ} {b : ν} :
    (⟨a, b⟩ : Sigma fun _ : κ => ν) ∈ t.entries ↔ t.lookup a = some b :=
  AList.mem_lookup_iff.symm

theorem lookup_modify (a : κ) (f : ν → ν) (t : Assoc κ ν) (k : κ) :
    (t.modify a f).lookup k = (t.lookup k).map fun b => if k = a then f b else b := by
  refine Option.ext fun b => ?_
  rw [Option.map_eq_some_iff, ← mem_entries]
  simp only [← mem_entries, modify, List.mem_map]
  constructor
  · rintro ⟨⟨k', b'⟩, hmem, heq⟩
    cases heq
    exact ⟨b', hmem, rfl⟩
  · rintro ⟨b', hmem, rfl⟩
    exact ⟨⟨k, b'⟩, hmem, rfl⟩

theorem lookup_retain (p : κ → ν → Bool) (t : Assoc κ ν) (k : κ) :
    (t.retain p).lookup k = (t.lookup k).filter (p k) := by
  refine Option.ext fun b => ?_
  rw [Option.filter_eq_some_iff, ← mem_entries, ← mem_entries]
  exact List.mem_filter

theorem lookup_insert (t : Assoc κ ν) (a : κ) (b : ν) :
    (t.insert a b).lookup = Function.update t.lookup a (some b) := by
  funext k
  by_cases hk : k = a
  · subst hk
    rw [AList.lookup_insert, Function.update_self]
  · rw [AList.lookup_insert_ne hk, Function.update_of_ne hk]

theorem lookup_insert_apply (t : Assoc κ ν) (a : κ) (b : ν) (k : κ) :
    (t.insert a b).lookup k = if k = a then some b else t.lookup k :=
  (congrFun (lookup_insert t a b) k).trans (Function.update_apply ..)

theorem lookup_erase_apply (t : Assoc κ ν) (a k : κ) :
    (t.erase a).lookup k = if k = a then none else t.lookup k := by
  split
  case isTrue h => rw [h, AList.lookup_erase]
  case isFalse h => rw [AList.lookup_erase_ne h]

/-- Several keys taken out. -/
def eraseAll (keys : List κ) (t : Assoc κ ν) : Assoc κ ν := keys.foldl (fun t k => t.erase k) t

theorem lookup_eraseAll (keys : List κ) (t : Assoc κ ν) (k : κ) :
    (t.eraseAll keys).lookup k = if k ∈ keys then none else t.lookup k := by
  unfold eraseAll
  induction keys generalizing t with
  | nil => simp
  | cons a keys ih =>
    rw [List.foldl_cons, ih]
    by_cases hk : k = a
    · subst hk
      simp
    · simp [hk, AList.lookup_erase_ne hk]

end Assoc
