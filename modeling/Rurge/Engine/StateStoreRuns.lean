import Rurge.Engine.StateStore

/-!
# Runs of the state file's store

The steps of a store come down to a few moves (`World.Moves`), under a condition on the steps:
a call begins its write only when no write goes on that was left by a dropped call, and no write
goes through whose `try_update` was dropped (`World.Careful`).

* `Kept` says of each call what its phase, its write and the books have to do with each other.
* `Apart` says that only one write goes on at a time.
* `Placed` says where the writes are in the files, and `Whose` whose state the file holds.
* `Chain` says that each closure was applied to what the changes before it had made.
-/

namespace Rurge

namespace StateStore

variable {Json : Type}

/-- The call is to write the file. -/
def Op.writes : Op Json → Bool
  | update _ | try_update _ => true
  | snapshot => false

theorem Op.tries_eq_false {op : Op Json} (h : op.writes = false) : op.tries = false := by
  cases op with
  | snapshot => rfl
  | update f => cases h
  | try_update f => cases h

/-! ### Files -/

namespace Fs

/-- A name is for a content there is, and no other name the store uses is for the same. -/
structure Sound (fs : Fs) : Prop where
  file_lt : ∀ i, fs.names .File = some i → i < fs.contents.length
  tmp_lt : ∀ i, fs.names .Tmp = some i → i < fs.contents.length
  apart : ∀ i, fs.names .File = some i → fs.names .Tmp ≠ some i

variable {fs : Fs}

theorem sound_ofTexts (texts : Name → Option Bytes) : (ofTexts texts).Sound := by
  refine ⟨fun i hi => ?_, fun i hi => ?_, fun i hfile htmp => ?_⟩
  · obtain ⟨-, -, rfl⟩ := Option.map_eq_some_iff.1 hi
    exact Nat.zero_lt_succ _
  · obtain ⟨-, -, rfl⟩ := Option.map_eq_some_iff.1 hi
    exact Nat.succ_lt_succ (Nat.zero_lt_succ _)
  · obtain ⟨-, -, rfl⟩ := Option.map_eq_some_iff.1 hfile
    obtain ⟨-, -, hone⟩ := Option.map_eq_some_iff.1 htmp
    cases hone

/-- The bad file is put aside. -/
theorem Sound.put_aside (h : fs.Sound) : (fs.rename .File .Broken).Sound where
  file_lt _ hi := nomatch hi
  tmp_lt i hi := h.tmp_lt i hi
  apart _ hi := nomatch hi

/-- What is done to the temporary file leaves the file as it is. -/
theorem text_eq {fs' : Fs} (hname : fs'.names .File = fs.names .File)
    (hcontents : ∀ i, fs.names .File = some i → fs'.contents[i]? = fs.contents[i]?) :
    fs'.text .File = fs.text .File := by
  rw [text, text, hname]
  cases hfile : fs.names .File with
  | none => rfl
  | some i => exact hcontents i hfile

theorem Sound.create (h : fs.Sound) :
    (fs.create .Tmp).2.Sound ∧ (fs.create .Tmp).2.names .Tmp = some (fs.create .Tmp).1 ∧
      (fs.create .Tmp).2.contents[(fs.create .Tmp).1]? = some [] ∧
      (fs.create .Tmp).2.text .File = fs.text .File := by
  rw [Fs.create]
  split
  · rename_i i htmp
    have hi := h.tmp_lt i htmp
    refine ⟨⟨fun j hj => ?_, fun j hj => ?_, h.apart⟩, htmp, List.getElem?_set_self hi,
      text_eq rfl fun j hj => List.getElem?_set_ne ?_⟩
    · exact (h.file_lt j hj).trans_eq List.length_set.symm
    · exact (h.tmp_lt j hj).trans_eq List.length_set.symm
    · rintro rfl
      exact h.apart i hj htmp
  · refine ⟨⟨fun j hj => ?_, fun j hj => ?_, fun j hfile htmp => ?_⟩, rfl,
      List.getElem?_concat_length, text_eq rfl fun j hj => ?_⟩
    · rw [List.length_append]
      exact (h.file_lt j hj).trans_le (Nat.le_add_right ..)
    · obtain rfl := Option.some.inj hj
      rw [List.length_append]
      exact Nat.lt_add_one _
    · obtain rfl := Option.some.inj htmp
      exact absurd (h.file_lt _ hfile) (Nat.lt_irrefl _)
    · exact List.getElem?_append_left (h.file_lt j hj)

/-- Bytes written at the end of the temporary file. -/
theorem Sound.write (h : fs.Sound) {i : ℕ} {content : Bytes} (htmp : fs.names .Tmp = some i)
    (hcontent : fs.contents[i]? = some content) (bytes : Bytes) :
    (fs.write i content.length bytes).Sound ∧
      (fs.write i content.length bytes).contents[i]? = some (content ++ bytes) ∧
      (fs.write i content.length bytes).text .File = fs.text .File := by
  refine ⟨⟨fun j hj => ?_, fun j hj => ?_, h.apart⟩, ?_, text_eq rfl fun j hj => ?_⟩
  · exact (h.file_lt j hj).trans_eq (List.length_modify ..).symm
  · exact (h.tmp_lt j hj).trans_eq (List.length_modify ..).symm
  · simp [Fs.write, hcontent]
  · have hne : i ≠ j := by
      rintro rfl
      exact h.apart i hj htmp
    simp [Fs.write, hne]

/-- The temporary file becomes the file. -/
theorem Sound.rename (h : fs.Sound) :
    (fs.rename .Tmp .File).Sound ∧ (fs.rename .Tmp .File).text .File = fs.text .Tmp :=
  ⟨⟨fun i hi => h.tmp_lt i hi, nofun, nofun⟩, rfl⟩

end Fs

namespace World

/-- No write goes on. -/
def Idle (w : World Json) : Prop := ∀ d ∈ w.calls, d.busy = false

/-- A step that does not meet what a dropped call has left: no write is begun beside another, and no
write of a dropped `try_update` goes through, before or after the drop. -/
def Careful (w : World Json) : Action Json → Prop
  | .call _ => True
  | .poll k =>
    ∀ c ∈ w.calls[k]?, c.phase = .Waits → w.lock = none → c.op.writes = true → w.Idle
  | .work k went =>
    ∀ c ∈ w.calls[k]?, c.job = some .Rename → c.phase = .Dropped → c.op.tries = true →
      went = none ∨ w.fs.names .Tmp = none
  | .drop k =>
    ∀ c ∈ w.calls[k]?, c.phase = .Writes → c.op.tries = true → c.job ≠ some (.Ended true)

/-! ### Moves -/

/-- How a write goes on towards `text`, with the files as they then are. -/
inductive Goes (text : Bytes) (fs : Fs) : Job → Fs → Job → Prop
  | dir : Goes text fs .Dir fs .Create
  | create : Goes text fs .Create (fs.create .Tmp).2 (.Write (fs.create .Tmp).1 0)
  | bytes (i place n : ℕ) (hplace : place < text.length) :
      Goes text fs (.Write i place) (fs.write i place ((text.drop place).take (n + 1)))
        (.Write i (place + ((text.drop place).take (n + 1)).length))
  | closed (i place : ℕ) (hplace : text.length ≤ place) : Goes text fs (.Write i place) fs .Rename

/-- What a careful step makes of a world. -/
inductive Moves (codec : Codec Json) (w : World Json) : World Json → Prop
  | still : Moves codec w w
  | call (op : Op Json) : Moves codec w { w with calls := w.calls ++ [⟨op, .Waits, none, none⟩] }
  | update {k : ℕ} {c : Call Json} (f : State Json → State Json) (hc : w.calls[k]? = some c)
      (hphase : c.phase = .Waits) (hlock : w.lock = none) (hop : c.op = .update f)
      (hidle : w.Idle) : Moves codec w (w.begin_ k c)
  | try_update {k : ℕ} {c : Call Json} (f : State Json → State Json) (hc : w.calls[k]? = some c)
      (hphase : c.phase = .Waits) (hlock : w.lock = none) (hop : c.op = .try_update f)
      (hidle : w.Idle) : Moves codec w (w.begin_ k c)
  | snapshot {k : ℕ} {c : Call Json} (hc : w.calls[k]? = some c) (hphase : c.phase = .Waits)
      (hop : c.op.writes = false) : Moves codec w (w.put k { c with phase := .Done true })
  | through {k : ℕ} {c : Call Json} (ok : Bool) (hc : w.calls[k]? = some c)
      (hphase : c.phase = .Writes) (hjob : c.job = some (.Ended ok)) (hop : c.op.tries = false) :
      Moves codec w { w with lock := none, calls := w.calls.set k { c with phase := .Done true } }
  | tried {k : ℕ} {c : Call Json} (hc : w.calls[k]? = some c) (hphase : c.phase = .Writes)
      (hjob : c.job = some (.Ended true)) (hop : c.op.tries = true) :
      Moves codec w
        { w with
          state := c.made.getD .default
          lock := none
          calls := w.calls.set k { c with phase := .Done true }
          changes := w.changes ++ [k] }
  | failed {k : ℕ} {c : Call Json} (hc : w.calls[k]? = some c) (hphase : c.phase = .Writes)
      (hjob : c.job = some (.Ended false)) (hop : c.op.tries = true) :
      Moves codec w { w with lock := none, calls := w.calls.set k { c with phase := .Done false } }
  | leaves {k : ℕ} {c : Call Json} (hc : w.calls[k]? = some c) (hphase : c.phase = .Waits) :
      Moves codec w (w.put k { c with phase := .Dropped })
  | drops {k : ℕ} {c : Call Json} (hc : w.calls[k]? = some c) (hphase : c.phase = .Writes)
      (hcare : c.op.tries = true → c.job ≠ some (.Ended true)) :
      Moves codec w { w with lock := none, calls := w.calls.set k { c with phase := .Dropped } }
  | goes {k : ℕ} {c : Call Json} {job job' : Job} {fs : Fs} (hc : w.calls[k]? = some c)
      (hjob : c.job = some job) (hgoes : Goes (c.text codec) w.fs job fs job') :
      Moves codec w (w.goes k c fs job')
  | fails {k : ℕ} {c : Call Json} (hc : w.calls[k]? = some c) (hbusy : c.busy = true) :
      Moves codec w (w.ends k c false)
  | renames {k : ℕ} {c : Call Json} (hc : w.calls[k]? = some c) (hjob : c.job = some .Rename)
      (htmp : (w.fs.names .Tmp).isSome = true)
      (hcare : c.phase = .Dropped → c.op.tries = false) :
      Moves codec w
        { w.ends k c true with fs := w.fs.rename .Tmp .File, renames := w.renames ++ [k] }

variable {codec : Codec Json} {w w' : World Json} {k : ℕ} {c : Call Json}

theorem moves_finish {ok : Bool} (hc : w.calls[k]? = some c) (hphase : c.phase = .Writes)
    (hjob : c.job = some (.Ended ok)) : w.Moves codec (w.finish k c ok) := by
  rw [finish]
  split
  · rename_i f hop
    split_ifs with hok
    · subst hok
      exact .tried hc hphase hjob (by rw [hop]; rfl)
    · obtain rfl := Bool.eq_false_iff.2 hok
      exact .failed hc hphase hjob (by rw [hop]; rfl)
  · rename_i hop
    refine .through ok hc hphase hjob ?_
    cases hop' : c.op with
    | try_update f => exact absurd hop' (hop f)
    | update f => rfl
    | snapshot => rfl

theorem moves_poll (hc : w.calls[k]? = some c) (hcare : w.Careful (.poll k)) :
    w.Moves codec (w.poll k c) := by
  rw [poll]
  split
  · rename_i hphase
    split_ifs with hlock
    · have hidle := hcare c hc hphase hlock
      cases hop : c.op with
      | update f => exact .update f hc hphase hlock hop (hidle (by rw [hop]; rfl))
      | try_update f => exact .try_update f hc hphase hlock hop (hidle (by rw [hop]; rfl))
      | snapshot =>
        obtain ⟨op, phase, made, job⟩ := c
        cases hop
        exact .snapshot hc hphase rfl
    · exact .still
  · rename_i hphase
    split
    · rename_i ok hjob
      exact moves_finish hc hphase hjob
    · exact .still
  · exact .still

theorem moves_drop (hc : w.calls[k]? = some c) (hcare : w.Careful (.drop k)) :
    w.Moves codec (w.drop k c) := by
  rw [drop]
  split
  · rename_i hphase
    exact .leaves hc hphase
  · rename_i hphase
    exact .drops hc hphase (hcare c hc hphase)
  · exact .still

theorem moves_work {went : Option ℕ} {job : Job} (hc : w.calls[k]? = some c)
    (hjob : c.job = some job) (hcare : w.Careful (.work k went)) :
    w.Moves codec (w.work codec k c went job) := by
  have hbusy (h : job.underway = true) : c.busy = true := by rw [Call.busy, hjob]; exact h
  cases job with
  | Dir =>
    cases went with
    | none => exact .fails hc (hbusy rfl)
    | some n => exact .goes hc hjob .dir
  | Create =>
    cases went with
    | none => exact .fails hc (hbusy rfl)
    | some n => exact .goes hc hjob .create
  | Write i place =>
    rw [work.eq_def]
    dsimp only
    split_ifs with hplace
    · exact .goes hc hjob (.closed i place hplace)
    · cases went with
      | none => exact .fails hc (hbusy rfl)
      | some n => exact .goes hc hjob (.bytes i place n (Nat.lt_of_not_le hplace))
  | Rename =>
    cases went with
    | none => exact .fails hc (hbusy rfl)
    | some n =>
      rw [work]
      split_ifs with htmp
      · refine .renames hc hjob htmp fun hphase => Bool.eq_false_iff.2 fun htries => ?_
        rcases hcare c hc hjob hphase htries with hwent | hnone
        · cases hwent
        · rw [hnone] at htmp
          cases htmp
      · exact .fails hc (hbusy rfl)
  | Ended ok => exact .still

theorem moves_step {a : Action Json} (hcare : w.Careful a) : w.Moves codec (w.step codec a) := by
  cases a with
  | call op => exact .call op
  | poll k =>
    rw [step]
    split
    · rename_i c hc
      exact moves_poll hc hcare
    · exact .still
  | work k went =>
    rw [step]
    split
    · rename_i c hc
      split
      · rename_i job hjob
        exact moves_work hc hjob hcare
      · exact .still
    · exact .still
  | drop k =>
    rw [step]
    split
    · rename_i c hc
      exact moves_drop hc hcare
    · exact .still

/-! ### Books -/

/-- What a call's phase, its write and the books have to do with each other. -/
structure CallOk (w : World Json) (k : ℕ) (c : Call Json) : Prop where
  waits : c.phase = .Waits → c.made = none
  writes : c.phase = .Writes ↔ w.lock = some k
  begins : c.phase = .Writes → c.made.isSome = true
  begun : c.job.isSome = c.made.isSome
  kinds : c.made.isSome = true → c.op.writes = true
  applied : k ∈ w.applied ↔ c.made.isSome = true
  changes : k ∈ w.changes ↔ c.made.isSome = true ∧ (c.op.tries = true → c.phase = .Done true)
  renames : k ∈ w.renames ↔ c.job = some (.Ended true)
  done : ∀ ok, c.phase = .Done ok → c.op.tries = true → c.job = some (.Ended ok)
  dropped : c.phase = .Dropped → c.op.tries = true → c.job ≠ some (.Ended true)

/-- Every call is so, and the books tell of calls there are. -/
structure Kept (w : World Json) : Prop where
  calls : ∀ (k : ℕ) (c : Call Json), w.calls[k]? = some c → w.CallOk k c
  lock_lt : ∀ k, w.lock = some k → k < w.calls.length
  applied_lt : ∀ k ∈ w.applied, k < w.calls.length
  changes_lt : ∀ k ∈ w.changes, k < w.calls.length
  renames_lt : ∀ k ∈ w.renames, k < w.calls.length
  applied_nodup : w.applied.Nodup
  changes_nodup : w.changes.Nodup

/-- The books say the same of the call `j`. -/
structure Same (w w' : World Json) (j : ℕ) : Prop where
  lock : w'.lock = some j ↔ w.lock = some j
  applied : j ∈ w'.applied ↔ j ∈ w.applied
  changes : j ∈ w'.changes ↔ j ∈ w.changes
  renames : j ∈ w'.renames ↔ j ∈ w.renames

theorem CallOk.same (h : w.CallOk k c) (hsame : w.Same w' k) : w'.CallOk k c where
  waits := h.waits
  writes := h.writes.trans hsame.lock.symm
  begins := h.begins
  begun := h.begun
  kinds := h.kinds
  applied := hsame.applied.trans h.applied
  changes := hsame.changes.trans h.changes
  renames := hsame.renames.trans h.renames
  done := h.done
  dropped := h.dropped

theorem getElem?_set_self (hc : w.calls[k]? = some c) (c' : Call Json) :
    (w.calls.set k c')[k]? = some c' :=
  List.getElem?_set_self (List.getElem?_eq_some_iff.1 hc).1

theorem getElem?_set_cases {c' d : Call Json} {j : ℕ} (hd : (w.calls.set k c')[j]? = some d) :
    j = k ∧ d = c' ∨ j ≠ k ∧ w.calls[j]? = some d := by
  by_cases hj : j = k
  · subst hj
    rw [List.getElem?_set, if_pos rfl] at hd
    split_ifs at hd
    exact .inl ⟨rfl, (Option.some.inj hd).symm⟩
  · rw [List.getElem?_set_ne (Ne.symm hj)] at hd
    exact .inr ⟨hj, hd⟩

/-- A move of the call `k`, of which the books say no more of any other. -/
theorem Kept.set (h : w.Kept) {c' : Call Json} (hc : w.calls[k]? = some c)
    (hcalls : w'.calls = w.calls.set k c') (hsame : ∀ j, j ≠ k → w.Same w' j)
    (hok : w'.CallOk k c') (happlied : w'.applied.Nodup) (hchanges : w'.changes.Nodup) :
    w'.Kept := by
  have hlt : k < w.calls.length := (List.getElem?_eq_some_iff.1 hc).1
  have hlength : w'.calls.length = w.calls.length := by rw [hcalls, List.length_set]
  refine ⟨fun j d hd => ?_, fun j hj => ?_, fun j hj => ?_, fun j hj => ?_, fun j hj => ?_,
    happlied, hchanges⟩
  · rw [hcalls] at hd
    rcases getElem?_set_cases hd with ⟨rfl, rfl⟩ | ⟨hj, hd⟩
    · exact hok
    · exact (h.calls j d hd).same (hsame j hj)
  all_goals
    rw [hlength]
    by_cases hjk : j = k
    · exact hjk ▸ hlt
  · exact h.lock_lt j ((hsame j hjk).lock.1 hj)
  · exact h.applied_lt j ((hsame j hjk).applied.1 hj)
  · exact h.changes_lt j ((hsame j hjk).changes.1 hj)
  · exact h.renames_lt j ((hsame j hjk).renames.1 hj)

theorem Goes.underway {text : Bytes} {fs fs' : Fs} {job job' : Job}
    (h : Goes text fs job fs' job') : job.underway = true ∧ job'.underway = true := by
  cases h <;> exact ⟨rfl, rfl⟩

theorem nodup_snoc {ks : List ℕ} (h : ks.Nodup) (hk : k ∉ ks) : (ks ++ [k]).Nodup := by
  rw [← List.concat_eq_append]
  exact h.concat hk

/-- A call that waits has done nothing yet. -/
theorem Kept.waiting (h : w.Kept) (hc : w.calls[k]? = some c) (hphase : c.phase = .Waits) :
    c.made = none ∧ c.job = none ∧ k ∉ w.applied ∧ k ∉ w.changes ∧ k ∉ w.renames := by
  have hk := h.calls k c hc
  have hmade := hk.waits hphase
  have hjob : c.job = none := by
    have hbegun := hk.begun
    rw [hmade] at hbegun
    exact Option.isSome_eq_false_iff.1 hbegun |> Option.isNone_iff_eq_none.1
  refine ⟨hmade, hjob, ?_, ?_, ?_⟩
  · rw [hk.applied, hmade]
    exact Bool.false_ne_true
  · rw [hk.changes, hmade]
    exact fun h => Bool.false_ne_true h.1
  · rw [hk.renames, hjob]
    exact nofun

theorem Kept.call (h : w.Kept) (op : Op Json) :
    Kept { w with calls := w.calls ++ [⟨op, .Waits, none, none⟩] } := by
  refine ⟨fun j d hd => ?_, fun j hj => ?_, fun j hj => ?_, fun j hj => ?_, fun j hj => ?_,
    h.applied_nodup, h.changes_nodup⟩
  · rcases Fifo.getElem?_concat_cases hd with hd | ⟨rfl, rfl⟩
    · exact (h.calls j d hd).same ⟨Iff.rfl, Iff.rfl, Iff.rfl, Iff.rfl⟩
    · have hlock := mt (h.lock_lt w.calls.length) (Nat.lt_irrefl _)
      have happlied := mt (h.applied_lt w.calls.length) (Nat.lt_irrefl _)
      have hchanges := mt (h.changes_lt w.calls.length) (Nat.lt_irrefl _)
      have hrenames := mt (h.renames_lt w.calls.length) (Nat.lt_irrefl _)
      constructor <;> grind
  all_goals rw [List.length_append]
  · exact (h.lock_lt j hj).trans_le (Nat.le_add_right ..)
  · exact (h.applied_lt j hj).trans_le (Nat.le_add_right ..)
  · exact (h.changes_lt j hj).trans_le (Nat.le_add_right ..)
  · exact (h.renames_lt j hj).trans_le (Nat.le_add_right ..)

theorem Kept.update (h : w.Kept) {f : State Json → State Json} (hc : w.calls[k]? = some c)
    (hphase : c.phase = .Waits) (hlock : w.lock = none) (hop : c.op = .update f) :
    (w.begin_ k c).Kept := by
  obtain ⟨-, -, happlied, hchanges, hrenames⟩ := h.waiting hc hphase
  simp only [begin_, hop]
  refine h.set hc rfl (fun j hj => ⟨?_, ?_, ?_, Iff.rfl⟩) ?_
    (nodup_snoc h.applied_nodup happlied) (nodup_snoc h.changes_nodup hchanges)
  · grind
  · grind
  · grind
  · constructor <;> grind [Op.writes, Op.tries]

theorem Kept.try_update (h : w.Kept) {f : State Json → State Json} (hc : w.calls[k]? = some c)
    (hphase : c.phase = .Waits) (hlock : w.lock = none) (hop : c.op = .try_update f) :
    (w.begin_ k c).Kept := by
  obtain ⟨-, -, happlied, hchanges, hrenames⟩ := h.waiting hc hphase
  simp only [begin_, hop]
  refine h.set hc rfl (fun j hj => ⟨?_, ?_, Iff.rfl, Iff.rfl⟩) ?_
    (nodup_snoc h.applied_nodup happlied) h.changes_nodup
  · grind
  · grind
  · constructor <;> grind [Op.writes, Op.tries]

/-- A call gives up its place, as a snapshot does that has its copy. -/
theorem Kept.rests (h : w.Kept) {phase : Phase} (hc : w.calls[k]? = some c)
    (hphase : c.phase = .Waits)
    (hrests : phase = .Dropped ∨ c.op.tries = false ∧ phase = .Done true) :
    (w.put k { c with phase := phase }).Kept := by
  obtain ⟨hmade, hjob, happlied, hchanges, hrenames⟩ := h.waiting hc hphase
  have hk := h.calls k c hc
  refine h.set hc rfl (fun j _ => ⟨Iff.rfl, Iff.rfl, Iff.rfl, Iff.rfl⟩) ?_
    h.applied_nodup h.changes_nodup
  constructor <;> grind [put, CallOk]

/-- A call gives up the lock, and the state is as it was. -/
theorem Kept.unlocks (h : w.Kept) {phase : Phase} (hc : w.calls[k]? = some c)
    (hphase : c.phase = .Writes)
    (hends : phase = .Done true ∧ c.op.tries = false ∨
      phase = .Done false ∧ c.job = some (.Ended false) ∨
      phase = .Dropped ∧ (c.op.tries = true → c.job ≠ some (.Ended true))) :
    Kept { w with lock := none, calls := w.calls.set k { c with phase := phase } } := by
  have hk := h.calls k c hc
  refine h.set hc rfl (fun j hj => ⟨?_, Iff.rfl, Iff.rfl, Iff.rfl⟩) ?_
    h.applied_nodup h.changes_nodup
  · grind [CallOk]
  · constructor <;> grind [CallOk]

theorem Kept.tried (h : w.Kept) (hc : w.calls[k]? = some c) (hphase : c.phase = .Writes)
    (hjob : c.job = some (.Ended true)) (hop : c.op.tries = true) (s : State Json) :
    Kept
      { w with
        state := s
        lock := none
        calls := w.calls.set k { c with phase := .Done true }
        changes := w.changes ++ [k] } := by
  have hk := h.calls k c hc
  have hchanges : k ∉ w.changes := fun hmem => by
    have hdone := (hk.changes.1 hmem).2 hop
    rw [hphase] at hdone
    cases hdone
  refine h.set hc rfl (fun j hj => ⟨?_, Iff.rfl, ?_, Iff.rfl⟩) ?_
    h.applied_nodup (nodup_snoc h.changes_nodup hchanges)
  · grind [CallOk]
  · grind
  · constructor <;> grind [CallOk]

/-- A write goes on, or fails. -/
theorem Kept.job (h : w.Kept) {job job' : Job} (hc : w.calls[k]? = some c)
    (hjob : c.job = some job) (hbusy : job.underway = true) (hend : job' ≠ .Ended true) (fs : Fs)
    (last : Option Bool) :
    Kept
      { w with fs := fs, calls := w.calls.set k { c with job := some job' }, last := last } := by
  have hk := h.calls k c hc
  refine h.set hc rfl (fun j _ => ⟨Iff.rfl, Iff.rfl, Iff.rfl, Iff.rfl⟩) ?_
    h.applied_nodup h.changes_nodup
  constructor <;> grind [CallOk, Job.underway]

theorem Kept.rename (h : w.Kept) (hc : w.calls[k]? = some c) (hjob : c.job = some .Rename)
    (hcare : c.phase = .Dropped → c.op.tries = false) (fs : Fs) :
    Kept { w.ends k c true with fs := fs, renames := w.renames ++ [k] } := by
  have hk := h.calls k c hc
  refine h.set hc rfl (fun j hj => ⟨Iff.rfl, Iff.rfl, Iff.rfl, ?_⟩) ?_
    h.applied_nodup h.changes_nodup
  · grind
  · constructor <;> grind [ends, CallOk]

theorem Kept.moves (h : w.Kept) (hmoves : w.Moves codec w') : w'.Kept := by
  cases hmoves with
  | still => exact h
  | call op => exact h.call op
  | update f hc hphase hlock hop hidle => exact h.update hc hphase hlock hop
  | try_update f hc hphase hlock hop hidle => exact h.try_update hc hphase hlock hop
  | snapshot hc hphase hop => exact h.rests hc hphase (.inr ⟨Op.tries_eq_false hop, rfl⟩)
  | through ok hc hphase hjob hop => exact h.unlocks hc hphase (.inl ⟨rfl, hop⟩)
  | tried hc hphase hjob hop => exact h.tried hc hphase hjob hop _
  | failed hc hphase hjob hop => exact h.unlocks hc hphase (.inr (.inl ⟨rfl, hjob⟩))
  | leaves hc hphase => exact h.rests hc hphase (.inl rfl)
  | drops hc hphase hcare => exact h.unlocks hc hphase (.inr (.inr ⟨rfl, hcare⟩))
  | goes hc hjob hgoes =>
    obtain ⟨hbusy, hbusy'⟩ := hgoes.underway
    exact h.job hc hjob hbusy (fun hend => by rw [hend] at hbusy'; cases hbusy') _ _
  | fails hc hbusy =>
    obtain ⟨job, hjob, hbusy⟩ := (Option.any_eq_true _ _).1 hbusy
    exact h.job hc hjob hbusy (fun hend : Job.Ended false = .Ended true => nomatch hend) w.fs
      (some false)
  | renames hc hjob htmp hcare => exact h.rename hc hjob hcare _

/-! ### One write at a time -/

/-- The call's write goes on. -/
def Busy (w : World Json) (k : ℕ) : Prop := ∃ c, w.calls[k]? = some c ∧ c.busy = true

/-- Beside a write that goes on there is no other, and no other call has the lock. -/
def Apart (w : World Json) : Prop :=
  ∀ j k, w.Busy k → w.Busy j ∨ w.lock = some j → j = k

theorem Idle.not_busy (h : w.Idle) (k : ℕ) : ¬ w.Busy k := fun ⟨c, hc, hbusy⟩ => by
  rw [h c (List.mem_of_getElem? hc)] at hbusy
  cases hbusy

theorem idle_iff : w.Idle ↔ ∀ k, ¬ w.Busy k := by
  refine ⟨Idle.not_busy, fun h c hc => Bool.eq_false_iff.2 fun hbusy => ?_⟩
  obtain ⟨k, hk⟩ := List.getElem?_of_mem hc
  exact h k ⟨c, hk, hbusy⟩

theorem Busy.of_set {c' : Call Json} {j : ℕ} (h : w'.Busy j)
    (hcalls : w'.calls = w.calls.set k c') : j = k ∧ c'.busy = true ∨ j ≠ k ∧ w.Busy j := by
  obtain ⟨d, hd, hbusy⟩ := h
  rw [hcalls] at hd
  rcases getElem?_set_cases hd with ⟨rfl, rfl⟩ | ⟨hj, hd⟩
  · exact .inl ⟨rfl, hbusy⟩
  · exact .inr ⟨hj, d, hd, hbusy⟩

theorem Apart.mono (h : w.Apart) (hbusy : ∀ j, w'.Busy j → w.Busy j)
    (hlock : ∀ j, w'.lock = some j → w.lock = some j) : w'.Apart := fun j k hk hj =>
  h j k (hbusy k hk) (hj.imp (hbusy j) (hlock j))

/-- A call begins its write where none goes on. -/
theorem Apart.begins {c' : Call Json} (hidle : w.Idle) (hcalls : w'.calls = w.calls.set k c')
    (hlock : w'.lock = some k) : w'.Apart := by
  have hbusy (j : ℕ) (hj : w'.Busy j) : j = k := by
    rcases hj.of_set hcalls with ⟨rfl, -⟩ | ⟨-, hj⟩
    · rfl
    · exact absurd hj (hidle.not_busy j)
  rintro i j hj (hi | hi)
  · rw [hbusy i hi, hbusy j hj]
  · rw [hbusy j hj]
    exact Option.some.inj (hi.symm.trans hlock)

/-- A move of a call after which its write goes on only where it did before. -/
theorem Apart.set {c' : Call Json} (h : w.Apart) (hc : w.calls[k]? = some c)
    (hcalls : w'.calls = w.calls.set k c') (hbusy : c'.busy = true → c.busy = true)
    (hlock : ∀ j, w'.lock = some j → w.lock = some j) : w'.Apart := by
  refine h.mono (fun j hj => ?_) hlock
  rcases hj.of_set hcalls with ⟨rfl, hbusy'⟩ | ⟨-, hj⟩
  · exact ⟨c, hc, hbusy hbusy'⟩
  · exact hj

theorem Apart.moves (h : w.Apart) (hmoves : w.Moves codec w') : w'.Apart := by
  cases hmoves with
  | still => exact h
  | call op =>
    refine h.mono (fun j ⟨d, hd, hbusy⟩ => ?_) fun j hj => hj
    rcases Fifo.getElem?_concat_cases hd with hd | ⟨-, rfl⟩
    · exact ⟨d, hd, hbusy⟩
    · cases hbusy
  | update f hc hphase hlock hop hidle =>
    simp only [begin_, hop]
    exact .begins hidle rfl rfl
  | try_update f hc hphase hlock hop hidle =>
    simp only [begin_, hop]
    exact .begins hidle rfl rfl
  | snapshot hc hphase hop => exact h.set hc rfl (fun hbusy => hbusy) fun j hj => hj
  | through ok hc hphase hjob hop => exact h.set hc rfl (fun hbusy => hbusy) nofun
  | tried hc hphase hjob hop => exact h.set hc rfl (fun hbusy => hbusy) nofun
  | failed hc hphase hjob hop => exact h.set hc rfl (fun hbusy => hbusy) nofun
  | leaves hc hphase => exact h.set hc rfl (fun hbusy => hbusy) fun j hj => hj
  | drops hc hphase hcare => exact h.set hc rfl (fun hbusy => hbusy) nofun
  | @goes k c job job' fs hc hjob hgoes =>
    refine h.set hc rfl (fun _ => ?_) fun j hj => hj
    rw [Call.busy, hjob]
    exact hgoes.underway.1
  | fails hc hbusy => exact h.set hc rfl (fun _ => hbusy) fun j hj => hj
  | renames hc hjob htmp hcare => exact h.set hc rfl nofun fun j hj => hj

/-! ### Where the writes are -/

/-- A write that goes on has the temporary file, with as much in it as it says, and the file holds
what the last write that went through put there. -/
structure Placed (codec : Codec Json) (w : World Json) : Prop where
  sound : w.fs.Sound
  writing : ∀ (k : ℕ) (c : Call Json) (i place : ℕ), w.calls[k]? = some c →
    c.job = some (.Write i place) →
      w.fs.names .Tmp = some i ∧ place ≤ (c.text codec).length ∧
        w.fs.contents[i]? = some ((c.text codec).take place)
  written : ∀ (k : ℕ) (c : Call Json), w.calls[k]? = some c → c.job = some .Rename →
    w.fs.text .Tmp = some (c.text codec)
  file : w.fs.text .File =
    match w.renames.getLast? with
    | none => w.left
    | some k => (w.calls[k]?).map fun c => c.text codec

theorem Placed.call (h : w.Placed codec) (hkept : w.Kept) (op : Op Json) :
    Placed codec { w with calls := w.calls ++ [⟨op, .Waits, none, none⟩] } := by
  refine ⟨h.sound, fun j d i place hd hjob => ?_, fun j d hd hjob => ?_, h.file.trans ?_⟩
  · rcases Fifo.getElem?_concat_cases hd with hd | ⟨-, rfl⟩
    · exact h.writing j d i place hd hjob
    · cases hjob
  · rcases Fifo.getElem?_concat_cases hd with hd | ⟨-, rfl⟩
    · exact h.written j d hd hjob
    · cases hjob
  · cases hlast : w.renames.getLast? with
    | none => rfl
    | some j =>
      have hj := hkept.renames_lt j (List.mem_of_getLast? hlast)
      dsimp only
      rw [List.getElem?_append_left hj]

/-- A move of a call that does nothing to the files. -/
theorem Placed.set (h : w.Placed codec) {c' : Call Json} (hc : w.calls[k]? = some c)
    (hcalls : w'.calls = w.calls.set k c') (hfs : w'.fs = w.fs) (hleft : w'.left = w.left)
    (hrenames : w'.renames = w.renames) (hmade : k ∈ w.renames → c'.made = c.made)
    (hjob : c'.job = c.job ∧ c'.made = c.made ∨
      (∀ i place, c'.job ≠ some (.Write i place)) ∧ c'.job ≠ some .Rename) :
    w'.Placed codec := by
  have htext (hmade : c'.made = c.made) : c'.text codec = c.text codec := by
    rw [Call.text, Call.text, hmade]
  refine ⟨hfs ▸ h.sound, fun j d i place hd hjob' => ?_, fun j d hd hjob' => ?_, ?_⟩
  · rw [hcalls] at hd
    rw [hfs]
    rcases getElem?_set_cases hd with ⟨rfl, rfl⟩ | ⟨-, hd⟩
    · rcases hjob with ⟨hsame, hmade⟩ | ⟨hwrite, -⟩
      · rw [htext hmade]
        exact h.writing j c i place hc (hsame ▸ hjob')
      · exact absurd hjob' (hwrite i place)
    · exact h.writing j d i place hd hjob'
  · rw [hcalls] at hd
    rw [hfs]
    rcases getElem?_set_cases hd with ⟨rfl, rfl⟩ | ⟨-, hd⟩
    · rcases hjob with ⟨hsame, hmade⟩ | ⟨-, hrename⟩
      · rw [htext hmade]
        exact h.written j c hc (hsame ▸ hjob')
      · exact absurd hjob' hrename
    · exact h.written j d hd hjob'
  · rw [hfs, hrenames, hleft, h.file]
    cases hlast : w.renames.getLast? with
    | none => rfl
    | some j =>
      have hmem : j ∈ w.renames := List.mem_of_getLast? hlast
      dsimp only
      rw [hcalls]
      by_cases hj : j = k
      · subst hj
        rw [getElem?_set_self hc, hc, Option.map_some, Option.map_some, htext (hmade hmem)]
      · rw [List.getElem?_set_ne (Ne.symm hj)]

/-- The one write that goes on does something to the temporary file. -/
theorem Placed.work (h : w.Placed codec) (hapart : w.Apart) {job : Job} {fs : Fs}
    (hc : w.calls[k]? = some c) (hbusy : c.busy = true) (hsound : fs.Sound)
    (hfile : fs.text .File = w.fs.text .File) (hrenames : k ∉ w.renames)
    (hwriting : ∀ i place, job = .Write i place →
      fs.names .Tmp = some i ∧ place ≤ (c.text codec).length ∧
        fs.contents[i]? = some ((c.text codec).take place))
    (hwritten : job = .Rename → fs.text .Tmp = some (c.text codec)) :
    (w.goes k c fs job).Placed codec := by
  have hother {j : ℕ} {d : Call Json} {job : Job} (hj : j ≠ k) (hd : w.calls[j]? = some d)
      (hjob : d.job = some job) : job.underway = false := by
    refine Bool.eq_false_iff.2 fun hunderway => hj (hapart j k ⟨c, hc, hbusy⟩ (.inl ⟨d, hd, ?_⟩))
    rw [Call.busy, hjob]
    exact hunderway
  refine ⟨hsound, fun j d i place hd hjob => ?_, fun j d hd hjob => ?_, ?_⟩
  · rcases getElem?_set_cases hd with ⟨rfl, rfl⟩ | ⟨hj, hd⟩
    · exact hwriting i place (Option.some.inj hjob)
    · exact nomatch hother hj hd hjob
  · rcases getElem?_set_cases hd with ⟨rfl, rfl⟩ | ⟨hj, hd⟩
    · exact hwritten (Option.some.inj hjob)
    · exact nomatch hother hj hd hjob
  · refine (hfile.trans h.file).trans ?_
    cases hlast : w.renames.getLast? with
    | none => simp only [goes, hlast]
    | some j =>
      have hj : k ≠ j := fun hkj => hrenames (hkj ▸ List.mem_of_getLast? hlast)
      simp only [goes, hlast, List.getElem?_set_ne hj]

theorem Placed.goes (h : w.Placed codec) (hapart : w.Apart) (hkept : w.Kept) {job job' : Job}
    {fs : Fs} (hc : w.calls[k]? = some c) (hjob : c.job = some job)
    (hgoes : Goes (c.text codec) w.fs job fs job') : (w.goes k c fs job').Placed codec := by
  have hbusy : c.busy = true := by
    rw [Call.busy, hjob]
    exact hgoes.underway.1
  have hrenames : k ∉ w.renames := fun hmem => by
    rw [(hkept.calls k c hc).renames, hjob] at hmem
    obtain rfl := Option.some.inj hmem
    exact nomatch hgoes.underway.1
  cases hgoes with
  | dir => exact h.work hapart hc hbusy h.sound rfl hrenames nofun nofun
  | create =>
    obtain ⟨hsound, htmp, hcontent, hfile⟩ := h.sound.create
    refine h.work hapart hc hbusy hsound hfile hrenames (fun i place heq => ?_) nofun
    cases heq
    exact ⟨htmp, Nat.zero_le _, hcontent⟩
  | bytes i place n hplace =>
    obtain ⟨htmp, hle, hcontent⟩ := h.writing k c i place hc hjob
    have hlength : ((c.text codec).take place).length = place := by
      rw [List.length_take, min_eq_left hle]
    obtain ⟨hsound, hcontent', hfile⟩ :=
      h.sound.write htmp hcontent (((c.text codec).drop place).take (n + 1))
    rw [hlength] at hsound hcontent' hfile
    refine h.work hapart hc hbusy hsound hfile hrenames (fun j place' heq => ?_) nofun
    cases heq
    refine ⟨htmp, ?_, ?_⟩
    · rw [List.length_take, List.length_drop]
      omega
    · rw [hcontent', List.take_add (i := place), List.length_take, ← List.take_eq_take_min]
  | closed i place hplace =>
    obtain ⟨htmp, -, hcontent⟩ := h.writing k c i place hc hjob
    refine h.work hapart hc hbusy h.sound rfl hrenames nofun fun _ => ?_
    rw [Fs.text, htmp, Option.bind_some, hcontent, List.take_of_length_le hplace]

theorem Placed.renames (h : w.Placed codec) (hapart : w.Apart) (hc : w.calls[k]? = some c)
    (hjob : c.job = some .Rename) :
    Placed codec
      { w.ends k c true with fs := w.fs.rename .Tmp .File, renames := w.renames ++ [k] } := by
  obtain ⟨hsound, hfile⟩ := h.sound.rename
  have hbusy : c.busy = true := by rw [Call.busy, hjob]; rfl
  have hnone {j : ℕ} {d : Call Json} {job : Job}
      (hd : (w.calls.set k { c with job := some (.Ended true) })[j]? = some d)
      (hjob : d.job = some job) : job.underway = false := by
    rcases getElem?_set_cases hd with ⟨rfl, rfl⟩ | ⟨hj, hd⟩
    · obtain rfl := Option.some.inj hjob
      rfl
    · refine Bool.eq_false_iff.2 fun hunderway => hj (hapart j k ⟨c, hc, hbusy⟩ (.inl ⟨d, hd, ?_⟩))
      rw [Call.busy, hjob]
      exact hunderway
  refine ⟨hsound, fun j d i place hd hjob => ?_, fun j d hd hjob => ?_, ?_⟩
  · exact nomatch hnone hd hjob
  · exact nomatch hnone hd hjob
  · rw [hfile, h.written k c hc hjob]
    simp only [List.getLast?_concat, ends, getElem?_set_self hc, Option.map_some]
    rfl

theorem Placed.moves (h : w.Placed codec) (hapart : w.Apart) (hkept : w.Kept)
    (hmoves : w.Moves codec w') : w'.Placed codec := by
  cases hmoves with
  | still => exact h
  | call op => exact h.call hkept op
  | update f hc hphase hlock hop hidle =>
    obtain ⟨-, -, -, -, hrenames⟩ := hkept.waiting hc hphase
    simp only [begin_, hop]
    exact h.set hc rfl rfl rfl rfl (fun hmem => absurd hmem hrenames) (.inr ⟨nofun, nofun⟩)
  | try_update f hc hphase hlock hop hidle =>
    obtain ⟨-, -, -, -, hrenames⟩ := hkept.waiting hc hphase
    simp only [begin_, hop]
    exact h.set hc rfl rfl rfl rfl (fun hmem => absurd hmem hrenames) (.inr ⟨nofun, nofun⟩)
  | snapshot hc hphase hop => exact h.set hc rfl rfl rfl rfl (fun _ => rfl) (.inl ⟨rfl, rfl⟩)
  | through ok hc hphase hjob hop =>
    exact h.set hc rfl rfl rfl rfl (fun _ => rfl) (.inl ⟨rfl, rfl⟩)
  | tried hc hphase hjob hop => exact h.set hc rfl rfl rfl rfl (fun _ => rfl) (.inl ⟨rfl, rfl⟩)
  | failed hc hphase hjob hop => exact h.set hc rfl rfl rfl rfl (fun _ => rfl) (.inl ⟨rfl, rfl⟩)
  | leaves hc hphase => exact h.set hc rfl rfl rfl rfl (fun _ => rfl) (.inl ⟨rfl, rfl⟩)
  | drops hc hphase hcare => exact h.set hc rfl rfl rfl rfl (fun _ => rfl) (.inl ⟨rfl, rfl⟩)
  | goes hc hjob hgoes => exact h.goes hapart hkept hc hjob hgoes
  | fails hc hbusy => exact h.set hc rfl rfl rfl rfl (fun _ => rfl) (.inr ⟨nofun, nofun⟩)
  | renames hc hjob htmp hcare => exact h.renames hapart hc hjob

/-! ### Whose state the file holds -/

/-- A write that goes on, or whose end its call has yet to hear of, is of the state there is, or of
what the closure makes of it; and the file holds the state there is where the last write went
through, or that of the call that has the lock. -/
structure Whose (w : World Json) : Prop where
  mine : ∀ (k : ℕ) (c : Call Json), w.calls[k]? = some c → c.op.tries = false →
    c.busy = true ∨ c.phase = .Writes → c.made = some w.state
  next : ∀ (k : ℕ) (c : Call Json), w.calls[k]? = some c → c.op.tries = true →
    c.phase = .Writes → c.made = some (c.op.closure w.state)
  ended : ∀ (k : ℕ) (c : Call Json) (ok : Bool), w.calls[k]? = some c → c.phase = .Writes →
    c.job = some (.Ended ok) → w.last = some ok ∧ (ok = true → w.renames.getLast? = some k)
  whose : w.Idle → w.last = some true →
    ∃ (k : ℕ) (c : Call Json), w.renames.getLast? = some k ∧ w.calls[k]? = some c ∧
      (c.made = some w.state ∨ w.lock = some k)

/-- The call with the lock has the only write that goes on. -/
theorem Apart.locked (h : w.Apart) {j : ℕ} (hlock : w.lock = some j) (hk : w.Busy k) : j = k :=
  h j k hk (.inr hlock)

theorem Kept.locked (h : w.Kept) (hc : w.calls[k]? = some c) (hphase : c.phase = .Writes) :
    w.lock = some k := (h.calls k c hc).writes.1 hphase

theorem busy_of_job {job : Job} (hc : w.calls[k]? = some c) (hjob : c.job = some job)
    (hunderway : job.underway = true) : w.Busy k := by
  refine ⟨c, hc, ?_⟩
  rw [Call.busy, hjob]
  exact hunderway

/-- A call that has the lock and no write that goes on has one that ended. -/
theorem Kept.ended (h : w.Kept) (hc : w.calls[k]? = some c) (hphase : c.phase = .Writes)
    (hidle : w.Idle) : ∃ ok, c.job = some (.Ended ok) := by
  have hk := h.calls k c hc
  obtain ⟨job, hjob⟩ := Option.isSome_iff_exists.1 (hk.begun.trans (hk.begins hphase))
  cases job with
  | Ended ok => exact ⟨ok, hjob⟩
  | _ => exact absurd (busy_of_job hc hjob rfl) (hidle.not_busy k)

theorem Idle.of_set {c' : Call Json} (hidle : Idle { w with calls := w.calls.set k c' })
    (hc : w.calls[k]? = some c) (hbusy : c.busy = true → c'.busy = true) : w.Idle := by
  refine idle_iff.2 fun j ⟨d, hd, hbusy'⟩ => ?_
  by_cases hj : j = k
  · subst hj
    obtain rfl := Option.some.inj (hc.symm.trans hd)
    exact hidle.not_busy j ⟨c', getElem?_set_self hc c', hbusy hbusy'⟩
  · exact hidle.not_busy j ⟨d, (List.getElem?_set_ne (Ne.symm hj)).trans hd, hbusy'⟩

theorem Whose.call (h : w.Whose) (op : Op Json) :
    Whose { w with calls := w.calls ++ [⟨op, .Waits, none, none⟩] } := by
  refine ⟨fun j d hd => ?_, fun j d hd => ?_, fun j d ok hd => ?_, fun hidle hlast => ?_⟩
  · rcases Fifo.getElem?_concat_cases hd with hd | ⟨-, rfl⟩
    · exact h.mine j d hd
    · exact fun _ hbusy => hbusy.elim nofun nofun
  · rcases Fifo.getElem?_concat_cases hd with hd | ⟨-, rfl⟩
    · exact h.next j d hd
    · exact fun _ => nofun
  · rcases Fifo.getElem?_concat_cases hd with hd | ⟨-, rfl⟩
    · exact h.ended j d ok hd
    · exact nofun
  · obtain ⟨j, d, hj, hd, hwhose⟩ :=
      h.whose (fun d hd => hidle d (List.mem_append_left _ hd)) hlast
    exact ⟨j, d, hj, List.getElem?_append_left (List.getElem?_eq_some_iff.1 hd).1 ▸ hd, hwhose⟩

/-- A move of a call that leaves the state, the files and how the writes have ended. -/
theorem Whose.set (h : w.Whose) {c' : Call Json} {lock : Option ℕ} (hc : w.calls[k]? = some c)
    (hop : c'.op = c.op) (hmade : c'.made = c.made) (hjob : c'.job = c.job)
    (hphase : c'.phase = .Writes → c.phase = .Writes)
    (hlock : lock = w.lock ∨
      w.lock = some k ∧ (w.Idle → w.last = some true → c.made = some w.state)) :
    Whose { w with lock := lock, calls := w.calls.set k c' } := by
  have hbusy : c'.busy = c.busy := by rw [Call.busy, Call.busy, hjob]
  refine ⟨fun j d hd => ?_, fun j d hd => ?_, fun j d ok hd => ?_, fun hidle hlast => ?_⟩
  · rcases getElem?_set_cases hd with ⟨rfl, rfl⟩ | ⟨-, hd⟩
    · rw [hop, hmade, hbusy]
      exact fun htries hmine => h.mine j c hc htries (hmine.imp_right hphase)
    · exact h.mine j d hd
  · rcases getElem?_set_cases hd with ⟨rfl, rfl⟩ | ⟨-, hd⟩
    · rw [hop, hmade]
      exact fun htries hwrites => h.next j c hc htries (hphase hwrites)
    · exact h.next j d hd
  · rcases getElem?_set_cases hd with ⟨rfl, rfl⟩ | ⟨-, hd⟩
    · rw [hjob]
      exact fun hwrites => h.ended j c ok hc (hphase hwrites)
    · exact h.ended j d ok hd
  · have hidle' : w.Idle := hidle.of_set hc fun hb => hbusy.trans hb
    obtain ⟨j, d, hj, hd, hwhose⟩ := h.whose hidle' hlast
    obtain ⟨d', hd', hsame⟩ : ∃ d', (w.calls.set k c')[j]? = some d' ∧ d'.made = d.made := by
      by_cases hjk : j = k
      · subst hjk
        obtain rfl := Option.some.inj (hc.symm.trans hd)
        exact ⟨c', getElem?_set_self hc c', hmade⟩
      · exact ⟨d, (List.getElem?_set_ne (Ne.symm hjk)).trans hd, rfl⟩
    refine ⟨j, d', hj, hd', ?_⟩
    rw [hsame]
    rcases hlock with rfl | ⟨hlock, hmine⟩
    · exact hwhose
    · refine .inl (hwhose.elim id fun hlock' => ?_)
      obtain rfl := Option.some.inj (hlock.symm.trans hlock')
      obtain rfl := Option.some.inj (hc.symm.trans hd)
      exact hmine hidle' hlast

/-- A call gives up the lock, and the state is as it was. -/
theorem Whose.unlocks (h : w.Whose) (hkept : w.Kept) {phase : Phase} (hc : w.calls[k]? = some c)
    (hphase : c.phase = .Writes) (hphase' : phase ≠ .Writes)
    (hcare : c.op.tries = true → c.job ≠ some (.Ended true)) :
    Whose { w with lock := none, calls := w.calls.set k { c with phase := phase } } := by
  refine h.set hc rfl rfl rfl (fun hwrites => absurd hwrites hphase')
    (.inr ⟨hkept.locked hc hphase, fun hidle hlast => ?_⟩)
  obtain ⟨ok, hjob⟩ := hkept.ended hc hphase hidle
  obtain rfl : ok = true := Option.some.inj ((h.ended k c ok hc hphase hjob).1.symm.trans hlast)
  have htries : c.op.tries = false := Bool.eq_false_iff.2 fun htries => hcare htries hjob
  exact h.mine k c hc htries (.inr hphase)

/-- A write goes on. -/
theorem Whose.goes (h : w.Whose) {job job' : Job} {fs : Fs} (hc : w.calls[k]? = some c)
    (hjob : c.job = some job) (hbusy : job.underway = true) (hbusy' : job'.underway = true) :
    (w.goes k c fs job').Whose := by
  have hc' : c.busy = true := by rw [Call.busy, hjob]; exact hbusy
  refine ⟨fun j d hd => ?_, fun j d hd => ?_, fun j d ok hd => ?_, fun hidle => ?_⟩
  · rcases getElem?_set_cases hd with ⟨rfl, rfl⟩ | ⟨-, hd⟩
    · exact fun htries _ => h.mine j c hc htries (.inl hc')
    · exact h.mine j d hd
  · rcases getElem?_set_cases hd with ⟨rfl, rfl⟩ | ⟨-, hd⟩
    · exact h.next j c hc
    · exact h.next j d hd
  · rcases getElem?_set_cases hd with ⟨rfl, rfl⟩ | ⟨-, hd⟩
    · intro _ hend
      obtain rfl := Option.some.inj hend
      cases hbusy'
    · exact h.ended j d ok hd
  · exact absurd (busy_of_job (getElem?_set_self hc _) rfl hbusy') (hidle.not_busy k)

/-- A write has ended, of the state there is unless its call has the lock. -/
theorem Whose.ends (h : w.Whose) (hapart : w.Apart) (hkept : w.Kept) (hc : w.calls[k]? = some c)
    (hbusy : c.busy = true) {ok : Bool} {fs : Fs} {renames : List ℕ}
    (hrenames : ok = true → renames.getLast? = some k)
    (hcare : ok = true → c.phase = .Dropped → c.op.tries = false) :
    Whose { w.ends k c ok with fs := fs, renames := renames } := by
  have hmine := fun htries => h.mine k c hc htries (.inl hbusy)
  refine ⟨fun j d hd => ?_, fun j d hd => ?_, fun j d ok' hd => ?_, fun _ hlast => ?_⟩
  · rcases getElem?_set_cases hd with ⟨rfl, rfl⟩ | ⟨-, hd⟩
    · exact fun htries _ => hmine htries
    · exact h.mine j d hd
  · rcases getElem?_set_cases hd with ⟨rfl, rfl⟩ | ⟨-, hd⟩
    · exact h.next j c hc
    · exact h.next j d hd
  · rcases getElem?_set_cases hd with ⟨rfl, rfl⟩ | ⟨hj, hd⟩
    · intro _ hend
      cases hend
      exact ⟨rfl, hrenames⟩
    · exact fun hwrites => absurd (hapart.locked (hkept.locked hd hwrites) ⟨c, hc, hbusy⟩) hj
  · obtain rfl : ok = true := Option.some.inj hlast
    refine ⟨k, _, hrenames rfl, getElem?_set_self hc _, ?_⟩
    have hk := hkept.calls k c hc
    cases htries : c.op.tries with
    | false => exact .inl (hmine htries)
    | true =>
      cases hphase : c.phase with
      | Waits =>
        obtain ⟨-, hjob, -⟩ := hkept.waiting hc hphase
        rw [Call.busy, hjob] at hbusy
        cases hbusy
      | Writes => exact .inr (hk.writes.1 hphase)
      | Done ok =>
        rw [Call.busy, hk.done ok hphase htries] at hbusy
        cases hbusy
      | Dropped => exact nomatch (hcare rfl hphase).symm.trans htries

/-- A call begins its write. -/
theorem Whose.begins (hkept : w.Kept) (hidle : w.Idle) (hlock : w.lock = none) {c' : Call Json}
    {s : State Json} {applied changes : List ℕ} (hc : w.calls[k]? = some c)
    (hjob : c'.job = some .Dir)
    (hmade : c'.op.tries = false → c'.made = some s)
    (hnext : c'.op.tries = true → c'.made = some (c'.op.closure s)) :
    Whose
      { w with
        state := s
        lock := some k
        calls := w.calls.set k c'
        applied := applied
        changes := changes } := by
  have hnone {j : ℕ} {d : Call Json} (hd : w.calls[j]? = some d) : d.phase ≠ .Writes :=
    fun hwrites => nomatch hlock.symm.trans (hkept.locked hd hwrites)
  refine ⟨fun j d hd => ?_, fun j d hd => ?_, fun j d ok hd => ?_, fun hidle' => ?_⟩
  · rcases getElem?_set_cases hd with ⟨rfl, rfl⟩ | ⟨-, hd⟩
    · exact fun htries _ => hmade htries
    · exact fun _ hmine => hmine.elim (fun hbusy => absurd ⟨d, hd, hbusy⟩ (hidle.not_busy j))
        fun hwrites => absurd hwrites (hnone hd)
  · rcases getElem?_set_cases hd with ⟨rfl, rfl⟩ | ⟨-, hd⟩
    · exact fun htries _ => hnext htries
    · exact fun _ hwrites => absurd hwrites (hnone hd)
  · rcases getElem?_set_cases hd with ⟨rfl, rfl⟩ | ⟨-, hd⟩
    · exact fun _ hend => nomatch hjob.symm.trans hend
    · exact fun hwrites => absurd hwrites (hnone hd)
  · exact absurd (busy_of_job (getElem?_set_self hc _) hjob rfl) (hidle'.not_busy k)

/-- The write of a `try_update` went through, and what it made is the state. -/
theorem Whose.tried (h : w.Whose) (hapart : w.Apart) (hkept : w.Kept) {s : State Json}
    {changes : List ℕ} (hc : w.calls[k]? = some c) (hphase : c.phase = .Writes)
    (hjob : c.job = some (.Ended true)) (hop : c.op.tries = true) (hmade : c.made = some s) :
    Whose
      { w with
        state := s
        lock := none
        calls := w.calls.set k { c with phase := .Done true }
        changes := changes } := by
  have hlock := hkept.locked hc hphase
  have hnone {j : ℕ} {d : Call Json} (hj : j ≠ k) (hd : w.calls[j]? = some d) :
      ¬ (d.busy = true ∨ d.phase = .Writes) := by
    rintro (hbusy | hwrites)
    · exact hj (hapart.locked hlock ⟨d, hd, hbusy⟩).symm
    · exact hj (Option.some.inj ((hkept.locked hd hwrites).symm.trans hlock))
  refine ⟨fun j d hd => ?_, fun j d hd => ?_, fun j d ok hd => ?_, fun _ hlast => ?_⟩
  · rcases getElem?_set_cases hd with ⟨rfl, rfl⟩ | ⟨hj, hd⟩
    · exact fun htries => nomatch hop.symm.trans htries
    · exact fun _ hmine => absurd hmine (hnone hj hd)
  · rcases getElem?_set_cases hd with ⟨rfl, rfl⟩ | ⟨hj, hd⟩
    · exact fun _ => nofun
    · exact fun _ hwrites => absurd (.inr hwrites) (hnone hj hd)
  · rcases getElem?_set_cases hd with ⟨rfl, rfl⟩ | ⟨hj, hd⟩
    · exact nofun
    · exact fun hwrites => absurd (.inr hwrites) (hnone hj hd)
  · exact ⟨k, _, (h.ended k c true hc hphase hjob).2 rfl, getElem?_set_self hc _, .inl hmade⟩

theorem Whose.moves (h : w.Whose) (hapart : w.Apart) (hkept : w.Kept)
    (hmoves : w.Moves codec w') : w'.Whose := by
  cases hmoves with
  | still => exact h
  | call op => exact h.call op
  | update f hc hphase hlock hop hidle =>
    simp only [begin_, hop]
    exact .begins hkept hidle hlock hc rfl (fun _ => rfl) nofun
  | try_update f hc hphase hlock hop hidle =>
    simp only [begin_, hop]
    exact .begins hkept hidle hlock hc rfl nofun fun _ => rfl
  | snapshot hc hphase hop => exact h.set hc rfl rfl rfl nofun (.inl rfl)
  | through ok hc hphase hjob hop =>
    exact h.unlocks hkept hc hphase nofun fun htries => nomatch hop.symm.trans htries
  | tried hc hphase hjob hop =>
    refine h.tried hapart hkept hc hphase hjob hop ?_
    rw [h.next _ _ hc hop hphase, Option.getD_some]
  | failed hc hphase hjob hop =>
    refine h.unlocks hkept hc hphase nofun fun _ => ?_
    rw [hjob]
    exact nofun
  | leaves hc hphase => exact h.set hc rfl rfl rfl nofun (.inl rfl)
  | drops hc hphase hcare => exact h.unlocks hkept hc hphase nofun hcare
  | goes hc hjob hgoes => exact h.goes hc hjob hgoes.underway.1 hgoes.underway.2
  | fails hc hbusy => exact h.ends hapart hkept hc hbusy nofun nofun
  | renames hc hjob htmp hcare =>
    refine h.ends hapart hkept hc ?_ (fun _ => List.getLast?_concat) fun _ => hcare
    rw [Call.busy, hjob]
    rfl

/-! ### The chain of changes -/

/-- The state after these changes, one closure after the other. -/
def after (w : World Json) (ks : List ℕ) : State Json :=
  ks.foldl (fun s k =>
    match w.calls[k]? with
    | some c => c.op.closure s
    | none => s) w.first

/-- The state is what the changes have made of the first, and each closure was applied to what the
changes before it had made. -/
structure Chain (w : World Json) : Prop where
  state : w.state = w.after w.changes
  onto : ∀ (k : ℕ) (c : Call Json) (s : State Json), w.calls[k]? = some c → c.made = some s →
    ∃ before, before <+: w.changes ∧ s = c.op.closure (w.after before) ∧
      (k ∈ w.changes → before ++ [k] <+: w.changes)

theorem after_concat (hc : w.calls[k]? = some c) (ks : List ℕ) :
    w.after (ks ++ [k]) = c.op.closure (w.after ks) := by
  rw [after, List.foldl_append, List.foldl_cons, List.foldl_nil, hc]
  rfl

/-- The closures make the state, whatever else there is to the calls. -/
theorem after_congr {ks : List ℕ} (hfirst : w'.first = w.first)
    (hops : ∀ k ∈ ks, (w'.calls[k]?).map Call.op = (w.calls[k]?).map Call.op) :
    w'.after ks = w.after ks := by
  rw [after, after, hfirst]
  refine List.foldl_ext _ _ _ fun s k hk => ?_
  have hop := hops k hk
  revert hop
  cases w.calls[k]? <;> cases w'.calls[k]? <;> simp +contextual

theorem after_set {c' : Call Json} (hc : w.calls[k]? = some c) (hop : c'.op = c.op)
    (hcalls : w'.calls = w.calls.set k c') (hfirst : w'.first = w.first) (ks : List ℕ) :
    w'.after ks = w.after ks := by
  refine after_congr hfirst fun j _ => ?_
  rw [hcalls]
  by_cases hj : j = k
  · subst hj
    rw [getElem?_set_self hc, hc, Option.map_some, Option.map_some, hop]
  · rw [List.getElem?_set_ne (Ne.symm hj)]

theorem Chain.call (h : w.Chain) (hkept : w.Kept) (op : Op Json) :
    Chain { w with calls := w.calls ++ [⟨op, .Waits, none, none⟩] } := by
  have hafter (ks : List ℕ) (hks : ks <+: w.changes) :
      after { w with calls := w.calls ++ [⟨op, .Waits, none, none⟩] } ks = w.after ks :=
    after_congr rfl fun j hj => by
      rw [List.getElem?_append_left (hkept.changes_lt j (hks.subset hj))]
  refine ⟨h.state.trans (hafter _ List.prefix_rfl).symm, fun j d s hd hmade => ?_⟩
  rcases Fifo.getElem?_concat_cases hd with hd | ⟨-, rfl⟩
  · obtain ⟨before, hbefore, hs, hmem⟩ := h.onto j d s hd hmade
    exact ⟨before, hbefore, by rw [hafter before hbefore]; exact hs, hmem⟩
  · cases hmade

/-- A move that does not change the state. -/
theorem Chain.set (h : w.Chain) {c' : Call Json} (hc : w.calls[k]? = some c)
    (hcalls : w'.calls = w.calls.set k c') (hstate : w'.state = w.state)
    (hfirst : w'.first = w.first) (hchanges : w'.changes = w.changes) (hop : c'.op = c.op)
    (hmade : c'.made = c.made ∨ c'.made = some (c.op.closure w.state) ∧ k ∉ w.changes) :
    w'.Chain := by
  have hafter := after_set hc hop hcalls hfirst
  refine ⟨?_, fun j d s hd hs => ?_⟩
  · rw [hstate, hchanges, hafter]
    exact h.state
  · have hsame (hd : ∃ d', w.calls[j]? = some d' ∧ d'.op = d.op ∧ d'.made = d.made) :
        ∃ before, before <+: w'.changes ∧ s = d.op.closure (w'.after before) ∧
          (j ∈ w'.changes → before ++ [j] <+: w'.changes) := by
      obtain ⟨d', hd', hop', hmade'⟩ := hd
      obtain ⟨before, hbefore, hs, hmem⟩ := h.onto j d' s hd' (hmade'.trans hs)
      rw [hchanges, ← hop']
      exact ⟨before, hbefore, by rw [hafter]; exact hs, hmem⟩
    rw [hcalls] at hd
    rcases getElem?_set_cases hd with ⟨rfl, rfl⟩ | ⟨-, hd⟩
    · rcases hmade with hmade | ⟨hmade, hmem⟩
      · exact hsame ⟨c, hc, hop.symm, hmade.symm⟩
      · refine ⟨w.changes, hchanges ▸ List.prefix_rfl, ?_, fun hmem' => ?_⟩
        · rw [hafter, ← h.state, hop]
          exact Option.some.inj (hs.symm.trans hmade)
        · exact absurd (hchanges ▸ hmem') hmem
    · exact hsame ⟨d, hd, rfl, rfl⟩

/-- A move that makes the state anew. -/
theorem Chain.changes (h : w.Chain) {c' : Call Json} (hc : w.calls[k]? = some c)
    (hcalls : w'.calls = w.calls.set k c') (hstate : w'.state = c.op.closure w.state)
    (hfirst : w'.first = w.first) (hchanges : w'.changes = w.changes ++ [k]) (hop : c'.op = c.op)
    (hmade : c'.made = some (c.op.closure w.state)) : w'.Chain := by
  have hafter := after_set hc hop hcalls hfirst
  refine ⟨?_, fun j d s hd hs => ?_⟩
  · rw [hchanges, hafter, after_concat hc, ← h.state, hstate]
  · rw [hcalls] at hd
    rw [hchanges]
    rcases getElem?_set_cases hd with ⟨rfl, rfl⟩ | ⟨hj, hd⟩
    · refine ⟨w.changes, List.prefix_append .., ?_, fun _ => List.prefix_rfl⟩
      rw [hafter, ← h.state, hop]
      exact Option.some.inj (hs.symm.trans hmade)
    · obtain ⟨before, hbefore, hs, hmem⟩ := h.onto j d s hd hs
      refine ⟨before, hbefore.trans (List.prefix_append ..), by rw [hafter]; exact hs,
        fun hin => ?_⟩
      have hmem' : j ∈ w.changes :=
        (List.mem_append.1 hin).resolve_right fun heq => hj (List.mem_singleton.1 heq)
      exact (hmem hmem').trans (List.prefix_append ..)

theorem Chain.moves (h : w.Chain) (hwhose : w.Whose) (hkept : w.Kept)
    (hmoves : w.Moves codec w') : w'.Chain := by
  cases hmoves with
  | still => exact h
  | call op => exact h.call hkept op
  | update f hc hphase hlock hop hidle =>
    simp only [begin_, hop]
    exact h.changes hc rfl (by rw [hop]; rfl) rfl rfl hop.symm (by rw [hop]; rfl)
  | try_update f hc hphase hlock hop hidle =>
    obtain ⟨-, -, -, hchanges, -⟩ := hkept.waiting hc hphase
    simp only [begin_, hop]
    exact h.set hc rfl rfl rfl rfl hop.symm (.inr ⟨by rw [hop]; rfl, hchanges⟩)
  | snapshot hc hphase hop => exact h.set hc rfl rfl rfl rfl rfl (.inl rfl)
  | through ok hc hphase hjob hop => exact h.set hc rfl rfl rfl rfl rfl (.inl rfl)
  | tried hc hphase hjob hop =>
    have hmade := hwhose.next _ _ hc hop hphase
    refine h.changes hc rfl ?_ rfl rfl rfl hmade
    rw [hmade, Option.getD_some]
  | failed hc hphase hjob hop => exact h.set hc rfl rfl rfl rfl rfl (.inl rfl)
  | leaves hc hphase => exact h.set hc rfl rfl rfl rfl rfl (.inl rfl)
  | drops hc hphase hcare => exact h.set hc rfl rfl rfl rfl rfl (.inl rfl)
  | goes hc hjob hgoes => exact h.set hc rfl rfl rfl rfl rfl (.inl rfl)
  | fails hc hbusy => exact h.set hc rfl rfl rfl rfl rfl (.inl rfl)
  | renames hc hjob htmp hcare => exact h.set hc rfl rfl rfl rfl rfl (.inl rfl)

/-! ### All of it -/

/-- What careful steps keep. -/
structure Good (codec : Codec Json) (w : World Json) : Prop where
  kept : w.Kept
  apart : w.Apart
  placed : w.Placed codec
  whose : w.Whose
  chain : w.Chain

theorem Good.step (h : w.Good codec) {a : Action Json} (hcare : w.Careful a) :
    (w.step codec a).Good codec := by
  have hmoves : w.Moves codec (w.step codec a) := moves_step hcare
  exact ⟨h.kept.moves hmoves, h.apart.moves hmoves, h.placed.moves h.apart h.kept hmoves,
    h.whose.moves h.apart h.kept hmoves, h.chain.moves h.whose h.kept hmoves⟩

/-- What `open` found is what was found. -/
theorem Moves.opened (hmoves : w.Moves codec w') : w'.first = w.first ∧ w'.left = w.left := by
  cases hmoves with
  | update f hc hphase hlock hop hidle =>
    simp only [begin_, hop, and_self]
  | try_update f hc hphase hlock hop hidle =>
    simp only [begin_, hop, and_self]
  | _ => exact ⟨rfl, rfl⟩

end World

end StateStore

end Rurge
