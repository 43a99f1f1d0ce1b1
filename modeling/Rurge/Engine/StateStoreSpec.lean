import Rurge.Engine.StateStoreRuns

/-!
# One story

In a run whose steps are careful the state file, the state in memory and what the calls were told
fit each other at every moment (`StateStore.World.Story`, `StateStore.one_story`), and whenever the
process dies the next `open` finds the state of the last write that went through (`Story.reopens`).
Where a dropped call's write meets another's, or a `try_update` is dropped whose write goes through,
they do not (`StateStore.two_stories`).
-/

namespace Rurge

namespace StateStore

open Runs World

variable {Json : Type}

/-- What is found when the process has died. -/
def reopened (codec : Codec Json) (fails : Bool) (w : World Json) : State Json :=
  (open_ codec w.fs.text fails).state

/-- The write of a `try_update` has gone through, and the state that it wrote is still to be taken:
the call is not polled since. -/
def World.Taking (w : World Json) : Prop :=
  ∃ (k : ℕ) (c : Call Json), w.lock = some k ∧ w.calls[k]? = some c ∧ c.op.tries = true ∧
    c.job = some (.Ended true)

/-- The state in memory, the file, and what the calls were told. -/
structure World.Story (codec : Codec Json) (texts : Name → Option Bytes) (fails : Bool)
    (w : World Json) : Prop where
  /-- A closure is applied once at most. -/
  once : w.applied.Nodup ∧ w.changes.Nodup ∧ w.changes ⊆ w.applied
  /-- The changes have made the state of the one that `open` found. -/
  chain : w.first = (open_ codec texts fails).state ∧ w.state = w.after w.changes
  /-- A closure is applied to what the changes before it had made. -/
  onto : ∀ (k : ℕ) (c : Call Json) (s : State Json), w.calls[k]? = some c → c.made = some s →
    ∃ before, before <+: w.changes ∧ s = c.op.closure (w.after before) ∧
      (k ∈ w.changes → before ++ [k] <+: w.changes)
  /-- No two writes go on. -/
  alone : ∀ j k, w.Busy j → w.Busy k → j = k
  /-- The file holds the state there is, but for the moment before a `try_update` takes what it
  wrote; and what the call with the lock has made. -/
  told : w.Idle → w.last = some true →
    (¬ w.Taking → w.fs.text .File = some (codec.to_string w.state)) ∧
      ∀ (k : ℕ) (c : Call Json), w.lock = some k → w.calls[k]? = some c →
        w.fs.text .File = some (c.text codec)
  /-- The file is of the last write that went through, or as it was. -/
  file : w.fs.text .File =
    match w.renames.getLast? with
    | none => (open_ codec texts fails).left
    | some k => (w.calls[k]?).map fun c => c.text codec
  /-- A `try_update` that failed or was dropped has changed nothing. -/
  refused : ∀ (k : ℕ) (c : Call Json), w.calls[k]? = some c → c.op.tries = true →
    c.phase = .Done false ∨ c.phase = .Dropped → k ∉ w.changes ∧ k ∉ w.renames
  /-- One that went well has changed both. -/
  granted : ∀ (k : ℕ) (c : Call Json), w.calls[k]? = some c → c.op.tries = true →
    c.phase = .Done true → k ∈ w.changes ∧ k ∈ w.renames
  /-- The next `open` finds what it found, or the state a call had made. -/
  reopens :
    (w.renames = [] ∧ reopened codec fails w = (open_ codec texts fails).state) ∨
      ∃ (k : ℕ) (c : Call Json) (s t : State Json),
        w.renames.getLast? = some k ∧ w.calls[k]? = some c ∧ c.made = some s ∧
          codec.from_str (codec.to_string s) = some t ∧ reopened codec false w = t.migrate ∧
          (codec.Plain s → STATE_VERSION ≤ s.version → reopened codec false w = s)

variable {codec : Codec Json} {texts : Name → Option Bytes} {fails : Bool} {w : World Json}

/-! ### Opening -/

theorem migrate_of_le {s : State Json} (h : STATE_VERSION ≤ s.version) : s.migrate = s :=
  if_neg (Nat.not_lt.2 h)

theorem text_ofTexts (texts : Name → Option Bytes) :
    (Fs.ofTexts texts).text .File = texts .File := by
  cases h : texts .File with
  | none => simp [Fs.text, Fs.ofTexts, h]
  | some text => simp [Fs.text, Fs.ofTexts, h]

theorem sound_read_state {fs : Fs} (h : fs.Sound) : (read_state codec fs fails).2.Sound := by
  rw [read_state]
  split
  · exact h
  · split_ifs
    · exact h
    · split
      · exact h
      · exact h.put_aside

/-- A world without calls, as the file left it. -/
theorem good_fresh {fs : Fs} (h : fs.Sound) (state : State Json) :
    Good codec ⟨fs, state, none, [], state, fs.text .File, [], [], [], none⟩ where
  kept :=
    { calls := fun _ _ hc => by cases hc
      lock_lt := fun _ hk => by cases hk
      applied_lt := fun _ hk => by cases hk
      changes_lt := fun _ hk => by cases hk
      renames_lt := fun _ hk => by cases hk
      applied_nodup := List.nodup_nil
      changes_nodup := List.nodup_nil }
  apart := fun _ _ ⟨_, hc, _⟩ => by cases hc
  placed :=
    { sound := h
      writing := fun _ _ _ _ hc => by cases hc
      written := fun _ _ hc => by cases hc
      file := rfl }
  whose :=
    { mine := fun _ _ hc => by cases hc
      next := fun _ _ hc => by cases hc
      ended := fun _ _ _ hc => by cases hc
      whose := fun _ hlast => by cases hlast }
  chain :=
    { state := rfl
      onto := fun _ _ _ hc => by cases hc }

theorem good_open : (open_ codec texts fails).Good codec :=
  good_fresh (sound_read_state (Fs.sound_ofTexts texts)) _

theorem read_state_congr {fs fs' : Fs} (h : fs.text .File = fs'.text .File) :
    (read_state codec fs fails).1 = (read_state codec fs' fails).1 := by
  rw [read_state, read_state, h]
  cases fs'.text .File with
  | none => rfl
  | some text =>
    cases fails with
    | true => rfl
    | false => cases hread : codec.from_str text <;> simp [hread]

/-- What was read is read again, a bad file as no file. -/
theorem read_state_again (fs : Fs) :
    (read_state codec (read_state codec fs fails).2 fails).1 = (read_state codec fs fails).1 := by
  cases htext : fs.text .File with
  | none => simp only [read_state, htext]
  | some text =>
    cases fails with
    | true => simp only [read_state, htext, if_true]
    | false =>
      cases hread : codec.from_str text with
      | some s => simp [read_state, htext, hread]
      | none =>
        have hgone : (fs.rename .File .Broken).text .File = none := rfl
        simp [read_state, htext, hread, hgone]

/-- The file that `open` leaves is read as it was. -/
theorem open_left (htext : w.fs.text .File = (open_ codec texts fails).left) :
    reopened codec fails w = (open_ codec texts fails).state :=
  (read_state_congr ((text_ofTexts _).trans htext)).trans (read_state_again (.ofTexts texts))

theorem open_made {s t : State Json} (htext : w.fs.text .File = some (codec.to_string s))
    (ht : codec.from_str (codec.to_string s) = some t) : reopened codec false w = t.migrate := by
  simp only [reopened, open_, read_state, text_ofTexts, htext, ht]
  rfl

/-! ### The story of a run -/

/-- A world of good standing, with what `open` found, tells one story. -/
theorem World.Good.story (h : w.Good codec) (hfirst : w.first = (open_ codec texts fails).state)
    (hleft : w.left = (open_ codec texts fails).left) : w.Story codec texts fails where
  once := ⟨h.kept.applied_nodup, h.kept.changes_nodup, fun k hk => by
    obtain ⟨c, hc⟩ : ∃ c, w.calls[k]? = some c :=
      ⟨_, List.getElem?_eq_getElem (h.kept.changes_lt k hk)⟩
    have hk' := h.kept.calls k c hc
    exact hk'.applied.2 (hk'.changes.1 hk).1⟩
  chain := ⟨hfirst, h.chain.state⟩
  onto := h.chain.onto
  alone j k hj hk := h.apart j k hk (.inl hj)
  told hidle hlast := by
    obtain ⟨k, c, hk, hc, hwhose⟩ := h.whose.whose hidle hlast
    have htext : w.fs.text .File = some (c.text codec) := by
      rw [h.placed.file, hk]
      simp only [hc, Option.map_some]
    -- the call with the lock has written what the file holds
    have hholder (j : ℕ) (d : Call Json) (hlock : w.lock = some j) (hd : w.calls[j]? = some d) :
        d = c ∧ d.phase = .Writes ∧ d.job = some (.Ended true) := by
      have hwrites := (h.kept.calls j d hd).writes.2 hlock
      obtain ⟨ok, hjob⟩ := h.kept.ended hd hwrites hidle
      obtain ⟨hok, hrename⟩ := h.whose.ended j d ok hd hwrites hjob
      obtain rfl : ok = true := Option.some.inj (hok.symm.trans hlast)
      obtain rfl : j = k := Option.some.inj ((hrename rfl).symm.trans hk)
      exact ⟨Option.some.inj (hd.symm.trans hc), hwrites, hjob⟩
    refine ⟨fun htaking => ?_, fun j d hlock hd => ?_⟩
    · have hmade : c.made = some w.state := by
        rcases hwhose with hmade | hlock
        · exact hmade
        · obtain ⟨-, hwrites, hjob⟩ := hholder k c hlock hc
          cases htries : c.op.tries with
          | false => exact h.whose.mine k c hc htries (.inr hwrites)
          | true => exact absurd ⟨k, c, hlock, hc, htries, hjob⟩ htaking
      rw [htext, Call.text, hmade, Option.getD_some]
    · obtain ⟨rfl, -⟩ := hholder j d hlock hd
      exact htext
  file := by
    rw [← hleft]
    exact h.placed.file
  refused k c hc htries hphase := by
    have hk := h.kept.calls k c hc
    rw [hk.changes, hk.renames]
    rcases hphase with hphase | hphase
    · refine ⟨fun hin => ?_, fun hend => ?_⟩
      · cases hphase.symm.trans (hin.2 htries)
      · cases (hk.done false hphase htries).symm.trans hend
    · refine ⟨fun hin => ?_, hk.dropped hphase htries⟩
      cases hphase.symm.trans (hin.2 htries)
  granted k c hc htries hphase := by
    have hk := h.kept.calls k c hc
    have hjob := hk.done true hphase htries
    refine ⟨hk.changes.2 ⟨?_, fun _ => hphase⟩, hk.renames.2 hjob⟩
    rw [← hk.begun, hjob]
    rfl
  reopens := by
    cases hlast : w.renames.getLast? with
    | none =>
      refine .inl ⟨List.getLast?_eq_none_iff.1 hlast, open_left ?_⟩
      rw [h.placed.file, hlast, ← hleft]
    | some k =>
      have hmem := List.mem_of_getLast? hlast
      obtain ⟨c, hc⟩ : ∃ c, w.calls[k]? = some c :=
        ⟨_, List.getElem?_eq_getElem (h.kept.renames_lt k hmem)⟩
      have hk := h.kept.calls k c hc
      obtain ⟨s, hs⟩ : ∃ s, c.made = some s := Option.isSome_iff_exists.1 <| by
        rw [← hk.begun, hk.renames.1 hmem]
        rfl
      obtain ⟨t, ht⟩ := Option.isSome_iff_exists.1 (codec.reads s)
      have htext : w.fs.text .File = some (codec.to_string s) := by
        rw [h.placed.file, hlast]
        simp only [hc, Option.map_some, Call.text, hs, Option.getD_some]
      refine .inr ⟨k, c, s, t, rfl, hc, hs, ht, open_made htext ht, fun hplain hversion => ?_⟩
      obtain rfl := Option.some.inj (ht.symm.trans (codec.from_to s hplain))
      exact (open_made htext ht).trans (migrate_of_le hversion)

/-- **In a run whose steps are careful the store tells one story at every moment.** -/
theorem one_story (codec : Codec Json) (texts : Name → Option Bytes) (fails : Bool)
    (as : List (Action Json)) (h : Along (step codec) Careful (open_ codec texts fails) as) :
    Always (step codec) (Story codec texts fails) (open_ codec texts fails) as := by
  have hgood (w : World Json) (a : Action Json)
      (h : w.Good codec ∧ w.first = (open_ codec texts fails).state ∧
        w.left = (open_ codec texts fails).left) (hcare : w.Careful a) :
      (w.step codec a).Good codec ∧ (w.step codec a).first = (open_ codec texts fails).state ∧
        (w.step codec a).left = (open_ codec texts fails).left := by
    have hmoves : w.Moves codec (w.step codec a) := moves_step hcare
    exact ⟨h.1.step hcare, hmoves.opened.1.trans h.2.1, hmoves.opened.2.trans h.2.2⟩
  exact (h.always hgood ⟨good_open, rfl, rfl⟩).mono fun w hw => hw.1.story hw.2.1 hw.2.2

/-! ### Examples -/

instance (w : World Json) : Decidable w.Idle :=
  inferInstanceAs (Decidable (∀ d ∈ w.calls, d.busy = false))

instance (w : World Json) : DecidablePred w.Careful
  | .call _ => .isTrue trivial
  | .poll k =>
    inferInstanceAs (Decidable (∀ c ∈ w.calls[k]?,
      c.phase = .Waits → w.lock = none → c.op.writes = true → w.Idle))
  | .work k went =>
    inferInstanceAs (Decidable (∀ c ∈ w.calls[k]?,
      c.job = some .Rename → c.phase = .Dropped → c.op.tries = true →
        went = none ∨ w.fs.names .Tmp = none))
  | .drop k =>
    inferInstanceAs (Decidable (∀ c ∈ w.calls[k]?,
      c.phase = .Writes → c.op.tries = true → c.job ≠ some (.Ended true)))

instance decidableCareful (codec : Codec Json) :
    ∀ (as : List (Action Json)) (w : World Json), Decidable (Along (step codec) Careful w as)
  | [], _ => .isTrue trivial
  | a :: as, w =>
    have := decidableCareful codec as (w.step codec a)
    inferInstanceAs (Decidable (w.Careful a ∧ Along (step codec) Careful (w.step codec a) as))

/-- One switch of a state turned. -/
def turn (value : Bool) (s : State Unit) : State Unit :=
  { s with features := { s.features with system_proxy := value } }

/-- A way to write a state that keeps this switch. -/
def switch : Codec Unit where
  to_string s := [if s.features.system_proxy then 1 else 0]
  from_str
    | [byte] => some (turn (byte == 1) .default)
    | _ => none
  Plain s := ∃ value, s = turn value .default
  reads _ := rfl
  from_to := by
    rintro _ ⟨value, rfl⟩
    cases value <;> rfl

/-- The file says that the switch is on. -/
def on : Name → Option Bytes
  | .File => some [1]
  | _ => none

/-- A call's write to its end. -/
def wrote (k : ℕ) : List (Action Unit) := List.replicate 5 (.work k (some 0))

/-- The switch is turned off by a call that is dropped, and on again when its write is over. -/
theorem one_story_dropped :
    Always (step switch) (Story switch on false) (open_ switch on false)
      ([.call (.update (turn false)), .poll 0, .drop 0] ++ wrote 0 ++
        [.call (.try_update (turn true)), .poll 1] ++ wrote 1 ++ [.poll 1]) :=
  one_story switch on false _ (by decide)

/-- **Where a dropped call's write is met by another's, the file is none of a call's; and where the
write of a `try_update` went through, it is not the state there is, until the call is polled, and
after that when it is dropped instead.**  The second call's write truncates the temporary file that
the first one's then renames. -/
theorem two_stories :
    (∃ before after : List (Action Unit),
      before = [.call (.update id), .poll 0, .work 0 (some 0), .work 0 (some 0), .work 0 (some 0),
        .work 0 (some 0), .drop 0, .call (.update id), .poll 1] ∧
      after = [.work 1 (some 0), .work 1 (some 0), .work 0 (some 0)] ∧
      (∀ k ∈ [0, 1], (run (step switch) (open_ switch on false) before).Busy k) ∧
      (run (step switch) (open_ switch on false) (before ++ after)).state.features.system_proxy =
        true ∧
      (run (step switch) (open_ switch on false) (before ++ after)).fs.text .File = some [] ∧
      (reopened switch false (run (step switch) (open_ switch on false)
        (before ++ after))).features.system_proxy = false) ∧
    ∃ written : List (Action Unit),
      written = [.call (.try_update (turn false)), .poll 0] ++ wrote 0 ∧
      Along (step switch) Careful (open_ switch on false) written ∧
      ∀ actions ∈ [written, written ++ [.drop 0]],
        (run (step switch) (open_ switch on false) actions).Idle ∧
        (run (step switch) (open_ switch on false) actions).last = some true ∧
        (run (step switch) (open_ switch on false) actions).state.features.system_proxy = true ∧
        (run (step switch) (open_ switch on false) actions).fs.text .File = some [0] := by
  refine ⟨⟨_, _, rfl, rfl, fun k hk => ?_, rfl, rfl, rfl⟩, _, rfl, by decide, by decide⟩
  rcases List.mem_cons.1 hk with rfl | hk
  · exact ⟨_, rfl, rfl⟩
  · obtain rfl := List.mem_singleton.1 hk
    exact ⟨_, rfl, rfl⟩

end StateStore

end Rurge
