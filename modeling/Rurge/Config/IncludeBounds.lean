import Rurge.Config.IncludeRuns

/-!
# What an expansion takes in

How many texts are taken in and how deep, that none is taken in inside itself, and that the source
is asked once per URL.
-/

namespace Rurge

namespace Config

variable {Url : Type*} {w : Setup Url} {depth n : ℕ}
  {nested : Profile → State Url → Profile × State Url} {profile text : Profile}
  {st st' st₁ : State Url} {target : Str} {span : Span} {reach : Reach} {s : List (Visiting Url)}
  {key : Visiting Url} {events more : List (Event Url)}

/-! ### Texts inside texts -/

/-- What an expansion is inside of after these events, being inside of `s` before them. -/
def within (s : List (Visiting Url)) : List (Event Url) → List (Visiting Url)
  | [] => s
  | .entered key :: events => within (key :: s) events
  | .left_ _ :: events => within s.tail events
  | _ :: events => within s events

/-- Events inside of `s` that end inside of it: no text is taken in inside itself, nor `n` levels or
more below. -/
structure Fits (s : List (Visiting Url)) (n : ℕ) (events : List (Event Url)) : Prop where
  within_eq : within s events = s
  fresh : ∀ pre key post, events = pre ++ .entered key :: post →
    key ∉ within s pre ∧ (within s pre).length < s.length + n

theorem within_append (s : List (Visiting Url)) (events more : List (Event Url)) :
    within s (events ++ more) = within (within s events) more := by
  induction events generalizing s with
  | nil => rfl
  | cons e events ih => cases e <;> exact ih _

theorem Fits.append (h : Fits s n events) (h' : Fits s n more) : Fits s n (events ++ more) := by
  refine ⟨by rw [within_append, h.within_eq, h'.within_eq], fun pre key post heq => ?_⟩
  rcases List.append_eq_append_iff.1 heq with ⟨more', rfl, hmore⟩ | ⟨rest, hevents, hrest⟩
  · rw [within_append, h.within_eq]
    exact h'.fresh more' key post hmore
  · rcases rest with _ | ⟨e, rest⟩
    · rw [List.append_nil] at hevents
      subst hevents
      rw [h.within_eq]
      exact h'.fresh [] key post hrest.symm
    · rw [List.cons_append, List.cons.injEq] at hrest
      obtain ⟨rfl, -⟩ := hrest
      exact h.fresh pre key rest hevents

theorem Fits.enter (h : Fits (key :: s) n events) (hfresh : key ∉ s) :
    Fits s (n + 1) (.entered key :: (events ++ [.left_ key])) := by
  constructor
  · rw [within, within_append, h.within_eq]
    rfl
  · intro pre key' post heq
    rcases pre with _ | ⟨e, pre⟩
    · rw [List.nil_append, List.cons.injEq] at heq
      obtain ⟨hkey, -⟩ := heq
      cases hkey
      exact ⟨hfresh, Nat.lt_add_of_pos_right n.succ_pos⟩
    · rw [List.cons_append, List.cons.injEq] at heq
      obtain ⟨rfl, heq⟩ := heq
      rw [within]
      rcases List.append_eq_append_iff.1 heq with ⟨rest, -, hrest⟩ | ⟨rest, hevents, hrest⟩
      · rcases rest with _ | ⟨e, rest⟩
        · cases hrest
        · rw [List.cons_append, List.cons.injEq] at hrest
          exact absurd hrest.2 (by simp)
      · rcases rest with _ | ⟨e, rest⟩
        · cases hrest
        · rw [List.cons_append, List.cons.injEq] at hrest
          obtain ⟨rfl, -⟩ := hrest
          obtain ⟨hnot, hless⟩ := h.fresh pre key' rest hevents
          refine ⟨hnot, ?_⟩
          rw [List.length_cons] at hless
          omega

theorem Fits.quiet (h : ∀ e ∈ events, e.For w target reach) : Fits s n events := by
  constructor
  · induction events with
    | nil => rfl
    | cons e events ih =>
      have hrest := ih fun e he => h e (List.mem_cons_of_mem _ he)
      have he := h e List.mem_cons_self
      cases e with
      | entered key => exact he.elim
      | left_ key => exact he.elim
      | looked path => exact hrest
      | opened path => exact hrest
      | asked url => exact hrest
  · rintro pre key post rfl
    exact (h (.entered key) (by simp)).elim

/-- What an expansion with `n` levels below adds to what is asked. -/
def Nests (n : ℕ) (st st' : State Url) : Prop :=
  st'.stack = st.stack ∧ ∃ events, st'.trace = st.trace ++ events ∧ Fits st.stack n events

theorem nests_keeps (n : ℕ) : Keeps (@Nests Url n) where
  refl st := ⟨rfl, [], by simp, ⟨rfl, by simp⟩⟩
  trans := by
    rintro st st' st'' ⟨hstack, events, htrace, hfits⟩ ⟨hstack', events', htrace', hfits'⟩
    refine ⟨hstack'.trans hstack, events ++ events', ?_, hfits.append (hstack ▸ hfits')⟩
    rw [htrace', htrace, List.append_assoc]
  report st d := ⟨rfl, [], by simp [State.report], ⟨rfl, by simp⟩⟩
  lacks st pos := ⟨rfl, [], by simp [State.lacks], ⟨rfl, by simp⟩⟩

theorem Nests.enter (h : Nests n (st.push key) st') (hfresh : key ∉ st.stack) :
    Nests (n + 1) st (st'.pop key) := by
  obtain ⟨hstack, events, htrace, hfits⟩ := h
  refine ⟨by simp [State.pop, hstack, State.push], _, ?_, hfits.enter hfresh⟩
  simp [State.pop, htrace, State.push]

variable [DecidableEq Url]

theorem Asks.nests (h : Asks w target reach st st') (n : ℕ) : Nests n st st' := by
  obtain ⟨events, htrace, hfor⟩ := h.trace
  exact ⟨h.stack, events, htrace, .quiet hfor⟩

/-- **An expansion takes no text in inside itself**, nor deeper than it may, and ends inside of what
it began inside of. -/
theorem expand_at_nests (w : Setup Url) (depth : ℕ) (profile : Profile) (st : State Url) :
    Nests (w.opts.max_depth - depth) st (expand_at w depth profile st).2 := by
  refine expand_at_induct (w := w) (motive := fun depth nested => ∀ profile st,
    Nests (w.opts.max_depth - depth) st (nested profile st).2) ?_ depth profile st
  intro depth nested ih profile st
  refine expand_with_keeps (nests_keeps _) (fun entry target _ st => ?_) st
  rcases take_in_cases w nested target entry.span depth entry.origin.reach st with
    ⟨st', htake, hasks, -⟩ | ⟨included, key, text, st₁, htaken, htake⟩
  · rw [htake]
    exact hasks.nests _
  · rw [htake]
    have hinside := (ih htaken.depth_lt text (st₁.push key)).enter
      (htaken.asks.stack ▸ htaken.fresh)
    have hlevels : w.opts.max_depth - (depth + 1) + 1 = w.opts.max_depth - depth :=
      Nat.sub_add_cancel (Nat.sub_pos_of_lt htaken.depth_lt)
    rw [hlevels] at hinside
    exact (nests_keeps _).trans (htaken.asks.nests _) hinside

/-! ### Counting, reporting and asking -/

/-- No more texts were taken in than targets were counted, nor than may be. -/
structure Counted (w : Setup Url) (st : State Url) : Prop where
  le_count : (entered st.trace).length ≤ st.count
  le_max : (entered st.trace).length ≤ w.opts.max_files

theorem Asks.entered (h : Asks w target reach st st') :
    Config.entered st'.trace = Config.entered st.trace := by
  obtain ⟨events, htrace, hfor⟩ := h.trace
  rw [htrace, entered_append]
  suffices hnone : Config.entered events = [] by rw [hnone, List.append_nil]
  clear htrace
  induction events with
  | nil => rfl
  | cons e events ih =>
    have hrest := ih fun e he => hfor e (List.mem_cons_of_mem _ he)
    have he := hfor e List.mem_cons_self
    cases e with
    | entered key => exact he.elim
    | left_ key => exact he.elim
    | looked path => exact hrest
    | opened path => exact hrest
    | asked url => exact hrest

theorem expand_at_counted (depth : ℕ) (profile : Profile) (st : State Url) :
    Counted w st → Counted w (expand_at w depth profile st).2 := by
  refine expand_at_induct (w := w) (motive := fun _ nested => ∀ profile st,
    Counted w st → Counted w (nested profile st).2) ?_ depth profile st
  intro depth nested ih profile st
  have hasks : ∀ {target reach st st'}, Asks w target reach st st' → Counted w st →
      Counted w st' := fun hasks h =>
    ⟨hasks.entered ▸ h.le_count.trans hasks.count, hasks.entered ▸ h.le_max⟩
  refine expand_with_keeps (R := fun st st' => Counted w st → Counted w st')
    ⟨fun _ => id, fun h h' => h' ∘ h, fun _ _ h => ⟨h.le_count, h.le_max⟩,
      fun _ _ h => ⟨h.le_count, h.le_max⟩⟩ (fun entry target _ st h => ?_) st
  rcases take_in_cases w nested target entry.span depth entry.origin.reach st with
    ⟨st', htake, hst', -⟩ | ⟨included, key, text, st₁, htaken, htake⟩
  · rw [htake]
    exact hasks hst' h
  · rw [htake]
    have hpushed : (entered (st₁.push key).trace).length = (entered st.trace).length + 1 := by
      rw [State.push, entered_append, htaken.asks.entered, List.length_append]
      rfl
    have hle := h.le_count
    have hless := htaken.count_lt
    have hinside := ih htaken.depth_lt text (st₁.push key)
      ⟨by rw [hpushed, State.push, htaken.count]; omega, by rw [hpushed]; omega⟩
    generalize (nested text (st₁.push key)).2 = st₂ at hinside
    have hpopped : entered (st₂.pop key).trace = entered st₂.trace := by
      rw [State.pop, entered_append]
      exact List.append_nil _
    exact ⟨hpopped ▸ hinside.le_count, hpopped ▸ hinside.le_max⟩

/-- What an expansion keeps of its state: what was reported stays, a limit that was crossed is
reported, and the source was asked once for each answer. -/
structure Sound (w : Setup Url) (st st' : State Url) : Prop where
  diags : st.diags <+: st'.diags
  loud : Loud w st → Loud w st'
  answered : Answered w st → Answered w st'

theorem sound_keeps (w : Setup Url) : Keeps (Sound w) where
  refl _ := ⟨List.prefix_rfl, id, id⟩
  trans h h' := ⟨h.diags.trans h'.diags, h'.loud ∘ h.loud, h'.answered ∘ h.answered⟩
  report _ _ := ⟨List.prefix_append _ _, fun h hcount => (h hcount).mono (List.prefix_append _ _),
    fun h => ⟨h.asked, h.nodup, h.source⟩⟩
  lacks _ _ := ⟨List.prefix_rfl, id, fun h => ⟨h.asked, h.nodup, h.source⟩⟩

theorem Asks.sound (h : Asks w target reach st st') : Sound w st st' :=
  ⟨h.diags, h.loud, h.answered⟩

theorem sound_push (st : State Url) (key : Visiting Url) : Sound w st (st.push key) := by
  refine ⟨List.prefix_rfl, id, fun h => ⟨?_, h.nodup, h.source⟩⟩
  rw [State.push, asked_append]
  exact (List.append_nil _).trans h.asked

theorem sound_pop (st : State Url) (key : Visiting Url) : Sound w st (st.pop key) := by
  refine ⟨List.prefix_rfl, id, fun h => ⟨?_, h.nodup, h.source⟩⟩
  rw [State.pop, asked_append]
  exact (List.append_nil _).trans h.asked

theorem take_in_sound
    (hnested : depth < w.opts.max_depth → ∀ text st, Sound w st (nested text st).2)
    (st : State Url) : Sound w st (take_in w nested target span depth reach st).2 := by
  rcases take_in_cases w nested target span depth reach st with
    ⟨st', htake, hasks, -⟩ | ⟨included, key, text, st₁, htaken, htake⟩
  · rw [htake]
    exact hasks.sound
  · rw [htake]
    have hinside := (sound_keeps w).trans (sound_push st₁ key) (hnested htaken.depth_lt text _)
    exact (sound_keeps w).trans htaken.asks.sound ((sound_keeps w).trans hinside (sound_pop _ _))

theorem expand_with_sound
    (hnested : depth < w.opts.max_depth → ∀ text st, Sound w st (nested text st).2)
    (profile : Profile) (st : State Url) :
    Sound w st (expand_with w nested depth profile st).2 :=
  expand_with_keeps (sound_keeps w) (fun _ _ _ => take_in_sound hnested) st

theorem expand_at_sound (w : Setup Url) (depth : ℕ) (profile : Profile) (st : State Url) :
    Sound w st (expand_at w depth profile st).2 :=
  expand_at_induct (w := w)
    (motive := fun _ nested => ∀ profile st, Sound w st (nested profile st).2)
    (fun _ _ ih => expand_with_sound ih) depth profile st

end Config

end Rurge
