import Mathlib

/-!
# An event that happens once, and the hooks that wait for it

Whoever makes the event happen takes the hooks that wait, under their lock, and runs them one after
the other.  A hook comes either with no look at the event (`push`, for those that come before it),
or by a task that locks the hooks, looks whether the event has happened, and then has its hook wait
or runs it itself.  The event is set outside the lock, so it may happen between the look and what
follows from it; no hook is lost by that and none runs twice (`Sound.step`, `Sound.settled`), and
the tasks come to their ends (`exists_step`, `work_step`).
-/

namespace Rurge

/-- A task at a latch. -/
inductive Latch.Task (E H : Type*)
  /-- brings a hook, and waits for the lock -/
  | Asks (h : H)
  /-- has the lock -/
  | Holds (h : H)
  /-- has the lock, and has looked at the event -/
  | Saw (h : H) (seen : Option E)
  /-- has made the event happen, and is to take the hooks -/
  | Takes (e : E)
  /-- has these hooks left to run -/
  | Runs (e : E) (hs : List H)
  /-- is inside a hook -/
  | Inside (e : E) (h : H) (hs : List H)
  deriving DecidableEq

/-- An event, the hooks that wait for it, and the tasks at them; the last two fields say what was
brought and what was run. -/
structure Latch (E H : Type*) where
  event : Option E
  waiting : List H
  tasks : List (Latch.Task E H)
  registered : List H
  ran : List (E × H)

namespace Latch

variable {E H : Type*}

/-- The hooks a task has on its hands. -/
def Task.hooks : Task E H → List H
  | .Asks h | .Holds h | .Saw h _ => [h]
  | .Takes _ => []
  | .Runs _ hs | .Inside _ _ hs => hs

/-- Whether a task has the lock. -/
def Task.locks : Task E H → Bool
  | .Holds _ | .Saw _ _ => true
  | _ => false

/-- The event a task knows of. -/
def Task.knows : Task E H → Option E
  | .Saw _ seen => seen
  | .Takes e | .Runs e _ | .Inside e _ _ => some e
  | _ => none

/-- Nothing happened yet, and these hooks wait. -/
def new (hooks : List H) : Latch E H := ⟨none, hooks, [], hooks, []⟩

variable (l : Latch E H)

/-- Somebody has the lock. -/
def locked : Bool := l.tasks.any Task.locks

/-- The event happens. -/
def fire (e : E) : Latch E H :=
  match l.event with
  | some _ => l
  | none => { l with event := some e, tasks := l.tasks ++ [.Takes e] }

/-- A hook that is put with the others. -/
def push (h : H) : Latch E H :=
  if l.locked then l
  else { l with waiting := l.waiting ++ [h], registered := l.registered ++ [h] }

/-- A task comes with a hook. -/
def ask (h : H) : Latch E H :=
  { l with tasks := l.tasks ++ [.Asks h], registered := l.registered ++ [h] }

/-- The next step of the task at `k`, unless it waits for the lock. -/
def step (k : ℕ) : Option (Latch E H) :=
  match l.tasks[k]? with
  | some (.Asks h) =>
    if l.locked then none else some { l with tasks := l.tasks.set k (.Holds h) }
  | some (.Holds h) => some { l with tasks := l.tasks.set k (.Saw h l.event) }
  | some (.Saw h none) =>
    some { l with waiting := l.waiting ++ [h], tasks := l.tasks.eraseIdx k }
  | some (.Saw h (some e)) => some { l with tasks := l.tasks.set k (.Runs e [h]) }
  | some (.Takes e) =>
    if l.locked then none
    else some { l with waiting := [], tasks := l.tasks.set k (.Runs e l.waiting) }
  | some (.Runs _ []) => some { l with tasks := l.tasks.eraseIdx k }
  | some (.Runs e (h :: hs)) =>
    some { l with tasks := l.tasks.set k (.Inside e h hs), ran := l.ran ++ [(e, h)] }
  | some (.Inside e _ hs) => some { l with tasks := l.tasks.set k (.Runs e hs) }
  | none => none

variable {l} {l' : Latch E H} {k : ℕ}

/-! ### One step -/

/-- What a task's step makes of the latch, the task set apart from the others. -/
inductive Steps (l : Latch E H) (rest : List (Task E H)) : Task E H → Latch E H → Prop
  | locks {h : H} {tasks : List (Task E H)} (hfree : l.locked = false)
      (htasks : tasks.Perm (.Holds h :: rest)) : Steps l rest (.Asks h) { l with tasks := tasks }
  | looks {h : H} {tasks : List (Task E H)} (htasks : tasks.Perm (.Saw h l.event :: rest)) :
      Steps l rest (.Holds h) { l with tasks := tasks }
  | waits {h : H} {tasks : List (Task E H)} (htasks : tasks.Perm rest) :
      Steps l rest (.Saw h none) { l with waiting := l.waiting ++ [h], tasks := tasks }
  | goes {h : H} {e : E} {tasks : List (Task E H)} (htasks : tasks.Perm (.Runs e [h] :: rest)) :
      Steps l rest (.Saw h (some e)) { l with tasks := tasks }
  | takes {e : E} {tasks : List (Task E H)} (hfree : l.locked = false)
      (htasks : tasks.Perm (.Runs e l.waiting :: rest)) :
      Steps l rest (.Takes e) { l with waiting := [], tasks := tasks }
  | leaves {e : E} {tasks : List (Task E H)} (htasks : tasks.Perm rest) :
      Steps l rest (.Runs e []) { l with tasks := tasks }
  | enters {e : E} {h : H} {hs : List H} {tasks : List (Task E H)}
      (htasks : tasks.Perm (.Inside e h hs :: rest)) :
      Steps l rest (.Runs e (h :: hs)) { l with tasks := tasks, ran := l.ran ++ [(e, h)] }
  | returns {e : E} {h : H} {hs : List H} {tasks : List (Task E H)}
      (htasks : tasks.Perm (.Runs e hs :: rest)) :
      Steps l rest (.Inside e h hs) { l with tasks := tasks }

theorem steps (h : l.step k = some l') :
    ∃ task rest, l.tasks[k]? = some task ∧ l.tasks.Perm (task :: rest) ∧ l.Steps rest task l' := by
  unfold step at h
  cases htask : l.tasks[k]? with
  | none => simp [htask] at h
  | some task =>
    obtain ⟨hk, hget⟩ := List.getElem?_eq_some_iff.1 htask
    have hset : ∀ task', (l.tasks.set k task').Perm (task' :: l.tasks.eraseIdx k) := fun task' =>
      List.set_perm_cons_eraseIdx hk task'
    have hperm : l.tasks.Perm (task :: l.tasks.eraseIdx k) := by
      rw [← hget]
      exact (List.getElem_cons_eraseIdx_perm hk).symm
    refine ⟨task, l.tasks.eraseIdx k, rfl, hperm, ?_⟩
    rw [htask] at h
    cases task with
    | Asks hook =>
      split_ifs at h with hlocked
      cases h
      exact .locks (Bool.eq_false_iff.2 hlocked) (hset _)
    | Holds hook =>
      cases h
      exact .looks (hset _)
    | Saw hook seen =>
      cases seen <;> cases h
      · exact .waits (List.Perm.refl _)
      · exact .goes (hset _)
    | Takes e =>
      split_ifs at h with hlocked
      cases h
      exact .takes (Bool.eq_false_iff.2 hlocked) (hset _)
    | Runs e hs =>
      cases hs <;> cases h
      · exact .leaves (List.Perm.refl _)
      · exact .enters (hset _)
    | Inside e hook hs =>
      cases h
      exact .returns (hset _)

theorem step_event (h : l.step k = some l') : l'.event = l.event := by
  obtain ⟨task, rest, -, -, hsteps⟩ := steps h
  cases hsteps <;> rfl

theorem step_registered (h : l.step k = some l') : l'.registered = l.registered := by
  obtain ⟨task, rest, -, -, hsteps⟩ := steps h
  cases hsteps <;> rfl

theorem fire_of_none {e : E} (h : l.event = none) :
    l.fire e = { l with event := some e, tasks := l.tasks ++ [.Takes e] } := by
  rw [fire, h]

@[simp] theorem event_push (l : Latch E H) (h : H) : (l.push h).event = l.event := by
  unfold push
  split_ifs <;> rfl

@[simp] theorem tasks_push (l : Latch E H) (h : H) : (l.push h).tasks = l.tasks := by
  unfold push
  split_ifs <;> rfl

@[simp] theorem ran_push (l : Latch E H) (h : H) : (l.push h).ran = l.ran := by
  unfold push
  split_ifs <;> rfl

theorem count_registered_push [DecidableEq H] {h hook : H} (hne : h ≠ hook) (l : Latch E H) :
    (l.push h).registered.count hook = l.registered.count hook := by
  unfold push
  split_ifs
  · rfl
  · simp [hne]

/-! ### No hook is lost, and none runs twice -/

/-- What holds of a latch at all times. -/
structure Sound (l : Latch E H) : Prop where
  /-- every hook brought waits, is on a task's hands or was run, and only once -/
  hooks : (l.waiting ++ l.tasks.flatMap Task.hooks ++ l.ran.map Prod.snd).Perm l.registered
  /-- the event a task knows of is the one that happened -/
  knows : ∀ task ∈ l.tasks, ∀ e, task.knows = some e → l.event = some e
  /-- and so is the one a hook was run with -/
  told : ∀ r ∈ l.ran, l.event = some r.1
  /-- hooks that wait after the event are still to be taken -/
  taken : l.event ≠ none → l.waiting ≠ [] → ∃ e, .Takes e ∈ l.tasks
  /-- and so is one that is about to wait -/
  seen : l.event ≠ none → ∀ h, .Saw h none ∈ l.tasks → ∃ e, .Takes e ∈ l.tasks

theorem sound_new (hooks : List H) : (new hooks : Latch E H).Sound where
  hooks := by simp [new]
  knows := fun _ h => absurd h List.not_mem_nil
  told := fun _ h => absurd h List.not_mem_nil
  taken := fun h => absurd rfl h
  seen := fun h => absurd rfl h

theorem Sound.fire (h : l.Sound) (e : E) : (l.fire e).Sound := by
  cases hevent : l.event with
  | some _ => simpa only [Latch.fire, hevent] using h
  | none =>
    have hran : l.ran = [] := by
      refine List.eq_nil_iff_forall_not_mem.2 fun r hr => ?_
      have := h.told r hr
      simp [hevent] at this
    simp only [Latch.fire, hevent]
    constructor
    · simpa [Task.hooks] using h.hooks
    · intro task htask e' hknows
      rcases List.mem_append.1 htask with hold | hnew
      · have := h.knows task hold e' hknows
        simp [hevent] at this
      · rw [List.mem_singleton.1 hnew] at hknows
        exact hknows
    · simp [hran]
    · exact fun _ _ => ⟨e, List.mem_append_right _ List.mem_cons_self⟩
    · exact fun _ _ _ => ⟨e, List.mem_append_right _ List.mem_cons_self⟩

/-- Where a hook is: it waits, it is on a task's hands, or it was run. -/
theorem Sound.count [DecidableEq H] (h : l.Sound) (hook : H) :
    l.waiting.count hook + (l.tasks.flatMap Task.hooks).count hook +
      (l.ran.map Prod.snd).count hook = l.registered.count hook := by
  rw [← List.count_append, ← List.count_append]
  exact h.hooks.count_eq hook

/-- A hook may be put with the others as long as nothing happened. -/
theorem Sound.push (h : l.Sound) (hevent : l.event = none) (hook : H) : (l.push hook).Sound := by
  classical
  unfold Latch.push
  split_ifs
  · exact h
  · refine ⟨List.perm_iff_count.2 fun a => ?_, h.knows, h.told, fun hne => absurd hevent hne,
      h.seen⟩
    have := h.count a
    simp only [List.count_append]
    omega

theorem Sound.ask (h : l.Sound) (hook : H) : (l.ask hook).Sound := by
  classical
  constructor
  · refine List.perm_iff_count.2 fun a => ?_
    have := h.count a
    simp only [Latch.ask, List.flatMap_append, List.flatMap_singleton, Task.hooks,
      List.count_append]
    omega
  · intro task htask e hknows
    rcases List.mem_append.1 htask with hold | hnew
    · exact h.knows task hold e hknows
    · rw [List.mem_singleton.1 hnew] at hknows
      cases hknows
  · exact h.told
  · intro hne hwaiting
    obtain ⟨e, he⟩ := h.taken hne hwaiting
    exact ⟨e, List.mem_append_left _ he⟩
  · intro hne hook' hsaw
    rcases List.mem_append.1 hsaw with hold | hnew
    · obtain ⟨e, he⟩ := h.seen hne hook' hold
      exact ⟨e, List.mem_append_left _ he⟩
    · cases List.mem_singleton.1 hnew

/-- The tasks after a step, where one changed. -/
theorem Sound.counts [DecidableEq H] (h : l.Sound) {task : Task E H} {rest : List (Task E H)}
    (hperm : l.tasks.Perm (task :: rest)) (hook : H) :
    l.waiting.count hook + (task.hooks.count hook + (rest.flatMap Task.hooks).count hook) +
      (l.ran.map Prod.snd).count hook = l.registered.count hook := by
  rw [← h.count hook, (hperm.flatMap_right Task.hooks).count_eq hook, List.flatMap_cons,
    List.count_append]

/-- Whoever is to take the hooks is still to take them, unless this step was it. -/
theorem still_takes {task : Task E H} {rest tasks : List (Task E H)}
    (hperm : l.tasks.Perm (task :: rest)) (hrest : ∀ t ∈ rest, t ∈ tasks)
    (hne : ∀ e, task ≠ .Takes e) (h : ∃ e, .Takes e ∈ l.tasks) :
    ∃ e, (.Takes e : Task E H) ∈ tasks := by
  obtain ⟨e, he⟩ := h
  rcases List.mem_cons.1 (hperm.mem_iff.1 he) with heq | hin
  · exact absurd heq.symm (hne e)
  · exact ⟨e, hrest _ hin⟩

/-- A task goes on with the hooks it has. -/
theorem Sound.changed (h : l.Sound) {task task' : Task E H} {rest tasks : List (Task E H)}
    (hperm : l.tasks.Perm (task :: rest)) (htasks : tasks.Perm (task' :: rest))
    (hhooks : task'.hooks = task.hooks) (hknows : ∀ e, task'.knows = some e → l.event = some e)
    (hne : ∀ e, task ≠ .Takes e) (hsaw : ∀ hook, task' = .Saw hook none → l.event = none) :
    Sound { l with tasks := tasks } := by
  classical
  have hin : ∀ t ∈ rest, t ∈ tasks := fun t ht => htasks.mem_iff.2 (List.mem_cons_of_mem _ ht)
  constructor
  · refine List.perm_iff_count.2 fun a => ?_
    have := h.counts hperm a
    simp only [List.count_append, (htasks.flatMap_right Task.hooks).count_eq a, List.flatMap_cons,
      hhooks]
    omega
  · intro t ht e he
    rcases List.mem_cons.1 (htasks.mem_iff.1 ht) with rfl | hrest
    · exact hknows e he
    · exact h.knows t (hperm.mem_iff.2 (List.mem_cons_of_mem _ hrest)) e he
  · exact h.told
  · exact fun hevent hwaiting => still_takes hperm hin hne (h.taken hevent hwaiting)
  · intro hevent hook ht
    rcases List.mem_cons.1 (htasks.mem_iff.1 ht) with heq | hrest
    · exact absurd (hsaw hook heq.symm) hevent
    · exact still_takes hperm hin hne
        (h.seen hevent hook (hperm.mem_iff.2 (List.mem_cons_of_mem _ hrest)))

/-- A hook that saw no event waits. -/
theorem Sound.waits (h : l.Sound) {hook : H} {rest tasks : List (Task E H)}
    (hperm : l.tasks.Perm (.Saw hook none :: rest)) (htasks : tasks.Perm rest) :
    Sound { l with waiting := l.waiting ++ [hook], tasks := tasks } := by
  classical
  have hin : ∀ t ∈ rest, t ∈ tasks := fun t ht => htasks.mem_iff.2 ht
  have hwas : ∀ t ∈ tasks, t ∈ l.tasks := fun t ht =>
    hperm.mem_iff.2 (List.mem_cons_of_mem _ (htasks.mem_iff.1 ht))
  have hne : ∀ e, (.Saw hook none : Task E H) ≠ .Takes e := fun e => nofun
  constructor
  · refine List.perm_iff_count.2 fun a => ?_
    have := h.counts hperm a
    simp only [Task.hooks] at this
    simp only [List.count_append, (htasks.flatMap_right Task.hooks).count_eq a]
    omega
  · exact fun t ht => h.knows t (hwas t ht)
  · exact h.told
  · exact fun hevent _ => still_takes hperm hin hne
      (h.seen hevent hook (hperm.mem_iff.2 List.mem_cons_self))
  · exact fun hevent hook' ht => still_takes hperm hin hne (h.seen hevent hook' (hwas _ ht))

/-- The hooks are taken: nobody has the lock, so none is about to wait. -/
theorem Sound.takes (h : l.Sound) {e : E} {rest tasks : List (Task E H)}
    (hfree : l.locked = false) (hperm : l.tasks.Perm (.Takes e :: rest))
    (htasks : tasks.Perm (.Runs e l.waiting :: rest)) :
    Sound { l with waiting := [], tasks := tasks } := by
  classical
  constructor
  · refine List.perm_iff_count.2 fun a => ?_
    have := h.counts hperm a
    simp only [Task.hooks, List.count_nil] at this
    simp only [List.count_append, (htasks.flatMap_right Task.hooks).count_eq a, List.flatMap_cons,
      Task.hooks, List.count_nil]
    omega
  · intro t ht e' he
    rcases List.mem_cons.1 (htasks.mem_iff.1 ht) with rfl | hrest
    · exact h.knows _ (hperm.mem_iff.2 List.mem_cons_self) e' he
    · exact h.knows t (hperm.mem_iff.2 (List.mem_cons_of_mem _ hrest)) e' he
  · exact h.told
  · exact fun _ hwaiting => absurd rfl hwaiting
  · intro _ hook ht
    rcases List.mem_cons.1 (htasks.mem_iff.1 ht) with heq | hrest
    · cases heq
    · have hlocked : l.locked = true :=
        List.any_eq_true.2 ⟨_, hperm.mem_iff.2 (List.mem_cons_of_mem _ hrest), rfl⟩
      rw [hfree] at hlocked
      cases hlocked

/-- A task is through with its hooks. -/
theorem Sound.leaves (h : l.Sound) {e : E} {rest tasks : List (Task E H)}
    (hperm : l.tasks.Perm (.Runs e [] :: rest)) (htasks : tasks.Perm rest) :
    Sound { l with tasks := tasks } := by
  classical
  have hin : ∀ t ∈ rest, t ∈ tasks := fun t ht => htasks.mem_iff.2 ht
  have hwas : ∀ t ∈ tasks, t ∈ l.tasks := fun t ht =>
    hperm.mem_iff.2 (List.mem_cons_of_mem _ (htasks.mem_iff.1 ht))
  have hne : ∀ e', (.Runs e [] : Task E H) ≠ .Takes e' := fun e' => nofun
  constructor
  · refine List.perm_iff_count.2 fun a => ?_
    have := h.counts hperm a
    simp only [Task.hooks, List.count_nil] at this
    simp only [List.count_append, (htasks.flatMap_right Task.hooks).count_eq a]
    omega
  · exact fun t ht => h.knows t (hwas t ht)
  · exact h.told
  · exact fun hevent hwaiting => still_takes hperm hin hne (h.taken hevent hwaiting)
  · exact fun hevent hook' ht => still_takes hperm hin hne (h.seen hevent hook' (hwas _ ht))

/-- A task begins to run one of its hooks. -/
theorem Sound.enters (h : l.Sound) {e : E} {hook : H} {hs : List H} {rest tasks : List (Task E H)}
    (hperm : l.tasks.Perm (.Runs e (hook :: hs) :: rest))
    (htasks : tasks.Perm (.Inside e hook hs :: rest)) :
    Sound { l with tasks := tasks, ran := l.ran ++ [(e, hook)] } := by
  classical
  have hin : ∀ t ∈ rest, t ∈ tasks := fun t ht => htasks.mem_iff.2 (List.mem_cons_of_mem _ ht)
  have hne : ∀ e', (.Runs e (hook :: hs) : Task E H) ≠ .Takes e' := fun e' => nofun
  have hevent : l.event = some e := h.knows _ (hperm.mem_iff.2 List.mem_cons_self) e rfl
  constructor
  · refine List.perm_iff_count.2 fun a => ?_
    have := h.counts hperm a
    simp only [Task.hooks, List.count_cons] at this
    simp only [List.count_append, (htasks.flatMap_right Task.hooks).count_eq a, List.flatMap_cons,
      Task.hooks, List.map_append, List.map_cons, List.map_nil, List.count_cons, List.count_nil]
    omega
  · intro t ht e' he
    rcases List.mem_cons.1 (htasks.mem_iff.1 ht) with rfl | hrest
    · exact h.knows _ (hperm.mem_iff.2 List.mem_cons_self) e' he
    · exact h.knows t (hperm.mem_iff.2 (List.mem_cons_of_mem _ hrest)) e' he
  · intro r hr
    rcases List.mem_append.1 hr with hold | hnew
    · exact h.told r hold
    · rw [List.mem_singleton.1 hnew]
      exact hevent
  · exact fun hne' hwaiting => still_takes hperm hin hne (h.taken hne' hwaiting)
  · intro hne' hook' ht
    rcases List.mem_cons.1 (htasks.mem_iff.1 ht) with heq | hrest
    · cases heq
    · exact still_takes hperm hin hne
        (h.seen hne' hook' (hperm.mem_iff.2 (List.mem_cons_of_mem _ hrest)))

/-- **Every step of a task keeps what holds of a latch.** -/
theorem Sound.step (h : l.Sound) (hstep : l.step k = some l') : l'.Sound := by
  obtain ⟨task, rest, -, hperm, hsteps⟩ := Latch.steps hstep
  cases hsteps with
  | locks _ htasks =>
    exact h.changed hperm htasks rfl (fun e => nofun) (fun e => nofun) fun hook => nofun
  | looks htasks =>
    refine h.changed hperm htasks rfl (fun e he => he) (fun e => nofun) fun hook heq => ?_
    injection heq
  | waits htasks => exact h.waits hperm htasks
  | goes htasks =>
    have hevent := h.knows _ (hperm.mem_iff.2 List.mem_cons_self)
    exact h.changed hperm htasks rfl hevent (fun e => nofun) fun hook => nofun
  | takes hfree htasks => exact h.takes hfree hperm htasks
  | leaves htasks => exact h.leaves hperm htasks
  | enters htasks => exact h.enters hperm htasks
  | returns htasks =>
    have hevent := h.knows _ (hperm.mem_iff.2 List.mem_cons_self)
    exact h.changed hperm htasks rfl hevent (fun e => nofun) fun hook => nofun

/-- At no time was a hook run more often than it was brought. -/
theorem Sound.subperm (h : l.Sound) : (l.ran.map Prod.snd).Subperm l.registered :=
  (List.sublist_append_right _ _).subperm.trans h.hooks.subperm

/-- **Once the tasks are through, every hook was run if the event happened, each as often as it was
brought, and none if it did not.** -/
theorem Sound.settled (h : l.Sound) (htasks : l.tasks = []) :
    if l.event.isSome then (l.ran.map Prod.snd).Perm l.registered else l.ran = [] := by
  split_ifs with hevent
  · have hwaiting : l.waiting = [] := by
      by_contra hne
      obtain ⟨e, he⟩ := h.taken (Option.isSome_iff_ne_none.1 hevent) hne
      rw [htasks] at he
      cases he
    simpa [htasks, hwaiting] using h.hooks
  · refine List.eq_nil_iff_forall_not_mem.2 fun r hr => hevent ?_
    rw [h.told r hr]
    rfl

/-! ### How often one hook is begun and ended -/

/-- The hook a task is inside. -/
def Task.current : Task E H → Option H
  | .Inside _ h _ => some h
  | _ => none

variable [DecidableEq H]

/-- How often the hook was begun. -/
def begun (l : Latch E H) (hook : H) : ℕ := (l.ran.map Prod.snd).count hook

/-- How often it was begun and has not come back. -/
def inside (l : Latch E H) (hook : H) : ℕ := l.tasks.countP fun task => task.current == some hook

/-- What a step makes of one hook: it is begun, it ends, or it is where it was. -/
inductive Hook (l : Latch E H) (hook : H) : Option (Task E H) → Latch E H → Prop
  | begins {e : E} {hs : List H} {l' : Latch E H} (hbegun : l'.begun hook = l.begun hook + 1)
      (hinside : l'.inside hook = l.inside hook + 1) : Hook l hook (some (.Runs e (hook :: hs))) l'
  | ends {e : E} {hs : List H} {l' : Latch E H} (hbegun : l'.begun hook = l.begun hook)
      (hinside : l'.inside hook + 1 = l.inside hook) : Hook l hook (some (.Inside e hook hs)) l'
  | rests {task : Option (Task E H)} {l' : Latch E H} (hbegun : l'.begun hook = l.begun hook)
      (hinside : l'.inside hook = l.inside hook)
      (hbegins : ∀ e hs, task ≠ some (.Runs e (hook :: hs)))
      (hends : ∀ e hs, task ≠ some (.Inside e hook hs)) : Hook l hook task l'

theorem countP_of_perm (hook : H) {task : Task E H} {tasks rest : List (Task E H)}
    (h : tasks.Perm (task :: rest)) :
    tasks.countP (fun task => task.current == some hook) =
      rest.countP (fun task => task.current == some hook) +
        if task.current = some hook then 1 else 0 := by
  rw [h.countP_eq, List.countP_cons]
  simp only [beq_iff_eq]

theorem hook_step (hook : H) (h : l.step k = some l') : l.Hook hook l.tasks[k]? l' := by
  obtain ⟨task, rest, htask, hperm, hsteps⟩ := steps h
  have hbefore : l.inside hook = _ := countP_of_perm hook hperm
  rw [htask]
  cases hsteps with
  | locks _ htasks =>
    have hafter := countP_of_perm hook htasks
    exact .rests rfl (hafter.trans hbefore.symm) (fun e hs => nofun) fun e hs => nofun
  | looks htasks =>
    have hafter := countP_of_perm hook htasks
    exact .rests rfl (hafter.trans hbefore.symm) (fun e hs => nofun) fun e hs => nofun
  | waits htasks =>
    have hafter := htasks.countP_eq (fun task : Task E H => task.current == some hook)
    exact .rests rfl (hafter.trans hbefore.symm) (fun e hs => nofun) fun e hs => nofun
  | goes htasks =>
    have hafter := countP_of_perm hook htasks
    exact .rests rfl (hafter.trans hbefore.symm) (fun e hs => nofun) fun e hs => nofun
  | takes _ htasks =>
    have hafter := countP_of_perm hook htasks
    exact .rests rfl (hafter.trans hbefore.symm) (fun e hs => nofun) fun e hs => nofun
  | leaves htasks =>
    have hafter := htasks.countP_eq (fun task : Task E H => task.current == some hook)
    exact .rests rfl (hafter.trans hbefore.symm) (fun e hs => nofun) fun e hs => nofun
  | enters htasks =>
    rename_i e other hs tasks
    have hafter := countP_of_perm hook htasks
    simp only [Task.current, Option.some_inj, reduceCtorEq, if_false] at hbefore hafter
    by_cases hother : other = hook
    · subst hother
      rw [if_pos rfl] at hafter
      refine .begins ?_ (hafter.trans (congrArg (· + 1) hbefore.symm))
      simp [begun]
    · rw [if_neg hother] at hafter
      refine .rests ?_ (hafter.trans hbefore.symm) (fun e hs heq => hother (by cases heq; rfl))
        fun e hs => nofun
      simp [begun, hother]
  | returns htasks =>
    rename_i e other hs tasks
    have hafter := countP_of_perm hook htasks
    simp only [Task.current, Option.some_inj, reduceCtorEq, if_false] at hbefore hafter
    by_cases hother : other = hook
    · subst hother
      rw [if_pos rfl] at hbefore
      exact .ends rfl ((congrArg (· + 1) hafter).trans hbefore.symm)
    · rw [if_neg hother] at hbefore
      exact .rests rfl (hafter.trans hbefore.symm) (fun e hs => nofun)
        fun e hs heq => hother (by cases heq; rfl)

omit [DecidableEq H]

/-! ### The tasks come to their ends -/

/-- How much a task has left to do. -/
def Task.work : Task E H → ℕ
  | .Asks _ => 6
  | .Holds _ => 5
  | .Saw _ _ => 4
  | .Takes _ => 2
  | .Runs _ hs => 2 * hs.length + 1
  | .Inside _ _ hs => 2 * hs.length + 2

/-- How much is left to do at a latch. -/
def work (l : Latch E H) : ℕ := (l.tasks.map Task.work).sum + 2 * l.waiting.length

theorem work_step (h : l.step k = some l') : l'.work < l.work := by
  obtain ⟨task, rest, -, hperm, hsteps⟩ := steps h
  have hbefore : (l.tasks.map Task.work).sum = task.work + (rest.map Task.work).sum := by
    rw [(hperm.map _).sum_eq, List.map_cons, List.sum_cons]
  have hafter : ∀ {tasks others : List (Task E H)}, tasks.Perm others →
      (tasks.map Task.work).sum = (others.map Task.work).sum := fun htasks =>
    (htasks.map _).sum_eq
  cases hsteps <;> rename_i htasks <;>
    simp only [work, hbefore, hafter htasks, List.map_cons, List.sum_cons, Task.work,
      List.length_append, List.length_cons, List.length_nil] <;> omega

/-- **Where a task is left, one of them has a step to make.** -/
theorem exists_step (h : l.tasks ≠ []) : ∃ k l', l.step k = some l' := by
  cases hlocked : l.locked with
  | true =>
    obtain ⟨task, htask, hlocks⟩ := List.any_eq_true.1 hlocked
    obtain ⟨k, hk⟩ := List.getElem?_of_mem htask
    refine ⟨k, ?_⟩
    unfold step
    rw [hk]
    cases task with
    | Asks hook => cases hlocks
    | Holds hook => exact ⟨_, rfl⟩
    | Saw hook seen =>
      cases seen with
      | none => exact ⟨_, rfl⟩
      | some e => exact ⟨_, rfl⟩
    | Takes e => cases hlocks
    | Runs e hs => cases hlocks
    | Inside e hook hs => cases hlocks
  | false =>
    obtain ⟨task, rest, htasks⟩ := List.exists_cons_of_ne_nil h
    refine ⟨0, ?_⟩
    unfold step
    rw [htasks, List.getElem?_cons_zero]
    cases task with
    | Asks hook => exact ⟨_, if_neg (by simp [hlocked])⟩
    | Holds hook => exact ⟨_, rfl⟩
    | Saw hook seen =>
      cases seen with
      | none => exact ⟨_, rfl⟩
      | some e => exact ⟨_, rfl⟩
    | Takes e => exact ⟨_, if_neg (by simp [hlocked])⟩
    | Runs e hs =>
      cases hs with
      | nil => exact ⟨_, rfl⟩
      | cons hook hs => exact ⟨_, rfl⟩
    | Inside e hook hs => exact ⟨_, rfl⟩

end Latch

end Rurge
