import Rurge.Text
import Rurge.Lib.Assoc
import Rurge.Lib.Runs

/-!
# The test book

The results of the connectivity tests, kept across config generations, and the tests under way.  A
test runs on a task of its own, and whoever asked waits on its channel; a channel is called by the
place of its run among all runs started.  What is measured is left to the runs: a run ends with some
outcome, or dies without one while it measures.
-/

namespace Rurge

namespace TestBook

/-- One test's result: the score or why the test failed, and when it ended on either clock. -/
structure TestResult where
  outcome : Except Str ℕ
  instant : ℕ
  when : ℤ

/-- How far a run has got. `kept` says whether the book stored its result. -/
inductive Phase
  | Measuring
  | Ended (result : TestResult) (kept : Bool)
  | Told (result : TestResult) (kept : Bool)
  | Sent (result : TestResult) (kept : Bool)
  | Died

/-- A test that was started. -/
structure Run where
  policy : Str
  key : UInt64
  phase : Phase

/-- The result the book stored for the run. -/
def Run.stored (run : Run) : Option TestResult :=
  match run.phase with
  | .Ended result true | .Told result true | .Sent result true => some result
  | _ => none

/-- The task of the run is over, so its sender is gone. -/
def Run.over (run : Run) : Bool :=
  match run.phase with
  | .Sent _ _ | .Died => true
  | _ => false

/-- Someone who asked for a test, on the channel of a run. -/
structure Caller where
  policy : Str
  key : UInt64
  run : ℕ
  answer : Option TestResult

/-- The book, the runs in the order they were started, whoever asked, and what the sink was told of
which run. -/
structure World where
  results : Assoc Str (UInt64 × TestResult)
  running : Assoc Str (UInt64 × ℕ)
  sink : Bool
  runs : List Run
  callers : List Caller
  told : List (ℕ × TestResult)

namespace World

/-- An empty book. -/
def new : World where
  results := ∅
  running := ∅
  sink := false
  runs := []
  callers := []
  told := []

/-- The last result of `policy` for the definition `key` stands for. -/
def result (w : World) (policy : Str) (key : UInt64) : Option TestResult :=
  ((w.results.lookup policy).filter fun e => e.1 = key).map Prod.snd

/-- `result`'s outcome without its reason. -/
def outcome (w : World) (policy : Str) (key : UInt64) : Option (Option ℕ) :=
  ((w.results.lookup policy).filter fun e => e.1 = key).map fun e => e.2.outcome.toOption

/-- The channel of the run is closed. -/
def closed (w : World) (r : ℕ) : Bool := (w.runs[r]?.map Run.over).getD true

/-- The phase of run `r` set. -/
def set_phase (w : World) (r : ℕ) (run : Run) (phase : Phase) : World :=
  { w with runs := w.runs.set r { run with phase := phase } }

/-- A new run, in the place of the one the table holds. -/
def start (w : World) (policy : Str) (key : UInt64) : World :=
  { w with
    running := w.running.insert policy (key, w.runs.length)
    runs := w.runs ++ [⟨policy, key, .Measuring⟩]
    callers := w.callers ++ [⟨policy, key, w.runs.length, none⟩] }

/-- A caller asks: it joins the run of its key unless that run's channel is closed. -/
def test (w : World) (policy : Str) (key : UInt64) : World :=
  match w.running.lookup policy with
  | some (k, r) =>
    if k = key ∧ w.closed r = false then
      { w with callers := w.callers ++ [⟨policy, key, r, none⟩] }
    else w.start policy key
  | none => w.start policy key

/-- A run has measured: under the lock it removes itself and stores its result, if the table still
holds its own channel. -/
def ends (w : World) (r : ℕ) (result : TestResult) : World :=
  match w.runs[r]? with
  | some run =>
    match run.phase with
    | .Measuring =>
      match w.running.lookup run.policy with
      | some (_, r') =>
        if r' = r then
          { w.set_phase r run (.Ended result true) with
            running := w.running.erase run.policy
            results := w.results.insert run.policy (run.key, result) }
        else w.set_phase r run (.Ended result false)
      | none => w.set_phase r run (.Ended result false)
    | _ => w
  | none => w

/-- The task of a run is gone while it measures. -/
def dies (w : World) (r : ℕ) : World :=
  match w.runs[r]? with
  | some run =>
    match run.phase with
    | .Measuring => w.set_phase r run .Died
    | _ => w
  | none => w

/-- The sink is told of a result that was kept. -/
def tells (w : World) (r : ℕ) : World :=
  match w.runs[r]? with
  | some run =>
    match run.phase with
    | .Ended result kept =>
      { w.set_phase r run (.Told result kept) with
        told := if kept ∧ w.sink then w.told ++ [(r, result)] else w.told }
    | _ => w
  | none => w

/-- The result goes to whoever waits, and the task is over. -/
def sends (w : World) (r : ℕ) : World :=
  match w.runs[r]? with
  | some run =>
    match run.phase with
    | .Told result kept => w.set_phase r run (.Sent result kept)
    | _ => w
  | none => w

/-- What a caller whose run died is told. -/
def unfinished (instant : ℕ) (when : ℤ) : TestResult :=
  ⟨.error "the test did not finish".toList, instant, when⟩

/-- A caller looks at its channel: it waits as long as nothing came and the sender is there. -/
def hears (w : World) (c : ℕ) (instant : ℕ) (when : ℤ) : World :=
  match w.callers[c]? with
  | some caller =>
    match caller.answer, w.runs[caller.run]?.map Run.phase with
    | none, some (.Sent result _) =>
      { w with callers := w.callers.set c { caller with answer := some result } }
    | none, some .Died =>
      { w with callers := w.callers.set c { caller with answer := some (unfinished instant when) } }
    | _, _ => w
  | none => w

end World

/-- One critical section of the book, or what happens to a run or a caller. -/
inductive Action
  | sink
  | invalidate_all
  | test (policy : Str) (key : UInt64)
  | ends (run : ℕ) (result : TestResult)
  | dies (run : ℕ)
  | tells (run : ℕ)
  | sends (run : ℕ)
  | hears (caller : ℕ) (instant : ℕ) (when : ℤ)

def World.step (w : World) : Action → World
  | .sink => { w with sink := true }
  | .invalidate_all => { w with results := ∅ }
  | .test policy key => w.test policy key
  | .ends run result => w.ends run result
  | .dies run => w.dies run
  | .tells run => w.tells run
  | .sends run => w.sends run
  | .hears caller instant when => w.hears caller instant when

end TestBook

end Rurge
