import AsyncSimple.Coro.CollectAllResume

/-!
# Awaiting tasks in batches

{lit}`collectAllWindowedImpl` awaits its tasks in batches of {lit}`maxConcurrency`.  Each round
moves a slice of the input into a vector of its own, awaits it like {lit}`collectAll` and
appends the results to the output; a coroutine that was asked to yields goes through its
executor after every batch.

The coroutine is resumed inside the callback of the last task of a batch.  The callbacks of the
other tasks may still be on their way then, so that the awaiters of all batches are kept and
each of them goes on as a machine of {lit}`CollectAll`.
-/

namespace AsyncSimple

open Transition

namespace CollectWindowed

variable {ε α : Type}

/-- A task of the input: whether it has an executor before the call, and how it ends. -/
structure Task (ε α : Type) where
  hasExecutor : Bool
  outcome : Try ε α

/-- The arguments of one call, and whether the awaiting coroutine has an executor.
{lit}`maxConcurrency` is a {lit}`size_t`, and a vector has fewer than {lit}`2 ^ 63` elements. -/
structure Config (ε α : Type) where
  para : Bool
  signalType : Signal.SignalType
  maxConcurrency : Nat
  yield : Bool
  executor : Bool
  input : List (Task ε α)
  maxConcurrency_lt : maxConcurrency < 2 ^ 64
  size_lt : input.length < 2 ^ 63

/-- The tasks with their places in the input. -/
def Config.tasks (cfg : Config ε α) : List (Task ε α × Nat) :=
  cfg.input.zipIdx

/-- The call of {lit}`collectAll` for one group of tasks. -/
def Config.group (cfg : Config ε α) (tasks : List (Task ε α × Nat)) :
    CollectAll.Config tasks.length ε fun _ => α where
  para := cfg.para
  signalType := cfg.signalType
  executor := cfg.executor
  taskExecutor := fun i => (tasks.get i).1.hasExecutor
  outcome := fun i => (tasks.get i).1.outcome

/-! ## Batches -/

/-- A group of tasks with its awaiter, and a record of the calls of {lit}`start`. -/
structure Batch (ε α : Type) where
  tasks : List (Task ε α × Nat)
  awaiter : CollectAll.State tasks.length ε fun _ => α
  starts : List (Fin tasks.length)

namespace Batch

def create (cfg : Config ε α) (tasks : List (Task ε α × Nat)) : Batch ε α where
  tasks := tasks
  awaiter := CollectAll.State.initial (cfg.group tasks)
  starts := []

/-- The task that a step starts: in the loop, or on its executor. -/
def startedBy (B : Batch ε α) (awaiter : CollectAll.State B.tasks.length ε fun _ => α) :
    CollectAll.Label B.tasks.length → List (Fin B.tasks.length)
  | .main =>
      match B.awaiter.main with
      | .launch i => if awaiter.task i = .running then [i] else []
      | _ => []
  | .task i => if B.awaiter.task i = .scheduled then [i] else []

def step (cfg : Config ε α) (B : Batch ε α) (l : CollectAll.Label B.tasks.length) :
    Option (Batch ε α) :=
  -- `await_ready` holds of an empty group
  if B.tasks = [] then
    none
  else
    (CollectAll.step (cfg.group B.tasks) B.awaiter l).map fun awaiter =>
      { tasks := B.tasks, awaiter := awaiter, starts := B.starts ++ B.startedBy awaiter l }

/-- The vector that {lit}`co_await` returns, as soon as it does. -/
def collected (B : Batch ε α) : Option (List (Try ε α)) :=
  if B.tasks = [] then some [] else B.awaiter.result.map List.ofFn

/-- The tasks that were started, or handed to their executors, and have not counted down. -/
def active (B : Batch ε α) : List Nat :=
  ((List.finRange B.tasks.length).filter fun i =>
    B.awaiter.task i ≠ .unstarted && (B.awaiter.task i).oldCount.isNone).map fun i =>
      (B.tasks.get i).2

end Batch

/-! ## The coroutine -/

/-- Program points of {lit}`collectAllWindowedImpl`. -/
inductive Pc where
  | entry
  /-- suspended in the {lit}`co_await` for the whole input -/
  | whole
  /-- at the head of the loop -/
  | loop
  /-- suspended in the {lit}`co_await` for the newest batch -/
  | batch
  /-- scheduled by {lit}`Yield` -/
  | yield
  | returned
  /-- {lit}`Yield` has found no executor -/
  | raised
deriving DecidableEq, Repr

/-- The local variables, the batches with their awaiters, and the value of {lit}`co_return`.  A
task that was moved from the input is {lit}`none`. -/
structure State (ε α : Type) where
  pc : Pc
  start : Nat
  input : List (Option (Task ε α × Nat))
  output : List (Try ε α)
  batches : List (Batch ε α)
  result : Option (List (Try ε α))

def State.initial (cfg : Config ε α) : State ε α where
  pc := .entry
  start := 0
  input := cfg.tasks.map some
  output := []
  batches := []
  result := none

namespace State

/-- The tasks from {lit}`first` to {lit}`last`, if none of them was moved from. -/
def slice (s : State ε α) (first last : Nat) : Option (List (Task ε α × Nat)) :=
  if first ≤ last then ((s.input.drop first).take (last - first)).mapM id else none

/-- The input after {lit}`std::make_move_iterator` has gone from {lit}`first` to
{lit}`last`. -/
def movedOut (s : State ε α) (first last : Nat) : List (Option (Task ε α × Nat)) :=
  s.input.take first ++ List.replicate (last - first) none ++ s.input.drop last

/-- What the newest batch has returned. -/
def collected (s : State ε α) : Option (List (Try ε α)) :=
  s.batches.getLast?.bind Batch.collected

/-- The calls of {lit}`start`. -/
def starts (s : State ε α) : List Nat :=
  s.batches.flatMap fun B => B.starts.map fun i => (B.tasks.get i).2

def active (s : State ε α) : List Nat :=
  s.batches.flatMap Batch.active

end State

/-- {lit}`std::min(input_size, start + maxConcurrency)`, in the arithmetic of
{lit}`size_t`. -/
def batchEnd (cfg : Config ε α) (start : Nat) : Nat :=
  min cfg.input.length ((start + cfg.maxConcurrency) % 2 ^ 64)

/-- One step of the coroutine. -/
def coroutineStep (cfg : Config ε α) (s : State ε α) : Option (State ε α) :=
  match s.pc with
  | .entry =>
      if cfg.maxConcurrency = 0 ∨ cfg.input.length ≤ cfg.maxConcurrency then
        (s.slice 0 cfg.input.length).map fun tasks =>
          { s with pc := .whole, input := [], batches := s.batches ++ [Batch.create cfg tasks] }
      else
        some { s with pc := .loop }
  | .whole => s.collected.map fun r => { s with pc := .returned, result := some r }
  | .loop =>
      if s.start < cfg.input.length then
        (s.slice s.start (batchEnd cfg s.start)).map fun tasks =>
          { s with
            pc := .batch
            input := s.movedOut s.start (batchEnd cfg s.start)
            start := batchEnd cfg s.start
            batches := s.batches ++ [Batch.create cfg tasks] }
      else
        some { s with pc := .returned, result := some s.output }
  | .batch =>
      s.collected.map fun r =>
        { s with
          output := s.output ++ r
          pc := if cfg.yield then (if cfg.executor then .yield else .raised) else .loop }
  | .yield => some { s with pc := .loop }
  | .returned | .raised => none

/-- Who moves in the awaiter of a batch: the thread in {lit}`await_suspend`, or a task. -/
inductive Party where
  | suspend
  | task (i : Nat)
deriving DecidableEq, Repr

def Party.label (n : Nat) : Party → Option (CollectAll.Label n)
  | .suspend => some .main
  | .task i => if h : i < n then some (.task ⟨i, h⟩) else none

inductive Label where
  | coroutine
  | awaiter (b : Nat) (p : Party)
deriving DecidableEq, Repr

def step (cfg : Config ε α) (s : State ε α) : Label → Option (State ε α)
  | .coroutine => coroutineStep cfg s
  | .awaiter b p =>
      s.batches[b]?.bind fun B =>
        (p.label B.tasks.length).bind fun l =>
          (B.step cfg l).map fun B' => { s with batches := s.batches.set b B' }

/-- One call of {lit}`collectAllWindowed` or {lit}`collectAllWindowedPara` with its tasks. -/
def machine (cfg : Config ε α) : Machine (State ε α) Label where
  step := step cfg

/-! ## What is promised -/

/-- What holds in every state of a call.  The batches are consecutive pieces of the input; the
end of the next batch is computed without overflow; no task is started twice; at most
{lit}`maxConcurrency` tasks are active; a task is started only after all tasks of the earlier
batches are done; and the returned vector has the result of every task in its place, like the
vector of a call of {lit}`collectAll` for the whole input, when every task has been started and
none is active. -/
structure Windowed (cfg : Config ε α) (s : State ε α) : Prop where
  consecutive : (s.batches.map Batch.tasks).flatten <+: cfg.tasks
  noOverflow : s.pc = .loop → s.start < cfg.input.length →
    s.start + cfg.maxConcurrency < 2 ^ 64
  startedOnce : s.starts.Nodup
  bounded : 0 < cfg.maxConcurrency → cfg.maxConcurrency < cfg.input.length →
    s.active.length ≤ cfg.maxConcurrency
  ordered : ∀ (b b' : Nat) (B B' : Batch ε α), b < b' → s.batches[b]? = some B → s.batches[b']? = some B' →
    (∃ i, B'.awaiter.task i ≠ .unstarted) → ∀ i, ((B.awaiter.task i).oldCount).isSome = true
  safe : ∀ B ∈ s.batches, B.awaiter.dangling = false
  returns : ∀ r, s.result = some r → r = cfg.input.map Task.outcome ∧ s.active = [] ∧
    s.starts.Perm (List.range cfg.input.length) ∧
    ∀ ls u f, (CollectAll.machine (cfg.group cfg.tasks)).run
      (CollectAll.State.initial (cfg.group cfg.tasks)) ls = some u → u.result = some f →
      r = List.ofFn f

end CollectWindowed

end AsyncSimple
