import AsyncSimple.Coro.CountEvent
import AsyncSimple.Future.SharedState
import AsyncSimple.Signal.Emission

/-!
# Awaiting all of several tasks

This module embeds {lit}`CollectAllAwaiter` and {lit}`CollectAllVariadicAwaiter`.
The thread that suspends the awaiting coroutine starts the tasks one after the
other, or schedules them on their executors; each task calls back when it is
done, on whatever thread that happens.  A task that completes inside
{lit}`start` is one whose steps come before the next step of the loop, so that
completions inside and outside the loop are runs of one machine.

The awaiter lives in the frame of the awaiting coroutine and is gone as soon as
that coroutine is resumed.  Every step that reads or writes a member of the
awaiter goes through {lit}`State.access`, which remembers an access after the
resume.
-/

namespace AsyncSimple

open Transition

namespace CollectAll

variable {n : Nat} {ε : Type} {α : Fin n → Type}

/-- The inputs of one call.  The vector form has one value type for all tasks.
{lit}`executor` and {lit}`taskExecutor` say who has an executor before the call:
the awaiting coroutine and the tasks. -/
structure Config (n : Nat) (ε : Type) (α : Fin n → Type) where
  para : Bool
  signalType : Signal.SignalType
  executor : Bool
  taskExecutor : Fin n → Bool
  outcome : ∀ i, Try ε (α i)

/-- Program points of {lit}`await_suspend`. -/
inductive MainPc (n : Nat) where
  /-- before {lit}`_signal` is created and chained to the slot -/
  | createSignal
  | setAwaitingCoro
  /-- at the head of the loop -/
  | loop (i : Nat)
  /-- the executor and the local of this task are set -/
  | launch (i : Fin n)
  | returned
deriving DecidableEq, Repr

/-- Program points of a task and of its callback; from the decrement on they
keep the value that it found. -/
inductive TaskPc where
  | unstarted
  /-- handed to its executor, which has not run it yet -/
  | scheduled
  | running
  /-- the callback before the result is stored -/
  | store
  /-- before the members are copied to local variables -/
  | copy
  /-- before the decrement -/
  | down
  /-- {lit}`down` after the decrement -/
  | take (oldCount : Int)
  /-- before the test for the first completion -/
  | emit (oldCount : Int) (awaitingCoro : Bool)
  | resume (oldCount : Int) (awaitingCoro : Bool)
  | finished (oldCount : Int)
deriving DecidableEq, Repr

namespace TaskPc

/-- Value found by the decrement. -/
def oldCount : TaskPc → Option Int
  | .take o | .emit o _ | .resume o _ | .finished o => some o
  | _ => none

/-- Value found by a task that is done with {lit}`down`. -/
def takenCount : TaskPc → Option Int
  | .emit o _ | .resume o _ | .finished o => some o
  | _ => none

/-- Value found by a task that is past the emission. -/
def emittedCount : TaskPc → Option Int
  | .resume o _ | .finished o => some o
  | _ => none

/-- Value found by a task whose callback has ended. -/
def finishedCount : TaskPc → Option Int
  | .finished o => some o
  | _ => none

/-- The result is stored. -/
def Stored : TaskPc → Prop
  | .unstarted | .scheduled | .running | .store => False
  | _ => True

end TaskPc

/-- The awaiter, the program points, the value the awaiting coroutine went on
with, and a record of the tasks that decremented the counter, emitted on the
child signal and resumed the coroutine. -/
structure State (n : Nat) (ε : Type) (α : Fin n → Type) where
  main : MainPc n
  task : Fin n → TaskPc
  hasExecutor : Fin n → Bool
  event : CountEvent
  output : ∀ i, Try ε (α i)
  result : Option (∀ i, Try ε (α i))
  downs : List (Fin n)
  emits : List (Fin n × Signal.SignalType)
  resumes : List (Fin n)
  dangling : Bool

/-- A constructed awaiter whose {lit}`await_suspend` is called. -/
def State.initial (cfg : Config n ε α) : State n ε α where
  main := .createSignal
  task := fun _ => .unstarted
  hasExecutor := cfg.taskExecutor
  event := CountEvent.create n
  output := fun _ => .nothing
  result := none
  downs := []
  emits := []
  resumes := []
  dangling := false

namespace State

/-- An access to a member of the awaiter. -/
def access (s : State n ε α) : State n ε α :=
  { s with dangling := s.dangling || !s.resumes.isEmpty }

def setMain (s : State n ε α) (pc : MainPc n) : State n ε α :=
  { s with main := pc }

def setTask (s : State n ε α) (i : Fin n) (pc : TaskPc) : State n ε α :=
  { s with task := Function.update s.task i pc }

end State

/-- One step of {lit}`await_suspend`. -/
def mainStep (cfg : Config n ε α) (s : State n ε α) : Option (State n ε α) :=
  match s.main with
  | .createSignal => some (s.access.setMain .setAwaitingCoro)
  | .setAwaitingCoro =>
      some { s.access.setMain (.loop 0) with event := s.event.setAwaitingCoro }
  | .loop i =>
      if h : i < n then
        some { s.access.setMain (.launch ⟨i, h⟩) with
          hasExecutor := Function.update s.hasExecutor ⟨i, h⟩
            (s.hasExecutor ⟨i, h⟩ || cfg.executor) }
      else
        -- the loop compares with a local copy of the size
        some (s.setMain .returned)
  | .launch i =>
      let started := if cfg.para && decide (1 < n) && s.hasExecutor i then .scheduled else .running
      some ((s.access.setTask i started).setMain (.loop (i + 1)))
  | .returned => none

/-- One step of a task or of its callback.  What is left of the callback after
the decrement works on local copies. -/
def taskStep (cfg : Config n ε α) (s : State n ε α) (i : Fin n) : Option (State n ε α) :=
  match s.task i with
  | .unstarted | .finished _ => none
  | .scheduled => some (s.access.setTask i .running)
  | .running => some (s.setTask i .store)
  | .store =>
      some { s.access.setTask i .copy with
        output := Function.update s.output i (cfg.outcome i) }
  | .copy => some (s.access.setTask i .down)
  | .down =>
      some { s.access.setTask i (.take s.event.downCount.1) with
        event := s.event.downCount.2
        downs := s.downs ++ [i] }
  | .take oldCount =>
      let taken := s.event.takeAwaitingCoro oldCount
      some { (if oldCount = 1 then s.access else s).setTask i (.emit oldCount taken.1) with
        event := taken.2 }
  | .emit oldCount awaitingCoro =>
      some { s.setTask i (.resume oldCount awaitingCoro) with
        emits := if oldCount = n then s.emits ++ [(i, cfg.signalType)] else s.emits }
  | .resume oldCount awaitingCoro =>
      if awaitingCoro then
        some { s.setTask i (.finished oldCount) with
          resumes := s.resumes ++ [i]
          result := some s.output }
      else
        some (s.setTask i (.finished oldCount))

/-- Who moves. -/
inductive Label (n : Nat) where
  | main
  | task (i : Fin n)
deriving DecidableEq, Repr

def step (cfg : Config n ε α) (s : State n ε α) : Label n → Option (State n ε α)
  | .main => mainStep cfg s
  | .task i => taskStep cfg s i

/-- One call of {lit}`collectAll` or {lit}`collectAllPara` with its tasks. -/
def machine (cfg : Config n ε α) : Machine (State n ε α) (Label n) where
  step := step cfg

end CollectAll

end AsyncSimple
