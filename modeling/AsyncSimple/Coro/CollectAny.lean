import AsyncSimple.Coro.CountEvent
import AsyncSimple.Future.SharedState
import AsyncSimple.Signal.TerminateSlot

/-!
# Awaiting any of several tasks

This module embeds {lit}`CollectAnyAwaiter` and {lit}`CollectAnyVariadicAwaiter`.
The completions of the tasks and the cancel handler compete for the continuation:
each decrements a shared counter, and the one that finds the start value resumes
the coroutine.  The thread inside {lit}`await_suspend` may still be starting
tasks then, so that it and the resumed coroutine have separate program points.

The slot may hold a handler of {lit}`Terminate` that its owner registered before
the call; {lit}`FutureAwaiter` leaves one behind, for instance.
-/

namespace AsyncSimple

open Transition Signal

namespace CollectAny

variable {n : Nat} {ε : Type} {α : Fin n → Type}

/-- The two forms of the awaiter. -/
inductive Form where
  | vector
  | variadic
deriving DecidableEq, Repr

/-- The inputs of one call and the slot it finds. -/
structure Config (n : Nat) (ε : Type) (α : Fin n → Type) extends SlotConfig where
  form : Form
  outcome : ∀ i, Try ε (α i)

/-- How the await ends: with the index and the result of a task, with the default
{lit}`ResultType`, with {lit}`SignalException`, or by dereferencing a null
{lit}`_result`. -/
inductive Outcome (n : Nat) (ε : Type) (α : Fin n → Type) where
  | result (i : Fin n) (value : Try ε (α i))
  | defaultResult
  | signalException
  | nullResult

/-- Program points of the thread that evaluates the {lit}`co_await`. -/
inductive MainPc where
  /-- before the test of {lit}`await_ready` -/
  | ready
  /-- {lit}`await_suspend` before the child signal is chained -/
  | chain
  | emplace (pc : CallPc Handler)
  /-- at the head of the loop that starts the tasks -/
  | loop (i : Nat)
  /-- {lit}`await_ready` has returned true -/
  | notSuspended
  /-- {lit}`await_suspend` has returned -/
  | returned (value : Bool)
  | aborted
deriving DecidableEq, Repr

/-- Program points of the coroutine once it continues, in {lit}`await_resume`. -/
inductive CoroPc (n : Nat) (ε : Type) (α : Fin n → Type) where
  | suspended
  | clear (pc : CallPc Handler)
  /-- {lit}`clear` has returned false -/
  | canceled
  /-- before the result is taken -/
  | take
  | done (outcome : Outcome n ε α)
  | aborted

/-- Program points of a task and of its callback; from the decrement on they
keep the value that it found. -/
inductive TaskPc where
  | unstarted
  | running
  /-- the callback before the decrement -/
  | down
  | counted (count : Int)
  /-- the result is stored and the child signal not yet informed -/
  | emit (count : Int)
  | resume (count : Int)
  | finished (count : Int)
deriving DecidableEq, Repr

/-- Program points inside the cancel handler. -/
inductive HandlerPc where
  | notRun
  | counted (count : Int)
  | finished (count : Int)
deriving DecidableEq, Repr

/-- Who makes the coroutine continue: {lit}`await_ready`, {lit}`await_suspend`,
a task or the cancel handler, which is the party {lit}`none`. -/
inductive Continuer (n : Nat) where
  | awaitReady
  | awaitSuspend
  | party (p : Option (Fin n))
deriving DecidableEq, Repr

/-- The slot, the program points, the counter and the {lit}`_result` of the
awaiter, with a record of the decrements and of the continuations.
{lit}`emittedBefore` says that the emission had come to the handler or past the
slot when the coroutine continued, {lit}`dangling` that another party touched the
awaiter after that. -/
structure State (n : Nat) (ε : Type) (α : Fin n → Type) where
  slot : TerminateSlot Handler Unit
  main : MainPc
  coro : CoroPc n ε α
  task : Fin n → TaskPc
  handler : HandlerPc
  event : CountEvent
  result : Option (Σ i, Try ε (α i))
  downs : List (Option (Fin n))
  continues : List (Continuer n)
  emittedBefore : Bool
  dangling : Bool

/-- Before the {lit}`co_await`. -/
def State.initial (cfg : Config n ε α) : State n ε α where
  slot := cfg.slot
  main := .ready
  coro := .suspended
  task := fun _ => .unstarted
  handler := .notRun
  event := CountEvent.create (n + 1)
  result := none
  downs := []
  continues := []
  emittedBefore := false
  dangling := false

namespace State

/-- An access to a member of the awaiter by a callback. -/
def access (s : State n ε α) : State n ε α :=
  { s with dangling := s.dangling || !s.continues.isEmpty }

def setMain (s : State n ε α) (pc : MainPc) : State n ε α :=
  { s with main := pc }

def setTask (s : State n ε α) (i : Fin n) (pc : TaskPc) : State n ε α :=
  { s with task := Function.update s.task i pc }

/-- The coroutine continues and enters {lit}`await_resume`. -/
def continueBy (cfg : Config n ε α) (s : State n ε α) (who : Continuer n) : State n ε α :=
  match s.coro with
  | .suspended =>
      { s with
        coro := if cfg.hasSlot then .clear .clearLookup else .take
        emittedBefore := s.slot.visit.reached
        continues := s.continues ++ [who] }
  | _ => { s with continues := s.continues ++ [who] }

end State

/-- One step of {lit}`await_ready` and {lit}`await_suspend`. -/
def mainStep (cfg : Config n ε α) (s : State n ε α) : Option (State n ε α) :=
  match s.main with
  | .notSuspended | .returned _ | .aborted => none
  | .ready =>
      if cfg.hasSlot && s.slot.canceled then
        some ((s.setMain .notSuspended).continueBy cfg .awaitReady)
      else
        some (s.setMain .chain)
  | .chain =>
      if cfg.hasSlot then
        some { s.setMain (.emplace (.emplaceLookup .cancel)) with
          slot := { s.slot with chainedSignal := some () } }
      else
        some (s.setMain (.loop 0))
  | .emplace pc =>
      let after := s.slot.callStep pc
      let s' := { s with slot := after.1 }
      match after.2 with
      | .at pc => some (s'.setMain (.emplace pc))
      | .returns true => some (s'.setMain (.loop 0))
      | .returns false => some ((s'.setMain (.returned false)).continueBy cfg .awaitSuspend)
      | .aborts => some (s'.setMain .aborted)
  | .loop i =>
      -- the loop works on local copies
      if h : i < n then
        some ((s.setTask ⟨i, h⟩ .running).setMain (.loop (i + 1)))
      else
        some (s.setMain (.returned true))

/-- One step of {lit}`await_resume`. -/
def coroStep (cfg : Config n ε α) (s : State n ε α) : Option (State n ε α) :=
  match s.coro with
  | .suspended | .done _ | .aborted => none
  | .clear pc =>
      let after := s.slot.callStep pc
      some { s with
        slot := after.1
        coro := match after.2 with
          | .at pc => .clear pc
          | .returns true => .take
          | .returns false => .canceled
          | .aborts => .aborted }
  | .canceled =>
      some { s with coro := if s.slot.canceled then .done .signalException else .take }
  | .take =>
      some { s with
        coro := .done (match s.result, cfg.form with
          | some ⟨i, value⟩, _ => .result i value
          | none, .vector => .defaultResult
          | none, .variadic => .nullResult) }

/-- One step of a task or of its callback. -/
def taskStep (cfg : Config n ε α) (s : State n ε α) (i : Fin n) : Option (State n ε α) :=
  match s.task i with
  | .unstarted | .finished _ => none
  | .running => some (s.setTask i .down)
  | .down =>
      some { s.setTask i (.counted s.event.downCount.1) with
        event := s.event.downCount.2
        downs := s.downs ++ [some i] }
  | .counted count =>
      if count = n + 1 then
        some { s.access.setTask i (.emit count) with result := some ⟨i, cfg.outcome i⟩ }
      else
        some (s.setTask i (.finished count))
  | .emit count => some (s.access.setTask i (.resume count))
  | .resume count => some ((s.setTask i (.finished count)).continueBy cfg (.party (some i)))

/-- One step of the emission and of the handler it runs. -/
def emissionStep (cfg : Config n ε α) (s : State n ε α) : Option (State n ε α) :=
  match s.slot.visit with
  | .transfer _ found => some { s with slot := { s.slot with visit := .walk found } }
  | .call (.handler .cancel) =>
      match s.handler with
      | .notRun =>
          some { s with
            handler := .counted s.event.downCount.1
            event := s.event.downCount.2
            downs := s.downs ++ [none] }
      | .counted count =>
          let s' := { s with
            handler := .finished count
            slot := { s.slot with visit := .passed true } }
          some (if count = n + 1 then s'.continueBy cfg (.party none) else s')
      | .finished _ => none
  | .call _ => some { s with slot := { s.slot with visit := .passed true } }
  | _ => s.slot.visitStep.map fun slot => { s with slot := slot }

/-- Who moves. -/
inductive Label (n : Nat) where
  | main
  | coro
  | task (i : Fin n)
  /-- {lit}`Terminate` is emitted on the parent's signal -/
  | emits
  | emission
deriving DecidableEq, Repr

def step (cfg : Config n ε α) (s : State n ε α) : Label n → Option (State n ε α)
  | .main => mainStep cfg s
  | .coro => coroStep cfg s
  | .task i => taskStep cfg s i
  | .emits =>
      if cfg.hasSlot then s.slot.emits.map fun slot => { s with slot := slot } else none
  | .emission => emissionStep cfg s

/-- One call of {lit}`collectAny` with its tasks and the emission of
{lit}`Terminate`. -/
def machine (cfg : Config n ε α) : Machine (State n ε α) (Label n) where
  step := step cfg

end CollectAny

end AsyncSimple
