import AsyncSimple.Future.SharedState
import AsyncSimple.Signal.TerminateSlot

/-!
# Awaiting a future

This module embeds {lit}`FutureAwaiter`.  With a slot, the awaiter takes its
future away and leaves a ready one with {lit}`SignalException` behind; the
continuation of the promise puts the first one back.  The cancel handler and that
continuation compete for a flag, and the one that finds it set continues the
coroutine.  The continuation is run once when it is set and the promise has its
result, which is what {lit}`FutureState` provides.
-/

namespace AsyncSimple

open Transition Signal

namespace FutureAwaiter

variable {ε α : Type}

/-- The slot, what the promise will deliver, and whether {lit}`T` is
{lit}`void`. -/
structure Config (ε α : Type) extends SlotConfig where
  isVoid : Bool
  value : Try ε α

/-- How the await ends.  {lit}`await_resume` does not look at a
{lit}`Future<void>`. -/
inductive Outcome (ε α : Type) where
  | value (v : Try ε α)
  | unit
  | signalException

/-- The futures that {lit}`future_` holds one after the other. -/
inductive Held where
  | promised
  /-- {lit}`makeReadyFuture` of the exception -/
  | canceled
deriving DecidableEq, Repr

/-- Program points of {lit}`await_ready` and {lit}`await_suspend`. -/
inductive MainPc where
  | ready
  /-- {lit}`await_suspend` before it takes the future away -/
  | takeAway
  | emplace (pc : CallPc Handler)
  | setContinuation
  | notSuspended
  | returned (value : Bool)
  | aborted
deriving DecidableEq, Repr

/-- Program points of the continuation of the promise. -/
inductive CallbackPc where
  | notRun
  | exchange
  | putBack
  | resume
  | ended
deriving DecidableEq, Repr

/-- Program points inside the cancel handler. -/
inductive HandlerPc where
  | notRun
  | resume
  | ended
deriving DecidableEq, Repr

/-- Program points of {lit}`await_resume`. -/
inductive CoroPc (ε α : Type) where
  | suspended
  | take
  | done (outcome : Outcome ε α)

structure State (ε α : Type) where
  slot : TerminateSlot Handler Unit
  main : MainPc
  callback : CallbackPc
  handler : HandlerPc
  coro : CoroPc ε α
  hasResult : Bool
  continuation : Bool
  armed : Bool
  future : Held

/-- Before the {lit}`co_await` with the slot as it is then. -/
def State.initial (slot : TerminateSlot Handler Unit) : State ε α where
  slot := slot
  main := .ready
  callback := .notRun
  handler := .notRun
  coro := .suspended
  hasResult := false
  continuation := false
  armed := true
  future := .promised

def mainStep (cfg : Config ε α) (s : State ε α) : Option (State ε α) :=
  match s.main with
  | .notSuspended | .returned _ | .aborted => none
  | .ready =>
      if s.hasResult then
        some { s with main := .notSuspended, coro := .take }
      else
        some { s with main := .takeAway }
  | .takeAway =>
      if cfg.hasSlot then
        some { s with main := .emplace (.emplaceLookup .cancel), future := .canceled }
      else
        some { s with main := .setContinuation }
  | .emplace pc =>
      let after := s.slot.callStep pc
      let s' := { s with slot := after.1 }
      match after.2 with
      | .at pc => some { s' with main := .emplace pc }
      | .returns true => some { s' with main := .setContinuation }
      | .returns false => some { s' with main := .returned false, coro := .take }
      | .aborts => some { s' with main := .aborted }
  | .setContinuation => some { s with main := .returned true, continuation := true }

/-- One step of the continuation of the promise.  Without a slot it resumes the
coroutine and does nothing else. -/
def callbackStep (cfg : Config ε α) (s : State ε α) : Option (State ε α) :=
  match s.callback with
  | .ended => none
  | .notRun =>
      if s.continuation && s.hasResult then
        some { s with callback := if cfg.hasSlot then .exchange else .resume }
      else
        none
  | .exchange =>
      some { s with armed := false, callback := if s.armed then .putBack else .ended }
  | .putBack => some { s with future := .promised, callback := .resume }
  | .resume => some { s with callback := .ended, coro := .take }

/-- One step of {lit}`await_resume`. -/
def coroStep (cfg : Config ε α) (s : State ε α) : Option (State ε α) :=
  match s.coro with
  | .suspended | .done _ => none
  | .take =>
      some { s with
        coro := .done (
          if cfg.isVoid then .unit
          else match s.future with
            | .promised => .value cfg.value
            | .canceled => .signalException) }

/-- One step of the emission and of the handler it runs. -/
def emissionStep (s : State ε α) : Option (State ε α) :=
  match s.slot.visit with
  | .transfer _ found => some { s with slot := { s.slot with visit := .walk found } }
  | .call (.handler .cancel) =>
      match s.handler with
      | .notRun =>
          some { s with armed := false, handler := if s.armed then .resume else .ended }
      | .resume => some { s with handler := .ended, coro := .take }
      | .ended => some { s with slot := { s.slot with visit := .passed true } }
  | .call _ => some { s with slot := { s.slot with visit := .passed true } }
  | _ => s.slot.visitStep.map fun slot => { s with slot := slot }

inductive Label where
  | main
  | callback
  | coro
  /-- the promise gets its result -/
  | setResult
  | emits
  | emission
deriving DecidableEq, Repr

def step (cfg : Config ε α) (s : State ε α) : Label → Option (State ε α)
  | .main => mainStep cfg s
  | .callback => callbackStep cfg s
  | .coro => coroStep cfg s
  | .setResult => if s.hasResult then none else some { s with hasResult := true }
  | .emits =>
      if cfg.hasSlot then s.slot.emits.map fun slot => { s with slot := slot } else none
  | .emission => emissionStep s

/-- One {lit}`co_await` of a future. -/
def machine (cfg : Config ε α) : Machine (State ε α) Label where
  step := step cfg

end FutureAwaiter

end AsyncSimple
