import AsyncSimple.Library.Machine
import AsyncSimple.Signal.TerminateSlot

/-!
# Awaiting a timer

This module embeds {lit}`Executor::TimeAwaiter` with the default
{lit}`Executor::schedule` for a duration, which {lit}`Executor::after` and
{lit}`sleep` use.  A thread of its own registers the cancel handler, waits until
the handler has run or the time is over, and hands the coroutine to the
executor.  Time is a clock that the environment moves on.
-/

namespace AsyncSimple

open Transition Signal

namespace TimeAwaiter

/-- The duration and the slot. -/
structure Config extends SlotConfig where
  dur : Int
deriving DecidableEq, Repr

inductive Outcome where
  | returned
  | signalException
deriving DecidableEq, Repr

/-- Program points of {lit}`await_ready` and {lit}`await_suspend`. -/
inductive MainPc where
  | ready
  | suspend
  | notSuspended
  | returned
deriving DecidableEq, Repr

/-- Program points of the timer's thread. -/
inductive ThreadPc where
  | notStarted
  | emplace (pc : CallPc Handler)
  /-- before {lit}`wait_for` -/
  | waitFor
  | waiting (start : Nat)
  /-- before the coroutine is handed to the executor -/
  | schedule
  | ended
  | aborted
deriving DecidableEq, Repr

/-- Program points of {lit}`await_resume`. -/
inductive CoroPc where
  | suspended
  | clear (pc : CallPc Handler)
  | canceled
  | done (outcome : Outcome)
  | aborted
deriving DecidableEq, Repr

/-- The slot, the parties, the clock, the promise of the handler and the time
that the thread has waited. -/
structure State where
  slot : TerminateSlot Handler Unit
  main : MainPc
  thread : ThreadPc
  coro : CoroPc
  clock : Nat
  notified : Bool
  elapsed : Nat
deriving DecidableEq, Repr

/-- Before the {lit}`co_await` with the slot as it is then. -/
def State.initial (slot : TerminateSlot Handler Unit) (clock : Nat) : State where
  slot := slot
  main := .ready
  thread := .notStarted
  coro := .suspended
  clock := clock
  notified := false
  elapsed := 0

/-- Where the coroutine continues. -/
def CoroPc.start (hasSlot : Bool) : CoroPc :=
  if hasSlot then .clear .clearLookup else .done .returned

def mainStep (cfg : Config) (s : State) : Option State :=
  match s.main with
  | .notSuspended | .returned => none
  | .ready =>
      if cfg.hasSlot && s.slot.canceled then
        some { s with main := .notSuspended, coro := .start cfg.hasSlot }
      else
        some { s with main := .suspend }
  | .suspend =>
      some { s with
        main := .returned
        thread := if cfg.hasSlot then .emplace (.emplaceLookup .cancel) else .waitFor }

/-- One step of the timer's thread. -/
def threadStep (cfg : Config) (s : State) : Option State :=
  match s.thread with
  | .notStarted | .ended | .aborted => none
  | .emplace pc =>
      let after := s.slot.callStep pc
      some { s with
        slot := after.1
        thread := match after.2 with
          | .at pc => .emplace pc
          | .returns true => .waitFor
          -- canceled already: no wait
          | .returns false => .schedule
          | .aborts => .aborted }
  | .waitFor => some { s with thread := .waiting s.clock }
  | .waiting start =>
      if s.notified || decide ((start : Int) + cfg.dur ≤ s.clock) then
        some { s with thread := .schedule, elapsed := s.clock - start }
      else
        none
  | .schedule => some { s with thread := .ended, coro := .start cfg.hasSlot }

/-- One step of {lit}`await_resume`. -/
def coroStep (s : State) : Option State :=
  match s.coro with
  | .suspended | .done _ | .aborted => none
  | .clear pc =>
      let after := s.slot.callStep pc
      some { s with
        slot := after.1
        coro := match after.2 with
          | .at pc => .clear pc
          | .returns true => .done .returned
          | .returns false => .canceled
          | .aborts => .aborted }
  | .canceled =>
      some { s with
        coro := .done (if s.slot.canceled then .signalException else .returned) }

/-- One step of the emission; the handler sets the promise. -/
def emissionStep (s : State) : Option State :=
  match s.slot.visit with
  | .transfer _ found => some { s with slot := { s.slot with visit := .walk found } }
  | .call (.handler .cancel) =>
      some { s with notified := true, slot := { s.slot with visit := .passed true } }
  | .call _ => some { s with slot := { s.slot with visit := .passed true } }
  | _ => s.slot.visitStep.map fun slot => { s with slot := slot }

inductive Label where
  | main
  | thread
  | coro
  | tick
  | emits
  | emission
deriving DecidableEq, Repr

def step (cfg : Config) (s : State) : Label → Option State
  | .main => mainStep cfg s
  | .thread => threadStep cfg s
  | .coro => coroStep s
  | .tick => some { s with clock := s.clock + 1 }
  | .emits =>
      if cfg.hasSlot then s.slot.emits.map fun slot => { s with slot := slot } else none
  | .emission => emissionStep s

/-- One {lit}`co_await` of a timer. -/
def machine (cfg : Config) : Machine State Label where
  step := step cfg

end TimeAwaiter

end AsyncSimple
