import AsyncSimple.Library.Machine
import AsyncSimple.Library.OwnedLists

/-!
# Condition variables

This module embeds {lit}`ConditionVariable<Lock>` with its awaiters.  Every load and
{lit}`compare_exchange` of {lit}`_awaiters` and every read and write of a
{lit}`_next` is one step.  An awaiter lives in the frame of the coroutine that
waits, so that awaiters are named by their coroutines, and the address is used again
when the coroutine waits again.

The lock is left out: it keeps two coroutines from enqueuing at the same time, and
the notifiers need not hold it.  A resumed coroutine runs on its own; to run inside
the notifier is one of the interleavings.
-/

namespace AsyncSimple

open Transition

namespace ConditionVariable

variable {ι κ : Type}

/-- Program points of a coroutine. -/
inductive WaiterPc (ι : Type) where
  | running
  /-- {lit}`await_suspend` before its load -/
  | load
  /-- before {lit}`_next = awaitings` -/
  | link (awaitings : Option ι)
  /-- before the {lit}`compare_exchange_weak` -/
  | cas (awaitings : Option ι)
  | suspended
deriving DecidableEq, Repr

/-- The two notifications. -/
inductive Kind where
  | one
  | all
deriving DecidableEq, Repr

/-- Program points of a call of {lit}`notifyOne` or {lit}`notifyAll`. -/
inductive NotifierPc (ι : Type) where
  | idle
  | load
  /-- {lit}`notifyOne` before it reads {lit}`awaitings->_next` -/
  | next (awaitings : Option ι)
  | casOne (awaitings : ι) (next : Option ι)
  /-- before {lit}`awaitings->_next = nullptr` -/
  | unlink (awaitings : ι)
  | casAll (awaitings : Option ι)
  /-- at the head of the loop of {lit}`resumeWaiters` -/
  | walk (awaiters : Option ι)
  /-- before {lit}`prev->_continuation.resume()` -/
  | resume (prev : ι) (awaiters : Option ι)
  | returned
  /-- a null pointer was dereferenced -/
  | crashed
deriving DecidableEq, Repr

/-- What must not happen: {lit}`_next` is read through a null pointer or from an
awaiter that has been resumed, or a coroutine is resumed that is not suspended. -/
inductive Fault (ι κ : Type) where
  | nullNext (k : κ)
  | staleNext (k : κ) (i : ι)
  | badResume (k : κ) (i : ι)
deriving DecidableEq, Repr

/-- The list, the program points, and a record: how often each awaiter was enqueued
and resumed, and for the current call of each notifier its kind, the awaiters it has
unlinked and those it has resumed. -/
structure System (ι κ : Type) where
  awaiters : Option ι
  next : ι → Option ι
  waiter : ι → WaiterPc ι
  notifier : κ → NotifierPc ι
  enqueued : ι → Nat
  resumed : ι → Nat
  kind : κ → Kind
  took : κ → List ι
  woke : κ → List ι
  faults : List (Fault ι κ)

/-- A new condition variable; nothing is assumed about {lit}`_next`. -/
def System.initial (next : ι → Option ι) : System ι κ where
  awaiters := none
  next := next
  waiter := fun _ => .running
  notifier := fun _ => .idle
  enqueued := fun _ => 0
  resumed := fun _ => 0
  kind := fun _ => .all
  took := fun _ => []
  woke := fun _ => []
  faults := []

variable [DecidableEq ι] [DecidableEq κ]

namespace System

def setWaiter (s : System ι κ) (i : ι) (pc : WaiterPc ι) : System ι κ :=
  { s with waiter := Function.update s.waiter i pc }

def setNotifier (s : System ι κ) (k : κ) (pc : NotifierPc ι) : System ι κ :=
  { s with notifier := Function.update s.notifier k pc }

def setNext (s : System ι κ) (i : ι) (p : Option ι) : System ι κ :=
  { s with next := Function.update s.next i p }

/-- The head was exchanged for {lit}`i`. -/
def enqueue (s : System ι κ) (i : ι) : System ι κ :=
  { s.setWaiter i .suspended with
    awaiters := some i
    enqueued := Function.update s.enqueued i (s.enqueued i + 1) }

/-- {lit}`prev->_continuation.resume()`. -/
def resume (s : System ι κ) (k : κ) (i : ι) : System ι κ :=
  if s.waiter i = .suspended then
    { s.setWaiter i .running with
      resumed := Function.update s.resumed i (s.resumed i + 1)
      woke := Function.update s.woke k (s.woke k ++ [i]) }
  else
    { s with faults := s.faults ++ [.badResume k i] }

end System

/-- One step of {lit}`ConditionVariableAwaiter::await_suspend`. -/
def waiterStep (s : System ι κ) (i : ι) (spurious : Bool) : Option (System ι κ) :=
  match s.waiter i with
  | .running | .suspended => none
  | .load => some (s.setWaiter i (.link s.awaiters))
  | .link awaitings => some ((s.setNext i awaitings).setWaiter i (.cas awaitings))
  | .cas awaitings =>
      if s.awaiters = awaitings ∧ spurious = false then
        some (s.enqueue i)
      else
        some (s.setWaiter i (.link s.awaiters))

/-- One step of {lit}`notifyOne` or {lit}`notifyAll`. -/
def notifierStep (s : System ι κ) (k : κ) (spurious : Bool) : Option (System ι κ) :=
  match s.notifier k with
  | .idle | .returned | .crashed => none
  | .load =>
      match s.kind k with
      | .one =>
          if s.awaiters = none then
            some (s.setNotifier k .returned)
          else
            some (s.setNotifier k (.next s.awaiters))
      | .all => some (s.setNotifier k (.casAll s.awaiters))
  | .next none => some { s.setNotifier k .crashed with faults := s.faults ++ [.nullNext k] }
  | .next (some awaitings) =>
      let s' := s.setNotifier k (.casOne awaitings (s.next awaitings))
      if s.waiter awaitings = .suspended then
        some s'
      else
        some { s' with faults := s.faults ++ [.staleNext k awaitings] }
  | .casOne awaitings next =>
      if s.awaiters = some awaitings ∧ spurious = false then
        some { s.setNotifier k (.unlink awaitings) with
          awaiters := next
          took := Function.update s.took k [awaitings] }
      else
        -- the failed exchange leaves the head in the local variable
        some (s.setNotifier k (.next s.awaiters))
  | .unlink awaitings => some ((s.setNext awaitings none).setNotifier k (.walk (some awaitings)))
  | .casAll awaitings =>
      if s.awaiters = awaitings ∧ spurious = false then
        some { s.setNotifier k (.walk awaitings) with awaiters := none }
      else
        some (s.setNotifier k (.casAll s.awaiters))
  | .walk none => some (s.setNotifier k .returned)
  | .walk (some prev) => some (s.setNotifier k (.resume prev (s.next prev)))
  | .resume prev awaiters => some ((s.resume k prev).setNotifier k (.walk awaiters))

/-- The moves: a coroutine waits, a notifier is called, or one of them goes on. -/
inductive Label (ι κ : Type) where
  | wait (i : ι)
  | waiter (i : ι) (spurious : Bool)
  | notify (k : κ) (kind : Kind)
  | notifier (k : κ) (spurious : Bool)
deriving DecidableEq, Repr

def step (s : System ι κ) : Label ι κ → Option (System ι κ)
  | .wait i =>
      match s.waiter i with
      | .running => some (s.setWaiter i .load)
      | _ => none
  | .waiter i spurious => waiterStep s i spurious
  | .notify k kind =>
      match s.notifier k with
      | .idle | .returned =>
          some { s.setNotifier k .load with
            kind := Function.update s.kind k kind
            took := Function.update s.took k []
            woke := Function.update s.woke k [] }
      | _ => none
  | .notifier k spurious => notifierStep s k spurious

/-- A condition variable with all the coroutines and notifiers that use it. -/
def machine : Machine (System ι κ) (Label ι κ) where
  step := step

end ConditionVariable

end AsyncSimple
