import AsyncSimple.Library.Machine
import AsyncSimple.Library.OwnedLists

/-!
# The notifier

This module embeds {lit}`ConditionVariable<void>`, alias {lit}`Notifier`.  Its only
member {lit}`_awaiters` is the address of the notifier itself while it is signalled,
and otherwise the head of the list of the awaiters.  Every atomic operation on it is
one step, and so is every read and write of a {lit}`_next`.

An awaiter lives in the frame of the coroutine that waits, so that awaiters are named
by their coroutines, and the address is used again when the coroutine waits again.
-/

namespace AsyncSimple

open Transition

namespace Notifier

variable {ι κ : Type}

/-- The values of a {lit}`pointer_type`: the address of the notifier, or a possibly
null pointer to an awaiter. -/
inductive Word (ι : Type) where
  | self
  | awaiters (head : Option ι)
deriving DecidableEq, Repr

/-- Program points of a coroutine. -/
inductive WaiterPc (ι : Type) where
  | running
  /-- before the load of {lit}`await_ready` -/
  | ready
  /-- before the load of {lit}`await_suspend` -/
  | load
  /-- before {lit}`_next = awaitings` -/
  | link (awaitings : Word ι)
  /-- before the {lit}`compare_exchange_weak` -/
  | cas (awaitings : Word ι)
  | suspended
deriving DecidableEq, Repr

/-- Program points of a call of {lit}`notify`. -/
inductive NotifierPc (ι : Type) where
  | idle
  | exchange
  /-- at the head of the loop of {lit}`resumeWaiters` -/
  | walk (awaiters : Word ι)
  /-- before {lit}`prev->_continuation.resume()` -/
  | resume (prev : ι) (awaiters : Word ι)
  | returned
  /-- the address of the notifier was followed as an awaiter -/
  | crashed
deriving DecidableEq, Repr

inductive Fault (ι κ : Type) where
  | selfFollowed (k : κ)
  | badResume (k : κ) (i : ι)
deriving DecidableEq, Repr

/-- What changes whether the notifier is signalled. -/
inductive Event where
  | notify
  | reset
deriving DecidableEq, Repr

/-- The word, the links, the program points and a record.  {lit}`queue` lists the
awaiters enqueued since the last exchange of a {lit}`notify`, {lit}`took` those that
the current call of a notifier has found there and {lit}`woke` those that it has
resumed.  {lit}`passes` has an entry for each wait that did not suspend, with the
latest event at its deciding step. -/
structure System (ι κ : Type) where
  word : Word ι
  next : ι → Word ι
  waiter : ι → WaiterPc ι
  notifier : κ → NotifierPc ι
  queue : List ι
  took : κ → List ι
  woke : κ → List ι
  enqueued : ι → Nat
  resumed : ι → Nat
  history : List Event
  passes : List (ι × Option Event)
  faults : List (Fault ι κ)

/-- A new notifier; nothing is assumed about {lit}`_next`. -/
def System.initial (next : ι → Word ι) : System ι κ where
  word := .awaiters none
  next := next
  waiter := fun _ => .running
  notifier := fun _ => .idle
  queue := []
  took := fun _ => []
  woke := fun _ => []
  enqueued := fun _ => 0
  resumed := fun _ => 0
  history := []
  passes := []
  faults := []

variable [DecidableEq ι] [DecidableEq κ]

namespace System

def setWaiter (s : System ι κ) (i : ι) (pc : WaiterPc ι) : System ι κ :=
  { s with waiter := Function.update s.waiter i pc }

def setNotifier (s : System ι κ) (k : κ) (pc : NotifierPc ι) : System ι κ :=
  { s with notifier := Function.update s.notifier k pc }

/-- The wait continues without suspending. -/
def pass (s : System ι κ) (i : ι) : System ι κ :=
  { s.setWaiter i .running with passes := s.passes ++ [(i, s.history.getLast?)] }

/-- The loop of {lit}`await_suspend` with the value it has loaded last. -/
def suspendLoop (s : System ι κ) (i : ι) : System ι κ :=
  if s.word = .self then s.pass i else s.setWaiter i (.link s.word)

/-- The word was exchanged for the awaiter. -/
def enqueue (s : System ι κ) (i : ι) : System ι κ :=
  { s.setWaiter i .suspended with
    word := .awaiters (some i)
    queue := i :: s.queue
    enqueued := Function.update s.enqueued i (s.enqueued i + 1) }

/-- {lit}`prev->_continuation.resume()`. -/
def resume (s : System ι κ) (k : κ) (i : ι) : System ι κ :=
  if s.waiter i = .suspended then
    { s.setWaiter i .running with
      resumed := Function.update s.resumed i (s.resumed i + 1)
      woke := Function.update s.woke k (s.woke k ++ [i]) }
  else
    { s with faults := s.faults ++ [.badResume k i] }

end System

/-- One step of {lit}`co_await notifier.wait()`. -/
def waiterStep (s : System ι κ) (i : ι) (spurious : Bool) : Option (System ι κ) :=
  match s.waiter i with
  | .running | .suspended => none
  | .ready => some (if s.word = .self then s.pass i else s.setWaiter i .load)
  | .load => some (s.suspendLoop i)
  | .link awaitings =>
      some { s.setWaiter i (.cas awaitings) with next := Function.update s.next i awaitings }
  | .cas awaitings =>
      if s.word = awaitings ∧ spurious = false then
        some (s.enqueue i)
      else
        some (s.suspendLoop i)

/-- One step of {lit}`notify`. -/
def notifierStep (s : System ι κ) (k : κ) : Option (System ι κ) :=
  match s.notifier k with
  | .idle | .returned | .crashed => none
  | .exchange =>
      let pc := if s.word = .self then .returned else .walk s.word
      some { s.setNotifier k pc with
        word := .self
        queue := []
        took := Function.update s.took k s.queue
        history := s.history ++ [.notify] }
  | .walk .self => some { s.setNotifier k .crashed with faults := s.faults ++ [.selfFollowed k] }
  | .walk (.awaiters none) => some (s.setNotifier k .returned)
  | .walk (.awaiters (some prev)) => some (s.setNotifier k (.resume prev (s.next prev)))
  | .resume prev awaiters => some ((s.resume k prev).setNotifier k (.walk awaiters))

/-- {lit}`reset`, which is one {lit}`compare_exchange_strong`. -/
def reset (s : System ι κ) : System ι κ :=
  { s with
    word := if s.word = .self then .awaiters none else s.word
    history := s.history ++ [.reset] }

/-- The moves: a coroutine waits, a notifier is called, one of them goes on, or the
notifier is reset. -/
inductive Label (ι κ : Type) where
  | wait (i : ι)
  | waiter (i : ι) (spurious : Bool)
  | notify (k : κ)
  | notifier (k : κ)
  | reset
deriving DecidableEq, Repr

def step (s : System ι κ) : Label ι κ → Option (System ι κ)
  | .wait i =>
      match s.waiter i with
      | .running => some (s.setWaiter i .ready)
      | _ => none
  | .waiter i spurious => waiterStep s i spurious
  | .notify k =>
      match s.notifier k with
      | .idle | .returned =>
          some { s.setNotifier k .exchange with
            took := Function.update s.took k []
            woke := Function.update s.woke k [] }
      | _ => none
  | .notifier k => notifierStep s k
  | .reset => some (reset s)

/-- A notifier with all the coroutines and threads that use it. -/
def machine : Machine (System ι κ) (Label ι κ) where
  step := step

end Notifier

end AsyncSimple
