import AsyncSimple.Library.Machine
import Mathlib.Data.BitVec

/-!
# The shared state of a promise and its future

This module embeds {lit}`FutureState<T>`.  The two calls that meet on a shared
state, {lit}`setResult` and {lit}`setContinuation`, are cut at their atomic
operations: one step is one load or one {lit}`compare_exchange` of
{lit}`_state` together with the private work up to the next one.  Any number
of threads may be inside {lit}`setResult` and one thread may be inside
{lit}`setContinuation`; the executor answers the submission of the
continuation as the label says.

Main definitions:

- Definition {lit}`setResultStep` and {lit}`setContinuationStep`: the two
  calls, both instances of {lit}`transferStep`.
- Definition {lit}`scheduleContinuationStep`: the four ways of running the
  continuation.
- Definition {lit}`machine`: all interleavings of the calls with the executor.
-/

namespace AsyncSimple

open Transition

/-- {lit}`Try<T>`: nothing yet, a value or an exception. -/
inductive Try (ε α : Type) where
  | nothing
  | value (v : α)
  | error (e : ε)
deriving DecidableEq, Repr

/-- The {lit}`std::logic_error`s that {lit}`logicAssert` raises in the shared
state. -/
inductive LogicError where
  | alreadyHasResult
  | alreadyHasContinuation
  | stateTransferError
  | notDone
deriving DecidableEq, Repr

/-- Message carried by the error. -/
def LogicError.what : LogicError → String
  | .alreadyHasResult => "FutureState already has a result"
  | .alreadyHasContinuation => "FutureState already has a continuation"
  | .stateTransferError => "State Transfer Error"
  | .notDone => "FutureState is not DONE"

namespace FutureState

/-- {lit}`detail::State`. -/
inductive State where
  | start
  | onlyResult
  | onlyContinuation
  | done
deriving DecidableEq, Repr

/-- The encoding of the enumerators. -/
def State.bits : State → BitVec 8
  | .start => 0
  | .onlyResult => 1#8 <<< 0
  | .onlyContinuation => 1#8 <<< 1
  | .done => 1#8 <<< 5

/-- {lit}`hasResult()` on a loaded state. -/
def State.hasResult (st : State) : Bool :=
  (st.bits &&& (State.done.bits ||| State.onlyResult.bits)) != 0

/-- {lit}`hasContinuation()` on a loaded state. -/
def State.hasContinuation (st : State) : Bool :=
  (st.bits &&& (State.done.bits ||| State.onlyContinuation.bits)) != 0

@[simp]
theorem State.hasResult_iff (st : State) :
    st.hasResult = true ↔ st = .onlyResult ∨ st = .done := by
  cases st <;> decide

@[simp]
theorem State.hasContinuation_iff (st : State) :
    st.hasContinuation = true ↔ st = .onlyContinuation ∨ st = .done := by
  cases st <;> decide

end FutureState

/-- The members of {lit}`FutureState<T>` that the two calls read and write.
{lit}`continuation` is {lit}`none` until the union member has been constructed,
{lit}`executor` and {lit}`context` are {lit}`none` for the null pointer. -/
structure FutureState (ε α K : Type) where
  state : FutureState.State
  tryValue : Try ε α
  continuation : Option K
  executor : Option Nat
  context : Option Nat
  forceSched : Bool
deriving DecidableEq, Repr

namespace FutureState

variable {ι ε α K : Type}

/-- The constructor. -/
def create : FutureState ε α K where
  state := .start
  tryValue := .nothing
  continuation := none
  executor := none
  context := none
  forceSched := false

/-- {lit}`setExecutor`. -/
def setExecutor (fs : FutureState ε α K) (ex : Option Nat) : FutureState ε α K :=
  { fs with executor := ex }

/-- {lit}`checkout`: the executor hands out the context. -/
def checkout (fs : FutureState ε α K) (executorContext : Option Nat) :
    FutureState ε α K :=
  if fs.executor.isSome then { fs with context := executorContext } else fs

/-- {lit}`setForceSched`: refused without an executor. -/
def setForceSched (fs : FutureState ε α K) (force : Bool := true) :
    FutureState ε α K :=
  if fs.executor.isNone && force then fs else { fs with forceSched := force }

/-! ## Steps of the calls -/

/-- How the continuation is submitted to the executor. -/
inductive Route where
  | schedule
  | checkin (ctx : Nat) (prompt : Bool)
deriving DecidableEq, Repr

/-- Program points of {lit}`setResult` and {lit}`setContinuation`, continued
into {lit}`scheduleContinuation`. -/
inductive Pc where
  | check
  | store
  | load
  | casStart
  | assertOther (state : State)
  | casDone (state : State)
  | assertDone
  | dispatch
  | submit (route : Route)
  | accepted
  | inplace
  | fallback
  | returned
  | threw (e : LogicError)
  | nullExecutor
deriving DecidableEq, Repr

/-- What the environment contributes to a step: the answer of
{lit}`currentThreadInExecutor` and that of {lit}`schedule` or {lit}`checkin`. -/
structure Answer where
  inExecutor : Bool
  accepts : Bool
deriving DecidableEq, Repr

/-- The shared state with its surroundings: the tasks an executor has accepted
and not yet run, the invocations of the stored continuation (latest first, each
with the continuation and the result found at that moment) and whether every
{lit}`assert` so far has held. -/
structure Shared (ε α K : Type) where
  fs : FutureState ε α K
  pending : Nat
  invoked : List (Option K × Try ε α)
  assertsHeld : Bool
deriving DecidableEq, Repr

/-- {lit}`_continuation(std::move(_try_value))`. -/
def Shared.invoke (sh : Shared ε α K) : Shared ε α K :=
  { sh with invoked := (sh.fs.continuation, sh.fs.tryValue) :: sh.invoked }

/-- {lit}`currentThreadInExecutor()`. -/
def currentThreadInExecutor (fs : FutureState ε α K) (answer : Answer) : Bool :=
  if fs.executor.isNone then false else answer.inExecutor

/-- The submission chosen by {lit}`scheduleContinuation`. -/
def route (fs : FutureState ε α K) : Route :=
  match fs.context with
  | none => .schedule
  | some ctx => .checkin ctx (!fs.forceSched)

/-- The steps of {lit}`scheduleContinuation(triggerByContinuation)`. -/
def scheduleContinuationStep (triggerByContinuation : Bool) (sh : Shared ε α K)
    (answer : Answer) : Pc → Option (Shared ε α K × Pc)
  | .assertDone =>
      some (sh, if sh.fs.state = .done then .dispatch else .threw .notDone)
  | .dispatch =>
      if !sh.fs.forceSched && (sh.fs.executor.isNone || triggerByContinuation ||
          currentThreadInExecutor sh.fs answer) then
        some (sh, .inplace)
      else
        match sh.fs.executor with
        | none => some (sh, .nullExecutor)
        | some _ => some (sh, .submit (route sh.fs))
  | .submit _ =>
      if answer.accepts then
        some ({ sh with pending := sh.pending + 1 }, .accepted)
      else
        some (sh, .fallback)
  | .accepted => some (sh, .returned)
  | .inplace => some (sh.invoke, .returned)
  | .fallback => some (sh.invoke, .returned)
  | _ => none

/-- What distinguishes {lit}`setResult` from {lit}`setContinuation`: the
initial check, the state each one stores alone, the state it expects the other
one to have stored, and the argument of {lit}`scheduleContinuation`. -/
structure Side where
  present : State → Bool
  presentError : LogicError
  only : State
  other : State
  triggerByContinuation : Bool

/-- The steps both calls share; {lit}`write` stores the caller's part. -/
def transferStep (side : Side) (write : FutureState ε α K → FutureState ε α K)
    (sh : Shared ε α K) (answer : Answer) : Pc → Option (Shared ε α K × Pc)
  | .check =>
      some (sh, if side.present sh.fs.state then .threw side.presentError else .store)
  | .store => some ({ sh with fs := write sh.fs }, .load)
  | .load =>
      -- the `switch` on the loaded state
      some (sh,
        if sh.fs.state = .start then .casStart
        else if sh.fs.state = side.other then .casDone sh.fs.state
        else .threw .stateTransferError)
  | .casStart =>
      if sh.fs.state = .start then
        some ({ sh with fs := { sh.fs with state := side.only } }, .returned)
      else
        -- the failed exchange leaves the current state in the local variable
        some (sh, .assertOther sh.fs.state)
  | .assertOther expected =>
      some ({ sh with assertsHeld := sh.assertsHeld && decide (sh.fs.state = side.other) },
        .casDone expected)
  | .casDone expected =>
      if sh.fs.state = expected then
        some ({ sh with fs := { sh.fs with state := .done } }, .assertDone)
      else
        some (sh, .threw .stateTransferError)
  | pc => scheduleContinuationStep side.triggerByContinuation sh answer pc

/-- The side of {lit}`setResult`. -/
def resultSide : Side where
  present := State.hasResult
  presentError := .alreadyHasResult
  only := .onlyResult
  other := .onlyContinuation
  triggerByContinuation := false

/-- The side of {lit}`setContinuation`. -/
def continuationSide : Side where
  present := State.hasContinuation
  presentError := .alreadyHasContinuation
  only := .onlyContinuation
  other := .onlyResult
  triggerByContinuation := true

/-- The steps of {lit}`setResult(value)`. -/
def setResultStep (value : Try ε α) : Shared ε α K → Answer → Pc → Option (Shared ε α K × Pc) :=
  transferStep resultSide fun fs => { fs with tryValue := value }

/-- The steps of {lit}`setContinuation(func)`. -/
def setContinuationStep (func : K) : Shared ε α K → Answer → Pc → Option (Shared ε α K × Pc) :=
  transferStep continuationSide fun fs => { fs with continuation := some func }

/-! ## All interleavings -/

/-- The shared state, the program point of every thread inside
{lit}`setResult` and that of the thread inside {lit}`setContinuation`. -/
structure System (ι ε α K : Type) where
  shared : Shared ε α K
  setter : ι → Pc
  attacher : Pc

/-- Who moves. -/
inductive Label (ι : Type) where
  | setResult (i : ι) (answer : Answer)
  | setContinuation (answer : Answer)
  | runTask
deriving DecidableEq, Repr

/-- Every thread is at the start of its call. -/
def System.initial (fs : FutureState ε α K) : System ι ε α K where
  shared := ⟨fs, 0, [], true⟩
  setter := fun _ => .check
  attacher := .check

variable [DecidableEq ι]

/-- One step of one party; an accepted task invokes the continuation once. -/
def step (value : ι → Try ε α) (func : K) (s : System ι ε α K) :
    Label ι → Option (System ι ε α K)
  | .setResult i answer =>
      (setResultStep (value i) s.shared answer (s.setter i)).map fun (sh, pc) =>
        { s with shared := sh, setter := Function.update s.setter i pc }
  | .setContinuation answer =>
      (setContinuationStep func s.shared answer s.attacher).map fun (sh, pc) =>
        { s with shared := sh, attacher := pc }
  | .runTask =>
      match s.shared.pending with
      | 0 => none
      | n + 1 => some { s with shared := { s.shared.invoke with pending := n } }

/-- The interleavings of the calls on one shared state. -/
def machine (value : ι → Try ε α) (func : K) : Machine (System ι ε α K) (Label ι) where
  step := step value func

end FutureState

end AsyncSimple
