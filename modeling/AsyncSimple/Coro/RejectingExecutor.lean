import AsyncSimple.Coro.CountEvent
import AsyncSimple.Library.Machine

/-!
# Executors that reject

{lit}`Executor::schedule` and {lit}`checkin` answer {lit}`false` when the function will not
be executed.  {lit}`dispatch` looks at the answer and throws in the coroutine; the start of a
{lit}`RescheduleLazy`, the submission of the inputs by {lit}`collectAllPara`, {lit}`Yield`,
the timer of {lit}`sleep`, {lit}`FutureAwaiter` and {lit}`ViaCoroutine` drop it.

A task is one started {lit}`Lazy` with the frames it awaits, which share an executor or have
none.  Every label carries the answer that the executor gives if the step asks it.  The
machine keeps every handle where the code has put it: in the queue of an executor, with the
event that a coroutine awaits, or in a collect call; a handle that was rejected is nowhere.

Main definitions:

- Definition {lit}`act`: the awaits of a running frame.
- Definition {lit}`step`: tasks, collect calls, executors and awaited events.
- Definition {lit}`asks`: the step asks an executor and drops its answer.
-/

namespace AsyncSimple

open Transition

namespace RejectingExecutor

/-! ## Tasks and collect calls -/

/-- The {lit}`co_await` that a suspended coroutine is at. -/
inductive Await where
  /-- the start of a {lit}`RescheduleLazy` -/
  | start
  | yield
  | dispatch
  | sleep
  | future
  /-- anything that is wrapped into a {lit}`ViaCoroutine`, such as the lock of a
  {lit}`Mutex` -/
  | via
  | collect (c : Nat)
deriving DecidableEq, Repr

inductive Status where
  | unstarted
  | running
  | suspended (await : Await)
  | finished
deriving DecidableEq, Repr

def Status.isSuspended : Status → Bool
  | .suspended _ => true
  | _ => false

/-- A started {lit}`Lazy`: the number of its frames, their {lit}`_executor`, and the collect
call that it is an input of; how often it was suspended and resumed. -/
structure Task (ξ : Type) where
  frames : Nat
  executor : Option ξ
  status : Status
  call : Option Nat
  suspensions : Nat
  resumptions : Nat
deriving DecidableEq, Repr

/-- The inputs of a collect call, with their executors. -/
inductive Inputs (ξ : Type) where
  | lazy (exs : List (Option ξ))
  | reschedule (exs : List ξ)
deriving DecidableEq, Repr

/-- A collect call: the task that awaits it, the executors of the inputs and the number of
those that the loop in {lit}`await_suspend` has dealt with.  {lit}`wrapped` says that the
inputs are {lit}`RescheduleLazy`s, so that the continuation is a {lit}`ViaCoroutine`;
{lit}`para` that inputs are started on their executors; {lit}`handled` that the cancel
handler has run. -/
structure Call (ξ : Type) where
  kind : CollectKind
  owner : Nat
  wrapped : Bool
  para : Bool
  inputs : List (Option ξ)
  started : Nat
  event : CountEvent
  handled : Bool
deriving DecidableEq, Repr

/-- What an executor has been given: a coroutine, or the function of {lit}`collectAllPara`
that starts an input. -/
inductive Work (ξ : Type) where
  | resume (p : Nat)
  | submit (c : Nat) (ex : Option ξ)
deriving DecidableEq, Repr

/-- Tasks and collect calls in the order of their creation, what the executors have accepted,
and the tasks whose awaited event is still to come. -/
structure State (ξ : Type) where
  task : Nat → Task ξ
  tasks : Nat
  call : Nat → Option (Call ξ)
  calls : Nat
  queue : List (Work ξ)
  events : List Nat

variable {ξ : Type}

def State.initial : State ξ where
  task := fun _ => ⟨0, none, .unstarted, none, 0, 0⟩
  tasks := 0
  call := fun _ => none
  calls := 0
  queue := []
  events := []

namespace Call

/-- A {lit}`Lazy` without an executor gets the one of the awaiting frame. -/
def create (kind : CollectKind) (para : Bool) (owner : Nat) (executor : Option ξ)
    (inputs : Inputs ξ) : Call ξ :=
  let exs := match inputs with
    | .lazy exs => exs.map fun ex => ex.or executor
    | .reschedule exs => exs.map some
  { kind := kind
    owner := owner
    wrapped := inputs matches .reschedule _
    para := para
    inputs := exs
    started := 0
    event := (CountEvent.create (match kind with
      | .all => exs.length
      | .any => exs.length + 1)).setAwaitingCoro
    handled := false }

/-- The decrement that comes next resumes the coroutine. -/
def resumes (call : Call ξ) : Bool :=
  match call.kind with
  | .all => call.event.count = 1
  | .any => call.event.count = call.inputs.length + 1

/-- The loop submits the input to its executor. -/
def submits (call : Call ξ) (ex : Option ξ) : Bool :=
  call.para && decide (1 < call.inputs.length) && ex.isSome

end Call

namespace State

variable (s : State ξ)

def setTask (p : Nat) (task : Task ξ) : State ξ :=
  { s with task := Function.update s.task p task }

def setCall (c : Nat) (call : Call ξ) : State ξ :=
  { s with call := Function.update s.call c (some call) }

def suspend (p : Nat) (await : Await) : State ξ :=
  s.setTask p { s.task p with
    status := .suspended await
    suspensions := (s.task p).suspensions + 1 }

/-- {lit}`resume()`. -/
def resume (p : Nat) : State ξ :=
  s.setTask p { s.task p with
    status := .running
    resumptions := (s.task p).resumptions + 1 }

/-- A coroutine is started. -/
def addTask (executor : Option ξ) (call : Option Nat) : State ξ :=
  { s.setTask s.tasks ⟨1, executor, .running, call, 0, 0⟩ with tasks := s.tasks + 1 }

/-- {lit}`Executor::schedule`, with its answer. -/
def schedule (work : Work ξ) (answer : Bool) : State ξ :=
  if answer then { s with queue := s.queue ++ [work] } else s

/-- {lit}`checkin`, or {lit}`resume()` without an executor. -/
def checkin (p : Nat) (answer : Bool) : State ξ :=
  match (s.task p).executor with
  | some _ => s.schedule (.resume p) answer
  | none => s.resume p

/-- The start of a {lit}`Lazy`, or of a {lit}`RescheduleLazy`, which schedules it. -/
def start (executor : Option ξ) (call : Option Nat) (reschedule answer : Bool) : State ξ :=
  if reschedule then
    ((s.addTask executor call).suspend s.tasks .start).schedule (.resume s.tasks) answer
  else
    s.addTask executor call

/-- The callback of an input or the cancel handler of a collect call. -/
def countDown (c : Nat) (answer : Bool) : State ξ :=
  match s.call c with
  | some call =>
      let s' := s.setCall c { call with event := call.event.downCount.2 }
      if call.resumes then
        if call.wrapped then s'.checkin call.owner answer else s'.resume call.owner
      else
        s'
  | none => s

/-- The outermost frame of the task ends. -/
def complete (p : Nat) (answer : Bool) : State ξ :=
  let s' := s.setTask p { s.task p with frames := 0, status := .finished }
  match (s.task p).call with
  | some c => s'.countDown c answer
  | none => s'

end State

/-! ## Steps -/

/-- The awaits of a frame and its end. -/
inductive Action (ξ : Type) where
  /-- {lit}`co_await` of a {lit}`Lazy` -/
  | await
  /-- {lit}`co_return`, or an exception leaves the frame -/
  | ret
  | yield
  | dispatch (ex : ξ)
  | sleep
  | future
  | via
  | collect (kind : CollectKind) (para : Bool) (inputs : Inputs ξ)
deriving DecidableEq, Repr

/-- Who moves, with the answer of the executor. -/
inductive Label (ξ : Type) where
  /-- a {lit}`Lazy` is started, or a {lit}`RescheduleLazy` -/
  | start (executor : Option ξ)
  | via (executor : ξ) (answer : Bool)
  | act (p : Nat) (a : Action ξ) (answer : Bool)
  /-- the loop of a collect call deals with the next input -/
  | launch (c : Nat) (answer : Bool)
  /-- an executor executes what it has accepted -/
  | run (work : Work ξ) (answer : Bool)
  /-- the awaited event comes: a promise is fulfilled or its wait canceled, a lock is handed
  over, a timer expires -/
  | wake (p : Nat) (answer : Bool)
  /-- the cancel handler of {lit}`collectAny` runs -/
  | cancel (c : Nat) (answer : Bool)
deriving DecidableEq, Repr

def Label.answer : Label ξ → Bool
  | .start _ => true
  | .via _ answer | .act _ _ answer | .launch _ answer | .run _ answer | .wake _ answer
  | .cancel _ answer => answer

variable [DecidableEq ξ]

/-- The innermost frame of a running task moves. -/
def act (s : State ξ) (p : Nat) (answer : Bool) : Action ξ → Option (State ξ)
  | .await => some (s.setTask p { s.task p with frames := (s.task p).frames + 1 })
  | .ret =>
      if (s.task p).frames ≤ 1 then some (s.complete p answer)
      else some (s.setTask p { s.task p with frames := (s.task p).frames - 1 })
  | .yield =>
      match (s.task p).executor with
      | some _ => some ((s.suspend p .yield).schedule (.resume p) answer)
      -- `logicAssert` throws in the coroutine
      | none => some s
  | .dispatch ex =>
      if (s.task p).executor = some ex then some s
      else if answer then
        some (((s.setTask p { s.task p with executor := some ex }).suspend p .dispatch).schedule
          (.resume p) answer)
      -- the executor is changed back, and the coroutine gets the exception
      else some s
  | .sleep =>
      match (s.task p).executor with
      | some _ => some { s.suspend p .sleep with events := p :: s.events }
      -- the thread sleeps
      | none => some s
  | .future => some { s.suspend p .future with events := p :: s.events }
  | .via => some { s.suspend p .via with events := p :: s.events }
  | .collect kind para inputs =>
      let call := Call.create kind para p (s.task p).executor inputs
      -- `await_ready`: nothing to wait for
      if call.inputs = [] then some s
      else some { (s.suspend p (.collect s.calls)).setCall s.calls call with
        calls := s.calls + 1 }

def step (s : State ξ) : Label ξ → Option (State ξ)
  | .start executor => some (s.start executor none false true)
  | .via executor answer => some (s.start (some executor) none true answer)
  | .act p a answer => if (s.task p).status = .running then act s p answer a else none
  | .launch c answer =>
      match s.call c with
      | some call =>
          match call.inputs[call.started]? with
          | some ex =>
              let s' := s.setCall c { call with started := call.started + 1 }
              if call.submits ex then some (s'.schedule (.submit c ex) answer)
              else some (s'.start ex (some c) call.wrapped answer)
          | none => none
      | none => none
  | .run work answer =>
      if work ∈ s.queue then
        let s' := { s with queue := s.queue.erase work }
        match work with
        | .resume p => some (s'.resume p)
        | .submit c ex => (s.call c).map fun call => s'.start ex (some c) call.wrapped answer
      else
        none
  | .wake p answer =>
      if p ∈ s.events then
        let s' := { s with events := s.events.erase p }
        match (s.task p).status with
        -- the thread of `Executor::schedule` with a duration
        | .suspended .sleep => some (s'.schedule (.resume p) answer)
        | _ => some (s'.checkin p answer)
      else
        none
  | .cancel c answer =>
      match s.call c with
      | some call =>
          if call.kind = .any ∧ call.handled = false then
            some ((s.setCall c { call with handled := true }).countDown c answer)
          else
            none
      | none => none

def machine : Machine (State ξ) (Label ξ) where
  step := step

/-! ## What the paths should do -/

/-- The next decrement of the call checks its coroutine in. -/
def checksIn (s : State ξ) (c : Nat) : Bool :=
  match s.call c with
  | some call => call.resumes && call.wrapped && (s.task call.owner).executor.isSome
  | none => false

/-- The step asks an executor, and its answer is dropped. -/
def asks (s : State ξ) : Label ξ → Bool
  | .via _ _ => true
  | .act p .yield _ => (s.task p).executor.isSome
  | .act p .ret _ => decide ((s.task p).frames ≤ 1) &&
      match (s.task p).call with
      | some c => checksIn s c
      | none => false
  | .launch c _ =>
      match s.call c with
      | some call => call.wrapped || (call.inputs[call.started]?).any call.submits
      | none => false
  | .run (.submit c _) _ => (s.call c).any Call.wrapped
  | .wake p _ => decide ((s.task p).status = .suspended .sleep) || (s.task p).executor.isSome
  | .cancel c _ => checksIn s c
  | _ => false

/-- Whoever drops an answer is answered {lit}`true`. -/
def accepted (s : State ξ) (l : Label ξ) : Prop :=
  asks s l = true → l.answer = true

instance (s : State ξ) (l : Label ξ) : Decidable (accepted s l) :=
  inferInstanceAs (Decidable (_ → _))

/-- Nobody can move but the outside world with a new call: no task is queued, no event is
pending, no coroutine is running and no loop of a collect call is under way. -/
structure Quiet (s : State ξ) : Prop where
  queue : s.queue = []
  events : s.events = []
  running : ∀ p < s.tasks, (s.task p).status ≠ .running
  loops : ∀ c < s.calls, (s.call c).all (fun call => decide (call.inputs.length ≤ call.started))

/-- Every suspension is followed by at most one resumption, and in a quiet state every
started {lit}`Lazy` has finished. -/
structure NoneStranded (s : State ξ) : Prop where
  once : ∀ p, (s.task p).suspensions =
    (s.task p).resumptions + if (s.task p).status.isSuspended then 1 else 0
  finished : Quiet s → ∀ p < s.tasks, (s.task p).status = .finished

end RejectingExecutor

end AsyncSimple
