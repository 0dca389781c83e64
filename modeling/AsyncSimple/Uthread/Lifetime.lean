import AsyncSimple.Library.Machine
import Mathlib.Data.List.Count

/-!
# The lifetime of a uthread

A joined {lit}`Uthread` owns itself: the continuation of its promise {lit}`done_` holds it, and
with it the stack on which {lit}`done_` is fulfilled.  {lit}`join` therefore schedules this
continuation by force, in the context of the worker that joins, and the worker comes to it after
the uthread has left its stack by {lit}`final_switch_out`.

The model has the workers of a {lit}`SimpleExecutor` with their queues, the flag {lit}`_stop` and
the destructor of the pool.  Other tasks come and go on all workers.  An await is taken as a
whole here: it attaches {lit}`switch_in` to the future and switches out, and the thread that
fulfils the future schedules {lit}`switch_in` on the worker of the await.  A pool that is stopped
refuses a task; {lit}`scheduleContinuation` then runs the continuation in place.
-/

namespace AsyncSimple

open Transition

namespace UthreadLife

variable {n : Nat}

/-! ## State -/

/-- A thread: a worker of the pool, or one outside of it. -/
inductive Place (n : Nat) where
  | worker (v : Fin n)
  | outside
deriving DecidableEq, Repr

/-- What the queues hold. -/
inductive Task where
  | other
  /-- the continuation of an awaited future, which calls {lit}`switch_in` -/
  | resume
  /-- the continuation of {lit}`done_` -/
  | done
deriving DecidableEq, Repr

inductive WorkerPc where
  /-- before {lit}`pop` -/
  | loop
  /-- in a task, or in the uthread that the task has switched in -/
  | task
  /-- in the continuation of {lit}`done_`, before the callback -/
  | callback
  /-- the last reference to the continuation is about to go -/
  | release
  | left
deriving DecidableEq, Repr

/-- Program points of the uthread. -/
inductive Pc where
  | body
  /-- {lit}`await` before {lit}`switch_out` -/
  | attached
  | suspended
  /-- the function has returned or thrown -/
  | ended
  /-- in {lit}`checkin`, before the test of {lit}`_stop` -/
  | checkin
  | push
  /-- the pool has refused the continuation, which is run in place -/
  | inPlace
  | release
  /-- the continuation was destroyed, with the stack -/
  | freed
  /-- before {lit}`final_switch_out` -/
  | switchOut
  | left
deriving DecidableEq, Repr

/-- The continuation of an awaited future. -/
inductive Wake where
  | idle
  | armed
  /-- the thread that fulfils the future has found the pool running -/
  | push
  | queued
deriving DecidableEq, Repr

/-- Program points of {lit}`join`, with the worker that calls it. -/
inductive JoinPc (n : Nat) where
  | notCalled
  /-- {lit}`done_` had no result -/
  | attach (v : Fin n)
  | checkin (v : Fin n)
  | push (v : Fin n)
  | inPlace (v : Fin n)
  | release (v : Fin n)
  /-- the callback was run at once, and the caller keeps the {lit}`Uthread` -/
  | direct
  /-- the caller has destroyed the {lit}`Uthread` -/
  | dropped
  /-- the continuation has the {lit}`Uthread` -/
  | moved
deriving DecidableEq, Repr

/-- The worker that is inside {lit}`join`. -/
def JoinPc.worker : JoinPc n → Option (Fin n)
  | .attach v | .checkin v | .push v | .inPlace v | .release v => some v
  | _ => none

structure State (n : Nat) where
  stop : Bool
  queueStopped : Fin n → Bool
  queue : Fin n → List Task
  worker : Fin n → WorkerPc
  pc : Pc
  /-- the thread that executes the uthread -/
  on : Option (Place n)
  wake : Wake
  /-- the context of the await -/
  ctx : Option (Fin n)
  /-- the constructor of the {lit}`Uthread` has returned -/
  constructed : Bool
  /-- the function has ended -/
  ended : Bool
  /-- the state of {lit}`done_` -/
  hasResult : Bool
  continuation : Bool
  doneCtx : Option (Fin n)
  join : JoinPc n
  callbacks : Nat
  destroyed : Nat

/-- A task on the worker {lit}`home` is in the constructor of the {lit}`Uthread`, which has
switched to the new stack. -/
def State.initial (home : Fin n) : State n where
  stop := false
  queueStopped := fun _ => false
  queue := fun _ => []
  worker := fun v => if v = home then .task else .loop
  pc := .body
  on := some (.worker home)
  wake := .idle
  ctx := none
  constructed := false
  ended := false
  hasResult := false
  continuation := false
  doneCtx := none
  join := .notCalled
  callbacks := 0
  destroyed := 0

namespace State

def setWorker (s : State n) (v : Fin n) (pc : WorkerPc) : State n :=
  { s with worker := Function.update s.worker v pc }

def setQueue (s : State n) (v : Fin n) (queue : List Task) : State n :=
  { s with queue := Function.update s.queue v queue }

/-- {lit}`_queues[id].push`. -/
def enqueue (s : State n) (v : Fin n) (t : Task) : State n :=
  s.setQueue v (s.queue v ++ [t])

/-- A task runs on the worker, and has not switched to the uthread. -/
def inTask (s : State n) (v : Fin n) : Bool :=
  s.worker v = .task && s.on ≠ some (.worker v)

/-- The thread can fulfil a promise. -/
def active (s : State n) : Place n → Bool
  | .worker v => s.inTask v
  | .outside => true

end State

/-! ## Steps -/

/-- One step of the uthread after its function has ended, or of {lit}`await`. -/
def uthreadStep (s : State n) : Option (State n) :=
  match s.pc with
  | .attached => some { s with pc := .suspended, on := none, constructed := true }
  | .ended =>
      -- `done_.setValue(true)` or `done_.setException`
      some { s with hasResult := true, pc := if s.continuation then .checkin else .switchOut }
  | .checkin => some { s with pc := if s.stop then .inPlace else .push }
  | .push => s.doneCtx.map fun v => { s.enqueue v .done with pc := .switchOut }
  | .inPlace => some { s with callbacks := s.callbacks + 1, pc := .release }
  | .release => some { s with destroyed := s.destroyed + 1, pc := .freed }
  | .switchOut => some { s with pc := .left, on := none, constructed := true }
  | .body | .suspended | .freed | .left => none

/-- One step of {lit}`join` after the test for a result. -/
def joinStep (s : State n) : Option (State n) :=
  match s.join with
  | .attach v =>
      -- `forceSched().checkout()` and `setContinuation`
      some { s with
        doneCtx := some v
        continuation := true
        join := if s.hasResult then .checkin v else .moved }
  | .checkin v => some { s with join := if s.stop then .inPlace v else .push v }
  | .push v => some { s.enqueue v .done with join := .moved }
  | .inPlace v => some { s with callbacks := s.callbacks + 1, join := .release v }
  | .release _ => some { s with destroyed := s.destroyed + 1, join := .moved }
  | .notCalled | .direct | .dropped | .moved => none

/-- A worker takes the next task from its queue. -/
def popStep (s : State n) (v : Fin n) : Option (State n) :=
  if s.worker v = .loop then
    match s.queue v with
    | [] => none
    | .other :: rest => some ((s.setQueue v rest).setWorker v .task)
    | .resume :: rest =>
        -- `switch_in` needs a stack that is not in use
        if s.pc = .suspended then
          some { (s.setQueue v rest).setWorker v .task with
            pc := .body
            on := some (.worker v)
            wake := .idle }
        else
          none
    | .done :: rest => some ((s.setQueue v rest).setWorker v .callback)
  else
    none

/-- One step of a worker in its task. -/
def taskStep (s : State n) (v : Fin n) : Option (State n) :=
  match s.worker v with
  | .task =>
      if s.on ≠ some (.worker v) ∧ s.join.worker ≠ some v then some (s.setWorker v .loop) else none
  | .callback => some { s.setWorker v .release with callbacks := s.callbacks + 1 }
  | .release => some { s.setWorker v .loop with destroyed := s.destroyed + 1 }
  | .loop | .left => none

/-- The awaited future gets its result on some thread. -/
def fulfilStep (s : State n) (p : Place n) : Option (State n) :=
  if s.wake = .armed ∧ s.active p = true then
    if s.stop then
      if s.pc = .suspended then
        some { s with pc := .body, on := some p, wake := .idle }
      else
        none
    else
      some { s with wake := .push }
  else
    none

/-- {lit}`join(callback)`, up to the test for a result. -/
def joinCall (s : State n) (v : Fin n) : Option (State n) :=
  if s.join = .notCalled ∧ s.constructed = true ∧ s.inTask v = true then
    if s.hasResult then
      some { s with callbacks := s.callbacks + 1, join := .direct }
    else
      some { s with join := .attach v }
  else
    none

inductive Label (n : Nat) where
  /-- the function awaits a future without a result -/
  | await
  /-- the function returns or throws -/
  | ends
  | uthread
  | fulfil (p : Place n)
  | pushResume
  | join (v : Fin n)
  | joiner
  /-- the caller of {lit}`join` destroys its {lit}`Uthread` -/
  | drop
  /-- somebody schedules another task -/
  | schedule (v : Fin n)
  | pop (v : Fin n)
  | task (v : Fin n)
  /-- the destructor of the pool sets {lit}`_stop` -/
  | stop
  | stopQueue (v : Fin n)
  | leave (v : Fin n)
deriving DecidableEq, Repr

def step (s : State n) : Label n → Option (State n)
  | .await =>
      match s.pc, s.on with
      | .body, some (.worker v) =>
          some { s with pc := .attached, wake := .armed, ctx := some v }
      | _, _ => none
  | .ends => if s.pc = .body then some { s with pc := .ended, ended := true } else none
  | .uthread => uthreadStep s
  | .fulfil p => fulfilStep s p
  | .pushResume =>
      if s.wake = .push then
        s.ctx.map fun v => { s.enqueue v .resume with wake := .queued }
      else
        none
  | .join v => joinCall s v
  | .joiner => joinStep s
  | .drop =>
      if s.join = .direct then
        some { s with destroyed := s.destroyed + 1, join := .dropped }
      else
        none
  | .schedule v => some (s.enqueue v .other)
  | .pop v => popStep s v
  | .task v => taskStep s v
  | .stop => some { s with stop := true }
  | .stopQueue v =>
      if s.stop then
        some { s with queueStopped := Function.update s.queueStopped v true }
      else
        none
  | .leave v =>
      if s.worker v = .loop ∧ s.queue v = [] ∧ s.queueStopped v = true ∧ s.stop = true then
        some (s.setWorker v .left)
      else
        none

/-- One uthread of a pool of {lit}`n` workers. -/
def machine (n : Nat) : Machine (State n) (Label n) where
  step := step

/-! ## What is promised -/

/-- The callback is run at most once and after the function has ended, and the uthread is
destroyed at most once and after it has left its stack.  Both have happened when the function of
a joined uthread has ended and its worker has come to its end, and when the caller of a
{lit}`join` that found the result has destroyed the uthread. -/
structure Lifetime (home : Fin n) (s : State n) : Prop where
  callback : s.callbacks ≤ 1
  afterEnd : 0 < s.callbacks → s.ended = true
  destroyed : s.destroyed ≤ 1
  afterSwitchOut : 0 < s.destroyed → s.pc = .left
  complete : s.join = .moved ∧ s.ended = true ∧ s.worker home = .left ∨ s.join = .dropped →
    s.callbacks = 1 ∧ s.destroyed = 1

/-- The uthread is joined on its own worker, and the pool refuses none of its continuations. -/
def accepted (home : Fin n) (s : State n) : Label n → Bool
  | .join v => v = home
  | .fulfil _ => !s.stop
  | .uthread => !(s.pc = .checkin && s.stop)
  | .joiner => !(s.join matches .checkin _) || !s.stop
  | _ => true

end UthreadLife

end AsyncSimple
