import AsyncSimple.Executor.SimpleExecutor
import AsyncSimple.Executor.ThreadPool
import AsyncSimple.Future.Consumers

/-!
# Awaiting a future in a uthread

{lit}`uthread::await` suspends the calling stack until a future has a result.  It makes a
second promise whose state is checked out and scheduled by force, attaches
{lit}`switch_in` to it, passes the result of the future on to it and calls
{lit}`switch_out`.  The continuation of the second state then goes through the queue of the
worker on which the uthread ran, and this worker looks into its queue after the uthread has
left it.

The model has the two shared states, the queues and workers of a {lit}`SimpleExecutor` that
does not stop, and the uthread.  Other tasks come and go on all workers.  The promise is
fulfilled by a thread outside the pool, or by a task on some worker.

Main definitions:

- {lit}`mainStep`: {lit}`uthread::await` up to {lit}`switch_out` and after it.
- {lit}`callbackStep`: the callback passed to {lit}`thenTry`.
- {lit}`workerStep`: a worker with its queue.
- {lit}`AwaitsOnce`: the uthread is switched in once, on its own worker, after it has
  switched out.
-/

namespace AsyncSimple

open Transition FutureState SimpleExecutor
open Consumers (Param Fulfilment Outcome value forwarded)

namespace UthreadAwait

variable {ε : Type} {T : Param} {n : Nat}

/-! ## State -/

/-- The future that is awaited: whether its promise was checked out, and on which worker;
whether it is scheduled by force; and the worker on which it is fulfilled. -/
structure Config (n : Nat) where
  checkedOut : Option (Fin n)
  forceSched : Bool
  setter : Option (Fin n)
deriving DecidableEq, Repr

/-- What the queues hold. -/
inductive Item where
  | other
  /-- the continuation of the future -/
  | continuation
  /-- the continuation of the second promise, which calls {lit}`switch_in` -/
  | switchIn
deriving DecidableEq, Repr

/-- What the thread of a worker does. -/
inductive Worker where
  | idle
  | busy
  /-- it executes the uthread -/
  | uthread
deriving DecidableEq, Repr

/-- Who executes the continuation of the future. -/
inductive Runner (n : Nat) where
  | setter
  | attacher
  | worker (v : Fin n)
deriving DecidableEq, Repr

/-- Program points of {lit}`uthread::await`. -/
inductive Pc (ε : Type) (T : Param) where
  | hasResult
  /-- {lit}`f.setContinuation` -/
  | setContinuation
  /-- {lit}`fut.thenTry` -/
  | thenTry
  | switchOut
  | suspended
  /-- back from {lit}`switch_out` -/
  | check
  | done (waited : Bool) (outcome : Outcome ε T)

/-- Program points of the callback of {lit}`thenTry`. -/
inductive CallbackPc (ε : Type) (T : Param) (n : Nat) where
  | notRun
  | running (runner : Runner n) (t : Try ε T.Inner)
  | ended

structure State (ε : Type) (T : Param) (n : Nat) where
  queue : Fin n → Queue Item
  worker : Fin n → Worker
  /-- the worker that executes the uthread, or has executed it before it was suspended -/
  home : Option (Fin n)
  pc : Pc ε T
  fut : System Unit ε T.Inner Unit
  callback : CallbackPc ε T n
  /-- the shared state of {lit}`p` and {lit}`f` -/
  second : System Unit ε T.Inner Unit
  /-- the calls of {lit}`switch_in`: the thread, and whether the uthread was suspended -/
  switchIns : List (Option (Fin n) × Bool)

/-- The executor of the future is the pool. -/
def Config.futureState (cfg : Config n) : FutureState ε T.Inner Unit :=
  match cfg.checkedOut with
  | none => (create.setExecutor (some 0)).setForceSched cfg.forceSched
  | some v =>
      ((create.setExecutor (some 0)).setForceSched cfg.forceSched).checkout
        (toContext (SimpleExecutor.checkout (some v)))

/-- {lit}`p.getFuture().via(executor)` and {lit}`p.forceSched().checkout()` on the worker
{lit}`w`. -/
def secondState (w : Fin n) : FutureState ε T.Inner Unit :=
  ((create.setExecutor (some 0)).setForceSched true).checkout
    (toContext (SimpleExecutor.checkout (some w)))

/-- The uthread runs on the worker {lit}`w`. -/
def State.initial (cfg : Config n) (w : Fin n) : State ε T n where
  queue := fun _ => Queue.empty
  worker := Function.update (fun _ => .idle) w .uthread
  home := some w
  pc := .hasResult
  fut := System.initial cfg.futureState
  callback := .notRun
  second := System.initial (secondState w)
  switchIns := []

/-! ## Steps -/

/-- Where the executor puts a function that is submitted from the thread {lit}`current`;
{lit}`choice` is the random worker. -/
def placement (current : Option (Fin n)) (choice : Fin n) : Route → Placement
  | .schedule => .queue choice.val
  | .checkin ctx prompt => SimpleExecutor.checkin current (BitVec.ofNat 64 ctx) prompt

/-- {lit}`_queues[id].push(...)`. -/
def State.push (s : State ε T n) (id : Nat) (item : Item) : State ε T n :=
  if h : id < n then
    { s with queue := Function.update s.queue ⟨id, h⟩ ((s.queue ⟨id, h⟩).push item) }
  else
    s

/-- {lit}`switch_in(ctx)` on a thread.  A uthread that is not suspended is not moved: its
stack would be entered a second time. -/
def State.switchIn (s : State ε T n) (thread : Option (Fin n)) : State ε T n :=
  match s.pc with
  | .suspended =>
      { s with
        pc := .check
        home := thread
        worker :=
          match thread with
          | some v => Function.update s.worker v .uthread
          | none => s.worker
        switchIns := s.switchIns ++ [(thread, true)] }
  | _ => { s with switchIns := s.switchIns ++ [(thread, false)] }

/-- The callback starts when the continuation of the future is invoked. -/
def callbackAfter (s : State ε T n) (fut : System Unit ε T.Inner Unit) (runner : Runner n) :
    CallbackPc ε T n :=
  if fut.shared.invoked.length = s.fut.shared.invoked.length then
    s.callback
  else
    match fut.shared.invoked with
    | [] => s.callback
    | (_, t) :: _ => .running runner t

/-- The future has moved; a submission goes to a queue, or is executed at once. -/
def State.futMoved (s : State ε T n) (fut : System Unit ε T.Inner Unit) (runner : Runner n)
    (current : Option (Fin n)) (choice : Fin n) : State ε T n :=
  if fut.shared.pending = s.fut.shared.pending then
    { s with fut := fut, callback := callbackAfter s fut runner }
  else
    match placement current choice (route fut.shared.fs) with
    | .queue id => State.push { s with fut := fut } id .continuation
    | .inPlace =>
        match FutureState.step (fun _ => .nothing) () fut .runTask with
        | some fut' => { s with fut := fut', callback := callbackAfter s fut' runner }
        | none => { s with fut := fut }

/-- The second shared state has moved. -/
def State.secondMoved (s : State ε T n) (second : System Unit ε T.Inner Unit)
    (current : Option (Fin n)) (choice : Fin n) : State ε T n :=
  if second.shared.invoked.length ≠ s.second.shared.invoked.length then
    State.switchIn { s with second := second } current
  else if second.shared.pending = s.second.shared.pending then
    { s with second := second }
  else
    match placement current choice (route second.shared.fs) with
    | .queue id => State.push { s with second := second } id .switchIn
    | .inPlace =>
        match FutureState.step (fun _ => .nothing) () second .runTask with
        | some second' => State.switchIn { s with second := second' } current
        | none => { s with second := second }

/-- The thread of a runner. -/
def State.threadOf (cfg : Config n) (s : State ε T n) : Runner n → Option (Fin n)
  | .setter => cfg.setter
  | .attacher => s.home
  | .worker v => some v

/-- The callback runs inside {lit}`thenTry`. -/
def CallbackPc.inAttacher : CallbackPc ε T n → Bool
  | .running .attacher _ => true
  | _ => false

/-- The callback runs in a task of the worker. -/
def CallbackPc.inWorker (v : Fin n) : CallbackPc ε T n → Bool
  | .running (.worker u) _ => decide (u = v)
  | _ => false

/-- One step of {lit}`uthread::await`.  The pool accepts every function. -/
def mainStep (s : State ε T n) (choice : Fin n) : Option (State ε T n) :=
  match s.pc with
  | .hasResult =>
      if s.fut.shared.fs.state.hasResult then
        some { s with pc := .done false (value T s.fut.shared.fs.tryValue) }
      else
        some { s with pc := .setContinuation }
  | .setContinuation =>
      if s.second.attacher = .returned then
        some { s with pc := .thenTry }
      else
        (FutureState.step (fun _ => .nothing) () s.second (.setContinuation ⟨true, true⟩)).map
          fun second => s.secondMoved second s.home choice
  | .thenTry =>
      if s.callback.inAttacher then
        none
      else if s.fut.attacher = .returned then
        some { s with pc := .switchOut }
      else
        (FutureState.step (fun _ => .nothing) () s.fut (.setContinuation ⟨true, true⟩)).map
          fun fut => s.futMoved fut .attacher s.home choice
  | .switchOut =>
      -- the thread goes on with the task that had switched the uthread in
      some { s with
        pc := .suspended
        worker :=
          match s.home with
          | some v => Function.update s.worker v .busy
          | none => s.worker }
  | .suspended => none
  | .check =>
      if s.second.shared.fs.state.hasResult then
        some { s with pc := .done true (value T s.second.shared.fs.tryValue) }
      else
        some { s with pc := .switchOut }
  | .done _ _ => none

/-- One step of the callback: {lit}`p.setValue(std::move(t))`. -/
def callbackStep (cfg : Config n) (s : State ε T n) (choice : Fin n) : Option (State ε T n) :=
  match s.callback with
  | .notRun | .ended => none
  | .running runner t =>
      if s.second.setter () = .returned then
        some { s with callback := .ended }
      else
        (FutureState.step (fun _ => forwarded T t) () s.second
          (.setResult () ⟨(s.threadOf cfg runner).isSome, true⟩)).map
          fun second => s.secondMoved second (s.threadOf cfg runner) choice

/-- One step of the promise side of the future. -/
def setterStep (t : Try ε T.Inner) (cfg : Config n) (s : State ε T n) (choice : Fin n) :
    Option (State ε T n) :=
  (FutureState.step (fun _ => t) () s.fut (.setResult () ⟨cfg.setter.isSome, true⟩)).map
    fun fut => s.futMoved fut .setter cfg.setter choice

/-- The thread that fulfils the promise does not execute the uthread. -/
def State.setterFree (cfg : Config n) (s : State ε T n) : Bool :=
  match cfg.setter with
  | some v => s.worker v ≠ .uthread
  | none => true

/-- The worker executes an item from its queue. -/
def State.execute (s : State ε T n) (v : Fin n) : Item → Option (State ε T n)
  | .other => some s
  | .continuation =>
      (FutureState.step (fun _ => .nothing) () s.fut .runTask).map fun fut =>
        { s with fut := fut, callback := callbackAfter s fut (.worker v) }
  | .switchIn =>
      (FutureState.step (fun _ => .nothing) () s.second .runTask).map fun second =>
        State.switchIn { s with second := second } (some v)

/-- One step of a worker. -/
def workerStep (s : State ε T n) (v : Fin n) : Option (State ε T n) :=
  match s.worker v with
  | .idle =>
      match (s.queue v).pop with
      | .item x queue =>
          State.execute { s with
            queue := Function.update s.queue v queue
            worker := Function.update s.worker v .busy } v x
      | _ => none
  | .busy =>
      if s.callback.inWorker v then
        none
      else
        some { s with worker := Function.update s.worker v .idle }
  | .uthread => none

inductive Label (n : Nat) where
  | main (choice : Fin n)
  | callback (choice : Fin n)
  | setter (choice : Fin n)
  | worker (v : Fin n)
  /-- some other task is scheduled on the worker -/
  | schedule (v : Fin n)
deriving DecidableEq, Repr

def step (t : Try ε T.Inner) (cfg : Config n) (s : State ε T n) :
    Label n → Option (State ε T n)
  | .main choice => mainStep s choice
  | .callback choice => callbackStep cfg s choice
  | .setter choice => if s.setterFree cfg then setterStep t cfg s choice else none
  | .worker v => workerStep s v
  | .schedule v => some (s.push v.val .other)

/-- One {lit}`await` with the promise side of its future, on a pool of {lit}`n` workers. -/
def machine (t : Try ε T.Inner) (cfg : Config n) : Machine (State ε T n) (Label n) where
  step := step t cfg

/-- The uthread has found the future without a result. -/
def Pc.waits : Pc ε T → Bool
  | .hasResult => false
  | .done waited _ => waited
  | _ => true

/-- Whatever future a uthread on the worker {lit}`w` awaits, it is switched in at most once,
on this worker and after it has switched out; {lit}`await` ends as the promise says, after
one {lit}`switch_in` if it had to wait; and every run can be brought to this end. -/
def AwaitsOnce (pool : Pool) (w : Fin pool.threadNum) : Prop :=
  ∀ (ε : Type) (T : Param) (broken : ε) (f : Fulfilment ε T) (cfg : Config pool.threadNum)
    (ls : List (Label pool.threadNum)) (s : State ε T pool.threadNum),
    (machine (f.toTry broken) cfg).run (State.initial cfg w) ls = some s →
      (s.switchIns = [] ∨ s.switchIns = [(some w, true)]) ∧
      (∀ waited outcome, s.pc = .done waited outcome → outcome = f.outcome broken ∧
        s.switchIns = if waited then [(some w, true)] else []) ∧
      ∃ ks s' waited, (machine (f.toTry broken) cfg).run s ks = some s' ∧
        s'.pc = .done waited (f.outcome broken) ∧ (s.pc.waits = true → waited = true)

end UthreadAwait

end AsyncSimple
