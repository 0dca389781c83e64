import AsyncSimple.Library.Machine
import AsyncSimple.Library.Counting

/-!
# The thread pool

{lit}`util::ThreadPool` has one {lit}`Queue` and one thread for every worker.
{lit}`scheduleById` tests {lit}`_stop` and then pushes into a queue; a worker pops from its
own queue, or steals from another one, and leaves its loop when its own queue is empty
after the stop; the destructor sets {lit}`_stop`, stops the queues one by one and joins the
threads.  Functions that run on a worker may call {lit}`scheduleById` themselves.

The calls are numbered in the order in which they begin, and the number stands for the
function that is passed.

Main definitions:

- {lit}`Queue`: the queue under its mutex; every operation is one step.
- {lit}`callStep`, {lit}`workerStep`, {lit}`destructorStep`: the steps of
  {lit}`scheduleById`, of a worker and of the destructor.
- {lit}`Conserved`: what was accepted is executed once, what was refused never.
-/

namespace AsyncSimple

open Transition

/-! ## The queue -/

/-- {lit}`util::Queue`: the items and {lit}`_stop`. -/
structure Queue (β : Type) where
  items : List β
  stopped : Bool
deriving DecidableEq, Repr

namespace Queue

variable {β : Type}

def empty : Queue β where
  items := []
  stopped := false

def push (q : Queue β) (item : β) : Queue β :=
  { q with items := q.items ++ [item] }

/-- {lit}`try_push`; {lit}`lock` says whether the mutex was free. -/
def tryPush (q : Queue β) (lock : Bool) (item : β) : Option (Queue β) :=
  if lock then some (q.push item) else none

/-- The answer of {lit}`pop`. -/
inductive Popped (β : Type) where
  /-- {lit}`_cond.wait` does not return yet -/
  | waits
  | stopped
  | item (x : β) (rest : Queue β)
deriving DecidableEq, Repr

def pop (q : Queue β) : Popped β :=
  match q.items with
  | [] => if q.stopped then .stopped else .waits
  | x :: xs => .item x { q with items := xs }

/-- {lit}`try_pop_if`. -/
def tryPopIf (q : Queue β) (lock : Bool) (predict : β → Bool) : Option (β × Queue β) :=
  match q.items with
  | [] => none
  | x :: xs => if lock && predict x then some (x, { q with items := xs }) else none

def stop (q : Queue β) : Queue β :=
  { q with stopped := true }

theorem pop_eq_item {q q' : Queue β} {x : β} (h : q.pop = .item x q') :
    q.items = x :: q'.items ∧ q'.stopped = q.stopped := by
  unfold pop at h
  split at h
  · split at h <;> cases h
  · next hitems =>
      cases h
      exact ⟨hitems, rfl⟩

theorem exists_pop {q : Queue β} (h : q.items ≠ []) : ∃ x q', q.pop = .item x q' := by
  rcases List.exists_cons_of_ne_nil h with ⟨x, xs, hitems⟩
  exact ⟨x, { q with items := xs }, by simp [pop, hitems]⟩

theorem pop_eq_stopped {q : Queue β} (h : q.pop = .stopped) : q.items = [] ∧ q.stopped = true := by
  unfold pop at h
  split at h
  · next hitems =>
      split at h
      · next hstopped => exact ⟨hitems, hstopped⟩
      · cases h
  · cases h

theorem tryPopIf_eq_some {q q' : Queue β} {lock : Bool} {predict : β → Bool} {x : β}
    (h : q.tryPopIf lock predict = some (x, q')) :
    q.items = x :: q'.items ∧ q'.stopped = q.stopped := by
  unfold tryPopIf at h
  split at h
  · cases h
  · next hitems =>
      split at h
      · cases h
        exact ⟨hitems, rfl⟩
      · cases h

theorem tryPopIf_predict {q q' : Queue β} {lock : Bool} {predict : β → Bool} {x : β}
    (h : q.tryPopIf lock predict = some (x, q')) : predict x = true := by
  unfold tryPopIf at h
  split at h
  · cases h
  · split at h
    · next hpredict =>
        cases h
        exact (Bool.and_eq_true_iff.mp hpredict).2
    · cases h

end Queue

namespace ThreadPool

variable {τ : Type} {n : Nat}

/-! ## The pool -/

/-- {lit}`WorkItem`; the function is given by the number of its call. -/
structure WorkItem where
  canSteal : Bool
  fn : Nat
deriving DecidableEq, Repr

inductive ErrorType where
  | errorNone
  | errorPoolHasStop
  | errorPoolItemIsNull
deriving DecidableEq, Repr

/-- Program points of {lit}`scheduleById`. -/
inductive CallPc (n : Nat) where
  | checkNull (isNull : Bool)
  | checkStop
  | tryPush (k : Nat)
  | push (q : Fin n) (canSteal : Bool)
  | returning (e : ErrorType)
deriving DecidableEq, Repr

/-- A call of {lit}`scheduleById`; {lit}`none` is the default {lit}`id`. -/
structure Call (n : Nat) where
  fn : Nat
  id : Option (Fin n)
  pc : CallPc n
deriving DecidableEq, Repr

/-- Program points of a worker. -/
inductive WorkerPc where
  | steal (k : Nat)
  | pop
  | testStop
  | running (fn : Nat)
  | exited
deriving DecidableEq, Repr

inductive DestructorPc where
  | notStarted
  | stopQueue (i : Nat)
  | join (i : Nat)
  | returned
deriving DecidableEq, Repr

/-- Who calls {lit}`scheduleById`: some other thread, or the function that runs on a
worker. -/
inductive Thread (τ : Type) (n : Nat) where
  | external (e : τ)
  | worker (v : Fin n)
deriving DecidableEq, Repr

structure State (τ : Type) (n : Nat) where
  stop : Bool
  queue : Fin n → Queue WorkItem
  worker : Fin n → WorkerPc
  call : Thread τ n → Option (Call n)
  destructor : DestructorPc
  /-- number of the next call -/
  next : Nat
  /-- the calls that have returned, with their answers -/
  returned : List (Nat × ErrorType)
  /-- the functions that have been executed -/
  executed : List Nat

/-- The beginning of the loop of a worker. -/
def loopStart (enableWorkSteal : Bool) : WorkerPc :=
  if enableWorkSteal then .steal 0 else .pop

/-- After the constructor. -/
def State.initial (enableWorkSteal : Bool) : State τ n where
  stop := false
  queue := fun _ => Queue.empty
  worker := fun _ => loopStart enableWorkSteal
  call := fun _ => none
  destructor := .notStarted
  next := 0
  returned := []
  executed := []

/-- {lit}`k % _threadNum`, in a pool that has the worker {lit}`v`. -/
def index (v : Fin n) (k : Nat) : Fin n :=
  ⟨k % n, Nat.mod_lt k v.pos⟩

/-- {lit}`workerItem.fn()`. -/
def State.execute (s : State τ n) (v : Fin n) (fn : Nat) : State τ n :=
  { s with
    worker := Function.update s.worker v (.running fn)
    executed := s.executed ++ [fn] }

def State.setQueue (s : State τ n) (q : Fin n) (queue : Queue WorkItem) : State τ n :=
  { s with queue := Function.update s.queue q queue }

def State.setWorker (s : State τ n) (v : Fin n) (pc : WorkerPc) : State τ n :=
  { s with worker := Function.update s.worker v pc }

/-- One step of the loop of a worker. -/
def workerStep (enableWorkSteal : Bool) (s : State τ n) (v : Fin n) (lock : Bool) :
    Option (State τ n) :=
  match s.worker v with
  | .steal k =>
      if k < 2 * n then
        match (s.queue (index v (v + k))).tryPopIf lock WorkItem.canSteal with
        | some (item, queue) => some ((s.setQueue (index v (v + k)) queue).execute v item.fn)
        | none => some (s.setWorker v (.steal (k + 1)))
      else
        some (s.setWorker v .pop)
  | .pop =>
      match (s.queue v).pop with
      | .item x queue => some ((s.setQueue v queue).execute v x.fn)
      | .stopped => some (s.setWorker v .testStop)
      | .waits => none
  | .testStop =>
      if s.stop then
        some (s.setWorker v .exited)
      else
        some (s.setWorker v (loopStart enableWorkSteal))
  | .running _ => some (s.setWorker v (loopStart enableWorkSteal))
  | .exited => none

/-- One step of the destructor. -/
def destructorStep (s : State τ n) : Option (State τ n) :=
  match s.destructor with
  | .notStarted => some { s with stop := true, destructor := .stopQueue 0 }
  | .stopQueue i =>
      if h : i < n then
        some { s.setQueue ⟨i, h⟩ (s.queue ⟨i, h⟩).stop with destructor := .stopQueue (i + 1) }
      else
        some { s with destructor := .join 0 }
  | .join i =>
      if h : i < n then
        if s.worker ⟨i, h⟩ = .exited then
          some { s with destructor := .join (i + 1) }
        else
          none
      else
        some { s with destructor := .returned }
  | .returned => none

variable [DecidableEq τ]

def State.setCall (s : State τ n) (th : Thread τ n) (call : Option (Call n)) : State τ n :=
  { s with call := Function.update s.call th call }

/-- The function is in the queue, and the call is about to return. -/
def State.pushed (s : State τ n) (th : Thread τ n) (call : Call n) (q : Fin n) (canSteal : Bool) :
    State τ n :=
  (s.setQueue q ((s.queue q).push ⟨canSteal, call.fn⟩)).setCall th
    (some { call with pc := .returning .errorNone })

/-- One step of a call of {lit}`scheduleById`; {lit}`choice` is the random queue. -/
def callStep (enableWorkSteal : Bool) (s : State τ n) (th : Thread τ n) (lock : Bool)
    (choice : Fin n) : Option (State τ n) :=
  match s.call th with
  | none => none
  | some call =>
      match call.pc with
      | .checkNull isNull =>
          some (s.setCall th (some { call with
            pc := if isNull then .returning .errorPoolItemIsNull else .checkStop }))
      | .checkStop =>
          some (s.setCall th (some { call with
            pc :=
              if s.stop then
                .returning .errorPoolHasStop
              else
                match call.id with
                | none => if enableWorkSteal then .tryPush 0 else .push choice enableWorkSteal
                | some q => .push q false }))
      | .tryPush k =>
          if k < 2 * n then
            if lock then
              some (s.pushed th call (index choice k) true)
            else
              some (s.setCall th (some { call with pc := .tryPush (k + 1) }))
          else
            some (s.setCall th (some { call with pc := .push choice enableWorkSteal }))
      | .push q canSteal => some (s.pushed th call q canSteal)
      | .returning e =>
          some { s.setCall th none with returned := s.returned ++ [(call.fn, e)] }

/-- The thread may begin a call: another thread, or a worker that runs a function. -/
def State.mayCall (s : State τ n) : Thread τ n → Bool
  | .external _ => true
  | .worker v =>
      match s.worker v with
      | .running _ => true
      | _ => false

inductive Label (τ : Type) (n : Nat) where
  | scheduleById (th : Thread τ n) (id : Option (Fin n)) (isNull : Bool)
  | call (th : Thread τ n) (lock : Bool) (choice : Fin n)
  | worker (v : Fin n) (lock : Bool)
  | destructor
deriving DecidableEq, Repr

def step (enableWorkSteal : Bool) (s : State τ n) : Label τ n → Option (State τ n)
  | .scheduleById th id isNull =>
      if s.mayCall th = true ∧ s.call th = none then
        some { s.setCall th (some ⟨s.next, id, .checkNull isNull⟩) with next := s.next + 1 }
      else
        none
  | .call th lock choice => callStep enableWorkSteal s th lock choice
  | .worker v lock =>
      -- a function does not end inside one of its calls
      if s.call (.worker v) = none then workerStep enableWorkSteal s v lock else none
  | .destructor => destructorStep s

/-- A pool of {lit}`n` workers with all its callers. -/
def machine (τ : Type) [DecidableEq τ] (n : Nat) (enableWorkSteal : Bool) :
    Machine (State τ n) (Label τ n) where
  step := step enableWorkSteal

/-! ## What is promised -/

/-- A call that returned {lit}`ERROR_NONE` has its function executed at most once, and
exactly once when the destructor has returned; a call that returned an error, never. -/
def Conserved (s : State τ n) : Prop :=
  ∀ fn e, (fn, e) ∈ s.returned →
    if e = .errorNone then
      s.executed.count fn ≤ 1 ∧ (s.destructor = .returned → s.executed.count fn = 1)
    else
      s.executed.count fn = 0

/-- The worker does not look into its queue any more: {lit}`pop` has found it empty and
stopped. -/
def WorkerPc.leaves : WorkerPc → Bool
  | .testStop | .exited => true
  | _ => false

/-- The queue that the next step of a call pushes into. -/
def State.pushesInto (s : State τ n) (th : Thread τ n) (lock : Bool) (choice : Fin n) :
    Option (Fin n) :=
  (s.call th).bind fun call =>
    match call.pc with
    | .tryPush k => if k < 2 * n ∧ lock = true then some (index choice k) else none
    | .push q _ => some q
    | _ => none

/-- The step does not push into the queue of a worker that has found it empty after the
stop. -/
def attended (s : State τ n) : Label τ n → Bool
  | .call th lock choice =>
      match s.pushesInto th lock choice with
      | some q => !(s.worker q).leaves
      | none => true
  | _ => true

end ThreadPool

end AsyncSimple
