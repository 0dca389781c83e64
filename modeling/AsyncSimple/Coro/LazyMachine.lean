import AsyncSimple.Coro.CollectAll
import AsyncSimple.Coro.LazyProgram
import AsyncSimple.Library.Heap
import AsyncSimple.Library.Machine

/-!
# Frames and queues of Lazy

This module embeds how a {lit}`Lazy` runs.  Coroutine frames live in a heap and refer to each
other by handles: the promise of a {lit}`Lazy` has the {lit}`_continuation` to transfer to at the
end, the {lit}`_executor` and the {lit}`_value`.  A {lit}`Lazy` that awaits another one makes
itself the continuation of the callee and transfers to it; the final awaiter of the callee
transfers back; and the awaiter then reads the result and destroys the frame of the callee.  The
first {lit}`Lazy` of a chain is awaited by the detached coroutine of {lit}`start`, which calls the
callback and destroys itself.

An access to a frame that is gone, the resume of a coroutine that is not suspended, the
destruction of one that has not ended and the read of a result that is not there leave the mark
{lit}`fault`.

A coroutine that runs is on some thread, and a handle in the queue of an executor may be taken by
any thread of the executor at any time, so that the labels of the machine are the frames that run,
the queued handles, and the calls of {lit}`collectAll` with their tasks.
-/

namespace AsyncSimple

open Transition Storage

namespace Lazy

variable {ε α ω ξ : Type}

/-- Address of a coroutine frame. -/
abbrev Handle := Nat

/-! ## Frames -/

/-- {lit}`LazyPromise`.  {lit}`root` is no member of it: it says which chain of coroutines the
frame belongs to and is not read by any step but {lit}`emit`. -/
structure Promise (ε α ξ : Type) where
  root : Handle
  continuation : Option Handle
  executor : Option ξ
  value : Try ε α

/-- Where the coroutine of a {lit}`Lazy` is. -/
inductive Point (ε α ω ξ : Type) where
  /-- suspended at the start, by a yield or by a dispatch -/
  | suspended (body : Body ε α ω ξ)
  | running (body : Body ε α ω ξ)
  /-- suspended in {lit}`co_await` of another {lit}`Lazy` -/
  | awaiting (callee : Handle) (rest : Try ε α → Body ε α ω ξ)
  /-- in {lit}`await_resume` of that -/
  | resumed (callee : Handle) (rest : Try ε α → Body ε α ω ξ)
  /-- suspended in {lit}`co_await` of {lit}`collectAll` -/
  | collecting (call : Nat) (rest : List (Try ε α) → Body ε α ω ξ)
  /-- in {lit}`await_resume` of that -/
  | collected (call : Nat) (rest : List (Try ε α) → Body ε α ω ξ)
  /-- before {lit}`final_suspend` -/
  | returned
  | done

/-- Where the detached coroutine of {lit}`start` is. -/
inductive DetachedPoint (ε α : Type) where
  /-- suspended in {lit}`co_await lazy.coAwaitTry()` -/
  | awaiting (callee : Handle)
  | resumed (callee : Handle)
  | calling (result : Try ε α)
  | inCallback
  /-- the callback has returned -/
  | leaving

inductive Frame (ε α ω ξ : Type) where
  | lazy (promise : Promise ε α ξ) (point : Point ε α ω ξ)
  | detached (root : Handle) (callback : Callback) (point : DetachedPoint ε α)

/-- The chain that the frame belongs to. -/
def Frame.root : Frame ε α ω ξ → Handle
  | .lazy promise _ => promise.root
  | .detached root _ _ => root

/-- {lit}`handle.resume()`; {lit}`none` when the coroutine is not suspended. -/
def Frame.resume : Frame ε α ω ξ → Option (Frame ε α ω ξ)
  | .lazy p (.suspended body) => some (.lazy p (.running body))
  | .lazy p (.awaiting callee rest) => some (.lazy p (.resumed callee rest))
  | .lazy p (.collecting call rest) => some (.lazy p (.collected call rest))
  | .detached root callback (.awaiting callee) => some (.detached root callback (.resumed callee))
  | _ => none

/-- A call of {lit}`collectAll`: the awaiter, the tasks and the coroutine that awaits them with its
executor. -/
structure Call (ε α ξ : Type) where
  n : Nat
  config : CollectAll.Config n ε (fun _ => α)
  state : CollectAll.State n ε (fun _ => α)
  input : Fin n → Handle
  launch : Fin n → Launch ξ
  continuation : Handle
  executor : Option ξ

/-- {lit}`CollectAllAwaiter` when {lit}`await_suspend` is called. -/
def Call.create (para : Bool) {n : Nat} (input : Fin n → Handle) (launch : Fin n → Launch ξ)
    (continuation : Handle) (executor : Option ξ) : Call ε α ξ :=
  let config : CollectAll.Config n ε (fun _ => α) :=
    { para := para, signalType := 0, executor := executor.isSome,
      taskExecutor := fun i => (launch i).executor.isSome, outcome := fun _ => .nothing }
  { n := n, config := config, state := CollectAll.State.initial config, input := input,
    launch := launch, continuation := continuation, executor := executor }

/-- The frames, the awaiters of {lit}`collectAll`, the handles in the queues of the executors, the
effects so far with the chains that had them, the chains that were started and the calls of their
callbacks. -/
structure State (ε α ω ξ : Type) where
  heap : Heap (Frame ε α ω ξ)
  calls : Heap (Call ε α ξ)
  scheduled : List (ξ × Handle)
  events : List (Handle × ω)
  starts : List (Handle × Body ε α ω ξ × Launch ξ)
  callbacks : List (Handle × Try ε α)
  fault : Bool

namespace State

def initial : State ε α ω ξ where
  heap := Heap.empty
  calls := Heap.empty
  scheduled := []
  events := []
  starts := []
  callbacks := []
  fault := false

def fail (s : State ε α ω ξ) : State ε α ω ξ :=
  { s with fault := true }

def setFrame (s : State ε α ω ξ) (h : Handle) (frame : Frame ε α ω ξ) : State ε α ω ξ :=
  { s with heap := s.heap.set h frame }

def setPoint (s : State ε α ω ξ) (h : Handle) (p : Promise ε α ξ) (point : Point ε α ω ξ) :
    State ε α ω ξ :=
  s.setFrame h (.lazy p point)

def setCall (s : State ε α ω ξ) (c : Nat) (call : Call ε α ξ) : State ε α ω ξ :=
  { s with calls := s.calls.set c call }

/-- {lit}`executor->schedule(handle)`. -/
def schedule (s : State ε α ω ξ) (ex : ξ) (h : Handle) : State ε α ω ξ :=
  { s with scheduled := s.scheduled ++ [(ex, h)] }

def resume (s : State ε α ω ξ) (h : Handle) : State ε α ω ξ :=
  match (s.heap.cell h).bind Frame.resume with
  | some frame => s.setFrame h frame
  | none => s.fail

/-- The result in the promise of a coroutine that has ended. -/
def result? (s : State ε α ω ξ) (h : Handle) : Option (Try ε α) :=
  match s.heap.cell h with
  | some (.lazy p .done) => if p.value matches .nothing then none else some p.value
  | _ => none

/-- The awaiter reads the result of the callee and destroys its frame. -/
def awaitResume (s : State ε α ω ξ) (callee : Handle)
    (go : Try ε α → State ε α ω ξ → State ε α ω ξ) : State ε α ω ξ :=
  match s.result? callee with
  | some result => go result { s with heap := s.heap.free callee }
  | none => s.fail

/-- {lit}`LazyBase::start`: the detached coroutine begins to await the {lit}`Lazy`. -/
def startLazy (s : State ε α ω ξ) (h : Handle) (callback : Callback) (launch : Launch ξ) :
    State ε α ω ξ :=
  match s.heap.cell h with
  | some (.lazy p (.suspended body)) =>
      let detached := s.heap.next
      let p' := { p with continuation := some detached }
      let s' := { s with heap := s.heap.alloc (.detached p.root callback (.awaiting h)) }
      match launch, p.executor with
      | .direct _, _ => s'.setPoint h p' (.running body)
      | .reschedule _, some ex => (s'.setPoint h p' (.suspended body)).schedule ex h
      | .reschedule _, none => s.fail
  | _ => s.fail

end State

/-- {lit}`ChangeLaziessExecutorTo`: follows the continuations to the detached coroutine, whose own
continuation is null, and sets the executor on the way; {lit}`none` when it meets a frame that is
gone or runs out of fuel. -/
def changeLaziessExecutorTo : Nat → Heap (Frame ε α ω ξ) → Handle → ξ →
    Option (Heap (Frame ε α ω ξ))
  | 0, _, _, _ => none
  | fuel + 1, heap, h, ex =>
      match heap.cell h with
      | none => none
      | some (.detached _ _ _) => some heap
      | some (.lazy p point) =>
          match p.continuation with
          | none => some heap
          | some continuation =>
              changeLaziessExecutorTo fuel
                (heap.set h (.lazy { p with executor := some ex } point)) continuation ex

/-! ## Steps of a coroutine -/

section

variable [DecidableEq ξ] (noExecutor : ε)

/-- The coroutine is suspended.  The awaiter of {lit}`collectAll` and the frames of the tasks are
there. -/
def suspendInCollectAll (s : State ε α ω ξ) (h : Handle) (p : Promise ε α ξ) (para : Bool) {n : Nat}
    (tasks : Fin n → Body ε α ω ξ) (launch : Fin n → Launch ξ)
    (rest : List (Try ε α) → Body ε α ω ξ) : State ε α ω ξ :=
  let input : Fin n → Handle := fun i => s.heap.next + i
  let frames : Fin n → Frame ε α ω ξ := fun i =>
    .lazy ⟨input i, none, (launch i).executor, .nothing⟩ (.suspended (tasks i))
  { s with
    heap := (s.heap.allocFamily frames).set h (.lazy p (.collecting s.calls.next rest))
    calls := s.calls.alloc (.create para input launch h p.executor) }

/-- The coroutine runs up to the next point where others can see it. -/
def runBody (s : State ε α ω ξ) (h : Handle) (p : Promise ε α ξ) : Body ε α ω ξ → State ε α ω ξ
  | .coReturn v => s.setPoint h { p with value := .value v } .returned
  | .throw e => s.setPoint h { p with value := .error e } .returned
  | .emit event rest =>
      { s.setPoint h p (.running rest) with events := s.events ++ [(p.root, event)] }
  | .currentExecutor rest => s.setPoint h p (.running (rest p.executor))
  | .yield rest =>
      match p.executor with
      | some ex => (s.setPoint h p (.suspended (rest none))).schedule ex h
      | none => s.setPoint h p (.running (rest (some noExecutor)))
  | .dispatch ex rest =>
      if p.executor = some ex then
        s.setPoint h p (.running rest)
      else
        match changeLaziessExecutorTo (s.heap.next + 1)
            (s.heap.set h (.lazy p (.suspended rest))) h ex with
        | some heap => { s with heap := heap }.schedule ex h
        | none => s.fail
  | .await callee rest =>
      -- the new frame inherits the executor and is resumed by symmetric transfer
      let frame : Frame ε α ω ξ := .lazy ⟨p.root, some h, p.executor, .nothing⟩ (.running callee)
      { s with heap := s.heap.alloc frame }.setPoint h p (.awaiting s.heap.next rest)
  | .collectAll para n tasks launch rest =>
      if n = 0 then s.setPoint h p (.running (rest []))
      else suspendInCollectAll s h p para tasks launch rest

/-- One step of a task of {lit}`collectAll` in its callback, which runs in the detached
coroutine. -/
def callbackStep (s : State ε α ω ξ) (h : Handle) (root : Handle) (c i : Nat) : State ε α ω ξ :=
  match s.calls.cell c with
  | none => s.fail
  | some call =>
      if hi : i < call.n then
        match call.state.task ⟨i, hi⟩ with
        | .finished _ => s.setFrame h (.detached root (.task c i) .leaving)
        | _ =>
            match CollectAll.taskStep call.config call.state ⟨i, hi⟩ with
            | none => s.fail
            | some state =>
                let s' := s.setCall c { call with state := state }
                if state.resumes = call.state.resumes then s' else s'.resume call.continuation
      else s.fail

/-- The callback of a task gets the result. -/
def deliver (s : State ε α ω ξ) (h : Handle) (root : Handle) (c i : Nat) (result : Try ε α) :
    State ε α ω ξ :=
  match s.calls.cell c with
  | none => s.fail
  | some call =>
      if hi : i < call.n then
        if call.state.task ⟨i, hi⟩ = .running then
          (s.setCall c { call with
            config := { call.config with
              outcome := Function.update call.config.outcome ⟨i, hi⟩ result }
            state := call.state.setTask ⟨i, hi⟩ .store }).setFrame h
              (.detached root (.task c i) .inCallback)
        else s.fail
      else s.fail

/-- One step of a coroutine that is not suspended. -/
def frameStep (s : State ε α ω ξ) (h : Handle) : Option (State ε α ω ξ) :=
  match s.heap.cell h with
  | none => none
  | some (.lazy p point) =>
      match point with
      | .running body => some (runBody noExecutor s h p body)
      | .resumed callee rest =>
          some (s.awaitResume callee fun result s' => s'.setPoint h p (.running (rest result)))
      | .collected c rest =>
          match (s.calls.cell c).bind fun call => call.state.result.map List.ofFn with
          | some results => some (s.setPoint h p (.running (rest results)))
          | none => some s.fail
      | .returned =>
          match p.continuation with
          | some continuation => some ((s.setPoint h p .done).resume continuation)
          | none => some s.fail
      | .suspended _ | .awaiting _ _ | .collecting _ _ | .done => none
  | some (.detached root callback point) =>
      match point with
      | .awaiting _ => none
      | .resumed callee =>
          some (s.awaitResume callee fun result s' =>
            s'.setFrame h (.detached root callback (.calling result)))
      | .calling result =>
          match callback with
          | .user => some { s.setFrame h (.detached root callback .leaving) with
              callbacks := s.callbacks ++ [(root, result)] }
          | .task c i => some (deliver s h root c i result)
      | .inCallback =>
          match callback with
          | .user => some s.fail
          | .task c i => some (callbackStep s h root c i)
      | .leaving => some { s with heap := s.heap.free h }

/-! ## Steps of the others -/

/-- One step of {lit}`await_suspend` of {lit}`collectAll`, which goes on while the tasks run. -/
def awaitSuspendStep (s : State ε α ω ξ) (c : Nat) : Option (State ε α ω ξ) :=
  match s.calls.cell c with
  | none => none
  | some call =>
      match CollectAll.mainStep call.config call.state with
      | none => none
      | some state =>
          let s' := s.setCall c { call with state := state }
          match call.state.main with
          | .loop i =>
              if hi : i < call.n then
                match s.heap.cell (call.input ⟨i, hi⟩) with
                | some (.lazy p point) =>
                    some (s'.setPoint (call.input ⟨i, hi⟩)
                      { p with executor := p.executor.or call.executor } point)
                | _ => some s.fail
              else some s'
          | .launch i =>
              if state.task i = .running then
                some (s'.startLazy (call.input i) (.task c i) (call.launch i))
              else some s'
          | _ => some s'

/-- An executor runs the function that {lit}`collectAllPara` has scheduled for a task. -/
def runTask (s : State ε α ω ξ) (c i : Nat) : Option (State ε α ω ξ) :=
  match s.calls.cell c with
  | none => none
  | some call =>
      if hi : i < call.n then
        if call.state.task ⟨i, hi⟩ = .scheduled then
          (CollectAll.taskStep call.config call.state ⟨i, hi⟩).map fun state =>
            (s.setCall c { call with state := state }).startLazy (call.input ⟨i, hi⟩) (.task c i)
              (call.launch ⟨i, hi⟩)
        else none
      else none

/-- A call of {lit}`start`, {lit}`directlyStart` or {lit}`via(ex).start`. -/
def start (s : State ε α ω ξ) (body : Body ε α ω ξ) (launch : Launch ξ) : State ε α ω ξ :=
  State.startLazy { s with
    heap := s.heap.alloc
      (.lazy ⟨s.heap.next, none, launch.executor, .nothing⟩ (.suspended body))
    starts := s.starts ++ [(s.heap.next, body, launch)] } s.heap.next .user launch

/-- Who moves. -/
inductive Label (ε α ω ξ : Type) where
  | start (body : Body ε α ω ξ) (launch : Launch ξ)
  | frame (h : Handle)
  | execute (ex : ξ) (h : Handle)
  | awaitSuspend (c : Nat)
  | runTask (c i : Nat)

def step (s : State ε α ω ξ) : Label ε α ω ξ → Option (State ε α ω ξ)
  | .start body launch => some (start s body launch)
  | .frame h => frameStep noExecutor s h
  | .execute ex h =>
      if (ex, h) ∈ s.scheduled then
        some ({ s with scheduled := s.scheduled.erase (ex, h) }.resume h)
      else none
  | .awaitSuspend c => awaitSuspendStep s c
  | .runTask c i => runTask s c i

/-- The coroutines of a process. -/
def machine : Machine (State ε α ω ξ) (Label ε α ω ξ) where
  step := step noExecutor

end

end Lazy

end AsyncSimple
