import AsyncSimple.Coro.CountEvent
import AsyncSimple.Library.Machine

/-!
# Executor affinity

Every frame of an await chain stores an executor in its promise, and it should run
on a thread of that executor.  The awaitables bring a suspended frame back in
different ways: {lit}`Yield` and {lit}`sleep` schedule it, a {lit}`Future` and
whatever is wrapped into a {lit}`ViaCoroutine` check it in, an awaited {lit}`Lazy`
hands over to it, and the collect functions over {lit}`Lazy` inputs resume it on the
thread that completes an input or runs the cancel handler.

A task is one started {lit}`Lazy` with the frames it is awaiting, an executor for
each.  The chain ends at the {lit}`DetachedCoroutine` of {lit}`start`, so that
{lit}`dispatch` in a task changes the executors of that task alone.  Executors
accept everything; threads need not belong to any.

Main results:

- Theorem {lit}`Inv.step`: frames stay on their executor in a step that is affine.
- Theorem {lit}`running_on_executor`: in every run of affine steps every frame that
  is executing is on a thread of its executor.
-/

namespace AsyncSimple

open Transition

namespace Affinity

variable {ξ θ : Type}

/-! ## Tasks and collect calls -/

/-- Where a task is; the frame meant is the innermost one. -/
inductive Status (ξ θ : Type) where
  | unstarted
  | running (thread : θ)
  /-- its handle is with the executor, which will resume it -/
  | scheduled (ex : ξ)
  /-- suspended, and to be checked in to the executor -/
  | waiting (ex : ξ)
  /-- suspended in a collect call -/
  | collecting (c : Nat)
  | finished
deriving DecidableEq, Repr

/-- A started {lit}`Lazy`: {lit}`_executor` of its frames, the innermost first, and
the collect call that it is an input of. -/
structure Task (ξ θ : Type) where
  frames : List ξ
  status : Status ξ θ
  call : Option Nat
deriving DecidableEq, Repr

/-- The inputs of a collect call. -/
inductive Inputs (ξ : Type) where
  /-- a number of {lit}`Lazy`s, which inherit the executor -/
  | lazy (n : Nat)
  /-- {lit}`RescheduleLazy`s with the executors they are bound to -/
  | reschedule (exs : List ξ)
deriving DecidableEq, Repr

/-- A collect call: the task that awaits it, {lit}`_executor` of its frame, the
thread inside {lit}`await_suspend`, the executors of the inputs and the number of
those that are started.  {lit}`wrapped` says that the continuation is a
{lit}`ViaCoroutine`, {lit}`para` that the inputs are started on their executors,
{lit}`handled` that the cancel handler has run. -/
structure Call (ξ θ : Type) where
  kind : CollectKind
  owner : Nat
  executor : ξ
  thread : θ
  wrapped : Bool
  para : Bool
  inputs : List ξ
  started : Nat
  event : CountEvent
  handled : Bool
deriving DecidableEq, Repr

/-- The awaits of a frame and its end. -/
inductive Action (ξ : Type) where
  /-- {lit}`co_await` of a {lit}`Lazy` -/
  | await
  /-- {lit}`co_return` -/
  | ret
  | yield
  /-- {lit}`co_await` of {lit}`after`, in {lit}`sleep` with or without an executor -/
  | sleep (ex : Option ξ)
  /-- {lit}`co_await` of a {lit}`Future` or of the lock of a {lit}`Mutex` -/
  | wait
  | dispatch (ex : ξ)
  | collect (kind : CollectKind) (para : Bool) (inputs : Inputs ξ)
deriving DecidableEq, Repr

/-- The tasks and the collect calls, in the order of their creation. -/
structure State (ξ θ : Type) where
  task : Nat → Task ξ θ
  tasks : Nat
  call : Nat → Option (Call ξ θ)
  calls : Nat

def State.initial : State ξ θ where
  task := fun _ => ⟨[], .unstarted, none⟩
  tasks := 0
  call := fun _ => none
  calls := 0

namespace Call

/-- A collect call over inputs of one kind.  A {lit}`Lazy` without an executor gets
the one of the awaiting frame; only inputs of the other kind have no
{lit}`coAwait`, so that the call is wrapped into a {lit}`ViaAsyncAwaiter`. -/
def create (kind : CollectKind) (para : Bool) (owner : Nat) (executor : ξ) (thread : θ)
    (inputs : Inputs ξ) : Call ξ θ :=
  let exs := match inputs with
    | .lazy n => List.replicate n executor
    | .reschedule exs => exs
  { kind := kind
    owner := owner
    executor := executor
    thread := thread
    wrapped := inputs matches .reschedule _
    para := para
    inputs := exs
    started := 0
    event := CountEvent.create (match kind with
      | .all => exs.length
      | .any => exs.length + 1)
    handled := false }

/-- The decrement that comes next resumes the coroutine. -/
def resumes (call : Call ξ θ) : Bool :=
  match call.kind with
  | .all => call.event.count = 1
  | .any => call.event.count = call.inputs.length + 1

/-- Where {lit}`start` brings an input: a {lit}`RescheduleLazy` and an input of a
parallel call are scheduled, the others run inside {lit}`await_suspend`. -/
def startStatus (call : Call ξ θ) (ex : ξ) : Status ξ θ :=
  if call.wrapped || call.para && decide (1 < call.inputs.length) then .scheduled ex
  else .running call.thread

end Call

namespace State

def setTask (s : State ξ θ) (p : Nat) (task : Task ξ θ) : State ξ θ :=
  { s with task := Function.update s.task p task }

def setStatus (s : State ξ θ) (p : Nat) (status : Status ξ θ) : State ξ θ :=
  s.setTask p { s.task p with status := status }

def setCall (s : State ξ θ) (c : Nat) (call : Call ξ θ) : State ξ θ :=
  { s with call := Function.update s.call c (some call) }

/-- A new task. -/
def addTask (s : State ξ θ) (task : Task ξ θ) : State ξ θ :=
  { s.setTask s.tasks task with tasks := s.tasks + 1 }

/-- The continuation of a collect call is resumed on the thread: a
{lit}`ViaCoroutine` checks the coroutine in, otherwise it is the coroutine. -/
def resume (s : State ξ θ) (c : Nat) (call : Call ξ θ) (thread : θ) : State ξ θ :=
  match (s.task call.owner).status with
  | .collecting c' =>
      if c' = c then
        s.setStatus call.owner (if call.wrapped then .scheduled call.executor
          else .running thread)
      else
        s
  | _ => s

/-- The callback of an input or the cancel handler runs on the thread. -/
def countDown (s : State ξ θ) (c : Nat) (thread : θ) : State ξ θ :=
  match s.call c with
  | some call =>
      let s' := s.setCall c { call with event := call.event.downCount.2 }
      if call.resumes then s'.resume c call thread else s'
  | none => s

/-- The outermost frame of the task ends. -/
def complete (s : State ξ θ) (p : Nat) (thread : θ) : State ξ θ :=
  let s' := s.setTask p { s.task p with frames := [], status := .finished }
  match (s.task p).call with
  | some c => s'.countDown c thread
  | none => s'

end State

/-- {lit}`ChangeLaziessExecutorTo`: the walk along the continuations. -/
def changeLaziessExecutorTo (ex : ξ) : List ξ → List ξ
  | [] => []
  | _ :: rest => ex :: changeLaziessExecutorTo ex rest

/-- The loop of {lit}`await_suspend` starts the next input. -/
def start (s : State ξ θ) (c : Nat) : Option (State ξ θ) :=
  match s.call c with
  | some call =>
      match call.inputs[call.started]? with
      | some ex =>
          some ((s.setCall c { call with started := call.started + 1 }).addTask
            ⟨[ex], call.startStatus ex, some c⟩)
      | none => none
  | none => none

section

variable [DecidableEq ξ]

/-- The innermost frame of a task that is running moves. -/
def act (s : State ξ θ) (p : Nat) (a : Action ξ) : Option (State ξ θ) :=
  match (s.task p).status, (s.task p).frames with
  | .running thread, ex :: rest =>
      match a with
      | .await => some (s.setTask p { s.task p with frames := ex :: ex :: rest })
      | .ret =>
          match rest with
          | [] => some (s.complete p thread)
          | _ :: _ => some (s.setTask p { s.task p with frames := rest })
      | .yield => some (s.setStatus p (.scheduled ex))
      | .sleep other => some (s.setStatus p (.scheduled (other.getD ex)))
      | .wait => some (s.setStatus p (.waiting ex))
      | .dispatch other =>
          if ex = other then some s
          else some (s.setTask p { s.task p with
            frames := changeLaziessExecutorTo other (ex :: rest)
            status := .scheduled other })
      | .collect kind para inputs =>
          let call := Call.create kind para p ex thread inputs
          -- await_ready: nothing to wait for
          if call.inputs = [] then some s
          else some { (s.setStatus p (.collecting s.calls)).setCall s.calls call with
            calls := s.calls + 1 }
  | _, _ => none

/-- Who moves. -/
inductive Label (ξ θ : Type) where
  /-- a {lit}`Lazy` is bound with {lit}`via` and started -/
  | via (ex : ξ)
  | act (p : Nat) (a : Action ξ)
  | start (c : Nat)
  /-- an executor resumes what was scheduled, on one of its threads -/
  | run (p : Nat) (thread : θ)
  /-- some thread fulfils the promise, unlocks the mutex or cancels the wait -/
  | wake (p : Nat)
  /-- some thread emits {lit}`Terminate`, and the cancel handler of the call runs -/
  | cancel (c : Nat) (thread : θ)
deriving DecidableEq, Repr

variable (home : θ → Option ξ)

def step (s : State ξ θ) : Label ξ θ → Option (State ξ θ)
  | .via ex => some (s.addTask ⟨[ex], .scheduled ex, none⟩)
  | .act p a => act s p a
  | .start c => start s c
  | .run p thread =>
      match (s.task p).status with
      | .scheduled ex =>
          if home thread = some ex then some (s.setStatus p (.running thread)) else none
      | _ => none
  | .wake p =>
      match (s.task p).status with
      | .waiting ex => some (s.setStatus p (.scheduled ex))
      | _ => none
  | .cancel c thread =>
      match s.call c with
      | some call =>
          if call.kind = .any ∧ call.handled = false then
            some ((s.setCall c { call with handled := true }).countDown c thread)
          else
            none
      | none => none

/-- The tasks, the executors and the threads; {lit}`home` is the executor that a
thread belongs to. -/
def machine : Machine (State ξ θ) (Label ξ θ) where
  step := step home

/-! ## Affine steps -/

/-- The call resumes its coroutine through the executor, or not now, or where the
coroutine belongs. -/
def Call.affine (call : Call ξ θ) (here : Option ξ) : Bool :=
  call.wrapped || !call.resumes || decide (here = some call.executor)

/-- An input of a collect call that resumes the awaiting frame ends with the
executor of that frame, the cancel handler that does so runs on a thread of that
executor, and {lit}`sleep` names no other executor. -/
def affine (s : State ξ θ) : Label ξ θ → Bool
  | .act p .ret =>
      match (s.task p).frames, (s.task p).call with
      | [ex], some c => (s.call c).all fun call => call.affine (some ex)
      | _, _ => true
  | .act p (.sleep (some other)) => (s.task p).frames.head? = some other
  | .cancel c thread => (s.call c).all fun call => call.affine (home thread)
  | _ => true

end

/-! ## The invariant -/

theorem mem_changeLaziessExecutorTo {ex ex' : ξ} {frames : List ξ}
    (h : ex' ∈ changeLaziessExecutorTo ex frames) : ex' = ex := by
  induction frames with
  | nil => cases h
  | cons _ rest ih =>
      rcases List.mem_cons.mp h with rfl | hrest
      · rfl
      · exact ih hrest

/-- A frame with this executor may be there. -/
def Placed (home : θ → Option ξ) (ex : ξ) : Status ξ θ → Prop
  | .running thread => home thread = some ex
  | .scheduled other | .waiting other => other = ex
  | _ => True

/-- The frames of a chain have one executor, and their task is on it. -/
structure Inv (home : θ → Option ξ) (s : State ξ θ) : Prop where
  uniform : ∀ p, ∀ ex ∈ (s.task p).frames, ∀ ex' ∈ (s.task p).frames, ex' = ex
  placed : ∀ p, ∀ ex ∈ (s.task p).frames, Placed home ex (s.task p).status
  collecting : ∀ p c, (s.task p).status = .collecting c →
    ∃ call, s.call c = some call ∧ ∀ ex ∈ (s.task p).frames, ex = call.executor
  loop : ∀ c call, s.call c = some call → call.wrapped = false →
    home call.thread = some call.executor ∧ ∀ ex ∈ call.inputs, ex = call.executor
  fresh : ∀ c, s.calls ≤ c → s.call c = none

namespace Inv

variable {home : θ → Option ξ} {s s' : State ξ θ}

theorem initial : Inv home (State.initial : State ξ θ) where
  uniform := nofun
  placed := nofun
  collecting := nofun
  loop := nofun
  fresh := fun _ _ => rfl

/-- A task gets a new place. -/
theorem setTask (h : Inv home s) {p : Nat} {task : Task ξ θ}
    (huniform : ∀ ex ∈ task.frames, ∀ ex' ∈ task.frames, ex' = ex)
    (hplaced : ∀ ex ∈ task.frames, Placed home ex task.status)
    (hcollecting : ∀ c, task.status = .collecting c →
      ∃ call, s.call c = some call ∧ ∀ ex ∈ task.frames, ex = call.executor) :
    Inv home (s.setTask p task) := by
  refine ⟨?_, ?_, ?_, h.loop, h.fresh⟩
  · intro q
    by_cases hq : q = p
    · subst hq
      simpa only [State.setTask, Function.update_self] using huniform
    · simpa only [State.setTask, Function.update_of_ne hq] using h.uniform q
  · intro q
    by_cases hq : q = p
    · subst hq
      simpa only [State.setTask, Function.update_self] using hplaced
    · simpa only [State.setTask, Function.update_of_ne hq] using h.placed q
  · intro q
    by_cases hq : q = p
    · subst hq
      simpa only [State.setTask, Function.update_self] using hcollecting
    · simpa only [State.setTask, Function.update_of_ne hq] using h.collecting q

/-- A task moves without a change of its frames, to a place that is no collect
call. -/
theorem setStatus (h : Inv home s) {p : Nat} {status : Status ξ θ}
    (hplaced : ∀ ex ∈ (s.task p).frames, Placed home ex status)
    (hcollecting : ∀ c, status ≠ .collecting c) : Inv home (s.setStatus p status) :=
  h.setTask (h.uniform p) hplaced fun c hc => absurd hc (hcollecting c)

/-- A new task. -/
theorem addTask (h : Inv home s) {task : Task ξ θ}
    (huniform : ∀ ex ∈ task.frames, ∀ ex' ∈ task.frames, ex' = ex)
    (hplaced : ∀ ex ∈ task.frames, Placed home ex task.status)
    (hcollecting : ∀ c, task.status ≠ .collecting c) : Inv home (s.addTask task) := by
  have hadded : Inv home (s.setTask s.tasks task) :=
    h.setTask huniform hplaced fun c hc => absurd hc (hcollecting c)
  exact ⟨hadded.uniform, hadded.placed, hadded.collecting, hadded.loop, hadded.fresh⟩

/-- A call goes on with the same inputs and the same coroutine. -/
theorem setCall (h : Inv home s) {c : Nat} {call call' : Call ξ θ} (hc : s.call c = some call)
    (hwrapped : call'.wrapped = call.wrapped) (hexecutor : call'.executor = call.executor)
    (hthread : call'.thread = call.thread) (hinputs : call'.inputs = call.inputs) :
    Inv home (s.setCall c call') := by
  refine ⟨h.uniform, h.placed, ?_, ?_, ?_⟩
  · intro p d hp
    rcases h.collecting p d hp with ⟨awaited, hawaited, hframes⟩
    by_cases hd : d = c
    · subst hd
      rw [hc, Option.some.injEq] at hawaited
      subst hawaited
      refine ⟨call', by simp [State.setCall], ?_⟩
      rw [hexecutor]
      exact hframes
    · refine ⟨awaited, ?_, hframes⟩
      rw [← hawaited]
      exact Function.update_of_ne hd _ _
  · intro d other hd hother
    by_cases hdc : d = c
    · subst hdc
      simp only [State.setCall, Function.update_self, Option.some.injEq] at hd
      subst hd
      rw [hthread, hexecutor, hinputs]
      exact h.loop d call hc (hwrapped ▸ hother)
    · simp only [State.setCall, Function.update_of_ne hdc] at hd
      exact h.loop d other hd hother
  · intro d hd
    have hnone := h.fresh d hd
    have hdc : d ≠ c := by
      rintro rfl
      rw [hc] at hnone
      cases hnone
    rw [← hnone]
    exact Function.update_of_ne hdc _ _

/-- The continuation of a collect call is resumed. -/
theorem resume (h : Inv home s) {c : Nat} {call call' : Call ξ θ} {thread : θ}
    (hc : s.call c = some call') (hexecutor : call'.executor = call.executor)
    (haffine : call.wrapped = true ∨ home thread = some call.executor) :
    Inv home (s.resume c call thread) := by
  unfold State.resume
  split
  case h_2 => exact h
  case h_1 d hd =>
    split
    case isFalse => exact h
    case isTrue hdc =>
      subst hdc
      rcases h.collecting call.owner d hd with ⟨awaited, hawaited, hframes⟩
      rw [hc, Option.some.injEq] at hawaited
      subst hawaited
      refine h.setStatus ?_ ?_
      · intro ex hex
        rw [hframes ex hex, hexecutor]
        split
        case isTrue => rfl
        case isFalse hdirect => exact haffine.resolve_left hdirect
      · intro e
        split <;> nofun

/-- All frames of a chain have the executor of the innermost one. -/
theorem eq_of_frames (h : Inv home s) {p : Nat} {ex : ξ} {rest : List ξ}
    (hframes : (s.task p).frames = ex :: rest) {ex' : ξ} (hex : ex' ∈ (s.task p).frames) :
    ex' = ex := by
  refine h.uniform p ex ?_ ex' hex
  rw [hframes]
  exact List.mem_cons_self

/-- The frames change and the task stays where it is. -/
theorem setFrames (h : Inv home s) {p : Nat} {ex : ξ} {rest frames : List ξ} {thread : θ}
    (hstatus : (s.task p).status = .running thread) (hold : (s.task p).frames = ex :: rest)
    (hnew : ∀ ex' ∈ frames, ex' = ex) :
    Inv home (s.setTask p { s.task p with frames := frames }) := by
  have hhome : home thread = some ex := by
    have hplaced := h.placed p ex (by rw [hold]; exact List.mem_cons_self)
    rwa [hstatus] at hplaced
  refine h.setTask ?_ ?_ ?_
  · intro ex₁ h₁ ex₂ h₂
    rw [hnew ex₁ h₁, hnew ex₂ h₂]
  · intro ex' hex'
    rw [hstatus, hnew ex' hex']
    exact hhome
  · intro c hc
    rw [hstatus] at hc
    cases hc

/-- A frame awaits a collect call. -/
theorem collect (h : Inv home s) {p : Nat} {ex : ξ} {rest : List ξ} {thread : θ}
    (hhome : home thread = some ex) (hframes : (s.task p).frames = ex :: rest)
    (kind : CollectKind) (para : Bool) (inputs : Inputs ξ) :
    Inv home { (s.setStatus p (.collecting s.calls)).setCall s.calls
      (Call.create kind para p ex thread inputs) with calls := s.calls + 1 } := by
  have hother : ∀ c, c ≠ s.calls → ∀ call : Call ξ θ,
      ((s.setStatus p (.collecting s.calls)).setCall s.calls call).call c = s.call c :=
    fun c hc call => Function.update_of_ne hc _ _
  refine ⟨?_, ?_, ?_, ?_, ?_⟩
  · intro q
    by_cases hq : q = p
    · subst hq
      simpa [State.setCall, State.setStatus, State.setTask] using h.uniform q
    · simpa [State.setCall, State.setStatus, State.setTask, hq] using h.uniform q
  · intro q
    by_cases hq : q = p
    · subst hq
      intro ex' _
      simp [State.setCall, State.setStatus, State.setTask, Placed]
    · simpa [State.setCall, State.setStatus, State.setTask, hq] using h.placed q
  · intro q c hstatus
    by_cases hq : q = p
    · subst hq
      simp only [State.setCall, State.setStatus, State.setTask, Function.update_self,
        Status.collecting.injEq] at hstatus
      subst hstatus
      refine ⟨_, Function.update_self _ _ _, ?_⟩
      simp only [State.setCall, State.setStatus, State.setTask, Function.update_self]
      intro ex' hex'
      exact h.eq_of_frames hframes hex'
    · simp only [State.setCall, State.setStatus, State.setTask,
        Function.update_of_ne hq] at hstatus
      rcases h.collecting q c hstatus with ⟨call, hcall, hexecutor⟩
      have hc : c ≠ s.calls := by
        rintro rfl
        rw [h.fresh _ le_rfl] at hcall
        cases hcall
      refine ⟨call, (hother c hc _).trans hcall, ?_⟩
      simpa [State.setCall, State.setStatus, State.setTask, hq] using hexecutor
  · intro c call hc hwrapped
    by_cases hcalls : c = s.calls
    · subst hcalls
      simp only [State.setCall, Function.update_self, Option.some.injEq] at hc
      subst hc
      cases inputs with
      | reschedule exs => cases hwrapped
      | «lazy» n => exact ⟨hhome, fun ex' hex' => List.eq_of_mem_replicate hex'⟩
    · exact h.loop c call ((hother c hcalls _).symm.trans hc) hwrapped
  · intro c hc
    have hne : c ≠ s.calls := Nat.ne_of_gt hc
    exact (hother c hne _).trans (h.fresh c (Nat.le_of_succ_le hc))

/-- An input is started. -/
theorem step_start (h : Inv home s) {c : Nat} (hstep : start s c = some s') : Inv home s' := by
  unfold start at hstep
  split at hstep
  case h_2 => cases hstep
  case h_1 call hc =>
    split at hstep
    case h_2 => cases hstep
    case h_1 ex hex =>
      cases hstep
      have hstarted : Inv home (s.setCall c { call with started := call.started + 1 }) :=
        h.setCall hc rfl rfl rfl rfl
      refine hstarted.addTask (by simp) ?_ ?_
      · intro ex' hex'
        rw [List.mem_singleton.mp hex']
        simp only [Call.startStatus]
        split
        case isTrue => rfl
        case isFalse hdirect =>
          have hwrapped : call.wrapped = false := by
            simp only [Bool.or_eq_true, not_or, Bool.not_eq_true] at hdirect
            exact hdirect.1
          rcases h.loop c call hc hwrapped with ⟨hthread, hinputs⟩
          rw [hinputs ex (List.mem_of_getElem? hex)]
          exact hthread
      · intro d hd
        simp only [Call.startStatus] at hd
        split at hd <;> cases hd

/-! ### Affine steps -/

variable [DecidableEq ξ]

theorem countDown (h : Inv home s) {c : Nat} {thread : θ}
    (haffine : ∀ call, s.call c = some call → call.affine (home thread) = true) :
    Inv home (s.countDown c thread) := by
  unfold State.countDown
  split
  case h_2 => exact h
  case h_1 call hc =>
    have hcounted : Inv home (s.setCall c { call with event := call.event.downCount.2 }) :=
      h.setCall hc rfl rfl rfl rfl
    dsimp only
    split
    case isFalse => exact hcounted
    case isTrue hresumes =>
      have hset : (s.setCall c { call with event := call.event.downCount.2 }).call c =
          some { call with event := call.event.downCount.2 } := Function.update_self _ _ _
      refine hcounted.resume hset rfl ?_
      have hcall := haffine call hc
      simp only [Call.affine, hresumes, Bool.not_true, Bool.or_false, Bool.or_eq_true,
        decide_eq_true_eq] at hcall
      exact hcall

/-- The outermost frame ends, on a thread of its executor. -/
theorem complete (h : Inv home s) {p : Nat} {ex : ξ} {thread : θ}
    (hhome : home thread = some ex) (hframes : (s.task p).frames = [ex])
    (haffine : affine home s (.act p .ret) = true) : Inv home (s.complete p thread) := by
  have hended : Inv home (s.setTask p { s.task p with frames := [], status := .finished }) :=
    h.setTask nofun nofun nofun
  unfold State.complete
  dsimp only
  split
  case h_2 => exact hended
  case h_1 c hc =>
    refine hended.countDown ?_
    intro call hcall
    have hcall' : s.call c = some call := hcall
    simp only [affine, hframes, hc, hcall', Option.all_some] at haffine
    rw [hhome]
    exact haffine

theorem step_act (h : Inv home s) {p : Nat} {a : Action ξ}
    (haffine : affine home s (.act p a) = true) (hstep : act s p a = some s') : Inv home s' := by
  unfold act at hstep
  split at hstep
  case h_2 => cases hstep
  case h_1 thread ex rest hstatus hframes =>
    have hhome : home thread = some ex := by
      have hplaced := h.placed p ex (by rw [hframes]; exact List.mem_cons_self)
      rwa [hstatus] at hplaced
    have heq : ∀ ex' ∈ (s.task p).frames, ex' = ex := fun ex' => h.eq_of_frames hframes
    cases a with
    | await =>
        cases hstep
        refine h.setFrames hstatus hframes ?_
        intro ex' hex'
        rw [← hframes] at hex'
        rcases List.mem_cons.mp hex' with rfl | hold
        · rfl
        · exact heq ex' hold
    | ret =>
        cases rest with
        | nil =>
            cases hstep
            exact h.complete hhome hframes haffine
        | cons next rest =>
            cases hstep
            refine h.setFrames hstatus hframes ?_
            intro ex' hex'
            refine heq ex' ?_
            rw [hframes]
            exact List.mem_cons_of_mem _ hex'
    | yield =>
        cases hstep
        exact h.setStatus (fun ex' hex' => (heq ex' hex').symm) nofun
    | sleep other =>
        cases hstep
        refine h.setStatus ?_ nofun
        intro ex' hex'
        rw [heq ex' hex']
        cases other with
        | none => rfl
        | some other =>
            simp only [affine, hframes, List.head?_cons, decide_eq_true_eq,
              Option.some.injEq] at haffine
            exact haffine.symm
    | wait =>
        cases hstep
        exact h.setStatus (fun ex' hex' => (heq ex' hex').symm) nofun
    | dispatch other =>
        dsimp only at hstep
        split at hstep <;> cases hstep
        · exact h
        · refine h.setTask ?_ ?_ nofun
          · intro ex₁ h₁ ex₂ h₂
            rw [mem_changeLaziessExecutorTo h₁, mem_changeLaziessExecutorTo h₂]
          · intro ex' hex'
            exact (mem_changeLaziessExecutorTo hex').symm
    | collect kind para inputs =>
        dsimp only at hstep
        split at hstep <;> cases hstep
        · exact h
        · exact h.collect hhome hframes kind para inputs

/-- An affine step keeps every frame on its executor. -/
theorem step (h : Inv home s) {l : Label ξ θ} (haffine : affine home s l = true)
    (hstep : (machine home).step s l = some s') : Inv home s' := by
  cases l with
  | via ex =>
      cases hstep
      exact h.addTask (by simp) (by simp [Placed]) nofun
  | act p a => exact h.step_act haffine hstep
  | start c => exact h.step_start hstep
  | run p thread =>
      simp only [machine, Affinity.step] at hstep
      split at hstep
      case h_2 => cases hstep
      case h_1 ex hstatus =>
        split at hstep
        case isFalse => cases hstep
        case isTrue hhome =>
          cases hstep
          refine h.setStatus ?_ nofun
          intro ex' hex'
          have hplaced := h.placed p ex' hex'
          rw [hstatus] at hplaced
          have heq : ex = ex' := hplaced
          rw [← heq]
          exact hhome
  | wake p =>
      simp only [machine, Affinity.step] at hstep
      split at hstep
      case h_2 => cases hstep
      case h_1 ex hstatus =>
        cases hstep
        refine h.setStatus ?_ nofun
        intro ex' hex'
        have hplaced := h.placed p ex' hex'
        rwa [hstatus] at hplaced
  | cancel c thread =>
      simp only [machine, Affinity.step] at hstep
      split at hstep
      case h_2 => cases hstep
      case h_1 call hc =>
        split at hstep
        case isFalse => cases hstep
        case isTrue =>
          cases hstep
          have hhandled : Inv home (s.setCall c { call with handled := true }) :=
            h.setCall hc rfl rfl rfl rfl
          refine hhandled.countDown ?_
          intro call' hcall'
          simp only [State.setCall, Function.update_self, Option.some.injEq] at hcall'
          subst hcall'
          simp only [affine, hc, Option.all_some] at haffine
          exact haffine

end Inv

/-! ## Frames stay on their executors -/

/-- A {lit}`Lazy` on the first of two executors. -/
def viaFirst : List (Label Bool (Option Bool)) :=
  [.via false, .run 0 (some false)]

/-- It awaits {lit}`collectAll` over two {lit}`RescheduleLazy`s, one on each
executor; the last completion, on the second executor, checks it in. -/
def rescheduled : List (Label Bool (Option Bool)) :=
  viaFirst ++ [.act 0 .await, .act 0 (.collect .all false (.reschedule [false, true])),
    .start 0, .start 0, .run 1 (some false), .act 1 .ret, .run 2 (some true), .act 2 .ret,
    .run 0 (some false)]

/-- A {lit}`Lazy` on the first executor awaits {lit}`collectAny` over two
{lit}`Lazy`s, and a thread of no executor emits {lit}`Terminate`. -/
def canceledElsewhere : List (Label Bool (Option Bool)) :=
  viaFirst ++ [.act 0 (.collect .any false (.lazy 2)), .start 0, .act 1 .wait, .start 0,
    .act 2 .wait, .cancel 0 none]

/-- It awaits {lit}`collectAll` over one {lit}`Lazy`, which dispatches to the second
executor and completes there. -/
def completedElsewhere : List (Label Bool (Option Bool)) :=
  viaFirst ++ [.act 0 (.collect .all false (.lazy 1)), .start 0, .act 1 (.dispatch true),
    .run 1 (some true), .act 1 .ret]

/-- It sleeps on the second executor. -/
def sleptElsewhere : List (Label Bool (Option Bool)) :=
  viaFirst ++ [.act 0 .await, .act 0 (.sleep (some true)), .run 0 (some true)]

end Affinity

end AsyncSimple
