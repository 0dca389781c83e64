import Mathlib.Algebra.BigOperators.Fin
import AsyncSimple.Future.SharedState

/-!
# What a Lazy computes

The body of a coroutine that returns {lit}`Lazy` is a tree: at each node it returns, throws, does
something visible or awaits, and what it does after an await depends on what it gets there.
{lit}`denote` says what a body computes, without frames, threads or queues.  Awaiting another
{lit}`Lazy` is calling it; {lit}`collectAll` is a list of calls; and the executor is one variable
that the callee inherits and that {lit}`dispatch` sets for the callers too.

A chain of coroutines that await each other works like a stack machine.  {lit}`Strand` is that
machine: the coroutine at work, the continuations of those that wait for it, and their executor.

Main results:

- Theorem {lit}`Strand.promises_next`: a step of a strand keeps what it will end with, but for the
  event that the step emits.
- Theorem {lit}`Strand.work_next`: a step of a strand decreases its work.
-/

namespace AsyncSimple

namespace Lazy

/-! ## Bodies -/

/-- How a {lit}`Lazy` is started: on the spot with the executor that is bound to it, if any, or as
the {lit}`RescheduleLazy` that {lit}`via` returns. -/
inductive Launch (ξ : Type) where
  | direct (executor : Option ξ)
  | reschedule (executor : ξ)
deriving DecidableEq, Repr

namespace Launch

variable {ξ : Type}

def executor : Launch ξ → Option ξ
  | .direct ex => ex
  | .reschedule ex => some ex

/-- The executor of a task of {lit}`collectAll`. -/
def inherit (launch : Launch ξ) (ex : Option ξ) : Option ξ :=
  launch.executor.or ex

end Launch

/-- The body of a coroutine.  All values are of type {lit}`α`, exceptions of type {lit}`ε`,
visible effects of type {lit}`ω` and executors of type {lit}`ξ`.  {lit}`rest` is the body after
the {lit}`co_await` and depends on its value or exception. -/
inductive Body (ε α ω ξ : Type) where
  | coReturn (v : α)
  | throw (e : ε)
  /-- an effect that others can see -/
  | emit (event : ω) (rest : Body ε α ω ξ)
  /-- {lit}`co_await CurrentExecutor` -/
  | currentExecutor (rest : Option ξ → Body ε α ω ξ)
  /-- {lit}`co_await Yield` -/
  | yield (rest : Option ε → Body ε α ω ξ)
  /-- {lit}`co_await dispatch(ex)` -/
  | dispatch (ex : ξ) (rest : Body ε α ω ξ)
  /-- {lit}`co_await callee()` or {lit}`co_await callee().coAwaitTry()` -/
  | await (callee : Body ε α ω ξ) (rest : Try ε α → Body ε α ω ξ)
  /-- {lit}`co_await collectAll(tasks)`, or {lit}`collectAllPara` -/
  | collectAll (para : Bool) (n : Nat) (tasks : Fin n → Body ε α ω ξ) (launch : Fin n → Launch ξ)
      (rest : List (Try ε α) → Body ε α ω ξ)

variable {ε α ω ξ : Type}

/-- What a body comes to: the value or exception, the executor at its end and its effects in
order. -/
structure Outcome (ε α ω ξ : Type) where
  result : Try ε α
  executor : Option ξ
  events : List ω
deriving DecidableEq, Repr

namespace Outcome

/-- The effects before it are added. -/
def after (o : Outcome ε α ω ξ) (events : List ω) : Outcome ε α ω ξ :=
  { o with events := events ++ o.events }

@[simp]
theorem after_result (o : Outcome ε α ω ξ) (events : List ω) :
    (o.after events).result = o.result :=
  rfl

@[simp]
theorem after_executor (o : Outcome ε α ω ξ) (events : List ω) :
    (o.after events).executor = o.executor :=
  rfl

@[simp]
theorem after_events (o : Outcome ε α ω ξ) (events : List ω) :
    (o.after events).events = events ++ o.events :=
  rfl

@[simp]
theorem after_nil (o : Outcome ε α ω ξ) : o.after [] = o :=
  rfl

theorem after_after (o : Outcome ε α ω ξ) (first second : List ω) :
    (o.after second).after first = o.after (first ++ second) := by
  simp only [after, List.append_assoc]

end Outcome

section

variable (noExecutor : ε)

/-- The meaning of a body that starts with the given executor.  {lit}`noExecutor` is the exception
of a yield without one. -/
def denote : Body ε α ω ξ → Option ξ → Outcome ε α ω ξ
  | .coReturn v, ex => ⟨.value v, ex, []⟩
  | .throw e, ex => ⟨.error e, ex, []⟩
  | .emit event rest, ex => (denote rest ex).after [event]
  | .currentExecutor rest, ex => denote (rest ex) ex
  | .yield rest, ex => denote (rest (if ex.isSome then none else some noExecutor)) ex
  | .dispatch ex' rest, _ => denote rest (some ex')
  | .await callee rest, ex =>
      (denote (rest (denote callee ex).result) (denote callee ex).executor).after
        (denote callee ex).events
  | .collectAll _ _ tasks launch rest, ex =>
      denote (rest (List.ofFn fun i => (denote (tasks i) ((launch i).inherit ex)).result)) ex

/-- Steps that a coroutine with this body and its callees take until it has a result. -/
def cost : Body ε α ω ξ → Option ξ → Nat
  | .coReturn _, _ => 1
  | .throw _, _ => 1
  | .emit _ rest, ex => cost rest ex + 1
  | .currentExecutor rest, ex => cost (rest ex) ex + 1
  | .yield rest, ex => cost (rest (if ex.isSome then none else some noExecutor)) ex + 2
  | .dispatch ex' rest, _ => cost rest (some ex') + 2
  | .await callee rest, ex =>
      cost callee ex +
        cost (rest (denote noExecutor callee ex).result) (denote noExecutor callee ex).executor + 3
  | .collectAll _ n tasks launch rest, ex =>
      cost (rest (List.ofFn fun i =>
          (denote noExecutor (tasks i) ((launch i).inherit ex)).result)) ex +
        ∑ i, (cost (tasks i) ((launch i).inherit ex) + 6) + (11 * n + 3) + 2

/-! ## Chains as stack machines -/

/-- The coroutines of a stack go on one after the other: the first one with the result, the next
one with the result of the first. -/
def unwind : List (Try ε α → Body ε α ω ξ) → Try ε α → Option ξ → Outcome ε α ω ξ
  | [], result, ex => ⟨result, ex, []⟩
  | rest :: stack, result, ex =>
      (unwind stack (denote noExecutor (rest result) ex).result
        (denote noExecutor (rest result) ex).executor).after
          (denote noExecutor (rest result) ex).events

/-- A body at work on top of a stack. -/
def eval (stack : List (Try ε α → Body ε α ω ξ)) (body : Body ε α ω ξ) (ex : Option ξ) :
    Outcome ε α ω ξ :=
  (unwind noExecutor stack (denote noExecutor body ex).result
    (denote noExecutor body ex).executor).after (denote noExecutor body ex).events

/-- Steps that are left when the stack gets a result. -/
def unwindWork : List (Try ε α → Body ε α ω ξ) → Try ε α → Option ξ → Nat
  | [], _, _ => 4
  | rest :: stack, result, ex =>
      cost noExecutor (rest result) ex + 2 +
        unwindWork stack (denote noExecutor (rest result) ex).result
          (denote noExecutor (rest result) ex).executor

/-- Steps that are left when a body is at work on top of a stack. -/
def evalWork (stack : List (Try ε α → Body ε α ω ξ)) (body : Body ε α ω ξ) (ex : Option ξ) : Nat :=
  cost noExecutor body ex + 1 +
    unwindWork noExecutor stack (denote noExecutor body ex).result
      (denote noExecutor body ex).executor

end

/-- Who gets the result: the callback of {lit}`start`, or a task of a call of
{lit}`collectAll`. -/
inductive Callback where
  | user
  | task (call i : Nat)
deriving DecidableEq, Repr

/-- What a chain of coroutines is at. -/
inductive Focus (ε α ω ξ : Type) where
  /-- a task that {lit}`collectAll` has not started yet, with the executor in its promise -/
  | unstarted (body : Body ε α ω ξ) (bound : Option ξ)
  /-- in the queue of the executor -/
  | suspended (body : Body ε α ω ξ)
  | running (body : Body ε α ω ξ)
  | collecting (call : Nat) (rest : List (Try ε α) → Body ε α ω ξ)
  /-- resumed by the last task of the call -/
  | collected (call : Nat) (rest : List (Try ε α) → Body ε α ω ξ)
  | returned (result : Try ε α)
  /-- the coroutine that awaits is resumed and has not read the result yet -/
  | resumed (result : Try ε α)
  | calling (result : Try ε α)
  | inCallback
  | leaving

/-- A chain of coroutines: those that wait are given by what they do with the result.  A task that
has not started yet has the executor that it will be started with. -/
structure Strand (ε α ω ξ : Type) where
  focus : Focus ε α ω ξ
  stack : List (Try ε α → Body ε α ω ξ)
  executor : Option ξ
  callback : Callback

namespace Strand

section

variable (noExecutor : ε)

/-- The strand will end with this outcome, where {lit}`results` are the results of the calls of
{lit}`collectAll`.  When the callback is called the result has been handed over. -/
def Promises (results : Nat → List (Try ε α)) (st : Strand ε α ω ξ) (o : Outcome ε α ω ξ) : Prop :=
  match st.focus with
  | .unstarted body _ | .suspended body | .running body =>
      o = eval noExecutor st.stack body st.executor
  | .collecting call rest | .collected call rest =>
      o = eval noExecutor st.stack (rest (results call)) st.executor
  | .returned result | .resumed result | .calling result =>
      o = unwind noExecutor st.stack result st.executor
  | .inCallback | .leaving => o.events = []

/-- Steps that the strand has left, not counting those of the callback. -/
def work (results : Nat → List (Try ε α)) (st : Strand ε α ω ξ) : Nat :=
  match st.focus with
  | .unstarted body _ | .suspended body => evalWork noExecutor st.stack body st.executor + 1
  | .running body => evalWork noExecutor st.stack body st.executor
  | .collecting call rest | .collected call rest =>
      evalWork noExecutor st.stack (rest (results call)) st.executor + 1
  | .returned result => unwindWork noExecutor st.stack result st.executor + 1
  | .resumed result => unwindWork noExecutor st.stack result st.executor
  | .calling _ => 3
  | .inCallback => 2
  | .leaving => 1

variable [DecidableEq ξ]

/-- The next step of a strand that does not wait for tasks, with the event that it emits. -/
def next (st : Strand ε α ω ξ) : Option (Strand ε α ω ξ × List ω) :=
  match st.focus with
  | .suspended body => some ({ st with focus := .running body }, [])
  | .running (.coReturn v) => some ({ st with focus := .returned (.value v) }, [])
  | .running (.throw e) => some ({ st with focus := .returned (.error e) }, [])
  | .running (.emit event rest) => some ({ st with focus := .running rest }, [event])
  | .running (.currentExecutor rest) =>
      some ({ st with focus := .running (rest st.executor) }, [])
  | .running (.yield rest) =>
      if st.executor.isSome then some ({ st with focus := .suspended (rest none) }, [])
      else some ({ st with focus := .running (rest (some noExecutor)) }, [])
  | .running (.dispatch ex rest) =>
      if st.executor = some ex then some ({ st with focus := .running rest }, [])
      else some ({ st with focus := .suspended rest, executor := some ex }, [])
  | .running (.await callee rest) =>
      some ({ st with focus := .running callee, stack := rest :: st.stack }, [])
  | .running (.collectAll _ n _ _ rest) =>
      if n = 0 then some ({ st with focus := .running (rest []) }, []) else none
  | .returned result => some ({ st with focus := .resumed result }, [])
  | .resumed result =>
      match st.stack with
      | [] => some ({ st with focus := .calling result }, [])
      | rest :: stack => some ({ st with focus := .running (rest result), stack := stack }, [])
  | .unstarted _ _ | .collecting _ _ | .collected _ _ | .calling _ | .inCallback | .leaving => none

end

/-! ## Steps of a strand -/

section

variable {noExecutor : ε} {results : Nat → List (Try ε α)} {st st' : Strand ε α ω ξ}
variable {events : List ω} {o : Outcome ε α ω ξ}

theorem denote_emit (event : ω) (rest : Body ε α ω ξ) (ex : Option ξ) :
    denote noExecutor (.emit event rest) ex = (denote noExecutor rest ex).after [event] :=
  rfl

theorem denote_await (callee : Body ε α ω ξ) (rest : Try ε α → Body ε α ω ξ) (ex : Option ξ) :
    denote noExecutor (.await callee rest) ex =
      (denote noExecutor (rest (denote noExecutor callee ex).result)
        (denote noExecutor callee ex).executor).after (denote noExecutor callee ex).events :=
  rfl

theorem cost_await (callee : Body ε α ω ξ) (rest : Try ε α → Body ε α ω ξ) (ex : Option ξ) :
    cost noExecutor (.await callee rest) ex =
      cost noExecutor callee ex +
        cost noExecutor (rest (denote noExecutor callee ex).result)
          (denote noExecutor callee ex).executor + 3 :=
  rfl

theorem unwind_cons (rest : Try ε α → Body ε α ω ξ) (stack : List (Try ε α → Body ε α ω ξ))
    (result : Try ε α) (ex : Option ξ) :
    unwind noExecutor (rest :: stack) result ex = eval noExecutor stack (rest result) ex :=
  rfl

theorem unwindWork_cons (rest : Try ε α → Body ε α ω ξ) (stack : List (Try ε α → Body ε α ω ξ))
    (result : Try ε α) (ex : Option ξ) :
    unwindWork noExecutor (rest :: stack) result ex =
      evalWork noExecutor stack (rest result) ex + 1 := by
  rw [evalWork, Nat.add_right_comm]
  rfl

theorem eval_emit (stack : List (Try ε α → Body ε α ω ξ)) (event : ω) (rest : Body ε α ω ξ)
    (ex : Option ξ) :
    eval noExecutor stack (.emit event rest) ex =
      (eval noExecutor stack rest ex).after [event] := by
  simp only [eval, denote_emit, Outcome.after_result, Outcome.after_executor,
    Outcome.after_events, Outcome.after_after]

/-- Awaiting a coroutine is working on it with the rest of the body on the stack. -/
theorem eval_await (stack : List (Try ε α → Body ε α ω ξ)) (callee : Body ε α ω ξ)
    (rest : Try ε α → Body ε α ω ξ) (ex : Option ξ) :
    eval noExecutor stack (.await callee rest) ex =
      eval noExecutor (rest :: stack) callee ex := by
  simp only [unwind_cons, eval, denote_await, Outcome.after_result, Outcome.after_executor,
    Outcome.after_events, Outcome.after_after]

theorem evalWork_await (stack : List (Try ε α → Body ε α ω ξ)) (callee : Body ε α ω ξ)
    (rest : Try ε α → Body ε α ω ξ) (ex : Option ξ) :
    evalWork noExecutor (rest :: stack) callee ex + 1 =
      evalWork noExecutor stack (.await callee rest) ex := by
  simp only [unwindWork_cons, evalWork, cost_await, denote_await, Outcome.after_result,
    Outcome.after_executor]
  omega

variable [DecidableEq ξ]

/-- What a strand will end with is not changed by its steps, but for the event that was emitted. -/
theorem promises_next (hstep : st.next noExecutor = some (st', events))
    (h : st.Promises noExecutor results o) :
    ∃ o', st'.Promises noExecutor results o' ∧ o = o'.after events := by
  rcases st with ⟨focus, stack, executor, callback⟩
  cases focus with
  | running body =>
      cases body with
      | coReturn v => cases hstep; cases h; exact ⟨_, rfl, rfl⟩
      | throw e => cases hstep; cases h; exact ⟨_, rfl, rfl⟩
      | emit event rest => cases hstep; cases h; exact ⟨_, rfl, eval_emit stack event rest executor⟩
      | currentExecutor rest => cases hstep; cases h; exact ⟨_, rfl, rfl⟩
      | yield rest =>
          cases executor <;> cases hstep <;> cases h <;> exact ⟨_, rfl, rfl⟩
      | dispatch ex rest =>
          cases h
          simp only [next] at hstep
          split at hstep
          case isTrue hsame =>
            cases hstep
            subst hsame
            exact ⟨_, rfl, rfl⟩
          case isFalse =>
            cases hstep
            exact ⟨_, rfl, rfl⟩
      | await callee rest =>
          cases hstep
          cases h
          exact ⟨_, rfl, eval_await stack callee rest executor⟩
      | collectAll para n tasks launch rest =>
          simp only [next] at hstep
          split at hstep
          case isTrue hn =>
            subst hn
            cases hstep
            cases h
            exact ⟨_, rfl, rfl⟩
          case isFalse => cases hstep
  | suspended body => cases hstep; cases h; exact ⟨_, rfl, rfl⟩
  | returned result => cases hstep; cases h; exact ⟨_, rfl, rfl⟩
  | resumed result => cases stack <;> cases hstep <;> cases h <;> exact ⟨_, rfl, rfl⟩
  | unstarted | collecting | collected | calling | inCallback | leaving => cases hstep

/-- Every step brings a strand nearer to its end. -/
theorem work_next (hstep : st.next noExecutor = some (st', events)) :
    st'.work noExecutor results < st.work noExecutor results := by
  rcases st with ⟨focus, stack, executor, callback⟩
  cases focus with
  | running body =>
      cases body with
      | coReturn | throw =>
          cases hstep
          simp only [work, evalWork, cost, denote]
          omega
      | emit | currentExecutor => cases hstep; simp [work, evalWork, cost, denote]
      | yield rest =>
          cases executor with
          | none => cases hstep; simp [work, evalWork, cost, denote]
          | some ex =>
              cases hstep
              simp [work, evalWork, cost, denote]
              omega
      | dispatch ex rest =>
          simp only [next] at hstep
          split at hstep
          case isTrue hsame =>
            cases hstep
            subst hsame
            simp [work, evalWork, cost, denote]
          case isFalse =>
            cases hstep
            simp only [work, evalWork, cost, denote]
            omega
      | await callee rest =>
          cases hstep
          have hawait : evalWork noExecutor (rest :: stack) callee executor + 1 =
              evalWork noExecutor stack (.await callee rest) executor := evalWork_await ..
          simp only [work]
          omega
      | collectAll para n tasks launch rest =>
          simp only [next] at hstep
          split at hstep
          case isTrue hn =>
            subst hn
            cases hstep
            simp [work, evalWork, cost, denote]
          case isFalse => cases hstep
  | suspended body => cases hstep; simp [work]
  | returned result => cases hstep; simp [work]
  | resumed result =>
      cases stack with
      | nil => cases hstep; simp [work, unwindWork]
      | cons rest stack =>
          cases hstep
          simp only [work, unwindWork_cons]
          omega
  | unstarted | collecting | collected | calling | inCallback | leaving => cases hstep

end

end Strand

end Lazy

end AsyncSimple
