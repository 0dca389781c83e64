import AsyncSimple.Future.SharedState

/-!
# Exceptions in {lit}`scheduleContinuation`

{lit}`FutureState::scheduleContinuation` runs the continuation in place or submits it to the
executor.  A submission that fails, with false or with an exception, is made good by running
the continuation in place.  The same {lit}`try` block also sees the exceptions of the
continuation itself, when the executor runs the task inside {lit}`schedule` or
{lit}`checkin` and does not catch them.

The continuation may return or throw, at each invocation.  The references to it are counted,
and it is destroyed with the last one.

Main results:

- Theorem {lit}`scheduleContinuation_alive`: the continuation is not invoked after its
  destruction.
- Theorem {lit}`invokedOnce_iff`: it is invoked once, unless there is no executor to submit it
  to or the executor lets an exception of the continuation through.
-/

namespace AsyncSimple

namespace ScheduleContinuation

open FutureState (Route)

variable {ε α K : Type}

/-! ## The surroundings -/

inductive Exn where
  | stdException
  | other
deriving DecidableEq, Repr

/-- How a call ends. -/
inductive Ends where
  | returns
  | throws (e : Exn)
deriving DecidableEq, Repr

/-- What an executor does with a task that it is given by {lit}`schedule` or
{lit}`checkin`. -/
inductive Submission where
  /-- runs it inside the call and returns true; an exception of the task leaves the call -/
  | runs
  /-- runs it inside the call, catches its exceptions and returns true -/
  | runsAndCatches
  /-- returns true and runs it later -/
  | accepts
  | returnsFalse
  | throwsStdException
deriving DecidableEq, Repr

/-- The invocations of the continuation, the references to it, whether it was destroyed and
invoked after that, and the tasks that the executor has accepted and not run. -/
structure World where
  invoked : Nat
  continuationRef : Nat
  destroyed : Bool
  dangling : Bool
  queued : Nat
deriving DecidableEq, Repr

/-- Before the call. -/
def World.initial : World where
  invoked := 0
  continuationRef := 0
  destroyed := false
  dangling := false
  queued := 0

namespace World

/-- {lit}`refContinuation`. -/
def refContinuation (w : World) : World :=
  { w with continuationRef := w.continuationRef + 1 }

/-- {lit}`derefContinuation`. -/
def derefContinuation (w : World) : World :=
  { w with
    continuationRef := w.continuationRef - 1
    destroyed := w.destroyed || decide (w.continuationRef = 1) }

/-- {lit}`_continuation(std::move(_try_value))`; {lit}`continuation` says how its invocations
end. -/
def invoke (w : World) (continuation : Nat → Ends) : World × Ends :=
  ({ w with invoked := w.invoked + 1, dangling := w.dangling || w.destroyed },
    continuation w.invoked)

/-- The body of the task; its reference is gone when it ends. -/
def runTask (w : World) (continuation : Nat → Ends) : World × Ends :=
  ((w.invoke continuation).1.derefContinuation, (w.invoke continuation).2)

/-- The executor runs what it has accepted. -/
def runQueued (w : World) (continuation : Nat → Ends) : Nat → World
  | 0 => w
  | n + 1 => runQueued ({ w with queued := w.queued - 1 }.runTask continuation).1 continuation n

end World

/-- The call of {lit}`schedule` or {lit}`checkin`: what it returns, or what it throws.  A task
that is not accepted is destroyed with its reference. -/
def submit (w : World) (continuation : Nat → Ends) : Submission → World × Except Exn Bool
  | .runs =>
      match w.runTask continuation with
      | (w', .returns) => (w', .ok true)
      | (w', .throws e) => (w', .error e)
  | .runsAndCatches => ((w.runTask continuation).1, .ok true)
  | .accepts => ({ w with queued := w.queued + 1 }, .ok true)
  | .returnsFalse => (w.derefContinuation, .ok false)
  | .throwsStdException => (w.derefContinuation, .error .stdException)

/-! ## The function -/

/-- The {lit}`try` block with its handler, and the end of {lit}`guardForException`. -/
def trySubmit (w : World) (continuation : Nat → Ends) (submission : Submission) : World × Ends :=
  -- `guard`, which is moved into the task, and `guardForException`
  match submit w.refContinuation.refContinuation continuation submission with
  | (w', .ok true) => (w'.derefContinuation, .returns)
  | (w', .error .other) => (w'.derefContinuation, .throws .other)
  | (w', .ok false) | (w', .error .stdException) =>
      -- "reschedule failed, execute inplace"
      ((w'.invoke continuation).1.derefContinuation, (w'.invoke continuation).2)

/-- The continuation is run in place, not submitted. -/
def runsInPlace (fs : FutureState ε α K) (triggerByContinuation : Bool)
    (answer : FutureState.Answer) : Bool :=
  !fs.forceSched && (fs.executor.isNone || triggerByContinuation ||
    FutureState.currentThreadInExecutor fs answer)

/-- {lit}`scheduleContinuation(triggerByContinuation)`; {lit}`none` is a call through the null
pointer. -/
def scheduleContinuation (fs : FutureState ε α K) (triggerByContinuation : Bool)
    (answer : FutureState.Answer) (executor : Route → Submission) (continuation : Nat → Ends)
    (w : World) : Option (World × Ends) :=
  if fs.state ≠ .done then
    some (w, .throws .stdException)
  else if runsInPlace fs triggerByContinuation answer then
    let r := w.refContinuation.invoke continuation
    some (r.1.derefContinuation, r.2)
  else if fs.executor.isNone then
    none
  else
    some (trySubmit w continuation (executor (FutureState.route fs)))

/-- The continuation is invoked at most once, and exactly once when the executor has run what
it has accepted. -/
def InvokedOnce (fs : FutureState ε α K) (triggerByContinuation : Bool)
    (answer : FutureState.Answer) (executor : Route → Submission) (continuation : Nat → Ends) :
    Prop :=
  ∃ w e, scheduleContinuation fs triggerByContinuation answer executor continuation
      World.initial = some (w, e) ∧
    w.invoked ≤ 1 ∧ (w.runQueued continuation w.queued).invoked = 1

/-- There is an executor for the submission, and it does not let a {lit}`std::exception` of the
continuation through. -/
def Handled (fs : FutureState ε α K) (triggerByContinuation : Bool)
    (answer : FutureState.Answer) (executor : Route → Submission) (continuation : Nat → Ends) :
    Prop :=
  runsInPlace fs triggerByContinuation answer = false →
    fs.executor ≠ none ∧
    ¬ (executor (FutureState.route fs) = .runs ∧ continuation 0 = .throws .stdException)

/-! ## What a submission leads to -/

/-- The continuation has been invoked so often and is destroyed. -/
def World.settled (invoked : Nat) : World where
  invoked := invoked
  continuationRef := 0
  destroyed := true
  dangling := false
  queued := 0

/-- The executor has accepted the task, which holds the only reference. -/
def World.handedOver : World where
  invoked := 0
  continuationRef := 1
  destroyed := false
  dangling := false
  queued := 1

/-- The world after the call, for every kind of submission.  Only an exception of the
continuation that comes out of the executor leads to a second invocation. -/
theorem trySubmit_world (continuation : Nat → Ends) (submission : Submission) :
    (trySubmit World.initial continuation submission).1 =
      match submission with
      | .accepts => World.handedOver
      | .runs => World.settled (if continuation 0 = .throws .stdException then 2 else 1)
      | .runsAndCatches | .returnsFalse | .throwsStdException => World.settled 1 := by
  cases submission with
  | runs =>
      have hrun : World.initial.refContinuation.refContinuation.runTask continuation =
          (⟨1, 1, false, false, 0⟩, continuation 0) := rfl
      simp only [trySubmit, submit, hrun]
      cases hends : continuation 0 with
      | returns => rfl
      | throws e => cases e <;> rfl
  | _ => rfl

/-- Nothing is left to run, or one task. -/
theorem runQueued_settled (continuation : Nat → Ends) (n : Nat) :
    (World.settled n).runQueued continuation (World.settled n).queued = World.settled n :=
  rfl

theorem runQueued_handedOver (continuation : Nat → Ends) :
    World.handedOver.runQueued continuation World.handedOver.queued = World.settled 1 :=
  rfl

section

variable (fs : FutureState ε α K) (triggerByContinuation : Bool) (answer : FutureState.Answer)
  (executor : Route → Submission) (continuation : Nat → Ends)

/-- Every world that the call can end in. -/
theorem scheduleContinuation_world (hdone : fs.state = .done) {w : World} {e : Ends}
    (hcall : scheduleContinuation fs triggerByContinuation answer executor continuation
      World.initial = some (w, e)) :
    w = World.handedOver ∨ w = World.settled 1 ∨
      w = World.settled 2 ∧ runsInPlace fs triggerByContinuation answer = false ∧
        executor (FutureState.route fs) = .runs ∧ continuation 0 = .throws .stdException := by
  unfold scheduleContinuation at hcall
  rw [if_neg (not_not.mpr hdone)] at hcall
  split at hcall
  · cases hcall
    exact .inr (.inl rfl)
  · next hplace =>
      split at hcall
      · cases hcall
      · rw [Option.some.injEq, Prod.ext_iff] at hcall
        have hworld := trySubmit_world continuation (executor (FutureState.route fs))
        rw [hcall.1] at hworld
        cases hsubmission : executor (FutureState.route fs) with
        | runs =>
            rw [hsubmission] at hworld
            by_cases hthrows : continuation 0 = .throws .stdException
            · refine .inr (.inr ⟨?_, by simpa using hplace, rfl, hthrows⟩)
              simpa [hthrows] using hworld
            · exact .inr (.inl (by simpa [hthrows] using hworld))
        | accepts =>
            rw [hsubmission] at hworld
            exact .inl hworld
        | runsAndCatches | returnsFalse | throwsStdException =>
            rw [hsubmission] at hworld
            exact .inr (.inl hworld)

/-- The continuation is not invoked after its destruction, and it is destroyed when the
executor has run what it has accepted. -/
theorem scheduleContinuation_alive (hdone : fs.state = .done) {w : World} {e : Ends}
    (hcall : scheduleContinuation fs triggerByContinuation answer executor continuation
      World.initial = some (w, e)) :
    (w.runQueued continuation w.queued).dangling = false ∧
      (w.runQueued continuation w.queued).destroyed = true := by
  rcases scheduleContinuation_world fs triggerByContinuation answer executor continuation hdone
    hcall with rfl | rfl | ⟨rfl, -⟩
  · rw [runQueued_handedOver]
    exact ⟨rfl, rfl⟩
  · rw [runQueued_settled]
    exact ⟨rfl, rfl⟩
  · rw [runQueued_settled]
    exact ⟨rfl, rfl⟩

/-- There is an outcome unless the null pointer is called. -/
theorem scheduleContinuation_isSome (hdone : fs.state = .done) :
    (∃ w e, scheduleContinuation fs triggerByContinuation answer executor continuation
      World.initial = some (w, e)) ↔
      runsInPlace fs triggerByContinuation answer = false → fs.executor ≠ none := by
  unfold scheduleContinuation
  rw [if_neg (not_not.mpr hdone)]
  cases runsInPlace fs triggerByContinuation answer with
  | true => simp
  | false =>
      cases fs.executor with
      | none => simp
      | some ex => simpa using ⟨_, _, rfl⟩

/-- For every executor that keeps its contract, every setting of the future state and every
continuation: the continuation is invoked at most once, and exactly once when the executor runs
what it accepted, if and only if a submission has an executor, and the executor does not run a
continuation inside the call whose {lit}`std::exception` it lets through. -/
theorem invokedOnce_iff (hdone : fs.state = .done) :
    InvokedOnce fs triggerByContinuation answer executor continuation ↔
      Handled fs triggerByContinuation answer executor continuation := by
  have hsome := scheduleContinuation_isSome fs triggerByContinuation answer executor continuation
    hdone
  constructor
  · rintro ⟨w, e, hcall, honce, -⟩ hsubmits
    refine ⟨hsome.mp ⟨w, e, hcall⟩ hsubmits, ?_⟩
    rintro ⟨hruns, hthrows⟩
    have hexecutor : fs.executor.isNone = false := by
      cases hex : fs.executor with
      | none => exact absurd hex (hsome.mp ⟨w, e, hcall⟩ hsubmits)
      | some ex => rfl
    have htwice : w = World.settled 2 := by
      unfold scheduleContinuation at hcall
      rw [if_neg (not_not.mpr hdone), hsubmits, hexecutor, hruns] at hcall
      simp only [Bool.false_eq_true, if_false, Option.some.injEq, Prod.ext_iff] at hcall
      rw [← hcall.1, trySubmit_world, hthrows]
      rfl
    rw [htwice] at honce
    exact absurd honce (by decide)
  · intro hhandled
    rcases hsome.mpr fun hsubmits => (hhandled hsubmits).1 with ⟨w, e, hcall⟩
    refine ⟨w, e, hcall, ?_⟩
    rcases scheduleContinuation_world fs triggerByContinuation answer executor continuation hdone
      hcall with rfl | rfl | ⟨-, hsubmits, hbad⟩
    · rw [runQueued_handedOver]
      exact ⟨by decide, rfl⟩
    · rw [runQueued_settled]
      exact ⟨by decide, rfl⟩
    · exact absurd hbad (hhandled hsubmits).2

end

/-- A future with an executor and without a context. -/
def viaExecutor : FutureState Unit Nat Unit :=
  { FutureState.create with state := .done, executor := some 0 }

/-- The executor refuses the task, and the continuation throws when it is run in place. -/
theorem invokedOnce_iff_refused :
    viaExecutor.state = .done ∧ InvokedOnce viaExecutor false ⟨false, false⟩
      (fun _ => .returnsFalse) (fun _ => .throws .stdException) :=
  ⟨rfl, (invokedOnce_iff viaExecutor false ⟨false, false⟩ _ _ rfl).mpr fun _ => ⟨nofun, nofun⟩⟩

/-- The executor runs the task inside {lit}`schedule`, and the continuation throws: it is
invoked a second time. -/
theorem not_invokedOnce_inline :
    viaExecutor.state = .done ∧ ¬ InvokedOnce viaExecutor false ⟨false, false⟩
      (fun _ => .runs) (fun _ => .throws .stdException) := by
  refine ⟨rfl, ?_⟩
  rintro ⟨w, e, hcall, honce, -⟩
  have htwice : scheduleContinuation viaExecutor false ⟨false, false⟩ (fun _ => .runs)
      (fun _ => .throws .stdException) World.initial =
        some (World.settled 2, .throws .stdException) := rfl
  rw [htwice, Option.some.injEq, Prod.mk.injEq] at hcall
  rw [← hcall.1] at honce
  exact absurd honce (by decide)

end ScheduleContinuation

end AsyncSimple
