import AsyncSimple.Future.Consumers

/-!
# Awaiting a {lit}`Lazy` in a uthread

{lit}`uthread::await(ex, fn, args...)` calls a function that returns a {lit}`Lazy` and awaits the
result in a uthread.  A wrapper coroutine awaits the {lit}`Lazy` and sets a promise to its value;
the promise is a member of the wrapper's closure, which is a local variable of
{lit}`uthread::await`.  The wrapper is started by {lit}`directlyStart` with a callback that ignores
the outcome of the wrapper.

The {lit}`Lazy` suspends any number of times and ends with a value or an exception.  It runs on the
caller's stack up to its first suspension, and is resumed by other threads.

Main results:

- Theorem {lit}`Inv.step`: an exception of the {lit}`Lazy` goes to the ignoring callback.
- Theorem {lit}`reports_iff`: every outcome is reported exactly if the {lit}`Lazy` ends with a
  value.
-/

namespace AsyncSimple

open Transition
open Consumers (Param TryVoid Outcome value)

namespace UthreadAwaitLazy

variable {ε : Type} {T : Param}

/-- How a function or a coroutine ends. -/
inductive Ending (ε : Type) (T : Param) where
  | value (v : T.Inner)
  | exception (e : ε)

def Ending.isValue : Ending ε T → Bool
  | .value _ => true
  | .exception _ => false

/-- The result that a promise with this outcome has. -/
def Ending.toTry : Ending ε T → Try ε T.Inner
  | .value v => .value v
  | .exception e => .error e

/-- What a caller with this outcome does. -/
def Ending.toOutcome : Ending ε T → Outcome ε T
  | .value v => .returned v
  | .exception e => .rethrown e

/-! ## The promise of a coroutine -/

/-- {lit}`LazyPromise<T>`: the variant {lit}`_value`, or {lit}`_exception` for {lit}`void`. -/
def LazyPromise (ε : Type) : Param → Type
  | .void => TryVoid ε
  | .type α => Try ε α

def LazyPromise.create : (T : Param) → LazyPromise ε T
  | .void => ⟨none⟩
  | .type _ => Try.nothing

/-- {lit}`return_value`, {lit}`return_void` or {lit}`unhandled_exception`. -/
def LazyPromise.finish : (T : Param) → Ending ε T → LazyPromise ε T
  | .void, .value _ => ⟨none⟩
  | .void, .exception e => ⟨some e⟩
  | .type _, .value v => Try.value v
  | .type _, .exception e => Try.error e

/-- {lit}`result()`, which returns or rethrows; {lit}`none` is a failed {lit}`assert`. -/
def LazyPromise.result : (T : Param) → LazyPromise ε T → Option (Ending ε T)
  | .void, ⟨none⟩ => some (.value ())
  | .void, ⟨some e⟩ => some (.exception e)
  | .type _, .value v => some (.value v)
  | .type _, .error e => some (.exception e)
  | .type _, .nothing => none

/-! ## Steps -/

/-- Program points of the {lit}`Lazy`, of the wrapper that awaits it, and of the coroutine of
{lit}`start` that awaits the wrapper. -/
inductive LazyPc (ε : Type) (T : Param) where
  /-- with the number of suspensions to come -/
  | running (left : Nat)
  | suspended (left : Nat)
  /-- at {lit}`final_suspend`, which resumes the wrapper -/
  | completed
  /-- the wrapper calls {lit}`p.setValue` -/
  | setValue (v : T.Inner)
  /-- the wrapper has ended, with its {lit}`tryResult()` -/
  | wrapperEnded (t : TryVoid ε)
  /-- the callback has been called -/
  | ended

/-- Program points of {lit}`uthread::await`. -/
inductive CallerPc (ε : Type) (T : Param) where
  /-- in {lit}`directlyStart` -/
  | starting
  | await
  | suspended
  | returned (outcome : Outcome ε T)

/-- {lit}`directlyStart` returns when the coroutines have left the stack. -/
def CallerPc.handBack : CallerPc ε T → CallerPc ε T
  | .starting => .await
  | pc => pc

structure State (ε : Type) (T : Param) where
  lazy : LazyPc ε T
  lazyPromise : LazyPromise ε T
  /-- the result of the promise in the closure -/
  result : Try ε T.Inner
  /-- the closure exists -/
  closure : Bool
  caller : CallerPc ε T
  /-- what the callback has got -/
  ignored : Option (TryVoid ε)

def State.initial (suspensions : Nat) : State ε T where
  lazy := .running suspensions
  lazyPromise := .create T
  result := .nothing
  closure := true
  caller := .starting
  ignored := none

/-- One step of the coroutines; the {lit}`Lazy` ends with {lit}`ending`. -/
def lazyStep (ending : Ending ε T) (s : State ε T) : Option (State ε T) :=
  match s.lazy with
  | .running (left + 1) => some { s with lazy := .suspended left, caller := s.caller.handBack }
  | .running 0 => some { s with lazy := .completed, lazyPromise := .finish T ending }
  | .suspended left => some { s with lazy := .running left }
  | .completed =>
      -- `await_resume` in the wrapper
      match LazyPromise.result T s.lazyPromise with
      | some (.value v) => some { s with lazy := .setValue v }
      | some (.exception e) => some { s with lazy := .wrapperEnded ⟨some e⟩ }
      | none => none
  | .setValue v =>
      if s.closure then
        some { s with result := .value v, lazy := .wrapperEnded ⟨none⟩ }
      else
        none
  | .wrapperEnded t =>
      some { s with lazy := .ended, ignored := some t, caller := s.caller.handBack }
  | .ended => none

/-- {lit}`f.hasResult()`. -/
def State.hasResult (s : State ε T) : Bool :=
  match s.result with
  | .nothing => false
  | _ => true

/-- {lit}`uthread::await` ends with {lit}`f.value()`, and the closure is destroyed. -/
def State.finish (s : State ε T) : State ε T :=
  { s with caller := .returned (value T s.result), closure := false }

/-- One step of {lit}`uthread::await`. -/
def mainStep (s : State ε T) : Option (State ε T) :=
  match s.caller with
  | .starting | .returned _ => none
  | .await => if s.hasResult then some s.finish else some { s with caller := .suspended }
  | .suspended => if s.hasResult then some s.finish else none

inductive Label where
  | main
  | lazy
deriving DecidableEq, Repr

def step (ending : Ending ε T) (s : State ε T) : Label → Option (State ε T)
  | .main => mainStep s
  | .lazy => lazyStep ending s

def machine (ending : Ending ε T) : Machine (State ε T) Label where
  step := step ending

/-- The wrapper, which takes the outcome of the {lit}`Lazy`, has ended. -/
def LazyPc.settled : LazyPc ε T → Bool
  | .wrapperEnded _ | .ended => true
  | _ => false

/-- A completed {lit}`Lazy` has its outcome in the promise, and {lit}`uthread::await` returns or
rethrows this outcome. -/
structure Reports (ending : Ending ε T) (s : State ε T) : Prop where
  promise : s.lazy.settled = true → s.result = ending.toTry
  returns : ∀ outcome, s.caller = .returned outcome → outcome = ending.toOutcome
  completes : ∃ ks t, (machine ending).run s ks = some t ∧
    t.caller = .returned ending.toOutcome

/-! ## The invariant -/

/-- What the wrapper stores in the promise. -/
def Ending.stored : Ending ε T → Try ε T.Inner
  | .value v => .value v
  | .exception _ => .nothing

theorem LazyPromise.result_finish (T : Param) (ending : Ending ε T) :
    LazyPromise.result T (.finish T ending) = some ending := by
  cases T with
  | void => cases ending <;> rfl
  | type α => cases ending <;> rfl

structure Inv (ending : Ending ε T) (s : State ε T) : Prop where
  completed : s.lazy = .completed → s.lazyPromise = .finish T ending
  setting : ∀ v, s.lazy = .setValue v → ending = .value v
  result : s.result = if s.lazy.settled then ending.stored else .nothing
  returned : ∀ outcome, s.caller = .returned outcome →
    s.result ≠ .nothing ∧ outcome = value T s.result
  closure : s.closure = false → ∃ outcome, s.caller = .returned outcome
  started : s.lazy = .ended → s.caller ≠ .starting

namespace Inv

variable {ending : Ending ε T} {s s' : State ε T}

theorem initial (ending : Ending ε T) (suspensions : Nat) :
    Inv ending (State.initial suspensions) := by
  constructor <;> simp [State.initial, LazyPc.settled]

theorem handBack_returned {pc : CallerPc ε T} {outcome : Outcome ε T} :
    pc.handBack = .returned outcome ↔ pc = .returned outcome := by
  cases pc <;> simp [CallerPc.handBack]

theorem handBack_ne_starting (pc : CallerPc ε T) : pc.handBack ≠ .starting := by
  cases pc <;> simp [CallerPc.handBack]

/-- The coroutines go on and leave the promise alone. -/
theorem setLazy (h : Inv ending s) {pc : LazyPc ε T} {lazyPromise : LazyPromise ε T}
    {ignored : Option (TryVoid ε)} {caller : CallerPc ε T}
    (hcompleted : pc = .completed → lazyPromise = .finish T ending)
    (hsetting : ∀ v, pc = .setValue v → ending = .value v)
    (hresult : s.result = if pc.settled then ending.stored else .nothing)
    (hcaller : ∀ outcome, caller = .returned outcome ↔ s.caller = .returned outcome)
    (hstarted : pc = .ended → caller ≠ .starting) :
    Inv ending { s with
      lazy := pc, lazyPromise := lazyPromise, ignored := ignored, caller := caller } where
  completed := hcompleted
  setting := hsetting
  result := hresult
  returned := fun outcome houtcome => h.returned outcome ((hcaller outcome).mp houtcome)
  closure := fun hclosure => (h.closure hclosure).imp fun outcome => (hcaller outcome).mpr
  started := hstarted

theorem lazy (h : Inv ending s) (hstep : lazyStep ending s = some s') : Inv ending s' := by
  have hresult := h.result
  simp only [lazyStep] at hstep
  split at hstep
  case h_1 left hpc =>
    cases hstep
    rw [hpc] at hresult
    exact h.setLazy (by simp) (by simp) hresult (fun _ => handBack_returned) (by simp)
  case h_2 hpc =>
    cases hstep
    rw [hpc] at hresult
    exact h.setLazy (fun _ => rfl) (by simp) hresult (fun _ => Iff.rfl) (by simp)
  case h_3 left hpc =>
    cases hstep
    rw [hpc] at hresult
    exact h.setLazy (by simp) (by simp) hresult (fun _ => Iff.rfl) (by simp)
  case h_4 hpc =>
    rw [h.completed hpc, LazyPromise.result_finish] at hstep
    rw [hpc] at hresult
    cases ending with
    | value v =>
        cases hstep
        refine h.setLazy (by simp) ?_ hresult (fun _ => Iff.rfl) (by simp)
        rintro _ ⟨⟩
        rfl
    | exception e =>
        cases hstep
        exact h.setLazy (by simp) (by simp) hresult (fun _ => Iff.rfl) (by simp)
  case h_5 v hpc =>
    split at hstep
    · next hclosure =>
        cases hstep
        cases h.setting v hpc
        -- nobody has returned without a result
        have hnot : ∀ outcome, s.caller ≠ .returned outcome := by
          intro outcome hreturned
          rw [hpc] at hresult
          exact (h.returned outcome hreturned).1 hresult
        exact { h with
          completed := by simp
          setting := by simp
          result := rfl
          returned := fun outcome hreturned => absurd hreturned (hnot outcome)
          started := by simp }
    · cases hstep
  case h_6 t hpc =>
    cases hstep
    rw [hpc] at hresult
    exact h.setLazy (by simp) (by simp) hresult (fun _ => handBack_returned)
      fun _ => handBack_ne_starting _
  case h_7 => cases hstep

theorem finish (h : Inv ending s) (hresult : s.hasResult = true) : Inv ending s.finish := by
  refine { h with returned := ?_, closure := fun _ => ⟨_, rfl⟩, started := by simp [State.finish] }
  rintro _ ⟨⟩
  refine ⟨fun hnothing => ?_, rfl⟩
  have hnone : s.result = .nothing := hnothing
  simp [State.hasResult, hnone] at hresult

theorem main (h : Inv ending s) (hstep : mainStep s = some s') : Inv ending s' := by
  simp only [mainStep] at hstep
  split at hstep
  case h_1 | h_2 => cases hstep
  case h_3 hcaller =>
    split at hstep
    · next hresult =>
        cases hstep
        exact h.finish hresult
    · cases hstep
      refine { h with returned := by simp, closure := ?_, started := by simp }
      intro hclosure
      rcases h.closure hclosure with ⟨outcome, hreturned⟩
      rw [hcaller] at hreturned
      cases hreturned
  case h_4 hcaller =>
    split at hstep
    · next hresult =>
        cases hstep
        exact h.finish hresult
    · cases hstep

theorem step (h : Inv ending s) {l : Label}
    (hstep : UthreadAwaitLazy.step ending s l = some s') : Inv ending s' := by
  cases l with
  | main => exact h.main hstep
  | lazy => exact h.lazy hstep

theorem run (h : Inv ending s) {ls : List Label} (hrun : (machine ending).run s ls = some s') :
    Inv ending s' :=
  (machine ending).run_invariant (fun _ _ _ h hstep => h.step hstep) h hrun

/-- After an exception of the {lit}`Lazy`, {lit}`uthread::await` does not return. -/
theorem not_returned {e : ε} (h : Inv (.exception e) s) (outcome : Outcome ε T) :
    s.caller ≠ .returned outcome := by
  intro hreturned
  refine (h.returned outcome hreturned).1 ?_
  rw [h.result]
  split <;> rfl

/-- After a value, the promise has it as its result. -/
theorem result_of_settled {v : T.Inner} (h : Inv (.value v) s) (hsettled : s.lazy.settled = true) :
    s.result = .value v := by
  rw [h.result, hsettled]
  rfl

end Inv

/-! ## Every value is reported -/

/-- Steps that the coroutines may still make. -/
def LazyPc.rank : LazyPc ε T → Nat
  | .running left => 2 * left + 4
  | .suspended left => 2 * left + 5
  | .completed => 3
  | .setValue _ => 2
  | .wrapperEnded _ => 1
  | .ended => 0

def CallerPc.rank : CallerPc ε T → Nat
  | .starting => 3
  | .await => 2
  | .suspended => 1
  | .returned _ => 0

def State.rank (s : State ε T) : Nat :=
  s.lazy.rank + s.caller.rank

theorem CallerPc.rank_handBack_le (pc : CallerPc ε T) : pc.handBack.rank ≤ pc.rank := by
  cases pc <;> simp [CallerPc.handBack, CallerPc.rank]

namespace Inv

variable {s : State ε T} {v : T.Inner}

/-- The coroutines always go on. -/
theorem exists_lazyStep (h : Inv (.value v) s) (hnot : ∀ outcome, s.caller ≠ .returned outcome)
    (hended : s.lazy ≠ .ended) :
    ∃ s', lazyStep (.value v) s = some s' ∧ s'.rank < s.rank := by
  have hhandBack := s.caller.rank_handBack_le
  cases hpc : s.lazy with
  | running left =>
      cases left with
      | zero =>
          refine ⟨_, by simp only [lazyStep, hpc]; rfl, ?_⟩
          simp [State.rank, hpc, LazyPc.rank]
      | succ left =>
          refine ⟨_, by simp only [lazyStep, hpc]; rfl, ?_⟩
          simp only [State.rank, hpc, LazyPc.rank]
          omega
  | suspended left =>
      refine ⟨_, by simp only [lazyStep, hpc]; rfl, ?_⟩
      simp [State.rank, hpc, LazyPc.rank]
  | completed =>
      refine ⟨_, by simp only [lazyStep, hpc, h.completed hpc, LazyPromise.result_finish]; rfl, ?_⟩
      simp [State.rank, hpc, LazyPc.rank]
  | setValue w =>
      have hclosure : s.closure = true := by
        cases hclosure : s.closure with
        | true => rfl
        | false =>
            rcases h.closure hclosure with ⟨outcome, hreturned⟩
            exact absurd hreturned (hnot outcome)
      refine ⟨_, by simp only [lazyStep, hpc, hclosure]; rfl, ?_⟩
      simp [State.rank, hpc, LazyPc.rank]
  | wrapperEnded t =>
      refine ⟨_, by simp only [lazyStep, hpc]; rfl, ?_⟩
      simp only [State.rank, hpc, LazyPc.rank]
      omega
  | ended => exact absurd hpc hended

theorem exists_step (h : Inv (.value v) s) (hnot : ∀ outcome, s.caller ≠ .returned outcome) :
    ∃ l s', UthreadAwaitLazy.step (.value v) s l = some s' ∧ s'.rank < s.rank := by
  by_cases hended : s.lazy = .ended
  · have hresult : s.hasResult = true := by
      simp [State.hasResult, h.result_of_settled (by rw [hended]; rfl)]
    cases hcaller : s.caller with
    | starting => exact absurd hcaller (h.started hended)
    | returned outcome => exact absurd hcaller (hnot outcome)
    | await | suspended =>
        refine ⟨.main, s.finish, by simp [UthreadAwaitLazy.step, mainStep, hcaller, hresult], ?_⟩
        simp [State.rank, State.finish, hcaller, CallerPc.rank]
  · rcases h.exists_lazyStep hnot hended with ⟨s', hstep, hlt⟩
    exact ⟨.lazy, s', hstep, hlt⟩

/-- A returned caller has the value. -/
theorem returned_value (h : Inv (.value v) s) {outcome : Outcome ε T}
    (hreturned : s.caller = .returned outcome) : outcome = .returned v := by
  rcases h.returned outcome hreturned with ⟨hsome, houtcome⟩
  have hresult := h.result
  split at hresult
  · rw [houtcome, hresult]
    cases T <;> rfl
  · exact absurd hresult hsome

theorem exists_returned (h : Inv (.value v) s) :
    ∃ ks t, (machine (.value v)).run s ks = some t ∧ t.caller = .returned (.returned v) := by
  have hprogress : ∀ s : State ε T, Inv (.value v) s →
      ¬ (∃ outcome, s.caller = .returned outcome) →
      ∃ l s', True ∧ (machine (.value v)).step s l = some s' ∧ Inv (.value v) s' ∧
        s'.rank < s.rank := by
    intro s hs hnot
    rcases hs.exists_step fun outcome hreturned => hnot ⟨outcome, hreturned⟩ with
      ⟨l, s', hstep, hlt⟩
    exact ⟨l, s', trivial, hstep, hs.step hstep, hlt⟩
  rcases Machine.exists_run_of_measure _ (fun _ => True) State.rank hprogress h with
    ⟨ks, t, -, hrun, ht, outcome, hreturned⟩
  refine ⟨ks, t, hrun, ?_⟩
  rw [hreturned, ht.returned_value hreturned]

end Inv

/-- For every {lit}`T`, every number of suspensions of the {lit}`Lazy` and every outcome of it:
in all runs a completed {lit}`Lazy` has its outcome in the promise and {lit}`uthread::await`
returns or rethrows this outcome, exactly if it is a value. -/
theorem reports_iff (suspensions : Nat) (ending : Ending ε T) :
    (∀ ls s, (machine ending).run (State.initial suspensions) ls = some s → Reports ending s) ↔
      ending.isValue = true := by
  constructor
  · intro hreports
    cases ending with
    | value v => rfl
    | exception e =>
        -- the run that the property promises does not exist
        rcases (hreports [] _ rfl).completes with ⟨ks, t, hrun, hreturned⟩
        exact absurd hreturned (((Inv.initial _ suspensions).run hrun).not_returned _)
  · intro hvalue ls s hrun
    cases ending with
    | exception e => cases hvalue
    | value v =>
        have hinv := (Inv.initial (.value v) suspensions).run hrun
        exact ⟨hinv.result_of_settled, fun _ => hinv.returned_value, hinv.exists_returned⟩

/-- The {lit}`Lazy` throws after a suspension. -/
def throwsLater : List Label :=
  [.lazy, .main, .lazy, .lazy, .lazy, .lazy]

/-- The callback has got the exception; the promise has no result, the uthread stays suspended,
and nobody can move. -/
theorem throwsLater_not_reported :
    ∃ s, (machine (.exception () : Ending Unit .void)).run (State.initial 1) throwsLater = some s ∧
      (s.lazy.settled = true ∧ s.result = .nothing) ∧ s.ignored = some ⟨some ()⟩ ∧
      (∀ l, step (.exception ()) s l = none) ∧ ¬ Reports (.exception ()) s := by
  refine ⟨_, rfl, ⟨rfl, rfl⟩, rfl, ?_, ?_⟩
  · intro l
    cases l <;> rfl
  · intro hreports
    cases hreports.promise rfl

end UthreadAwaitLazy

end AsyncSimple
