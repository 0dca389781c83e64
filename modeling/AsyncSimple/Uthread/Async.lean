import AsyncSimple.Uthread.AwaitLazy
import AsyncSimple.Uthread.CollectAll

/-!
# A function on a uthread, with a future

{lit}`uthread::async(policy, attr, f, args...)` runs a function on a new uthread and returns a
future.  The promise of this future is a member of the closure {lit}`proc`.  With
{lit}`Launch::Schedule` the task of the executor holds one copy of it, and the {lit}`func_` of the
{lit}`thread_context` another one; with {lit}`Launch::Current` there is only {lit}`func_`.  An
exception of the function leaves {lit}`func_` and goes into {lit}`done_`, the promise of the
uthread.  The last copy of the promise that is destroyed without a result breaks it.

The function suspends any number of times and ends with a value or an exception.  The executor
accepts the task.

Main results:

- Theorem {lit}`Inv.step`: the copies of the promise are counted, and a function that returns has
  set the promise before the last one goes.
- Theorem {lit}`delivers_iff`: the future gets the outcome of the function exactly if this is a
  value.
-/

namespace AsyncSimple

open Transition
open Consumers (Param)
open UthreadCollect (Policy Host)
open UthreadAwaitLazy (Ending)

namespace UthreadAsync

variable {ε : Type} {T : Param}

/-- The exceptions that a result can hold: the one of the function, or the runtime error "Promise
is broken" of {lit}`detachPromise`. -/
inductive Thrown (ε : Type) where
  | byFunction (e : ε)
  | brokenPromise
deriving DecidableEq, Repr

/-- The result that is expected of the future. -/
def expected : Ending ε T → Try (Thrown ε) T.Inner
  | .value v => .value v
  | .exception e => .error (.byFunction e)

/-- How far the uthread has come. -/
inductive Phase (ε : Type) (T : Param) where
  /-- the executor has accepted the task -/
  | queued
  /-- in the function, with the number of suspensions to come -/
  | running (left : Nat)
  | suspended (left : Nat)
  /-- the function has returned -/
  | setValue (v : T.Inner)
  /-- {lit}`func_` has returned or thrown -/
  | ended (exception : Option ε)
  /-- {lit}`done_` is set -/
  | finished

/-- The uthread, the code that has constructed it, whether its {lit}`thread_context` exists, the
copies of the promise, its result, and the result of {lit}`done_`. -/
structure State (ε : Type) (T : Param) where
  phase : Phase ε T
  host : Host
  alive : Bool
  promiseRef : Nat
  result : Try (Thrown ε) T.Inner
  done : Try ε Bool

/-- {lit}`async` has passed the closure on. -/
def State.initial (policy : Policy) (suspensions : Nat) : State ε T :=
  match policy with
  | .schedule => ⟨.queued, .none, false, 1, .nothing, .nothing⟩
  | .current => ⟨.running suspensions, .constructing, true, 1, .nothing, .nothing⟩

/-- {lit}`detachPromise`. -/
def State.detachPromise (s : State ε T) : State ε T :=
  match s.result with
  | .nothing =>
      if s.promiseRef = 1 then
        { s with promiseRef := 0, result := .error .brokenPromise }
      else
        { s with promiseRef := s.promiseRef - 1 }
  | _ => { s with promiseRef := s.promiseRef - 1 }

def Phase.isFinished : Phase ε T → Bool
  | .finished => true
  | _ => false

/-- What {lit}`thread_context::main` does with {lit}`done_`. -/
def doneOf : Option ε → Try ε Bool
  | none => .value true
  | some e => .error e

inductive Label where
  /-- the executor runs the task -/
  | start
  /-- the uthread runs, or is resumed -/
  | uthread
  /-- the code that has constructed the {lit}`Uthread` goes on -/
  | host
  /-- the executor destroys the task -/
  | closure
  /-- the continuation of {lit}`done_` is destroyed, and the {lit}`Uthread` with it -/
  | destroy
deriving DecidableEq, Repr

/-- One step of the uthread; the function ends with {lit}`ending`. -/
def uthreadStep (ending : Ending ε T) (s : State ε T) : Option (State ε T) :=
  match s.phase with
  | .queued | .finished => none
  | .running (left + 1) => some { s with phase := .suspended left, host := s.host.handBack }
  | .suspended left => some { s with phase := .running left }
  | .running 0 =>
      match ending with
      | .value v => some { s with phase := .setValue v }
      | .exception e => some { s with phase := .ended (some e) }
  | .setValue v => some { s with phase := .ended none, result := .value v }
  | .ended exception =>
      some { s with phase := .finished, done := doneOf exception, host := s.host.handBack }

def step (policy : Policy) (suspensions : Nat) (ending : Ending ε T) (s : State ε T) :
    Label → Option (State ε T)
  | .start =>
      match s.phase with
      -- the task is constant, so that `func_` gets a copy of the closure
      | .queued => some { s with
          phase := .running suspensions
          host := .constructing
          alive := true
          promiseRef := s.promiseRef + 1 }
      | _ => none
  | .uthread => uthreadStep ending s
  | .host =>
      match s.host with
      | .constructed => some { s with host := .joined s.phase.isFinished }
      | .joined false => some { s with host := .ended }
      | .joined true => some (State.detachPromise { s with host := .ended, alive := false })
      | _ => none
  | .closure =>
      match policy, s.host with
      | .schedule, .ended => some (State.detachPromise { s with host := .released })
      | _, _ => none
  | .destroy =>
      if s.alive && s.phase.isFinished && s.host.handedOver then
        some (State.detachPromise { s with alive := false })
      else
        none

/-- The uthread of one call of {lit}`async`. -/
def machine (policy : Policy) (suspensions : Nat) (ending : Ending ε T) :
    Machine (State ε T) Label where
  step := step policy suspensions ending

/-- The future gets the outcome of the function and no other result. -/
structure Delivers (policy : Policy) (suspensions : Nat) (ending : Ending ε T) (s : State ε T) :
    Prop where
  result : s.result = .nothing ∨ s.result = expected ending
  completes : ∃ ks t, (machine policy suspensions ending).run s ks = some t ∧
    t.result = expected ending

/-! ## The invariant -/

/-- The promise has been set, if it is going to be. -/
def Phase.settled : Phase ε T → Bool
  | .ended _ | .finished => true
  | _ => false

/-- The copy of the promise in the task. -/
def closureRefs (policy : Policy) (host : Host) : Nat :=
  if policy = .schedule ∧ host ≠ .released then 1 else 0

/-- What holds while {lit}`extra` copies of the promise are about to be destroyed. -/
structure Counted (policy : Policy) (ending : Ending ε T) (extra : Nat) (s : State ε T) :
    Prop where
  promiseRef : s.promiseRef = closureRefs policy s.host + s.alive.toNat + extra
  queued : s.phase = .queued → s.host = .none ∧ s.alive = false
  living : s.phase ≠ .queued → s.phase.isFinished = false → s.alive = true
  held : s.host ≠ .none → s.host.handedOver = false → s.alive = true
  sawResult : s.host = .joined true → s.phase.isFinished = true
  setting : ∀ v, s.phase = .setValue v → ending = .value v
  before : s.phase.settled = false → s.result = .nothing
  value : ∀ v, ending = .value v → s.phase.settled = true → s.result = .value v
  exception : ∀ e, ending = .exception e →
    s.result = .nothing ∨ s.result = .error .brokenPromise

/-- What holds in every state. -/
def Inv (policy : Policy) (ending : Ending ε T) (s : State ε T) : Prop :=
  Counted policy ending 0 s

theorem closureRefs_handBack (policy : Policy) (host : Host) :
    closureRefs policy host.handBack = closureRefs policy host := by
  simp only [closureRefs, ne_eq, Host.handBack_eq_released]

theorem handBack_eq_joined {host : Host} : host.handBack = .joined true ↔ host = .joined true := by
  cases host <;> simp [Host.handBack]

theorem Phase.settled_of_finished {phase : Phase ε T} (h : phase.isFinished = true) :
    phase.settled = true := by
  cases phase <;> simp_all [Phase.isFinished, Phase.settled]

section

variable {policy : Policy} {suspensions : Nat} {ending : Ending ε T} {s s' : State ε T}

/-- A copy of the promise is destroyed, and the last one only after the promise was set. -/
theorem Counted.detachPromise (h : Counted policy ending 1 s)
    (hlast : s.promiseRef = 1 → s.phase.settled = true) : Inv policy ending s.detachPromise := by
  have hcount := h.promiseRef
  have hless : Inv policy ending { s with promiseRef := s.promiseRef - 1 } := by
    refine { h with promiseRef := ?_ }
    simp only
    omega
  simp only [State.detachPromise]
  split
  case h_1 hnothing =>
    split
    case isTrue hone =>
      have hsettled := hlast hone
      refine { hless with promiseRef := ?_, before := ?_, value := ?_, exception := ?_ }
      · simp only
        omega
      · intro hnot
        simp only [hsettled, Bool.true_eq_false] at hnot
      · intro v hending _
        rw [h.value v hending hsettled] at hnothing
        cases hnothing
      · exact fun _ _ => .inr rfl
    case isFalse => exact hless
  case h_2 => exact hless

namespace Inv

theorem initial (policy : Policy) (suspensions : Nat) (ending : Ending ε T) :
    Inv policy ending (State.initial policy suspensions) := by
  cases policy with
  | schedule => constructor <;> simp [State.initial, closureRefs, Phase.settled]
  | current =>
      constructor <;> simp [State.initial, closureRefs, Phase.settled, Phase.isFinished]

/-- The uthread has come further, and has not set the promise. -/
theorem setPhase (h : Inv policy ending s) {phase : Phase ε T} {host : Host} {done : Try ε Bool}
    (hhost : host = s.host ∨ host = s.host.handBack) (hqueued : s.phase ≠ .queued)
    (hphase : phase ≠ .queued) (hunfinished : s.phase.isFinished = false)
    (hsetting : ∀ v, phase = .setValue v → ending = .value v)
    (hstays : s.phase.settled = true → phase.settled = true)
    (hsettled : phase.settled = true → s.phase.settled = true ∨ ending.isValue = false) :
    Inv policy ending { s with phase := phase, host := host, done := done } := by
  have hrefs : closureRefs policy host = closureRefs policy s.host := by
    rcases hhost with rfl | rfl
    · rfl
    · exact closureRefs_handBack policy s.host
  have hjoined : host ≠ .joined true := by
    intro hjoined
    have hbefore : s.host = .joined true := by
      rcases hhost with rfl | rfl
      · exact hjoined
      · exact handBack_eq_joined.mp hjoined
    rw [h.sawResult hbefore] at hunfinished
    cases hunfinished
  refine { h with
    promiseRef := ?_
    queued := fun h => absurd h hphase
    living := fun _ _ => h.living hqueued hunfinished
    held := fun _ _ => h.living hqueued hunfinished
    sawResult := fun h => absurd h hjoined
    setting := hsetting
    before := ?_
    value := ?_ }
  · simp only [hrefs]
    exact h.promiseRef
  · intro hnot
    exact h.before (Bool.eq_false_iff.mpr fun hsettled => by simp [hstays hsettled] at hnot)
  · intro v hending hnow
    rcases hsettled hnow with hbefore | hvalue
    · exact h.value v hending hbefore
    · rw [hending] at hvalue
      cases hvalue

theorem uthread (h : Inv policy ending s) (hstep : uthreadStep ending s = some s') :
    Inv policy ending s' := by
  simp only [uthreadStep] at hstep
  split at hstep
  case h_1 | h_2 => cases hstep
  case h_3 left hphase =>
    cases hstep
    exact h.setPhase (.inr rfl) (by simp [hphase]) (by simp) (by simp [hphase, Phase.isFinished])
      (by simp) (by simp [hphase, Phase.settled]) (by simp [Phase.settled])
  case h_4 left hphase =>
    cases hstep
    exact h.setPhase (.inl rfl) (by simp [hphase]) (by simp) (by simp [hphase, Phase.isFinished])
      (by simp) (by simp [hphase, Phase.settled]) (by simp [Phase.settled])
  case h_5 hphase =>
    split at hstep
    · cases hstep
      refine h.setPhase (.inl rfl) (by simp [hphase]) (by simp)
        (by simp [hphase, Phase.isFinished]) ?_ (by simp [hphase, Phase.settled])
        (by simp [Phase.settled])
      rintro _ ⟨⟩
      rfl
    · cases hstep
      exact h.setPhase (.inl rfl) (by simp [hphase]) (by simp)
        (by simp [hphase, Phase.isFinished]) (by simp) (by simp [hphase, Phase.settled])
        (fun _ => .inr rfl)
  case h_6 v hphase =>
    cases hstep
    cases h.setting v hphase
    have hliving := h.living (by simp [hphase]) (by simp [hphase, Phase.isFinished])
    refine { h with
      queued := by simp
      living := fun _ _ => hliving
      held := fun _ _ => hliving
      sawResult := ?_
      setting := by simp
      before := by simp [Phase.settled]
      value := ?_
      exception := by simp }
    · intro hjoined
      have hfinished := h.sawResult hjoined
      rw [hphase] at hfinished
      cases hfinished
    · rintro _ ⟨⟩ _
      rfl
  case h_7 exception hphase =>
    cases hstep
    exact h.setPhase (.inr rfl) (by simp [hphase]) (by simp) (by simp [hphase, Phase.isFinished])
      (by simp) (fun _ => rfl) (fun _ => .inl (by simp [hphase, Phase.settled]))

theorem start (h : Inv policy ending s) (hphase : s.phase = .queued) :
    Inv policy ending { s with
      phase := .running suspensions
      host := .constructing
      alive := true
      promiseRef := s.promiseRef + 1 } := by
  rcases h.queued hphase with ⟨hhost, halive⟩
  have hcount := h.promiseRef
  refine { h with
    promiseRef := ?_
    queued := by simp
    living := fun _ _ => rfl
    held := fun _ _ => rfl
    sawResult := by simp
    setting := by simp
    before := fun _ => h.before (by rw [hphase]; rfl)
    value := by simp [Phase.settled] }
  rw [hcount, hhost, halive]
  simp [closureRefs]

/-- A uthread that has been started and has not finished has its copy of the promise. -/
theorem alive_or_settled (h : Inv policy ending s) (hhost : s.host ≠ .none) :
    s.alive = true ∨ s.phase.settled = true := by
  cases hfinished : s.phase.isFinished with
  | true => exact .inr (Phase.settled_of_finished hfinished)
  | false => exact .inl (h.living (fun hqueued => hhost (h.queued hqueued).1) hfinished)

/-- The host is somewhere else. -/
theorem setHost (h : Inv policy ending s) {host : Host} {alive : Bool} {extra : Nat}
    (hhost : s.host ≠ .none)
    (hcount : closureRefs policy s.host + s.alive.toNat =
      closureRefs policy host + alive.toNat + extra)
    (hliving : s.phase.isFinished = false → alive = true)
    (hheld : host.handedOver = false → alive = true)
    (hjoined : host = .joined true → s.phase.isFinished = true) :
    Counted policy ending extra { s with host := host, alive := alive } :=
  { h with
    promiseRef := h.promiseRef.trans hcount
    queued := fun hqueued => absurd (h.queued hqueued).1 hhost
    living := fun _ hunfinished => hliving hunfinished
    held := fun _ hnot => hheld hnot
    sawResult := hjoined }

theorem host (h : Inv policy ending s) (hstep : step policy suspensions ending s .host = some s') :
    Inv policy ending s' := by
  simp only [step] at hstep
  split at hstep
  case h_1 hhost =>
    cases hstep
    have halive := h.held (by simp [hhost]) (by simp [hhost, Host.handedOver])
    refine h.setHost (by simp [hhost]) ?_ (fun _ => halive) (fun _ => halive) ?_
    · simp [hhost, closureRefs]
    · simp
  case h_2 hhost =>
    cases hstep
    refine h.setHost (by simp [hhost]) ?_ ?_ (by simp [Host.handedOver]) (by simp)
    · simp [hhost, closureRefs]
    · intro hunfinished
      exact h.living (fun hqueued => by simp [(h.queued hqueued).1] at hhost) hunfinished
  case h_3 hhost =>
    cases hstep
    have halive := h.held (by simp [hhost]) (by simp [hhost, Host.handedOver])
    have hfinished := h.sawResult hhost
    have hcounted : Counted policy ending 1 { s with host := .ended, alive := false } := by
      refine h.setHost (by simp [hhost]) ?_ ?_ (by simp [Host.handedOver]) (by simp)
      · simp [hhost, halive, closureRefs]
      · simp [hfinished]
    exact hcounted.detachPromise fun _ => Phase.settled_of_finished hfinished
  case h_4 => cases hstep

theorem step (h : Inv policy ending s) {l : Label}
    (hstep : UthreadAsync.step policy suspensions ending s l = some s') :
    Inv policy ending s' := by
  cases l with
  | start =>
      simp only [UthreadAsync.step] at hstep
      split at hstep <;> cases hstep
      case h_1 hphase => exact h.start hphase
  | uthread => exact h.uthread hstep
  | host => exact h.host hstep
  | closure =>
      simp only [UthreadAsync.step] at hstep
      split at hstep <;> cases hstep
      case h_1 hhost =>
        have hcounted : Counted .schedule ending 1
            { s with host := .released, alive := s.alive } := by
          refine h.setHost (by simp [hhost]) ?_ ?_ (by simp [Host.handedOver]) (by simp)
          · simp [hhost, closureRefs]
            omega
          · intro hunfinished
            exact h.living (fun hqueued => by simp [(h.queued hqueued).1] at hhost) hunfinished
        refine hcounted.detachPromise fun hone => ?_
        -- the uthread has the other copy unless it has finished
        have hcount := h.promiseRef
        rcases h.alive_or_settled (by simp [hhost]) with halive | hsettled
        · simp [hhost, halive, closureRefs] at hcount
          simp only at hone
          omega
        · exact hsettled
  | destroy =>
      simp only [UthreadAsync.step, Bool.and_eq_true] at hstep
      split at hstep <;> cases hstep
      next hguard =>
        rcases hguard with ⟨⟨halive, hfinished⟩, hhandedOver⟩
        have hcounted : Counted policy ending 1 { s with host := s.host, alive := false } := by
          refine h.setHost ?_ ?_ ?_ ?_ h.sawResult
          · intro hnone
            simp [hnone, Host.handedOver] at hhandedOver
          · simp [halive]
          · simp [hfinished]
          · simp [hhandedOver]
        exact hcounted.detachPromise fun _ => Phase.settled_of_finished hfinished

theorem run (h : Inv policy ending s) {ls : List Label}
    (hrun : (machine policy suspensions ending).run s ls = some s') : Inv policy ending s' :=
  (machine policy suspensions ending).run_invariant (fun _ _ _ h hstep => h.step hstep) h hrun

end Inv

/-! ## A value is always delivered -/

/-- Steps up to the end of {lit}`func_`. -/
def Phase.rank (suspensions : Nat) : Phase ε T → Nat
  | .queued => 2 * suspensions + 4
  | .running left => 2 * left + 2
  | .suspended left => 2 * left + 3
  | .setValue _ => 1
  | .ended _ | .finished => 0

/-- A uthread whose function returns comes nearer to the end of {lit}`func_`. -/
theorem exists_step {v : T.Inner} (hnot : s.phase.settled = false) :
    ∃ l s', step policy suspensions (.value v) s l = some s' ∧
      s'.phase.rank suspensions < s.phase.rank suspensions := by
  cases hphase : s.phase with
  | queued =>
      refine ⟨.start, _, by simp only [step, hphase]; rfl, ?_⟩
      simp [Phase.rank]
  | running left =>
      cases left with
      | zero | succ left =>
          refine ⟨.uthread, _, by simp only [step, uthreadStep, hphase]; rfl, ?_⟩
          simp only [Phase.rank]
          omega
  | suspended left =>
      refine ⟨.uthread, _, by simp only [step, uthreadStep, hphase]; rfl, ?_⟩
      simp [Phase.rank]
  | setValue w =>
      refine ⟨.uthread, _, by simp only [step, uthreadStep, hphase]; rfl, ?_⟩
      simp [Phase.rank]
  | ended exception | finished =>
      rw [hphase] at hnot
      cases hnot

theorem Inv.exists_value {v : T.Inner} (h : Inv policy (.value v) s) :
    ∃ ks t, (machine policy suspensions (.value v)).run s ks = some t ∧ t.result = .value v := by
  have hprogress : ∀ s : State ε T, Inv policy (.value v) s → ¬ s.phase.settled = true →
      ∃ l s', True ∧ (machine policy suspensions (.value v)).step s l = some s' ∧
        Inv policy (.value v) s' ∧ s'.phase.rank suspensions < s.phase.rank suspensions := by
    intro s hs hnot
    rcases exists_step (Bool.eq_false_iff.mpr hnot) with ⟨l, s', hstep, hlt⟩
    exact ⟨l, s', trivial, hstep, hs.step hstep, hlt⟩
  rcases Machine.exists_run_of_measure _ (fun _ => True)
    (fun s : State ε T => s.phase.rank suspensions) hprogress h with ⟨ks, t, -, hrun, ht, hsettled⟩
  exact ⟨ks, t, hrun, ht.value v rfl hsettled⟩

end

/-- A scheduled function throws at once. -/
def throwsAtOnce : List Label :=
  [.start, .uthread, .uthread, .host, .host, .closure]

end UthreadAsync

end AsyncSimple
