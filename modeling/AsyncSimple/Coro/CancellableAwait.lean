import AsyncSimple.Coro.EmplaceRace
import AsyncSimple.Future.HandOffPart

/-!
# Awaiting a future that can be cancelled

{lit}`FutureAwaiter::await_suspend_cancellable` at the granularity of its atomic
operations.  The future is moved to the heap and {lit}`future_` gets a ready one with
{lit}`SignalException`.  Then a handler is put into the slot and a continuation is
attached to the shared state; both hold one flag, and the first that takes it continues
the coroutine.  The continuation writes {lit}`future_` before.

The parties are the thread inside {lit}`await_suspend`, the promise side of the shared
state with the tasks its executor has accepted, the continuation, the emission of
{lit}`Terminate` with the handler it runs, the executor of the {lit}`Lazy`, and the
coroutine, which may finish and destroy the awaiter as soon as it has continued.  A
continuation that is executed in place is a party of its own here, so that every order
of its steps and those of its caller is covered.  The executor of the {lit}`Lazy` takes
the handles that it is given.

Main results:

- Theorem {lit}`Inv.step`: what every step keeps.
- Theorem {lit}`continues_once`: the coroutine continues exactly once, with the outcome
  that the flag decides, and the loser neither writes nor resumes.
-/

namespace AsyncSimple

open Transition Signal FutureState

namespace CancellableAwait

variable {ε α : Type}

/-- What the awaiter finds: the manager and a handler from before in the slot, a chained
signal, the executor of the {lit}`Lazy`, and the executor, context and force flag of the
shared state.  {lit}`setForceSched` needs an executor. -/
structure Config where
  manager : Bool
  earlierHandler : Bool
  chained : Bool
  lazyExecutor : Bool
  executor : Option Nat
  context : Option Nat
  forceSched : Bool
deriving DecidableEq, Repr

/-- The slot before {lit}`Terminate` is emitted; its filter admits it. -/
def Config.slot (cfg : Config) : TerminateSlot Handler Unit where
  state := false
  filter := true
  manager := cfg.manager || cfg.earlierHandler
  cell := if cfg.earlierHandler then .handler .earlier else .null
  chainedSignal := if cfg.chained then some () else none
  visit := .notCalled

/-- {lit}`_forceSched` of the shared state. -/
def Config.forced (cfg : Config) : Bool :=
  cfg.forceSched && cfg.executor.isSome

/-- The two sides that compete for the flag. -/
inductive Party where
  | promise
  | terminate
deriving DecidableEq, Repr

/-- What {lit}`future_` holds. -/
inductive Held (ε α : Type) where
  | sharedState
  | localState (t : Try ε α)

/-- Program points of {lit}`await_ready` and {lit}`await_suspend`. -/
inductive MainPc where
  | ready
  /-- before the future is moved to the heap -/
  | takeAway
  | emplace (pc : CallPc Handler)
  | setContinuation
  /-- {lit}`await_ready` was true -/
  | notSuspended
  | returned (value : Bool)
  | aborted
deriving DecidableEq, Repr

/-- Program points of the continuation of the shared state. -/
inductive CallbackPc where
  | notRun
  | exchange
  | putBack
  | resume
  | ended
deriving DecidableEq, Repr

/-- Program points of the cancel handler. -/
inductive HandlerPc where
  | notRun
  | resume
  | ended
deriving DecidableEq, Repr

/-- The coroutine: suspended, before {lit}`await_resume`, after it, and finished with the
awaiter destroyed. -/
inductive CoroPc (ε α : Type) where
  | suspended
  | awaitResume
  | resumed (outcome : Try ε α)
  | destroyed (outcome : Try ε α)

structure State (ε α : Type) where
  slot : TerminateSlot Handler Unit
  handOff : System Unit ε α Unit
  main : MainPc
  callback : CallbackPc
  handler : HandlerPc
  coro : CoroPc ε α
  future : Held ε α
  /-- the flag -/
  flag : Bool
  /-- who has taken the flag -/
  winner : Option Party
  /-- handles that the executor of the {lit}`Lazy` holds -/
  queue : Nat
  /-- how often the coroutine has continued -/
  continued : Nat
  /-- who has assigned {lit}`future_` after the thread that suspends -/
  writes : List Party
  /-- who has resumed the coroutine or handed it to the executor -/
  resumes : List Party

def State.initial (cfg : Config) : State ε α where
  slot := cfg.slot
  handOff := System.initial (configured cfg.executor cfg.context cfg.forced)
  main := .ready
  callback := .notRun
  handler := .notRun
  coro := .suspended
  future := .sharedState
  flag := true
  winner := none
  queue := 0
  continued := 0
  writes := []
  resumes := []

/-- The coroutine goes on. -/
def State.continues (s : State ε α) : State ε α :=
  { s with coro := .awaitResume, continued := s.continued + 1 }

/-- {lit}`ex->checkin(continuation, ctx)` or {lit}`continuation.resume()`. -/
def State.resume (cfg : Config) (s : State ε α) (p : Party) : State ε α :=
  let s' := { s with resumes := p :: s.resumes }
  if cfg.lazyExecutor then { s' with queue := s'.queue + 1 } else s'.continues

@[simp]
theorem State.resume_handler (cfg : Config) (s : State ε α) (p : Party) :
    (s.resume cfg p).handler = s.handler := by
  unfold State.resume
  split <;> rfl

@[simp]
theorem State.resume_callback (cfg : Config) (s : State ε α) (p : Party) :
    (s.resume cfg p).callback = s.callback := by
  unfold State.resume
  split <;> rfl

/-- {lit}`state->exchange(false)`. -/
def State.exchange (s : State ε α) (p : Party) : State ε α :=
  { s with flag := false, winner := if s.flag then some p else s.winner }

/-- One step of the thread that suspends. -/
def mainStep (signalException : ε) (s : State ε α) : Option (State ε α) :=
  match s.main with
  | .notSuspended | .returned _ | .aborted => none
  | .ready =>
      if s.handOff.shared.fs.state.hasResult then
        some { s.continues with main := .notSuspended }
      else
        some { s with main := .takeAway }
  | .takeAway =>
      some { s with
        main := .emplace (.emplaceLookup .cancel)
        future := .localState (.error signalException) }
  | .emplace pc =>
      let after := s.slot.callStep pc
      let s' := { s with slot := after.1 }
      match after.2 with
      | .at pc => some { s' with main := .emplace pc }
      | .returns true => some { s' with main := .setContinuation }
      | .returns false => some { s'.continues with main := .returned false }
      | .aborts => some { s' with main := .aborted }
  | .setContinuation =>
      if s.handOff.attacher = .returned then some { s with main := .returned true } else none

/-- One step of the continuation. -/
def callbackStep (cfg : Config) (s : State ε α) : Option (State ε α) :=
  match s.callback with
  | .notRun | .ended => none
  | .exchange =>
      some { s.exchange .promise with callback := if s.flag then .putBack else .ended }
  | .putBack =>
      some { s with
        future := .sharedState
        writes := .promise :: s.writes
        callback := .resume }
  | .resume => some { s.resume cfg .promise with callback := .ended }

/-- One step of the emission and of the handlers it runs. -/
def emissionStep (cfg : Config) (s : State ε α) : Option (State ε α) :=
  match s.slot.visit with
  | .transfer _ found => some { s with slot := { s.slot with visit := .walk found } }
  | .call (.handler .cancel) =>
      match s.handler with
      | .notRun =>
          some { s.exchange .terminate with handler := if s.flag then .resume else .ended }
      | .resume => some { s.resume cfg .terminate with handler := .ended }
      | .ended => some { s with slot := { s.slot with visit := .passed true } }
  | .call _ => some { s with slot := { s.slot with visit := .passed true } }
  | _ => s.slot.visitStep.map fun slot => { s with slot := slot }

/-- {lit}`await_resume`: {lit}`std::move(future_.value())`. -/
def State.value (s : State ε α) : Try ε α :=
  match s.future with
  | .sharedState => s.handOff.shared.fs.tryValue
  | .localState t => t

/-- One step of the coroutine. -/
def coroStep (s : State ε α) : Option (State ε α) :=
  match s.coro with
  | .suspended | .destroyed _ => none
  | .awaitResume => some { s with coro := .resumed s.value }
  | .resumed outcome => some { s with coro := .destroyed outcome }

inductive Label where
  | main
  | callback
  | coro
  /-- a move on the shared state -/
  | handOff (l : FutureState.Label Unit)
  | emits
  | emission
  /-- the executor of the {lit}`Lazy` runs a handle -/
  | executor
deriving DecidableEq, Repr

/-- {lit}`setContinuation` is called at one place. -/
def State.allows (s : State ε α) : FutureState.Label Unit → Bool
  | .setContinuation _ => s.main = .setContinuation
  | _ => true

/-- The continuation starts when the hand-off invokes it. -/
def callbackAfter (s : State ε α) (handOff : System Unit ε α Unit) : CallbackPc :=
  if handOff.shared.invoked.length = s.handOff.shared.invoked.length then s.callback
  else .exchange

def step (signalException : ε) (v : Try ε α) (cfg : Config) (s : State ε α) :
    Label → Option (State ε α)
  | .main => mainStep signalException s
  | .callback => callbackStep cfg s
  | .coro => coroStep s
  | .handOff l =>
      if s.allows l then
        (FutureState.step (fun _ => v) () s.handOff l).map fun handOff =>
          { s with handOff := handOff, callback := callbackAfter s handOff }
      else
        none
  | .emits => s.slot.emits.map fun slot => { s with slot := slot }
  | .emission => emissionStep cfg s
  | .executor =>
      match s.queue with
      | 0 => none
      | n + 1 => some { s.continues with queue := n }

/-- One {lit}`co_await` of a future whose promise gets the result {lit}`v`. -/
def machine (signalException : ε) (v : Try ε α) (cfg : Config) : Machine (State ε α) Label where
  step := step signalException v cfg

/-! ## The invariant -/

/-- The call of {lit}`emplace` as the program point shows it. -/
def MainPc.emplacing : MainPc → Emplacing
  | .ready | .takeAway | .notSuspended | .aborted => .before
  | .emplace pc => .at pc
  | .setContinuation | .returned true => .accepted
  | .returned false => .refused

/-- The handler is in the slot, and the continuation is attached or will be. -/
def MainPc.armed (main : MainPc) : Bool :=
  main.emplacing = .accepted

def CallbackPc.owes : CallbackPc → Nat
  | .putBack | .resume => 1
  | _ => 0

def HandlerPc.owes : HandlerPc → Nat
  | .resume => 1
  | _ => 0

/-- What the program points of the continuation say about the flag. -/
def CallbackPc.Agrees (winner : Option Party) : CallbackPc → Prop
  | .notRun | .exchange => winner ≠ some .promise
  | .putBack | .resume => winner = some .promise
  | .ended => winner ≠ none

/-- What the program points of the handler say about the flag. -/
def HandlerPc.Agrees (winner : Option Party) : HandlerPc → Prop
  | .notRun => winner ≠ some .terminate
  | .resume => winner = some .terminate
  | .ended => winner ≠ none

/-- How often the coroutine has to continue, from what has happened so far. -/
def due (winner : Option Party) : MainPc → Nat
  | .ready | .takeAway | .emplace _ | .aborted => 0
  | .notSuspended | .returned false => 1
  | .setContinuation | .returned true => if winner.isSome then 1 else 0

/-- What {lit}`future_` holds. -/
def heldBy (signalException : ε) (winner : Option Party) (callback : CallbackPc) :
    MainPc → Held ε α
  | .ready | .takeAway | .notSuspended => .sharedState
  | .emplace _ | .returned false | .aborted => .localState (.error signalException)
  | .setContinuation | .returned true =>
      if winner = some .promise ∧ callback ≠ .putBack then .sharedState
      else .localState (.error signalException)

/-- What {lit}`await_resume` is expected to yield. -/
def State.expected (signalException : ε) (v : Try ε α) (s : State ε α) : Try ε α :=
  if s.main = .notSuspended ∨ s.winner = some .promise then v else .error signalException

/-- Where the parties are. -/
structure Parts (v : Try ε α) (cfg : Config) (s : State ε α) : Prop where
  slot : EmplaceInv s.slot s.main.emplacing
  handOff : HandOffInv v () cfg.executor cfg.forced s.handOff
  notAborted : s.main ≠ .aborted
  unattached : s.main.armed = false → s.handOff.attacher = .check
  attached : s.main = .returned true → s.handOff.attacher = .returned
  notRun_iff : s.callback = .notRun ↔ s.handOff.shared.invoked = []
  handlerAt : s.handler ≠ .notRun →
    s.slot.visit = .call (.handler .cancel) ∨ s.slot.visit = .passed true ∧ s.main.armed = true
  handlerEnded : s.slot.visit = .passed true → s.main.armed = true → s.handler = .ended

/-- The competition for the flag and what comes of it. -/
structure Race (s : State ε α) : Prop where
  flag_iff : s.flag = true ↔ s.winner = none
  callback : s.callback.Agrees s.winner
  handler : s.handler.Agrees s.winner
  tokens : s.continued + s.queue + s.callback.owes + s.handler.owes = due s.winner s.main
  suspended_iff : s.coro = .suspended ↔ s.continued = 0
  writes : ∀ p ∈ s.writes, p = .promise ∧ s.winner = some .promise
  resumes : ∀ p ∈ s.resumes, s.winner = some p

/-- What the coroutine finds. -/
structure Result (signalException : ε) (v : Try ε α) (s : State ε α) : Prop where
  future : s.future = heldBy signalException s.winner s.callback s.main
  ready : s.main = .notSuspended → s.handOff.shared.fs.state.hasResult = true
  outcome : ∀ outcome, s.coro = .resumed outcome ∨ s.coro = .destroyed outcome →
    outcome = s.expected signalException v

structure Inv (signalException : ε) (v : Try ε α) (cfg : Config) (s : State ε α) : Prop where
  parts : Parts v cfg s
  race : Race s
  result : Result signalException v s

namespace Inv

variable {signalException : ε} {v : Try ε α} {cfg : Config} {s s' : State ε α}

theorem initial : Inv signalException v cfg (State.initial cfg) := by
  refine ⟨⟨?_, HandOffInv.initial v () _ _ _, by simp [State.initial], fun _ => rfl,
    by simp [State.initial], ⟨fun _ => rfl, fun _ => rfl⟩, by simp [State.initial],
    by simp [State.initial, Config.slot]⟩, ?_, ?_⟩
  · constructor <;> simp [State.initial, Config.slot, MainPc.emplacing, Emplacing.Knows,
      CollectAny.Admitted, CollectAny.Marked, CollectAny.Found, CollectAny.Missed]
    · cases cfg.earlierHandler <;> simp
    · cases cfg.earlierHandler <;> simp
  · constructor <;> simp [State.initial, CallbackPc.Agrees, HandlerPc.Agrees, CallbackPc.owes,
      HandlerPc.owes, due]
  · constructor <;> simp [State.initial, heldBy]

/-- Nobody has taken the flag before both parties can come to it. -/
theorem winner_eq_none (h : Inv signalException v cfg s) (harmed : s.main.armed = false) :
    s.winner = none := by
  cases hwinner : s.winner with
  | none => rfl
  | some p =>
      cases p with
      | promise =>
          have hcallback := h.race.callback
          have hrun : s.callback = .notRun := by
            refine h.parts.notRun_iff.mpr (h.parts.handOff.not_invoked ?_)
            rw [h.parts.unattached harmed]
            rfl
          rw [hrun, hwinner] at hcallback
          exact absurd rfl hcallback
      | terminate =>
          have hhandler := h.race.handler
          have hrun : s.handler ≠ .notRun := by
            intro hnot
            rw [hnot, hwinner] at hhandler
            exact hhandler rfl
          rcases h.parts.handlerAt hrun with hvisit | ⟨-, hpassed⟩
          · have haccepted := h.parts.slot.cancel (.inr hvisit)
            rw [MainPc.armed, decide_eq_false_iff_not] at harmed
            exact absurd haccepted harmed
          · rw [harmed] at hpassed
            cases hpassed

/-- Before that neither the continuation nor the handler has run. -/
theorem notRun (h : Inv signalException v cfg s) (harmed : s.main.armed = false) :
    s.callback = .notRun ∧ s.handler = .notRun := by
  have hwinner := h.winner_eq_none harmed
  have hcallback := h.race.callback
  have hhandler := h.race.handler
  constructor
  · refine h.parts.notRun_iff.mpr (h.parts.handOff.not_invoked ?_)
    rw [h.parts.unattached harmed]
    rfl
  · cases hpc : s.handler with
    | notRun => rfl
    | resume | ended =>
        rw [hpc, hwinner] at hhandler
        simp [HandlerPc.Agrees] at hhandler

/-- Once one of them has run, both can come to the flag. -/
theorem armed_of_run (h : Inv signalException v cfg s)
    (hrun : s.callback ≠ .notRun ∨ s.handler ≠ .notRun) : s.main.armed = true := by
  by_contra hnot
  rcases h.notRun (by simpa using hnot) with ⟨hcallback, hhandler⟩
  rcases hrun with hne | hne
  · exact hne hcallback
  · exact hne hhandler

theorem cases_of_armed {main : MainPc} (harmed : main.armed = true) :
    main = .setContinuation ∨ main = .returned true := by
  cases main with
  | setContinuation => exact .inl rfl
  | returned value =>
      cases value with
      | true => exact .inr rfl
      | false => cases harmed
  | _ => cases harmed

theorem due_armed {main : MainPc} (harmed : main.armed = true) (winner : Option Party) :
    due winner main = if winner.isSome then 1 else 0 := by
  rcases cases_of_armed harmed with rfl | rfl
  · rfl
  · rfl

theorem heldBy_armed {main : MainPc} (harmed : main.armed = true) (winner : Option Party)
    (callback : CallbackPc) : (heldBy signalException winner callback main : Held ε α) =
      if winner = some .promise ∧ callback ≠ .putBack then .sharedState
      else .localState (.error signalException) := by
  rcases cases_of_armed harmed with rfl | rfl
  · rfl
  · rfl

theorem ne_notSuspended_of_armed {main : MainPc} (harmed : main.armed = true) :
    main ≠ .notSuspended := by
  rintro rfl
  cases harmed

/-- As long as somebody owes it, the coroutine has not continued. -/
theorem suspended_of_owes (h : Inv signalException v cfg s)
    (howes : s.main.armed = true ∧ (s.winner = none ∨ 1 ≤ s.callback.owes + s.handler.owes)) :
    s.coro = .suspended := by
  refine h.race.suspended_iff.mpr ?_
  have htokens := h.race.tokens
  rw [due_armed howes.1] at htokens
  rcases howes.2 with hnone | hone
  · rw [hnone] at htokens
    simp at htokens
    omega
  · split at htokens <;> omega

/-! ## The thread that suspends -/

/-- The thread is still on its way, and nothing has happened. -/
theorem fresh (h : Inv signalException v cfg s) (harmed : s.main.armed = false)
    (hdue : due none s.main = 0) : s.winner = none ∧ s.callback = .notRun ∧
      s.handler = .notRun ∧ s.queue = 0 ∧ s.continued = 0 ∧ s.coro = .suspended := by
  have hwinner := h.winner_eq_none harmed
  rcases h.notRun harmed with ⟨hcallback, hhandler⟩
  have htokens := h.race.tokens
  rw [hwinner, hdue] at htokens
  have hcontinued : s.continued = 0 := by omega
  exact ⟨hwinner, hcallback, hhandler, by omega, hcontinued,
    h.race.suspended_iff.mpr hcontinued⟩

/-- The thread moves on; the coroutine stays suspended or continues. -/
theorem setMain (h : Inv signalException v cfg s) (main : MainPc) {future : Held ε α}
    {slot : TerminateSlot Handler Unit} (harmed : s.main.armed = false)
    (hdue : due none s.main = 0) (hslot : EmplaceInv slot main.emplacing)
    (hhandler : slot.visit = .passed true → main.armed = false) (hmain : main ≠ .aborted)
    (hreturned : main ≠ .returned true)
    (hfuture : future = heldBy signalException none .notRun main)
    (hready : main = .notSuspended → s.handOff.shared.fs.state.hasResult = true) :
    Inv signalException v cfg (if due none main = 0 then
        { s with slot := slot, main := main, future := future }
      else { s.continues with slot := slot, main := main, future := future }) := by
  rcases h.fresh harmed hdue with ⟨hwinner, hcallback, hnotRun, hqueue, hcontinued, hcoro⟩
  have hparts : Parts v cfg { s with slot := slot, main := main, future := future } :=
    { h.parts with
      slot := hslot
      notAborted := hmain
      unattached := fun _ => h.parts.unattached harmed
      attached := fun heq => absurd heq hreturned
      handlerAt := fun hrun => absurd hnotRun hrun
      handlerEnded := fun hvisit harmed' => by
        rw [hhandler hvisit] at harmed'
        cases harmed' }
  have hfuture' : future = heldBy signalException s.winner s.callback main := by
    rw [hwinner, hcallback, hfuture]
  split
  · next hzero =>
      refine ⟨hparts, { h.race with tokens := ?_ }, ⟨hfuture', hready, ?_⟩⟩
      · simp [hwinner, hcallback, hnotRun, hqueue, hcontinued, hzero, CallbackPc.owes,
          HandlerPc.owes]
      · simp [hcoro]
  · next hone =>
      refine ⟨⟨hparts.slot, hparts.handOff, hparts.notAborted, hparts.unattached,
        hparts.attached, hparts.notRun_iff, hparts.handlerAt, hparts.handlerEnded⟩,
        { h.race with tokens := ?_, suspended_iff := by simp [State.continues] },
        ⟨hfuture', hready, by simp [State.continues]⟩⟩
      have hdue' : due none main = 1 := by
        revert hone
        cases main with
        | returned value => cases value <;> simp [due]
        | _ => simp [due]
      simp [State.continues, hwinner, hcallback, hnotRun, hqueue, hcontinued, hdue',
        CallbackPc.owes, HandlerPc.owes]

theorem main (h : Inv signalException v cfg s) (hstep : mainStep signalException s = some s') :
    Inv signalException v cfg s' := by
  simp only [mainStep] at hstep
  split at hstep
  · cases hstep
  · cases hstep
  · cases hstep
  · next hmain =>
      have harmed : s.main.armed = false := by rw [hmain]; rfl
      have hdue : due none s.main = 0 := by rw [hmain]; rfl
      have hfuture := h.result.future
      rw [h.winner_eq_none harmed, (h.notRun harmed).1, hmain] at hfuture
      have hslot := h.parts.slot
      rw [hmain] at hslot
      split at hstep
      · next hresult =>
          cases hstep
          exact h.setMain .notSuspended harmed hdue hslot (fun _ => rfl) (by simp)
            (by simp) hfuture (fun _ => hresult)
      · cases hstep
        exact h.setMain .takeAway harmed hdue hslot (fun _ => rfl) (by simp) (by simp)
          hfuture (by simp)
  · next hmain =>
      cases hstep
      have hslot := h.parts.slot
      rw [hmain] at hslot
      exact h.setMain (.emplace (.emplaceLookup .cancel)) (by rw [hmain]; rfl)
        (by rw [hmain]; rfl) (hslot.setCall trivial (by simp [MainPc.emplacing]))
        (fun _ => rfl) (by simp) (by simp) rfl (by simp)
  · next pc hmain =>
      have harmed : s.main.armed = false := by rw [hmain]; rfl
      have hdue : due none s.main = 0 := by rw [hmain]; rfl
      have hfuture := h.result.future
      rw [h.winner_eq_none harmed, (h.notRun harmed).1, hmain] at hfuture
      have hslot := h.parts.slot
      rw [hmain] at hslot
      rcases hslot.emplace with ⟨next, hnext, hslot', haccepted⟩
      split at hstep
      · next pc' hat =>
          cases hstep
          rw [hat] at hnext
          cases hnext
          exact h.setMain (.emplace pc') harmed hdue hslot' (fun _ => rfl) (by simp)
            (by simp) hfuture (by simp)
      · next hat =>
          cases hstep
          rw [hat] at hnext
          cases hnext
          refine h.setMain .setContinuation harmed hdue hslot' ?_ (by simp) (by simp)
            hfuture (by simp)
          -- a cell with the handler has not been marked
          intro hpassed
          have hmarked := hslot'.marked.mpr (by rw [hpassed]; rfl)
          rw [haccepted rfl] at hmarked
          cases hmarked
      · next hat =>
          cases hstep
          rw [hat] at hnext
          cases hnext
          exact h.setMain (.returned false) harmed hdue hslot' (fun _ => rfl) (by simp)
            (by simp) hfuture (by simp)
      · next hat =>
          rw [hat] at hnext
          cases hnext
  · next hmain =>
      split at hstep
      · next hreturned =>
          cases hstep
          have hsame : s.main.emplacing = MainPc.emplacing (.returned true) := by rw [hmain]; rfl
          have harmed : s.main.armed = true := by rw [hmain]; rfl
          refine ⟨{ h.parts with
            slot := hsame ▸ h.parts.slot
            notAborted := by simp
            unattached := by simp [MainPc.armed, MainPc.emplacing]
            attached := fun _ => hreturned
            handlerAt := fun hrun => (h.parts.handlerAt hrun).imp id fun hp => ⟨hp.1, rfl⟩
            handlerEnded := fun hp _ => h.parts.handlerEnded hp harmed },
            { h.race with tokens := ?_ }, ⟨?_, by simp, ?_⟩⟩
          · have htokens := h.race.tokens
            rwa [hmain] at htokens
          · have hfuture := h.result.future
            rwa [hmain] at hfuture
          · have houtcome := h.result.outcome
            simpa [State.expected, hmain] using houtcome
      · cases hstep

/-! ## The flag -/

/-- The coroutine is resumed by the party that has won and owes it. -/
theorem resume (h : Inv signalException v cfg s) {p : Party} (callback : CallbackPc)
    (handler : HandlerPc) (hwinner : s.winner = some p) (harmed : s.main.armed = true)
    (howes : s.callback.owes + s.handler.owes = callback.owes + handler.owes + 1)
    (hcallback : callback.Agrees s.winner) (hhandler : handler.Agrees s.winner)
    (hnotRun : callback = .notRun ↔ s.callback = .notRun)
    (hputBack : callback = .putBack ↔ s.callback = .putBack)
    (hat : handler ≠ .notRun → s.slot.visit = .call (.handler .cancel) ∨
      s.slot.visit = .passed true ∧ s.main.armed = true)
    (hended : s.slot.visit = .passed true → s.main.armed = true → handler = .ended) :
    Inv signalException v cfg { s.resume cfg p with callback := callback, handler := handler } := by
  have htokens := h.race.tokens
  have hresumes : ∀ q ∈ p :: s.resumes, s.winner = some q := by
    intro q hq
    rcases List.mem_cons.mp hq with rfl | hq
    · exact hwinner
    · exact h.race.resumes q hq
  have hfuture : s.future = heldBy signalException s.winner callback s.main := by
    rw [h.result.future, heldBy_armed harmed, heldBy_armed harmed]
    simp only [ne_eq, hputBack]
  simp only [State.resume]
  split
  · refine ⟨{ h.parts with
        notRun_iff := hnotRun.trans h.parts.notRun_iff
        handlerAt := hat
        handlerEnded := hended },
      { h.race with
        callback := hcallback
        handler := hhandler
        tokens := ?_
        resumes := hresumes },
      { h.result with future := hfuture }⟩
    simp only
    omega
  · refine ⟨{ h.parts with
        notRun_iff := hnotRun.trans h.parts.notRun_iff
        handlerAt := hat
        handlerEnded := hended },
      { h.race with
        callback := hcallback
        handler := hhandler
        tokens := ?_
        suspended_iff := by simp [State.continues]
        resumes := hresumes },
      { h.result with future := hfuture, outcome := by simp [State.continues] }⟩
    simp only [State.continues]
    omega

/-- The flag is taken; the party that takes it owes the resumption. -/
theorem win (h : Inv signalException v cfg s) {p : Party} (callback : CallbackPc)
    (handler : HandlerPc) (hnone : s.winner = none) (harmed : s.main.armed = true)
    (howes : callback.owes + handler.owes = 1) (hcallback : callback.Agrees (some p))
    (hhandler : handler.Agrees (some p)) (hnotRun : callback = .notRun ↔ s.callback = .notRun)
    (hputBack : p = .promise → callback = .putBack)
    (hat : handler ≠ .notRun → s.slot.visit = .call (.handler .cancel) ∨
      s.slot.visit = .passed true ∧ s.main.armed = true)
    (hended : s.slot.visit = .passed true → s.main.armed = true → handler = .ended) :
    Inv signalException v cfg
      { s with flag := false, winner := some p, callback := callback, handler := handler } := by
  have hsuspended := h.suspended_of_owes ⟨harmed, .inl hnone⟩
  have htokens := h.race.tokens
  rw [due_armed harmed, hnone] at htokens
  refine ⟨{ h.parts with
      notRun_iff := hnotRun.trans h.parts.notRun_iff
      handlerAt := hat
      handlerEnded := hended },
    ⟨by simp, hcallback, hhandler, ?_, h.race.suspended_iff, ?_, ?_⟩, ⟨?_, h.result.ready, ?_⟩⟩
  · rw [due_armed harmed]
    simp only [Option.isSome_none, Bool.false_eq_true, if_false, Option.isSome_some,
      if_true] at htokens ⊢
    omega
  · intro q hq
    have hwrites := (h.race.writes q hq).2
    rw [hnone] at hwrites
    cases hwrites
  · intro q hq
    have hresumes := h.race.resumes q hq
    rw [hnone] at hresumes
    cases hresumes
  · rw [h.result.future, heldBy_armed harmed, heldBy_armed harmed, hnone]
    cases p with
    | promise => simp [hputBack rfl]
    | terminate => simp
  · simp [hsuspended]

/-- The flag has been taken before; the party that comes second is done. -/
theorem lose (h : Inv signalException v cfg s) (callback : CallbackPc) (handler : HandlerPc)
    (hsome : s.winner ≠ none) (harmed : s.main.armed = true)
    (howes : callback.owes + handler.owes = s.callback.owes + s.handler.owes)
    (hcallback : callback.Agrees s.winner) (hhandler : handler.Agrees s.winner)
    (hnotRun : callback = .notRun ↔ s.callback = .notRun)
    (hputBack : s.winner = some .promise → (callback = .putBack ↔ s.callback = .putBack))
    (hat : handler ≠ .notRun → s.slot.visit = .call (.handler .cancel) ∨
      s.slot.visit = .passed true ∧ s.main.armed = true)
    (hended : s.slot.visit = .passed true → s.main.armed = true → handler = .ended) :
    Inv signalException v cfg
      { s with flag := false, callback := callback, handler := handler } := by
  have htokens := h.race.tokens
  refine ⟨{ h.parts with
      notRun_iff := hnotRun.trans h.parts.notRun_iff
      handlerAt := hat
      handlerEnded := hended },
    { h.race with
      flag_iff := by simp [hsome]
      callback := hcallback
      handler := hhandler
      tokens := by simp only; omega },
    { h.result with future := ?_ }⟩
  rw [h.result.future, heldBy_armed harmed, heldBy_armed harmed]
  by_cases hpromise : s.winner = some .promise
  · simp only [ne_eq, hputBack hpromise]
  · simp [hpromise]

/-- Who finds the flag set, and who does not. -/
theorem winner_of_flag (h : Inv signalException v cfg s) :
    (s.flag = true → s.winner = none) ∧ (s.flag = false → s.winner ≠ none) := by
  refine ⟨h.race.flag_iff.mp, fun hflag hnone => ?_⟩
  rw [h.race.flag_iff.mpr hnone] at hflag
  cases hflag

theorem callbackMoves (h : Inv signalException v cfg s) (hstep : callbackStep cfg s = some s') :
    Inv signalException v cfg s' := by
  have hagrees := h.race.callback
  simp only [callbackStep] at hstep
  split at hstep
  · cases hstep
  · cases hstep
  · next hpc =>
      cases hstep
      have harmed := h.armed_of_run (.inl (by rw [hpc]; simp))
      cases hflag : s.flag with
      | true =>
          have hnone := h.winner_of_flag.1 hflag
          have hhandler : s.handler = .notRun := by
            have hhandler := h.race.handler
            rw [hnone] at hhandler
            cases hs : s.handler <;> rw [hs] at hhandler <;> simp_all [HandlerPc.Agrees]
          have hnext := h.win .putBack s.handler hnone harmed (by rw [hhandler]; rfl) rfl
            (by rw [hhandler]; simp [HandlerPc.Agrees]) (by rw [hpc]; simp) (fun _ => rfl)
            h.parts.handlerAt h.parts.handlerEnded
          simpa [State.exchange, hflag] using hnext
      | false =>
          have hsome := h.winner_of_flag.2 hflag
          rw [hpc] at hagrees
          have hnext := h.lose .ended s.handler hsome harmed (by rw [hpc]; rfl) hsome
            h.race.handler (by rw [hpc]; simp) (fun hwinner => absurd hwinner hagrees)
            h.parts.handlerAt h.parts.handlerEnded
          simpa [State.exchange, hflag] using hnext
  · next hpc =>
      cases hstep
      have harmed := h.armed_of_run (.inl (by rw [hpc]; simp))
      have htokens := h.race.tokens
      have hnotRun := h.parts.notRun_iff
      rw [hpc] at hagrees htokens hnotRun
      have hwinner : s.winner = some .promise := hagrees
      refine ⟨{ h.parts with
          notRun_iff := ⟨by simp, fun hnone => absurd (hnotRun.mpr hnone) (by simp)⟩ },
        { h.race with
          callback := hwinner
          tokens := htokens
          writes := ?_ },
        { h.result with future := ?_ }⟩
      · intro p hp
        rcases List.mem_cons.mp hp with rfl | hp
        · exact ⟨rfl, hwinner⟩
        · exact h.race.writes p hp
      · rw [heldBy_armed harmed]
        simp [hwinner]
  · next hpc =>
      cases hstep
      rw [hpc] at hagrees
      have hwinner : s.winner = some .promise := hagrees
      have hnext := h.resume .ended s.handler hwinner
        (h.armed_of_run (.inl (by rw [hpc]; simp))) (by rw [hpc]; simp [CallbackPc.owes]; omega)
        (by rw [hwinner]; simp [CallbackPc.Agrees]) h.race.handler (by rw [hpc]; simp)
        (by rw [hpc]; simp) h.parts.handlerAt h.parts.handlerEnded
      simpa only [State.resume_handler] using hnext

/-! ## The emission -/

/-- The emission moves and the handler does not. -/
theorem setSlot (h : Inv signalException v cfg s) {slot : TerminateSlot Handler Unit}
    (hslot : EmplaceInv slot s.main.emplacing)
    (hat : s.handler ≠ .notRun → slot.visit = .call (.handler .cancel) ∨
      slot.visit = .passed true ∧ s.main.armed = true)
    (hended : slot.visit = .passed true → s.main.armed = true → s.handler = .ended) :
    Inv signalException v cfg { s with slot := slot } :=
  ⟨{ h.parts with slot := hslot, handlerAt := hat, handlerEnded := hended },
    { h.race with }, { h.result with }⟩

/-- Before the emission has come to a handler, the cancel handler has not run. -/
theorem handler_notRun (h : Inv signalException v cfg s)
    (hcall : s.slot.visit ≠ .call (.handler .cancel))
    (hpassed : s.slot.visit ≠ .passed true) : s.handler = .notRun := by
  by_contra hrun
  rcases h.parts.handlerAt hrun with hvisit | ⟨hvisit, -⟩
  · exact hcall hvisit
  · exact hpassed hvisit

theorem emits (h : Inv signalException v cfg s) {slot : TerminateSlot Handler Unit}
    (hemits : s.slot.emits = some slot) : Inv signalException v cfg { s with slot := slot } := by
  have hslot := h.parts.slot.emits hemits
  unfold TerminateSlot.emits at hemits
  split at hemits
  · next hvisit =>
      cases hemits
      have hnotRun := h.handler_notRun (by rw [hvisit]; simp) (by rw [hvisit]; simp)
      exact h.setSlot hslot (fun hrun => absurd hnotRun hrun) (by simp)
  · cases hemits

theorem emission (h : Inv signalException v cfg s) (hstep : emissionStep cfg s = some s') :
    Inv signalException v cfg s' := by
  simp only [emissionStep] at hstep
  split at hstep
  · next child found hvisit =>
      cases hstep
      have hnotRun := h.handler_notRun (by rw [hvisit]; simp) (by rw [hvisit]; simp)
      exact h.setSlot (h.parts.slot.transferred hvisit) (fun hrun => absurd hnotRun hrun)
        (by simp)
  · next hvisit =>
      have harmed : s.main.armed = true := decide_eq_true (h.parts.slot.cancel (.inr hvisit))
      have hagrees := h.race.handler
      split at hstep
      · next hpc =>
          cases hstep
          cases hflag : s.flag with
          | true =>
              have hnone := h.winner_of_flag.1 hflag
              have hcallback := h.race.callback
              have hnext := h.win (p := .terminate) s.callback .resume hnone harmed
                (by rw [hnone] at hcallback; cases hs : s.callback <;> rw [hs] at hcallback <;>
                  simp_all [CallbackPc.Agrees, CallbackPc.owes, HandlerPc.owes])
                (by rw [hnone] at hcallback; cases hs : s.callback <;> rw [hs] at hcallback <;>
                  simp_all [CallbackPc.Agrees])
                rfl Iff.rfl (by simp) (fun _ => .inl hvisit) (by rw [hvisit]; simp)
              simpa [State.exchange, hflag] using hnext
          | false =>
              have hsome := h.winner_of_flag.2 hflag
              have hnext := h.lose s.callback .ended hsome harmed (by rw [hpc]; rfl)
                h.race.callback hsome Iff.rfl (fun _ => Iff.rfl) (fun _ => .inl hvisit)
                (fun _ _ => rfl)
              simpa [State.exchange, hflag] using hnext
      · next hpc =>
          cases hstep
          rw [hpc] at hagrees
          have hwinner : s.winner = some .terminate := hagrees
          have hnext := h.resume s.callback .ended hwinner harmed
            (by rw [hpc]; simp [HandlerPc.owes]) h.race.callback
            (by rw [hwinner]; simp [HandlerPc.Agrees]) Iff.rfl Iff.rfl (fun _ => .inl hvisit)
            (fun _ _ => rfl)
          simpa only [State.resume_callback] using hnext
      · next hpc =>
          cases hstep
          exact h.setSlot (h.parts.slot.called hvisit) (fun _ => .inr ⟨rfl, harmed⟩)
            (fun _ _ => hpc)
  · next taken hother hvisit =>
      cases hstep
      -- an installed handler would have been taken out
      have hunarmed : s.main.armed ≠ true := by
        intro harmed
        have haccepted := of_decide_eq_true harmed
        have hslot := h.parts.slot
        rw [haccepted] at hslot
        rcases hslot.knows with ⟨-, -, hcell | hcall | hpassed⟩
        · have htag := hslot.marked.mpr (by rw [hvisit]; trivial)
          rw [hcell] at htag
          cases htag
        · rw [hvisit, VisitPc.call.injEq] at hcall
          exact hother hcall
        · rw [hvisit] at hpassed
          cases hpassed
      refine h.setSlot (h.parts.slot.called hvisit) ?_ (fun _ harmed => absurd harmed hunarmed)
      intro hrun
      exact absurd (h.armed_of_run (.inr hrun)) hunarmed
  · next hnotTransfer hnotCancel hnotCall =>
      rw [Option.map_eq_some_iff] at hstep
      rcases hstep with ⟨slot, hvisit, rfl⟩
      have hpassed : s.slot.visit ≠ .passed true := by
        intro hpassed
        simp [TerminateSlot.visitStep, hpassed] at hvisit
      have hnotRun := h.handler_notRun (fun hcall => hnotCancel hcall) hpassed
      refine h.setSlot (h.parts.slot.visitStep hvisit) (fun hrun => absurd hnotRun hrun) ?_
      intro hpassed' harmed
      have hslot := h.parts.slot
      rw [of_decide_eq_true harmed] at hslot
      exact absurd hpassed' (hslot.visitStep_ne_passed hvisit)

/-! ## The shared state, the executor and the coroutine -/

/-- The hand-off invokes the continuation or leaves it alone. -/
theorem callbackAfter_eq (h : Inv signalException v cfg s) {l : FutureState.Label Unit}
    {handOff : System Unit ε α Unit}
    (hstep : FutureState.step (fun _ => v) () s.handOff l = some handOff) :
    handOff.shared.invoked = s.handOff.shared.invoked ∧ callbackAfter s handOff = s.callback ∨
      s.callback = .notRun ∧ handOff.shared.invoked ≠ [] ∧
        callbackAfter s handOff = .exchange := by
  rcases h.parts.handOff.invoked_step hstep with hsame | ⟨hnone, honce⟩
  · exact .inl ⟨hsame, by simp [callbackAfter, hsame]⟩
  · exact .inr ⟨h.parts.notRun_iff.mpr hnone, by simp [honce],
      by simp [callbackAfter, hnone, honce]⟩

theorem handOffMoves (h : Inv signalException v cfg s) {l : FutureState.Label Unit}
    (hallows : s.allows l = true) {handOff : System Unit ε α Unit}
    (hstep : FutureState.step (fun _ => v) () s.handOff l = some handOff) :
    Inv signalException v cfg
      { s with handOff := handOff, callback := callbackAfter s handOff } := by
  have hattacher : s.main ≠ .setContinuation → handOff.attacher = s.handOff.attacher := by
    intro hmain
    rcases step_attacher hstep with hsame | ⟨answer, rfl⟩
    · exact hsame
    · exact absurd (of_decide_eq_true hallows) hmain
  have hunattached : s.main.armed = false → handOff.attacher = .check := by
    intro harmed
    rw [hattacher (by rintro hmain; rw [hmain] at harmed; cases harmed), h.parts.unattached harmed]
  have hattached : s.main = .returned true → handOff.attacher = .returned := by
    intro hmain
    rw [hattacher (by rw [hmain]; simp), h.parts.attached hmain]
  have hready := fun hmain => step_hasResult hstep (h.result.ready hmain)
  rcases h.callbackAfter_eq hstep with ⟨hinvoked, hcallback⟩ | ⟨hnotRun, hinvoked, hcallback⟩
  · rw [hcallback]
    exact ⟨{ h.parts with
        handOff := h.parts.handOff.step hstep
        unattached := hunattached
        attached := hattached
        notRun_iff := by rw [hinvoked]; exact h.parts.notRun_iff },
      { h.race with }, { h.result with ready := hready }⟩
  · have hagrees := h.race.callback
    have htokens := h.race.tokens
    have hfuture := h.result.future
    rw [hnotRun] at hagrees htokens hfuture
    rw [hcallback]
    refine ⟨{ h.parts with
        handOff := h.parts.handOff.step hstep
        unattached := hunattached
        attached := hattached
        notRun_iff := iff_of_false (by simp) hinvoked },
      { h.race with callback := hagrees, tokens := htokens },
      { h.result with ready := hready, future := ?_ }⟩
    rw [hfuture]
    cases hmain : s.main with
    | returned value => cases value <;> simp [heldBy]
    | _ => simp [heldBy]

/-- The coroutine that has continued finds what is expected. -/
theorem value_eq (h : Inv signalException v cfg s) (hcontinued : s.coro ≠ .suspended) :
    s.value = s.expected signalException v := by
  have hone : s.continued ≠ 0 := fun hzero => hcontinued (h.race.suspended_iff.mpr hzero)
  have htokens := h.race.tokens
  have hfuture := h.result.future
  cases harmed : s.main.armed with
  | true =>
      rw [due_armed harmed] at htokens
      rw [heldBy_armed harmed] at hfuture
      have hne := ne_notSuspended_of_armed harmed
      by_cases hwinner : s.winner = some .promise
      · have hcallback := h.race.callback
        have hended : s.callback = .ended := by
          rw [hwinner] at htokens hcallback
          cases hs : s.callback <;> rw [hs] at htokens hcallback <;>
            simp [CallbackPc.owes, CallbackPc.Agrees] at htokens hcallback ⊢ <;> omega
        have hinvoked : s.handOff.shared.invoked ≠ [] := fun hnone => by
          rw [h.parts.notRun_iff.mpr hnone] at hended
          cases hended
        have hdone := h.parts.handOff.done_of_invoked hinvoked
        have hvalue := h.parts.handOff.tryValue_of_done hdone
        simp [State.value, State.expected, hfuture, hwinner, hended, hvalue]
      · simp [State.value, State.expected, hfuture, hwinner, hne]
  | false =>
      have hwinner := h.winner_eq_none harmed
      have hnone : ∀ main : MainPc, s.main = main → due none main = 0 → False := by
        intro main hmain hdue
        rw [hwinner, hmain, hdue] at htokens
        omega
      cases hmain : s.main with
      | notSuspended =>
          have hvalue := h.parts.handOff.tryValue_of_hasResult (h.result.ready hmain)
          rw [hmain] at hfuture
          simp [State.value, State.expected, hfuture, heldBy, hmain, hvalue]
      | returned value =>
          cases value with
          | true => rw [hmain] at harmed; cases harmed
          | false =>
              rw [hmain] at hfuture
              simp [State.value, State.expected, hfuture, heldBy, hmain, hwinner]
      | setContinuation => rw [hmain] at harmed; cases harmed
      | ready | takeAway | emplace pc | aborted => exact (hnone _ hmain rfl).elim

theorem coroMoves (h : Inv signalException v cfg s) (hstep : coroStep s = some s') :
    Inv signalException v cfg s' := by
  simp only [coroStep] at hstep
  split at hstep
  · cases hstep
  · cases hstep
  · next hcoro =>
      cases hstep
      have hne : s.coro ≠ .suspended := by rw [hcoro]; simp
      have hiff := h.race.suspended_iff
      refine ⟨{ h.parts with }, { h.race with suspended_iff := ?_ },
        { h.result with outcome := ?_ }⟩
      · exact iff_of_false (by simp) fun hzero => hne (hiff.mpr hzero)
      · rintro outcome (heq | heq)
        · cases heq
          exact h.value_eq hne
        · cases heq
  · next outcome hcoro =>
      cases hstep
      have hne : s.coro ≠ .suspended := by rw [hcoro]; simp
      have hiff := h.race.suspended_iff
      refine ⟨{ h.parts with }, { h.race with suspended_iff := ?_ },
        { h.result with outcome := ?_ }⟩
      · exact iff_of_false (by simp) fun hzero => hne (hiff.mpr hzero)
      · rintro outcome' (heq | heq)
        · cases heq
        · cases heq
          exact h.result.outcome outcome (.inl hcoro)

theorem executorMoves (h : Inv signalException v cfg s) {n : Nat} (hqueue : s.queue = n + 1) :
    Inv signalException v cfg { s.continues with queue := n } := by
  have htokens := h.race.tokens
  refine ⟨{ h.parts with },
    { h.race with tokens := ?_, suspended_iff := by simp [State.continues] },
    { h.result with outcome := by simp [State.continues] }⟩
  simp only [State.continues]
  omega

theorem step {l : Label} (h : Inv signalException v cfg s)
    (hstep : CancellableAwait.step signalException v cfg s l = some s') :
    Inv signalException v cfg s' := by
  cases l with
  | main => exact h.main hstep
  | callback => exact h.callbackMoves hstep
  | coro => exact h.coroMoves hstep
  | handOff l =>
      simp only [CancellableAwait.step, Option.ite_none_right_eq_some,
        Option.map_eq_some_iff] at hstep
      rcases hstep with ⟨hallows, handOff, hmove, rfl⟩
      exact h.handOffMoves hallows hmove
  | emits =>
      simp only [CancellableAwait.step, Option.map_eq_some_iff] at hstep
      rcases hstep with ⟨slot, hemits, rfl⟩
      exact h.emits hemits
  | emission => exact h.emission hstep
  | executor =>
      simp only [CancellableAwait.step] at hstep
      split at hstep
      · cases hstep
      · next n hqueue =>
          cases hstep
          exact h.executorMoves hqueue

end Inv

/-! ## The coroutine continues -/

/-- {lit}`await_suspend` has returned, the promise side is done or the emission has passed
the slot, and nobody is about to resume the coroutine. -/
structure Settled (s : State ε α) : Prop where
  main : s.main = .notSuspended ∨ ∃ value, s.main = .returned value
  event : s.handOff.setter () = .returned ∧ s.handOff.shared.pending = 0 ∨
    ∃ marked, s.slot.visit = .passed marked
  callback : s.callback = .notRun ∨ s.callback = .ended
  handler : s.handler ≠ .resume
  queue : s.queue = 0

def MainPc.rank : MainPc → Nat
  | .ready => 9
  | .takeAway => 8
  | .emplace pc => pc.remaining + 3
  | .setContinuation => 2
  | .notSuspended | .returned _ | .aborted => 0

def CallbackPc.rank : CallbackPc → Nat
  | .notRun => 5
  | .exchange => 4
  | .putBack => 3
  | .resume => 2
  | .ended => 0

def HandlerPc.rank : HandlerPc → Nat
  | .notRun => 3
  | .resume => 2
  | .ended => 0

/-- Steps until the coroutine continues. -/
def State.rank (s : State ε α) : Nat :=
  s.handOff.rank + s.main.rank + s.callback.rank + s.handler.rank + s.queue

namespace Inv

variable {signalException : ε} {v : Try ε α} {cfg : Config} {s s' : State ε α}

theorem continued_le_one (h : Inv signalException v cfg s) : s.continued ≤ 1 := by
  have htokens := h.race.tokens
  have hdue : due s.winner s.main ≤ 1 := by
    cases s.main with
    | setContinuation =>
        simp only [due]
        split <;> omega
    | returned value =>
        cases value with
        | true =>
            simp only [due]
            split <;> omega
        | false => exact Nat.le_refl 1
    | _ => simp [due]
  omega

/-- When an event has been dealt with, somebody has taken the flag. -/
theorem winner_ne_none (h : Inv signalException v cfg s) (hmain : s.main = .returned true)
    (hevent : s.callback ≠ .notRun ∨ s.slot.visit ≠ .passed true → s.callback = .ended) :
    s.winner ≠ none := by
  by_cases hpassed : s.slot.visit = .passed true ∧ s.callback = .notRun
  · have hhandler := h.race.handler
    rw [h.parts.handlerEnded hpassed.1 (by rw [hmain]; rfl)] at hhandler
    exact hhandler
  · have hcallback := h.race.callback
    have hended : s.callback = .ended := by
      refine hevent ?_
      by_cases hnotRun : s.callback = .notRun
      · exact .inr fun hvisit => hpassed ⟨hvisit, hnotRun⟩
      · exact .inl hnotRun
    rw [hended] at hcallback
    exact hcallback

theorem continued_of_settled (h : Inv signalException v cfg s) (hsettled : Settled s) :
    s.continued = 1 := by
  have htokens := h.race.tokens
  have howes : s.callback.owes = 0 ∧ s.handler.owes = 0 := by
    constructor
    · rcases hsettled.callback with hpc | hpc <;> rw [hpc] <;> rfl
    · have hne := hsettled.handler
      cases hpc : s.handler with
      | resume => exact absurd hpc hne
      | notRun | ended => rfl
  rw [hsettled.queue, howes.1, howes.2] at htokens
  rcases hsettled.main with hmain | ⟨value, hmain⟩
  · rw [hmain] at htokens
    exact htokens
  · rw [hmain] at htokens
    cases value with
    | false => exact htokens
    | true =>
        have hwinner : s.winner ≠ none := by
          refine h.winner_ne_none hmain ?_
          intro hrun
          rcases hsettled.callback with hnotRun | hended
          · rcases hsettled.event with ⟨hsetter, hpending⟩ | ⟨marked, hpassed⟩
            · have hinvoked := h.parts.handOff.invoked_of_completed
                ⟨hsetter, h.parts.attached hmain, hpending⟩
              rw [h.parts.notRun_iff.mp hnotRun] at hinvoked
              cases hinvoked
            · -- the emission has found the handler
              have hslot := h.parts.slot
              rw [hmain] at hslot
              rcases hslot.knows with ⟨-, hmissed, -⟩
              rw [hpassed] at hmissed hrun
              cases marked with
              | true => exact absurd hnotRun (hrun.resolve_right (by simp))
              | false => exact absurd rfl hmissed
          · exact hended
        have hdue : due s.winner (.returned true) = 1 := by
          cases hw : s.winner with
          | none => exact absurd hw hwinner
          | some p => rfl
        omega

/-! ### Progress -/

theorem rank_resume (cfg : Config) (s : State ε α) (p : Party) :
    (s.resume cfg p).queue ≤ s.queue + 1 ∧ (s.resume cfg p).handOff = s.handOff ∧
      (s.resume cfg p).main = s.main := by
  unfold State.resume
  split
  · exact ⟨Nat.le_refl _, rfl, rfl⟩
  · exact ⟨Nat.le_succ _, rfl, rfl⟩

/-- A move of the hand-off comes closer to the end when it does so for the two calls. -/
theorem exists_step_of_handOff (h : Inv signalException v cfg s) {l : FutureState.Label Unit}
    (hallows : s.allows l = true) {handOff : System Unit ε α Unit}
    (hstep : FutureState.step (fun _ => v) () s.handOff l = some handOff)
    (hrank : handOff.rank < s.handOff.rank) :
    ∃ l s', CancellableAwait.step signalException v cfg s l = some s' ∧ s'.rank < s.rank := by
  refine ⟨.handOff l, { s with handOff := handOff, callback := callbackAfter s handOff }, ?_, ?_⟩
  · simp [CancellableAwait.step, hallows, hstep]
  · rcases h.callbackAfter_eq hstep with ⟨-, hcallback⟩ | ⟨hnotRun, -, hcallback⟩
    · simp only [State.rank, hcallback]
      omega
    · simp only [State.rank, hcallback, hnotRun, CallbackPc.rank]
      omega

/-- Scheduling is forced only with an executor. -/
theorem forced_executor (cfg : Config) : cfg.forced = true → cfg.executor ≠ none := by
  intro hforced hnone
  simp [Config.forced, hnone] at hforced

theorem exists_step_main (h : Inv signalException v cfg s)
    (hmain : s.main ≠ .notSuspended ∧ ∀ value, s.main ≠ .returned value) :
    ∃ l s', CancellableAwait.step signalException v cfg s l = some s' ∧ s'.rank < s.rank := by
  cases hpc : s.main with
  | ready =>
      refine ⟨.main, ?_⟩
      simp only [CancellableAwait.step, mainStep, hpc]
      split
      · refine ⟨_, rfl, ?_⟩
        simp only [State.rank, State.continues, hpc, MainPc.rank]
        omega
      · refine ⟨_, rfl, ?_⟩
        simp only [State.rank, hpc, MainPc.rank]
        omega
  | takeAway =>
      refine ⟨.main, _, by simp only [CancellableAwait.step, mainStep, hpc]; rfl, ?_⟩
      simp only [State.rank, hpc, MainPc.rank, CallPc.remaining]
      omega
  | emplace pc =>
      refine ⟨.main, ?_⟩
      simp only [CancellableAwait.step, mainStep, hpc]
      split
      · next pc' hat =>
          have hlt := TerminateSlot.callStep_remaining hat
          refine ⟨_, rfl, ?_⟩
          simp only [State.rank, hpc, MainPc.rank]
          omega
      · refine ⟨_, rfl, ?_⟩
        simp only [State.rank, hpc, MainPc.rank]
        omega
      · refine ⟨_, rfl, ?_⟩
        simp only [State.rank, State.continues, hpc, MainPc.rank]
        omega
      · refine ⟨_, rfl, ?_⟩
        simp only [State.rank, hpc, MainPc.rank]
        omega
  | setContinuation =>
      by_cases hreturned : s.handOff.attacher = .returned
      · refine ⟨.main, { s with main := .returned true }, ?_, ?_⟩
        · simp [CancellableAwait.step, mainStep, hpc, hreturned]
        · simp only [State.rank, hpc, MainPc.rank]
          omega
      · rcases h.parts.handOff.exists_setContinuation (forced_executor cfg) hreturned
          ⟨false, false⟩ with ⟨handOff, hmove, hlt⟩
        exact h.exists_step_of_handOff (by simp [State.allows, hpc]) hmove hlt
  | notSuspended => exact absurd hpc hmain.1
  | returned value => exact absurd hpc (hmain.2 value)
  | aborted => exact absurd hpc h.parts.notAborted

theorem exists_step_callback (hpc : s.callback ≠ .notRun ∧ s.callback ≠ .ended) :
    ∃ l s', CancellableAwait.step signalException v cfg s l = some s' ∧ s'.rank < s.rank := by
  refine ⟨.callback, ?_⟩
  simp only [CancellableAwait.step, callbackStep]
  split
  · next hnotRun => exact absurd hnotRun hpc.1
  · next hended => exact absurd hended hpc.2
  · next hexchange =>
      refine ⟨_, rfl, ?_⟩
      cases hflag : s.flag with
      | true =>
          simp only [State.rank, State.exchange, hexchange, hflag, if_true, CallbackPc.rank]
          omega
      | false =>
          simp only [State.rank, State.exchange, hexchange, hflag, Bool.false_eq_true, if_false,
            CallbackPc.rank]
          omega
  · next hputBack =>
      refine ⟨_, rfl, ?_⟩
      simp only [State.rank, hputBack, CallbackPc.rank]
      omega
  · next hresume =>
      refine ⟨_, rfl, ?_⟩
      rcases rank_resume cfg s .promise with ⟨hqueue, hhandOff, hmain⟩
      simp only [State.rank, State.resume_handler, hhandOff, hmain, hresume, CallbackPc.rank]
      omega

/-- The handler that has won is run by the emission. -/
theorem exists_step_handler (h : Inv signalException v cfg s) (hpc : s.handler = .resume) :
    ∃ l s', CancellableAwait.step signalException v cfg s l = some s' ∧ s'.rank < s.rank := by
  have hvisit : s.slot.visit = .call (.handler .cancel) := by
    rcases h.parts.handlerAt (by rw [hpc]; simp) with hvisit | ⟨hpassed, harmed⟩
    · exact hvisit
    · rw [h.parts.handlerEnded hpassed harmed] at hpc
      cases hpc
  refine ⟨.emission, _, by simp only [CancellableAwait.step, emissionStep, hvisit, hpc]; rfl, ?_⟩
  rcases rank_resume cfg s .terminate with ⟨hqueue, hhandOff, hmain⟩
  simp only [State.rank, State.resume_callback, hhandOff, hmain, hpc, HandlerPc.rank]
  omega

theorem exists_step_executor (hqueue : s.queue ≠ 0) :
    ∃ l s', CancellableAwait.step signalException v cfg s l = some s' ∧ s'.rank < s.rank := by
  rcases Nat.exists_eq_succ_of_ne_zero hqueue with ⟨n, hn⟩
  refine ⟨.executor, _, by simp only [CancellableAwait.step, hn]; rfl, ?_⟩
  simp only [State.rank, State.continues, hn]
  omega

theorem exists_step (h : Inv signalException v cfg s) (hsuspended : s.coro = .suspended) :
    ∃ l s', CancellableAwait.step signalException v cfg s l = some s' ∧ s'.rank < s.rank := by
  by_cases hqueue : s.queue = 0
  swap
  · exact exists_step_executor hqueue
  by_cases hhandler : s.handler = .resume
  · exact h.exists_step_handler hhandler
  by_cases hcallback : s.callback ≠ .notRun ∧ s.callback ≠ .ended
  · exact exists_step_callback hcallback
  by_cases hmain : s.main ≠ .notSuspended ∧ ∀ value, s.main ≠ .returned value
  · exact h.exists_step_main hmain
  -- the promise side comes last
  rcases h.parts.handOff.settled_or_exists_step (forced_executor cfg) with
    hevent | ⟨l, handOff, hl, hmove, hlt⟩
  swap
  · exact h.exists_step_of_handOff (by rcases hl with rfl | rfl <;> rfl) hmove hlt
  have hsettled : Settled s := by
    refine ⟨?_, .inl hevent, ?_, hhandler, hqueue⟩
    · by_cases hnotSuspended : s.main = .notSuspended
      · exact .inl hnotSuspended
      · simp only [ne_eq, hnotSuspended, not_false_eq_true, true_and, not_forall, not_not] at hmain
        exact .inr hmain
    · by_cases hnotRun : s.callback = .notRun
      · exact .inl hnotRun
      · simp only [ne_eq, hnotRun, not_false_eq_true, true_and, not_not] at hcallback
        exact .inr hcallback
  have hone := h.continued_of_settled hsettled
  rw [h.race.suspended_iff.mp hsuspended] at hone
  cases hone

/-- Every run can be continued until the coroutine has its outcome. -/
theorem exists_outcome (h : Inv signalException v cfg s) :
    ∃ ks s' outcome, (machine signalException v cfg).run s ks = some s' ∧
      (s'.coro = .resumed outcome ∨ s'.coro = .destroyed outcome) := by
  have hprogress : ∀ s, Inv signalException v cfg s → ¬ s.coro ≠ .suspended →
      ∃ l s', True ∧ (machine signalException v cfg).step s l = some s' ∧
        Inv signalException v cfg s' ∧ s'.rank < s.rank := by
    intro s hs hnot
    rcases hs.exists_step (not_not.mp hnot) with ⟨l, s', hstep, hlt⟩
    exact ⟨l, s', trivial, hstep, hs.step hstep, hlt⟩
  rcases Machine.exists_run_of_measure _ (fun _ => True) State.rank hprogress h with
    ⟨ks, s', -, hrun, -, hcontinued⟩
  cases hcoro : s'.coro with
  | suspended => exact absurd hcoro hcontinued
  | awaitResume =>
      refine ⟨ks ++ [.coro], { s' with coro := .resumed s'.value }, s'.value, ?_, .inl rfl⟩
      refine Machine.run_append _ hrun ((Machine.run_cons_eq_some _).mpr ⟨_, ?_, rfl⟩)
      simp [machine, CancellableAwait.step, coroStep, hcoro]
  | resumed outcome => exact ⟨ks, s', outcome, hrun, .inl hcoro⟩
  | destroyed outcome => exact ⟨ks, s', outcome, hrun, .inr hcoro⟩

end Inv

/-- For every slot that admits {lit}`Terminate`, every result of the promise and every
interleaving of the {lit}`co_await`, the fulfilment and the emission: the coroutine continues
at most once, and has continued once when it has been dealt with the fulfilment or with the
emission; what {lit}`await_resume` yields is decided by the flag; only the winner writes
{lit}`future_` or resumes, and it writes while the coroutine is suspended and the awaiter
alive; no assertion fails; and the coroutine can always come to its outcome. -/
theorem continues_once (signalException : ε) (v : Try ε α) (cfg : Config) (ls : List Label)
    (s : State ε α)
    (hrun : (machine signalException v cfg).run (State.initial cfg) ls = some s) :
    s.continued ≤ 1 ∧ (Settled s → s.continued = 1) ∧
      (∀ outcome, s.coro = .resumed outcome ∨ s.coro = .destroyed outcome →
        outcome = if s.main = .notSuspended ∨ s.winner = some .promise then v
          else .error signalException) ∧
      (∀ p ∈ s.writes, p = .promise ∧ s.winner = some p) ∧
      (∀ p ∈ s.resumes, s.winner = some p) ∧
      (s.callback = .putBack → s.coro = .suspended) ∧
      (s.main ≠ .aborted ∧ ∀ e, s.handOff.attacher ≠ .threw e) ∧
      ∃ ks s' outcome, (machine signalException v cfg).run s ks = some s' ∧
        (s'.coro = .resumed outcome ∨ s'.coro = .destroyed outcome) := by
  have h : Inv signalException v cfg s :=
    Machine.run_invariant _ (fun _ _ _ h hstep => h.step hstep) Inv.initial hrun
  refine ⟨h.continued_le_one, h.continued_of_settled, h.result.outcome, ?_, h.race.resumes, ?_,
    ⟨h.parts.notAborted, h.parts.handOff.attacher_ne_threw⟩, h.exists_outcome⟩
  · intro p hp
    rcases h.race.writes p hp with ⟨rfl, hwinner⟩
    exact ⟨rfl, hwinner⟩
  · intro hputBack
    refine h.suspended_of_owes ⟨h.armed_of_run (.inl (by rw [hputBack]; simp)), .inr ?_⟩
    rw [hputBack]
    simp [CallbackPc.owes]

/-- A fresh slot, no executors. -/
def plainConfig : Config where
  manager := false
  earlierHandler := false
  chained := false
  lazyExecutor := false
  executor := none
  context := none
  forceSched := false

/-- {lit}`Terminate` is emitted while {lit}`await_suspend` attaches the continuation; the
coroutine finishes and the awaiter is destroyed before that call returns, and the promise is
fulfilled afterwards. -/
def cancelledMeanwhile : List Label :=
  List.replicate 6 .main ++ [.handOff (.setContinuation ⟨false, false⟩), .emits] ++
    List.replicate 6 .emission ++ [.coro, .coro] ++
    List.replicate 3 (.handOff (.setContinuation ⟨false, false⟩)) ++ [.main, .emission] ++
    List.replicate 7 (.handOff (.setResult () ⟨false, false⟩)) ++ [.callback]

/-- On this run the coroutine has continued once, with the exception. -/
theorem continues_once_cancelledMeanwhile :
    ∃ s, (machine 13 (.value 7 : Try Nat Nat) plainConfig).run (State.initial plainConfig)
        cancelledMeanwhile = some s ∧
      (s.coro = .destroyed (.error 13) ∧ s.main = .returned true ∧ s.callback = .ended ∧
        s.winner = some .terminate) ∧ s.continued = 1 := by
  have hrun : ∃ s, (machine 13 (.value 7 : Try Nat Nat) plainConfig).run
      (State.initial plainConfig) cancelledMeanwhile = some s ∧
      s.coro = .destroyed (.error 13) ∧ s.main = .returned true ∧ s.callback = .ended ∧
        s.winner = some .terminate ∧ s.queue = 0 ∧ s.handler = .ended ∧
        s.slot.visit = .passed true :=
    ⟨_, rfl, rfl, rfl, rfl, rfl, rfl, rfl, rfl⟩
  rcases hrun with ⟨s, hrun, hcoro, hmain, hcallback, hwinner, hqueue, hhandler, hvisit⟩
  refine ⟨s, hrun, ⟨hcoro, hmain, hcallback, hwinner⟩, ?_⟩
  exact (continues_once 13 _ plainConfig cancelledMeanwhile s hrun).2.1
    ⟨.inr ⟨true, hmain⟩, .inr ⟨true, hvisit⟩, .inr hcallback, by rw [hhandler]; simp, hqueue⟩

end CancellableAwait

end AsyncSimple
