import AsyncSimple.Coro.FutureAwaiter

/-!
# Checkout and checkin

An await that leaves its executor calls {lit}`checkout` before it suspends, and the coroutine
comes back through {lit}`checkin` with the context that it got.  Two awaiters of the library do
so.  {lit}`ViaAsyncAwaiter` wraps the handle of the coroutine into a {lit}`ViaCoroutine` and
hands it to an arbitrary awaiter; the wrapper checks in when it is resumed, and
{lit}`await_suspend` itself does when the awaiter does not want to suspend.
{lit}`FutureAwaiter` leaves the context with the continuation of the future and with the cancel
handler.

Two ways out of {lit}`await_suspend` have no checkin: the exception of the awaiter that
{lit}`ViaAsyncAwaiter` wraps, and the slot that refuses the cancel handler of a
{lit}`FutureAwaiter` because {lit}`Terminate` was emitted.

Main results:

- Theorem {lit}`ViaCoroutine.Phase.step` and {lit}`FutureAwaiter.Accounted.step`: whether the
  context is still to be checked in.
- Theorem {lit}`balanced_of_no_early_exit`: the calls are balanced in every run that does not
  take one of the two ways out.
-/

namespace AsyncSimple

open Transition Signal

/-- The calls of {lit}`checkout`, with the contexts they returned, and of {lit}`checkin`, with
the contexts they got; {lit}`none` is {lit}`NULLCTX`. -/
structure Ledger (χ : Type) where
  checkouts : List (Option χ)
  checkins : List (Option χ)
deriving DecidableEq, Repr

namespace Ledger

variable {χ : Type}

def empty : Ledger χ where
  checkouts := []
  checkins := []

def checkout (l : Ledger χ) (ctx : Option χ) : Ledger χ :=
  { l with checkouts := l.checkouts ++ [ctx] }

def checkin (l : Ledger χ) (ctx : Option χ) : Ledger χ :=
  { l with checkins := l.checkins ++ [ctx] }

/-- No checkin without a checkout before it, and one for each when the coroutine has continued
past the await. -/
def Balanced (l : Ledger χ) (continued : Prop) : Prop :=
  l.checkins <+: l.checkouts ∧ (continued → l.checkins = l.checkouts)

theorem Balanced.of_eq {l : Ledger χ} (h : l.checkins = l.checkouts) (continued : Prop) :
    l.Balanced continued :=
  ⟨by rw [h], fun _ => h⟩

theorem Balanced.of_nil {l : Ledger χ} (h : l.checkins = []) {continued : Prop}
    (hsuspended : ¬ continued) : l.Balanced continued :=
  ⟨by rw [h]; exact List.nil_prefix, fun hcontinued => absurd hcontinued hsuspended⟩

end Ledger

/-! ## ViaAsyncAwaiter -/

namespace ViaCoroutine

variable {χ : Type}

/-- What {lit}`await_suspend` of the wrapped awaiter returns. -/
inductive Shape where
  | void
  | bool
  | handle
deriving DecidableEq, Repr

/-- How it ends; a returned handle is the one that it was given, or another one. -/
inductive Ends where
  | void
  | bool (shouldSuspend : Bool)
  | handle (wrapped : Bool)
  | throws
deriving DecidableEq, Repr

def Ends.fits : Ends → Shape → Bool
  | .throws, _ => true
  | .void, .void => true
  | .bool _, .bool => true
  | .handle _, .handle => true
  | _, _ => false

/-- Program points of the thread that awaits. -/
inductive MainPc where
  | ready
  | suspend
  /-- inside {lit}`await_suspend` of the wrapped awaiter -/
  | inside
  | returned
deriving DecidableEq, Repr

/-- {lit}`_ctx` of the promise, whether the awaiter has the wrapped handle to resume, the
continuations that the executor was given, and whether the coroutine is past the await. -/
structure State (χ : Type) where
  main : MainPc
  ctx : Option χ
  usable : Bool
  queue : Nat
  continued : Bool
  ledger : Ledger χ
deriving DecidableEq, Repr

def State.initial : State χ where
  main := .ready
  ctx := none
  usable := false
  queue := 0
  continued := false
  ledger := Ledger.empty

/-- {lit}`getWrappedContinuation`; {lit}`c` is what the executor returns. -/
def State.getWrappedContinuation (s : State χ) (executor : Bool) (c : χ) : State χ :=
  if executor then
    { s with ctx := some c, ledger := s.ledger.checkout (some c), usable := true }
  else
    { s with usable := true }

/-- {lit}`FinalAwaiter::await_suspend` of the wrapper, to which its resumption leads at once. -/
def State.finalSuspend (s : State χ) (executor : Bool) : State χ :=
  if executor then
    { s with ledger := s.ledger.checkin s.ctx, queue := s.queue + 1, usable := false }
  else
    { s with continued := true, usable := false }

/-- {lit}`ViaCoroutine::checkin`, with a function that does nothing. -/
def State.checkin (s : State χ) (executor : Bool) : State χ :=
  if executor then { s with ledger := s.ledger.checkin s.ctx } else s

inductive Label (χ : Type) where
  /-- {lit}`await_ready` of the wrapped awaiter returns -/
  | ready (answer : Bool)
  | suspend (c : χ)
  /-- the wrapped handle is resumed, by whoever got it from the awaiter -/
  | resume
  /-- {lit}`await_suspend` of the wrapped awaiter ends -/
  | ends (e : Ends)
  /-- the executor resumes a continuation -/
  | execute
deriving DecidableEq, Repr

/-- One step.  The awaiter resumes its handle once, and not at all if it declines to suspend or
throws. -/
def step (executor : Bool) (shape : Shape) (s : State χ) : Label χ → Option (State χ)
  | .ready answer =>
      if s.main = .ready then
        if answer then
          some { s with main := .returned, continued := true }
        else
          some { s with main := .suspend }
      else
        none
  | .suspend c =>
      if s.main = .suspend then
        some { s.getWrappedContinuation executor c with main := .inside }
      else
        none
  | .resume => if s.usable then some (s.finalSuspend executor) else none
  | .ends e =>
      if s.main = .inside ∧ e.fits shape = true then
        match e with
        | .void | .bool true | .handle false => some { s with main := .returned }
        | .handle true =>
            if s.usable then
              some { s.finalSuspend executor with main := .returned }
            else
              none
        | .bool false =>
            if s.usable then
              some { s.checkin executor with main := .returned, usable := false, continued := true }
            else
              none
        | .throws =>
            if s.usable then
              some { s with main := .returned, usable := false, continued := true }
            else
              none
      else
        none
  | .execute =>
      if 0 < s.queue then some { s with queue := s.queue - 1, continued := true } else none

/-- One {lit}`co_await` through {lit}`ViaAsyncAwaiter`. -/
def machine (χ : Type) (executor : Bool) (shape : Shape) : Machine (State χ) (Label χ) where
  step := step executor shape

/-- The awaiter does not throw where there is an executor. -/
def noThrow (executor : Bool) (_ : State χ) : Label χ → Bool
  | .ends .throws => !executor
  | _ => true

/-- The calls so far: none, a checkout whose checkin is still to come, or all of them. -/
inductive Phase (executor : Bool) (s : State χ) : Prop where
  | before (hmain : s.main = .ready ∨ s.main = .suspend) (husable : s.usable = false)
      (hqueue : s.queue = 0) (hcontinued : s.continued = false) (hledger : s.ledger = Ledger.empty)
  | outstanding (hmain : s.main = .inside ∨ s.main = .returned) (hqueue : s.queue = 0)
      (hcontinued : s.continued = false) (hcheckins : s.ledger.checkins = [])
      (hcheckouts : s.ledger.checkouts = if executor then [s.ctx] else [])
  | settled (hmain : s.main = .inside ∨ s.main = .returned) (husable : s.usable = false)
      (hledger : s.ledger.checkins = s.ledger.checkouts)

namespace Phase

variable {executor : Bool} {s s' : State χ}

theorem balanced (h : Phase executor s) : s.ledger.Balanced (s.continued = true) := by
  cases h with
  | before _ _ _ hcontinued hledger =>
      exact .of_nil (by rw [hledger]; rfl) (by rw [hcontinued]; simp)
  | outstanding _ _ hcontinued hcheckins =>
      exact .of_nil hcheckins (by rw [hcontinued]; simp)
  | settled _ _ hledger => exact .of_eq hledger _

/-- The handle is usable only while the checkin is still to come. -/
theorem of_usable (h : Phase executor s) (husable : s.usable = true) :
    (s.main = .inside ∨ s.main = .returned) ∧ s.ledger.checkins = [] ∧
      s.ledger.checkouts = if executor then [s.ctx] else [] := by
  cases h with
  | before _ hnot => exact absurd (husable.symm.trans hnot) (by simp)
  | outstanding hmain _ _ hcheckins hcheckouts => exact ⟨hmain, hcheckins, hcheckouts⟩
  | settled _ hnot => exact absurd (husable.symm.trans hnot) (by simp)

/-- The wrapper is resumed. -/
theorem finalSuspend (h : Phase executor s) (husable : s.usable = true) :
    Phase executor (s.finalSuspend executor) := by
  rcases h.of_usable husable with ⟨hmain, hcheckins, hcheckouts⟩
  cases executor with
  | true =>
      exact .settled hmain rfl (by simp [State.finalSuspend, Ledger.checkin, hcheckins, hcheckouts])
  | false => exact .settled hmain rfl (by simp [State.finalSuspend, hcheckins, hcheckouts])

/-- {lit}`await_suspend` returns. -/
theorem returns (h : Phase executor s) (hmain : s.main = .inside ∨ s.main = .returned) :
    Phase executor { s with main := .returned } := by
  cases h with
  | before hmain' => rcases hmain with hmain | hmain <;> simp [hmain] at hmain'
  | outstanding _ hqueue hcontinued hcheckins hcheckouts =>
      exact .outstanding (.inr rfl) hqueue hcontinued hcheckins hcheckouts
  | settled _ husable hledger => exact .settled (.inr rfl) husable hledger

/-- The awaiter declines to suspend. -/
theorem declines (h : Phase executor s) (husable : s.usable = true) :
    Phase executor
      { s.checkin executor with main := .returned, usable := false, continued := true } := by
  rcases h.of_usable husable with ⟨-, hcheckins, hcheckouts⟩
  cases executor with
  | true =>
      exact .settled (.inr rfl) rfl (by simp [State.checkin, Ledger.checkin, hcheckins, hcheckouts])
  | false => exact .settled (.inr rfl) rfl (by simp [State.checkin, hcheckins, hcheckouts])

theorem ends {shape : Shape} {e : Ends} (h : Phase executor s)
    (hnoThrow : noThrow executor s (.ends e) = true)
    (hstep : ViaCoroutine.step executor shape s (.ends e) = some s') : Phase executor s' := by
  simp only [ViaCoroutine.step] at hstep
  split at hstep
  · next hinside =>
      split at hstep
      · cases hstep
        exact h.returns (.inl hinside.1)
      · cases hstep
        exact h.returns (.inl hinside.1)
      · cases hstep
        exact h.returns (.inl hinside.1)
      · rw [Option.ite_none_right_eq_some, Option.some.injEq] at hstep
        rcases hstep with ⟨husable, rfl⟩
        have hmain : (s.finalSuspend executor).main = s.main := by
          cases executor <;> rfl
        exact (h.finalSuspend husable).returns (.inl (hmain.trans hinside.1))
      · rw [Option.ite_none_right_eq_some, Option.some.injEq] at hstep
        rcases hstep with ⟨husable, rfl⟩
        exact h.declines husable
      · rw [Option.ite_none_right_eq_some, Option.some.injEq] at hstep
        rcases hstep with ⟨husable, rfl⟩
        -- nothing was checked out
        have hnone : executor = false := by simpa [noThrow] using hnoThrow
        rcases h.of_usable husable with ⟨-, hcheckins, hcheckouts⟩
        refine .settled (.inr rfl) rfl ?_
        simp only [hcheckins, hcheckouts, hnone]
        rfl
  · cases hstep

theorem step {shape : Shape} {l : Label χ} (h : Phase executor s)
    (hnoThrow : noThrow executor s l = true)
    (hstep : ViaCoroutine.step executor shape s l = some s') : Phase executor s' := by
  cases l with
  | ready answer =>
      simp only [ViaCoroutine.step] at hstep
      split at hstep
      · next hmain =>
          cases h with
          | before _ husable hqueue hcontinued hledger =>
              split at hstep
              · cases hstep
                exact .settled (.inr rfl) husable (by rw [hledger]; rfl)
              · cases hstep
                exact .before (.inr rfl) husable hqueue hcontinued hledger
          | outstanding hmain' => simp [hmain] at hmain'
          | settled hmain' => simp [hmain] at hmain'
      · cases hstep
  | suspend c =>
      simp only [ViaCoroutine.step] at hstep
      split at hstep
      · next hmain =>
          cases hstep
          cases h with
          | before _ _ hqueue hcontinued hledger =>
              cases executor with
              | true =>
                  refine .outstanding (.inl rfl) hqueue hcontinued ?_ ?_ <;>
                    simp [State.getWrappedContinuation, Ledger.checkout, hledger, Ledger.empty]
              | false =>
                  refine .outstanding (.inl rfl) hqueue hcontinued ?_ ?_ <;>
                    simp [State.getWrappedContinuation, hledger, Ledger.empty]
          | outstanding hmain' => simp [hmain] at hmain'
          | settled hmain' => simp [hmain] at hmain'
      · cases hstep
  | resume =>
      simp only [ViaCoroutine.step, Option.ite_none_right_eq_some, Option.some.injEq] at hstep
      rcases hstep with ⟨husable, rfl⟩
      exact h.finalSuspend husable
  | ends e => exact h.ends hnoThrow hstep
  | execute =>
      simp only [ViaCoroutine.step, Option.ite_none_right_eq_some, Option.some.injEq] at hstep
      rcases hstep with ⟨hpositive, rfl⟩
      cases h with
      | before _ _ hqueue => omega
      | outstanding _ hqueue => omega
      | settled hmain husable hledger => exact .settled hmain husable hledger

end Phase

end ViaCoroutine

/-! ## FutureAwaiter -/

namespace FutureAwaiter

variable {ε α χ : Type}

/-- An await of a future with its local variable {lit}`ctx` and the calls that it has made. -/
structure Observed (ε α χ : Type) where
  await : State ε α
  ctx : Option χ
  ledger : Ledger χ

def Observed.initial (cfg : Config ε α) : Observed ε α χ where
  await := State.initial cfg.slot
  ctx := none
  ledger := Ledger.empty

/-- The calls of a step: {lit}`await_suspend` begins with the checkout, and the continuation of
the future and the cancel handler end with the checkin. -/
def Observed.record (executor : Bool) (o : Observed ε α χ) (c : χ) : Label → Observed ε α χ
  | .main =>
      if executor = true ∧ o.await.main = .takeAway then
        { o with ctx := some c, ledger := o.ledger.checkout (some c) }
      else
        o
  | .callback =>
      if executor = true ∧ o.await.callback = .resume then
        { o with ledger := o.ledger.checkin o.ctx }
      else
        o
  | .emission =>
      if executor = true ∧ o.await.slot.visit = .call (.handler .cancel) ∧
          o.await.handler = .resume then
        { o with ledger := o.ledger.checkin o.ctx }
      else
        o
  | .coro | .setResult | .emits => o

def Observed.step (executor : Bool) (cfg : Config ε α) (o : Observed ε α χ) (l : Label × χ) :
    Option (Observed ε α χ) :=
  (FutureAwaiter.step cfg o.await l.1).map fun await =>
    { o.record executor l.2 l.1 with await := await }

/-- One {lit}`co_await` of a future, by a coroutine with or without an executor. -/
def observedMachine (χ : Type) (executor : Bool) (cfg : Config ε α) :
    Machine (Observed ε α χ) (Label × χ) where
  step := Observed.step executor cfg

/-- The coroutine is past the await, or on its way. -/
def CoroPc.continued : CoroPc ε α → Bool
  | .suspended => false
  | _ => true

/-- The next step of {lit}`emplace` finds that {lit}`Terminate` was emitted. -/
def refuses (slot : TerminateSlot Handler Unit) : CallPc Handler → Bool
  | .cell (.emplaceTest _) => slot.state
  | .cell (.emplaceLoad _) => slot.cell = .emittedTag
  | .cell (.emplaceCas _ old) => slot.cell ≠ old && slot.cell = .emittedTag
  | _ => false

/-- The slot does not refuse the cancel handler where there is an executor. -/
def noRefusal (executor : Bool) (o : Observed ε α χ) : Label × χ → Bool
  | (.main, _) =>
      match o.await.main with
      | .emplace pc => !(executor && refuses o.await.slot pc)
      | _ => true
  | _ => true

/-- {lit}`await_suspend` has called {lit}`checkout`. -/
def MainPc.checkedOut : MainPc → Bool
  | .ready | .takeAway | .notSuspended => false
  | _ => true

/-- The cancel handler may be in the slot. -/
def MainPc.accepted : MainPc → Bool
  | .setContinuation | .returned _ => true
  | _ => false

/-- Somebody has got the right to continue the coroutine. -/
def State.taken (cfg : Config ε α) (s : State ε α) : Bool :=
  if cfg.hasSlot then !s.armed else decide (s.callback ≠ .notRun)

/-- The cancel handler is in the slot, or is run. -/
def State.Cancels (s : State ε α) : Prop :=
  s.slot.cell = .handler .cancel ∨ s.slot.visit = .call (.handler .cancel) ∨
    s.handler ≠ .notRun

/-- The call is one of {lit}`emplace`. -/
def Emplaces : CallPc Handler → Prop
  | .clearLookup | .cell .clearLoad | .cell (.clearCas _) => False
  | _ => True

/-- Everything one step of {lit}`emplace` can do. -/
theorem callStep_emplaces (slot : TerminateSlot Handler Unit) {pc : CallPc Handler}
    (hpc : Emplaces pc) :
    (slot.callStep pc).1.visit = slot.visit ∧
      ((slot.callStep pc).2 = .returns true ∨ (slot.callStep pc).1.cell = slot.cell) ∧
      (∀ pc', (slot.callStep pc).2 = .at pc' → Emplaces pc') ∧
      ((slot.callStep pc).2 = .returns false → refuses slot pc = true) := by
  cases pc with
  | emplaceLookup g =>
      refine ⟨rfl, .inr rfl, ?_, ?_⟩
      · intro pc' hat
        cases hat
        trivial
      · intro hfalse
        cases hfalse
  | clearLookup => exact hpc.elim
  | cell pc =>
      cases pc with
      | clearLoad | clearCas _ => exact hpc.elim
      | emplaceTest g =>
          cases hstate : slot.state with
          | true =>
              rw [TerminateSlot.callStep_emplaceTest_triggered hstate]
              exact ⟨rfl, .inr rfl, by simp, fun _ => hstate⟩
          | false =>
              rw [TerminateSlot.callStep_emplaceTest hstate]
              refine ⟨rfl, .inr rfl, ?_, by simp⟩
              intro pc' hat
              cases hat
              trivial
      | emplaceLoad g =>
          by_cases htag : slot.cell = .emittedTag
          · rw [TerminateSlot.callStep_emplaceLoad_emitted htag]
            exact ⟨rfl, .inr rfl, by simp, fun _ => by simp [refuses, htag]⟩
          · rw [TerminateSlot.callStep_emplaceLoad htag]
            refine ⟨rfl, .inr rfl, ?_, by simp⟩
            intro pc' hat
            cases hat
            trivial
      | emplaceCas g old =>
          by_cases hcell : slot.cell = old
          · rw [TerminateSlot.callStep_emplaceCas hcell]
            exact ⟨rfl, .inl rfl, by simp, by simp⟩
          · have hfailed : slot.callStep (.cell (.emplaceCas g old)) =
                (slot, (afterFailedExchange slot.cell).toCall) := by
              simp only [TerminateSlot.callStep, cellStep, if_neg hcell]
            rw [hfailed]
            refine ⟨rfl, .inr rfl, ?_, ?_⟩
            · intro pc' hat
              rcases TerminateSlot.toCall_eq_at hat with ⟨next, hnext, -⟩
              exact (TerminateSlot.afterFailedExchange_ne_at _ _ hnext).elim
            · intro hfalse
              have htag : slot.cell = .emittedTag := by
                cases hslot : slot.cell with
                | emittedTag => rfl
                | null | handler g' =>
                    rw [hslot] at hfalse
                    cases hfalse
              rw [htag] at hcell
              simp [refuses, htag, hcell]

/-- The emission takes a handler out of the cell. -/
theorem visitStep_cancels {slot slot' : TerminateSlot Handler Unit}
    (hstep : slot.visitStep = some slot')
    (hcancels : slot'.cell = .handler .cancel ∨ slot'.visit = .call (.handler .cancel)) :
    slot.cell = .handler .cancel := by
  unfold TerminateSlot.visitStep at hstep
  split at hstep
  case h_1 | h_2 | h_3 | h_4 => cases hstep
  case h_5 | h_6 =>
    cases hstep
    simpa using hcancels
  case h_7 =>
    split at hstep <;> cases hstep <;> dsimp only at hcancels <;> split at hcancels <;>
      simpa using hcancels
  case h_8 =>
    split at hstep
    · cases hstep
      dsimp only at hcancels
      split at hcancels
      · simp at hcancels
      · simpa using hcancels
    · cases hstep
      simpa using hcancels

/-- What has been called with an executor, and who may still continue the coroutine. -/
structure Accounted (cfg : Config ε α) (o : Observed ε α χ) : Prop where
  checkouts : o.ledger.checkouts = if o.await.main.checkedOut then [o.ctx] else []
  checkins : o.ledger.checkins =
    if o.await.main.checkedOut && o.await.coro.continued then [o.ctx] else []
  emplaces : ∀ pc, o.await.main = .emplace pc → Emplaces pc ∧ cfg.hasSlot = true
  accepts : o.await.main ≠ .returned false
  suspended : o.await.main.accepted = false → o.await.main ≠ .notSuspended →
    o.await.coro.continued = false
  attached : o.await.continuation = true → o.await.main = .returned true
  called : o.await.callback ≠ .notRun → o.await.continuation = true
  exchanging : o.await.callback = .exchange ∨ o.await.callback = .putBack → cfg.hasSlot = true
  cancels : o.await.Cancels → o.await.main.accepted = true ∧ cfg.hasSlot = true
  free : o.await.taken cfg = false → o.await.main ≠ .notSuspended →
    o.await.coro.continued = false ∧ o.await.handler = .notRun ∧
      (o.await.callback = .notRun ∨ o.await.callback = .exchange)
  byCallback : o.await.callback = .putBack ∨ o.await.callback = .resume →
    o.await.coro.continued = false ∧ o.await.handler ≠ .resume ∧ o.await.taken cfg = true
  byHandler : o.await.handler = .resume →
    o.await.coro.continued = false ∧ o.await.taken cfg = true

namespace Accounted

variable {cfg : Config ε α} {o : Observed ε α χ}

theorem initial (cfg : Config ε α) : Accounted cfg (Observed.initial cfg : Observed ε α χ) where
  checkouts := rfl
  checkins := rfl
  emplaces := by simp [Observed.initial, State.initial]
  accepts := by simp [Observed.initial, State.initial]
  suspended := fun _ _ => rfl
  attached := by simp [Observed.initial, State.initial]
  called := by simp [Observed.initial, State.initial]
  exchanging := by simp [Observed.initial, State.initial]
  cancels := by
    rintro (hcell | hvisit | hhandler)
    · simp only [Observed.initial, State.initial, SlotConfig.slot] at hcell
      split at hcell <;> cases hcell
    · cases hvisit
    · exact absurd rfl hhandler
  free := fun _ _ => ⟨rfl, rfl, .inl rfl⟩
  byCallback := by simp [Observed.initial, State.initial]
  byHandler := by simp [Observed.initial, State.initial]

theorem balanced (h : Accounted cfg o) :
    o.ledger.Balanced (o.await.coro.continued = true) := by
  cases hcontinued : o.await.coro.continued with
  | false =>
      refine .of_nil ?_ (by simp)
      rw [h.checkins, hcontinued]
      simp
  | true =>
      refine .of_eq ?_ _
      rw [h.checkins, h.checkouts, hcontinued, Bool.and_true]

/-- The continuation of the future is run only after {lit}`await_suspend` has attached it. -/
theorem main_of_callback (h : Accounted cfg o) (hcallback : o.await.callback ≠ .notRun) :
    o.await.main = .returned true :=
  h.attached (h.called hcallback)

/-! ### The continuation of the future -/

/-- Only the continuation moves; it gets the right to continue the coroutine, or does not. -/
theorem setCallback (h : Accounted cfg o) {callback : CallbackPc} {armed : Bool} {future : Held}
    (hcontinuation : o.await.continuation = true)
    (hslot : callback = .exchange ∨ callback = .putBack → cfg.hasSlot = true)
    (hfree : State.taken cfg { o.await with callback := callback, armed := armed } = false →
      o.await.coro.continued = false ∧ o.await.handler = .notRun ∧ callback = .exchange)
    (hclaims : callback = .putBack ∨ callback = .resume →
      o.await.coro.continued = false ∧ o.await.handler ≠ .resume ∧
        State.taken cfg { o.await with callback := callback, armed := armed } = true)
    (hhandler : o.await.handler = .resume →
      State.taken cfg { o.await with callback := callback, armed := armed } = true) :
    Accounted cfg { o with
      await := { o.await with callback := callback, armed := armed, future := future } } :=
  { h with
    called := fun _ => hcontinuation
    exchanging := hslot
    free := fun htaken _ => by
      rcases hfree htaken with ⟨hcoro, hnotRun, hexchange⟩
      exact ⟨hcoro, hnotRun, .inr hexchange⟩
    byCallback := hclaims
    byHandler := fun hresume => ⟨(h.byHandler hresume).1, hhandler hresume⟩ }

/-- The one that has the right to continue the coroutine does so. -/
theorem continues (h : Accounted cfg o) {await : State ε α} (hmain : await.main = o.await.main)
    (hout : o.await.main.checkedOut = true) (haccepted : o.await.main.accepted = true)
    (hcoro : o.await.coro.continued = false) (hcontinued : await.coro.continued = true)
    (hcontinuation : await.continuation = o.await.continuation)
    (hslot : await.slot = o.await.slot) (hhandlerRun : await.handler ≠ .notRun →
      o.await.handler ≠ .notRun)
    (hcalled : await.callback ≠ .notRun → o.await.callback ≠ .notRun)
    (hexchanging : await.callback = .exchange ∨ await.callback = .putBack →
      o.await.callback = .exchange ∨ o.await.callback = .putBack)
    (htaken : await.taken cfg = true) (hcallback : await.callback ≠ .putBack ∧
      await.callback ≠ .resume) (hhandler : await.handler ≠ .resume) :
    Accounted cfg { o with await := await, ledger := o.ledger.checkin o.ctx } := by
  refine ⟨?_, ?_, ?_, ?_, ?_, ?_, ?_, ?_, ?_, ?_, ?_, ?_⟩
  · rw [hmain]
    exact h.checkouts
  · simp [Ledger.checkin, h.checkins, hmain, hout, hcoro, hcontinued]
  · rw [hmain]
    exact h.emplaces
  · rw [hmain]
    exact h.accepts
  · intro hnot
    rw [hmain, haccepted] at hnot
    cases hnot
  · rw [hmain, hcontinuation]
    exact h.attached
  · intro hrun
    rw [hcontinuation]
    exact h.called (hcalled hrun)
  · exact fun hex => h.exchanging (hexchanging hex)
  · rw [hmain]
    rintro (hcell | hvisit | hrun)
    · rw [hslot] at hcell
      exact h.cancels (.inl hcell)
    · rw [hslot] at hvisit
      exact h.cancels (.inr (.inl hvisit))
    · exact h.cancels (.inr (.inr (hhandlerRun hrun)))
  · intro hfree
    rw [htaken] at hfree
    cases hfree
  · rintro (hput | hresume)
    · exact absurd hput hcallback.1
    · exact absurd hresume hcallback.2
  · exact fun hresume => absurd hresume hhandler

theorem callback (h : Accounted cfg o) {await : State ε α} (c : χ)
    (hstep : callbackStep cfg o.await = some await) :
    Accounted cfg { o.record true c .callback with await := await } := by
  unfold callbackStep at hstep
  split at hstep
  · cases hstep
  · next hpc =>
      split at hstep
      · next hready =>
          cases hstep
          rw [Bool.and_eq_true] at hready
          have hmain := h.attached hready.1
          have hnot : o.await.main ≠ .notSuspended := by rw [hmain]; simp
          rw [Observed.record, if_neg (by simp [hpc])]
          cases hslot : cfg.hasSlot with
          | true =>
              refine h.setCallback hready.1 (fun _ => hslot) (fun htaken => ?_) (by simp)
                (fun hresume => ?_)
              · have hfree := h.free (by simpa [State.taken, hslot] using htaken) hnot
                exact ⟨hfree.1, hfree.2.1, rfl⟩
              · have htaken := (h.byHandler hresume).2
                simpa [State.taken, hslot] using htaken
          | false =>
              have hfree := h.free (by simp [State.taken, hslot, hpc]) hnot
              refine h.setCallback hready.1 (by simp) ?_ (fun _ => ?_) ?_
              · simp [State.taken, hslot]
              · refine ⟨hfree.1, by rw [hfree.2.1]; simp, ?_⟩
                simp [State.taken, hslot]
              · simp [State.taken, hslot]
      · cases hstep
  · next hpc =>
      cases hstep
      have hslot := h.exchanging (.inl hpc)
      have hcontinuation := h.called (by rw [hpc]; simp)
      have hmain := h.attached hcontinuation
      have htaken : ∀ callback, State.taken cfg
          { o.await with callback := callback, armed := false } = true := by
        intro callback
        simp [State.taken, hslot]
      rw [Observed.record, if_neg (by simp [hpc])]
      refine h.setCallback hcontinuation (fun _ => hslot) (fun hfree => ?_) (fun hclaims => ?_)
        (fun _ => htaken _)
      · rw [htaken] at hfree
        cases hfree
      · cases harmed : o.await.armed with
        | false => simp [harmed] at hclaims
        | true =>
            have hfree := h.free (by simp [State.taken, hslot, harmed]) (by rw [hmain]; simp)
            exact ⟨hfree.1, by rw [hfree.2.1]; simp, htaken _⟩
  · next hpc =>
      cases hstep
      have hclaim := h.byCallback (.inl hpc)
      have hslot := h.exchanging (.inr hpc)
      rw [Observed.record, if_neg (by simp [hpc])]
      refine h.setCallback (h.called (by rw [hpc]; simp)) (fun _ => hslot) (fun hfree => ?_)
        (fun _ => ⟨hclaim.1, hclaim.2.1, ?_⟩) (fun hresume => ?_)
      · have htaken := hclaim.2.2
        simp only [State.taken, hslot, if_true] at hfree htaken
        rw [hfree] at htaken
        cases htaken
      · simpa [State.taken, hslot] using hclaim.2.2
      · exact absurd hresume hclaim.2.1
  · next hpc =>
      cases hstep
      have hclaim := h.byCallback (.inr hpc)
      have hmain := h.main_of_callback (by rw [hpc]; simp)
      rw [Observed.record, if_pos ⟨rfl, hpc⟩]
      refine h.continues rfl (by rw [hmain]; rfl) (by rw [hmain]; rfl) hclaim.1 rfl rfl rfl id
        (by simp [hpc]) (by simp) ?_ (by simp) hclaim.2.1
      cases hslot : cfg.hasSlot with
      | true => simpa [State.taken, hslot] using hclaim.2.2
      | false => simp [State.taken, hslot]

/-! ### The emission -/

/-- The emission goes on, perhaps with the handler that was in the cell. -/
theorem setSlot (h : Accounted cfg o) {slot : TerminateSlot Handler Unit}
    (hcancels : slot.cell = .handler .cancel ∨ slot.visit = .call (.handler .cancel) →
      o.await.slot.cell = .handler .cancel ∨
        o.await.slot.visit = .call (.handler .cancel)) :
    Accounted cfg { o with await := { o.await with slot := slot } } :=
  { h with
    cancels := by
      rintro (hcell | hvisit | hrun)
      · exact h.cancels (by rcases hcancels (.inl hcell) with h | h <;> simp [State.Cancels, h])
      · exact h.cancels (by rcases hcancels (.inr hvisit) with h | h <;> simp [State.Cancels, h])
      · exact h.cancels (.inr (.inr hrun)) }

/-- The cancel handler is run. -/
theorem handler (h : Accounted cfg o) {await : State ε α} (c : χ)
    (hvisit : o.await.slot.visit = .call (.handler .cancel))
    (hstep : emissionStep o.await = some await) :
    Accounted cfg { o.record true c .emission with await := await } := by
  rcases h.cancels (.inr (.inl hvisit)) with ⟨haccepted, hslot⟩
  have hnot : o.await.main ≠ .notSuspended := by
    intro hmain
    rw [hmain] at haccepted
    cases haccepted
  have hout : o.await.main.checkedOut = true := by
    cases hmain : o.await.main <;> rw [hmain] at haccepted <;> first | rfl | cases haccepted
  simp only [emissionStep, hvisit] at hstep
  split at hstep
  · next hpc =>
      cases hstep
      rw [Observed.record, if_neg (by simp [hpc])]
      have htaken : ∀ pc,
          State.taken cfg { o.await with armed := false, handler := pc } = true := by
        intro pc
        simp [State.taken, hslot]
      exact { h with
        cancels := fun _ => ⟨haccepted, hslot⟩
        free := fun hfree => by
          rw [htaken] at hfree
          cases hfree
        byCallback := fun hclaims => by
          have hclaim := h.byCallback hclaims
          have harmed : o.await.armed = false := by simpa [State.taken, hslot] using hclaim.2.2
          exact ⟨hclaim.1, by simp [harmed], htaken _⟩
        byHandler := fun hresume => by
          cases harmed : o.await.armed with
          | false => simp [harmed] at hresume
          | true =>
              have hfree := h.free (by simp [State.taken, hslot, harmed]) hnot
              exact ⟨hfree.1, htaken _⟩ }
  · next hpc =>
      cases hstep
      have hclaim := h.byHandler hpc
      have hothers : o.await.callback ≠ .putBack ∧ o.await.callback ≠ .resume :=
        ⟨fun hput => (h.byCallback (.inl hput)).2.1 hpc,
          fun hresume => (h.byCallback (.inr hresume)).2.1 hpc⟩
      rw [Observed.record, if_pos ⟨rfl, hvisit, hpc⟩]
      exact h.continues rfl hout haccepted hclaim.1 rfl rfl rfl (by simp [hpc]) id id hclaim.2
        hothers (by simp)
  · next hpc =>
      cases hstep
      rw [Observed.record, if_neg (by simp [hpc])]
      exact h.setSlot (by simp [hvisit])

theorem emission (h : Accounted cfg o) {await : State ε α} (c : χ)
    (hstep : emissionStep o.await = some await) :
    Accounted cfg { o.record true c .emission with await := await } := by
  by_cases hvisit : o.await.slot.visit = .call (.handler .cancel)
  · exact h.handler c hvisit hstep
  · rw [Observed.record, if_neg (by simp [hvisit])]
    unfold emissionStep at hstep
    split at hstep
    · cases hstep
      exact h.setSlot fun hcancels => .inl (hcancels.resolve_right (by simp))
    · next hcall => exact absurd hcall hvisit
    · cases hstep
      exact h.setSlot fun hcancels => .inl (hcancels.resolve_right (by simp))
    · rw [Option.map_eq_some_iff] at hstep
      rcases hstep with ⟨slot, hslot, rfl⟩
      exact h.setSlot fun hcancels => .inl (visitStep_cancels hslot hcancels)

/-! ### The thread that suspends -/

/-- {lit}`await_ready` holds. -/
theorem passes (h : Accounted cfg o) (hmain : o.await.main = .ready) :
    Accounted cfg { o with
      await := { o.await with main := .notSuspended, coro := .take } } where
  checkouts := by
    have hcheckouts := h.checkouts
    rwa [hmain] at hcheckouts
  checkins := by
    have hcheckins := h.checkins
    rwa [hmain] at hcheckins
  emplaces := fun _ hpc => by cases hpc
  accepts := by simp
  suspended := fun _ hnot => absurd rfl hnot
  attached := fun hcontinuation => by
    rw [h.attached hcontinuation] at hmain
    cases hmain
  called := h.called
  exchanging := h.exchanging
  cancels := fun hcancels => by
    have haccepted := (h.cancels hcancels).1
    rw [hmain] at haccepted
    cases haccepted
  free := fun _ hnot => absurd rfl hnot
  byCallback := fun hclaims => by
    have hclaims' : o.await.callback = .putBack ∨ o.await.callback = .resume := hclaims
    have hreturned := h.main_of_callback (by rcases hclaims' with hpc | hpc <;> simp [hpc])
    rw [hmain] at hreturned
    cases hreturned
  byHandler := fun hresume => by
    have hresume' : o.await.handler = .resume := hresume
    have haccepted := (h.cancels (.inr (.inr (by simp [hresume'])))).1
    rw [hmain] at haccepted
    cases haccepted

/-- The thread goes on to a point where it has or has not called {lit}`checkout`. -/
theorem setMain (h : Accounted cfg o) {main : MainPc} {slot : TerminateSlot Handler Unit}
    {continuation : Bool} {future : Held} {ctx : Option χ} {ledger : Ledger χ}
    (hbefore : o.await.main ≠ .notSuspended)
    (hcheckouts : ledger.checkouts = if main.checkedOut then [ctx] else [])
    (hcheckins : ledger.checkins =
      if main.checkedOut && o.await.coro.continued then [ctx] else [])
    (hemplaces : ∀ pc, main = .emplace pc → Emplaces pc ∧ cfg.hasSlot = true)
    (haccepts : main ≠ .returned false)
    (haccepted : main.accepted = false → o.await.main.accepted = false)
    (hattached : continuation = true → main = .returned true)
    (hcontinuation : o.await.continuation = true → continuation = true)
    (hcancels : slot.cell = .handler .cancel ∨ slot.visit = .call (.handler .cancel) ∨
      o.await.handler ≠ .notRun → main.accepted = true ∧ cfg.hasSlot = true) :
    Accounted cfg
      { await := { o.await with
          main := main
          slot := slot
          continuation := continuation
          future := future }
        ctx := ctx
        ledger := ledger } :=
  { h with
    checkouts := hcheckouts
    checkins := hcheckins
    emplaces := hemplaces
    accepts := haccepts
    suspended := fun hnone _ => h.suspended (haccepted hnone) hbefore
    attached := hattached
    called := fun hrun => hcontinuation (h.called hrun)
    cancels := hcancels
    free := fun hfree _ => h.free hfree hbefore }

theorem main (h : Accounted cfg o) {await : State ε α} (c : χ)
    (hnoRefusal : noRefusal true o (.main, c) = true)
    (hstep : mainStep cfg o.await = some await) :
    Accounted cfg { o.record true c .main with await := await } := by
  have hcheckouts := h.checkouts
  have hcheckins := h.checkins
  have hcancels := h.cancels
  have habsent : o.await.main.accepted = false → ¬ o.await.Cancels := by
    intro hnone hcancel
    rw [(hcancels hcancel).1] at hnone
    cases hnone
  unfold mainStep at hstep
  split at hstep
  · cases hstep
  · cases hstep
  · cases hstep
  · next hmain =>
      rw [Observed.record, if_neg (by simp [hmain])]
      split at hstep
      · cases hstep
        exact h.passes hmain
      · cases hstep
        rw [hmain] at hcheckouts hcheckins
        have hcoro := h.suspended (by rw [hmain]; rfl) (by rw [hmain]; simp)
        exact h.setMain (by rw [hmain]; simp) hcheckouts hcheckins (by simp) (by simp)
          (fun _ => by rw [hmain]; rfl)
          (fun hcontinuation => by rw [h.attached hcontinuation] at hmain; cases hmain) id
          (fun hcancel => absurd hcancel (habsent (by rw [hmain]; rfl)))
  · next hmain =>
      rw [Observed.record, if_pos ⟨rfl, hmain⟩]
      have hcoro := h.suspended (by rw [hmain]; rfl) (by rw [hmain]; simp)
      have hempty : o.ledger.checkouts = [] ∧ o.ledger.checkins = [] := by
        rw [hmain] at hcheckouts hcheckins
        exact ⟨hcheckouts, hcheckins⟩
      split at hstep
      · next hslot =>
          cases hstep
          refine h.setMain (by rw [hmain]; simp)
            (by simp [Ledger.checkout, hempty, MainPc.checkedOut])
            (by simp [Ledger.checkout, hempty, hcoro]) (fun pc hpc => ?_) (by simp)
            (fun _ => by rw [hmain]; rfl)
            (fun hcontinuation => by rw [h.attached hcontinuation] at hmain; cases hmain) id
            (fun hcancel => absurd hcancel (habsent (by rw [hmain]; rfl)))
          cases hpc
          exact ⟨trivial, hslot⟩
      · cases hstep
        exact h.setMain (by rw [hmain]; simp) (by simp [Ledger.checkout, hempty, MainPc.checkedOut])
          (by simp [Ledger.checkout, hempty, hcoro]) (by simp) (by simp)
          (fun _ => by rw [hmain]; rfl)
          (fun hcontinuation => by rw [h.attached hcontinuation] at hmain; cases hmain) id
          (fun hcancel => absurd hcancel (habsent (by rw [hmain]; rfl)))
  · next pc hmain =>
      rw [Observed.record, if_neg (by simp [hmain])]
      rw [hmain] at hcheckouts hcheckins
      have hcoro := h.suspended (by rw [hmain]; rfl) (by rw [hmain]; simp)
      rcases h.emplaces pc hmain with ⟨hpc, hslot⟩
      rcases callStep_emplaces o.await.slot hpc with ⟨hvisit, hcell, hnext, hrefuses⟩
      have hunattached : o.await.continuation = true → False := by
        intro hcontinuation
        rw [h.attached hcontinuation] at hmain
        cases hmain
      -- the handler is in the cell only when the call returns true
      have hkept : (o.await.slot.callStep pc).2 ≠ .returns true →
          ¬ ((o.await.slot.callStep pc).1.cell = .handler .cancel ∨
            (o.await.slot.callStep pc).1.visit = .call (.handler .cancel) ∨
            o.await.handler ≠ .notRun) := by
        intro hfalse hcancel
        rw [hcell.resolve_left hfalse, hvisit] at hcancel
        exact habsent (by rw [hmain]; rfl) hcancel
      dsimp only at hstep
      split at hstep
      · next pc' hat =>
          cases hstep
          refine h.setMain (by rw [hmain]; simp) hcheckouts hcheckins
            (fun pc'' hpc' => ?_) (by simp)
            (fun _ => by rw [hmain]; rfl) (fun hcontinuation => (hunattached hcontinuation).elim) id
            (fun hcancel => absurd hcancel (hkept (by rw [hat]; simp)))
          cases hpc'
          exact ⟨hnext pc' hat, hslot⟩
      · cases hstep
        exact h.setMain (by rw [hmain]; simp) hcheckouts hcheckins (by simp) (by simp)
          (fun hnone => by cases hnone) (fun hcontinuation => (hunattached hcontinuation).elim) id
          (fun _ => ⟨rfl, hslot⟩)
      · next hfalse =>
          simp [noRefusal, hmain, hrefuses hfalse] at hnoRefusal
      · next haborts =>
          cases hstep
          exact h.setMain (by rw [hmain]; simp) hcheckouts hcheckins (by simp) (by simp)
            (fun _ => by rw [hmain]; rfl) (fun hcontinuation => (hunattached hcontinuation).elim) id
            (fun hcancel => absurd hcancel (hkept (by rw [haborts]; simp)))
  · next hmain =>
      cases hstep
      rw [Observed.record, if_neg (by simp [hmain])]
      rw [hmain] at hcheckouts hcheckins
      exact h.setMain (by rw [hmain]; simp) hcheckouts hcheckins (by simp) (by simp)
        (fun hnone => by cases hnone) (fun _ => rfl) (fun _ => rfl)
        (fun hcancel => ⟨rfl, (hcancels hcancel).2⟩)

/-! ### All steps -/

theorem step {o' : Observed ε α χ} (h : Accounted cfg o) {l : Label × χ}
    (hnoRefusal : noRefusal true o l = true)
    (hstep : Observed.step true cfg o l = some o') : Accounted cfg o' := by
  rcases l with ⟨l, c⟩
  simp only [Observed.step, Option.map_eq_some_iff] at hstep
  rcases hstep with ⟨await, hstep, rfl⟩
  cases l with
  | main => exact h.main c hnoRefusal hstep
  | callback => exact h.callback c hstep
  | emission => exact h.emission c hstep
  | coro =>
      simp only [FutureAwaiter.step, coroStep] at hstep
      split at hstep
      · cases hstep
      · cases hstep
      · next hcoro =>
          cases hstep
          have hcontinued : o.await.coro.continued = true := by rw [hcoro]; rfl
          have hcheckins := h.checkins
          have hsuspended := h.suspended
          have hfree := h.free
          have hbyCallback := h.byCallback
          have hbyHandler := h.byHandler
          rw [hcontinued] at hcheckins hsuspended hfree hbyCallback hbyHandler
          exact { h with
            checkins := hcheckins
            suspended := hsuspended
            free := hfree
            byCallback := hbyCallback
            byHandler := hbyHandler }
  | setResult =>
      simp only [FutureAwaiter.step, Option.ite_none_left_eq_some, Option.some.injEq] at hstep
      rcases hstep with ⟨-, rfl⟩
      exact { h with }
  | emits =>
      simp only [FutureAwaiter.step, Option.ite_none_right_eq_some, Option.map_eq_some_iff] at hstep
      rcases hstep with ⟨-, slot, hemits, rfl⟩
      have hslot : slot = { o.await.slot with state := true, visit := .filter } := by
        unfold TerminateSlot.emits at hemits
        split at hemits
        · exact (Option.some.inj hemits).symm
        · cases hemits
      refine h.setSlot fun hcancels => ?_
      rw [hslot] at hcancels
      exact .inl (hcancels.resolve_right (by simp))

end Accounted

/-- Without an executor there is nothing to call. -/
theorem ledger_step {cfg : Config ε α} {o o' : Observed ε α χ} {l : Label × χ}
    (hledger : o.ledger = Ledger.empty) (hstep : Observed.step false cfg o l = some o') :
    o'.ledger = Ledger.empty := by
  rcases l with ⟨l, c⟩
  simp only [Observed.step, Option.map_eq_some_iff] at hstep
  rcases hstep with ⟨await, -, rfl⟩
  cases l <;> exact hledger

theorem balanced_of_noRefusal (executor : Bool) (cfg : Config ε α) {ls : List (Label × χ)}
    {o : Observed ε α χ}
    (hwithin : (observedMachine χ executor cfg).RunsWithin
      (fun o l => noRefusal executor o l = true) (Observed.initial cfg) ls)
    (hrun : (observedMachine χ executor cfg).run (Observed.initial cfg) ls = some o) :
    o.ledger.Balanced (o.await.coro.continued = true) := by
  cases executor with
  | true =>
      have h : Accounted cfg o := Machine.runsWithin_invariant _
        (fun _ _ _ h hok hstep => h.step hok hstep) (Accounted.initial cfg) hwithin hrun
      exact h.balanced
  | false =>
      have hledger : o.ledger = Ledger.empty := Machine.run_invariant _
        (P := fun o => o.ledger = Ledger.empty) (fun _ _ _ h hstep => ledger_step h hstep) rfl hrun
      exact .of_eq (by rw [hledger]; rfl) _

end FutureAwaiter

/-! ## All paths -/

/-- With and without an executor, for every shape of the wrapped awaiter, every slot and every
order of the steps: the calls of {lit}`checkout` and {lit}`checkin` are balanced in every run in
which no wrapped awaiter throws and no slot refuses the cancel handler while there is an
executor. -/
theorem balanced_of_no_early_exit {ε α χ : Type} (executor : Bool) :
    (∀ (shape : ViaCoroutine.Shape) (ls : List (ViaCoroutine.Label χ))
      (s : ViaCoroutine.State χ),
      (ViaCoroutine.machine χ executor shape).RunsWithin
        (fun s l => ViaCoroutine.noThrow executor s l = true) ViaCoroutine.State.initial ls →
      (ViaCoroutine.machine χ executor shape).run ViaCoroutine.State.initial ls = some s →
      s.ledger.Balanced (s.continued = true)) ∧
    (∀ (cfg : FutureAwaiter.Config ε α) (ls : List (FutureAwaiter.Label × χ))
      (o : FutureAwaiter.Observed ε α χ),
      (FutureAwaiter.observedMachine χ executor cfg).RunsWithin
        (fun o l => FutureAwaiter.noRefusal executor o l = true)
        (FutureAwaiter.Observed.initial cfg) ls →
      (FutureAwaiter.observedMachine χ executor cfg).run (FutureAwaiter.Observed.initial cfg) ls =
        some o →
      o.ledger.Balanced (o.await.coro.continued = true)) := by
  constructor
  · intro shape ls s hwithin hrun
    have h : ViaCoroutine.Phase executor s := Machine.runsWithin_invariant _
      (fun _ _ _ h hok hstep => h.step hok hstep) (.before (.inl rfl) rfl rfl rfl rfl) hwithin hrun
    exact h.balanced
  · intro cfg ls o hwithin hrun
    exact FutureAwaiter.balanced_of_noRefusal executor cfg hwithin hrun

/-- A future of a number, awaited with a new slot. -/
def cancellableFuture : FutureAwaiter.Config Unit Nat where
  hasSlot := true
  filter := true
  manager := false
  earlierHandler := false
  isVoid := false
  value := .value 1

/-- {lit}`await_ready` and {lit}`await_suspend` up to the given number of steps. -/
def awaitSteps (n : Nat) : List (FutureAwaiter.Label × Nat) :=
  List.replicate n (.main, 5)

/-- {lit}`Terminate` is emitted while the coroutine is suspended. -/
def cancelledMeanwhile : List (FutureAwaiter.Label × Nat) :=
  awaitSteps 7 ++ (.emits, 0) :: List.replicate 7 (.emission, 0)

/-- An awaiter that declines to suspend, and a future whose await is cancelled meanwhile. -/
theorem balanced_of_no_early_exit_cancelled :
    (∃ s, (ViaCoroutine.machine Nat true .bool).run ViaCoroutine.State.initial
        [.ready false, .suspend 5, .ends (.bool false)] = some s ∧
      s.continued = true ∧ s.ledger.checkouts = [some 5] ∧ s.ledger.checkins = [some 5]) ∧
    ∃ o, (FutureAwaiter.observedMachine Nat true cancellableFuture).run
        (FutureAwaiter.Observed.initial cancellableFuture) cancelledMeanwhile = some o ∧
      o.await.coro.continued = true ∧ o.ledger.checkouts = [some 5] ∧
      o.ledger.checkins = [some 5] := by
  constructor
  · rcases Machine.exists_run_of_any (ViaCoroutine.machine Nat true .bool)
      ViaCoroutine.State.initial [.ready false, .suspend 5, .ends (.bool false)]
      (fun s => s.continued = true ∧ s.ledger.checkouts = [some 5]) (by decide +kernel) with
      ⟨s, hrun, hcontinued, hcheckouts⟩
    have hbalanced := (balanced_of_no_early_exit (ε := Unit) (α := Nat) true).1 .bool _ s
      (by decide +kernel) hrun
    exact ⟨s, hrun, hcontinued, hcheckouts, (hbalanced.2 hcontinued).trans hcheckouts⟩
  · rcases Machine.exists_run_of_any (FutureAwaiter.observedMachine Nat true cancellableFuture)
      (FutureAwaiter.Observed.initial cancellableFuture) cancelledMeanwhile
      (fun o => o.await.coro.continued = true ∧ o.ledger.checkouts = [some 5])
      (by decide +kernel) with ⟨o, hrun, hcontinued, hcheckouts⟩
    have hbalanced := (balanced_of_no_early_exit true).2 cancellableFuture _ o
      (by decide +kernel) hrun
    exact ⟨o, hrun, hcontinued, hcheckouts, (hbalanced.2 hcontinued).trans hcheckouts⟩

/-- A future whose await was cancelled before, and an awaiter that throws: the coroutine goes on
and nothing is checked in. -/
theorem exists_not_balanced :
    (∃ o, (FutureAwaiter.observedMachine Nat true cancellableFuture).run
        (FutureAwaiter.Observed.initial cancellableFuture) ((.emits, 0) :: awaitSteps 4) = some o ∧
      o.await.coro.continued = true ∧ o.ledger = ⟨[some 5], []⟩ ∧
      ¬ o.ledger.Balanced (o.await.coro.continued = true)) ∧
    ∃ s, (ViaCoroutine.machine Nat true .void).run ViaCoroutine.State.initial
        [.ready false, .suspend 5, .ends .throws] = some s ∧
      s.continued = true ∧ s.ledger = ⟨[some 5], []⟩ ∧
      ¬ s.ledger.Balanced (s.continued = true) := by
  have hnot : ∀ {ledger : Ledger Nat} {continued : Prop}, continued → ledger = ⟨[some 5], []⟩ →
      ¬ ledger.Balanced continued := by
    rintro ledger continued hcontinued rfl hbalanced
    cases hbalanced.2 hcontinued
  constructor
  · rcases Machine.exists_run_of_any (FutureAwaiter.observedMachine Nat true cancellableFuture)
      (FutureAwaiter.Observed.initial cancellableFuture) ((.emits, 0) :: awaitSteps 4)
      (fun o => o.await.coro.continued = true ∧ o.ledger = ⟨[some 5], []⟩)
      (by decide +kernel) with ⟨o, hrun, hcontinued, hledger⟩
    exact ⟨o, hrun, hcontinued, hledger, hnot hcontinued hledger⟩
  · rcases Machine.exists_run_of_any (ViaCoroutine.machine Nat true .void)
      ViaCoroutine.State.initial [.ready false, .suspend 5, .ends .throws]
      (fun s => s.continued = true ∧ s.ledger = ⟨[some 5], []⟩) (by decide +kernel) with
      ⟨s, hrun, hcontinued, hledger⟩
    exact ⟨s, hrun, hcontinued, hledger, hnot hcontinued hledger⟩

end AsyncSimple
