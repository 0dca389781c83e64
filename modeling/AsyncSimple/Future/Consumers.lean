import AsyncSimple.Future.HandOffPart

/-!
# Four ways to take the result of a future

{lit}`Future::get`, {lit}`co_await` of a future in a {lit}`Lazy` without a slot,
{lit}`uthread::await` and {lit}`ResumeBySchedule` are written independently of each
other.  All of them look for a result first, attach a continuation otherwise, and read a
{lit}`Try` at the end: that of the future, or that of a second promise which the
continuation has fulfilled.  For {lit}`Future<void>` the shared state holds a
{lit}`Try<Unit>`, which is converted to {lit}`Try<void>` and back on the way.

The promise is fulfilled at any moment, before the call, between the check and the
continuation, or later.

Main results:

- Theorem {lit}`Inv.step`: what every consumer keeps.
- Theorem {lit}`Inv.exists_done`: every consumer comes to its end.
- Theorem {lit}`agrees_iff`: all consumers give the outcome of the promise, exactly if
  {lit}`T` is not {lit}`void` or the outcome is a value.
-/

namespace AsyncSimple

open Transition FutureState

namespace Consumers

/-! ## Values and conversions -/

/-- The template parameter of {lit}`Future<T>`. -/
inductive Param where
  | void
  | type (α : Type)

/-- {lit}`inner_value_type`. -/
def Param.Inner : Param → Type
  | .void => Unit
  | .type α => α

def Param.isVoid : Param → Bool
  | .void => true
  | .type _ => false

variable {ε α : Type} {T : Param}

/-- {lit}`Try<void>`; {lit}`none` is the null exception pointer. -/
structure TryVoid (ε : Type) where
  error : Option ε
deriving DecidableEq, Repr

/-- {lit}`Try<T>::operator Try<void>`. -/
def toVoid : Try ε α → TryVoid ε
  | .error e => ⟨some e⟩
  | _ => ⟨none⟩

/-- The constructor {lit}`Try<Unit>(const Try<void>&)`. -/
def TryVoid.toUnit (t : TryVoid ε) : Try ε Unit :=
  match t.error with
  | some e => .error e
  | none => .value ()

/-- The {lit}`std::logic_error`s of the consumers. -/
inductive Misuse where
  | emptyTry
  | noExecutor
  | notInExecutor
deriving DecidableEq, Repr

/-- Message carried by the error. -/
def Misuse.what : Misuse → String
  | .emptyTry => "Try object is empty"
  | .noExecutor => "Future not has Executor"
  | .notInExecutor => "await invoked not in Executor"

/-- How a consumer ends. -/
inductive Outcome (ε : Type) (T : Param) where
  | returned (v : T.Inner)
  | rethrown (e : ε)
  | logicError (e : Misuse)

/-- {lit}`Future<T>::value` on the {lit}`Try` of the state. -/
def value : (T : Param) → Try ε T.Inner → Outcome ε T
  | .void, t =>
      match (toVoid t).error with
      | some e => .rethrown e
      | none => .returned ()
  | .type _, .value v => .returned v
  | .type _, .error e => .rethrown e
  | .type _, .nothing => .logicError .emptyTry

/-- {lit}`FutureAwaiter<T>::await_resume`. -/
def awaitResume : (T : Param) → Try ε T.Inner → Outcome ε T
  | .void, _ => .returned ()
  | .type α, t => value (.type α) t

/-- What {lit}`p.setValue(std::move(t))` stores in a continuation with the parameter
{lit}`Try<T>&& t`. -/
def forwarded : (T : Param) → Try ε T.Inner → Try ε T.Inner
  | .void, t => (toVoid t).toUnit
  | .type _, t => t

/-- What happens to the promise. -/
inductive Fulfilment (ε : Type) (T : Param) where
  | value (v : T.Inner)
  | exception (e : ε)
  | broken

def Fulfilment.isValue : Fulfilment ε T → Bool
  | .value _ => true
  | _ => false

/-- The result that is stored; the last promise stores {lit}`broken`, the runtime error
with the message "Promise is broken". -/
def Fulfilment.toTry (broken : ε) : Fulfilment ε T → Try ε T.Inner
  | .value v => .value v
  | .exception e => .error e
  | .broken => .error broken

/-- What a consumer is expected to do. -/
def Fulfilment.outcome (broken : ε) : Fulfilment ε T → Outcome ε T
  | .value v => .returned v
  | .exception e => .rethrown e
  | .broken => .rethrown broken

/-! ## The consumers -/

inductive Consumer where
  | get
  | coAwait
  | uthreadAwait
  | resumeBySchedule
deriving DecidableEq, Repr

/-- The state of the future: made by {lit}`makeReadyFuture`, or shared with a promise. -/
inductive Source where
  | localState
  | sharedState
deriving DecidableEq, Repr

/-- The consumer and where it is called: the executor and context of the future, whether
the calling thread is in that executor, and whether the {lit}`Lazy` has an executor. -/
structure Config where
  consumer : Consumer
  source : Source
  executor : Option Nat
  context : Option Nat
  inExecutor : Bool
  lazyExecutor : Bool
deriving DecidableEq, Repr

/-- The calls that the consumers allow: {lit}`get` is not called in the executor,
{lit}`uthread::await` only there, and {lit}`ResumeBySchedule` only for a value. -/
def Config.Usable (cfg : Config) (T : Param) : Prop :=
  match cfg.consumer with
  | .get => cfg.inExecutor = false
  | .coAwait => True
  | .uthreadAwait => cfg.executor ≠ none ∧ cfg.inExecutor = true
  | .resumeBySchedule => T.isVoid = false

/-- Program points of a consumer. -/
inductive Pc (ε : Type) (T : Param) where
  | hasResult
  | setContinuation
  /-- waiting for the condition variable, or suspended -/
  | suspended
  /-- about to read the future -/
  | readFuture
  /-- about to read the future of the second promise -/
  | readSecond
  | done (outcome : Outcome ε T)

/-- Program points of the continuation. -/
inductive CallbackPc (ε : Type) (T : Param) where
  | notRun
  | started (t : Try ε T.Inner)
  /-- the executor of the {lit}`Lazy` holds the coroutine handle -/
  | queued
  | ended

structure State (ε : Type) (T : Param) where
  handOff : System Unit ε T.Inner Unit
  pc : Pc ε T
  callback : CallbackPc ε T
  /-- the result of the second promise -/
  second : Try ε T.Inner
  resumed : Bool

def State.initial (cfg : Config) : State ε T where
  handOff := System.initial (configured cfg.executor cfg.context false)
  pc := .hasResult
  callback := .notRun
  second := .nothing
  resumed := false

/-- The {lit}`Try` of the future. -/
def State.getTry (t : Try ε T.Inner) (cfg : Config) (s : State ε T) : Try ε T.Inner :=
  match cfg.source with
  | .localState => t
  | .sharedState => s.handOff.shared.fs.tryValue

/-- {lit}`Future<T>::hasResult`. -/
def State.hasResult (cfg : Config) (s : State ε T) : Bool :=
  match cfg.source with
  | .localState => true
  | .sharedState => s.handOff.shared.fs.state.hasResult

/-- One step of the consumer itself. -/
def mainStep (t : Try ε T.Inner) (cfg : Config) (s : State ε T) : Option (State ε T) :=
  match s.pc with
  | .done _ => none
  | .hasResult =>
      if s.hasResult cfg then
        some { s with pc := .readFuture }
      else
        match cfg.consumer with
        -- the continuation of `wait` is executed in place
        | .get => some { s with handOff := s.handOff.setExecutor none, pc := .setContinuation }
        | .uthreadAwait =>
            if cfg.executor = none then
              some { s with pc := .done (.logicError .noExecutor) }
            else if cfg.inExecutor = false then
              some { s with pc := .done (.logicError .notInExecutor) }
            else
              some { s with pc := .setContinuation }
        | .coAwait | .resumeBySchedule => some { s with pc := .setContinuation }
  | .setContinuation =>
      if s.handOff.attacher = .returned then some { s with pc := .suspended } else none
  | .suspended =>
      match cfg.consumer, s.second with
      | .get, .nothing | .uthreadAwait, .nothing => none
      | .get, _ | .uthreadAwait, _ => some { s with pc := .readSecond }
      | .coAwait, _ | .resumeBySchedule, _ =>
          if s.resumed then some { s with pc := .readFuture } else none
  | .readFuture =>
      match cfg.consumer with
      | .coAwait => some { s with pc := .done (awaitResume T (s.getTry t cfg)) }
      | _ => some { s with pc := .done (value T (s.getTry t cfg)) }
  | .readSecond => some { s with pc := .done (value T s.second) }

/-- One step of the continuation. -/
def callbackStep (cfg : Config) (s : State ε T) : Option (State ε T) :=
  match s.callback with
  | .notRun | .ended => none
  | .started t =>
      match cfg.consumer with
      | .get | .uthreadAwait => some { s with second := forwarded T t, callback := .ended }
      | .coAwait | .resumeBySchedule =>
          if cfg.lazyExecutor then
            some { s with callback := .queued }
          else
            some { s with resumed := true, callback := .ended }
  | .queued => some { s with resumed := true, callback := .ended }

/-- The continuation starts when the hand-off invokes it. -/
def callbackAfter (s : State ε T) (handOff : System Unit ε T.Inner Unit) : CallbackPc ε T :=
  if handOff.shared.invoked.length = s.handOff.shared.invoked.length then
    s.callback
  else
    match handOff.shared.invoked with
    | [] => s.callback
    | (_, t) :: _ => .started t

inductive Label where
  | main
  | callback
  /-- a move on the shared state -/
  | handOff (l : FutureState.Label Unit)
deriving DecidableEq, Repr

/-- Whether the move on the shared state can be made now: the consumer calls
{lit}`setContinuation` at one place. -/
def State.allows (s : State ε T) : FutureState.Label Unit → Bool
  | .setContinuation _ =>
      match s.pc with
      | .setContinuation => true
      | _ => false
  | _ => true

def step (t : Try ε T.Inner) (cfg : Config) (s : State ε T) : Label → Option (State ε T)
  | .main => mainStep t cfg s
  | .callback => callbackStep cfg s
  | .handOff l =>
      if s.allows l then
        (FutureState.step (fun _ => t) () s.handOff l).map fun handOff =>
          { s with handOff := handOff, callback := callbackAfter s handOff }
      else
        none

/-- One consumer and the promise side of its future. -/
def machine (t : Try ε T.Inner) (cfg : Config) : Machine (State ε T) Label where
  step := step t cfg

/-- Every consumer, wherever it may be called, gives this outcome: no run of it ends
otherwise, and every run can be brought to its end. -/
def Agrees (broken : ε) (T : Param) (f : Fulfilment ε T) : Prop :=
  ∀ cfg : Config, cfg.Usable T → ∀ ls s,
    (machine (f.toTry broken) cfg).run (State.initial cfg) ls = some s →
      (∀ outcome, s.pc = .done outcome → outcome = f.outcome broken) ∧
      ∃ ks s', (machine (f.toTry broken) cfg).run s ks = some s' ∧
        s'.pc = .done (f.outcome broken)

/-! ## Conversions keep the outcome -/

theorem value_forwarded (T : Param) (t : Try ε T.Inner) :
    value T (forwarded T t) = value T t := by
  cases T with
  | void => cases t <;> rfl
  | type α => rfl

theorem value_toTry (broken : ε) (f : Fulfilment ε T) :
    value T (f.toTry broken) = f.outcome broken := by
  cases T <;> cases f <;> rfl

/-- Only the exception of a {lit}`Future<void>` is lost in {lit}`await_resume`. -/
theorem awaitResume_toTry_iff (broken : ε) (f : Fulfilment ε T) :
    awaitResume T (f.toTry broken) = f.outcome broken ↔
      T.isVoid = false ∨ f.isValue = true := by
  cases T with
  | void =>
      cases f with
      | value v => exact ⟨fun _ => .inr rfl, fun _ => rfl⟩
      | exception e | broken =>
          simp [awaitResume, Fulfilment.outcome, Param.isVoid, Fulfilment.isValue]
  | type α =>
      refine ⟨fun _ => .inl rfl, fun _ => ?_⟩
      exact value_toTry broken f

theorem forwarded_ne_nothing (broken : ε) (f : Fulfilment ε T) :
    forwarded T (f.toTry broken) ≠ .nothing := by
  intro hnothing
  cases T <;> cases f <;> cases hnothing

/-! ## The invariant -/

/-- The consumer takes the result from a second promise. -/
def Consumer.forwards : Consumer → Bool
  | .get | .uthreadAwait => true
  | .coAwait | .resumeBySchedule => false

/-- What the consumer makes of the result. -/
def Consumer.reads (c : Consumer) (t : Try ε T.Inner) : Outcome ε T :=
  match c with
  | .coAwait => awaitResume T t
  | _ => value T t

structure Inv (t : Try ε T.Inner) (cfg : Config) (s : State ε T) : Prop where
  handOff : ∃ ex, HandOffInv t () ex false s.handOff
  notRun_iff : s.callback = .notRun ↔ s.handOff.shared.invoked = []
  started : ∀ t', s.callback = .started t' → t' = t
  second : s.second = .nothing ∨ s.second = forwarded T t
  queued : s.callback = .queued → cfg.consumer.forwards = false
  ended : s.callback = .ended →
    if cfg.consumer.forwards then s.second = forwarded T t else s.resumed = true
  resumed : s.resumed = true → s.handOff.shared.invoked ≠ []
  attaching : s.pc = .hasResult → s.handOff.attacher = .check
  suspended : s.pc = .suspended → s.handOff.attacher = .returned
  readFuture : s.pc = .readFuture → s.hasResult cfg = true
  readSecond : s.pc = .readSecond → cfg.consumer.forwards = true ∧ s.second = forwarded T t
  done : ∀ outcome, s.pc = .done outcome → outcome = cfg.consumer.reads t

namespace Inv

variable {t : Try ε T.Inner} {cfg : Config} {s s' : State ε T}

theorem initial (t : Try ε T.Inner) (cfg : Config) : Inv t cfg (State.initial cfg) := by
  refine ⟨⟨cfg.executor, HandOffInv.initial t () cfg.executor cfg.context false⟩, ?_, ?_,
    .inl rfl, ?_, ?_, ?_, fun _ => rfl, ?_, ?_, ?_, ?_⟩
  · exact ⟨fun _ => rfl, fun _ => rfl⟩
  all_goals intros; simp_all [State.initial]

/-- After the invocation the future has its result. -/
theorem hasResult_of_invoked (h : Inv t cfg s) (hinvoked : s.handOff.shared.invoked ≠ []) :
    s.hasResult cfg = true := by
  rcases h.handOff with ⟨ex, hhandOff⟩
  have hdone := hhandOff.done_of_invoked hinvoked
  cases hsource : cfg.source with
  | localState => simp [State.hasResult, hsource]
  | sharedState => simp [State.hasResult, hsource, hdone]

/-- A future with a result holds that of the promise. -/
theorem getTry_eq (h : Inv t cfg s) (hresult : s.hasResult cfg = true) : s.getTry t cfg = t := by
  rcases h.handOff with ⟨ex, hhandOff⟩
  cases hsource : cfg.source with
  | localState => simp [State.getTry, hsource]
  | sharedState =>
      simp only [State.hasResult, hsource] at hresult
      simp only [State.getTry, hsource]
      exact hhandOff.tryValue_of_hasResult hresult

/-- The consumer goes to another program point. -/
theorem setPc (h : Inv t cfg s) {pc : Pc ε T} (hattaching : pc ≠ .hasResult)
    (hsuspended : pc = .suspended → s.handOff.attacher = .returned)
    (hreadFuture : pc = .readFuture → s.hasResult cfg = true)
    (hreadSecond : pc = .readSecond →
      cfg.consumer.forwards = true ∧ s.second = forwarded T t)
    (hdone : ∀ outcome, pc = .done outcome → outcome = cfg.consumer.reads t) :
    Inv t cfg { s with pc := pc } :=
  { h with
    attaching := fun hpc => absurd hpc hattaching
    suspended := hsuspended
    readFuture := hreadFuture
    readSecond := hreadSecond
    done := hdone }

/-- The outcome is the right one when the future is read. -/
theorem finish (h : Inv t cfg s) {outcome : Outcome ε T}
    (houtcome : outcome = cfg.consumer.reads t) : Inv t cfg { s with pc := .done outcome } := by
  refine h.setPc (by simp) (by simp) (by simp) (by simp) ?_
  intro outcome' hpc
  cases hpc
  exact houtcome

theorem beginSetContinuation (h : Inv t cfg s) : Inv t cfg { s with pc := .setContinuation } :=
  h.setPc (by simp) (by simp) (by simp) (by simp) (by simp)

theorem setExecutor (h : Inv t cfg s) (ex : Option Nat) :
    Inv t cfg { s with handOff := s.handOff.setExecutor ex } := by
  rcases h.handOff with ⟨ex', hhandOff⟩
  exact { h with handOff := ⟨ex, hhandOff.setExecutor ex⟩ }

theorem main (h : Inv t cfg s) (husable : cfg.Usable T) (hstep : mainStep t cfg s = some s') :
    Inv t cfg s' := by
  simp only [mainStep] at hstep
  split at hstep
  · cases hstep
  · -- the first look at the future
    split at hstep
    · next hresult =>
        cases hstep
        exact h.setPc (by simp) (by simp) (fun _ => hresult) (by simp) (by simp)
    · split at hstep
      · cases hstep
        exact (h.setExecutor none).beginSetContinuation
      · next hconsumer =>
          simp only [Config.Usable, hconsumer] at husable
          rw [if_neg husable.1, husable.2] at hstep
          cases hstep
          exact h.beginSetContinuation
      · cases hstep
        exact h.beginSetContinuation
      · cases hstep
        exact h.beginSetContinuation
  · split at hstep
    · next hreturned =>
        cases hstep
        exact h.setPc (by simp) (fun _ => hreturned) (by simp) (by simp) (by simp)
    · cases hstep
  · -- suspended
    cases hconsumer : cfg.consumer with
    | get | uthreadAwait =>
        rcases h.second with hsecond | hsecond
        · simp [hconsumer, hsecond] at hstep
        · have hs' : s' = { s with pc := .readSecond } := by
            rw [hconsumer] at hstep
            split at hstep <;> simp_all
          subst hs'
          exact h.setPc (by simp) (by simp) (by simp)
            (fun _ => ⟨by rw [hconsumer]; rfl, hsecond⟩) (by simp)
    | coAwait | resumeBySchedule =>
        simp only [hconsumer, Option.ite_none_right_eq_some, Option.some.injEq] at hstep
        rcases hstep with ⟨hresumed, rfl⟩
        exact h.setPc (by simp) (by simp)
          (fun _ => h.hasResult_of_invoked (h.resumed hresumed)) (by simp) (by simp)
  · next hpc =>
      have htry := h.getTry_eq (h.readFuture hpc)
      rw [htry] at hstep
      cases hconsumer : cfg.consumer <;> simp only [hconsumer, Option.some.injEq] at hstep <;>
        cases hstep <;> exact h.finish (by rw [hconsumer]; rfl)
  · next hpc =>
      cases hstep
      rcases h.readSecond hpc with ⟨hforwards, hsecond⟩
      refine h.finish ?_
      rw [hsecond, value_forwarded]
      cases hconsumer : cfg.consumer with
      | get | uthreadAwait => rfl
      | coAwait | resumeBySchedule =>
          rw [hconsumer] at hforwards
          cases hforwards

/-- The continuation has been invoked, and goes on. -/
theorem setCallback (h : Inv t cfg s) {pc : CallbackPc ε T} {second : Try ε T.Inner}
    {resumed : Bool} (hinvoked : s.handOff.shared.invoked ≠ [])
    (hpc : pc = .queued ∧ cfg.consumer.forwards = false ∨ pc = .ended ∧
      if cfg.consumer.forwards then second = forwarded T t else resumed = true)
    (hsecond : second = forwarded T t ∨ second = s.second) :
    Inv t cfg { s with callback := pc, second := second, resumed := resumed } := by
  refine { h with
    notRun_iff := ⟨?_, fun hnone => absurd hnone hinvoked⟩
    started := ?_
    second := ?_
    queued := ?_
    ended := ?_
    resumed := fun _ => hinvoked
    readSecond := ?_ }
  · rintro rfl
    rcases hpc with ⟨hpc, -⟩ | ⟨hpc, -⟩ <;> cases hpc
  · rintro t' rfl
    rcases hpc with ⟨hpc, -⟩ | ⟨hpc, -⟩ <;> cases hpc
  · rcases hsecond with rfl | rfl
    · exact .inr rfl
    · exact h.second
  · rintro rfl
    rcases hpc with ⟨-, hforwards⟩ | ⟨hpc, -⟩
    · exact hforwards
    · cases hpc
  · rintro rfl
    rcases hpc with ⟨hpc, -⟩ | ⟨-, hends⟩
    · cases hpc
    · exact hends
  · intro hread
    refine ⟨(h.readSecond hread).1, ?_⟩
    rcases hsecond with rfl | rfl
    · rfl
    · exact (h.readSecond hread).2

theorem callbackMoves (h : Inv t cfg s) (hstep : callbackStep cfg s = some s') : Inv t cfg s' := by
  have hinvoked : s.callback ≠ .notRun → s.handOff.shared.invoked ≠ [] := fun hne hnone =>
    hne (h.notRun_iff.mpr hnone)
  simp only [callbackStep] at hstep
  split at hstep
  · cases hstep
  · cases hstep
  · next t' hcallback =>
      have hrun := hinvoked (by rw [hcallback]; simp)
      cases h.started t' hcallback
      cases hconsumer : cfg.consumer with
      | get | uthreadAwait =>
          simp only [hconsumer, Option.some.injEq] at hstep
          subst hstep
          exact h.setCallback hrun (.inr ⟨rfl, by rw [hconsumer]; rfl⟩) (.inl rfl)
      | coAwait | resumeBySchedule =>
          simp only [hconsumer] at hstep
          split at hstep
          · cases hstep
            exact h.setCallback hrun (.inl ⟨rfl, by rw [hconsumer]; rfl⟩) (.inr rfl)
          · cases hstep
            exact h.setCallback hrun (.inr ⟨rfl, by rw [hconsumer]; rfl⟩) (.inr rfl)
  · next hcallback =>
      have hrun := hinvoked (by rw [hcallback]; simp)
      cases hstep
      exact h.setCallback hrun (.inr ⟨rfl, by rw [h.queued hcallback]; rfl⟩) (.inr rfl)

/-- The hand-off invokes the continuation or leaves it alone. -/
theorem callbackAfter_eq (h : Inv t cfg s) {l : FutureState.Label Unit}
    {handOff : System Unit ε T.Inner Unit}
    (hstep : FutureState.step (fun _ => t) () s.handOff l = some handOff) :
    handOff.shared.invoked = s.handOff.shared.invoked ∧ callbackAfter s handOff = s.callback ∨
      s.handOff.shared.invoked = [] ∧ handOff.shared.invoked = [(some (), t)] ∧
        callbackAfter s handOff = .started t := by
  rcases h.handOff with ⟨ex, hhandOff⟩
  rcases hhandOff.invoked_step hstep with hsame | ⟨hnone, honce⟩
  · exact .inl ⟨hsame, by simp [callbackAfter, hsame]⟩
  · exact .inr ⟨hnone, honce, by simp [callbackAfter, hnone, honce]⟩

theorem handOffMoves (h : Inv t cfg s) {l : FutureState.Label Unit} (hallows : s.allows l = true)
    {handOff : System Unit ε T.Inner Unit}
    (hstep : FutureState.step (fun _ => t) () s.handOff l = some handOff) :
    Inv t cfg { s with handOff := handOff, callback := callbackAfter s handOff } := by
  have hattacher : ∀ pc, s.handOff.attacher = pc → s.pc ≠ .setContinuation →
      handOff.attacher = pc := by
    intro pc hpc hne
    rcases step_attacher hstep with hsame | ⟨answer, rfl⟩
    · rw [hsame, hpc]
    · cases hs : s.pc <;> simp_all [State.allows]
  have hresult : s.hasResult cfg = true → State.hasResult cfg { s with
      handOff := handOff, callback := callbackAfter s handOff } = true := by
    cases hsource : cfg.source with
    | localState => simp [State.hasResult, hsource]
    | sharedState =>
        simp only [State.hasResult, hsource]
        exact step_hasResult hstep
  rcases h.callbackAfter_eq hstep with ⟨hinvoked, hcallback⟩ | ⟨hnone, honce, hcallback⟩
  · rw [hcallback]
    exact { h with
      handOff := h.handOff.imp fun _ hhandOff => hhandOff.step hstep
      notRun_iff := by rw [hinvoked]; exact h.notRun_iff
      resumed := by rw [hinvoked]; exact h.resumed
      attaching := fun hpc => hattacher _ (h.attaching hpc) (by rw [hpc]; simp)
      suspended := fun hpc => hattacher _ (h.suspended hpc) (by rw [hpc]; simp)
      readFuture := fun hpc => hcallback ▸ hresult (h.readFuture hpc) }
  · rw [hcallback]
    exact { h with
      handOff := h.handOff.imp fun _ hhandOff => hhandOff.step hstep
      notRun_iff := by rw [honce]; simp
      started := by simp
      queued := by simp
      ended := by simp
      resumed := by rw [honce]; simp
      attaching := fun hpc => hattacher _ (h.attaching hpc) (by rw [hpc]; simp)
      suspended := fun hpc => hattacher _ (h.suspended hpc) (by rw [hpc]; simp)
      readFuture := fun hpc => hcallback ▸ hresult (h.readFuture hpc) }

theorem step (h : Inv t cfg s) (husable : cfg.Usable T) {l : Label}
    (hstep : Consumers.step t cfg s l = some s') : Inv t cfg s' := by
  cases l with
  | main => exact h.main husable hstep
  | callback => exact h.callbackMoves hstep
  | handOff l =>
      simp only [Consumers.step, Option.ite_none_right_eq_some, Option.map_eq_some_iff] at hstep
      rcases hstep with ⟨hallows, handOff, hmove, rfl⟩
      exact h.handOffMoves hallows hmove

end Inv

/-! ## Every consumer comes to its end -/

/-- Steps that a consumer may still make. -/
def Pc.rank : Pc ε T → Nat
  | .hasResult => 4
  | .setContinuation => 3
  | .suspended => 2
  | .readFuture => 1
  | .readSecond => 1
  | .done _ => 0

def CallbackPc.rank : CallbackPc ε T → Nat
  | .notRun => 3
  | .started _ => 2
  | .queued => 1
  | .ended => 0

def State.rank (s : State ε T) : Nat :=
  s.pc.rank + s.callback.rank + s.handOff.rank

theorem State.rank_setPc {s : State ε T} {pc : Pc ε T} (hlt : pc.rank < s.pc.rank) :
    State.rank { s with pc := pc } < s.rank := by
  simp only [State.rank]
  omega

theorem State.rank_setCallback {s : State ε T} {callback : CallbackPc ε T}
    {second : Try ε T.Inner} {resumed : Bool} (hlt : callback.rank < s.callback.rank) :
    State.rank { s with callback := callback, second := second, resumed := resumed } <
      s.rank := by
  simp only [State.rank]
  omega

namespace Inv

variable {t : Try ε T.Inner} {cfg : Config} {s s' : State ε T}

/-- A move of the hand-off comes closer to the end when it does so for the two calls. -/
theorem exists_step_of_handOff (h : Inv t cfg s) {l : FutureState.Label Unit}
    (hallows : s.allows l = true) {handOff : System Unit ε T.Inner Unit}
    (hstep : FutureState.step (fun _ => t) () s.handOff l = some handOff)
    (hrank : handOff.rank < s.handOff.rank) :
    ∃ l s', Consumers.step t cfg s l = some s' ∧ s'.rank < s.rank := by
  refine ⟨.handOff l, { s with handOff := handOff, callback := callbackAfter s handOff }, ?_, ?_⟩
  · simp [Consumers.step, hallows, hstep]
  · rcases h.callbackAfter_eq hstep with ⟨-, hcallback⟩ | ⟨hnone, -, hcallback⟩
    · simp only [State.rank, hcallback]
      omega
    · simp only [State.rank, hcallback, h.notRun_iff.mpr hnone, CallbackPc.rank]
      omega

theorem exists_step_of_callback (hcallback : s.callback ≠ .notRun) (hended : s.callback ≠ .ended) :
    ∃ l s', Consumers.step t cfg s l = some s' ∧ s'.rank < s.rank := by
  refine ⟨.callback, ?_⟩
  simp only [Consumers.step, callbackStep]
  split
  · next hpc => exact absurd hpc hcallback
  · next hpc => exact absurd hpc hended
  · next t' hpc =>
      split
      · exact ⟨_, rfl, State.rank_setCallback (by simp [hpc, CallbackPc.rank])⟩
      · exact ⟨_, rfl, State.rank_setCallback (by simp [hpc, CallbackPc.rank])⟩
      all_goals
        split
        · exact ⟨_, rfl, State.rank_setCallback (by simp [hpc, CallbackPc.rank])⟩
        · exact ⟨_, rfl, State.rank_setCallback (by simp [hpc, CallbackPc.rank])⟩
  · next hpc => exact ⟨_, rfl, State.rank_setCallback (by simp [hpc, CallbackPc.rank])⟩

/-- A suspended consumer goes on after the continuation. -/
theorem exists_step_of_ended (h : Inv t cfg s) (hforwarded : forwarded T t ≠ .nothing)
    (hpc : s.pc = .suspended) (hended : s.callback = .ended) :
    ∃ l s', Consumers.step t cfg s l = some s' ∧ s'.rank < s.rank := by
  have hends := h.ended hended
  refine ⟨.main, ?_⟩
  simp only [Consumers.step, mainStep, hpc]
  cases hconsumer : cfg.consumer with
  | get | uthreadAwait =>
      rw [hconsumer] at hends
      have hsecond : s.second = forwarded T t := hends
      refine ⟨{ s with pc := .readSecond }, ?_, State.rank_setPc (by simp [hpc, Pc.rank])⟩
      cases hvalue : s.second with
      | nothing => exact absurd (hsecond.symm.trans hvalue) hforwarded
      | value v | error e => rfl
  | coAwait | resumeBySchedule =>
      rw [hconsumer] at hends
      have hresumed : s.resumed = true := hends
      exact ⟨{ s with pc := .readFuture }, by simp [hresumed],
        State.rank_setPc (by simp [hpc, Pc.rank])⟩

theorem exists_step (h : Inv t cfg s) (hforwarded : forwarded T t ≠ .nothing)
    (hdone : ¬ ∃ outcome, s.pc = .done outcome) :
    ∃ l s', Consumers.step t cfg s l = some s' ∧ s'.rank < s.rank := by
  rcases h.handOff with ⟨ex, hhandOff⟩
  have hforce : false = true → ex ≠ none := by simp
  cases hpc : s.pc with
  | done outcome => exact absurd ⟨outcome, hpc⟩ hdone
  | hasResult =>
      refine ⟨.main, ?_⟩
      simp only [Consumers.step, mainStep, hpc]
      split
      · exact ⟨_, rfl, State.rank_setPc (by simp [hpc, Pc.rank])⟩
      · split
        · refine ⟨_, rfl, ?_⟩
          simp only [State.rank, hpc, Pc.rank, System.rank_setExecutor]
          omega
        · split
          · exact ⟨_, rfl, State.rank_setPc (by simp [hpc, Pc.rank])⟩
          · split
            · exact ⟨_, rfl, State.rank_setPc (by simp [hpc, Pc.rank])⟩
            · exact ⟨_, rfl, State.rank_setPc (by simp [hpc, Pc.rank])⟩
        · exact ⟨_, rfl, State.rank_setPc (by simp [hpc, Pc.rank])⟩
        · exact ⟨_, rfl, State.rank_setPc (by simp [hpc, Pc.rank])⟩
  | setContinuation =>
      by_cases hreturned : s.handOff.attacher = .returned
      · exact ⟨.main, { s with pc := .suspended },
          by simp [Consumers.step, mainStep, hpc, hreturned],
          State.rank_setPc (by simp [hpc, Pc.rank])⟩
      · rcases hhandOff.exists_setContinuation hforce hreturned ⟨false, false⟩ with
          ⟨handOff, hmove, hlt⟩
        exact h.exists_step_of_handOff (by simp [State.allows, hpc]) hmove hlt
  | suspended =>
      -- the promise side and the accepted task come before the continuation
      rcases hhandOff.settled_or_exists_step hforce with
        ⟨hsetter, hpending⟩ | ⟨l, handOff, hl, hmove, hlt⟩
      · have hinvoked := hhandOff.invoked_of_completed ⟨hsetter, h.suspended hpc, hpending⟩
        have hrun : s.callback ≠ .notRun := by
          intro hnot
          rw [h.notRun_iff.mp hnot] at hinvoked
          cases hinvoked
        by_cases hended : s.callback = .ended
        · exact h.exists_step_of_ended hforwarded hpc hended
        · exact exists_step_of_callback hrun hended
      · exact h.exists_step_of_handOff (by rcases hl with rfl | rfl <;> rfl) hmove hlt
  | readFuture =>
      refine ⟨.main, ?_⟩
      simp only [Consumers.step, mainStep, hpc]
      split <;> exact ⟨_, rfl, State.rank_setPc (by simp [hpc, Pc.rank])⟩
  | readSecond =>
      exact ⟨.main, _, by simp only [Consumers.step, mainStep, hpc]; rfl,
        State.rank_setPc (by simp [hpc, Pc.rank])⟩

/-- Every run can be brought to its end. -/
theorem exists_done (h : Inv t cfg s) (husable : cfg.Usable T)
    (hforwarded : forwarded T t ≠ .nothing) :
    ∃ ks s', (machine t cfg).run s ks = some s' ∧ s'.pc = .done (cfg.consumer.reads t) := by
  have hprogress : ∀ s, Inv t cfg s → ¬ (∃ outcome, s.pc = .done outcome) →
      ∃ l s', True ∧ (machine t cfg).step s l = some s' ∧ Inv t cfg s' ∧ s'.rank < s.rank := by
    intro s hs hdone
    rcases hs.exists_step hforwarded hdone with ⟨l, s', hstep, hlt⟩
    exact ⟨l, s', trivial, hstep, hs.step husable hstep, hlt⟩
  rcases Machine.exists_run_of_measure _ (fun _ => True) State.rank hprogress h with
    ⟨ks, s', -, hrun, hs', outcome, hdone⟩
  refine ⟨ks, s', hrun, ?_⟩
  rw [hdone, hs'.done outcome hdone]

end Inv

/-! ## Agreement -/

/-- What a consumer makes of the result is all that its runs can end with. -/
theorem agrees_consumer (broken : ε) (f : Fulfilment ε T) (cfg : Config) (husable : cfg.Usable T)
    {ls : List Label} {s : State ε T}
    (hrun : (machine (f.toTry broken) cfg).run (State.initial cfg) ls = some s) :
    (∀ outcome, s.pc = .done outcome → outcome = cfg.consumer.reads (f.toTry broken)) ∧
      ∃ ks s', (machine (f.toTry broken) cfg).run s ks = some s' ∧
        s'.pc = .done (cfg.consumer.reads (f.toTry broken)) := by
  have hinv : Inv (f.toTry broken) cfg s :=
    (machine (f.toTry broken) cfg).run_invariant (fun _ _ _ h hstep => h.step husable hstep)
      (Inv.initial _ cfg) hrun
  exact ⟨hinv.done, hinv.exists_done husable (forwarded_ne_nothing broken f)⟩

/-- A {lit}`Lazy` without an executor awaits a future that is not bound to one. -/
def plainAwait : Config where
  consumer := .coAwait
  source := .sharedState
  executor := none
  context := none
  inExecutor := false
  lazyExecutor := false

/-- {lit}`get` on the same future. -/
def plainGet : Config :=
  { plainAwait with consumer := .get }

/-- The promise is fulfilled after the consumer has attached its continuation. -/
def becomesReady : List Label :=
  [.main] ++ List.replicate 4 (.handOff (.setContinuation ⟨false, false⟩)) ++ [.main] ++
    List.replicate 7 (.handOff (.setResult () ⟨false, false⟩)) ++ [.callback, .main, .main]

end Consumers

end AsyncSimple
