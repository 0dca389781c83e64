import AsyncSimple.Future.Consumers

/-!
# Blocking on a future

{lit}`Future::wait` returns at once when there is a result.  Otherwise it takes the executor
away from the shared state, attaches a continuation that hands the result on to a promise of its
own, blocks on a condition variable, and replaces the future by the one of that promise.

The promise of the future is fulfilled at any moment, before the call, between the test and the
continuation, or later.

Main results:

- Theorem {lit}`Inv.step`: what every run keeps; a future that has been waited for holds the
  result of its promise.
- Theorem {lit}`Blocked.step`: a call that has found no result returns, if at all, a future
  without an executor.
- Theorem {lit}`transparent_iff`: the executor is kept exactly if there was a result or there is
  no executor.
-/

namespace AsyncSimple

open Transition FutureState Consumers

namespace Wait

variable {ε : Type} {T : Param}

/-- The future and where {lit}`wait` is called: the executor, context and force flag of its
state, and whether the calling thread is in that executor. -/
structure Config where
  source : Source
  executor : Option Nat
  context : Option Nat
  forceSched : Bool
  inExecutor : Bool
deriving DecidableEq, Repr

/-- Program points of {lit}`wait`. -/
inductive Pc where
  | hasResult
  | setExecutor
  | setContinuation
  /-- {lit}`cv.wait` -/
  | wait
  /-- {lit}`*this = std::move(future)` -/
  | assign
  | returned
  | assertFailed
deriving DecidableEq, Repr

/-- Program points of the continuation, which holds the mutex until it has ended. -/
inductive CallbackPc (ε : Type) (T : Param) where
  | notRun
  | started (t : Try ε T.Inner)
  /-- {lit}`p.setValue` has returned -/
  | fulfilled
  /-- {lit}`done` is set -/
  | ended

/-- The state that the future refers to: its own, or that of the promise in {lit}`wait`. -/
inductive Backing where
  | mine
  | fresh
deriving DecidableEq, Repr

structure State (ε : Type) (T : Param) where
  handOff : System Unit ε T.Inner Unit
  fresh : FutureState ε T.Inner Unit
  pc : Pc
  callback : CallbackPc ε T
  future : Backing

def State.initial (cfg : Config) : State ε T where
  handOff := System.initial (configured cfg.executor cfg.context cfg.forceSched)
  fresh := .create
  pc := .hasResult
  callback := .notRun
  future := .mine

/-- {lit}`Future::hasResult`. -/
def State.hasResult (cfg : Config) (s : State ε T) : Bool :=
  match s.future, cfg.source with
  | .fresh, _ => s.fresh.state.hasResult
  | .mine, .localState => true
  | .mine, .sharedState => s.handOff.shared.fs.state.hasResult

/-- {lit}`Future::getTry`; a local state holds {lit}`t`. -/
def State.getTry (t : Try ε T.Inner) (cfg : Config) (s : State ε T) : Try ε T.Inner :=
  match s.future, cfg.source with
  | .fresh, _ => s.fresh.tryValue
  | .mine, .localState => t
  | .mine, .sharedState => s.handOff.shared.fs.tryValue

/-- {lit}`Future::getExecutor`. -/
def State.getExecutor (cfg : Config) (s : State ε T) : Option Nat :=
  match s.future, cfg.source with
  | .fresh, _ => s.fresh.executor
  | .mine, .localState => cfg.executor
  | .mine, .sharedState => s.handOff.shared.fs.executor

/-- {lit}`setResult` on a state that has neither a result nor a continuation. -/
def fulfil (fs : FutureState ε T.Inner Unit) (t : Try ε T.Inner) : FutureState ε T.Inner Unit :=
  { fs with state := .onlyResult, tryValue := t }

/-- One step of {lit}`wait`. -/
def mainStep (cfg : Config) (s : State ε T) : Option (State ε T) :=
  match s.pc with
  | .returned | .assertFailed => none
  | .hasResult =>
      if s.hasResult cfg then
        some { s with pc := .returned }
      else if currentThreadInExecutor s.handOff.shared.fs ⟨cfg.inExecutor, false⟩ then
        some { s with pc := .assertFailed }
      else
        some { s with pc := .setExecutor }
  | .setExecutor => some { s with handOff := s.handOff.setExecutor none, pc := .setContinuation }
  | .setContinuation =>
      if s.handOff.attacher = .returned then some { s with pc := .wait } else none
  | .wait =>
      match s.callback with
      | .ended => some { s with pc := .assign }
      | _ => none
  | .assign =>
      some { s with
        future := .fresh
        pc := if s.fresh.state.hasResult then .returned else .assertFailed }

/-- One step of the continuation. -/
def callbackStep (s : State ε T) : Option (State ε T) :=
  match s.callback with
  | .notRun | .ended => none
  | .started t => some { s with fresh := fulfil s.fresh (forwarded T t), callback := .fulfilled }
  | .fulfilled => some { s with callback := .ended }

/-- The continuation starts when the hand-off invokes it. -/
def callbackAfter (s : State ε T) (handOff : System Unit ε T.Inner Unit) : CallbackPc ε T :=
  if handOff.shared.invoked.length = s.handOff.shared.invoked.length then
    s.callback
  else
    match handOff.shared.invoked with
    | [] => s.callback
    | (_, t) :: _ => .started t

inductive Label where
  | main
  | callback
  /-- a move on the shared state -/
  | handOff (l : FutureState.Label Unit)
deriving DecidableEq, Repr

/-- Whether the move on the shared state can be made now: {lit}`wait` calls
{lit}`setContinuation` at one place. -/
def State.allows (s : State ε T) : FutureState.Label Unit → Bool
  | .setContinuation _ => s.pc = .setContinuation
  | _ => true

def step (t : Try ε T.Inner) (cfg : Config) (s : State ε T) : Label → Option (State ε T)
  | .main => mainStep cfg s
  | .callback => callbackStep s
  | .handOff l =>
      if s.allows l then
        (FutureState.step (fun _ => t) () s.handOff l).map fun handOff =>
          { s with handOff := handOff, callback := callbackAfter s handOff }
      else
        none

/-- A call of {lit}`wait` and the promise side of the future. -/
def machine (t : Try ε T.Inner) (cfg : Config) : Machine (State ε T) Label where
  step := step t cfg

/-! ## Transparency -/

/-- The future has the result of its promise, and the executor it had. -/
structure Kept (t : Try ε T.Inner) (cfg : Config) (s : State ε T) : Prop where
  hasResult : s.hasResult cfg = true
  getTry : s.getTry t cfg = t
  getExecutor : s.getExecutor cfg = cfg.executor

/-- From the state {lit}`s` on, {lit}`wait` always returns and leaves the future as it was. -/
def Transparent (t : Try ε T.Inner) (cfg : Config) (s : State ε T) : Prop :=
  ∀ ls s', (machine t cfg).run s ls = some s' →
    (s'.pc = .returned → Kept t cfg s') ∧
    ∃ ks u, (machine t cfg).run s' ks = some u ∧ u.pc = .returned

/-- A future that refers to its own state does not see the promise in {lit}`wait`. -/
theorem State.hasResult_congr {cfg : Config} {s s' : State ε T} (hmine : s.future = .mine)
    (hmine' : s'.future = .mine) (hhandOff : s'.handOff = s.handOff) :
    s'.hasResult cfg = s.hasResult cfg := by
  cases hsource : cfg.source with
  | localState => simp [State.hasResult, hmine, hmine', hsource]
  | sharedState => simp [State.hasResult, hmine, hmine', hsource, hhandOff]

/-! ## The invariant -/

/-- {lit}`wait` has not changed anything. -/
def Pc.early : Pc → Bool
  | .hasResult | .setExecutor | .assertFailed => true
  | _ => false

/-- {lit}`p.setValue` has returned. -/
def CallbackPc.hasSet : CallbackPc ε T → Bool
  | .fulfilled | .ended => true
  | _ => false

structure Inv (t : Try ε T.Inner) (cfg : Config) (s : State ε T) : Prop where
  handOff : HandOffInv t () s.handOff.shared.fs.executor cfg.forceSched s.handOff
  notRun_iff : s.callback = .notRun ↔ s.handOff.shared.invoked = []
  started : ∀ t', s.callback = .started t' → t' = t
  fresh : s.fresh = if s.callback.hasSet then fulfil .create (forwarded T t) else .create
  attaching : s.pc.early = true → s.handOff.attacher = .check
  waiting : s.pc = .wait → s.handOff.attacher = .returned
  assigning : s.pc = .assign ∨ s.future = .fresh → s.callback = .ended
  reassigned : s.future = .fresh → s.pc = .returned
  mine : s.future = .mine → s.pc = .returned → s.hasResult cfg = true
  executor : s.pc = .hasResult ∨ s.pc = .returned ∧ s.future = .mine →
    s.handOff.shared.fs.executor = cfg.executor
  asserted : s.pc = .assertFailed → cfg.executor ≠ none

namespace Inv

variable {t : Try ε T.Inner} {cfg : Config} {s s' : State ε T}

theorem initial (t : Try ε T.Inner) (cfg : Config) : Inv t cfg (State.initial cfg) where
  handOff := HandOffInv.initial t () cfg.executor cfg.context cfg.forceSched
  notRun_iff := ⟨fun _ => rfl, fun _ => rfl⟩
  started := by simp [State.initial]
  fresh := rfl
  attaching := fun _ => rfl
  waiting := by simp [State.initial]
  assigning := by simp [State.initial]
  reassigned := by simp [State.initial]
  mine := by simp [State.initial]
  executor := fun _ => rfl
  asserted := by simp [State.initial]

/-- A future that refers to its own state holds the result of its promise. -/
theorem getTry_mine (h : Inv t cfg s) (hmine : s.future = .mine)
    (hresult : s.hasResult cfg = true) : s.getTry t cfg = t := by
  cases hsource : cfg.source with
  | localState => simp [State.getTry, hmine, hsource]
  | sharedState =>
      simp only [State.hasResult, hmine, hsource] at hresult
      simp only [State.getTry, hmine, hsource]
      exact h.handOff.tryValue_of_hasResult hresult

/-- After the continuation, the promise in {lit}`wait` is fulfilled. -/
theorem fresh_of_ended (h : Inv t cfg s) (hended : s.callback = .ended) :
    s.fresh = fulfil .create (forwarded T t) := by
  rw [h.fresh, hended]
  rfl

/-- A call that has returned leaves the result of the promise. -/
theorem result_of_returned (h : Inv t cfg s) (hforwarded : forwarded T t = t)
    (hpc : s.pc = .returned) : s.hasResult cfg = true ∧ s.getTry t cfg = t := by
  cases hfuture : s.future with
  | mine =>
      have hresult := h.mine hfuture hpc
      exact ⟨hresult, h.getTry_mine hfuture hresult⟩
  | fresh =>
      have hfresh := h.fresh_of_ended (h.assigning (.inr hfuture))
      simp only [State.hasResult, State.getTry, hfuture, hfresh, fulfil]
      exact ⟨rfl, hforwarded⟩

/-- {lit}`wait` goes to another program point. -/
theorem setPc (h : Inv t cfg s) {pc : Pc} (hnot : s.pc ≠ .returned)
    (hearly : pc.early = true → s.pc.early = true)
    (hwaiting : pc = .wait → s.handOff.attacher = .returned)
    (hassigning : pc = .assign → s.callback = .ended)
    (hmine : s.future = .mine → pc = .returned → s.hasResult cfg = true)
    (hexecutor : pc = .hasResult ∨ pc = .returned ∧ s.future = .mine →
      s.handOff.shared.fs.executor = cfg.executor)
    (hasserted : pc = .assertFailed → cfg.executor ≠ none) : Inv t cfg { s with pc := pc } :=
  { h with
    attaching := fun hpc => h.attaching (hearly hpc)
    waiting := hwaiting
    assigning := fun hpc => hpc.elim hassigning fun hfresh => h.assigning (.inr hfresh)
    reassigned := fun hfresh => absurd (h.reassigned hfresh) hnot
    mine := hmine
    executor := hexecutor
    asserted := hasserted }

theorem main (h : Inv t cfg s) (hstep : mainStep cfg s = some s') : Inv t cfg s' := by
  simp only [mainStep] at hstep
  split at hstep
  case h_1 | h_2 => cases hstep
  case h_3 hpc =>
    split at hstep
    · next hresult =>
        cases hstep
        exact h.setPc (by simp [hpc]) (by simp [Pc.early]) (by simp) (by simp) (fun _ _ => hresult)
          (fun _ => h.executor (.inl hpc)) (by simp)
    · split at hstep
      · next hin =>
          cases hstep
          refine h.setPc (by simp [hpc]) (fun _ => by rw [hpc]; rfl) (by simp) (by simp)
            (by simp) (by simp) ?_
          intro _ hnone
          simp [currentThreadInExecutor, h.executor (.inl hpc), hnone] at hin
      · cases hstep
        exact h.setPc (by simp [hpc]) (fun _ => by rw [hpc]; rfl) (by simp) (by simp)
          (by simp) (by simp) (by simp)
  case h_4 hpc =>
    cases hstep
    have hcleared : Inv t cfg { s with pc := .setContinuation } :=
      h.setPc (by simp [hpc]) (by simp [Pc.early]) (by simp) (by simp) (by simp) (by simp) (by simp)
    exact { hcleared with
      handOff := h.handOff.setExecutor_of_imp fun _ => rfl
      attaching := by simp [Pc.early]
      waiting := by simp
      reassigned := hcleared.reassigned
      mine := by simp
      executor := by simp }
  case h_5 hpc =>
    split at hstep
    · next hreturned =>
        cases hstep
        exact h.setPc (by simp [hpc]) (by simp [Pc.early]) (fun _ => hreturned) (by simp)
          (by simp) (by simp) (by simp)
    · cases hstep
  case h_6 hpc =>
    split at hstep
    · next hended =>
        cases hstep
        exact h.setPc (by simp [hpc]) (by simp [Pc.early]) (by simp) (fun _ => hended)
          (by simp) (by simp) (by simp)
    · cases hstep
  case h_7 hpc =>
    cases hstep
    have hended := h.assigning (.inl hpc)
    rw [h.fresh_of_ended hended]
    -- the second `assert` holds
    exact { h with
      fresh := by rw [hended]; rfl
      attaching := by simp [fulfil, Pc.early]
      waiting := by simp [fulfil]
      assigning := fun _ => hended
      reassigned := by simp [fulfil]
      mine := by simp
      executor := by simp [fulfil]
      asserted := by simp [fulfil] }

/-- The continuation goes on. -/
theorem setCallback (h : Inv t cfg s) {pc : CallbackPc ε T} {fresh : FutureState ε T.Inner Unit}
    (hrun : s.callback ≠ .notRun) (hnotEnded : s.callback ≠ .ended) (hset : pc.hasSet = true)
    (hfresh : fresh = fulfil .create (forwarded T t)) :
    Inv t cfg { s with fresh := fresh, callback := pc } := by
  have hmine : s.future = .mine := by
    cases hfuture : s.future with
    | mine => rfl
    | fresh => exact absurd (h.assigning (.inr hfuture)) hnotEnded
  refine { h with
    notRun_iff := iff_of_false ?_ (mt h.notRun_iff.mpr hrun)
    started := ?_
    fresh := ?_
    assigning := ?_
    mine := ?_ }
  · rintro rfl
    cases hset
  · rintro t' rfl
    cases hset
  · rw [hfresh, hset]
    rfl
  · rintro (hpc | hfresh')
    · exact absurd (h.assigning (.inl hpc)) hnotEnded
    · exact absurd (h.assigning (.inr hfresh')) hnotEnded
  · intro _ hpc
    have hsame : State.hasResult cfg { s with fresh := fresh, callback := pc } = s.hasResult cfg :=
      State.hasResult_congr hmine hmine rfl
    rw [hsame]
    exact h.mine hmine hpc

theorem callbackMoves (h : Inv t cfg s) (hstep : callbackStep s = some s') : Inv t cfg s' := by
  simp only [callbackStep] at hstep
  split at hstep
  case h_1 | h_2 => cases hstep
  case h_3 t' hcallback =>
    cases hstep
    cases h.started t' hcallback
    refine h.setCallback (by simp [hcallback]) (by simp [hcallback]) rfl ?_
    rw [h.fresh, hcallback]
    rfl
  case h_4 hcallback =>
    cases hstep
    refine h.setCallback (by simp [hcallback]) (by simp [hcallback]) rfl ?_
    rw [h.fresh, hcallback]
    rfl

/-- The hand-off invokes the continuation or leaves it alone. -/
theorem callbackAfter_eq (h : Inv t cfg s) {l : FutureState.Label Unit}
    {handOff : System Unit ε T.Inner Unit}
    (hstep : FutureState.step (fun _ => t) () s.handOff l = some handOff) :
    handOff.shared.invoked = s.handOff.shared.invoked ∧ callbackAfter s handOff = s.callback ∨
      s.handOff.shared.invoked = [] ∧ handOff.shared.invoked = [(some (), t)] ∧
        callbackAfter s handOff = .started t := by
  rcases h.handOff.invoked_step hstep with hsame | ⟨hnone, honce⟩
  · exact .inl ⟨hsame, by simp [callbackAfter, hsame]⟩
  · exact .inr ⟨hnone, honce, by simp [callbackAfter, hnone, honce]⟩

/-- A result stays. -/
theorem hasResult_handOff {l : FutureState.Label Unit} {handOff : System Unit ε T.Inner Unit}
    (hstep : FutureState.step (fun _ => t) () s.handOff l = some handOff)
    {callback : CallbackPc ε T} (hresult : s.hasResult cfg = true) :
    State.hasResult cfg { s with handOff := handOff, callback := callback } = true := by
  cases hfuture : s.future with
  | fresh => simpa [State.hasResult, hfuture] using hresult
  | mine =>
      cases hsource : cfg.source with
      | localState => simp [State.hasResult, hsource]
      | sharedState =>
          simp only [State.hasResult, hfuture, hsource] at hresult ⊢
          exact step_hasResult hstep hresult

theorem handOffMoves (h : Inv t cfg s) {l : FutureState.Label Unit} (hallows : s.allows l = true)
    {handOff : System Unit ε T.Inner Unit}
    (hstep : FutureState.step (fun _ => t) () s.handOff l = some handOff) :
    Inv t cfg { s with handOff := handOff, callback := callbackAfter s handOff } := by
  have hattacher : ∀ pc, s.handOff.attacher = pc → s.pc ≠ .setContinuation →
      handOff.attacher = pc := by
    intro pc hpc hne
    rcases step_attacher hstep with hsame | ⟨answer, rfl⟩
    · rw [hsame, hpc]
    · simp [State.allows, hne] at hallows
  have hearly : s.pc.early = true → s.pc ≠ .setContinuation := by
    rintro hearly hpc
    rw [hpc] at hearly
    cases hearly
  have hhandOff := h.handOff.step hstep
  have hexecutor := hhandOff.2.executor_eq
  rw [← hexecutor] at hhandOff
  rcases h.callbackAfter_eq hstep with ⟨hinvoked, hcallback⟩ | ⟨hnone, honce, hcallback⟩
  · rw [hcallback]
    exact { h with
      handOff := hhandOff
      notRun_iff := by rw [hinvoked]; exact h.notRun_iff
      attaching := fun hpc => hattacher _ (h.attaching hpc) (hearly hpc)
      waiting := fun hpc => hattacher _ (h.waiting hpc) (by rw [hpc]; simp)
      mine := fun hmine hpc => hasResult_handOff hstep (h.mine hmine hpc)
      executor := fun hpc => hexecutor.trans (h.executor hpc) }
  · have hnotRun := h.notRun_iff.mpr hnone
    rw [hcallback]
    exact { h with
      handOff := hhandOff
      notRun_iff := by rw [honce]; simp
      started := by simp
      fresh := by rw [h.fresh, hnotRun]; rfl
      attaching := fun hpc => hattacher _ (h.attaching hpc) (hearly hpc)
      waiting := fun hpc => hattacher _ (h.waiting hpc) (by rw [hpc]; simp)
      assigning := fun hpc => by
        have hended := h.assigning hpc
        rw [hnotRun] at hended
        cases hended
      mine := fun hmine hpc => hasResult_handOff hstep (h.mine hmine hpc)
      executor := fun hpc => hexecutor.trans (h.executor hpc) }

theorem step (h : Inv t cfg s) {l : Label} (hstep : Wait.step t cfg s l = some s') :
    Inv t cfg s' := by
  cases l with
  | main => exact h.main hstep
  | callback => exact h.callbackMoves hstep
  | handOff l =>
      simp only [Wait.step, Option.ite_none_right_eq_some, Option.map_eq_some_iff] at hstep
      rcases hstep with ⟨hallows, handOff, hmove, rfl⟩
      exact h.handOffMoves hallows hmove

theorem run (h : Inv t cfg s) {ls : List Label} (hrun : (machine t cfg).run s ls = some s') :
    Inv t cfg s' :=
  (machine t cfg).run_invariant (fun _ _ _ h hstep => h.step hstep) h hrun

end Inv

/-! ## A call that finds a result -/

/-- The future has a result, and the call has not passed its test or has returned. -/
structure Ready (cfg : Config) (s : State ε T) : Prop where
  hasResult : s.hasResult cfg = true
  mine : s.future = .mine
  pc : s.pc = .hasResult ∨ s.pc = .returned

section

variable {t : Try ε T.Inner} {cfg : Config} {s s' : State ε T}

theorem Ready.step (h : Ready cfg s) {l : Label} (hstep : Wait.step t cfg s l = some s') :
    Ready cfg s' := by
  cases l with
  | main =>
      rcases h.pc with hpc | hpc
      · simp only [Wait.step, mainStep, hpc, h.hasResult, if_true] at hstep
        cases hstep
        exact ⟨h.hasResult, h.mine, .inr rfl⟩
      · simp only [Wait.step, mainStep, hpc] at hstep
        cases hstep
  | callback =>
      have hkeeps : s'.future = s.future ∧ s'.pc = s.pc ∧ s'.handOff = s.handOff := by
        simp only [Wait.step, callbackStep] at hstep
        split at hstep <;> cases hstep <;> exact ⟨rfl, rfl, rfl⟩
      rcases hkeeps with ⟨hfuture, hpc, hhandOff⟩
      refine ⟨?_, hfuture.trans h.mine, by rw [hpc]; exact h.pc⟩
      rw [State.hasResult_congr h.mine (hfuture.trans h.mine) hhandOff]
      exact h.hasResult
  | handOff l =>
      simp only [Wait.step, Option.ite_none_right_eq_some, Option.map_eq_some_iff] at hstep
      rcases hstep with ⟨-, handOff, hmove, rfl⟩
      exact ⟨Inv.hasResult_handOff hmove h.hasResult, h.mine, h.pc⟩

/-- With a result at the test, nothing is changed. -/
theorem Ready.transparent (h : Ready cfg s) (hinv : Inv t cfg s) : Transparent t cfg s := by
  intro ls s' hrun
  have hready : Ready cfg s' :=
    (machine t cfg).run_invariant (fun _ _ _ h hstep => h.step hstep) h hrun
  have hinv' := hinv.run hrun
  constructor
  · intro hpc
    refine ⟨hready.hasResult, hinv'.getTry_mine hready.mine hready.hasResult, ?_⟩
    have hexecutor := hinv'.executor (.inr ⟨hpc, hready.mine⟩)
    cases hsource : cfg.source with
    | localState => simp [State.getExecutor, hready.mine, hsource]
    | sharedState => simpa [State.getExecutor, hready.mine, hsource] using hexecutor
  · rcases hready.pc with hpc | hpc
    · refine ⟨[.main], { s' with pc := .returned }, ?_, rfl⟩
      simp [Machine.run, machine, Wait.step, mainStep, hpc, hready.hasResult]
    · exact ⟨[], s', rfl, hpc⟩

end

/-! ## A call that finds no result -/

/-- The program points behind the decision how a continuation is run. -/
def dispatched : FutureState.Pc → Bool
  | .submit _ | .inplace | .fallback => true
  | _ => false

/-- Nobody is about to run the continuation, and nobody has. -/
structure Silent (s : System Unit ε T.Inner Unit) : Prop where
  setter : dispatched (s.setter ()) = false
  attacher : dispatched s.attacher = false
  pending : s.shared.pending = 0
  invoked : s.shared.invoked = []

section

variable {t : Try ε T.Inner} {cfg : Config} {s s' : State ε T}

/-- With forced scheduling and no executor, a call gets no further than the decision. -/
theorem transferStep_silent {side : Side}
    {write : FutureState ε T.Inner Unit → FutureState ε T.Inner Unit}
    {sh sh' : Shared ε T.Inner Unit} {answer : Answer} {pc pc' : FutureState.Pc}
    (hforced : sh.fs.forceSched = true) (hnone : sh.fs.executor = none)
    (hpc : dispatched pc = false) (h : transferStep side write sh answer pc = some (sh', pc')) :
    dispatched pc' = false ∧ sh'.pending = sh.pending ∧ sh'.invoked = sh.invoked := by
  cases pc with
  | check | assertDone =>
      cases h
      split <;> exact ⟨rfl, rfl, rfl⟩
  | store | assertOther expected | accepted =>
      cases h
      exact ⟨rfl, rfl, rfl⟩
  | load =>
      cases h
      split
      · exact ⟨rfl, rfl, rfl⟩
      · split <;> exact ⟨rfl, rfl, rfl⟩
  | casStart | casDone expected =>
      simp only [transferStep] at h
      split at h <;> cases h <;> exact ⟨rfl, rfl, rfl⟩
  | dispatch =>
      simp only [transferStep, scheduleContinuationStep, hforced, hnone] at h
      cases h
      exact ⟨rfl, rfl, rfl⟩
  | submit route | inplace | fallback => cases hpc
  | returned | threw e | nullExecutor => cases h

theorem Silent.step {u u' : System Unit ε T.Inner Unit} (h : Silent u)
    (hforced : u.shared.fs.forceSched = true) (hnone : u.shared.fs.executor = none)
    {l : FutureState.Label Unit} (hstep : FutureState.step (fun _ => t) () u l = some u') :
    Silent u' := by
  cases l with
  | setResult i answer =>
      simp only [FutureState.step, Option.map_eq_some_iff] at hstep
      rcases hstep with ⟨⟨sh, pc⟩, hmove, rfl⟩
      rcases transferStep_silent hforced hnone h.setter hmove with ⟨hpc, hpending, hinvoked⟩
      exact ⟨by simpa using hpc, h.attacher, hpending.trans h.pending, hinvoked.trans h.invoked⟩
  | setContinuation answer =>
      simp only [FutureState.step, Option.map_eq_some_iff] at hstep
      rcases hstep with ⟨⟨sh, pc⟩, hmove, rfl⟩
      rcases transferStep_silent hforced hnone h.attacher hmove with ⟨hpc, hpending, hinvoked⟩
      exact ⟨h.setter, hpc, hpending.trans h.pending, hinvoked.trans h.invoked⟩
  | runTask =>
      have hpending := (step_runTask hstep).1
      rw [h.pending] at hpending
      cases hpending

/-- Without a continuation there is nothing to run. -/
theorem silent_of_check {executor : Option Nat} {forceSched : Bool}
    {u : System Unit ε T.Inner Unit} (h : HandOffInv t () executor forceSched u)
    (hcheck : u.attacher = .check) : Silent u := by
  have hquiet := h.1.debt.quiet (h.not_done (by rw [hcheck]; rfl))
  rcases hquiet with ⟨hpending, hinvoked, -, hsetter⟩
  refine ⟨?_, by rw [hcheck]; rfl, hpending, hinvoked⟩
  have howing := hsetter ()
  revert howing
  cases u.setter () <;> simp [dispatched, FutureState.Pc.phase]

/-- The call has passed its test without a result. -/
structure Blocked (cfg : Config) (s : State ε T) : Prop where
  pc : s.pc ≠ .hasResult
  returned : s.pc = .returned → s.future = .fresh
  executor : s.pc.early = true ∨ s.handOff.shared.fs.executor = none
  silent : cfg.forceSched = true → Silent s.handOff

namespace Blocked

/-- The first step of such a call. -/
theorem exists_step (hinv : Inv t cfg s) (hpc : s.pc = .hasResult)
    (hresult : s.hasResult cfg = false) :
    ∃ s', mainStep cfg s = some s' ∧ Blocked cfg s' := by
  have hsilent : Silent s.handOff :=
    silent_of_check hinv.handOff (hinv.attaching (by rw [hpc]; rfl))
  simp only [mainStep, hpc, hresult, Bool.false_eq_true, if_false]
  split
  · exact ⟨_, rfl, by simp, by simp, .inl rfl, fun _ => hsilent⟩
  · exact ⟨_, rfl, by simp, by simp, .inl rfl, fun _ => hsilent⟩

theorem main (h : Blocked cfg s) (hstep : mainStep cfg s = some s') : Blocked cfg s' := by
  simp only [mainStep] at hstep
  split at hstep
  case h_1 | h_2 => cases hstep
  case h_3 hpc => exact absurd hpc h.pc
  case h_4 hpc =>
    cases hstep
    refine ⟨by simp, by simp, .inr rfl, fun hforced => ?_⟩
    have hsilent := h.silent hforced
    exact ⟨hsilent.setter, hsilent.attacher, hsilent.pending, hsilent.invoked⟩
  case h_5 hpc =>
    have hnone := h.executor.resolve_left (by rw [hpc]; simp [Pc.early])
    split at hstep
    · cases hstep
      exact ⟨by simp, by simp, .inr hnone, h.silent⟩
    · cases hstep
  case h_6 hpc =>
    have hnone := h.executor.resolve_left (by rw [hpc]; simp [Pc.early])
    split at hstep
    · cases hstep
      exact ⟨by simp, by simp, .inr hnone, h.silent⟩
    · cases hstep
  case h_7 hpc =>
    have hnone := h.executor.resolve_left (by rw [hpc]; simp [Pc.early])
    cases hstep
    refine ⟨?_, fun _ => rfl, .inr hnone, h.silent⟩
    change (if s.fresh.state.hasResult = true then Pc.returned else Pc.assertFailed) ≠ .hasResult
    split <;> simp

theorem step (h : Blocked cfg s) (hinv : Inv t cfg s) {l : Label}
    (hstep : Wait.step t cfg s l = some s') : Blocked cfg s' := by
  cases l with
  | main => exact h.main hstep
  | callback =>
      simp only [Wait.step, callbackStep] at hstep
      split at hstep <;> cases hstep <;> exact ⟨h.pc, h.returned, h.executor, h.silent⟩
  | handOff l =>
      have hinv' := hinv.step hstep
      simp only [Wait.step, Option.ite_none_right_eq_some, Option.map_eq_some_iff] at hstep
      rcases hstep with ⟨-, handOff, hmove, rfl⟩
      have hexecutor : handOff.shared.fs.executor = s.handOff.shared.fs.executor :=
        (hinv.handOff.2.step hmove).executor_eq
      refine ⟨h.pc, h.returned, ?_, fun hforced => ?_⟩
      · rw [hexecutor]
        exact h.executor
      · rcases h.executor with hearly | hnone
        · exact silent_of_check hinv'.handOff (hinv'.attaching hearly)
        · have hforceSched : s.handOff.shared.fs.forceSched = true :=
            hinv.handOff.2.forceSched_eq.trans hforced
          exact (h.silent hforced).step hforceSched hnone hmove

/-- When such a call returns, the future has no executor, and scheduling was not forced. -/
theorem of_returned (h : Blocked cfg s) (hinv : Inv t cfg s) (hpc : s.pc = .returned) :
    s.getExecutor cfg = none ∧ cfg.forceSched = false := by
  have hfresh := h.returned hpc
  have hended := hinv.assigning (.inr hfresh)
  constructor
  · simp only [State.getExecutor, hfresh, hinv.fresh_of_ended hended]
    rfl
  · by_contra hforced
    have hnotRun := hinv.notRun_iff.mpr (h.silent (by simpa using hforced)).invoked
    rw [hended] at hnotRun
    cases hnotRun

end Blocked

end

/-! ## A future without an executor -/

/-- Steps that {lit}`wait` may still make. -/
def Pc.rank : Pc → Nat
  | .hasResult => 5
  | .setExecutor => 4
  | .setContinuation => 3
  | .wait => 2
  | .assign => 1
  | .returned | .assertFailed => 0

def CallbackPc.rank : CallbackPc ε T → Nat
  | .notRun => 3
  | .started _ => 2
  | .fulfilled => 1
  | .ended => 0

def State.rank (s : State ε T) : Nat :=
  s.pc.rank + s.callback.rank + s.handOff.rank

theorem State.rank_setPc {s : State ε T} {pc : Pc} (hlt : pc.rank < s.pc.rank) :
    State.rank { s with pc := pc } < s.rank := by
  simp only [State.rank]
  omega

namespace Inv

variable {t : Try ε T.Inner} {cfg : Config} {s : State ε T}

/-- A move of the hand-off comes closer to the end when it does so for the two calls. -/
theorem exists_step_of_handOff (h : Inv t cfg s) {l : FutureState.Label Unit}
    (hallows : s.allows l = true) {handOff : System Unit ε T.Inner Unit}
    (hstep : FutureState.step (fun _ => t) () s.handOff l = some handOff)
    (hrank : handOff.rank < s.handOff.rank) :
    ∃ l s', Wait.step t cfg s l = some s' ∧ s'.rank < s.rank := by
  refine ⟨.handOff l, { s with handOff := handOff, callback := callbackAfter s handOff }, ?_, ?_⟩
  · simp [Wait.step, hallows, hstep]
  · rcases h.callbackAfter_eq hstep with ⟨-, hcallback⟩ | ⟨hnone, -, hcallback⟩
    · simp only [State.rank, hcallback]
      omega
    · simp only [State.rank, hcallback, h.notRun_iff.mpr hnone, CallbackPc.rank]
      omega

/-- The continuation has been invoked when {lit}`wait` blocks and the others have come to their
ends; it goes on, or has ended. -/
theorem exists_step_of_invoked (hpc : s.pc = .wait) (hrun : s.callback ≠ .notRun) :
    ∃ l s', Wait.step t cfg s l = some s' ∧ s'.rank < s.rank := by
  cases hcallback : s.callback with
  | notRun => exact absurd hcallback hrun
  | started t' =>
      refine ⟨.callback, _, by simp only [Wait.step, callbackStep, hcallback]; rfl, ?_⟩
      simp only [State.rank, hcallback, CallbackPc.rank]
      omega
  | fulfilled =>
      refine ⟨.callback, _, by simp only [Wait.step, callbackStep, hcallback]; rfl, ?_⟩
      simp only [State.rank, hcallback, CallbackPc.rank]
      omega
  | ended =>
      exact ⟨.main, _, by simp only [Wait.step, mainStep, hpc, hcallback]; rfl,
        State.rank_setPc (by simp [hpc, Pc.rank])⟩

theorem exists_step (h : Inv t cfg s) (hexecutor : cfg.executor = none)
    (hforceSched : cfg.forceSched = false) (hpc : s.pc ≠ .returned) :
    ∃ l s', Wait.step t cfg s l = some s' ∧ s'.rank < s.rank := by
  have hforce : cfg.forceSched = true → s.handOff.shared.fs.executor ≠ none := by
    simp [hforceSched]
  cases hpc' : s.pc with
  | returned => exact absurd hpc' hpc
  | assertFailed => exact absurd hexecutor (h.asserted hpc')
  | hasResult =>
      refine ⟨.main, ?_⟩
      simp only [Wait.step, mainStep, hpc']
      split
      · exact ⟨_, rfl, State.rank_setPc (by simp [hpc', Pc.rank])⟩
      · split
        · exact ⟨_, rfl, State.rank_setPc (by simp [hpc', Pc.rank])⟩
        · exact ⟨_, rfl, State.rank_setPc (by simp [hpc', Pc.rank])⟩
  | setExecutor =>
      refine ⟨.main, _, by simp only [Wait.step, mainStep, hpc']; rfl, ?_⟩
      simp only [State.rank, hpc', Pc.rank, System.rank_setExecutor]
      omega
  | setContinuation =>
      by_cases hreturned : s.handOff.attacher = .returned
      · exact ⟨.main, { s with pc := .wait }, by simp [Wait.step, mainStep, hpc', hreturned],
          State.rank_setPc (by simp [hpc', Pc.rank])⟩
      · rcases h.handOff.exists_setContinuation hforce hreturned ⟨false, false⟩ with
          ⟨handOff, hmove, hlt⟩
        exact h.exists_step_of_handOff (by simp [State.allows, hpc']) hmove hlt
  | wait =>
      -- the promise side and the accepted task come before the continuation
      rcases h.handOff.settled_or_exists_step hforce with
        ⟨hsetter, hpending⟩ | ⟨l, handOff, hl, hmove, hlt⟩
      · have hinvoked := h.handOff.invoked_of_completed ⟨hsetter, h.waiting hpc', hpending⟩
        refine exists_step_of_invoked hpc' fun hnotRun => ?_
        rw [h.notRun_iff.mp hnotRun] at hinvoked
        cases hinvoked
      · exact h.exists_step_of_handOff (by rcases hl with rfl | rfl <;> rfl) hmove hlt
  | assign =>
      refine ⟨.main, _, by simp only [Wait.step, mainStep, hpc']; rfl, ?_⟩
      simp only [State.rank, hpc', h.fresh_of_ended (h.assigning (.inl hpc')), fulfil, Pc.rank]
      simp

/-- Without an executor and forced scheduling, {lit}`wait` returns. -/
theorem exists_returned (h : Inv t cfg s) (hexecutor : cfg.executor = none)
    (hforceSched : cfg.forceSched = false) :
    ∃ ks u, (machine t cfg).run s ks = some u ∧ u.pc = .returned := by
  have hprogress : ∀ s, Inv t cfg s → ¬ s.pc = .returned →
      ∃ l s', True ∧ (machine t cfg).step s l = some s' ∧ Inv t cfg s' ∧ s'.rank < s.rank := by
    intro s hs hpc
    rcases hs.exists_step hexecutor hforceSched hpc with ⟨l, s', hstep, hlt⟩
    exact ⟨l, s', trivial, hstep, hs.step hstep, hlt⟩
  rcases Machine.exists_run_of_measure _ (fun _ => True) State.rank hprogress h with
    ⟨ks, u, -, hrun, -, hpc⟩
  exact ⟨ks, u, hrun, hpc⟩

/-- There is no executor to lose. -/
theorem getExecutor_of_none (h : Inv t cfg s) (hexecutor : cfg.executor = none)
    (hpc : s.pc = .returned) : s.getExecutor cfg = cfg.executor := by
  cases hfuture : s.future with
  | mine =>
      have hsame := h.executor (.inr ⟨hpc, hfuture⟩)
      cases hsource : cfg.source with
      | localState => simp [State.getExecutor, hfuture, hsource]
      | sharedState => simpa [State.getExecutor, hfuture, hsource] using hsame
  | fresh =>
      simp only [State.getExecutor, hfuture, h.fresh_of_ended (h.assigning (.inr hfuture)),
        hexecutor]
      rfl

end Inv

/-! ## Both ways -/

/-- A {lit}`Try` with a result goes unchanged through the promise in {lit}`wait`. -/
theorem forwarded_toTry (broken : ε) (f : Fulfilment ε T) :
    forwarded T (f.toTry broken) = f.toTry broken := by
  cases T with
  | void => cases f <;> rfl
  | type α => rfl

/-- For every valid future, every fulfilment of its promise and every moment at which
{lit}`wait` tests for a result: {lit}`wait` returns with the result of the promise and the
executor of the future, however the promise side goes on, exactly if there is a result at that
moment, or there is no executor and scheduling is not forced. -/
theorem transparent_iff (broken : ε) (cfg : Config) (f : Fulfilment ε T) {ls : List Label}
    {s : State ε T} (hrun : (machine (f.toTry broken) cfg).run (State.initial cfg) ls = some s)
    (hpc : s.pc = .hasResult) :
    Transparent (f.toTry broken) cfg s ↔
      s.hasResult cfg = true ∨ cfg.executor = none ∧ cfg.forceSched = false := by
  have hinv : Inv (f.toTry broken) cfg s := (Inv.initial _ cfg).run hrun
  constructor
  · intro htransparent
    cases hresult : s.hasResult cfg with
    | true => exact .inl rfl
    | false =>
        -- the test comes before anything else
        rcases Blocked.exists_step hinv hpc hresult with ⟨s₁, hstep, hblocked⟩
        have hfirst : (machine (f.toTry broken) cfg).run s [.main] = some s₁ :=
          (Machine.run_cons_eq_some _).mpr ⟨s₁, hstep, rfl⟩
        rcases (htransparent _ _ hfirst).2 with ⟨ks, u, hrest, hreturned⟩
        have hkept := (htransparent _ _ (Machine.run_append _ hfirst hrest)).1 hreturned
        have hend : Inv (f.toTry broken) cfg u ∧ Blocked cfg u :=
          (machine (f.toTry broken) cfg).run_invariant
            (P := fun s => Inv (f.toTry broken) cfg s ∧ Blocked cfg s)
            (fun _ _ _ h hstep => ⟨h.1.step hstep, h.2.step h.1 hstep⟩)
            ⟨hinv.run hfirst, hblocked⟩ hrest
        rcases hend.2.of_returned hend.1 hreturned with ⟨hnone, hforceSched⟩
        exact .inr ⟨hkept.getExecutor.symm.trans hnone, hforceSched⟩
  · rintro (hresult | ⟨hexecutor, hforceSched⟩)
    · have hmine : s.future = .mine := by
        cases hfuture : s.future with
        | mine => rfl
        | fresh =>
            have hreturned := hinv.reassigned hfuture
            rw [hpc] at hreturned
            cases hreturned
      exact Ready.transparent ⟨hresult, hmine, .inl hpc⟩ hinv
    · intro ls' s' hrest
      have hinv' := hinv.run hrest
      refine ⟨fun hreturned => ?_, hinv'.exists_returned hexecutor hforceSched⟩
      rcases hinv'.result_of_returned (forwarded_toTry broken f) hreturned with ⟨hresult, htry⟩
      exact ⟨hresult, htry, hinv'.getExecutor_of_none hexecutor hreturned⟩

/-- A future with an executor. -/
def bound : Config where
  source := .sharedState
  executor := some 0
  context := none
  forceSched := false
  inExecutor := false

/-- The value 1. -/
def one : Fulfilment Unit (.type Nat) :=
  .value (1 : Nat)

/-- A step of the promise side. -/
def setResult : Label :=
  .handOff (.setResult () ⟨false, false⟩)

/-- The promise is fulfilled before the call. -/
theorem transparent_of_fulfilled :
    ∃ s, (machine (one.toTry ()) bound).run (State.initial bound) (List.replicate 4 setResult) =
        some s ∧
      (s.pc = .hasResult ∧ s.hasResult bound = true) ∧ Transparent (one.toTry ()) bound s := by
  rcases Machine.exists_run_of_any (machine (one.toTry ()) bound) (State.initial bound)
    (List.replicate 4 setResult) (fun s => s.pc = .hasResult ∧ s.hasResult bound = true)
    (by decide +kernel) with ⟨s, hrun, hpc, hresult⟩
  exact ⟨s, hrun, ⟨hpc, hresult⟩, (transparent_iff () bound one hrun hpc).mpr (.inl hresult)⟩

/-- A call that blocks until the promise is fulfilled. -/
def blocking : List Label :=
  [Label.main, Label.main] ++ List.replicate 4 (Label.handOff (.setContinuation ⟨false, false⟩)) ++
    [Label.main] ++ List.replicate 7 setResult ++
    [Label.callback, Label.callback, Label.main, Label.main]

/-- A future with an executor comes back without one. -/
theorem blocking_loses_executor :
    (∃ s, (machine (one.toTry ()) bound).run (State.initial bound) blocking = some s ∧
      s.pc = .returned ∧ s.getExecutor bound = none) ∧
    bound.executor = some 0 ∧ ¬ Transparent (one.toTry ()) bound (State.initial bound) := by
  have hblocking := Machine.exists_run_of_any (machine (one.toTry ()) bound) (State.initial bound)
    blocking (fun s => s.pc = .returned ∧ s.getExecutor bound = none) (by decide +kernel)
  refine ⟨hblocking, rfl, fun htransparent => ?_⟩
  rcases hblocking with ⟨s, hrun, hpc, hnone⟩
  have hkept := ((htransparent _ _ hrun).1 hpc).getExecutor
  rw [hnone] at hkept
  cases hkept

end Wait

end AsyncSimple
