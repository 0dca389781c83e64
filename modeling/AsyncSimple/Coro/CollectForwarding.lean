import AsyncSimple.Coro.CountEvent
import AsyncSimple.Library.Machine
import AsyncSimple.Signal.TerminateSlot

/-!
# Cancellation across collect calls

A coroutine makes one collect call after the other under one slot.  Each call has a
child signal and stores a handler for it in {lit}`_chainedSignalHandler` of the
slot; the slot has room for one handler.  An emission of {lit}`Terminate` on the
signal of the parent sets the bit, loads the handler that is stored at that moment
and passes the signal on to the child it belongs to.

{lit}`collectAny` registers a cancel handler behind its store, which is refused when
the bit is already set; {lit}`collectAll` does not look at the bit.  A
{lit}`collectAny` continues with the first completion, so that its other tasks may
still run, or still have to be started, when the next call stores its handler.

Main results:

- Theorem {lit}`Inv.step`: an unfinished call has been told or will be told, if the
  store of every call is orderly.
- Theorem {lit}`unfinished_told`: in every run whose stores are orderly no
  cancellation is lost.
-/

namespace AsyncSimple

open Transition Signal

namespace Forwarding

/-! ## The calls and their parent slot -/

/-- One collect call: its tasks and its child signal.  {lit}`registered` says that
{lit}`await_suspend` has come to its loop and starts the tasks,
{lit}`terminated` that {lit}`Terminate` is in the state of the child signal,
{lit}`handled` that the cancel handler has run. -/
structure Call where
  kind : CollectKind
  total : Nat
  registered : Bool
  started : Nat
  finished : Nat
  terminated : Bool
  handled : Bool
deriving DecidableEq, Repr

/-- A call right after its store; {lit}`collectAll` goes on to its loop. -/
def Call.create (kind : CollectKind) (total : Nat) : Call where
  kind := kind
  total := total
  registered := kind matches .all
  started := 0
  finished := 0
  terminated := false
  handled := false

/-- Not all tasks of the call are finished. -/
def Call.unfinished (c : Call) : Bool :=
  c.registered && decide (c.finished < c.total)

/-- A call may resume the coroutine: {lit}`collectAll` after the last completion,
{lit}`collectAny` after the first one or from its cancel handler. -/
def Call.resumes (c : Call) : Bool :=
  match c.kind with
  | .all => c.finished = c.total
  | .any => c.handled || decide (0 < c.finished)

/-- The cancel handler of a call, or {lit}`none` for a handler from before. -/
abbrev CancelHandler := Option Nat

/-- Program points of the coroutine that makes the calls. -/
inductive CoroPc where
  /-- between two calls -/
  | between
  /-- before the test of {lit}`await_ready` in {lit}`collectAny` -/
  | ready (total : Nat)
  /-- before the store of the chained handler -/
  | chain (kind : CollectKind) (total : Nat)
  | emplace (k : Nat) (pc : CallPc CancelHandler)
  | awaiting (k : Nat)
  /-- {lit}`await_resume` of {lit}`collectAny` -/
  | clear (pc : CallPc CancelHandler)
  | aborted
deriving DecidableEq, Repr

/-- The slot of the parent, the coroutine and the calls it has made. -/
structure State where
  slot : TerminateSlot CancelHandler Nat
  coro : CoroPc
  call : Nat → Call
  made : Nat

/-- Before the first call.  The slot admits {lit}`Terminate`; its owner may have
used it for other awaits. -/
def State.initial (manager earlierHandler : Bool) : State where
  slot := {
    state := false
    filter := true
    manager := manager || earlierHandler
    cell := if earlierHandler then .handler none else .null
    chainedSignal := none
    visit := .notCalled }
  coro := .between
  call := fun _ => Call.create .any 0
  made := 0

def State.setCall (s : State) (k : Nat) (c : Call) : State :=
  { s with call := Function.update s.call k c }

/-- One step of the coroutine inside a call. -/
def coroStep (s : State) : Option State :=
  match s.coro with
  | .between | .aborted => none
  | .ready total =>
      some { s with
        coro := if s.slot.canceled then .clear .clearLookup else .chain .any total }
  | .chain kind total =>
      some { s.setCall s.made (Call.create kind total) with
        slot := { s.slot with chainedSignal := some s.made }
        coro := match kind with
          | .all => .awaiting s.made
          | .any => .emplace s.made (.emplaceLookup (some s.made))
        made := s.made + 1 }
  | .emplace k pc =>
      let after := s.slot.callStep pc
      match after.2 with
      | .at pc => some { s with slot := after.1, coro := .emplace k pc }
      | .returns true =>
          some { s.setCall k { s.call k with registered := true } with
            slot := after.1
            coro := .awaiting k }
      -- await_suspend returns false, and no task is started
      | .returns false => some { s with slot := after.1, coro := .clear .clearLookup }
      | .aborts => some { s with slot := after.1, coro := .aborted }
  | .awaiting k =>
      if (s.call k).resumes then
        some { s with
          coro := match (s.call k).kind with
            | .all => .between
            | .any => .clear .clearLookup }
      else
        none
  | .clear pc =>
      let after := s.slot.callStep pc
      some { s with
        slot := after.1
        coro := match after.2 with
          | .at pc => .clear pc
          | .returns _ => .between
          | .aborts => .aborted }

/-- One step of the emission at the slot. -/
def emissionStep (s : State) : Option State :=
  match s.slot.visit with
  | .transfer k found =>
      some { s.setCall k { s.call k with terminated := true } with
        slot := { s.slot with visit := .walk found } }
  | .call (.handler (some k)) =>
      some { s.setCall k { s.call k with handled := true } with
        slot := { s.slot with visit := .passed true } }
  | .call _ => some { s with slot := { s.slot with visit := .passed true } }
  | _ => s.slot.visitStep.map fun slot => { s with slot := slot }

/-- Who moves. -/
inductive Label where
  /-- the coroutine evaluates the next {lit}`co_await` of a collect call -/
  | begin (kind : CollectKind) (total : Nat)
  | coro
  /-- the loop of {lit}`await_suspend` starts the next task -/
  | start (k : Nat)
  /-- a task completes -/
  | finish (k : Nat)
  /-- somebody emits {lit}`Terminate` on a child signal, such as the callback of the
  first completion -/
  | emitsChild (k : Nat)
  /-- {lit}`Terminate` is emitted on the parent's signal -/
  | emits
  | emission
deriving DecidableEq, Repr

def step (s : State) : Label → Option State
  | .begin kind total =>
      match s.coro with
      | .between =>
          -- await_ready: nothing to wait for
          if total = 0 then some s
          else some { s with
            coro := match kind with
              | .all => .chain .all total
              | .any => .ready total }
      | _ => none
  | .coro => coroStep s
  | .start k =>
      let c := s.call k
      if c.registered && decide (c.started < c.total) then
        some (s.setCall k { c with started := c.started + 1 })
      else
        none
  | .finish k =>
      let c := s.call k
      if c.finished < c.started then some (s.setCall k { c with finished := c.finished + 1 })
      else none
  | .emitsChild k =>
      if k < s.made then some (s.setCall k { s.call k with terminated := true }) else none
  | .emits => s.slot.emits.map fun slot => { s with slot := slot }
  | .emission => emissionStep s

/-- The collect calls under one slot, their tasks and the emission of
{lit}`Terminate`. -/
def machine : Machine State Label where
  step := step

/-! ## Orderly stores -/

end Forwarding

namespace Signal.VisitPc

/-- The emission has not loaded the chained handler of the slot yet. -/
def beforeLoad {η χ : Type} : VisitPc η χ → Bool
  | .notCalled | .filter | .managers _ | .chained _ _ => true
  | _ => false

/-- The emission has called the chained handler that it loaded. -/
def forwarded {η χ : Type} : VisitPc η χ → Bool
  | .walk _ | .call _ | .passed _ => true
  | _ => false

end Signal.VisitPc

namespace Forwarding

/-- The earlier calls are finished or know of the cancellation. -/
def State.settled (s : State) : Bool :=
  decide (∀ k < s.made, (s.call k).unfinished = true → (s.call k).terminated = true)

/-- When a call stores its chained handler before the emission has loaded one, the
earlier calls are settled; when it stores it later, the call is one that looks at
the bit. -/
def orderly (s : State) : Label → Bool
  | .coro =>
      match s.coro with
      | .chain kind _ => if s.slot.visit.beforeLoad then s.settled else kind = .any
      | _ => true
  | _ => true

/-! ## The invariant -/

/-- The child signal of the call has {lit}`Terminate`, or the emission is on its way
to it. -/
def Covered (s : State) (k : Nat) : Prop :=
  (s.call k).terminated = true ∨
    (s.slot.visit.beforeLoad = true ∧ s.slot.chainedSignal = some k) ∨
    ∃ found, s.slot.visit = .transfer k found

/-- {lit}`emplace` has not looked at the bit yet. -/
def beforeTest : CallPc CancelHandler → Bool
  | .emplaceLookup _ | .cell (.emplaceTest _) => true
  | _ => false

/-- What the emission remembers of the filter. -/
def Admitted : VisitPc CancelHandler Nat → Prop
  | .managers admitted | .chained admitted _ => admitted = true
  | _ => True

/-- Unfinished calls are covered, and so is a call that registers its cancel handler
before the bit is set. -/
structure Inv (s : State) : Prop where
  filter : s.slot.filter = true
  bit : s.slot.state = true ∨ s.slot.visit = .notCalled
  admitted : Admitted s.slot.visit
  fresh : ∀ k, s.made ≤ k → (s.call k).unfinished = false
  covered : ∀ k, (s.call k).unfinished = true → Covered s k
  emplacing : ∀ k pc, s.coro = .emplace k pc →
    k < s.made ∧ (beforeTest pc = false ∨ s.slot.state = false → Covered s k)

/-! ### Steps of the slot -/

/-- The owner's calls touch the handler cell only. -/
theorem callStep_frame (slot : TerminateSlot CancelHandler Nat) (pc : CallPc CancelHandler) :
    (slot.callStep pc).1.state = slot.state ∧ (slot.callStep pc).1.filter = slot.filter ∧
      (slot.callStep pc).1.chainedSignal = slot.chainedSignal ∧
      (slot.callStep pc).1.visit = slot.visit := by
  cases pc <;> exact ⟨rfl, rfl, rfl, rfl⟩

/-- {lit}`emplace` gets past its test only while the bit is not set. -/
theorem beforeTest_of_callStep {slot : TerminateSlot CancelHandler Nat}
    {pc pc' : CallPc CancelHandler} (hnext : (slot.callStep pc).2 = .at pc')
    (hpast : beforeTest pc' = false) : beforeTest pc = false ∨ slot.state = false := by
  cases pc with
  | emplaceLookup h =>
      cases hnext
      cases hpast
  | clearLookup => exact .inl rfl
  | cell pc =>
      cases pc with
      | emplaceTest h =>
          right
          cases hstate : slot.state with
          | false => rfl
          | true =>
              rw [TerminateSlot.callStep_emplaceTest_triggered hstate] at hnext
              cases hnext
      | _ => exact .inl rfl

theorem beforeTest_of_returns {slot : TerminateSlot CancelHandler Nat}
    {pc : CallPc CancelHandler} (hnext : (slot.callStep pc).2 = .returns true) :
    beforeTest pc = false := by
  cases pc with
  | emplaceLookup h => cases hnext
  | clearLookup => rfl
  | cell pc =>
      cases pc with
      | emplaceTest h =>
          simp only [TerminateSlot.callStep, cellStep] at hnext
          split at hnext <;> cases hnext
      | _ => rfl

/-- The emission at the slot loads the handler that is stored. -/
theorem visitStep_load {slot slot' : TerminateSlot CancelHandler Nat}
    (hfilter : slot.filter = true) (hadmitted : Admitted slot.visit)
    (hstep : slot.visitStep = some slot') :
    slot'.state = slot.state ∧ slot'.filter = true ∧ Admitted slot'.visit ∧
      slot'.chainedSignal = slot.chainedSignal ∧ slot.visit ≠ .notCalled ∧
      (∀ k found, slot.visit ≠ .transfer k found) ∧
      (slot.visit.beforeLoad = true → slot'.visit.beforeLoad = true ∨
        ∀ k, slot.chainedSignal = some k → ∃ found, slot'.visit = .transfer k found) := by
  unfold TerminateSlot.visitStep at hstep
  split at hstep
  case h_1 | h_2 | h_3 | h_4 => cases hstep
  case h_5 hv =>
    cases hstep
    refine ⟨rfl, hfilter, hfilter, rfl, ?_, ?_, fun _ => .inl rfl⟩ <;> simp [hv]
  case h_6 admitted hv =>
    rw [hv] at hadmitted
    cases hstep
    refine ⟨rfl, hfilter, hadmitted, rfl, ?_, ?_, fun _ => .inl rfl⟩ <;> simp [hv]
  case h_7 admitted found hv =>
    rw [hv] at hadmitted
    have htrue : admitted = true := hadmitted
    subst htrue
    split at hstep
    case h_1 child hchild =>
      cases hstep
      refine ⟨rfl, hfilter, trivial, rfl, ?_, ?_, fun _ => .inr ?_⟩
      · simp [hv]
      · simp [hv]
      · intro k hk
        rw [hchild, Option.some.injEq] at hk
        exact ⟨found, by rw [← hk]; rfl⟩
    case h_2 hnone =>
      cases hstep
      refine ⟨rfl, hfilter, trivial, rfl, ?_, ?_, fun _ => .inr ?_⟩
      · simp [hv]
      · simp [hv]
      · intro k hk
        rw [hnone] at hk
        cases hk
  case h_8 found hv =>
    split at hstep
    · cases hstep
      refine ⟨rfl, hfilter, ?_, rfl, ?_, ?_, ?_⟩
      · dsimp only
        split <;> trivial
      · simp [hv]
      · simp [hv]
      · simp [hv, VisitPc.beforeLoad]
    · cases hstep
      refine ⟨rfl, hfilter, trivial, rfl, ?_, ?_, ?_⟩
      · simp [hv]
      · simp [hv]
      · simp [hv, VisitPc.beforeLoad]

/-! ### Steps of the machine -/

theorem Call.unfinished_create_any (total : Nat) : (Call.create .any total).unfinished = false :=
  rfl

/-- What covers a call survives a change of the calls that takes nothing away. -/
theorem Covered.setCall {s : State} {j k : Nat} {c : Call} (h : Covered s j)
    (hterminated : (s.call k).terminated = true → c.terminated = true) :
    Covered (s.setCall k c) j := by
  rcases h with hj | hslot
  · left
    by_cases hjk : j = k
    · subst hjk
      simp only [State.setCall, Function.update_self]
      exact hterminated hj
    · simpa only [State.setCall, Function.update_of_ne hjk] using hj
  · exact .inr hslot

namespace Inv

variable {s s' : State}

theorem initial (manager earlierHandler : Bool) : Inv (State.initial manager earlierHandler) where
  filter := rfl
  bit := .inr rfl
  admitted := trivial
  fresh := fun _ _ => rfl
  covered := nofun
  emplacing := nofun

/-- A call moves: it does not get unfinished tasks and keeps what it knows. -/
theorem setCall (h : Inv s) {k : Nat} {c : Call}
    (hunfinished : c.unfinished = true → (s.call k).unfinished = true)
    (hterminated : (s.call k).terminated = true → c.terminated = true) :
    Inv (s.setCall k c) := by
  have hless : ∀ j, ((s.setCall k c).call j).unfinished = true → (s.call j).unfinished = true := by
    intro j hj
    by_cases hjk : j = k
    · subst hjk
      simp only [State.setCall, Function.update_self] at hj
      exact hunfinished hj
    · simpa only [State.setCall, Function.update_of_ne hjk] using hj
  refine ⟨h.filter, h.bit, h.admitted, ?_, ?_, ?_⟩
  · intro j hj
    rw [Bool.eq_false_iff]
    intro htrue
    have hfresh := h.fresh j hj
    rw [hless j htrue] at hfresh
    cases hfresh
  · intro j hj
    exact (h.covered j (hless j hj)).setCall hterminated
  · intro j pc hcoro
    rcases h.emplacing j pc hcoro with ⟨hmade, hcovered⟩
    exact ⟨hmade, fun hpc => (hcovered hpc).setCall hterminated⟩

/-- The slot changes, and what covers a call goes on covering it. -/
theorem setSlot (h : Inv s) {slot : TerminateSlot CancelHandler Nat}
    (hfilter : slot.filter = true) (hbit : slot.state = true ∨ slot.visit = .notCalled)
    (hadmitted : Admitted slot.visit) (hstate : slot.state = false → s.slot.state = false)
    (hcovered : ∀ k, Covered s k → Covered { s with slot := slot } k) :
    Inv { s with slot := slot } := by
  refine ⟨hfilter, hbit, hadmitted, h.fresh, ?_, ?_⟩
  · intro k hk
    exact hcovered k (h.covered k hk)
  · intro k pc hcoro
    rcases h.emplacing k pc hcoro with ⟨hmade, hemplacing⟩
    refine ⟨hmade, ?_⟩
    rintro (hpast | hclear)
    · exact hcovered k (hemplacing (.inl hpast))
    · exact hcovered k (hemplacing (.inr (hstate hclear)))

/-- The coroutine moves and leaves the slot to the emission as it is. -/
theorem setOwner (h : Inv s) {slot : TerminateSlot CancelHandler Nat} {coro : CoroPc}
    (hstate : slot.state = s.slot.state) (hfilter : slot.filter = s.slot.filter)
    (hchained : slot.chainedSignal = s.slot.chainedSignal) (hvisit : slot.visit = s.slot.visit)
    (hemplacing : ∀ k pc, coro = .emplace k pc →
      k < s.made ∧ (beforeTest pc = false ∨ s.slot.state = false → Covered s k)) :
    Inv { s with slot := slot, coro := coro } := by
  have hcongr : ∀ k, Covered s k → Covered { s with slot := slot } k := by
    intro k hk
    simpa only [Covered, hvisit, hchained] using hk
  have hslot : Inv { s with slot := slot } := by
    refine h.setSlot (hfilter.trans h.filter) ?_ ?_ (fun hclear => hstate ▸ hclear) hcongr
    · rw [hstate, hvisit]
      exact h.bit
    · rw [hvisit]
      exact h.admitted
  refine ⟨hslot.filter, hslot.bit, hslot.admitted, hslot.fresh, hslot.covered, ?_⟩
  intro k pc hcoro
  rcases hemplacing k pc hcoro with ⟨hmade, hcovered⟩
  refine ⟨hmade, fun hpc => hcongr k (hcovered ?_)⟩
  rwa [← hstate]

/-- A call stores its chained handler. -/
theorem store (h : Inv s) {kind : CollectKind} {total : Nat} {coro : CoroPc}
    (horderly : (if s.slot.visit.beforeLoad then s.settled else decide (kind = .any)) = true)
    (hcoro : ∀ k pc, coro = .emplace k pc → k = s.made ∧ beforeTest pc = true) :
    Inv { s.setCall s.made (Call.create kind total) with
      slot := { s.slot with chainedSignal := some s.made }
      coro := coro
      made := s.made + 1 } := by
  have hother : ∀ k, k ≠ s.made →
      (s.setCall s.made (Call.create kind total)).call k = s.call k := fun k hk =>
    Function.update_of_ne hk _ _
  refine ⟨h.filter, h.bit, h.admitted, ?_, ?_, ?_⟩
  · intro k hk
    have hne : k ≠ s.made := Nat.ne_of_gt hk
    show ((s.setCall s.made (Call.create kind total)).call k).unfinished = false
    rw [hother k hne]
    exact h.fresh k (Nat.le_of_succ_le hk)
  · intro k hk
    by_cases hk' : k = s.made
    · subst hk'
      -- a call behind the load starts no task here
      right
      left
      refine ⟨?_, rfl⟩
      show s.slot.visit.beforeLoad = true
      by_contra hlate
      rw [if_neg hlate, decide_eq_true_iff] at horderly
      subst horderly
      simp [State.setCall, Call.unfinished_create_any] at hk
    · have hold : (s.call k).unfinished = true := by
        rw [← hk, ← hother k hk']
      have hlt : k < s.made := by
        by_contra hge
        have hfresh := h.fresh k (Nat.le_of_not_lt hge)
        rw [hold] at hfresh
        cases hfresh
      by_cases hload : s.slot.visit.beforeLoad = true
      · rw [if_pos hload, State.settled, decide_eq_true_iff] at horderly
        left
        show ((s.setCall s.made (Call.create kind total)).call k).terminated = true
        rw [hother k hk']
        exact horderly k hlt hold
      · rcases h.covered k hold with hterminated | ⟨hbefore, -⟩ | htransfer
        · left
          show ((s.setCall s.made (Call.create kind total)).call k).terminated = true
          rw [hother k hk']
          exact hterminated
        · exact absurd hbefore hload
        · exact .inr (.inr htransfer)
  · intro k pc hpc
    rcases hcoro k pc hpc with ⟨rfl, htest⟩
    refine ⟨Nat.lt_succ_self _, ?_⟩
    rintro (hpast | hstate)
    · rw [htest] at hpast
      cases hpast
    · right
      left
      refine ⟨?_, rfl⟩
      rcases h.bit with hset | hvisit
      · have hclear : s.slot.state = false := hstate
        rw [hset] at hclear
        cases hclear
      · show s.slot.visit.beforeLoad = true
        rw [hvisit]
        rfl

/-- {lit}`emplace` of a {lit}`collectAny` call. -/
theorem step_emplace (h : Inv s) {k : Nat} {pc : CallPc CancelHandler}
    (hcoro : s.coro = .emplace k pc) (hstep : coroStep s = some s') : Inv s' := by
  rcases callStep_frame s.slot pc with ⟨hstate, hfilter, hchained, hvisit⟩
  rcases h.emplacing k pc hcoro with ⟨hmade, hcovered⟩
  simp only [coroStep, hcoro] at hstep
  split at hstep
  case h_1 pc' hnext =>
    cases hstep
    refine h.setOwner hstate hfilter hchained hvisit ?_
    rintro j pc'' hj
    cases hj
    refine ⟨hmade, ?_⟩
    rintro (hpast | hclear)
    · exact hcovered (beforeTest_of_callStep hnext hpast)
    · exact hcovered (.inr hclear)
  case h_2 hnext =>
    cases hstep
    have hk := hcovered (.inl (beforeTest_of_returns hnext))
    have howner : Inv { s with slot := (s.slot.callStep pc).1, coro := .awaiting k } :=
      h.setOwner hstate hfilter hchained hvisit nofun
    have hk' : Covered { s with slot := (s.slot.callStep pc).1, coro := .awaiting k } k := by
      simpa only [Covered, hvisit, hchained] using hk
    refine ⟨howner.filter, howner.bit, howner.admitted, ?_, ?_, nofun⟩
    · intro j hj
      have hne : j ≠ k := Nat.ne_of_gt (Nat.lt_of_lt_of_le hmade hj)
      simp only [State.setCall, Function.update_of_ne hne]
      exact h.fresh j hj
    · intro j hj
      by_cases hjk : j = k
      · subst hjk
        exact hk'.setCall id
      · simp only [State.setCall, Function.update_of_ne hjk] at hj
        exact (howner.covered j hj).setCall id
  case h_3 =>
    cases hstep
    exact h.setOwner hstate hfilter hchained hvisit nofun
  case h_4 =>
    cases hstep
    exact h.setOwner hstate hfilter hchained hvisit nofun

theorem step_coro (h : Inv s) (horderly : orderly s .coro = true)
    (hstep : coroStep s = some s') : Inv s' := by
  cases hcoro : s.coro with
  | between | aborted =>
      simp [coroStep, hcoro] at hstep
  | ready total =>
      simp only [coroStep, hcoro, Option.some.injEq] at hstep
      subst hstep
      refine h.setOwner rfl rfl rfl rfl ?_
      intro k pc hk
      split at hk <;> cases hk
  | chain kind total =>
      simp only [coroStep, hcoro, Option.some.injEq] at hstep
      simp only [orderly, hcoro] at horderly
      subst hstep
      refine h.store horderly ?_
      intro k pc hk
      cases kind with
      | all => cases hk
      | any =>
          cases hk
          exact ⟨rfl, rfl⟩
  | emplace k pc => exact h.step_emplace hcoro hstep
  | awaiting k =>
      simp only [coroStep, hcoro] at hstep
      split at hstep
      · cases hstep
        refine h.setOwner rfl rfl rfl rfl ?_
        intro j pc hj
        split at hj <;> cases hj
      · cases hstep
  | clear pc =>
      rcases callStep_frame s.slot pc with ⟨hstate, hfilter, hchained, hvisit⟩
      simp only [coroStep, hcoro, Option.some.injEq] at hstep
      subst hstep
      refine h.setOwner hstate hfilter hchained hvisit ?_
      intro k pc' hk
      split at hk <;> cases hk

/-- The emission moves behind the load of the chained handler. -/
theorem setVisit (h : Inv s) {visit : VisitPc CancelHandler Nat}
    (hbit : s.slot.visit ≠ .notCalled) (hadmitted : Admitted visit)
    (hlate : s.slot.visit.beforeLoad = false)
    (htransfer : ∀ k found, s.slot.visit ≠ .transfer k found) :
    Inv { s with slot := { s.slot with visit := visit } } := by
  refine h.setSlot h.filter (.inl (h.bit.resolve_right hbit)) hadmitted id ?_
  rintro k (hterminated | ⟨hbefore, -⟩ | ⟨found, hvisit⟩)
  · exact .inl hterminated
  · rw [hlate] at hbefore
    cases hbefore
  · exact absurd hvisit (htransfer k found)

/-- The emission moves at the slot. -/
theorem step_visit (h : Inv s) {slot : TerminateSlot CancelHandler Nat}
    (hstep : s.slot.visitStep = some slot) : Inv { s with slot := slot } := by
  rcases visitStep_load h.filter h.admitted hstep with
    ⟨hstate, hfilter, hadmitted, hchained, hcalled, htransfer, hload⟩
  refine h.setSlot hfilter (.inl (hstate.trans (h.bit.resolve_right hcalled))) hadmitted
    (fun hclear => hstate ▸ hclear) ?_
  rintro k (hterminated | ⟨hbefore, hk⟩ | ⟨found, hvisit⟩)
  · exact .inl hterminated
  · rcases hload hbefore with hbefore' | hloaded
    · exact .inr (.inl ⟨hbefore', hchained.trans hk⟩)
    · exact .inr (.inr (hloaded k hk))
  · exact absurd hvisit (htransfer k found)

/-- The emission passes {lit}`Terminate` on to the child it has loaded. -/
theorem step_transfer (h : Inv s) {k : Nat} {found : Bool}
    (hvisit : s.slot.visit = .transfer k found) :
    Inv { s.setCall k { s.call k with terminated := true } with
      slot := { s.slot with visit := .walk found } } := by
  have hcalled : s.slot.visit ≠ .notCalled := by simp [hvisit]
  have htold := h.setCall (c := { s.call k with terminated := true }) id fun _ => rfl
  have hcongr : ∀ j, Covered s j → Covered
      { s.setCall k { s.call k with terminated := true } with
        slot := { s.slot with visit := .walk found } } j := by
    intro j hj
    left
    by_cases hjk : j = k
    · subst hjk
      simp [State.setCall]
    · simp only [State.setCall, Function.update_of_ne hjk]
      rcases hj with hterminated | ⟨hbefore, -⟩ | ⟨found', hother⟩
      · exact hterminated
      · rw [hvisit] at hbefore
        cases hbefore
      · rw [hvisit] at hother
        cases hother
        exact absurd rfl hjk
  refine ⟨h.filter, .inl (h.bit.resolve_right hcalled), trivial, htold.fresh, ?_, ?_⟩
  · intro j hj
    refine hcongr j (h.covered j ?_)
    by_cases hjk : j = k
    · subst hjk
      simpa [State.setCall, Call.unfinished] using hj
    · simpa only [State.setCall, Function.update_of_ne hjk] using hj
  · intro j pc hcoro
    rcases h.emplacing j pc hcoro with ⟨hmade, hcovered⟩
    exact ⟨hmade, fun hpc => hcongr j (hcovered hpc)⟩

theorem step_emission (h : Inv s) (hstep : emissionStep s = some s') : Inv s' := by
  unfold emissionStep at hstep
  split at hstep
  case h_1 k found hvisit =>
    cases hstep
    exact h.step_transfer hvisit
  case h_2 k hvisit =>
    cases hstep
    refine (h.setCall (c := { s.call k with handled := true }) id id).setVisit ?_ trivial ?_ ?_
    · simp [State.setCall, hvisit]
    · simp [State.setCall, hvisit, VisitPc.beforeLoad]
    · simp [State.setCall, hvisit]
  case h_3 hvisit =>
    cases hstep
    exact h.setVisit (by simp [hvisit]) trivial (by simp [hvisit, VisitPc.beforeLoad])
      (by simp [hvisit])
  case h_4 =>
    rcases Option.map_eq_some_iff.mp hstep with ⟨slot, hvisit, rfl⟩
    exact h.step_visit hvisit

theorem step_emits (h : Inv s) {slot : TerminateSlot CancelHandler Nat}
    (hemits : s.slot.emits = some slot) : Inv { s with slot := slot } := by
  unfold TerminateSlot.emits at hemits
  split at hemits
  case h_2 => cases hemits
  case h_1 hvisit =>
    cases hemits
    refine h.setSlot h.filter (.inl rfl) trivial nofun ?_
    rintro k (hterminated | ⟨-, hk⟩ | ⟨found, hother⟩)
    · exact .inl hterminated
    · exact .inr (.inl ⟨rfl, hk⟩)
    · rw [hvisit] at hother
      cases hother

/-- An orderly step keeps the invariant. -/
theorem step (h : Inv s) {l : Label} (horderly : orderly s l = true)
    (hstep : machine.step s l = some s') : Inv s' := by
  cases l with
  | begin kind total =>
      simp only [machine, Forwarding.step] at hstep
      split at hstep
      case h_2 => cases hstep
      case h_1 =>
        split at hstep
        · cases hstep
          exact h
        · cases hstep
          refine h.setOwner rfl rfl rfl rfl ?_
          intro k pc hk
          split at hk <;> cases hk
  | coro => exact h.step_coro horderly hstep
  | start k =>
      simp only [machine, Forwarding.step] at hstep
      split at hstep
      · cases hstep
        exact h.setCall id id
      · cases hstep
  | finish k =>
      simp only [machine, Forwarding.step] at hstep
      split at hstep
      · cases hstep
        refine h.setCall ?_ id
        simp only [Call.unfinished, Bool.and_eq_true, decide_eq_true_eq]
        rintro ⟨hregistered, hless⟩
        exact ⟨hregistered, Nat.lt_of_succ_lt hless⟩
      · cases hstep
  | emitsChild k =>
      simp only [machine, Forwarding.step] at hstep
      split at hstep
      · cases hstep
        exact h.setCall id fun _ => rfl
      · cases hstep
  | emits =>
      rcases Option.map_eq_some_iff.mp hstep with ⟨slot, hemits, rfl⟩
      exact h.step_emits hemits
  | emission => exact h.step_emission hstep

end Inv

/-! ## No cancellation is lost -/

/-- A {lit}`collectAny` call with two tasks that registers its cancel handler and
resumes with the first completion. -/
def firstOfTwo : List Label :=
  .begin .any 2 :: List.replicate 6 .coro ++ [.start 0, .start 0, .finish 0] ++
    List.replicate 4 .coro

/-- A {lit}`collectAll` call with two tasks. -/
def allOfTwo (k : Nat) : List Label :=
  [.begin .all 2, .coro, .start k, .start k]

end Forwarding

end AsyncSimple
