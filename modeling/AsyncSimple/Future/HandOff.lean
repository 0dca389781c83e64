import AsyncSimple.Future.SharedState
import AsyncSimple.Library.Counting
import Mathlib.Data.Fintype.Basic

/-!
# The hand-off between a promise and a continuation

A call of {lit}`setResult` or {lit}`setContinuation` goes through five phases
seen from the other party: it has stored nothing, it has stored its part and
races for the exchange, it owes the invocation of the continuation, it is
settled, or it has thrown.  One inversion lemma says what a step can do in
terms of these phases; the invariant is derived from it.

Main results:

- Theorem {lit}`transferStep_move`: everything a step of a call can do.
- Theorem {lit}`Inv.step`: the invariant of a run in which no setter stores
  while another one has stored and not thrown.
- Theorem {lit}`handOff_exactly_once`: one setter and one continuation always
  meet, and the continuation runs exactly once.
-/

namespace AsyncSimple

open Transition

namespace FutureState

variable {ι ε α K : Type}

/-! ## Phases of a call -/

/-- How far a call has come, as far as the other party is concerned. -/
inductive Phase where
  | before
  | racing
  | owing
  | settled
  | failed
deriving DecidableEq, Repr

/-- The phase of a program point: nothing stored yet; stored, but no exchange
has succeeded; owing the invocation of the continuation; done; thrown. -/
def Pc.phase : Pc → Phase
  | .check | .store => .before
  | .load | .casStart | .assertOther _ | .casDone _ => .racing
  | .assertDone | .dispatch | .submit _ | .inplace | .fallback | .nullExecutor => .owing
  | .accepted | .returned => .settled
  | .threw _ => .failed

/-- The caller has stored its part and has not thrown. -/
def Phase.Live (p : Phase) : Prop :=
  p = .racing ∨ p = .owing ∨ p = .settled

/-- The caller's exchange has succeeded. -/
def Phase.Won (p : Phase) : Prop :=
  p = .owing ∨ p = .settled

instance (p : Phase) : Decidable p.Live :=
  inferInstanceAs (Decidable (_ ∨ _ ∨ _))

theorem Phase.Won.live {p : Phase} (h : p.Won) : p.Live :=
  Or.inr h

theorem Phase.Won.ne_racing {p : Phase} (h : p.Won) : p ≠ .racing := by
  rcases h with rfl | rfl <;> simp

/-- On the fall-through path the local variable and the state are what the
other side has stored. -/
def Pc.Believes (side : Side) (st : State) : Pc → Prop
  | .assertOther expected | .casDone expected => expected = side.other ∧ st = side.other
  | _ => True

theorem Pc.believes_of_ne_racing {side : Side} {st : State} {pc : Pc}
    (h : pc.phase ≠ .racing) : pc.Believes side st := by
  cases pc <;> simp_all [Pc.phase, Pc.Believes]

/-- Everything one step of {lit}`setResult` or {lit}`setContinuation` can do. -/
inductive Effect (side : Side) (write : FutureState ε α K → FutureState ε α K)
    (sh : Shared ε α K) (pc : Pc) : Shared ε α K → Pc → Prop where
  | stay {sh' pc'} (hphase : pc'.phase = pc.phase) (hpc : pc.phase ≠ .failed)
      (hfs : sh'.fs = sh.fs) (hpending : sh'.pending = sh.pending)
      (hinvoked : sh'.invoked = sh.invoked) : Effect side write sh pc sh' pc'
  | reject (hphase : pc.phase = .before) (hpresent : side.present sh.fs.state) :
      Effect side write sh pc sh (.threw side.presentError)
  | store (hpc : pc = .store) : Effect side write sh pc { sh with fs := write sh.fs } .load
  | publish (hpc : pc = .casStart) (hstate : sh.fs.state = .start) :
      Effect side write sh pc { sh with fs := { sh.fs with state := side.only } } .returned
  | finish {expected} (hpc : pc = .casDone expected) (hstate : sh.fs.state = expected) :
      Effect side write sh pc { sh with fs := { sh.fs with state := .done } } .assertDone
  | badState (hpc : pc = .load) (hstart : sh.fs.state ≠ .start)
      (hother : sh.fs.state ≠ side.other) :
      Effect side write sh pc sh (.threw .stateTransferError)
  | lostExchange {expected} (hpc : pc = .casDone expected) (hstate : sh.fs.state ≠ expected) :
      Effect side write sh pc sh (.threw .stateTransferError)
  | notDone (hpc : pc = .assertDone) (hstate : sh.fs.state ≠ .done) :
      Effect side write sh pc sh (.threw .notDone)
  | submit (hphase : pc.phase = .owing) :
      Effect side write sh pc { sh with pending := sh.pending + 1 } .accepted
  | invoke (hphase : pc.phase = .owing) : Effect side write sh pc sh.invoke .returned

theorem transferStep_effect {side : Side} {write : FutureState ε α K → FutureState ε α K}
    {sh sh' : Shared ε α K} {answer : Answer} {pc pc' : Pc}
    (h : transferStep side write sh answer pc = some (sh', pc')) :
    Effect side write sh pc sh' pc' := by
  cases pc with
  | check =>
      cases h
      split
      case isTrue hpresent => exact .reject rfl hpresent
      case isFalse => exact .stay rfl (by simp [Pc.phase]) rfl rfl rfl
  | store =>
      cases h
      exact .store rfl
  | load =>
      cases h
      split
      case isTrue => exact .stay rfl (by simp [Pc.phase]) rfl rfl rfl
      case isFalse hstart =>
        split
        case isTrue => exact .stay rfl (by simp [Pc.phase]) rfl rfl rfl
        case isFalse hother => exact .badState rfl hstart hother
  | casStart =>
      simp only [transferStep] at h
      split at h
      case isTrue hstate =>
        cases h
        exact .publish rfl hstate
      case isFalse =>
        cases h
        exact .stay rfl (by simp [Pc.phase]) rfl rfl rfl
  | assertOther expected =>
      cases h
      exact .stay rfl (by simp [Pc.phase]) rfl rfl rfl
  | casDone expected =>
      simp only [transferStep] at h
      split at h
      case isTrue hstate =>
        cases h
        exact .finish rfl hstate
      case isFalse hstate =>
        cases h
        exact .lostExchange rfl hstate
  | assertDone =>
      cases h
      split
      case isTrue => exact .stay rfl (by simp [Pc.phase]) rfl rfl rfl
      case isFalse hstate => exact .notDone rfl hstate
  | dispatch =>
      simp only [transferStep, scheduleContinuationStep] at h
      split at h
      case isTrue =>
        cases h
        exact .stay rfl (by simp [Pc.phase]) rfl rfl rfl
      case isFalse =>
        split at h <;> cases h <;> exact .stay rfl (by simp [Pc.phase]) rfl rfl rfl
  | submit route =>
      simp only [transferStep, scheduleContinuationStep] at h
      split at h
      case isTrue =>
        cases h
        exact .submit rfl
      case isFalse =>
        cases h
        exact .stay rfl (by simp [Pc.phase]) rfl rfl rfl
  | accepted =>
      cases h
      exact .stay rfl (by simp [Pc.phase]) rfl rfl rfl
  | inplace | fallback =>
      cases h
      exact .invoke rfl
  | returned | threw e | nullExecutor => cases h

/-- The events of a call that has the field to itself: it keeps its
phase, it is turned away by the initial check, it stores its part, its exchange
succeeds, or it hands the continuation on. -/
inductive Move (side : Side) (write : FutureState ε α K → FutureState ε α K)
    (sh : Shared ε α K) (pc : Pc) : Shared ε α K → Pc → Prop where
  | stay {sh' pc'} (hphase : pc'.phase = pc.phase) (hpc : pc.phase ≠ .failed)
      (hfs : sh'.fs = sh.fs) (hpending : sh'.pending = sh.pending)
      (hinvoked : sh'.invoked = sh.invoked) : Move side write sh pc sh' pc'
  | reject (hphase : pc.phase = .before) (hpresent : side.present sh.fs.state) :
      Move side write sh pc sh (.threw side.presentError)
  | store (hphase : pc = .store) :
      Move side write sh pc { sh with fs := write sh.fs } .load
  | publish (hphase : pc.phase = .racing) (hstate : sh.fs.state = .start) :
      Move side write sh pc { sh with fs := { sh.fs with state := side.only } } .returned
  | finish (hphase : pc.phase = .racing) (hstate : sh.fs.state = side.other) :
      Move side write sh pc { sh with fs := { sh.fs with state := .done } } .assertDone
  | submit (hphase : pc.phase = .owing) :
      Move side write sh pc { sh with pending := sh.pending + 1 } .accepted
  | invoke (hphase : pc.phase = .owing) : Move side write sh pc sh.invoke .returned

/-- A call whose own kind of value has not been published finds what it expects on
the fall-through path, and its assertion holds. -/
theorem transferStep_believes {side : Side} {write : FutureState ε α K → FutureState ε α K}
    {sh sh' : Shared ε α K} {answer : Answer} {pc pc' : Pc}
    (hother : ∀ st, side.present st = false → st = .start ∨ st = side.other)
    (hracing : pc.phase = .racing → side.present sh.fs.state = false)
    (hbelieves : pc.Believes side sh.fs.state)
    (h : transferStep side write sh answer pc = some (sh', pc')) :
    pc'.Believes side sh'.fs.state ∧ (sh.assertsHeld → sh'.assertsHeld) := by
  cases pc with
  | check =>
      cases h
      refine ⟨?_, id⟩
      split <;> trivial
  | load =>
      cases h
      refine ⟨?_, id⟩
      split
      case isTrue => trivial
      case isFalse =>
        split
        case isTrue hstate => exact ⟨hstate, hstate⟩
        case isFalse => trivial
  | casStart =>
      simp only [transferStep] at h
      split at h
      case isTrue =>
        cases h
        exact ⟨trivial, id⟩
      case isFalse hstart =>
        cases h
        have hstate := (hother _ (hracing rfl)).resolve_left hstart
        exact ⟨⟨hstate, hstate⟩, id⟩
  | assertOther expected =>
      cases h
      refine ⟨hbelieves, fun hheld => ?_⟩
      simp [hheld, hbelieves.2]
  | casDone expected =>
      simp only [transferStep] at h
      split at h <;> cases h <;> exact ⟨trivial, id⟩
  | assertDone =>
      cases h
      refine ⟨?_, id⟩
      split <;> trivial
  | dispatch =>
      simp only [transferStep, scheduleContinuationStep] at h
      split at h
      case isTrue =>
        cases h
        exact ⟨trivial, id⟩
      case isFalse => split at h <;> cases h <;> exact ⟨trivial, id⟩
  | submit route =>
      simp only [transferStep, scheduleContinuationStep] at h
      split at h <;> cases h <;> exact ⟨trivial, id⟩
  | store | accepted | inplace | fallback =>
      cases h
      exact ⟨trivial, id⟩
  | returned | threw e | nullExecutor => cases h

/-- Such a call, if its view of the state is right, only makes these moves, and keeps
its view right. -/
theorem transferStep_move {side : Side} {write : FutureState ε α K → FutureState ε α K}
    {sh sh' : Shared ε α K} {answer : Answer} {pc pc' : Pc}
    (hother : ∀ st, side.present st = false → st = .start ∨ st = side.other)
    (hracing : pc.phase = .racing → side.present sh.fs.state = false)
    (howing : pc.phase = .owing → sh.fs.state = .done)
    (hbelieves : pc.Believes side sh.fs.state)
    (h : transferStep side write sh answer pc = some (sh', pc')) :
    Move side write sh pc sh' pc' ∧ pc'.Believes side sh'.fs.state ∧
      (sh.assertsHeld → sh'.assertsHeld) := by
  refine ⟨?_, transferStep_believes hother hracing hbelieves h⟩
  cases transferStep_effect h with
  | stay hphase hpc hfs hpending hinvoked => exact .stay hphase hpc hfs hpending hinvoked
  | reject hphase hpresent => exact .reject hphase hpresent
  | store hpc => exact .store hpc
  | publish hpc hstate => exact .publish (by rw [hpc]; rfl) hstate
  | finish hpc hstate =>
      subst hpc
      exact .finish rfl hbelieves.2
  | badState hpc hstart hne =>
      subst hpc
      rcases hother _ (hracing rfl) with hstate | hstate
      · exact absurd hstate hstart
      · exact absurd hstate hne
  | lostExchange hpc hstate =>
      subst hpc
      exact absurd (hbelieves.2.trans hbelieves.1.symm) hstate
  | notDone hpc hstate =>
      subst hpc
      exact absurd (howing rfl) hstate
  | submit hphase => exact .submit hphase
  | invoke hphase => exact .invoke hphase

/-- Outside the state the other side stores, a view says nothing. -/
theorem Pc.Believes.of_ne_other {side : Side} {st : State} {pc : Pc}
    (h : pc.Believes side st) (hne : st ≠ side.other) (st' : State) :
    pc.Believes side st' := by
  cases pc <;> simp_all [Pc.Believes]

@[simp]
theorem resultSide_present (st : State) : resultSide.present st = st.hasResult :=
  rfl

@[simp]
theorem resultSide_presentError : resultSide.presentError = .alreadyHasResult :=
  rfl

@[simp]
theorem resultSide_only : resultSide.only = .onlyResult :=
  rfl

@[simp]
theorem resultSide_other : resultSide.other = .onlyContinuation :=
  rfl

@[simp]
theorem continuationSide_present (st : State) :
    continuationSide.present st = st.hasContinuation :=
  rfl

@[simp]
theorem continuationSide_only : continuationSide.only = .onlyContinuation :=
  rfl

@[simp]
theorem continuationSide_other : continuationSide.other = .onlyResult :=
  rfl

theorem State.start_or_onlyContinuation {st : State} (h : st.hasResult = false) :
    st = .start ∨ st = .onlyContinuation := by
  cases st <;> revert h <;> decide

theorem State.start_or_onlyResult {st : State} (h : st.hasContinuation = false) :
    st = .start ∨ st = .onlyResult := by
  cases st <;> revert h <;> decide

/-! ## The invariant -/

/-- Who has stored and published what, in a run in which the setters keep
apart. -/
structure Race (value : ι → Try ε α) (func : K) (s : System ι ε α K) : Prop where
  unique : ∀ i j, (s.setter i).phase.Live → (s.setter j).phase.Live → i = j
  stored : ∀ i, (s.setter i).phase.Live → s.shared.fs.tryValue = value i
  attached : s.attacher.phase.Live → s.shared.fs.continuation = some func
  result_iff : s.shared.fs.state.hasResult ↔ ∃ i, (s.setter i).phase.Won
  continuation_iff : s.shared.fs.state.hasContinuation ↔ s.attacher.phase.Won
  setter_believes : ∀ i, (s.setter i).Believes resultSide s.shared.fs.state
  attacher_believes : s.attacher.Believes continuationSide s.shared.fs.state
  setter_threw : ∀ i e, s.setter i = .threw e →
    e = .alreadyHasResult ∧ s.shared.fs.state.hasResult
  attacher_not_failed : s.attacher.phase ≠ .failed

/-- Where the one obligation to run the continuation is: before the state is
{lit}`DONE` nowhere; afterwards with one caller, with the executor, or
discharged by one invocation. -/
structure Debt (value : ι → Try ε α) (func : K) (s : System ι ε α K) : Prop where
  quiet : s.shared.fs.state ≠ .done → s.shared.pending = 0 ∧ s.shared.invoked = [] ∧
    s.attacher.phase ≠ .owing ∧ ∀ i, (s.setter i).phase ≠ .owing
  setter_owing : ∀ i, (s.setter i).phase = .owing →
    s.shared.pending = 0 ∧ s.shared.invoked = [] ∧ s.attacher.phase ≠ .owing
  attacher_owing : s.attacher.phase = .owing → s.shared.pending = 0 ∧ s.shared.invoked = []
  pending_le : s.shared.pending = 0 ∨ s.shared.pending = 1 ∧ s.shared.invoked = []
  invoked_once : s.shared.invoked = [] ∨
    ∃ w, (s.setter w).phase = .settled ∧ s.shared.invoked = [(some func, value w)]
  owed : s.shared.fs.state = .done → s.shared.pending = 0 → s.shared.invoked = [] →
    s.attacher.phase = .owing ∨ ∃ i, (s.setter i).phase = .owing

/-- What holds in every state of a run in which the setters keep apart. -/
structure Inv (value : ι → Try ε α) (func : K) (s : System ι ε α K) : Prop where
  race : Race value func s
  debt : Debt value func s
  asserts : s.shared.assertsHeld = true

section Preservation

variable {value : ι → Try ε α} {func : K} {s : System ι ε α K}

/-- While a setter is still racing, no result has been published. -/
theorem Race.no_result (h : Race value func s) {i : ι} (hi : (s.setter i).phase = .racing) :
    s.shared.fs.state.hasResult = false := by
  by_contra hres
  rcases h.result_iff.mp (by simpa using hres) with ⟨j, hj⟩
  have hij : i = j := h.unique i j (Or.inl hi) hj.live
  subst hij
  simp [hi, Phase.Won] at hj

/-- While the continuation is still racing, none has been published. -/
theorem Race.no_continuation (h : Race value func s) (hi : s.attacher.phase = .racing) :
    s.shared.fs.state.hasContinuation = false := by
  by_contra hres
  have hwon := h.continuation_iff.mp (by simpa using hres)
  simp [hi, Phase.Won] at hwon

/-- Whoever owes the invocation has made the state {lit}`DONE`. -/
theorem Debt.done_of_owing (h : Debt value func s)
    (howing : (∃ i, (s.setter i).phase = .owing) ∨ s.attacher.phase = .owing) :
    s.shared.fs.state = .done := by
  by_contra hstate
  have hquiet := h.quiet hstate
  rcases howing with ⟨i, hi⟩ | hi
  · exact hquiet.2.2.2 i hi
  · exact hquiet.2.2.1 hi

variable [DecidableEq ι]

/-- No setter stores its value while another one has stored and not thrown. -/
def SettersApart (s : System ι ε α K) : Label ι → Prop
  | .setResult i _ => s.setter i = .store → ∀ j, j ≠ i → ¬ (s.setter j).phase.Live
  | _ => True

instance [Fintype ι] (s : System ι ε α K) : ∀ l, Decidable (SettersApart s l)
  | .setResult i _ =>
      inferInstanceAs (Decidable (s.setter i = .store → ∀ j, j ≠ i → ¬ (s.setter j).phase.Live))
  | .setContinuation _ => isTrue trivial
  | .runTask => isTrue trivial

/-! ### The race -/

/-- A setter that stores nothing and wins nothing. -/
theorem Race.setSetter {i : ι} {sh : Shared ε α K} {pc : Pc} (h : Race value func s)
    (hfs : sh.fs = s.shared.fs) (hlive : pc.phase.Live ↔ (s.setter i).phase.Live)
    (hwon : pc.phase.Won ↔ (s.setter i).phase.Won)
    (hbelieves : pc.Believes resultSide s.shared.fs.state)
    (hthrew : ∀ e, pc = .threw e → e = .alreadyHasResult ∧ s.shared.fs.state.hasResult) :
    Race value func { s with shared := sh, setter := Function.update s.setter i pc } := by
  rcases sh with ⟨fs, pending, invoked, assertsHeld⟩
  subst hfs
  have hlives := iff_update_of_iff (p := fun pc : Pc => pc.phase.Live) hlive
  have hwons := iff_update_of_iff (p := fun pc : Pc => pc.phase.Won) hwon
  refine ⟨?_, ?_, h.attached, ?_, h.continuation_iff, ?_, h.attacher_believes, ?_,
    h.attacher_not_failed⟩
  · intro a b ha hb
    exact h.unique a b ((hlives a).mp ha) ((hlives b).mp hb)
  · intro a ha
    exact h.stored a ((hlives a).mp ha)
  · exact h.result_iff.trans (exists_congr fun a => (hwons a).symm)
  · exact forall_update hbelieves h.setter_believes
  · exact forall_update (p := fun _ (pc : Pc) => ∀ e, pc = .threw e →
      e = .alreadyHasResult ∧ s.shared.fs.state.hasResult) hthrew h.setter_threw

/-- A setter stores its value while the others have stored nothing or thrown. -/
theorem Race.setterStores {i : ι} (h : Race value func s) (hi : s.setter i = .store)
    (hok : ∀ j, j ≠ i → ¬ (s.setter j).phase.Live) :
    Race value func { s with
      shared := { s.shared with fs := { s.shared.fs with tryValue := value i } }
      setter := Function.update s.setter i .load } := by
  have honly : ∀ j, (Function.update s.setter i .load j).phase.Live → j = i := by
    intro j hj
    by_contra hne
    rw [Function.update_of_ne hne] at hj
    exact hok j hne hj
  have hwon : (Pc.load).phase.Won ↔ (s.setter i).phase.Won := by
    rw [hi]
    simp [Pc.phase, Phase.Won]
  have hwons := iff_update_of_iff (p := fun pc : Pc => pc.phase.Won) hwon
  refine ⟨?_, ?_, h.attached, ?_, h.continuation_iff, ?_, h.attacher_believes, ?_,
    h.attacher_not_failed⟩
  · intro a b ha hb
    exact (honly a ha).trans (honly b hb).symm
  · intro a ha
    rw [honly a ha]
  · exact h.result_iff.trans (exists_congr fun a => (hwons a).symm)
  · exact forall_update trivial h.setter_believes
  · exact forall_update (p := fun _ (pc : Pc) => ∀ e, pc = .threw e →
      e = .alreadyHasResult ∧ s.shared.fs.state.hasResult) (by simp) h.setter_threw

/-- A setter's exchange succeeds. -/
theorem Race.setterWins {i : ι} {st : State} {pc : Pc} (h : Race value func s)
    (hi : (s.setter i).phase = .racing) (hwon : pc.phase.Won) (hresult : st.hasResult = true)
    (hcontinuation : st.hasContinuation = s.shared.fs.state.hasContinuation)
    (hattacher : s.attacher.Believes continuationSide st) :
    Race value func { s with
      shared := { s.shared with fs := { s.shared.fs with state := st } }
      setter := Function.update s.setter i pc } := by
  have hlive : (s.setter i).phase.Live := Or.inl hi
  have hlives := iff_update_of_iff (p := fun pc : Pc => pc.phase.Live) (iff_of_true hwon.live hlive)
  -- the others have not stored, so they are not on the fall-through path
  have hothers : ∀ j, j ≠ i → (s.setter j).phase ≠ .racing := by
    intro j hne hj
    exact hne (h.unique j i (Or.inl hj) hlive)
  have hself : (Function.update s.setter i pc i).phase.Won := by
    rw [Function.update_self]
    exact hwon
  have hbelieves : ∀ j, (Function.update s.setter i pc j).Believes resultSide st := by
    intro j
    by_cases hj : j = i
    · subst hj
      exact Pc.believes_of_ne_racing hself.ne_racing
    · rw [Function.update_of_ne hj]
      exact Pc.believes_of_ne_racing (hothers j hj)
  have hthrew : ∀ j e, Function.update s.setter i pc j = .threw e → e = .alreadyHasResult := by
    intro j e hj
    by_cases hji : j = i
    · subst hji
      rw [hj] at hself
      simp [Pc.phase, Phase.Won] at hself
    · rw [Function.update_of_ne hji] at hj
      exact (h.setter_threw j e hj).1
  refine ⟨?_, ?_, h.attached, iff_of_true hresult ⟨i, hself⟩, ?_, hbelieves, hattacher, ?_,
    h.attacher_not_failed⟩
  · intro a b ha hb
    exact h.unique a b ((hlives a).mp ha) ((hlives b).mp hb)
  · intro a ha
    exact h.stored a ((hlives a).mp ha)
  · exact (Bool.eq_iff_iff.mp hcontinuation).trans h.continuation_iff
  · intro j e hj
    exact ⟨hthrew j e hj, hresult⟩

/-- A setter's move keeps the race in order. -/
theorem Race.setResult {i : ι} {sh : Shared ε α K} {pc : Pc}
    (h : Race value func s)
    (hok : s.setter i = .store → ∀ j, j ≠ i → ¬ (s.setter j).phase.Live)
    (hmove : Move resultSide (fun fs => { fs with tryValue := value i }) s.shared
      (s.setter i) sh pc)
    (hbelieves : pc.Believes resultSide sh.fs.state) :
    Race value func { s with shared := sh, setter := Function.update s.setter i pc } := by
  cases hmove with
  | stay hphase hnot hfs =>
      rw [hfs] at hbelieves
      refine h.setSetter hfs (by rw [hphase]) (by rw [hphase]) hbelieves ?_
      rintro e rfl
      exact absurd hphase.symm hnot
  | reject hphase hpresent =>
      refine h.setSetter rfl ?_ ?_ hbelieves ?_
      · rw [hphase]
        simp [Pc.phase, Phase.Live]
      · rw [hphase]
        simp [Pc.phase, Phase.Won]
      · rintro e he
        cases he
        exact ⟨rfl, hpresent⟩
  | store hi => exact h.setterStores hi (hok hi)
  | publish hi hstate =>
      -- the other party cannot be on its fall-through path while the state is `START`
      refine h.setterWins hi (Or.inr rfl) rfl ?_ ?_
      · rw [hstate]
        rfl
      · exact h.attacher_believes.of_ne_other (by simp [hstate]) _
  | finish hi hstate =>
      refine h.setterWins hi (Or.inl rfl) rfl ?_ ?_
      · rw [hstate]
        rfl
      · exact h.attacher_believes.of_ne_other (by simp [hstate]) _
  | submit hi | invoke hi =>
      refine h.setSetter rfl ?_ ?_ trivial (by simp)
      · rw [hi]
        simp [Pc.phase, Phase.Live]
      · rw [hi]
        simp [Pc.phase, Phase.Won]

omit [DecidableEq ι] in
/-- The attacher stores nothing and wins nothing. -/
theorem Race.setAttacher {sh : Shared ε α K} {pc : Pc} (h : Race value func s)
    (hfs : sh.fs = s.shared.fs) (hlive : pc.phase.Live ↔ s.attacher.phase.Live)
    (hwon : pc.phase.Won ↔ s.attacher.phase.Won)
    (hbelieves : pc.Believes continuationSide s.shared.fs.state) (hnot : pc.phase ≠ .failed) :
    Race value func { s with shared := sh, attacher := pc } := by
  rcases sh with ⟨fs, pending, invoked, assertsHeld⟩
  subst hfs
  exact ⟨h.unique, h.stored, fun ha => h.attached (hlive.mp ha), h.result_iff,
    h.continuation_iff.trans hwon.symm, h.setter_believes, hbelieves, h.setter_threw, hnot⟩

omit [DecidableEq ι] in
/-- The attacher's exchange succeeds. -/
theorem Race.attacherWins {st : State} {pc : Pc} (h : Race value func s)
    (hi : s.attacher.phase = .racing) (hwon : pc.phase.Won)
    (hcontinuation : st.hasContinuation = true)
    (hresult : st.hasResult = s.shared.fs.state.hasResult)
    (hsetters : ∀ i, (s.setter i).Believes resultSide st) :
    Race value func { s with
      shared := { s.shared with fs := { s.shared.fs with state := st } }, attacher := pc } := by
  refine ⟨h.unique, h.stored, fun _ => h.attached (Or.inl hi), ?_,
    iff_of_true hcontinuation hwon, hsetters, Pc.believes_of_ne_racing hwon.ne_racing, ?_, ?_⟩
  · exact (Bool.eq_iff_iff.mp hresult).trans h.result_iff
  · intro i e he
    have hthrew := h.setter_threw i e he
    exact ⟨hthrew.1, hresult.trans hthrew.2⟩
  · intro hfailed
    simp [hfailed, Phase.Won] at hwon

omit [DecidableEq ι] in
/-- The attacher's move keeps the race in order. -/
theorem Race.setContinuation {sh : Shared ε α K} {pc : Pc} (h : Race value func s)
    (hmove : Move continuationSide (fun fs => { fs with continuation := some func }) s.shared
      s.attacher sh pc)
    (hbelieves : pc.Believes continuationSide sh.fs.state) :
    Race value func { s with shared := sh, attacher := pc } := by
  cases hmove with
  | stay hphase hnot hfs =>
      rw [hfs] at hbelieves
      exact h.setAttacher hfs (by rw [hphase]) (by rw [hphase]) hbelieves (hphase ▸ hnot)
  | reject hphase hpresent =>
      have hwon := h.continuation_iff.mp hpresent
      simp [hphase, Phase.Won] at hwon
  | store hi =>
      have hwon : (Pc.load).phase.Won ↔ s.attacher.phase.Won := by
        rw [hi]
        simp [Pc.phase, Phase.Won]
      exact ⟨h.unique, h.stored, fun _ => rfl, h.result_iff, h.continuation_iff.trans hwon.symm,
        h.setter_believes, trivial, h.setter_threw, by simp [Pc.phase]⟩
  | publish hi hstate =>
      refine h.attacherWins hi (Or.inr rfl) rfl ?_ ?_
      · rw [hstate]
        rfl
      · exact fun i => (h.setter_believes i).of_ne_other (by simp [hstate]) _
  | finish hi hstate =>
      refine h.attacherWins hi (Or.inl rfl) rfl ?_ ?_
      · rw [hstate]
        rfl
      · exact fun i => (h.setter_believes i).of_ne_other (by simp [hstate]) _
  | submit hi | invoke hi =>
      refine h.setAttacher rfl ?_ ?_ trivial (by simp [Pc.phase])
      · rw [hi]
        simp [Pc.phase, Phase.Live]
      · rw [hi]
        simp [Pc.phase, Phase.Won]

omit [DecidableEq ι] in
/-- Once the state is {lit}`DONE` both parts are there. -/
theorem Race.parts_of_done (h : Race value func s) (hdone : s.shared.fs.state = .done) :
    s.shared.fs.continuation = some func ∧
      ∃ w, (s.setter w).phase.Won ∧ s.shared.fs.tryValue = value w := by
  have hwon := h.continuation_iff.mp (by simp [hdone])
  rcases h.result_iff.mp (by simp [hdone]) with ⟨w, hw⟩
  exact ⟨h.attached hwon.live, w, hw, h.stored w hw.live⟩

/-! ### The obligation -/

omit [DecidableEq ι] in
/-- A move that neither creates nor discharges the obligation. -/
theorem Debt.keep {s' : System ι ε α K} (h : Debt value func s)
    (hpending : s'.shared.pending = s.shared.pending)
    (hinvoked : s'.shared.invoked = s.shared.invoked)
    (hdone : s'.shared.fs.state = .done ↔ s.shared.fs.state = .done)
    (hattacher : s'.attacher.phase = .owing ↔ s.attacher.phase = .owing)
    (hsetter : ∀ i, (s'.setter i).phase = .owing ↔ (s.setter i).phase = .owing)
    (hsettled : ∀ i, (s.setter i).phase = .settled → (s'.setter i).phase = .settled) :
    Debt value func s' := by
  refine ⟨?_, ?_, ?_, ?_, ?_, ?_⟩
  · intro hstate
    rcases h.quiet (mt hdone.mpr hstate) with ⟨hzero, hnone, hidle, hidles⟩
    exact ⟨hpending.trans hzero, hinvoked.trans hnone, mt hattacher.mp hidle,
      fun i => mt (hsetter i).mp (hidles i)⟩
  · intro i hi
    rcases h.setter_owing i ((hsetter i).mp hi) with ⟨hzero, hnone, hidle⟩
    exact ⟨hpending.trans hzero, hinvoked.trans hnone, mt hattacher.mp hidle⟩
  · intro howing
    rcases h.attacher_owing (hattacher.mp howing) with ⟨hzero, hnone⟩
    exact ⟨hpending.trans hzero, hinvoked.trans hnone⟩
  · rw [hpending, hinvoked]
    exact h.pending_le
  · rw [hinvoked]
    refine h.invoked_once.imp_right ?_
    rintro ⟨w, hw, honce⟩
    exact ⟨w, hsettled w hw, honce⟩
  · intro hstate hzero hnone
    refine (h.owed (hdone.mp hstate) (hpending.symm.trans hzero)
      (hinvoked.symm.trans hnone)).imp hattacher.mpr ?_
    rintro ⟨i, hi⟩
    exact ⟨i, (hsetter i).mpr hi⟩

omit [DecidableEq ι] in
/-- The exchange that makes the state {lit}`DONE` creates the obligation: one of the
parties owes the invocation. -/
theorem Debt.create {s' : System ι ε α K} (h : Debt value func s)
    (hstate : s.shared.fs.state ≠ .done) (hdone : s'.shared.fs.state = .done)
    (hpending : s'.shared.pending = s.shared.pending)
    (hinvoked : s'.shared.invoked = s.shared.invoked)
    (hone : ∀ i, (s'.setter i).phase = .owing → s'.attacher.phase ≠ .owing)
    (howing : s'.attacher.phase = .owing ∨ ∃ i, (s'.setter i).phase = .owing) :
    Debt value func s' := by
  rcases h.quiet hstate with ⟨hzero, hnone, -, -⟩
  rw [← hpending] at hzero
  rw [← hinvoked] at hnone
  exact ⟨fun hne => absurd hdone hne, fun i hi => ⟨hzero, hnone, hone i hi⟩,
    fun _ => ⟨hzero, hnone⟩, Or.inl hzero, Or.inl hnone, fun _ _ _ => howing⟩

omit [DecidableEq ι] in
/-- Nobody owes the invocation any more: it is with the executor, or has happened. -/
theorem Debt.discharge {s' : System ι ε α K} (hdone : s'.shared.fs.state = .done)
    (hattacher : s'.attacher.phase ≠ .owing) (hsetter : ∀ i, (s'.setter i).phase ≠ .owing)
    (hwhere : (s'.shared.pending = 1 ∧ s'.shared.invoked = []) ∨
      (s'.shared.pending = 0 ∧ ∃ w, (s'.setter w).phase = .settled ∧
        s'.shared.invoked = [(some func, value w)])) : Debt value func s' := by
  refine ⟨fun hne => absurd hdone hne, fun i hi => absurd hi (hsetter i),
    fun hi => absurd hi hattacher, ?_, ?_, ?_⟩
  · rcases hwhere with hpending | ⟨hzero, -⟩
    · exact Or.inr hpending
    · exact Or.inl hzero
  · rcases hwhere with ⟨-, hnone⟩ | ⟨-, honce⟩
    · exact Or.inl hnone
    · exact Or.inr honce
  · intro _ hzero hnone
    rcases hwhere with ⟨hone, -⟩ | ⟨-, w, -, honce⟩
    · rw [hzero] at hone
      cases hone
    · rw [hnone] at honce
      cases honce

/-- A setter's move that neither creates nor discharges the obligation. -/
theorem Debt.setSetter {i : ι} {sh : Shared ε α K} {pc : Pc} (h : Debt value func s)
    (hpending : sh.pending = s.shared.pending) (hinvoked : sh.invoked = s.shared.invoked)
    (hdone : sh.fs.state = .done ↔ s.shared.fs.state = .done)
    (howing : pc.phase = .owing ↔ (s.setter i).phase = .owing)
    (hsettled : (s.setter i).phase = .settled → pc.phase = .settled) :
    Debt value func { s with shared := sh, setter := Function.update s.setter i pc } :=
  h.keep hpending hinvoked hdone Iff.rfl
    (iff_update_of_iff (p := fun pc : Pc => pc.phase = .owing) howing)
    (forall_update (p := fun j (pc : Pc) => (s.setter j).phase = .settled → pc.phase = .settled)
      hsettled fun _ => id)

/-- A setter that hands its obligation on. -/
theorem Debt.setterDischarges {i : ι} {sh : Shared ε α K} {pc : Pc} (hrace : Race value func s)
    (h : Debt value func s) (hi : (s.setter i).phase = .owing) (hfs : sh.fs = s.shared.fs)
    (hpc : pc.phase = .settled)
    (hwhere : (sh.pending = 1 ∧ sh.invoked = []) ∨
      (sh.pending = 0 ∧ sh.invoked = [(some func, value i)])) :
    Debt value func { s with shared := sh, setter := Function.update s.setter i pc } := by
  have hdone := h.done_of_owing (.inl ⟨i, hi⟩)
  have hself : (Function.update s.setter i pc i).phase = .settled := by
    rw [Function.update_self]
    exact hpc
  have hnobody : ∀ j, (Function.update s.setter i pc j).phase ≠ .owing := by
    intro j
    by_cases hj : j = i
    · subst hj
      rw [hself]
      simp
    · rw [Function.update_of_ne hj]
      exact fun howing => hj (hrace.unique j i (Or.inr (Or.inl howing)) (Or.inr (Or.inl hi)))
  rw [← hfs] at hdone
  exact Debt.discharge hdone (h.setter_owing i hi).2.2 hnobody
    (hwhere.imp_right (And.imp_right fun honce => ⟨i, hself, honce⟩))

/-- A setter's move keeps the obligation in one place. -/
theorem Debt.setResult {i : ι} {sh : Shared ε α K} {pc : Pc}
    (hrace : Race value func s) (h : Debt value func s)
    (hmove : Move resultSide (fun fs => { fs with tryValue := value i }) s.shared
      (s.setter i) sh pc) :
    Debt value func { s with shared := sh, setter := Function.update s.setter i pc } := by
  cases hmove with
  | stay hphase _ hfs hpending hinvoked =>
      exact h.setSetter hpending hinvoked (by rw [hfs]) (by rw [hphase]) (by rw [hphase]; exact id)
  | reject hphase =>
      refine h.setSetter rfl rfl Iff.rfl ?_ ?_
      · rw [hphase]
        simp [Pc.phase]
      · rw [hphase]
        simp
  | store hi =>
      refine h.setSetter rfl rfl Iff.rfl ?_ ?_
      · rw [hi]
        simp [Pc.phase]
      · rw [hi]
        simp [Pc.phase]
  | publish hi hstate =>
      refine h.setSetter rfl rfl ?_ ?_ fun _ => rfl
      · rw [hstate]
        simp
      · rw [hi]
        simp [Pc.phase]
  | finish _ hstate =>
      have hne : s.shared.fs.state ≠ .done := by simp [hstate]
      have hself : (Function.update s.setter i .assertDone i).phase = .owing := by
        rw [Function.update_self]
        rfl
      exact h.create hne rfl rfl rfl (fun _ _ => (h.quiet hne).2.2.1) (Or.inr ⟨i, hself⟩)
  | submit hi =>
      rcases h.setter_owing i hi with ⟨hzero, hnone, -⟩
      exact h.setterDischarges hrace hi rfl rfl (.inl ⟨congrArg (· + 1) hzero, hnone⟩)
  | invoke hi =>
      rcases h.setter_owing i hi with ⟨hzero, hnone, -⟩
      have hparts := hrace.parts_of_done (h.done_of_owing (.inl ⟨i, hi⟩))
      refine h.setterDischarges hrace hi rfl rfl (.inr ⟨hzero, ?_⟩)
      rw [Shared.invoke, hparts.1, hrace.stored i (Or.inr (Or.inl hi)), hnone]

omit [DecidableEq ι] in
/-- The invocation with both parts, when nobody else owes it. -/
theorem Debt.invoke {n : Nat} {pc : Pc} (hrace : Race value func s)
    (hdone : s.shared.fs.state = .done) (hnone : s.shared.invoked = []) (hn : n = 0)
    (hattacher : pc.phase ≠ .owing) (hsetter : ∀ i, (s.setter i).phase ≠ .owing) :
    Debt value func { s with
      shared := { s.shared.invoke with pending := n }, attacher := pc } := by
  rcases hrace.parts_of_done hdone with ⟨hfunc, w, hwon, hvalue⟩
  refine Debt.discharge hdone hattacher hsetter (.inr ⟨hn, w, hwon.resolve_left (hsetter w), ?_⟩)
  rw [Shared.invoke, hfunc, hvalue, hnone]

omit [DecidableEq ι] in
/-- The attacher's move keeps the obligation in one place. -/
theorem Debt.setContinuation {sh : Shared ε α K} {pc : Pc}
    (hrace : Race value func s) (h : Debt value func s)
    (hmove : Move continuationSide (fun fs => { fs with continuation := some func }) s.shared
      s.attacher sh pc) :
    Debt value func { s with shared := sh, attacher := pc } := by
  have hsole : s.attacher.phase = .owing → ∀ i, (s.setter i).phase ≠ .owing :=
    fun howing i hi => (h.setter_owing i hi).2.2 howing
  cases hmove with
  | stay hphase _ hfs hpending hinvoked =>
      exact h.keep hpending hinvoked (by rw [hfs]) (by rw [hphase]) (fun _ => Iff.rfl)
        fun _ => id
  | reject hphase =>
      refine h.keep rfl rfl Iff.rfl ?_ (fun _ => Iff.rfl) fun _ => id
      rw [hphase]
      simp [Pc.phase]
  | store hi =>
      refine h.keep rfl rfl Iff.rfl ?_ (fun _ => Iff.rfl) fun _ => id
      rw [hi]
      simp [Pc.phase]
  | publish hi hstate =>
      refine h.keep rfl rfl ?_ ?_ (fun _ => Iff.rfl) fun _ => id
      · rw [hstate]
        simp
      · rw [hi]
        simp [Pc.phase]
  | finish _ hstate =>
      have hne : s.shared.fs.state ≠ .done := by simp [hstate]
      exact h.create hne rfl rfl rfl (fun i hi => absurd hi ((h.quiet hne).2.2.2 i)) (Or.inl rfl)
  | submit hi =>
      rcases h.attacher_owing hi with ⟨hzero, hnone⟩
      exact Debt.discharge (h.done_of_owing (.inr hi)) (by simp [Pc.phase]) (hsole hi)
        (.inl ⟨congrArg (· + 1) hzero, hnone⟩)
  | invoke hi =>
      rcases h.attacher_owing hi with ⟨hzero, hnone⟩
      exact Debt.invoke hrace (h.done_of_owing (.inr hi)) hnone hzero (by simp [Pc.phase])
        (hsole hi)

omit [DecidableEq ι] in
/-- Running an accepted task discharges the obligation. -/
theorem Debt.runTask {n : Nat} (hrace : Race value func s) (h : Debt value func s)
    (hn : s.shared.pending = n + 1) :
    Debt value func { s with shared := { s.shared.invoke with pending := n } } := by
  have hpositive : s.shared.pending ≠ 0 := by omega
  rcases h.pending_le.resolve_left hpositive with ⟨hone, hnone⟩
  have hdone : s.shared.fs.state = .done := by
    by_contra hstate
    exact hpositive (h.quiet hstate).1
  exact Debt.invoke hrace hdone hnone (by omega) (fun hi => hpositive (h.attacher_owing hi).1)
    fun i hi => hpositive (h.setter_owing i hi).1

/-- One step of a run in which the setters keep apart. -/
theorem Inv.step {s' : System ι ε α K} {l : Label ι} (h : Inv value func s)
    (hok : SettersApart s l) (hstep : step value func s l = some s') : Inv value func s' := by
  cases l with
  | setResult i answer =>
      simp only [FutureState.step, Option.map_eq_some_iff] at hstep
      obtain ⟨⟨sh, pc⟩, hstep, rfl⟩ := hstep
      obtain ⟨hmove, hbelieves, hasserts⟩ := transferStep_move
        (fun _ => State.start_or_onlyContinuation) h.race.no_result
        (fun hi => h.debt.done_of_owing (.inl ⟨i, hi⟩)) (h.race.setter_believes i) hstep
      exact ⟨h.race.setResult hok hmove hbelieves, h.debt.setResult h.race hmove,
        hasserts h.asserts⟩
  | setContinuation answer =>
      simp only [FutureState.step, Option.map_eq_some_iff] at hstep
      obtain ⟨⟨sh, pc⟩, hstep, rfl⟩ := hstep
      obtain ⟨hmove, hbelieves, hasserts⟩ := transferStep_move
        (fun _ => State.start_or_onlyResult) h.race.no_continuation
        (fun hi => h.debt.done_of_owing (.inr hi)) h.race.attacher_believes hstep
      exact ⟨h.race.setContinuation hmove hbelieves, h.debt.setContinuation h.race hmove,
        hasserts h.asserts⟩
  | runTask =>
      simp only [FutureState.step] at hstep
      split at hstep
      · contradiction
      · rename_i n hn
        simp only [Option.some.injEq] at hstep
        subst hstep
        exact ⟨⟨h.race.unique, h.race.stored, h.race.attached, h.race.result_iff,
          h.race.continuation_iff, h.race.setter_believes, h.race.attacher_believes,
          h.race.setter_threw, h.race.attacher_not_failed⟩, h.debt.runTask h.race hn, h.asserts⟩

end Preservation

/-! ## Progress -/

/-- Steps a call may still make, the run of an accepted task included. -/
def Pc.rank : Pc → Nat
  | .check => 12
  | .store => 11
  | .load => 10
  | .casStart => 9
  | .assertOther _ => 8
  | .casDone _ => 7
  | .assertDone => 6
  | .dispatch => 5
  | .submit _ => 4
  | .accepted => 1
  | .inplace => 2
  | .fallback => 2
  | .returned => 0
  | .threw _ => 0
  | .nullExecutor => 0

/-- A call that has not ended can always move, and comes closer to its end. -/
theorem transferStep_progress (side : Side) (write : FutureState ε α K → FutureState ε α K)
    (sh : Shared ε α K) (answer : Answer) {pc : Pc} (hreturned : pc ≠ .returned)
    (hthrew : pc.phase ≠ .failed) (hnull : pc ≠ .nullExecutor) :
    ∃ sh' pc', transferStep side write sh answer pc = some (sh', pc') ∧
      pc'.rank + sh'.pending < pc.rank + sh.pending := by
  cases pc with
  | check | load | assertDone =>
      refine ⟨_, _, rfl, ?_⟩
      repeat' split
      all_goals simp [Pc.rank]
  | store | assertOther expected | accepted | inplace | fallback =>
      exact ⟨_, _, rfl, by simp [Pc.rank, Shared.invoke]⟩
  | casStart | casDone expected =>
      simp only [transferStep]
      split
      · exact ⟨_, _, rfl, by simp [Pc.rank]⟩
      · exact ⟨_, _, rfl, by simp [Pc.rank]⟩
  | dispatch =>
      simp only [transferStep, scheduleContinuationStep]
      split
      · exact ⟨_, _, rfl, by simp [Pc.rank]⟩
      · split
        · exact ⟨_, _, rfl, by simp [Pc.rank]⟩
        · exact ⟨_, _, rfl, by simp [Pc.rank]⟩
  | submit route =>
      simp only [transferStep, scheduleContinuationStep]
      split
      · exact ⟨_, _, rfl, by simp only [Pc.rank]; omega⟩
      · exact ⟨_, _, rfl, by simp [Pc.rank]⟩
  | returned => exact absurd rfl hreturned
  | threw e => exact absurd rfl hthrew
  | nullExecutor => exact absurd rfl hnull

/-- The executor and the force flag never change during the calls, and the null
executor is dereferenced only when scheduling is forced without an executor. -/
structure Wired (executor : Option Nat) (forceSched : Bool) (s : System ι ε α K) : Prop where
  executor_eq : s.shared.fs.executor = executor
  forceSched_eq : s.shared.fs.forceSched = forceSched
  setter_null : ∀ i, s.setter i = .nullExecutor → executor = none ∧ forceSched = true
  attacher_null : s.attacher = .nullExecutor → executor = none ∧ forceSched = true

theorem transferStep_executor {side : Side} {write : FutureState ε α K → FutureState ε α K}
    {sh sh' : Shared ε α K} {answer : Answer} {pc pc' : Pc}
    (h : transferStep side write sh answer pc = some (sh', pc'))
    (hwrite : ∀ fs, (write fs).executor = fs.executor ∧ (write fs).forceSched = fs.forceSched) :
    sh'.fs.executor = sh.fs.executor ∧ sh'.fs.forceSched = sh.fs.forceSched := by
  cases transferStep_effect h with
  | stay _ _ hfs => exact ⟨by rw [hfs], by rw [hfs]⟩
  | store _ => exact hwrite sh.fs
  | _ => exact ⟨rfl, rfl⟩

/-- Only {lit}`scheduleContinuation` comes to a null executor, and only when it is
forced to schedule. -/
theorem transferStep_nullExecutor {side : Side}
    {write : FutureState ε α K → FutureState ε α K} {sh sh' : Shared ε α K} {answer : Answer}
    {pc : Pc} (h : transferStep side write sh answer pc = some (sh', .nullExecutor)) :
    sh.fs.executor = none ∧ sh.fs.forceSched = true := by
  cases pc with
  | dispatch =>
      simp only [transferStep, scheduleContinuationStep] at h
      split at h
      case isTrue => cases h
      case isFalse hnot =>
        split at h
        case h_1 hexecutor =>
          simp only [hexecutor, Option.isNone_none, Bool.true_or, Bool.and_true,
            Bool.not_eq_true', Bool.not_eq_false] at hnot
          exact ⟨hexecutor, hnot⟩
        case h_2 => cases h
  | check | assertDone =>
      simp only [transferStep, scheduleContinuationStep, Option.some.injEq, Prod.mk.injEq] at h
      have hpc := h.2
      split at hpc <;> cases hpc
  | load =>
      simp only [transferStep, Option.some.injEq, Prod.mk.injEq] at h
      have hpc := h.2
      split at hpc
      · cases hpc
      · split at hpc <;> cases hpc
  | casStart | casDone expected | submit route =>
      simp only [transferStep, scheduleContinuationStep] at h
      split at h <;> cases h
  | _ => cases h

section Runs

variable [DecidableEq ι] {value : ι → Try ε α} {func : K} {executor context : Option Nat}
  {forceSched : Bool} {s s' : System ι ε α K}

theorem Wired.step {l : Label ι} (h : Wired executor forceSched s)
    (hstep : step value func s l = some s') : Wired executor forceSched s' := by
  cases l with
  | setResult i answer =>
      simp only [FutureState.step, Option.map_eq_some_iff] at hstep
      obtain ⟨⟨sh, pc⟩, hstep, rfl⟩ := hstep
      have hsame := transferStep_executor hstep fun _ => ⟨rfl, rfl⟩
      have hnull : pc = .nullExecutor → executor = none ∧ forceSched = true := by
        rintro rfl
        rw [← h.executor_eq, ← h.forceSched_eq]
        exact transferStep_nullExecutor hstep
      exact ⟨hsame.1.trans h.executor_eq, hsame.2.trans h.forceSched_eq,
        forall_update (p := fun _ (pc : Pc) => pc = .nullExecutor →
          executor = none ∧ forceSched = true) hnull h.setter_null, h.attacher_null⟩
  | setContinuation answer =>
      simp only [FutureState.step, Option.map_eq_some_iff] at hstep
      obtain ⟨⟨sh, pc⟩, hstep, rfl⟩ := hstep
      have hsame := transferStep_executor hstep fun _ => ⟨rfl, rfl⟩
      refine ⟨hsame.1.trans h.executor_eq, hsame.2.trans h.forceSched_eq, h.setter_null, ?_⟩
      rintro rfl
      rw [← h.executor_eq, ← h.forceSched_eq]
      exact transferStep_nullExecutor hstep
  | runTask =>
      simp only [FutureState.step] at hstep
      split at hstep
      · contradiction
      · simp only [Option.some.injEq] at hstep
        subst hstep
        exact ⟨h.executor_eq, h.forceSched_eq, h.setter_null, h.attacher_null⟩

/-- A new shared state on which an executor, a context and the force flag have
been set. -/
def configured (executor context : Option Nat) (forceSched : Bool) : FutureState ε α K :=
  { create with executor := executor, context := context, forceSched := forceSched }

omit [DecidableEq ι] in
theorem Inv.initial :
    Inv value func (System.initial (configured executor context forceSched)) := by
  refine ⟨?_, ?_, rfl⟩ <;>
    constructor <;> simp [System.initial, configured, create, Pc.phase, Phase.Live, Phase.Won,
      Pc.Believes, State.hasResult_iff, State.hasContinuation_iff]

omit [DecidableEq ι] in
theorem Wired.initial : Wired executor forceSched
    (System.initial (configured executor context forceSched) : System ι ε α K) := by
  constructor <;> simp [System.initial, configured]

end Runs

/-! ## One promise, one continuation -/

section HandOff

variable {v : Try ε α} {k : K} {executor context : Option Nat} {forceSched : Bool}
  {s : System Unit ε α K}

/-- Both calls have returned and no accepted task is waiting. -/
def Completed (s : System Unit ε α K) : Prop :=
  s.setter () = .returned ∧ s.attacher = .returned ∧ s.shared.pending = 0

instance : DecidablePred (Completed (ε := ε) (α := α) (K := K)) :=
  fun _ => inferInstanceAs (Decidable (_ ∧ _ ∧ _))

theorem Race.setter_not_failed (h : Race (fun _ => v) k s) : (s.setter ()).phase ≠ .failed := by
  intro hfailed
  have hthrew : ∃ e, s.setter () = .threw e := by
    cases hpc : s.setter () <;> simp_all [Pc.phase]
  rcases hthrew with ⟨e, he⟩
  rcases h.result_iff.mp (h.setter_threw () e he).2 with ⟨_, hwon⟩
  simp [hfailed, Phase.Won] at hwon

/-- The invariant of the hand-off between one setter and one continuation. -/
def HandOffInv (v : Try ε α) (k : K) (executor : Option Nat) (forceSched : Bool)
    (s : System Unit ε α K) : Prop :=
  Inv (fun _ => v) k s ∧ Wired executor forceSched s

theorem HandOffInv.step {l : Label Unit} {s' : System Unit ε α K}
    (h : HandOffInv v k executor forceSched s)
    (hstep : step (fun _ => v) k s l = some s') : HandOffInv v k executor forceSched s' := by
  refine ⟨h.1.step ?_ hstep, h.2.step hstep⟩
  cases l <;> simp [SettersApart]

/-- Steps that the two calls and the accepted tasks may still make. -/
def System.rank (s : System Unit ε α K) : Nat :=
  (s.setter ()).rank + s.attacher.rank + s.shared.pending

namespace HandOffInv

section Progress

variable (hforce : forceSched = true → executor ≠ none)
include hforce

theorem exists_setResult (h : HandOffInv v k executor forceSched s)
    (hsetter : s.setter () ≠ .returned) (answer : Answer) :
    ∃ s', FutureState.step (fun _ => v) k s (.setResult () answer) = some s' ∧
      s'.rank < s.rank := by
  have hnull : s.setter () ≠ .nullExecutor := fun hpc =>
    hforce (h.2.setter_null () hpc).2 (h.2.setter_null () hpc).1
  rcases transferStep_progress resultSide (fun fs => { fs with tryValue := v }) s.shared
    answer hsetter h.1.race.setter_not_failed hnull with ⟨sh, pc, hmove, hlt⟩
  refine ⟨_, by simp only [FutureState.step, setResultStep, hmove]; rfl, ?_⟩
  simp only [System.rank, Function.update_self]
  omega

theorem exists_setContinuation (h : HandOffInv v k executor forceSched s)
    (hattacher : s.attacher ≠ .returned) (answer : Answer) :
    ∃ s', FutureState.step (fun _ => v) k s (.setContinuation answer) = some s' ∧
      s'.rank < s.rank := by
  have hnull : s.attacher ≠ .nullExecutor := fun hpc =>
    hforce (h.2.attacher_null hpc).2 (h.2.attacher_null hpc).1
  rcases transferStep_progress continuationSide (fun fs => { fs with continuation := some k })
    s.shared answer hattacher h.1.race.attacher_not_failed hnull with
    ⟨sh, pc, hmove, hlt⟩
  refine ⟨_, by simp only [FutureState.step, setContinuationStep, hmove]; rfl, ?_⟩
  simp only [System.rank]
  omega

end Progress

theorem exists_runTask (hpending : s.shared.pending ≠ 0) :
    ∃ s', FutureState.step (fun _ => v) k s .runTask = some s' ∧ s'.rank < s.rank := by
  rcases Nat.exists_eq_succ_of_ne_zero hpending with ⟨n, hn⟩
  refine ⟨_, by simp only [FutureState.step, hn]; rfl, ?_⟩
  simp only [System.rank, hn]
  omega

/-- The promise side has come to its end, or can move. -/
theorem settled_or_exists_step (hforce : forceSched = true → executor ≠ none)
    (h : HandOffInv v k executor forceSched s) :
    s.setter () = .returned ∧ s.shared.pending = 0 ∨
      ∃ l s', (l = .setResult () ⟨false, false⟩ ∨ l = .runTask) ∧
        FutureState.step (fun _ => v) k s l = some s' ∧ s'.rank < s.rank := by
  by_cases hsetter : s.setter () = .returned
  · by_cases hpending : s.shared.pending = 0
    · exact .inl ⟨hsetter, hpending⟩
    · rcases exists_runTask hpending with ⟨s', hstep, hlt⟩
      exact .inr ⟨.runTask, s', .inr rfl, hstep, hlt⟩
  · rcases h.exists_setResult hforce hsetter ⟨false, false⟩ with ⟨s', hstep, hlt⟩
    exact .inr ⟨_, s', .inl rfl, hstep, hlt⟩

/-- From every state of the hand-off a completed state can be reached, unless
scheduling was forced without an executor. -/
theorem exists_completed (hforce : forceSched = true → executor ≠ none)
    (h : HandOffInv v k executor forceSched s) :
    ∃ ls t, (machine (fun _ => v) k).run s ls = some t ∧
      HandOffInv v k executor forceSched t ∧ Completed t := by
  have hprogress : ∀ s, HandOffInv v k executor forceSched s → ¬ Completed s →
      ∃ l s', True ∧ (machine (fun _ => v) k).step s l = some s' ∧
        HandOffInv v k executor forceSched s' ∧ s'.rank < s.rank := by
    intro s hs hgoal
    rcases hs.settled_or_exists_step hforce with ⟨hsetter, hpending⟩ | ⟨l, s', -, hstep, hlt⟩
    · have hattacher : s.attacher ≠ .returned := fun hattacher =>
        hgoal ⟨hsetter, hattacher, hpending⟩
      rcases hs.exists_setContinuation hforce hattacher ⟨false, false⟩ with ⟨s', hstep, hlt⟩
      exact ⟨.setContinuation ⟨false, false⟩, s', trivial, hstep, hs.step hstep, hlt⟩
    · exact ⟨l, s', trivial, hstep, hs.step hstep, hlt⟩
  rcases Machine.exists_run_of_measure _ (fun _ => True) System.rank hprogress h with
    ⟨ls, t, -, hrun, ht, hcompleted⟩
  exact ⟨ls, t, hrun, ht, hcompleted⟩

end HandOffInv

/-- The hand-off of one result to one continuation, over every interleaving of
{lit}`setResult(v)` and {lit}`setContinuation(k)` and every behaviour of the
executor: the continuation is invoked at most once, only with {lit}`v` and only
after both parts have been stored; no error branch is reached; when both calls
have returned and no accepted task is left, the state is {lit}`DONE` and the
continuation has been invoked exactly once; and such a state can always be
reached, unless scheduling is forced while there is no executor. -/
theorem handOff_exactly_once (v : Try ε α) (k : K) (executor context : Option Nat)
    (forceSched : Bool) (ls : List (Label Unit)) (s : System Unit ε α K)
    (hrun : (machine (fun _ => v) k).run
      (System.initial (configured executor context forceSched)) ls = some s) :
    (s.shared.invoked = [] ∨ s.shared.invoked = [(some k, v)]) ∧
      (s.shared.invoked ≠ [] → (s.setter ()).phase.Live ∧ s.attacher.phase.Live ∧
        s.shared.fs.tryValue = v ∧ s.shared.fs.continuation = some k) ∧
      (∀ e, s.setter () ≠ .threw e ∧ s.attacher ≠ .threw e) ∧
      s.shared.assertsHeld = true ∧
      (s.setter () = .nullExecutor ∨ s.attacher = .nullExecutor →
        executor = none ∧ forceSched = true) ∧
      (Completed s → s.shared.fs.state = .done ∧ s.shared.invoked = [(some k, v)]) ∧
      ((forceSched = true → executor ≠ none) →
        ∃ ls' t, (machine (fun _ => v) k).run s ls' = some t ∧ Completed t) := by
  have hinv : HandOffInv v k executor forceSched s :=
    Machine.run_invariant _ (fun _ _ _ h hstep => h.step hstep)
      ⟨Inv.initial, Wired.initial⟩ hrun
  obtain ⟨⟨hrace, hdebt, hasserts⟩, hwired⟩ := hinv
  have hdone : s.shared.invoked ≠ [] → s.shared.fs.state = .done := by
    intro hne
    by_contra hstate
    exact hne (hdebt.quiet hstate).2.1
  refine ⟨?_, ?_, ?_, hasserts, ?_, ?_, ?_⟩
  · rcases hdebt.invoked_once with h | ⟨_, _, h⟩
    · exact Or.inl h
    · exact Or.inr h
  · intro hne
    have hstate := hdone hne
    rcases hrace.result_iff.mp (by simp [hstate]) with ⟨_, hsetter⟩
    have hattacher := hrace.continuation_iff.mp (by simp [hstate])
    exact ⟨hsetter.live, hattacher.live, hrace.stored () hsetter.live,
      hrace.attached hattacher.live⟩
  · intro e
    refine ⟨fun h => hrace.setter_not_failed ?_, fun h => hrace.attacher_not_failed ?_⟩ <;>
      simp [h, Pc.phase]
  · rintro (h | h)
    · exact hwired.setter_null () h
    · exact hwired.attacher_null h
  · rintro ⟨hsetter, hattacher, hpending⟩
    have hstate : s.shared.fs.state = .done := by
      have hres := hrace.result_iff.mpr ⟨(), by simp [hsetter, Pc.phase, Phase.Won]⟩
      have hcont := hrace.continuation_iff.mpr (by simp [hattacher, Pc.phase, Phase.Won])
      revert hres hcont
      cases s.shared.fs.state <;> decide
    refine ⟨hstate, ?_⟩
    rcases hdebt.invoked_once with hnone | ⟨_, _, honce⟩
    · rcases hdebt.owed hstate hpending hnone with howing | ⟨_, howing⟩
      · simp [hattacher, Pc.phase] at howing
      · simp [hsetter, Pc.phase] at howing
    · exact honce
  · intro hforce
    obtain ⟨ls', t, hrun', _, hcompleted⟩ :=
      HandOffInv.exists_completed hforce ⟨⟨hrace, hdebt, hasserts⟩, hwired⟩
    exact ⟨ls', t, hrun', hcompleted⟩

/-- The continuation is published between the setter's load and its exchange;
the setter falls through, submits the continuation and the accepted task runs. -/
def throughExecutor : List (Label Unit) :=
  List.replicate 3 (.setResult () ⟨false, true⟩) ++
    List.replicate 4 (.setContinuation ⟨false, true⟩) ++
    List.replicate 7 (.setResult () ⟨false, true⟩) ++ [.runTask]

/-- On this run the continuation has been invoked once, with the value. -/
theorem handOff_exactly_once_throughExecutor :
    ∃ s, (machine (fun _ : Unit => (.value 7 : Try Unit Nat)) ()).run
        (System.initial (configured (some 1) none false)) throughExecutor = some s ∧
      s.shared.fs.state = .done ∧ s.shared.invoked = [(some (), .value 7)] := by
  obtain ⟨s, hrun, hcompleted⟩ := Machine.exists_run_of_any
    (machine (fun _ : Unit => (.value 7 : Try Unit Nat)) ())
    (System.initial (configured (some 1) none false)) throughExecutor Completed (by decide)
  exact ⟨s, hrun, (handOff_exactly_once _ _ _ _ _ _ s hrun).2.2.2.2.2.1 hcompleted⟩

end HandOff

end FutureState

end AsyncSimple
