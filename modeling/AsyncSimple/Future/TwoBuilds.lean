import AsyncSimple.Future.HandOff

/-!
# The two builds of {lit}`setResult`

{lit}`FutureState::setResult` begins with a check for a result, which is left out when the code
is compiled with GCC 12 or later.  Without the check the new {lit}`Try` is stored before the
switch over {lit}`_state` refuses the call.

A history is a list of calls that are made one after the other on the copies of the promise and
on the future of one shared state.  Each call runs alone to its end, in the steps of
{lit}`FutureState`; the build without the check enters {lit}`setResult` behind it.  A
continuation, or a reader of the result, gets a reference to the stored {lit}`Try` and may move
from it.

Main results:

- Theorem {lit}`setResultAlone_ends`: a call that runs alone comes to its end.
- Theorem {lit}`alike_iff`: the builds cannot be told apart exactly if no call sets a different
  result when there is one.
-/

namespace AsyncSimple

open FutureState (Shared Answer Pc setResultStep setContinuationStep)

namespace TwoBuilds

variable {π ε α K : Type}

/-- Whether {lit}`setResult` begins with its check. -/
inductive Build where
  | checked
  | unchecked
deriving DecidableEq, Repr

/-! ## Calls that run alone -/

/-- A call runs until it ends, for a bounded number of steps. -/
def runAlone (step : Shared ε α K → Pc → Option (Shared ε α K × Pc)) :
    Nat → Shared ε α K → Pc → Shared ε α K × Pc
  | 0, sh, pc => (sh, pc)
  | steps + 1, sh, pc =>
      match step sh pc with
      | none => (sh, pc)
      | some (sh', pc') => runAlone step steps sh' pc'

/-- {lit}`setResult(t)`. -/
def setResultAlone (b : Build) (t : Try ε α) (answer : Answer) (sh : Shared ε α K) :
    Shared ε α K × Pc :=
  match b with
  | .checked => runAlone (fun sh pc => setResultStep t sh answer pc) 12 sh .check
  | .unchecked => runAlone (fun sh pc => setResultStep t sh answer pc) 11 sh .store

/-- {lit}`setContinuation(func)`. -/
def setContinuationAlone (func : K) (answer : Answer) (sh : Shared ε α K) : Shared ε α K × Pc :=
  runAlone (fun sh pc => setContinuationStep func sh answer pc) 12 sh .check

/-! ## Histories -/

/-- How a call ends.  {lit}`nullExecutor` is a call through a null pointer. -/
inductive Output (ε α : Type) where
  | returned
  | logicError (what : String)
  | nullExecutor
  | has (b : Bool)
  | result (t : Try ε α)
  | value (v : α)
  | rethrown (e : ε)
deriving DecidableEq, Repr

/-- The output without the message of an error. -/
def Output.anonymous : Output ε α → Output ε α
  | .logicError _ => .logicError ""
  | o => o

def Output.isLogicError : Output ε α → Bool
  | .logicError _ => true
  | _ => false

/-- The end of {lit}`setResult` or {lit}`setContinuation`. -/
def output : Pc → Output ε α
  | .threw e => .logicError e.what
  | .nullExecutor => .nullExecutor
  | _ => .returned

/-- The shared state, the flag {lit}`_hasFuture` of each copy of the promise, and whether there
is a future. -/
structure State (π ε α K : Type) where
  shared : Shared ε α K
  hasFuture : π → Bool
  future : Bool

/-- A promise without a future. -/
def State.initial : State π ε α K where
  shared := ⟨.create, 0, [], true⟩
  hasFuture := fun _ => false
  future := false

/-- The calls; {lit}`leaves` is what a reader of the result leaves in the {lit}`Try`. -/
inductive Call (π ε α K : Type) where
  /-- {lit}`setValue` or {lit}`setException` -/
  | set (p : π) (t : Try ε α) (answer : Answer)
  | copy (p q : π)
  | getFuture (p : π)
  | setContinuation (func : K) (answer : Answer)
  | hasResult
  | result (leaves : Try ε α → Try ε α)
  | value (leaves : Try ε α → Try ε α)
  /-- the executor runs a continuation that it has accepted -/
  | runTask

/-- The {lit}`Try` that a call sets. -/
def Call.sets : Call π ε α K → Option (Try ε α)
  | .set _ t _ => some t
  | _ => none

def State.setTry (s : State π ε α K) (t : Try ε α) : State π ε α K :=
  { s with shared := { s.shared with fs := { s.shared.fs with tryValue := t } } }

section

variable [DecidableEq π] (leaves : K → Try ε α → Try ε α)

/-- A continuation that was invoked has had the {lit}`Try` in its hands. -/
def afterCall (before after : Shared ε α K) : Shared ε α K :=
  if after.invoked.length = before.invoked.length then
    after
  else
    match after.fs.continuation with
    | none => after
    | some k => { after with fs := { after.fs with tryValue := leaves k after.fs.tryValue } }

/-- {lit}`getTry` of a future, and what is made of the result. -/
def State.read (s : State π ε α K) (make : Try ε α → Output ε α) (left : Try ε α → Try ε α) :
    Output ε α × State π ε α K :=
  if s.shared.fs.state.hasResult then
    (make s.shared.fs.tryValue, s.setTry (left s.shared.fs.tryValue))
  else
    (.logicError "Future is not ready", s)

/-- {lit}`Try<T>::value`. -/
def valueOf : Try ε α → Output ε α
  | .value v => .value v
  | .error e => .rethrown e
  | .nothing => .logicError "Try object is empty"

/-- One call; {lit}`none` means that there is no future, or no task, for it. -/
def exec (b : Build) (s : State π ε α K) : Call π ε α K → Option (Output ε α × State π ε α K)
  | .set _ t answer =>
      let after := setResultAlone b t answer s.shared
      some (output after.2, { s with shared := afterCall leaves s.shared after.1 })
  | .copy p q =>
      some (.returned, { s with hasFuture := Function.update s.hasFuture q (s.hasFuture p) })
  | .getFuture p =>
      if s.hasFuture p then
        some (.logicError "Promise already has a future", s)
      else
        some (.returned, { s with hasFuture := Function.update s.hasFuture p true, future := true })
  | .setContinuation func answer =>
      if s.future then
        let after := setContinuationAlone func answer s.shared
        some (output after.2, { s with shared := afterCall leaves s.shared after.1 })
      else
        none
  | .hasResult => if s.future then some (.has s.shared.fs.state.hasResult, s) else none
  | .result left => if s.future then some (s.read .result left) else none
  | .value left => if s.future then some (s.read valueOf left) else none
  | .runTask =>
      match s.shared.pending with
      | 0 => none
      | n + 1 =>
          some (.returned, { s with
            shared := afterCall leaves s.shared { s.shared.invoke with pending := n } })

/-- One call of both builds: it ends alike, the continuation has got the same, the stored
{lit}`Try` and the state are the same, and a refused call has left them as they were. -/
structure Alike (c : Call π ε α K) (s : State π ε α K) (r r' : Output ε α × State π ε α K) :
    Prop where
  output : r.1.anonymous = r'.1.anonymous
  invoked : r.2.shared.invoked = r'.2.shared.invoked
  stored : r.2.shared.fs.tryValue = r'.2.shared.fs.tryValue
  state : r.2.shared.fs.state = r'.2.shared.fs.state
  refused : c.sets.isSome = true → r'.1.isLogicError = true →
    r'.2.shared.fs.tryValue = s.shared.fs.tryValue ∧ r'.2.shared.fs.state = s.shared.fs.state

/-- A history in the build with the check, from the state {lit}`s`, and in the one without it,
from {lit}`s'`. -/
def AlikeFrom : State π ε α K → State π ε α K → List (Call π ε α K) → Prop
  | _, _, [] => True
  | s, s', c :: cs =>
      match exec leaves .checked s c, exec leaves .unchecked s' c with
      | some r, some r' => Alike c s' r r' ∧ AlikeFrom r.2 r'.2 cs
      | none, none => AlikeFrom s s' cs
      | _, _ => False

/-- When a call sets a result and there is one, it is the same. -/
def NoOverwrite : State π ε α K → List (Call π ε α K) → Prop
  | _, [] => True
  | s, c :: cs =>
      (∀ t ∈ c.sets, s.shared.fs.state.hasResult = true → t = s.shared.fs.tryValue) ∧
      match exec leaves .checked s c with
      | some r => NoOverwrite r.2 cs
      | none => NoOverwrite s cs

end

/-! ## What the check changes -/

/-- The call has returned or thrown, or has used a null pointer. -/
def Finished : Pc → Prop
  | .returned | .threw _ | .nullExecutor => True
  | _ => False

section

variable {t : Try ε α} {answer : Answer} {sh : Shared ε α K}

/-- Without a result, the check has no effect. -/
theorem setResultAlone_of_not_hasResult (h : sh.fs.state.hasResult = false) :
    setResultAlone .checked t answer sh = setResultAlone .unchecked t answer sh := by
  have hcheck : setResultStep t sh answer .check = some (sh, .store) := by
    simp [setResultStep, FutureState.transferStep, FutureState.resultSide, h]
  simp only [setResultAlone]
  rw [runAlone]
  simp only [hcheck]

theorem setResultAlone_checked_of_hasResult (h : sh.fs.state.hasResult = true) :
    setResultAlone .checked t answer sh = (sh, .threw .alreadyHasResult) := by
  have hcheck : setResultStep t sh answer .check = some (sh, .threw .alreadyHasResult) := by
    simp [setResultStep, FutureState.transferStep, FutureState.resultSide, h]
  have hend : setResultStep t sh answer (.threw .alreadyHasResult) = none := rfl
  simp only [setResultAlone, runAlone, hcheck, hend]

/-- Without the check, the new result is stored and the call refused afterwards. -/
theorem setResultAlone_unchecked_of_hasResult (h : sh.fs.state.hasResult = true) :
    setResultAlone .unchecked t answer sh =
      ({ sh with fs := { sh.fs with tryValue := t } }, .threw .stateTransferError) := by
  have hstate : sh.fs.state ≠ .start ∧ sh.fs.state ≠ .onlyContinuation := by
    rcases (FutureState.State.hasResult_iff _).mp h with h | h <;> simp [h]
  have hstore : setResultStep t sh answer .store =
      some ({ sh with fs := { sh.fs with tryValue := t } }, .load) := rfl
  have hload : setResultStep t { sh with fs := { sh.fs with tryValue := t } } answer .load =
      some ({ sh with fs := { sh.fs with tryValue := t } }, .threw .stateTransferError) := by
    simp [setResultStep, FutureState.transferStep, FutureState.resultSide, hstate]
  have hend : setResultStep t { sh with fs := { sh.fs with tryValue := t } } answer
      (.threw .stateTransferError) = none := rfl
  simp only [setResultAlone, runAlone, hstore, hload, hend]

theorem transferStep_rank_lt {side : FutureState.Side}
    {write : FutureState ε α K → FutureState ε α K} {sh' : Shared ε α K} {pc pc' : Pc}
    (h : FutureState.transferStep side write sh answer pc = some (sh', pc')) :
    pc'.rank < pc.rank := by
  cases pc with
  | check | load | assertDone | casStart | casDone expected | dispatch | submit route =>
      simp only [FutureState.transferStep, FutureState.scheduleContinuationStep] at h
      repeat' split at h
      all_goals
        cases h
        try split
        all_goals simp [Pc.rank]
  | store | assertOther expected | accepted | inplace | fallback =>
      cases h
      simp [Pc.rank]
  | returned | threw e | nullExecutor => cases h

/-- A call that finds no result is not refused. -/
theorem setResultAlone_not_threw (h : sh.fs.state.hasResult = false) (e : LogicError) :
    (setResultAlone .unchecked t answer sh).2 ≠ .threw e := by
  rcases sh with ⟨⟨state, tryValue, continuation, executor, context, forceSched⟩, pending, invoked,
    assertsHeld⟩
  rcases answer with ⟨inExecutor, accepts⟩
  cases state with
  | start => exact fun hpc => by cases hpc
  | onlyContinuation =>
      cases executor <;> cases forceSched <;> cases inExecutor <;> cases accepts <;>
        exact fun hpc => by cases hpc
  | onlyResult | done =>
      simp [FutureState.State.hasResult, FutureState.State.bits] at h

/-- A call that runs alone comes to its end. -/
theorem runAlone_transferStep_ends {side : FutureState.Side}
    {write : FutureState ε α K → FutureState ε α K} {steps : Nat} {pc : Pc}
    (hsteps : pc.rank ≤ steps) :
    Finished (runAlone (fun sh pc => FutureState.transferStep side write sh answer pc) steps
      sh pc).2 := by
  induction steps generalizing sh pc with
  | zero =>
      cases pc <;> first | exact trivial | simp [Pc.rank] at hsteps
  | succ steps ih =>
      rw [runAlone]
      cases hstep : FutureState.transferStep side write sh answer pc with
      | some next =>
          have hlt := transferStep_rank_lt hstep
          exact ih (by omega)
      | none =>
          change Finished pc
          by_contra hpc
          have hreturned : pc ≠ .returned := by
            rintro rfl
            exact hpc trivial
          have hthrew : pc.phase ≠ .failed := by
            cases pc with
            | threw e => exact absurd trivial hpc
            | _ => simp [Pc.phase]
          have hnull : pc ≠ .nullExecutor := by
            rintro rfl
            exact hpc trivial
          rcases FutureState.transferStep_progress side write sh answer hreturned hthrew hnull with
            ⟨sh', pc', hsome, -⟩
          rw [hstep] at hsome
          cases hsome

/-- A call of {lit}`setResult` comes to its end. -/
theorem setResultAlone_ends (b : Build) : Finished (setResultAlone b t answer sh).2 := by
  cases b with
  | checked => exact runAlone_transferStep_ends (Nat.le_refl _)
  | unchecked => exact runAlone_transferStep_ends (Nat.le_refl _)

theorem setContinuationAlone_ends (func : K) :
    Finished (setContinuationAlone func answer sh).2 :=
  runAlone_transferStep_ends (Nat.le_refl _)

end

/-! ## The two builds -/

section

variable [DecidableEq π] {leaves : K → Try ε α → Try ε α} {s : State π ε α K} {c : Call π ε α K}

/-- When a call does not set a second result, the builds do the same. -/
theorem exec_checked_eq (h : ∀ t ∈ c.sets, s.shared.fs.state.hasResult = false) :
    exec leaves .checked s c = exec leaves .unchecked s c := by
  cases c with
  | set p t answer => simp only [exec, setResultAlone_of_not_hasResult (h t rfl)]
  | _ => rfl

/-- A call that sets a second result is refused by both builds; one of them has stored it. -/
theorem exec_of_hasResult {p : π} {t : Try ε α} {answer : Answer}
    (h : s.shared.fs.state.hasResult = true) :
    exec leaves .checked s (.set p t answer) =
        some (.logicError (LogicError.what .alreadyHasResult), s) ∧
      exec leaves .unchecked s (.set p t answer) =
        some (.logicError (LogicError.what .stateTransferError), s.setTry t) := by
  have hsame : ∀ sh' : Shared ε α K, sh'.invoked = s.shared.invoked →
      afterCall leaves s.shared sh' = sh' := by
    intro sh' hinvoked
    rw [afterCall, hinvoked, if_pos rfl]
  constructor
  · simp only [exec, setResultAlone_checked_of_hasResult h, output, hsame s.shared rfl]
  · simp only [exec, setResultAlone_unchecked_of_hasResult h, output]
    rw [hsame { s.shared with fs := { s.shared.fs with tryValue := t } } rfl]
    rfl

/-- A call that does not set a second result is alike in both builds. -/
theorem alike_of_not_hasResult (h : ∀ t ∈ c.sets, s.shared.fs.state.hasResult = false)
    {r : Output ε α × State π ε α K} (hexec : exec leaves .unchecked s c = some r) :
    Alike c s r r := by
  refine ⟨rfl, rfl, rfl, rfl, ?_⟩
  intro hsets herror
  cases c with
  | set p t answer =>
      cases hexec
      have hpc : ∀ e, (setResultAlone .unchecked t answer s.shared).2 ≠ .threw e :=
        setResultAlone_not_threw (h t rfl)
      cases hend : (setResultAlone .unchecked t answer s.shared).2 with
      | threw e => exact absurd hend (hpc e)
      | _ => simp [hend, output, Output.isLogicError] at herror
  | _ => cases hsets

omit [DecidableEq π] in
/-- A refused call is alike in both builds exactly if it would have set the same result. -/
theorem alike_of_hasResult_iff {p : π} {t : Try ε α} {answer : Answer} {what what' : String} :
    Alike (.set p t answer) s (.logicError what, s) (.logicError what', s.setTry t) ↔
      t = s.shared.fs.tryValue := by
  constructor
  · exact fun h => h.stored.symm
  · intro ht
    exact ⟨rfl, rfl, ht.symm, rfl, fun _ _ => ⟨ht, rfl⟩⟩

omit [DecidableEq π] in
theorem State.setTry_self (s : State π ε α K) : s.setTry s.shared.fs.tryValue = s :=
  rfl

/-- For every history of calls on one shared state, from its creation or from any later state:
the builds cannot be told apart exactly if no call sets a result that differs from one that is
there. -/
theorem alike_iff (leaves : K → Try ε α → Try ε α) (s : State π ε α K)
    (cs : List (Call π ε α K)) : AlikeFrom leaves s s cs ↔ NoOverwrite leaves s cs := by
  induction cs generalizing s with
  | nil => exact Iff.rfl
  | cons c cs ih =>
      simp only [AlikeFrom, NoOverwrite]
      by_cases hsecond : ∃ t ∈ c.sets, s.shared.fs.state.hasResult = true
      · rcases hsecond with ⟨t, ht, hresult⟩
        cases c with
        | set p t' answer =>
            cases ht
            have hrefused : exec leaves .checked s (.set p t answer) = _ ∧
                exec leaves .unchecked s (.set p t answer) = _ := exec_of_hasResult hresult
            simp only [hrefused.1, hrefused.2]
            rw [alike_of_hasResult_iff]
            have hcondition : (∀ t' ∈ (Call.set p t answer : Call π ε α K).sets,
                s.shared.fs.state.hasResult = true → t' = s.shared.fs.tryValue) ↔
                t = s.shared.fs.tryValue := by
              simp [Call.sets, hresult]
            rw [hcondition]
            refine and_congr_right fun heq => ?_
            rw [heq, State.setTry_self]
            exact ih s
        | _ => cases ht
      · have hfirst : ∀ t ∈ c.sets, s.shared.fs.state.hasResult = false := by
          intro t ht
          exact Bool.eq_false_iff.mpr fun hresult => hsecond ⟨t, ht, hresult⟩
        have hcondition : ∀ t ∈ c.sets, s.shared.fs.state.hasResult = true →
            t = s.shared.fs.tryValue := by
          intro t ht hresult
          rw [hfirst t ht] at hresult
          cases hresult
        rw [exec_checked_eq hfirst]
        cases hexec : exec leaves .unchecked s c with
        | none => exact (ih s).trans (and_iff_right hcondition).symm
        | some r =>
            exact (and_iff_right (alike_of_not_hasResult hfirst hexec)).trans
              ((ih r.2).trans (and_iff_right hcondition).symm)

/-- A promise gets the value 1 and then the value 2; the second call throws in both builds. -/
def setTwice : List (Call Unit Unit Nat Unit) :=
  [.getFuture (), .set () (.value 1) ⟨false, false⟩, .set () (.value 2) ⟨false, false⟩,
    .result id]

/-- What the calls give, one after the other. -/
def outputs (leaves : K → Try ε α → Try ε α) (b : Build) :
    State π ε α K → List (Call π ε α K) → List (Option (Output ε α))
  | _, [] => []
  | s, c :: cs =>
      match exec leaves b s c with
      | some r => some r.1 :: outputs leaves b r.2 cs
      | none => none :: outputs leaves b s cs

/-- The builds give different results after a second call of {lit}`setValue`. -/
theorem setTwice_not_alike :
    outputs (fun _ => id) .checked State.initial setTwice =
        [some .returned, some .returned,
          some (.logicError "FutureState already has a result"), some (.result (.value 1))] ∧
      outputs (fun _ => id) .unchecked State.initial setTwice =
        [some .returned, some .returned,
          some (.logicError "State Transfer Error"), some (.result (.value 2))] ∧
      ¬ AlikeFrom (fun _ => id) State.initial State.initial setTwice := by
  refine ⟨by decide, by decide, ?_⟩
  intro halike
  rcases halike with ⟨-, -, hsecond, -⟩
  exact absurd hsecond.stored (by decide)

end

end TwoBuilds

end AsyncSimple
