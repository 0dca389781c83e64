import AsyncSimple.Future.Consumers

/-!
# Release of a latch of uthreads

{lit}`downCount(n)` subtracts {lit}`n` from the count of a {lit}`uthread::Latch`
and fulfils the promise of the latch when the value that it has found is one.
That is the call which brings the count to zero only if this call has
{lit}`n` equal to one; a last call with a larger {lit}`n` leaves the promise
unset.

The calls are executed by any threads, cut at their {lit}`fetch_sub` and at the
steps of {lit}`setValue`; {lit}`uthread::await` looks at the future before,
between or after them.

Main results:

- Theorem {lit}`Inv.step` and {lit}`Inv.subtracted`: while the count is positive
  nobody sets the promise, and the call that brings it to zero sets or misses it.
- Theorem {lit}`Inv.exists_returned`: all calls can return.
- Theorem {lit}`latch_sets_once_iff`: the promise is set once, by the right call and in
  time, exactly in the runs in which a {lit}`downCount(1)` brings the count to
  zero.
-/

namespace AsyncSimple

open Transition FutureState

namespace Consumers

variable {ε : Type} {T : Param} {t : Try ε T.Inner} {cfg : Config} {s s' : State ε T}

/-- The second promise is fulfilled, and the consumer ends, only after the future
has its result. -/
structure AfterResult (cfg : Config) (s : State ε T) : Prop where
  second : s.second ≠ .nothing → s.handOff.shared.invoked ≠ []
  done : ∀ outcome, s.pc = .done outcome → s.hasResult cfg = true

theorem AfterResult.initial (cfg : Config) : AfterResult cfg (State.initial cfg : State ε T) := by
  constructor
  · simp [State.initial]
  · simp [State.initial]

theorem AfterResult.main (h : AfterResult cfg s) (hinv : Inv t cfg s) (husable : cfg.Usable T)
    (hforwarded : forwarded T t ≠ .nothing) (hstep : mainStep t cfg s = some s') :
    AfterResult cfg s' := by
  simp only [mainStep] at hstep
  split at hstep
  · cases hstep
  · split at hstep
    · cases hstep
      exact ⟨h.second, by simp⟩
    · split at hstep
      · cases hstep
        exact ⟨h.second, by simp⟩
      · next hconsumer =>
          simp only [Config.Usable, hconsumer] at husable
          rw [if_neg husable.1, husable.2] at hstep
          cases hstep
          exact ⟨h.second, by simp⟩
      · cases hstep
        exact ⟨h.second, by simp⟩
      · cases hstep
        exact ⟨h.second, by simp⟩
  · split at hstep
    · cases hstep
      exact ⟨h.second, by simp⟩
    · cases hstep
  · have hs' : ∃ pc, s' = { s with pc := pc } ∧ ∀ outcome, pc ≠ .done outcome := by
      split at hstep
      · cases hstep
      · cases hstep
      · cases hstep
        exact ⟨_, rfl, by simp⟩
      · cases hstep
        exact ⟨_, rfl, by simp⟩
      · split at hstep
        · cases hstep
          exact ⟨_, rfl, by simp⟩
        · cases hstep
      · split at hstep
        · cases hstep
          exact ⟨_, rfl, by simp⟩
        · cases hstep
    rcases hs' with ⟨pc, rfl, hpc⟩
    exact ⟨h.second, fun outcome hdone => absurd hdone (hpc outcome)⟩
  · next hpc =>
      have hresult := hinv.readFuture hpc
      split at hstep
      · cases hstep
        exact ⟨h.second, fun _ _ => hresult⟩
      · cases hstep
        exact ⟨h.second, fun _ _ => hresult⟩
  · next hpc =>
      have hsecond : s.second ≠ .nothing := by
        rw [(hinv.readSecond hpc).2]
        exact hforwarded
      cases hstep
      exact ⟨h.second, fun _ _ => hinv.hasResult_of_invoked (h.second hsecond)⟩

theorem AfterResult.callback (h : AfterResult cfg s) (hinv : Inv t cfg s)
    (hstep : callbackStep cfg s = some s') : AfterResult cfg s' := by
  have hinvoked : s.callback ≠ .notRun → s.handOff.shared.invoked ≠ [] := fun hne hnone =>
    hne (hinv.notRun_iff.mpr hnone)
  simp only [callbackStep] at hstep
  split at hstep
  · cases hstep
  · cases hstep
  · next hcallback =>
      have hrun := hinvoked (by rw [hcallback]; simp)
      split at hstep
      · cases hstep
        exact ⟨fun _ => hrun, h.done⟩
      · cases hstep
        exact ⟨fun _ => hrun, h.done⟩
      all_goals
        split at hstep
        · cases hstep
          exact ⟨h.second, h.done⟩
        · cases hstep
          exact ⟨h.second, h.done⟩
  · cases hstep
    exact ⟨h.second, h.done⟩

theorem AfterResult.step (h : AfterResult cfg s) (hinv : Inv t cfg s) (husable : cfg.Usable T)
    (hforwarded : forwarded T t ≠ .nothing) {l : Label}
    (hstep : Consumers.step t cfg s l = some s') : AfterResult cfg s' := by
  cases l with
  | main => exact h.main hinv husable hforwarded hstep
  | callback => exact h.callback hinv hstep
  | handOff l =>
      simp only [Consumers.step, Option.ite_none_right_eq_some, Option.map_eq_some_iff] at hstep
      rcases hstep with ⟨-, handOff, hmove, rfl⟩
      refine ⟨?_, ?_⟩
      · intro hsecond
        rcases step_invoked hmove with hsame | ⟨x, hcons⟩
        · rw [hsame]
          exact h.second hsecond
        · rw [hcons]
          simp
      · intro outcome hdone
        have hresult := h.done outcome hdone
        cases hsource : cfg.source with
        | localState => simp [State.hasResult, hsource]
        | sharedState =>
            simp only [State.hasResult, hsource] at hresult ⊢
            exact step_hasResult hmove hresult

/-- A step is one of the hand-off, or leaves it alone apart from its executor. -/
theorem handOff_of_step {l : Label} (hstep : Consumers.step t cfg s l = some s') :
    (∃ k, l = .handOff k ∧ FutureState.step (fun _ => t) () s.handOff k = some s'.handOff) ∨
      s'.handOff = s.handOff ∨ ∃ ex, s'.handOff = s.handOff.setExecutor ex := by
  cases l with
  | main =>
      right
      simp only [Consumers.step, mainStep] at hstep
      split at hstep
      · cases hstep
      · split at hstep
        · cases hstep
          exact .inl rfl
        · split at hstep
          · cases hstep
            exact .inr ⟨none, rfl⟩
          · split at hstep
            · cases hstep
              exact .inl rfl
            · split at hstep <;> cases hstep <;> exact .inl rfl
          all_goals
            cases hstep
            exact .inl rfl
      · split at hstep
        · cases hstep
          exact .inl rfl
        · cases hstep
      · split at hstep
        · cases hstep
        · cases hstep
        · cases hstep
          exact .inl rfl
        · cases hstep
          exact .inl rfl
        all_goals
          split at hstep
          · cases hstep
            exact .inl rfl
          · cases hstep
      · split at hstep <;> cases hstep <;> exact .inl rfl
      · cases hstep
        exact .inl rfl
  | callback =>
      refine .inr (.inl ?_)
      simp only [Consumers.step, callbackStep] at hstep
      split at hstep
      · cases hstep
      · cases hstep
      · split at hstep
        · cases hstep
          rfl
        · cases hstep
          rfl
        all_goals
          split at hstep <;> cases hstep <;> rfl
      · cases hstep
        rfl
  | handOff k =>
      simp only [Consumers.step, Option.ite_none_right_eq_some, Option.map_eq_some_iff] at hstep
      rcases hstep with ⟨-, handOff, hmove, rfl⟩
      exact .inl ⟨k, rfl, hmove⟩

/-- A result that is there stays. -/
theorem hasResult_of_step {l : Label} (hstep : Consumers.step t cfg s l = some s')
    (hresult : s.handOff.shared.fs.state.hasResult = true) :
    s'.handOff.shared.fs.state.hasResult = true := by
  rcases handOff_of_step hstep with ⟨k, -, hmove⟩ | hsame | ⟨ex, hsame⟩
  · exact step_hasResult hmove hresult
  · rwa [hsame]
  · rw [hsame]
    exact hresult

end Consumers

namespace UthreadLatch

variable {ι : Type}

/-! ## Steps -/

/-- {lit}`_promise.getFuture().via(ex)`, awaited by a uthread on a thread of the
executor. -/
def config (ex : Nat) : Consumers.Config where
  consumer := .uthreadAwait
  source := .sharedState
  executor := some ex
  context := none
  inExecutor := true
  lazyExecutor := false

theorem config_usable (ex : Nat) : (config ex).Usable (.type Bool) :=
  ⟨by simp [config], rfl⟩

/-- The argument of {lit}`_promise.setValue(true)`. -/
def result : Try Unit Bool :=
  .value true

/-- Program points of {lit}`downCount`. -/
inductive CallPc where
  /-- before the test of {lit}`_skip` -/
  | called
  | fetchSub
  | setValue
  | returned
deriving DecidableEq, Repr

/-- The call has not decremented the count yet. -/
def CallPc.pending : CallPc → Bool
  | .called | .fetchSub => true
  | .setValue | .returned => false

/-- Program points of {lit}`Latch::await`. -/
inductive AwaitPc where
  | called
  | waiting
  | passed
deriving DecidableEq, Repr

/-- The latch with its calls.  {lit}`future` is the shared state of
{lit}`_promise` and the uthread that awaits it; {lit}`subs` lists the
{lit}`fetch_sub`s with the value found, {lit}`sets` the calls that have
completed {lit}`setValue`. -/
structure State (ι : Type) where
  count : UInt64
  skip : Bool
  call : ι → CallPc
  await : AwaitPc
  future : Consumers.State Unit (.type Bool)
  subs : List (ι × UInt64)
  sets : List ι

def State.initial (ex : Nat) (count : UInt64) : State ι where
  count := count
  skip := decide (count = 0)
  call := fun _ => .called
  await := .called
  future := Consumers.State.initial (config ex)
  subs := []
  sets := []

/-- {lit}`hasResult()` of the promise's state. -/
def State.hasResult (s : State ι) : Bool :=
  s.future.handOff.shared.fs.state.hasResult

variable [DecidableEq ι]

/-- One step of the call {lit}`downCount(n i)`. -/
def downCountStep (ex : Nat) (n : ι → UInt64) (s : State ι) (i : ι) (answer : Answer) :
    Option (State ι) :=
  match s.call i with
  | .called =>
      some { s with call := Function.update s.call i (if s.skip then .returned else .fetchSub) }
  | .fetchSub =>
      some { s with
        count := s.count - n i
        call := Function.update s.call i (if s.count = 1 then .setValue else .returned)
        subs := s.subs ++ [(i, s.count)] }
  | .setValue =>
      if s.future.handOff.setter () = .returned then
        some { s with call := Function.update s.call i .returned, sets := s.sets ++ [i] }
      else
        (Consumers.step result (config ex) s.future (.handOff (.setResult () answer))).map
          fun future => { s with future := future }
  | .returned => none

omit [DecidableEq ι] in
/-- One step of {lit}`await` outside {lit}`uthread::await`. -/
def awaitStep (s : State ι) : Option (State ι) :=
  match s.await with
  | .called => some { s with await := if s.skip then .passed else .waiting }
  | .waiting =>
      match s.future.pc with
      | .done _ => some { s with await := .passed }
      | _ => none
  | .passed => none

/-- A step of {lit}`setValue`. -/
def isSetResult : Consumers.Label → Bool
  | .handOff (.setResult _ _) => true
  | _ => false

inductive Label (ι : Type) where
  | downCount (i : ι) (answer : Answer)
  | await
  /-- the awaiting uthread, its continuation or the executor -/
  | future (l : Consumers.Label)
deriving DecidableEq, Repr

def step (ex : Nat) (n : ι → UInt64) (s : State ι) : Label ι → Option (State ι)
  | .downCount i answer => downCountStep ex n s i answer
  | .await => awaitStep s
  | .future l =>
      if s.await = .called || isSetResult l then none
      else
        (Consumers.step result (config ex) s.future l).map fun future => { s with future := future }

/-- A latch with the calls {lit}`downCount(n i)` and one {lit}`await`. -/
def machine (ex : Nat) (n : ι → UInt64) : Machine (State ι) (Label ι) where
  step := step ex n

/-! ## What is expected -/

/-- The call has brought the count to zero: it has found what it subtracts. -/
def State.ZeroedBy (n : ι → UInt64) (s : State ι) (i : ι) : Prop :=
  (i, n i) ∈ s.subs

/-- The promise is set at most once and not before the count is zero, by the call
that has brought the count to zero; it is set when all calls have returned; and
{lit}`await` passes only after that. -/
structure SetsOnce (n : ι → UInt64) (s : State ι) : Prop where
  setter : ∀ i, i ∈ s.sets ∨ s.call i = .setValue → s.ZeroedBy n i
  once : s.sets.length ≤ 1
  inTime : s.hasResult = true → ∃ i, s.ZeroedBy n i
  complete : (∀ i, s.call i = .returned) → ∃ i, s.ZeroedBy n i ∧ s.sets = [i] ∧
    s.hasResult = true
  passed : s.await = .passed → s.hasResult = true

/-- The step is not the {lit}`fetch_sub` of a {lit}`downCount(n)` with {lit}`n`
other than one that brings the count to zero. -/
def LastByOne (n : ι → UInt64) (s : State ι) : Label ι → Prop
  | .downCount i _ => s.call i = .fetchSub → s.count = n i → n i = 1
  | _ => True

/-! ## The promise and its future -/

/-- Only {lit}`setValue` moves the setting call. -/
theorem setter_of_step {ex : Nat} {s s' : Consumers.State Unit (.type Bool)}
    {l : Consumers.Label} (hl : isSetResult l = false)
    (hstep : Consumers.step result (config ex) s l = some s') :
    s'.handOff.setter = s.handOff.setter := by
  rcases Consumers.handOff_of_step hstep with ⟨k, rfl, hmove⟩ | hsame | ⟨ex', hsame⟩
  · cases k with
    | setResult i answer => cases hl
    | setContinuation answer =>
        simp only [FutureState.step, Option.map_eq_some_iff] at hmove
        rcases hmove with ⟨⟨sh, pc⟩, -, heq⟩
        rw [← heq]
    | runTask => exact (step_runTask hmove).2.1
  · rw [hsame]
  · rw [hsame]
    rfl

/-- What holds of the promise's state and the uthread that awaits it. -/
structure FutureInv (ex : Nat) (s : Consumers.State Unit (.type Bool)) : Prop where
  consumer : Consumers.Inv result (config ex) s
  after : Consumers.AfterResult (config ex) s

namespace FutureInv

variable {ex : Nat} {s s' : Consumers.State Unit (.type Bool)}

theorem initial (ex : Nat) : FutureInv ex (Consumers.State.initial (config ex)) :=
  ⟨Consumers.Inv.initial _ _, Consumers.AfterResult.initial _⟩

theorem step (h : FutureInv ex s) {l : Consumers.Label}
    (hstep : Consumers.step result (config ex) s l = some s') : FutureInv ex s' := by
  refine ⟨h.consumer.step (config_usable ex) hstep,
    h.after.step h.consumer (config_usable ex) ?_ hstep⟩
  intro hnothing
  cases hnothing

/-- Before a call is in {lit}`setValue` there is no result. -/
theorem not_hasResult (h : FutureInv ex s) (hcheck : s.handOff.setter () = .check) :
    s.handOff.shared.fs.state.hasResult = false := by
  rcases h.consumer.handOff with ⟨ex', hhandOff⟩
  by_contra hresult
  rcases hhandOff.1.race.result_iff.mp (by simpa using hresult) with ⟨i, hwon | hwon⟩
  · rw [hcheck] at hwon
    cases hwon
  · rw [hcheck] at hwon
    cases hwon

theorem hasResult_of_returned (h : FutureInv ex s) (hreturned : s.handOff.setter () = .returned) :
    s.handOff.shared.fs.state.hasResult = true := by
  rcases h.consumer.handOff with ⟨ex', hhandOff⟩
  exact hhandOff.hasResult_of_returned hreturned

end FutureInv

/-! ## Phases -/

/-- What the calls have still to subtract. -/
def State.owed [Fintype ι] (n : ι → UInt64) (s : State ι) : Nat :=
  ∑ i, if (s.call i).pending then (n i).toNat else 0

/-- Everybody has returned and nobody has set the promise. -/
def State.Missed (s : State ι) : Prop :=
  (∀ i, s.call i = .returned) ∧ s.sets = []

/-- How far the calls are. -/
inductive Phase (n : ι → UInt64) (s : State ι) : Prop where
  | counting (hcount : s.count ≠ 0) (hcalls : ∀ i, s.call i ≠ .setValue) (hsets : s.sets = [])
      (hsetter : s.future.handOff.setter () = .check)
  | setting {i : ι} (hi : s.call i = .setValue) (hcalls : ∀ j, j ≠ i → s.call j = .returned)
      (hzeroed : s.ZeroedBy n i) (hsets : s.sets = [])
  | set {i : ι} (hcalls : ∀ j, s.call j = .returned) (hzeroed : s.ZeroedBy n i)
      (hsets : s.sets = [i]) (hsetter : s.future.handOff.setter () = .returned)
  | missed (hmissed : s.Missed) (hsetter : s.future.handOff.setter () = .check)

/-- What holds in every run. -/
structure Inv [Fintype ι] (ex : Nat) (n : ι → UInt64) (s : State ι) : Prop where
  skip : s.skip = false
  count : s.count.toNat = s.owed n
  future : FutureInv ex s.future
  passed : s.await = .passed → s.hasResult = true
  phase : Phase n s

section Steps

variable {ex : Nat} {n : ι → UInt64} {s s' : State ι}

omit [DecidableEq ι] in
/-- A call that has still to subtract finds the count positive and the promise
untouched. -/
theorem Phase.of_pending (h : Phase n s) {i : ι} (hi : (s.call i).pending = true) :
    s.count ≠ 0 ∧ (∀ j, s.call j ≠ .setValue) ∧ s.sets = [] ∧
      s.future.handOff.setter () = .check := by
  cases h with
  | counting hcount hcalls hsets hsetter => exact ⟨hcount, hcalls, hsets, hsetter⟩
  | @setting k hk hcalls hzeroed hsets =>
      by_cases hik : i = k
      · subst hik
        rw [hk] at hi
        cases hi
      · rw [hcalls i hik] at hi
        cases hi
  | set hcalls hzeroed hsets hsetter =>
      rw [hcalls i] at hi
      cases hi
  | missed hmissed hsetter =>
      rw [hmissed.1 i] at hi
      cases hi

omit [DecidableEq ι] in
theorem Phase.await (h : Phase n s) {pc : AwaitPc} : Phase n { s with await := pc } := by
  cases h with
  | counting hcount hcalls hsets hsetter => exact .counting hcount hcalls hsets hsetter
  | setting hi hcalls hzeroed hsets => exact .setting hi hcalls hzeroed hsets
  | set hcalls hzeroed hsets hsetter => exact .set hcalls hzeroed hsets hsetter
  | missed hmissed hsetter => exact .missed hmissed hsetter

omit [DecidableEq ι] in
/-- Only the call that has brought the count to zero is in {lit}`setValue`. -/
theorem Phase.of_setValue (h : Phase n s) {i : ι} (hi : s.call i = .setValue) :
    (∀ j, j ≠ i → s.call j = .returned) ∧ s.ZeroedBy n i ∧ s.sets = [] := by
  cases h with
  | counting hcount hcalls hsets hsetter => exact absurd hi (hcalls i)
  | @setting k hk hcalls hzeroed hsets =>
      have hik : i = k := by
        by_contra hne
        rw [hcalls i hne] at hi
        cases hi
      subst hik
      exact ⟨hcalls, hzeroed, hsets⟩
  | set hcalls hzeroed hsets hsetter =>
      rw [hcalls i] at hi
      cases hi
  | missed hmissed hsetter =>
      rw [hmissed.1 i] at hi
      cases hi

/-- The uthread that awaits does not touch the calls. -/
theorem missed_iff_of_step {l : Label ι} (hl : ∀ i answer, l ≠ .downCount i answer)
    (hstep : step ex n s l = some s') : s'.Missed ↔ s.Missed := by
  cases l with
  | downCount i answer => exact absurd rfl (hl i answer)
  | await =>
      simp only [step, awaitStep] at hstep
      split at hstep
      · cases hstep
        rfl
      · split at hstep
        · cases hstep
          rfl
        · cases hstep
      · cases hstep
  | future l =>
      simp only [step] at hstep
      split at hstep
      · cases hstep
      · rcases Option.map_eq_some_iff.mp hstep with ⟨future, hmove, rfl⟩
        rfl

variable [Fintype ι]

/-- One call moves. -/
theorem owed_update (n : ι → UInt64) (s : State ι) (i : ι) (pc : CallPc) :
    State.owed n { s with call := Function.update s.call i pc } +
        (if (s.call i).pending then (n i).toNat else 0) =
      s.owed n + if pc.pending then (n i).toNat else 0 :=
  sum_update_weighted (fun j pc => if CallPc.pending pc then (n j).toNat else 0) s.call i pc

omit [DecidableEq ι] in
/-- When nothing is owed any more, all calls have passed their {lit}`fetch_sub`. -/
theorem not_pending_of_owed (hn : ∀ i, n i ≠ 0) (howed : s.owed n = 0) (i : ι) :
    (s.call i).pending = false := by
  have hzero := (Finset.sum_eq_zero_iff.mp howed) i (Finset.mem_univ i)
  by_contra hpending
  rw [if_pos (by simpa using hpending)] at hzero
  exact hn i (UInt64.toNat_inj.mp (by simpa using hzero))

namespace Inv

omit [DecidableEq ι] in
theorem initial (ex : Nat) {count : UInt64} (hcount : count ≠ 0)
    (hsum : ∑ i, (n i).toNat = count.toNat) : Inv ex n (State.initial ex count) where
  skip := by simpa [State.initial] using hcount
  count := by simpa [State.initial, State.owed, CallPc.pending] using hsum.symm
  future := FutureInv.initial ex
  passed := by simp [State.initial]
  phase := .counting hcount (by simp [State.initial]) rfl rfl

/-- The {lit}`fetch_sub` of a call does not wrap, and it leaves what the other
calls owe. -/
theorem sub (h : Inv ex n s) {i : ι} (hi : s.call i = .fetchSub) (pc : CallPc)
    (hpc : pc.pending = false) :
    (s.count - n i).toNat = State.owed n { s with call := Function.update s.call i pc } ∧
      (s.count - n i).toNat + (n i).toNat = s.count.toNat := by
  have hupdate := owed_update n s i pc
  rw [hi, hpc, ← h.count] at hupdate
  simp only [CallPc.pending, if_true, Bool.false_eq_true, if_false, Nat.add_zero] at hupdate
  have hle : n i ≤ s.count := by
    rw [UInt64.le_iff_toNat_le]
    omega
  rw [UInt64.toNat_sub_of_le _ _ hle]
  omega

/-- The {lit}`fetch_sub` that brings the count to zero comes last. -/
theorem last (h : Inv ex n s) (hn : ∀ i, n i ≠ 0) {i : ι} (hi : s.call i = .fetchSub)
    (hlast : s.count = n i) (j : ι) (hj : j ≠ i) : s.call j = .returned := by
  have hcalls := (h.phase.of_pending (i := i) (by rw [hi]; rfl)).2.1 j
  have hsub := (h.sub hi .returned rfl).1
  rw [hlast, UInt64.sub_self] at hsub
  have hpending := not_pending_of_owed hn hsub.symm j
  simp only [Function.update_of_ne hj] at hpending
  cases hpc : s.call j <;> simp_all [CallPc.pending]

omit [DecidableEq ι] in
/-- A step of the promise or its future; only a call in {lit}`setValue` moves the
setting side. -/
theorem setFuture (h : Inv ex n s) {l : Consumers.Label}
    {future : Consumers.State Unit (.type Bool)}
    (hstep : Consumers.step result (config ex) s.future l = some future)
    (hl : isSetResult l = false ∨ ∃ i, s.call i = .setValue) :
    Inv ex n { s with future := future } where
  skip := h.skip
  count := h.count
  future := h.future.step hstep
  passed := fun hpassed => Consumers.hasResult_of_step hstep (h.passed hpassed)
  phase := by
    have hsame : (∀ i, s.call i ≠ .setValue) → future.handOff.setter = s.future.handOff.setter := by
      intro hcalls
      rcases hl with hl | ⟨i, hi⟩
      · exact setter_of_step hl hstep
      · exact absurd hi (hcalls i)
    cases h.phase with
    | counting hcount hcalls hsets hsetter =>
        exact .counting hcount hcalls hsets (by rw [hsame hcalls]; exact hsetter)
    | setting hi hcalls hzeroed hsets => exact .setting hi hcalls hzeroed hsets
    | set hcalls hzeroed hsets hsetter =>
        exact .set hcalls hzeroed hsets (by rw [hsame (by simp [hcalls])]; exact hsetter)
    | missed hmissed hsetter =>
        exact .missed hmissed (by rw [hsame (by simp [hmissed.1])]; exact hsetter)

/-- The call has passed the test of {lit}`_skip`. -/
theorem begun (h : Inv ex n s) {i : ι} (hi : s.call i = .called) :
    Inv ex n { s with call := Function.update s.call i .fetchSub } := by
  rcases h.phase.of_pending (i := i) (by rw [hi]; rfl) with ⟨hcount, hcalls, hsets, hsetter⟩
  have howed := owed_update n s i .fetchSub
  rw [hi] at howed
  refine ⟨h.skip, ?_, h.future, h.passed, .counting hcount ?_ hsets hsetter⟩
  · rw [h.count]
    exact (Nat.add_right_cancel howed).symm
  · exact forall_update (p := fun _ (pc : CallPc) => pc ≠ .setValue) (by simp) hcalls

/-- The {lit}`fetch_sub`.  The call that brings the count to zero recognises this
when it subtracts one. -/
theorem subtracted (h : Inv ex n s) (hn : ∀ i, n i ≠ 0) {i : ι} (hi : s.call i = .fetchSub)
    (hs' : s' = { s with
      count := s.count - n i
      call := Function.update s.call i (if s.count = 1 then .setValue else .returned)
      subs := s.subs ++ [(i, s.count)] }) :
    Inv ex n s' ∧ (s'.Missed ↔ s.count = n i ∧ n i ≠ 1) := by
  subst hs'
  rcases h.phase.of_pending (i := i) (by rw [hi]; rfl) with ⟨hcount, hcalls, hsets, hsetter⟩
  have hsub := h.sub hi (if s.count = 1 then .setValue else .returned)
    (by split <;> rfl)
  have hpositive : 0 < (n i).toNat := by
    rw [Nat.pos_iff_ne_zero]
    intro hzero
    exact hn i (UInt64.toNat_inj.mp (by simpa using hzero))
  by_cases hlast : s.count = n i
  · have hothers := h.last hn hi hlast
    by_cases hone : n i = 1
    · -- the promise is going to be set
      have hcountOne : s.count = 1 := hlast.trans hone
      rw [if_pos hcountOne] at hsub ⊢
      refine ⟨⟨h.skip, hsub.1, h.future, h.passed,
        .setting (i := i) (Function.update_self ..) ?_ ?_ hsets⟩, ?_⟩
      · intro j hj
        rw [← hothers j hj]
        exact Function.update_of_ne hj ..
      · simp [State.ZeroedBy, hlast]
      · refine ⟨fun hmissed => ?_, fun hother => absurd hone hother.2⟩
        have hreturned := hmissed.1 i
        simp at hreturned
    · -- nobody is going to set the promise
      have hcountNotOne : s.count ≠ 1 := fun hcountOne => hone (hlast ▸ hcountOne)
      rw [if_neg hcountNotOne] at hsub ⊢
      have hmissed : State.Missed { s with
          count := s.count - n i
          call := Function.update s.call i .returned
          subs := s.subs ++ [(i, s.count)] } := by
        refine ⟨fun j => ?_, hsets⟩
        by_cases hj : j = i
        · subst hj
          exact Function.update_self ..
        · rw [← hothers j hj]
          exact Function.update_of_ne hj ..
      exact ⟨⟨h.skip, hsub.1, h.future, h.passed, .missed hmissed hsetter⟩,
        fun _ => ⟨hlast, hone⟩, fun _ => hmissed⟩
  · -- somebody else has still to subtract
    have hleft : s.count - n i ≠ 0 := by
      intro hzero
      have hnat : (s.count - n i).toNat = 0 := by
        rw [hzero]
        rfl
      exact hlast (UInt64.toNat_inj.mp (by omega))
    have hnotOne : s.count ≠ 1 := by
      intro hone
      have hnat : s.count.toNat = 1 := by
        rw [hone]
        rfl
      exact hlast (UInt64.toNat_inj.mp (by omega))
    rw [if_neg hnotOne] at hsub ⊢
    have hcalls' : ∀ j, Function.update s.call i .returned j ≠ .setValue :=
      forall_update (p := fun _ (pc : CallPc) => pc ≠ .setValue) (by simp) hcalls
    refine ⟨⟨h.skip, hsub.1, h.future, h.passed, .counting hleft hcalls' hsets hsetter⟩, ?_⟩
    refine ⟨fun hmissed => ?_, fun hother => absurd hother.1 hlast⟩
    have hzero : State.owed n { s with call := Function.update s.call i .returned } = 0 :=
      Finset.sum_eq_zero fun j _ => by rw [if_neg (by rw [hmissed.1 j]; simp [CallPc.pending])]
    rw [hzero] at hsub
    exact absurd (UInt64.toNat_inj.mp (by simpa using hsub.1)) hleft

/-- The call returns from {lit}`setValue`. -/
theorem completed (h : Inv ex n s) {i : ι} (hi : s.call i = .setValue)
    (hsetter : s.future.handOff.setter () = .returned) :
    Inv ex n { s with call := Function.update s.call i .returned, sets := s.sets ++ [i] } := by
  rcases h.phase.of_setValue hi with ⟨hcalls, hzeroed, hsets⟩
  have howed := owed_update n s i .returned
  rw [hi] at howed
  refine ⟨h.skip, ?_, h.future, h.passed, .set (i := i) ?_ hzeroed ?_ hsetter⟩
  · rw [h.count]
    exact (Nat.add_right_cancel howed).symm
  · intro j
    by_cases hj : j = i
    · subst hj
      exact Function.update_self ..
    · rw [← hcalls j hj]
      exact Function.update_of_ne hj ..
  · simp [hsets]

theorem downCount (h : Inv ex n s) (hn : ∀ i, n i ≠ 0) {i : ι} {answer : Answer}
    (hstep : downCountStep ex n s i answer = some s') : Inv ex n s' := by
  unfold downCountStep at hstep
  split at hstep
  · next hi =>
      have hpc : (if s.skip then CallPc.returned else .fetchSub) = .fetchSub := by
        rw [h.skip]
        rfl
      rw [hpc] at hstep
      cases hstep
      exact h.begun hi
  · next hi =>
      cases hstep
      exact (h.subtracted hn hi rfl).1
  · next hi =>
      split at hstep
      · next hsetter =>
          cases hstep
          exact h.completed hi hsetter
      · rcases Option.map_eq_some_iff.mp hstep with ⟨future, hmove, rfl⟩
        exact h.setFuture hmove (.inr ⟨i, hi⟩)
  · cases hstep

omit [DecidableEq ι] in
/-- {lit}`await` passes when {lit}`uthread::await` has its result. -/
theorem awaits (h : Inv ex n s) (hstep : awaitStep s = some s') : Inv ex n s' := by
  unfold awaitStep at hstep
  split at hstep
  · cases hstep
    refine ⟨h.skip, h.count, h.future, ?_, h.phase.await⟩
    simp [h.skip]
  · split at hstep
    · next outcome hdone =>
        cases hstep
        exact ⟨h.skip, h.count, h.future, fun _ => h.future.after.done outcome hdone, h.phase.await⟩
    · cases hstep
  · cases hstep

theorem step (h : Inv ex n s) (hn : ∀ i, n i ≠ 0) {l : Label ι}
    (hstep : step ex n s l = some s') : Inv ex n s' := by
  cases l with
  | downCount i answer => exact h.downCount hn hstep
  | await => exact h.awaits hstep
  | future l =>
      simp only [UthreadLatch.step] at hstep
      split at hstep
      · cases hstep
      · next hl =>
          rcases Option.map_eq_some_iff.mp hstep with ⟨future, hmove, rfl⟩
          exact h.setFuture hmove (.inl (by simp_all))

/-- The promise is missed by the {lit}`fetch_sub` of a {lit}`downCount(n)` with
another {lit}`n` than one. -/
theorem missed_of_not_lastByOne (h : Inv ex n s) (hn : ∀ i, n i ≠ 0) {l : Label ι}
    (hl : ¬ LastByOne n s l) (hstep : UthreadLatch.step ex n s l = some s') : s'.Missed := by
  cases l with
  | downCount i answer =>
      simp only [LastByOne, Classical.not_imp] at hl
      rcases hl with ⟨hi, hlast, hone⟩
      simp only [UthreadLatch.step, downCountStep, hi, Option.some.injEq] at hstep
      exact (h.subtracted hn hi hstep.symm).2.mpr ⟨hlast, hone⟩
  | await | future l => exact absurd trivial hl

/-- Otherwise it is not missed. -/
theorem not_missed_step (h : Inv ex n s) (hn : ∀ i, n i ≠ 0) {l : Label ι}
    (hl : LastByOne n s l) (hmissed : ¬ s.Missed)
    (hstep : UthreadLatch.step ex n s l = some s') : ¬ s'.Missed := by
  cases l with
  | downCount i answer =>
      simp only [UthreadLatch.step, downCountStep] at hstep
      split at hstep
      · have hpc : (if s.skip then CallPc.returned else .fetchSub) = .fetchSub := by
          rw [h.skip]
          rfl
        rw [hpc] at hstep
        cases hstep
        intro hafter
        have hreturned := hafter.1 i
        simp at hreturned
      · next hi =>
          intro hafter
          rcases (h.subtracted hn hi (Option.some.inj hstep).symm).2.mp hafter with ⟨hlast, hone⟩
          exact hone (hl hi hlast)
      · next hi =>
          split at hstep
          · cases hstep
            intro hafter
            simp [State.Missed] at hafter
          · rcases Option.map_eq_some_iff.mp hstep with ⟨future, hmove, rfl⟩
            exact hmissed
      · cases hstep
  | await | future l =>
      rw [missed_iff_of_step (by simp) hstep]
      exact hmissed

end Inv

omit [Fintype ι] in
/-- A missed promise stays unset. -/
theorem State.Missed.step (h : s.Missed) {l : Label ι}
    (hstep : UthreadLatch.step ex n s l = some s') : s'.Missed := by
  cases l with
  | downCount i answer =>
      simp only [UthreadLatch.step, downCountStep, h.1 i] at hstep
      cases hstep
  | await | future l => exact (missed_iff_of_step (by simp) hstep).mpr h

namespace Inv

omit [DecidableEq ι] in
/-- The promise is set as it should be unless it is missed. -/
theorem setsOnce_iff (h : Inv ex n s) : SetsOnce n s ↔ ¬ s.Missed := by
  constructor
  · intro honce hmissed
    rcases honce.complete hmissed.1 with ⟨i, -, hsets, -⟩
    rw [hmissed.2] at hsets
    cases hsets
  · intro hmissed
    cases h.phase with
    | counting hcount hcalls hsets hsetter =>
        refine ⟨?_, by simp [hsets], ?_, ?_, h.passed⟩
        · rintro i (hi | hi)
          · simp [hsets] at hi
          · exact absurd hi (hcalls i)
        · intro hresult
          rw [State.hasResult, h.future.not_hasResult hsetter] at hresult
          cases hresult
        · exact fun hreturned => absurd ⟨hreturned, hsets⟩ hmissed
    | @setting i hi hcalls hzeroed hsets =>
        refine ⟨?_, by simp [hsets], fun _ => ⟨i, hzeroed⟩, ?_, h.passed⟩
        · rintro j (hj | hj)
          · simp [hsets] at hj
          · exact (h.phase.of_setValue hj).2.1
        · intro hreturned
          rw [hreturned i] at hi
          cases hi
    | @set i hcalls hzeroed hsets hsetter =>
        have hresult := h.future.hasResult_of_returned hsetter
        refine ⟨?_, by simp [hsets], fun _ => ⟨i, hzeroed⟩, fun _ => ⟨i, hzeroed, hsets, hresult⟩,
          h.passed⟩
        rintro j (hj | hj)
        · rw [hsets, List.mem_singleton] at hj
          exact hj ▸ hzeroed
        · rw [hcalls j] at hj
          cases hj
    | missed hmissed' hsetter => exact absurd hmissed' hmissed

end Inv

/-! ## All calls return -/

/-- Steps of a call outside {lit}`setValue`. -/
def CallPc.rank : CallPc → Nat
  | .called => 3
  | .fetchSub => 2
  | .setValue => 1
  | .returned => 0

/-- Steps that the calls may still make. -/
def State.rank (s : State ι) : Nat :=
  (∑ i, (s.call i).rank) + s.future.handOff.rank

namespace Inv

/-- A call that has not returned can go on. -/
theorem exists_step (h : Inv ex n s) {i : ι} (hi : s.call i ≠ .returned) :
    ∃ s', downCountStep ex n s i ⟨false, false⟩ = some s' ∧ s'.rank < s.rank := by
  unfold downCountStep
  cases hpc : s.call i with
  | called =>
      refine ⟨_, rfl, Nat.add_lt_add_right (sum_update_lt ?_) _⟩
      rw [hpc]
      split <;> simp [CallPc.rank]
  | fetchSub =>
      refine ⟨_, rfl, Nat.add_lt_add_right (sum_update_lt ?_) _⟩
      rw [hpc]
      split <;> simp [CallPc.rank]
  | setValue =>
      by_cases hsetter : s.future.handOff.setter () = .returned
      · refine ⟨_, if_pos hsetter, Nat.add_lt_add_right (sum_update_lt ?_) _⟩
        simp [hpc, CallPc.rank]
      · rcases h.future.consumer.handOff with ⟨ex', hhandOff⟩
        rcases hhandOff.exists_setResult (by simp) hsetter ⟨false, false⟩ with
          ⟨handOff, hmove, hlt⟩
        refine ⟨{ s with future := { s.future with
            handOff := handOff
            callback := Consumers.callbackAfter s.future handOff } }, ?_, ?_⟩
        · simp only [if_neg hsetter]
          simp [Consumers.step, Consumers.State.allows, hmove]
        · exact Nat.add_lt_add_left hlt _
  | returned => exact absurd hpc hi

/-- From every state all calls can return. -/
theorem exists_returned (h : Inv ex n s) (hn : ∀ i, n i ≠ 0) :
    ∃ ks t, (machine ex n).run s ks = some t ∧ ∀ i, t.call i = .returned := by
  have hprogress : ∀ s, Inv ex n s → ¬ (∀ i, s.call i = .returned) →
      ∃ l s', True ∧ (machine ex n).step s l = some s' ∧ Inv ex n s' ∧ s'.rank < s.rank := by
    intro s hs hgoal
    rcases not_forall.mp hgoal with ⟨i, hi⟩
    rcases hs.exists_step hi with ⟨s', hstep, hlt⟩
    exact ⟨.downCount i ⟨false, false⟩, s', trivial, hstep, hs.downCount hn hstep, hlt⟩
  rcases (machine ex n).exists_run_of_measure (fun _ => True) State.rank hprogress h with
    ⟨ks, t, -, hrun, -, hreturned⟩
  exact ⟨ks, t, hrun, hreturned⟩

end Inv

end Steps

/-! ## All runs -/

instance (n : ι → UInt64) (s : State ι) (l : Label ι) : Decidable (LastByOne n s l) := by
  unfold LastByOne
  split <;> infer_instance

/-- For every positive count, every way to divide it among calls and every
interleaving, the promise is set once, by the call that brings the count to zero
and in time, exactly if this call has subtracted one.  The calls can always
return. -/
theorem latch_sets_once_iff [Fintype ι] (ex : Nat) (n : ι → UInt64) (count : UInt64)
    (hcount : count ≠ 0) (hn : ∀ i, n i ≠ 0) (hsum : ∑ i, (n i).toNat = count.toNat)
    (ls : List (Label ι)) (s : State ι)
    (hrun : (machine ex n).run (State.initial ex count) ls = some s) :
    (SetsOnce n s ↔ (machine ex n).RunsWithin (LastByOne n) (State.initial ex count) ls) ∧
      ∃ ks t, (machine ex n).run s ks = some t ∧ ∀ i, t.call i = .returned := by
  have hstart : Inv ex n (State.initial ex count : State ι) := Inv.initial ex hcount hsum
  have hinv : Inv ex n s :=
    (machine ex n).run_invariant (fun _ _ _ h hstep => h.step hn hstep) hstart hrun
  refine ⟨hinv.setsOnce_iff.trans ⟨?_, ?_⟩, hinv.exists_returned hn⟩
  · exact (machine ex n).runsWithin_of_not_marked (fun _ _ _ h hstep => h.step hn hstep)
      (fun _ _ _ h hl hstep => h.missed_of_not_lastByOne hn hl hstep)
      (fun _ _ _ h hstep => h.step hstep) hstart hrun
  · intro hwithin
    have hfirst : ¬ (State.initial ex count : State ι).Missed := by
      intro hmissed
      have hnone : ∑ i : ι, (n i).toNat = 0 :=
        Finset.sum_eq_zero fun i _ => by cases hmissed.1 i
      rw [hsum] at hnone
      exact hcount (UInt64.toNat_inj.mp (by simpa using hnone))
    have hkept : Inv ex n s ∧ ¬ s.Missed :=
      (machine ex n).runsWithin_invariant (P := fun s => Inv ex n s ∧ ¬ s.Missed)
        (fun _ _ _ h hl hstep => ⟨h.1.step hn hstep, h.1.not_missed_step hn hl h.2 hstep⟩)
        ⟨hstart, hfirst⟩ hwithin hrun
    exact hkept.2

/-- Two calls on a latch of three. -/
def oneAndTwo (i : Fin 2) : UInt64 :=
  if i.val = 0 then 1 else 2

/-- The uthread waits, the call {lit}`i` is first, and {lit}`j` sets the promise
through the executor. -/
def twoBeforeOne (i j : Fin 2) : List (Label (Fin 2)) :=
  [Label.await, Label.future Consumers.Label.main] ++
    List.replicate 4 (Label.future (Consumers.Label.handOff
      (FutureState.Label.setContinuation ⟨false, true⟩))) ++
    [Label.future Consumers.Label.main] ++
    List.replicate 2 (Label.downCount i ⟨false, true⟩) ++
    List.replicate 11 (Label.downCount j ⟨false, true⟩) ++
    [Label.future (Consumers.Label.handOff FutureState.Label.runTask),
      Label.future Consumers.Label.callback, Label.future Consumers.Label.main,
      Label.future Consumers.Label.main, Label.await]

theorem latch_sets_once_iff_twoBeforeOne :
    ∃ s, (machine 0 oneAndTwo).run (State.initial 0 3) (twoBeforeOne 1 0) = some s ∧
      s.await = .passed ∧
      (SetsOnce oneAndTwo s ↔
        (machine 0 oneAndTwo).RunsWithin (LastByOne oneAndTwo) (State.initial 0 3)
          (twoBeforeOne 1 0)) ∧
      ∃ ks t, (machine 0 oneAndTwo).run s ks = some t ∧ ∀ i, t.call i = .returned := by
  rcases Machine.exists_run_of_any (machine 0 oneAndTwo) (State.initial 0 3) (twoBeforeOne 1 0)
    (fun s => s.await = .passed) (by decide +kernel) with ⟨s, hrun, hs⟩
  exact ⟨s, hrun, hs, latch_sets_once_iff 0 oneAndTwo 3 (by decide) (by decide) (by decide)
    (twoBeforeOne 1 0) s hrun⟩

/-- A latch of two with one {lit}`downCount(2)`: the count is zero, the call has
returned, and the promise is not set. -/
theorem not_setsOnce_downCountTwo :
    ∃ s, (machine 0 fun _ : Unit => 2).run (State.initial 0 2)
        [Label.downCount () ⟨false, false⟩, Label.downCount () ⟨false, false⟩] = some s ∧
      (s.count = 0 ∧ s.call () = .returned ∧ s.hasResult = false) ∧
      ¬ SetsOnce (fun _ : Unit => 2) s := by
  rcases Machine.exists_run_of_any (machine 0 fun _ : Unit => 2) (State.initial 0 2)
    [Label.downCount () ⟨false, false⟩, Label.downCount () ⟨false, false⟩]
    (fun s => s.count = 0 ∧ s.call () = .returned ∧ s.hasResult = false) (by decide)
    with ⟨s, hrun, hs⟩
  refine ⟨s, hrun, hs, ?_⟩
  intro honce
  rcases honce.complete (fun _ => hs.2.1) with ⟨i, -, -, hresult⟩
  rw [hs.2.2] at hresult
  cases hresult

end UthreadLatch

end AsyncSimple
