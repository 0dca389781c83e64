import AsyncSimple.Future.HandOff

/-!
# A hand-off inside a larger machine

Code that awaits a future owns one side of its shared state: it calls
{lit}`setContinuation` at some point of its program, while the promise side moves on its
own.  A machine for such code has the hand-off of {lit}`FutureState` as one of its parts.
This module states what the other parts may rely on.

Main results:

- Theorem {lit}`invoked_eq`: the continuation has not been invoked, or once with the
  result.
- Theorem {lit}`invoked_step`: a move of the hand-off leaves the invocations alone or
  makes the only one.
- Theorem {lit}`invoked_of_completed`: after both calls and the accepted tasks the
  continuation has been invoked.
-/

namespace AsyncSimple

open Transition

namespace FutureState

variable {ε α K : Type}

/-- {lit}`setExecutor` on the shared state. -/
def System.setExecutor (s : System Unit ε α K) (ex : Option Nat) : System Unit ε α K :=
  { s with shared := { s.shared with fs := s.shared.fs.setExecutor ex } }

@[simp]
theorem System.rank_setExecutor (s : System Unit ε α K) (ex : Option Nat) :
    (s.setExecutor ex).rank = s.rank :=
  rfl

/-! ## Moves -/

section AllSetters

variable {ι : Type} [DecidableEq ι] {value : ι → Try ε α} {func : K} {s s' : System ι ε α K}

/-- A result that is there stays. -/
theorem transferStep_hasResult {side : Side} {write : FutureState ε α K → FutureState ε α K}
    {sh sh' : Shared ε α K} {answer : Answer} {pc pc' : Pc}
    (hwrite : ∀ fs, (write fs).state = fs.state)
    (h : transferStep side write sh answer pc = some (sh', pc'))
    (hresult : sh.fs.state.hasResult = true) : sh'.fs.state.hasResult = true := by
  cases transferStep_effect h with
  | stay _ _ hfs => rwa [hfs]
  | store _ => rwa [hwrite]
  | publish _ hstate =>
      rw [hstate] at hresult
      cases hresult
  | finish _ _ => simp
  | _ => exact hresult

theorem step_hasResult {l : Label ι} (hstep : step value func s l = some s')
    (hresult : s.shared.fs.state.hasResult = true) : s'.shared.fs.state.hasResult = true := by
  cases l with
  | setResult i answer =>
      simp only [step, Option.map_eq_some_iff] at hstep
      rcases hstep with ⟨⟨sh, pc⟩, hmove, rfl⟩
      exact transferStep_hasResult (by simp) hmove hresult
  | setContinuation answer =>
      simp only [step, Option.map_eq_some_iff] at hstep
      rcases hstep with ⟨⟨sh, pc⟩, hmove, rfl⟩
      exact transferStep_hasResult (by simp) hmove hresult
  | runTask =>
      simp only [step] at hstep
      split at hstep
      · cases hstep
      · cases hstep
        exact hresult

/-- An accepted task changes nothing else. -/
theorem step_runTask (hstep : step value func s .runTask = some s') :
    s.shared.pending = s'.shared.pending + 1 ∧ s'.setter = s.setter ∧
      s'.attacher = s.attacher ∧ s'.shared.fs = s.shared.fs ∧
      s'.shared.invoked = (s.shared.fs.continuation, s.shared.fs.tryValue) :: s.shared.invoked := by
  simp only [step] at hstep
  split at hstep
  · cases hstep
  · next m hm =>
      cases hstep
      exact ⟨hm, rfl, rfl, rfl, rfl⟩

end AllSetters

section Moves

variable {v : Try ε α} {k : K} {s s' : System Unit ε α K}

theorem transferStep_invoked {side : Side} {write : FutureState ε α K → FutureState ε α K}
    {sh sh' : Shared ε α K} {answer : Answer} {pc pc' : Pc}
    (h : transferStep side write sh answer pc = some (sh', pc')) :
    sh'.invoked = sh.invoked ∨ ∃ x, sh'.invoked = x :: sh.invoked := by
  cases transferStep_effect h with
  | stay _ _ _ _ hinvoked => exact .inl hinvoked
  | invoke _ => exact .inr ⟨_, rfl⟩
  | _ => exact .inl rfl

/-- A move leaves the invocations alone or adds one. -/
theorem step_invoked {l : Label Unit} (hstep : step (fun _ => v) k s l = some s') :
    s'.shared.invoked = s.shared.invoked ∨
      ∃ x, s'.shared.invoked = x :: s.shared.invoked := by
  cases l with
  | setResult i answer =>
      simp only [step, Option.map_eq_some_iff] at hstep
      rcases hstep with ⟨⟨sh, pc⟩, hmove, rfl⟩
      exact transferStep_invoked hmove
  | setContinuation answer =>
      simp only [step, Option.map_eq_some_iff] at hstep
      rcases hstep with ⟨⟨sh, pc⟩, hmove, rfl⟩
      exact transferStep_invoked hmove
  | runTask =>
      simp only [step] at hstep
      split at hstep
      · cases hstep
      · cases hstep
        exact .inr ⟨_, rfl⟩

/-- Only the attaching call moves its program point. -/
theorem step_attacher {l : Label Unit} (hstep : step (fun _ => v) k s l = some s') :
    s'.attacher = s.attacher ∨ ∃ answer, l = .setContinuation answer := by
  cases l with
  | setResult i answer =>
      simp only [step, Option.map_eq_some_iff] at hstep
      rcases hstep with ⟨⟨sh, pc⟩, hmove, rfl⟩
      exact .inl rfl
  | setContinuation answer => exact .inr ⟨answer, rfl⟩
  | runTask =>
      simp only [step] at hstep
      split at hstep
      · cases hstep
      · cases hstep
        exact .inl rfl

/-- The context never changes during the calls. -/
theorem transferStep_context {side : Side} {write : FutureState ε α K → FutureState ε α K}
    {sh sh' : Shared ε α K} {answer : Answer} {pc pc' : Pc}
    (hwrite : ∀ fs, (write fs).context = fs.context)
    (h : transferStep side write sh answer pc = some (sh', pc')) :
    sh'.fs.context = sh.fs.context := by
  cases transferStep_effect h with
  | stay _ _ hfs => rw [hfs]
  | store _ => exact hwrite sh.fs
  | _ => rfl

theorem step_context {l : Label Unit} (hstep : step (fun _ => v) k s l = some s') :
    s'.shared.fs.context = s.shared.fs.context := by
  cases l with
  | setResult i answer =>
      simp only [step, Option.map_eq_some_iff] at hstep
      rcases hstep with ⟨⟨sh, pc⟩, hmove, rfl⟩
      exact transferStep_context (by simp) hmove
  | setContinuation answer =>
      simp only [step, Option.map_eq_some_iff] at hstep
      rcases hstep with ⟨⟨sh, pc⟩, hmove, rfl⟩
      exact transferStep_context (by simp) hmove
  | runTask =>
      simp only [step] at hstep
      split at hstep
      · cases hstep
      · cases hstep
        rfl

/-- A call invokes the continuation, or submits it, or does neither. -/
theorem transferStep_submits {side : Side} {write : FutureState ε α K → FutureState ε α K}
    {sh sh' : Shared ε α K} {answer : Answer} {pc pc' : Pc}
    (h : transferStep side write sh answer pc = some (sh', pc')) :
    sh'.pending = sh.pending ∨ sh'.pending = sh.pending + 1 ∧ sh'.invoked = sh.invoked := by
  cases transferStep_effect h with
  | stay _ _ _ hpending => exact .inl hpending
  | submit _ => exact .inr ⟨rfl, rfl⟩
  | _ => exact .inl rfl

/-- The program points at which a call invokes the continuation itself. -/
def Pc.direct : Pc → Bool
  | .inplace | .fallback => true
  | _ => false

/-- With forced scheduling and an executor that accepts, a call does not invoke the
continuation itself. -/
theorem transferStep_forced {side : Side} {write : FutureState ε α K → FutureState ε α K}
    {sh sh' : Shared ε α K} {answer : Answer} {pc pc' : Pc}
    (hforced : sh.fs.forceSched = true) (haccepts : answer.accepts = true)
    (hdirect : pc.direct = false)
    (h : transferStep side write sh answer pc = some (sh', pc')) :
    pc'.direct = false ∧ sh'.invoked = sh.invoked := by
  cases pc with
  | check =>
      cases h
      split <;> exact ⟨rfl, rfl⟩
  | store | assertOther expected | accepted =>
      cases h
      exact ⟨rfl, rfl⟩
  | load =>
      cases h
      split
      · exact ⟨rfl, rfl⟩
      · split <;> exact ⟨rfl, rfl⟩
  | casStart | casDone expected =>
      simp only [transferStep] at h
      split at h <;> cases h <;> exact ⟨rfl, rfl⟩
  | assertDone =>
      cases h
      split <;> exact ⟨rfl, rfl⟩
  | dispatch =>
      simp only [transferStep, scheduleContinuationStep, hforced] at h
      split at h
      · next hnot => simp at hnot
      · split at h <;> cases h <;> exact ⟨rfl, rfl⟩
  | submit route =>
      simp only [transferStep, scheduleContinuationStep, haccepts, if_true] at h
      cases h
      exact ⟨rfl, rfl⟩
  | inplace | fallback => cases hdirect
  | returned | threw e | nullExecutor => cases h

/-- A move of one of the two calls, with an executor that accepts. -/
def Label.accepts : Label Unit → Bool
  | .setResult _ answer | .setContinuation answer => answer.accepts
  | .runTask => false

theorem step_pending {l : Label Unit} (hl : l.accepts = true)
    (hstep : step (fun _ => v) k s l = some s') :
    s'.shared.pending = s.shared.pending ∨
      s'.shared.pending = s.shared.pending + 1 ∧ s'.shared.invoked = s.shared.invoked := by
  cases l with
  | setResult i answer =>
      simp only [step, Option.map_eq_some_iff] at hstep
      rcases hstep with ⟨⟨sh, pc⟩, hmove, rfl⟩
      exact transferStep_submits hmove
  | setContinuation answer =>
      simp only [step, Option.map_eq_some_iff] at hstep
      rcases hstep with ⟨⟨sh, pc⟩, hmove, rfl⟩
      exact transferStep_submits hmove
  | runTask => cases hl

/-- Neither call is about to invoke the continuation itself. -/
def System.Indirect (s : System Unit ε α K) : Prop :=
  (s.setter ()).direct = false ∧ s.attacher.direct = false

theorem step_forced {l : Label Unit} (hl : l.accepts = true)
    (hforced : s.shared.fs.forceSched = true) (hindirect : s.Indirect)
    (hstep : step (fun _ => v) k s l = some s') :
    s'.Indirect ∧ s'.shared.invoked = s.shared.invoked := by
  cases l with
  | setResult i answer =>
      simp only [step, Option.map_eq_some_iff] at hstep
      rcases hstep with ⟨⟨sh, pc⟩, hmove, rfl⟩
      rcases transferStep_forced hforced hl hindirect.1 hmove with ⟨hpc, hinvoked⟩
      exact ⟨⟨by simpa using hpc, hindirect.2⟩, hinvoked⟩
  | setContinuation answer =>
      simp only [step, Option.map_eq_some_iff] at hstep
      rcases hstep with ⟨⟨sh, pc⟩, hmove, rfl⟩
      rcases transferStep_forced hforced hl hindirect.2 hmove with ⟨hpc, hinvoked⟩
      exact ⟨⟨hindirect.1, hpc⟩, hinvoked⟩
  | runTask => cases hl

end Moves

/-! ## What holds in every state -/

namespace HandOffInv

variable {v : Try ε α} {k : K} {executor : Option Nat} {forceSched : Bool}
  {s : System Unit ε α K}

theorem initial (v : Try ε α) (k : K) (executor context : Option Nat) (forceSched : Bool) :
    HandOffInv v k executor forceSched
      (System.initial (configured executor context forceSched)) :=
  ⟨Inv.initial, Wired.initial⟩

theorem invoked_eq (h : HandOffInv v k executor forceSched s) :
    s.shared.invoked = [] ∨ s.shared.invoked = [(some k, v)] := by
  rcases h.1.debt.invoked_once with hnone | ⟨_, _, honce⟩
  · exact .inl hnone
  · exact .inr honce

/-- A move leaves the invocations alone or makes the only one. -/
theorem invoked_step (h : HandOffInv v k executor forceSched s) {l : Label Unit}
    {s' : System Unit ε α K} (hstep : FutureState.step (fun _ => v) k s l = some s') :
    s'.shared.invoked = s.shared.invoked ∨
      s.shared.invoked = [] ∧ s'.shared.invoked = [(some k, v)] := by
  rcases step_invoked hstep with hsame | ⟨x, hcons⟩
  · exact .inl hsame
  · rcases (h.step hstep).invoked_eq with hnone | honce
    · rw [hnone] at hcons
      cases hcons
    · rw [honce] at hcons
      simp only [List.cons.injEq] at hcons
      exact .inr ⟨hcons.2.symm, honce⟩

/-- The continuation is invoked after both parts have met. -/
theorem done_of_invoked (h : HandOffInv v k executor forceSched s)
    (hinvoked : s.shared.invoked ≠ []) : s.shared.fs.state = .done := by
  by_contra hstate
  exact hinvoked (h.1.debt.quiet hstate).2.1

/-- An accepted task is there after both parts have met. -/
theorem done_of_pending (h : HandOffInv v k executor forceSched s)
    (hpending : s.shared.pending ≠ 0) : s.shared.fs.state = .done := by
  by_contra hstate
  exact hpending (h.1.debt.quiet hstate).1

theorem tryValue_of_hasResult (h : HandOffInv v k executor forceSched s)
    (hresult : s.shared.fs.state.hasResult = true) : s.shared.fs.tryValue = v := by
  rcases h.1.race.result_iff.mp hresult with ⟨i, hi⟩
  exact h.1.race.stored i hi.live

theorem tryValue_of_done (h : HandOffInv v k executor forceSched s)
    (hdone : s.shared.fs.state = .done) : s.shared.fs.tryValue = v :=
  h.tryValue_of_hasResult (by rw [hdone]; rfl)

/-- As long as the attaching call has not stored anything, the parts have not met. -/
theorem not_done (h : HandOffInv v k executor forceSched s)
    (hbefore : s.attacher.phase = .before) : s.shared.fs.state ≠ .done := by
  intro hdone
  have hwon := h.1.race.continuation_iff.mp (by rw [hdone]; rfl)
  rcases hwon with hwon | hwon <;> rw [hbefore] at hwon <;> cases hwon

theorem not_invoked (h : HandOffInv v k executor forceSched s)
    (hbefore : s.attacher.phase = .before) : s.shared.invoked = [] :=
  (h.1.debt.quiet (h.not_done hbefore)).2.1

theorem attacher_ne_threw (h : HandOffInv v k executor forceSched s) (e : LogicError) :
    s.attacher ≠ .threw e := by
  intro hthrew
  exact h.1.race.attacher_not_failed (by rw [hthrew]; rfl)

/-- The setting call has returned. -/
theorem hasResult_of_returned (h : HandOffInv v k executor forceSched s)
    (hreturned : s.setter () = .returned) : s.shared.fs.state.hasResult = true :=
  h.1.race.result_iff.mpr ⟨(), by rw [hreturned]; exact .inr rfl⟩

/-- After both calls and the accepted tasks the continuation has been invoked. -/
theorem invoked_of_completed (h : HandOffInv v k executor forceSched s)
    (hcompleted : Completed s) : s.shared.invoked = [(some k, v)] := by
  rcases hcompleted with ⟨hsetter, hattacher, hpending⟩
  have hresult := h.hasResult_of_returned hsetter
  have hcontinuation : s.shared.fs.state.hasContinuation = true :=
    h.1.race.continuation_iff.mpr (by rw [hattacher]; exact .inr rfl)
  have hstate : s.shared.fs.state = .done := by
    revert hresult hcontinuation
    cases s.shared.fs.state <;> decide
  rcases h.invoked_eq with hnone | honce
  · rcases h.1.debt.owed hstate hpending hnone with howing | ⟨_, howing⟩
    · rw [hattacher] at howing
      cases howing
    · rw [hsetter] at howing
      cases howing
  · exact honce

/-- Another executor changes nothing else; a call through a null pointer stays one. -/
theorem setExecutor_of_imp (h : HandOffInv v k executor forceSched s) {ex : Option Nat}
    (hex : forceSched = true → ex = none) : HandOffInv v k ex forceSched (s.setExecutor ex) := by
  refine ⟨⟨?_, ?_, h.1.asserts⟩, ⟨rfl, h.2.forceSched_eq, ?_, ?_⟩⟩
  · exact ⟨h.1.race.unique, h.1.race.stored, h.1.race.attached, h.1.race.result_iff,
      h.1.race.continuation_iff, h.1.race.setter_believes, h.1.race.attacher_believes,
      h.1.race.setter_threw, h.1.race.attacher_not_failed⟩
  · exact ⟨h.1.debt.quiet, h.1.debt.setter_owing, h.1.debt.attacher_owing,
      h.1.debt.pending_le, h.1.debt.invoked_once, h.1.debt.owed⟩
  · intro i hnull
    have hforced := (h.2.setter_null i hnull).2
    exact ⟨hex hforced, hforced⟩
  · intro hnull
    have hforced := (h.2.attacher_null hnull).2
    exact ⟨hex hforced, hforced⟩

theorem setExecutor (h : HandOffInv v k executor false s) (ex : Option Nat) :
    HandOffInv v k ex false (s.setExecutor ex) :=
  h.setExecutor_of_imp (by simp)

end HandOffInv

end FutureState

end AsyncSimple
