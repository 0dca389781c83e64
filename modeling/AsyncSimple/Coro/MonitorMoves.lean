import AsyncSimple.Coro.LockOwnership

/-!
# Moves of a monitor

When no {lit}`Yield` throws, the spin lock only delays a coroutine.  This module
says once what a step of a monitor can then do: a coroutine contends for the
lock, takes it, runs one section, blocks in front of a section, waits, notifies
or leaves.  The invariants of a primitive follow from this list.

Main results:

- Theorem {lit}`Calm.step`: a step without {lit}`Terminate` is one of the moves
  and keeps the ownership of the lock.
- Theorem {lit}`Move.stage_cases`: what a move does to the value and to the
  sections that are still to be run.
-/

namespace AsyncSimple

open Transition

namespace Monitor

variable {σ γ ω ρ ι : Type}

/-- The operation a coroutine is in and the section it runs next. -/
def Pc.stage : Pc γ ω → Option (ω × Nat)
  | .exchange _ op k _ | .spin _ op k _ | .yield _ op k | .yielded _ op k | .inside op k
  | .push op k | .leave op k _ | .waiting op k | .woken op k => some (op, k)
  | .notifying op k _ => some (op, k + 1)
  | .idle | .unwind | .aborted => none

/-- The coroutine tries to take the lock. -/
def Pc.Contends : Pc γ ω → Prop
  | .exchange _ _ _ _ | .spin _ _ _ _ | .yield _ _ _ | .yielded _ _ _ | .woken _ _ => True
  | _ => False

@[simp]
theorem Pc.stage_wake (pc : Pc γ ω) : pc.wake.stage = pc.stage := by
  cases pc <;> rfl

theorem Pc.Contends.not_inside {pc : Pc γ ω} (h : pc.Contends) :
    ¬ pc.Inside ∧ pc ≠ .aborted ∧ pc ≠ .unwind := by
  cases pc <;> simp_all [Pc.Contends, Pc.Inside]

/-- Program point behind the effect of a section. -/
def Effect.next (effect : Effect σ γ ρ) (op : ω) (k : Nat) : Pc γ ω :=
  match effect.notify with
  | none => .inside op (k + 1)
  | some n => .notifying op k n

@[simp]
theorem Effect.stage_next (effect : Effect σ γ ρ) (op : ω) (k : Nat) :
    (effect.next op k : Pc γ ω).stage = some (op, k + 1) := by
  unfold Effect.next
  split <;> rfl

variable [DecidableEq ι] [DecidableEq γ]

/-- Everything that can happen in a monitor while no {lit}`Yield` throws. -/
inductive Move (P : Primitive σ γ ω ρ) (s : System σ γ ω ρ ι) :
    Label ω ι → System σ γ ω ρ ι → Prop where
  | call {i : ι} {op : ω} {pc : Pc γ ω} (hidle : s.pc i = .idle) (hcontends : pc.Contends)
      (hflight : pc.InFlight = false) (hstage : pc.stage = some (op, 0))
      (hentry : P.entryAsserts op = true) : Move P s (.call i op) (s.goto i pc)
  | refuse {i : ι} {op : ω} (hidle : s.pc i = .idle) (hentry : P.entryAsserts op = false) :
      Move P s (.call i op) (s.goto i .aborted)
  | contend {i : ι} {pc : Pc γ ω} (hi : (s.pc i).Contends) (hcontends : pc.Contends)
      (hflight : pc.InFlight = (s.pc i).InFlight) (hstage : pc.stage = (s.pc i).stage) :
      Move P s (.go i) (s.goto i pc)
  | giveUp {i : ι} {op : ω} {k : Nat} (hi : (s.pc i).Contends)
      (hstage : (s.pc i).stage = some (op, k)) (hop : P.blocking op = false) :
      Move P s (.go i) (s.goto i .idle)
  | enter {i : ι} {op : ω} {k : Nat} (hi : (s.pc i).Contends)
      (hstage : (s.pc i).stage = some (op, k)) (hfree : s.locked = false) :
      Move P s (.go i) ((s.take i).goto i (.inside op k))
  | block {i : ι} {op : ω} {k : Nat} {sec : Section σ γ ρ} (hi : s.pc i = .inside op k)
      (hsec : (P.sections op)[k]? = some sec) (hready : sec.ready s.value = false) :
      Move P s (.go i) (s.goto i (.push op k))
  | abort {i : ι} {op : ω} {k : Nat} {sec : Section σ γ ρ} (hi : s.pc i = .inside op k)
      (hsec : (P.sections op)[k]? = some sec) (hasserts : sec.asserts s.value = false) :
      Move P s (.go i) (s.goto i .aborted)
  | run {i : ι} {op : ω} {k : Nat} {sec : Section σ γ ρ} (hi : s.pc i = .inside op k)
      (hsec : (P.sections op)[k]? = some sec) (hready : sec.ready s.value = true)
      (hasserts : sec.asserts s.value = true) :
      Move P s (.go i) { s.goto i ((sec.body s.value).next op k) with
        value := (sec.body s.value).value
        log := s.log ++ [(i, op, .ok (sec.body s.value).result)] }
  | exit {i : ι} {op : ω} {k : Nat} (hi : s.pc i = .inside op k)
      (hsec : (P.sections op)[k]? = none) (hlocked : s.locked = true) :
      Move P s (.go i) (s.unlock i .idle)
  | push {i : ι} {op : ω} {k : Nat} {sec : Section σ γ ρ} (hi : s.pc i = .push op k)
      (hsec : (P.sections op)[k]? = some sec) :
      Move P s (.go i) { s.goto i (.leave op k false) with
        awaiters := Function.update s.awaiters sec.gate (i :: s.awaiters sec.gate) }
  | leave {i : ι} {op : ω} {k : Nat} {popped : Bool} (hi : s.pc i = .leave op k popped)
      (hlocked : s.locked = true) :
      Move P s (.go i) (s.unlock i (if popped then .woken op k else .waiting op k))
  | notify {i : ι} {op : ω} {k : Nat} {n : Notification γ} (hi : s.pc i = .notifying op k n) :
      Move P s (.go i) ((s.goto i (.inside op (k + 1))).notify n)

/-- The lock is owned as it should be, and no {lit}`Yield` throws. -/
structure Calm (s : System σ γ ω ρ ι) : Prop where
  owner : OwnerInv s
  undisturbed : ∀ i, s.canceled i = false ∧ s.executor i = true

namespace Calm

variable {P : Primitive σ γ ω ρ} {spinCount : Int} {s s' : System σ γ ω ρ ι}

omit [DecidableEq ι] [DecidableEq γ] in
theorem initial (value : σ) (executor : ι → Bool) (hexecutor : ∀ i, executor i = true) :
    Calm (System.initial (γ := γ) (ω := ω) (ρ := ρ) value executor) :=
  ⟨OwnerInv.initial value executor, fun i => ⟨rfl, hexecutor i⟩⟩

omit [DecidableEq ι] [DecidableEq γ] in
theorem not_relockThrows (h : Calm s) (l : Label ω ι) : ¬ RelockThrows s l := by
  intro hthrows
  unfold RelockThrows at hthrows
  split at hthrows
  case h_1 i =>
    split at hthrows
    · simp [h.undisturbed i] at hthrows
    · simp [h.undisturbed i] at hthrows
    · exact hthrows
  case h_2 => exact hthrows

omit [DecidableEq ι] [DecidableEq γ] in
/-- The coroutine inside has taken the lock. -/
theorem locked (h : Calm s) {i : ι} (hi : (s.pc i).Inside) : s.locked = true := by
  rw [h.owner.locked, h.owner.inside i hi]
  rfl

theorem insideStep_move (h : Calm s) {i : ι} {op : ω} {k : Nat}
    (hi : s.pc i = .inside op k) : Move P s (.go i) (insideStep P s i op k) := by
  unfold insideStep
  split
  case h_1 hsec =>
    have hinside : (s.pc i).Inside := by simp [hi, Pc.Inside]
    exact .exit hi hsec (h.locked hinside)
  case h_2 sec hsec =>
    split
    case isTrue hready => exact .block hi hsec hready
    case isFalse hready =>
      split
      case isTrue hasserts => exact .abort hi hsec hasserts
      case isFalse hasserts =>
        exact .run hi hsec (by simpa using hready) (by simpa using hasserts)

theorem coroutineStep_move (h : Calm s) {i : ι}
    (hstep : coroutineStep P spinCount s i = some s') : Move P s (.go i) s' := by
  unfold coroutineStep at hstep
  cases hpc : s.pc i with
  | idle | waiting op k | aborted =>
      simp only [hpc] at hstep
      cases hstep
  | exchange phase op k counter =>
      have hi : (s.pc i).Contends := by simp [hpc, Pc.Contends]
      have hstage : (s.pc i).stage = some (op, k) := by simp [hpc, Pc.stage]
      simp only [hpc] at hstep
      split at hstep
      case isTrue hfree =>
        cases hstep
        exact .enter hi hstage hfree
      case isFalse =>
        split at hstep
        case isTrue =>
          cases hstep
          refine .contend hi trivial ?_ ?_
          · cases phase <;> simp [hpc, Pc.InFlight]
          · rw [hstage]
            rfl
        case isFalse hop =>
          cases hstep
          exact .giveUp hi hstage (by simpa using hop)
  | spin phase op k counter =>
      have hi : (s.pc i).Contends := by simp [hpc, Pc.Contends]
      simp only [hpc] at hstep
      split at hstep
      · split at hstep
        all_goals
          cases hstep
          refine .contend hi trivial ?_ (by simp [hpc, Pc.stage])
          cases phase <;> simp [hpc, Pc.InFlight]
      · cases hstep
        refine .contend hi trivial ?_ (by simp [hpc, Pc.stage])
        cases phase <;> simp [hpc, Pc.InFlight]
  | yield phase op k =>
      have hi : (s.pc i).Contends := by simp [hpc, Pc.Contends]
      simp only [hpc, h.undisturbed i, Bool.false_eq_true, if_false, if_true] at hstep
      cases hstep
      refine .contend hi trivial ?_ (by simp [hpc, Pc.stage])
      cases phase <;> simp [hpc, Pc.InFlight]
  | yielded phase op k =>
      have hi : (s.pc i).Contends := by simp [hpc, Pc.Contends]
      simp only [hpc, h.undisturbed i, Bool.false_eq_true, if_false] at hstep
      cases hstep
      refine .contend hi trivial ?_ (by simp [hpc, Pc.stage])
      cases phase <;> simp [hpc, Pc.InFlight]
  | woken op k =>
      have hi : (s.pc i).Contends := by simp [hpc, Pc.Contends]
      simp only [hpc] at hstep
      cases hstep
      exact .contend hi trivial (by simp [hpc, Pc.InFlight]) (by simp [hpc, Pc.stage])
  | inside op k =>
      simp only [hpc] at hstep
      cases hstep
      exact h.insideStep_move hpc
  | push op k =>
      simp only [hpc] at hstep
      split at hstep
      · cases hstep
      case h_2 sec hsec =>
        cases hstep
        exact .push hpc hsec
  | leave op k popped =>
      simp only [hpc] at hstep
      cases hstep
      have hinside : (s.pc i).Inside := by simp [hpc, Pc.Inside]
      exact .leave hpc (h.locked hinside)
  | notifying op k n =>
      simp only [hpc] at hstep
      cases hstep
      exact .notify hpc
  | unwind => exact absurd hpc (h.owner.steady i)

theorem step_move (h : Calm s) {l : Label ω ι} (hl : ∀ i, l ≠ .terminate i)
    (hstep : step P spinCount s l = some s') : Move P s l s' := by
  cases l with
  | call i op =>
      simp only [Monitor.step] at hstep
      split at hstep
      case h_1 hidle =>
        split at hstep
        case isTrue hentry =>
          cases hstep
          exact .call hidle trivial rfl rfl hentry
        case isFalse hentry =>
          cases hstep
          exact .refuse hidle (by simpa using hentry)
      case h_2 => cases hstep
  | go i => exact h.coroutineStep_move hstep
  | terminate i => exact absurd rfl (hl i)

omit [DecidableEq γ] in
theorem unlock_undisturbed (h : Calm s) (i : ι) (pc : Pc γ ω) (j : ι) :
    (s.unlock i pc).canceled j = false ∧ (s.unlock i pc).executor j = true := by
  unfold System.unlock
  split
  · exact h.undisturbed j
  · exact h.undisturbed j

/-- A step without {lit}`Terminate` is a move and leaves the monitor calm. -/
theorem step (h : Calm s) {l : Label ω ι} (hl : ∀ i, l ≠ .terminate i)
    (hstep : step P spinCount s l = some s') : Calm s' ∧ Move P s l s' := by
  have hmove := h.step_move hl hstep
  refine ⟨⟨h.owner.step (h.not_relockThrows l) hstep, ?_⟩, hmove⟩
  cases hmove with
  | exit | leave => exact h.unlock_undisturbed _ _
  | _ => exact h.undisturbed

end Calm

/-! ## Sections that are still to be run -/

variable {P : Primitive σ γ ω ρ} {s s' : System σ γ ω ρ ι} {l : Label ω ι}

omit [DecidableEq γ] in
@[simp]
theorem stage_goto (i j : ι) (pc : Pc γ ω) :
    ((s.goto i pc).pc j).stage = if j = i then pc.stage else (s.pc j).stage := by
  by_cases hj : j = i
  · subst hj
    simp [System.goto]
  · simp [System.goto, hj]

omit [DecidableEq γ] in
theorem unlock_eq (hlocked : s.locked = true) (i : ι) (pc : Pc γ ω) :
    s.unlock i pc = { s with
      locked := false
      owner := none
      pc := Function.update s.pc i pc
      releases := s.releases ++ [(i, s.owner)] } := by
  rw [System.unlock, if_pos hlocked]

@[simp]
theorem stage_notify (n : Notification γ) (j : ι) :
    ((s.notify n).pc j).stage = (s.pc j).stage := by
  simp only [System.notify]
  split
  · exact Pc.stage_wake _
  · rfl

/-- The stages of the coroutines before and after a move of {lit}`i`. -/
def StageSet (s s' : System σ γ ω ρ ι) (i : ι) (stage : Option (ω × Nat)) : Prop :=
  ∀ j, (s'.pc j).stage = if j = i then stage else (s.pc j).stage

omit [DecidableEq γ] in
/-- The stage of the coroutine that moves stays the same. -/
theorem StageSet.same {i : ι} (h : StageSet s s' i (s.pc i).stage) (j : ι) :
    (s'.pc j).stage = (s.pc j).stage := by
  rw [h j]
  split
  case isTrue hj => rw [hj]
  case isFalse => rfl

/-- A move begins an operation, runs one section, ends an operation, or leaves
the value, the log and all stages as they are. -/
theorem Move.stage_cases (h : Move P s l s') :
    (∃ i op, l = .call i op ∧ s.pc i = .idle ∧ s'.value = s.value ∧ s'.log = s.log ∧
      StageSet s s' i (some (op, 0))) ∨
    (∃ i op k sec, l = .go i ∧ s.pc i = .inside op k ∧ (P.sections op)[k]? = some sec ∧
      sec.ready s.value = true ∧ sec.asserts s.value = true ∧
      s'.value = (sec.body s.value).value ∧
      s'.log = s.log ++ [(i, op, .ok (sec.body s.value).result)] ∧
      StageSet s s' i (some (op, k + 1))) ∨
    (∃ i, s'.value = s.value ∧ s'.log = s.log ∧ StageSet s s' i none ∧
      ((s.pc i).stage = none ∨ ∃ op k, (s.pc i).stage = some (op, k) ∧
        (P.blocking op = false ∨ (P.sections op)[k]? = none ∨
          ∃ sec, (P.sections op)[k]? = some sec ∧ sec.asserts s.value = false))) ∨
    (s'.value = s.value ∧ s'.log = s.log ∧ ∀ j, (s'.pc j).stage = (s.pc j).stage) := by
  cases h with
  | @call i op pc hidle hcontends hflight hstage hentry =>
      refine .inl ⟨i, op, rfl, hidle, rfl, rfl, fun j => ?_⟩
      rw [stage_goto, hstage]
  | @refuse i op hidle hentry =>
      refine .inr (.inr (.inl ⟨i, rfl, rfl, fun j => stage_goto i j _, .inl ?_⟩))
      rw [hidle]
      rfl
  | @contend i pc hi hcontends hflight hstage =>
      refine .inr (.inr (.inr ⟨rfl, rfl, ?_⟩))
      refine StageSet.same (i := i) fun j => ?_
      rw [stage_goto, hstage]
  | @giveUp i op k hi hstage hop =>
      exact .inr (.inr (.inl ⟨i, rfl, rfl, fun j => stage_goto i j _,
        .inr ⟨op, k, hstage, .inl hop⟩⟩))
  | @enter i op k hi hstage hfree =>
      refine .inr (.inr (.inr ⟨rfl, rfl, ?_⟩))
      refine StageSet.same (i := i) fun j => ?_
      rw [stage_goto, hstage]
      rfl
  | @block i op k sec hi hsec hready =>
      refine .inr (.inr (.inr ⟨rfl, rfl, ?_⟩))
      refine StageSet.same (i := i) fun j => ?_
      rw [stage_goto, hi]
      rfl
  | @abort i op k sec hi hsec hasserts =>
      refine .inr (.inr (.inl ⟨i, rfl, rfl, fun j => stage_goto i j _,
        .inr ⟨op, k, ?_, .inr (.inr ⟨sec, hsec, hasserts⟩)⟩⟩))
      rw [hi]
      rfl
  | @run i op k sec hi hsec hready hasserts =>
      refine .inr (.inl ⟨i, op, k, sec, rfl, hi, hsec, hready, hasserts, rfl, rfl, fun j => ?_⟩)
      have hgoto := stage_goto (s := s) i j ((sec.body s.value).next op k)
      rw [Effect.stage_next] at hgoto
      exact hgoto
  | @exit i op k hi hsec hlocked =>
      rw [unlock_eq hlocked]
      refine .inr (.inr (.inl ⟨i, rfl, rfl, fun j => stage_goto i j _,
        .inr ⟨op, k, ?_, .inr (.inl hsec)⟩⟩))
      rw [hi]
      rfl
  | @push i op k sec hi hsec =>
      refine .inr (.inr (.inr ⟨rfl, rfl, ?_⟩))
      refine StageSet.same (i := i) fun j => ?_
      have hgoto := stage_goto (s := s) i j (.leave op k false)
      rw [hi]
      exact hgoto
  | @leave i op k popped hi hlocked =>
      rw [unlock_eq hlocked]
      refine .inr (.inr (.inr ⟨rfl, rfl, ?_⟩))
      refine StageSet.same (i := i) fun j => ?_
      have hgoto := stage_goto (s := s) i j (if popped then .woken op k else .waiting op k)
      rw [hi]
      cases popped <;> exact hgoto
  | @notify i op k n hi =>
      refine .inr (.inr (.inr ⟨rfl, rfl, ?_⟩))
      refine StageSet.same (i := i) fun j => ?_
      rw [stage_notify, stage_goto, hi]
      rfl

end Monitor

end AsyncSimple
