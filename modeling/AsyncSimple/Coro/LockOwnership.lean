import AsyncSimple.Coro.Primitives

/-!
# Who releases the spin lock

A coroutine inside a section owns the lock, and the destructors of the two
{lit}`unique_lock`s release it there.  The exception is a
{lit}`co_await Yield` that throws while {lit}`ConditionVariable::wait` takes the
lock again: the {lit}`unique_lock` of the caller is destroyed although the lock
was given up before.

Main results:

- Theorem {lit}`foreign_release`: a semaphore whose lock is released by a
  coroutine that does not hold it, and two coroutines inside.
- Theorem {lit}`OwnerInv.step`: the invariant of every primitive, as long as no
  {lit}`Yield` throws while the lock is taken again.
- Theorem {lit}`spinLock_released_by_holder`: the consequence for runs of the
  three primitives.
-/

namespace AsyncSimple

open Transition

namespace Monitor

variable {σ γ ω ρ ι : Type}

/-! ## The discipline -/

/-- Every release was by the owner, and only the owner is inside. -/
structure LockDiscipline (s : System σ γ ω ρ ι) : Prop where
  released : ∀ r ∈ s.releases, r.2 = some r.1
  owned : ∀ i, (s.pc i).Inside → s.owner = some i
  exclusive : ∀ i j, (s.pc i).Inside → (s.pc j).Inside → i = j

/-- A {lit}`Yield` throws in the {lit}`coLock` that takes the lock again after
the wait on a condition variable: the coroutine is canceled, or it has no
executor. -/
def RelockThrows (s : System σ γ ω ρ ι) : Label ω ι → Prop
  | .go i => match s.pc i with
      | .yield .again _ _ => s.canceled i = true ∨ s.executor i = false
      | .yielded .again _ _ => s.canceled i = true
      | _ => False
  | _ => False

instance (s : System σ γ ω ρ ι) (l : Label ω ι) : Decidable (RelockThrows s l) := by
  unfold RelockThrows
  split
  · split <;> infer_instance
  · infer_instance

/-- The semaphore starts at zero.  Coroutine {lit}`i` waits in {lit}`acquire`;
coroutine {lit}`j` releases one unit and wakes {lit}`i` up, which is canceled and
spins for the lock that {lit}`j` still holds until it yields. -/
def canceledWhileRelocking (i j k : Fin 3) : List (Label CountingSemaphore.Op (Fin 3)) :=
  [.call i .acquire, .go i, .go i, .go i, .go i, .call j (.release 1), .go j, .go j, .go j,
    .terminate i, .go i, .go i] ++ List.replicate 1027 (.go i) ++ [.call k .tryAcquire, .go k]

/-- Coroutine 0 releases the lock of coroutine 1, and coroutine 2 enters while
1 is still inside. -/
theorem foreign_release :
    ∃ s, (machine (CountingSemaphore.primitive 1) CountingSemaphore.spinCount).run
        (System.initial 0 fun _ => true) (canceledWhileRelocking 0 1 2) = some s ∧
      (0, some 1) ∈ s.releases ∧ (s.pc 1).Inside ∧ (s.pc 2).Inside ∧ ¬ LockDiscipline s := by
  rcases Machine.exists_run_of_any
    (machine (CountingSemaphore.primitive 1) CountingSemaphore.spinCount)
    (System.initial 0 fun _ => true) (canceledWhileRelocking 0 1 2)
    (fun s => (0, some 1) ∈ s.releases ∧ (s.pc 1).Inside ∧ (s.pc 2).Inside)
    (by decide +kernel) with ⟨s, hrun, hreleased, hfirst, hsecond⟩
  refine ⟨s, hrun, hreleased, hfirst, hsecond, ?_⟩
  intro hdiscipline
  have hone := hdiscipline.exclusive 1 2 hfirst hsecond
  exact absurd hone (by decide)

/-! ## The invariant -/

/-- The lock is taken exactly when it has an owner, a coroutine inside is the
owner, and no exception is on its way through a destructor. -/
structure OwnerInv (s : System σ γ ω ρ ι) : Prop where
  locked : s.locked = s.owner.isSome
  inside : ∀ i, (s.pc i).Inside → s.owner = some i
  holder : ∀ i, s.owner = some i → (s.pc i).Inside ∨ s.pc i = .aborted
  steady : ∀ i, s.pc i ≠ .unwind
  releases : ∀ r ∈ s.releases, r.2 = some r.1

theorem OwnerInv.initial (value : σ) (executor : ι → Bool) :
    OwnerInv (System.initial (γ := γ) (ω := ω) (ρ := ρ) value executor) := by
  constructor <;> simp [System.initial, Pc.Inside]

theorem OwnerInv.discipline {s : System σ γ ω ρ ι} (h : OwnerInv s) : LockDiscipline s where
  released := h.releases
  owned := h.inside
  exclusive := by
    intro i j hi hj
    have howner := h.inside i hi
    rw [h.inside j hj] at howner
    exact (Option.some.inj howner).symm

@[simp]
theorem Pc.wake_inside {pc : Pc γ ω} : pc.wake.Inside ↔ pc.Inside := by
  cases pc <;> simp [Pc.wake, Pc.Inside]

theorem Pc.wake_ne_unwind {pc : Pc γ ω} (h : pc ≠ .unwind) : pc.wake ≠ .unwind := by
  cases pc <;> simp_all [Pc.wake]

namespace OwnerInv

variable {s s' : System σ γ ω ρ ι}

theorem owner_eq_none (h : OwnerInv s) (hfree : s.locked = false) : s.owner = none := by
  have hlocked := h.locked
  rw [hfree] at hlocked
  exact Option.not_isSome_iff_eq_none.mp (by simp [← hlocked])

/-- The lock, its owner and the program points are all that matters. -/
theorem congr (h : OwnerInv s) (hlocked : s'.locked = s.locked) (howner : s'.owner = s.owner)
    (hpc : s'.pc = s.pc) (hreleases : s'.releases = s.releases) : OwnerInv s' := by
  refine ⟨?_, ?_, ?_, ?_, ?_⟩
  · rw [hlocked, howner]
    exact h.locked
  · rw [hpc, howner]
    exact h.inside
  · rw [hpc, howner]
    exact h.holder
  · rw [hpc]
    exact h.steady
  · rw [hreleases]
    exact h.releases

variable [DecidableEq ι]

/-- Moves of a coroutine that does not own the lock. -/
theorem goto_outside (h : OwnerInv s) {i : ι} {pc : Pc γ ω}
    (hi : ¬ (s.pc i).Inside ∧ s.pc i ≠ .aborted) (hpc : ¬ pc.Inside) (hne : pc ≠ .unwind) :
    OwnerInv (s.goto i pc) where
  locked := h.locked
  inside := by
    intro j hj
    by_cases hji : j = i
    · subst hji
      exact absurd (by simpa [System.goto] using hj) hpc
    · exact h.inside j (by simpa [System.goto, hji] using hj)
  holder := by
    intro j hj
    have hholder := h.holder j hj
    by_cases hji : j = i
    · subst hji
      exact absurd hholder (not_or.mpr hi)
    · simpa [System.goto, hji] using hholder
  steady := by
    intro j
    by_cases hji : j = i
    · subst hji
      simpa [System.goto] using hne
    · simpa [System.goto, hji] using h.steady j
  releases := h.releases

/-- Moves of the owner. -/
theorem goto_owner (h : OwnerInv s) {i : ι} {pc : Pc γ ω} (howner : s.owner = some i)
    (hpc : pc.Inside ∨ pc = .aborted) : OwnerInv (s.goto i pc) where
  locked := h.locked
  inside := by
    intro j hj
    by_cases hji : j = i
    · subst hji
      exact howner
    · exact h.inside j (by simpa [System.goto, hji] using hj)
  holder := by
    intro j hj
    by_cases hji : j = i
    · subst hji
      simpa [System.goto] using hpc
    · simpa [System.goto, hji] using h.holder j hj
  steady := by
    intro j
    by_cases hji : j = i
    · subst hji
      rcases hpc with hinside | rfl
      · cases pc <;> simp_all [System.goto, Pc.Inside]
      · simp [System.goto]
    · simpa [System.goto, hji] using h.steady j
  releases := h.releases

/-- The exchange of a free lock. -/
theorem enter (h : OwnerInv s) {i : ι} {op : ω} {k : Nat} (hfree : s.locked = false) :
    OwnerInv ((s.take i).goto i (.inside op k)) := by
  have hnone := h.owner_eq_none hfree
  have hout : ∀ j, ¬ (s.pc j).Inside := by
    intro j hj
    have howner := h.inside j hj
    rw [hnone] at howner
    cases howner
  refine ⟨rfl, ?_, ?_, ?_, h.releases⟩
  · intro j hj
    by_cases hji : j = i
    · subst hji
      rfl
    · exact absurd (by simpa [System.goto, System.take, hji] using hj) (hout j)
  · intro j hj
    have hji : i = j := Option.some.inj hj
    subst hji
    exact Or.inl (by simp [System.goto, Pc.Inside])
  · intro j
    by_cases hji : j = i
    · subst hji
      simp [System.goto]
    · simpa [System.goto, System.take, hji] using h.steady j

/-- The owner releases the lock. -/
theorem unlock (h : OwnerInv s) {i : ι} {pc : Pc γ ω} (howner : s.owner = some i)
    (hpc : ¬ pc.Inside) (hne : pc ≠ .unwind) : OwnerInv (s.unlock i pc) := by
  have hlocked : s.locked = true := by
    rw [h.locked, howner]
    rfl
  rw [System.unlock, if_pos hlocked]
  refine ⟨rfl, ?_, by simp, ?_, ?_⟩
  · intro j hj
    by_cases hji : j = i
    · subst hji
      exact absurd (by simpa using hj) hpc
    · have hother := h.inside j (by simpa [hji] using hj)
      rw [howner] at hother
      exact absurd (Option.some.inj hother).symm hji
  · intro j
    by_cases hji : j = i
    · subst hji
      simpa using hne
    · simpa [hji] using h.steady j
  · intro r hr
    rcases List.mem_append.mp hr with hold | hnew
    · exact h.releases r hold
    · rw [List.mem_singleton] at hnew
      rw [hnew]
      exact howner

/-- An exception out of the first {lit}`coLock` meets no {lit}`unique_lock`. -/
theorem throw_first (h : OwnerInv s) {i : ι} {op : ω} {e : YieldError}
    (hi : ¬ (s.pc i).Inside ∧ s.pc i ≠ .aborted) : OwnerInv (s.throw i .first op e) := by
  have hidle : OwnerInv (s.goto i .idle) := h.goto_outside hi (by simp [Pc.Inside]) (by simp)
  exact congr hidle rfl rfl rfl rfl

/-! ## Steps -/

variable {P : Primitive σ γ ω ρ} {spinCount : Int}

theorem insideStep (h : OwnerInv s) {i : ι} {op : ω} {k : Nat} (howner : s.owner = some i) :
    OwnerInv (insideStep P s i op k) := by
  unfold Monitor.insideStep
  split
  · exact h.unlock howner (by simp [Pc.Inside]) (by simp)
  · split
    · exact h.goto_owner howner (by simp [Pc.Inside])
    · split
      · exact h.goto_owner howner (by simp)
      · refine congr (h.goto_owner howner (Or.inl ?_)) rfl rfl rfl rfl
        split <;> simp [Pc.Inside]

variable [DecidableEq γ]

theorem notify (h : OwnerInv s) (n : Notification γ) : OwnerInv (s.notify n) where
  locked := h.locked
  inside := by
    intro j hj
    refine h.inside j ?_
    simp only [System.notify] at hj
    split at hj
    · exact Pc.wake_inside.mp hj
    · exact hj
  holder := by
    intro j hj
    simp only [System.notify]
    split
    · rcases h.holder j hj with hinside | haborted
      · exact Or.inl (Pc.wake_inside.mpr hinside)
      · exact Or.inr (by rw [haborted]; rfl)
    · exact h.holder j hj
  steady := by
    intro j
    simp only [System.notify]
    split
    · exact Pc.wake_ne_unwind (h.steady j)
    · exact h.steady j
  releases := h.releases

/-- A step of a coroutine keeps the invariant unless it throws while it takes
the lock again. -/
theorem coroutineStep (h : OwnerInv s) {i : ι} (hquiet : ¬ RelockThrows s (.go i))
    (hstep : coroutineStep P spinCount s i = some s') : OwnerInv s' := by
  unfold Monitor.coroutineStep at hstep
  have hinside := h.inside i
  cases hpc : s.pc i <;> simp only [hpc, reduceCtorEq] at hstep
  case exchange phase op k counter =>
    split at hstep
    · next hfree =>
        cases hstep
        exact h.enter hfree
    · split at hstep <;> cases hstep <;>
        exact h.goto_outside (by simp [hpc, Pc.Inside]) (by simp [Pc.Inside]) (by simp)
  case spin phase op k counter =>
    split at hstep
    · split at hstep <;> cases hstep <;>
        exact h.goto_outside (by simp [hpc, Pc.Inside]) (by simp [Pc.Inside]) (by simp)
    · cases hstep
      exact h.goto_outside (by simp [hpc, Pc.Inside]) (by simp [Pc.Inside]) (by simp)
  case yield phase op k =>
    cases phase with
    | first =>
        split at hstep
        · cases hstep
          exact h.throw_first (by simp [hpc, Pc.Inside])
        · split at hstep
          · cases hstep
            exact h.goto_outside (by simp [hpc, Pc.Inside]) (by simp [Pc.Inside]) (by simp)
          · cases hstep
            exact h.throw_first (by simp [hpc, Pc.Inside])
    | again =>
        simp only [RelockThrows, hpc, not_or, Bool.not_eq_true, Bool.not_eq_false] at hquiet
        simp only [hquiet.1, hquiet.2, Bool.false_eq_true, if_false, if_true] at hstep
        cases hstep
        exact h.goto_outside (by simp [hpc, Pc.Inside]) (by simp [Pc.Inside]) (by simp)
  case yielded phase op k =>
    split at hstep
    · next hcanceled =>
        cases hstep
        cases phase with
        | first => exact h.throw_first (by simp [hpc, Pc.Inside])
        | again => exact absurd hcanceled (by simpa [RelockThrows, hpc] using hquiet)
    · cases hstep
      exact h.goto_outside (by simp [hpc, Pc.Inside]) (by simp [Pc.Inside]) (by simp)
  case inside op k =>
    cases hstep
    exact h.insideStep (hinside (by simp [hpc, Pc.Inside]))
  case push op k =>
    split at hstep
    · cases hstep
    · cases hstep
      have howner := hinside (by simp [hpc, Pc.Inside])
      have hleave : OwnerInv (s.goto i (.leave op k false)) := 
        h.goto_owner howner (by simp [Pc.Inside])
      exact congr hleave rfl rfl rfl rfl
  case leave op k popped =>
    cases hstep
    have howner := hinside (by simp [hpc, Pc.Inside])
    cases popped <;> exact h.unlock howner (by simp [Pc.Inside]) (by simp)
  case woken op k =>
    cases hstep
    exact h.goto_outside (by simp [hpc, Pc.Inside]) (by simp [Pc.Inside]) (by simp)
  case notifying op k n =>
    cases hstep
    have howner := hinside (by simp [hpc, Pc.Inside])
    exact (h.goto_owner howner (by simp [Pc.Inside])).notify n
  case unwind => exact absurd hpc (h.steady i)

theorem step (h : OwnerInv s) {l : Label ω ι} (hquiet : ¬ RelockThrows s l)
    (hstep : step P spinCount s l = some s') : OwnerInv s' := by
  cases l with
  | call i op =>
      simp only [Monitor.step] at hstep
      split at hstep
      · next hpc =>
          split at hstep <;> cases hstep <;>
            exact h.goto_outside (by simp [hpc, Pc.Inside]) (by simp [Pc.Inside]) (by simp)
      · cases hstep
  | go i => exact h.coroutineStep hquiet hstep
  | terminate i =>
      cases hstep
      exact congr h rfl rfl rfl rfl

/-- Every run of a primitive in which no {lit}`Yield` throws while the lock is
taken again keeps the invariant. -/
theorem of_run {value : σ} {executor : ι → Bool} {ls : List (Label ω ι)}
    (hquiet : (machine P spinCount).RunsWithin (fun s l => ¬ RelockThrows s l)
      (System.initial value executor) ls)
    (hrun : (machine P spinCount).run (System.initial value executor) ls = some s) :
    OwnerInv s :=
  Machine.runsWithin_invariant _ (fun _ _ _ h hok hstep => h.step hok hstep)
    (OwnerInv.initial value executor) hquiet hrun

end OwnerInv

/-! ## The three primitives -/

/-- In every run in which no {lit}`Yield` throws while a coroutine takes the
lock again after its wait, the lock is released by its holder only and at most
one coroutine is inside. -/
theorem spinLock_released_by_holder [DecidableEq ι] (spinCount : Int) (executor : ι → Bool) :
    (∀ (leastMaxValue desired : UInt64) (ls : List (Label CountingSemaphore.Op ι)) s,
      (machine (CountingSemaphore.primitive leastMaxValue) spinCount).RunsWithin
        (fun s l => ¬ RelockThrows s l) (System.initial desired executor) ls →
      (machine (CountingSemaphore.primitive leastMaxValue) spinCount).run
        (System.initial desired executor) ls = some s → LockDiscipline s) ∧
    (∀ (count : UInt64) (ls : List (Label Latch.Op ι)) s,
      (machine Latch.primitive spinCount).RunsWithin
        (fun s l => ¬ RelockThrows s l) (System.initial count executor) ls →
      (machine Latch.primitive spinCount).run
        (System.initial count executor) ls = some s → LockDiscipline s) ∧
    ∀ (ls : List (Label SharedMutex.Op ι)) s,
      (machine SharedMutex.primitive spinCount).RunsWithin
        (fun s l => ¬ RelockThrows s l) (System.initial 0 executor) ls →
      (machine SharedMutex.primitive spinCount).run
        (System.initial 0 executor) ls = some s → LockDiscipline s := by
  refine ⟨?_, ?_, ?_⟩
  · intro leastMaxValue desired ls s hquiet hrun
    exact (OwnerInv.of_run hquiet hrun).discipline
  · intro count ls s hquiet hrun
    exact (OwnerInv.of_run hquiet hrun).discipline
  · intro ls s hquiet hrun
    exact (OwnerInv.of_run hquiet hrun).discipline

/-- A writer waits for a reader, is woken up and takes the lock again. -/
def writerAfterReader (i j : Fin 2) : List (Label SharedMutex.Op (Fin 2)) :=
  [.call i .coLockShared, .go i, .go i, .go i, .call j .coLock, .go j, .go j, .go j, .go j, .go j,
    .call i .unlockShared, .go i, .go i, .go i, .go j, .go j, .go j, .go i, .go j, .go j,
    .go j, .go j]

theorem spinLock_released_by_holder_writerAfterReader :
    ∃ s, (machine SharedMutex.primitive 0).run
        (System.initial 0 fun _ => true) (writerAfterReader 0 1) = some s ∧
      s.releases = [(0, some 0), (1, some 1), (0, some 0)] ∧ (s.pc 1).Inside ∧
      LockDiscipline s := by
  rcases Machine.exists_run_of_any (machine SharedMutex.primitive 0)
    (System.initial 0 fun _ => true) (writerAfterReader 0 1)
    (fun s => s.releases = [(0, some 0), (1, some 1), (0, some 0)] ∧ (s.pc 1).Inside)
    (by decide) with ⟨s, hrun, hreleases, hinside⟩
  exact ⟨s, hrun, hreleases, hinside,
    (spinLock_released_by_holder 0 fun _ => true).2.2 (writerAfterReader 0 1) s (by decide) hrun⟩

end Monitor

end AsyncSimple
