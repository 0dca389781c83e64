import AsyncSimple.Coro.Mutex

/-!
# Exclusion and order of service of the coroutine mutex

The invariant names the contents of the two lists.  Each kind of change a step
can make, taking the lock, queueing, releasing and handing over, keeps it by
its own lemma; the step lemma puts them together.

Main results:

- Theorem {lit}`Inv.step`: every step keeps the invariant.
- Theorem {lit}`Inv.served`: what the last step of {lit}`unlock` does.
- Theorem {lit}`mutex_fair_exclusion`: exclusion, no lost waiter, hand-over and
  service in the order of arrival.
-/

namespace AsyncSimple

open Transition PointerList

namespace Mutex

variable {ι : Type}

/-! ## The invariant -/

/-- The newly queued awaiters found from {lit}`_state`. -/
def Word.Lists (next : ι → Option ι) : Word ι → List ι → Prop
  | .unlockedState, lifo => lifo = []
  | .awaiters head, lifo => Chain next head lifo

/-- What a coroutine at a program point relies on: a caller of {lit}`unlock`
holds the lock, and past its reads the lists still are as it has seen them. -/
def Pc.Relies (holds : Bool) (lifo fifo : List ι) : Pc ι → Prop
  | .unlockLoad => holds = true
  | .unlockRelease => holds = true ∧ fifo = []
  | .unlockDrain => holds = true ∧ fifo = [] ∧ lifo ≠ []
  | .aborted => False
  | _ => True

/-- The invariant, with the contents of the two lists. -/
structure Inv (s : System ι) (lifo fifo : List ι) : Prop where
  queued : s.state.Lists s.next lifo
  waiting : Chain s.next s.waiters fifo
  nodup : (lifo ++ fifo).Nodup
  suspended : ∀ i, s.pc i = .suspended ↔ i ∈ lifo ++ fifo
  unlocked : s.state = .unlockedState → fifo = [] ∧ ∀ i, s.holds i = false
  locked : s.state ≠ .unlockedState → ∃ i, s.holds i = true
  exclusive : ∀ i j, s.holds i = true → s.holds j = true → i = j
  relies : ∀ i, (s.pc i).Relies (s.holds i) lifo fifo
  order : s.enqueued = s.granted ++ fifo ++ lifo.reverse

theorem Inv.initial (next : ι → Option ι) : Inv (System.initial next) [] [] := by
  constructor <;> simp [System.initial, Word.Lists, Pc.Relies]

theorem Pc.Relies.holds {h : Bool} {lifo fifo : List ι} {pc : Pc ι}
    (hrelies : pc.Relies h lifo fifo) (hunlocking : pc.Unlocking) : h = true := by
  cases pc with
  | unlockLoad => exact hrelies
  | unlockRelease | unlockDrain => exact hrelies.1
  | _ => cases hunlocking

/-- A coroutine outside {lit}`unlock` relies on nothing. -/
theorem Pc.Relies.of_not_unlocking {h h' : Bool} {lifo fifo lifo' fifo' : List ι} {pc : Pc ι}
    (hrelies : pc.Relies h lifo fifo) (hout : ¬ pc.Unlocking) : pc.Relies h' lifo' fifo' := by
  cases pc with
  | unlockLoad | unlockRelease | unlockDrain => exact absurd trivial hout
  | aborted => exact hrelies
  | _ => trivial

/-- The state in which a caller of {lit}`unlock` has reversed the newly queued
awaiters and stands where it looks at the waiters again. -/
def System.takeOver [DecidableEq ι] [Fintype ι] (s : System ι) (i latest : ι) : System ι :=
  let reversed := reverseOnto (Fintype.card ι) s.next (some latest) none
  { s with
    state := .awaiters none
    waiters := reversed.2
    next := reversed.1
    pc := Function.update s.pc i .unlockLoad }

namespace Inv

variable {s : System ι} {lifo fifo : List ι}

/-- Only the holder is inside {lit}`unlock`. -/
theorem not_unlocking (h : Inv s lifo fifo) {i j : ι} (hi : s.holds i = true) (hj : j ≠ i) :
    ¬ (s.pc j).Unlocking := by
  intro hunlocking
  have hholds := (h.relies j).holds hunlocking
  exact hj (h.exclusive j i hholds hi)

theorem state_ne_of_holds (h : Inv s lifo fifo) {i : ι} (hi : s.holds i = true) :
    s.state ≠ .unlockedState := by
  intro hstate
  have hnobody := (h.unlocked hstate).2 i
  rw [hi] at hnobody
  exact Bool.noConfusion hnobody

theorem lists_nil_of_unlocked (h : Inv s lifo fifo) (hstate : s.state = .unlockedState) :
    lifo = [] ∧ fifo = [] := by
  have hqueued := h.queued
  rw [hstate] at hqueued
  exact ⟨hqueued, (h.unlocked hstate).1⟩

/-- While the lock is held, a word that is not null points to an awaiter. -/
theorem lifo_ne_nil (h : Inv s lifo fifo) {i : ι} (hi : s.holds i = true)
    (hstate : s.state ≠ .awaiters none) : lifo ≠ [] := by
  intro hnil
  have hqueued := h.queued
  cases hword : s.state with
  | unlockedState => exact h.state_ne_of_holds hi hword
  | awaiters head =>
      rw [hword, hnil] at hqueued
      have hnull : head = none := hqueued
      exact hstate (by rw [hword, hnull])

theorem exists_latest (h : Inv s lifo fifo) {i : ι} (hi : s.holds i = true)
    (hlifo : lifo ≠ []) : ∃ latest, s.state = .awaiters (some latest) := by
  have hqueued := h.queued
  cases hword : s.state with
  | unlockedState => exact absurd hword (h.state_ne_of_holds hi)
  | awaiters head =>
      rw [hword] at hqueued
      cases head with
      | none => exact absurd (chain_none.mp hqueued) hlifo
      | some latest => exact ⟨latest, rfl⟩

theorem nobody_suspended (h : Inv s lifo fifo) (hlifo : lifo = []) (hfifo : fifo = []) (i : ι) :
    s.pc i ≠ .suspended := by
  intro hsusp
  have hmem := (h.suspended i).mp hsusp
  simp [hlifo, hfifo] at hmem

/-- The first waiter is not a coroutine that runs. -/
theorem first_ne {w : ι} {rest : List ι} (h : Inv s lifo (w :: rest)) {i : ι}
    (hi : s.pc i ≠ .suspended) : w ≠ i := by
  rintro rfl
  exact hi ((h.suspended w).mpr (by simp))

variable [DecidableEq ι]

/-! ## The changes a step can make -/

theorem goto (h : Inv s lifo fifo) {i : ι} {pc : Pc ι} (hi : s.pc i ≠ .suspended)
    (hpc : pc ≠ .suspended) (hrelies : pc.Relies (s.holds i) lifo fifo) :
    Inv (s.goto i pc) lifo fifo where
  queued := h.queued
  waiting := h.waiting
  nodup := h.nodup
  suspended := by
    intro j
    by_cases hj : j = i
    · subst hj
      have hmem := mt (h.suspended j).mpr hi
      simp [System.goto, hpc, hmem]
    · simpa [System.goto, hj] using h.suspended j
  unlocked := h.unlocked
  locked := h.locked
  exclusive := h.exclusive
  relies := by
    intro j
    by_cases hj : j = i
    · subst hj
      simpa [System.goto] using hrelies
    · simpa [System.goto, hj] using h.relies j
  order := h.order

/-- An awaiter that is not queued may write its own {lit}`_next`. -/
theorem link (h : Inv s lifo fifo) {i : ι} {head : Option ι} (hi : s.pc i ≠ .suspended) :
    Inv (s.link i head) lifo fifo := by
  have hmem := mt (h.suspended i).mpr hi
  rw [List.mem_append, not_or] at hmem
  refine { h with queued := ?_, waiting := h.waiting.update hmem.2 }
  have hqueued := h.queued
  cases hstate : s.state with
  | unlockedState =>
      rw [hstate] at hqueued
      simpa [System.link, hstate, Word.Lists] using hqueued
  | awaiters first =>
      rw [hstate] at hqueued
      simpa [System.link, hstate, Word.Lists] using Chain.update hqueued hmem.1

theorem acquire (h : Inv s lifo fifo) {i : ι} (hstate : s.state = .unlockedState) :
    Inv (s.acquire i) lifo fifo := by
  rcases h.lists_nil_of_unlocked hstate with ⟨rfl, rfl⟩
  have hnobody := (h.unlocked hstate).2
  have hrun := h.nobody_suspended rfl rfl
  have hout : ∀ j, ¬ (s.pc j).Unlocking := by
    intro j hunlocking
    have hholds := (h.relies j).holds hunlocking
    rw [hnobody j] at hholds
    exact Bool.noConfusion hholds
  refine ⟨rfl, h.waiting, h.nodup, ?_, ?_, ?_, ?_, ?_, h.order⟩
  · intro j
    by_cases hj : j = i
    · subst hj
      simp [System.acquire]
    · simpa [System.acquire, hj] using h.suspended j
  · simp [System.acquire]
  · intro _
    exact ⟨i, by simp [System.acquire]⟩
  · intro j k hj hk
    by_cases hji : j = i
    · by_cases hki : k = i
      · rw [hji, hki]
      · simp [System.acquire, hki, hnobody k] at hk
    · simp [System.acquire, hji, hnobody j] at hj
  · intro j
    by_cases hj : j = i
    · subst hj
      simp [System.acquire, Pc.Relies]
    · simpa [System.acquire, hj] using (h.relies j).of_not_unlocking (hout j)

theorem enqueue (h : Inv s lifo fifo) {i : ι} {head : Option ι}
    (hi : s.pc i ≠ .suspended) (hout : ¬ (s.pc i).Unlocking) (hstate : s.state = .awaiters head) :
    Inv ((s.link i head).enqueue i) (i :: lifo) fifo := by
  have hmem := mt (h.suspended i).mpr hi
  rw [List.mem_append, not_or] at hmem
  have hqueued := h.queued
  rw [hstate] at hqueued
  have hlocked := h.locked (by simp [hstate])
  refine ⟨Chain.push hqueued hmem.1, h.waiting.update hmem.2, ?_, ?_, ?_, ?_, h.exclusive, ?_, ?_⟩
  · rw [List.cons_append, List.nodup_cons]
    exact ⟨by simpa using hmem, h.nodup⟩
  · intro j
    by_cases hj : j = i
    · subst hj
      simp [System.enqueue]
    · simpa [System.enqueue, System.link, hj] using h.suspended j
  · simp [System.enqueue]
  · intro _
    exact hlocked
  · intro j
    by_cases hj : j = i
    · subst hj
      simp [System.enqueue, Pc.Relies]
    · -- a longer list of newly queued awaiters is still not empty
      have hrelies := h.relies j
      cases hpc : s.pc j <;> simp_all [System.enqueue, System.link, Pc.Relies]
  · simp [System.enqueue, System.link, h.order]

theorem release (h : Inv s lifo fifo) {i : ι} (hi : s.pc i = .unlockRelease)
    (hstate : s.state = .awaiters none) :
    Inv (s.release i) lifo fifo ∧ lifo = [] ∧ fifo = [] := by
  have hrelies := h.relies i
  rw [hi] at hrelies
  rcases hrelies with ⟨hholds, hfifo⟩
  have hqueued := h.queued
  rw [hstate] at hqueued
  have hlifo : lifo = [] := by simpa [Word.Lists] using hqueued
  have hfree : ∀ j, (s.release i).holds j = false := by
    intro j
    by_cases hj : j = i
    · simp [System.release, hj]
    · have hne : s.holds j ≠ true := fun hjt => hj (h.exclusive j i hjt hholds)
      simpa [System.release, hj] using hne
  refine ⟨⟨hlifo, h.waiting, h.nodup, ?_, fun _ => ⟨hfifo, hfree⟩, ?_, ?_, ?_, h.order⟩, hlifo,
    hfifo⟩
  · intro j
    by_cases hj : j = i
    · subst hj
      simp [System.release, hlifo, hfifo]
    · simpa [System.release, hj] using h.suspended j
  · simp [System.release]
  · intro j k hj
    rw [hfree j] at hj
    exact Bool.noConfusion hj
  · intro j
    by_cases hj : j = i
    · subst hj
      simp [System.release, Pc.Relies]
    · simpa [System.release, hj] using (h.relies j).of_not_unlocking (h.not_unlocking hholds hj)

/-- Handing the lock over to the first of the waiters. -/
theorem resume {w : ι} {rest : List ι} (h : Inv s lifo (w :: rest)) {i : ι}
    (hi : s.pc i ≠ .suspended) (hholds : s.holds i = true) :
    Inv (s.resume i w) lifo rest := by
  have hwi := h.first_ne hi
  have hnodup := h.nodup
  rw [List.nodup_middle] at hnodup
  rcases List.nodup_cons.mp hnodup with ⟨hwmem, hnodup⟩
  have himem := mt (h.suspended i).mpr hi
  refine ⟨h.queued, h.waiting.2, hnodup, ?_, ?_, ?_, ?_, ?_, ?_⟩
  · intro j
    by_cases hjw : j = w
    · subst hjw
      simpa [System.resume] using hwmem
    · by_cases hji : j = i
      · subst hji
        simpa [System.resume, hjw] using himem
      · simpa [System.resume, hjw, hji] using h.suspended j
  · intro hstate
    exact absurd hstate (h.state_ne_of_holds hholds)
  · intro _
    exact ⟨w, by simp [System.resume]⟩
  · have honly : ∀ j, (s.resume i w).holds j = true → j = w := by
      intro j hj
      by_contra hjw
      by_cases hji : j = i
      · simp [System.resume, hji, Ne.symm hwi] at hj
      · have hjt : s.holds j = true := by simpa [System.resume, hjw, hji] using hj
        exact hji (h.exclusive j i hjt hholds)
    intro j k hj hk
    rw [honly j hj, honly k hk]
  · intro j
    by_cases hjw : j = w
    · subst hjw
      simp [System.resume, Pc.Relies]
    · by_cases hji : j = i
      · subst hji
        simp [System.resume, hjw, Pc.Relies]
      · simpa [System.resume, hjw, hji] using
          (h.relies j).of_not_unlocking (h.not_unlocking hholds hji)
  · simp [System.resume, h.order]

/-! ## Whole steps -/

theorem tryLockOr (h : Inv s lifo fifo) {i : ι} {otherwise : Pc ι}
    (hi : s.pc i = .running) (hne : otherwise ≠ .suspended)
    (hrelies : otherwise.Relies (s.holds i) lifo fifo) :
    Inv (tryLockOr s i otherwise) lifo fifo := by
  unfold Mutex.tryLockOr
  split
  · next hstate => exact h.acquire hstate
  · exact h.goto (by simp [hi]) hne hrelies

theorem lockAsyncImplStep {s' : System ι} {i : ι} {spurious : Bool} (h : Inv s lifo fifo)
    (hstep : lockAsyncImplStep s i spurious = some s') : ∃ lifo', Inv s' lifo' fifo := by
  unfold Mutex.lockAsyncImplStep at hstep
  split at hstep
  · next hpc =>
      cases hstep
      exact ⟨lifo, h.goto (by simp [hpc]) (by simp) (by simp [Pc.Relies])⟩
  · next hpc =>
      split at hstep
      · next hcas =>
          cases hstep
          exact ⟨lifo, h.acquire hcas.1⟩
      · cases hstep
        exact ⟨lifo, h.goto (by simp [hpc]) (by simp) (by simp [Pc.Relies])⟩
  · next head hpc =>
      split at hstep
      · next hcas =>
          cases hstep
          exact ⟨i :: lifo, h.enqueue (by simp [hpc]) (by simp [hpc, Pc.Unlocking]) hcas.1⟩
      · cases hstep
        have hlinked : Inv (s.link i head) lifo fifo := h.link (by simp [hpc])
        exact ⟨lifo, hlinked.goto (by simp [System.link, hpc]) (by simp) (by simp [Pc.Relies])⟩
  · cases hstep

section Unlock

variable [Fintype ι]

theorem takeOver (h : Inv s lifo []) {i latest : ι} (hholds : s.holds i = true)
    (hpc : s.pc i ≠ .suspended) (hstate : s.state = .awaiters (some latest)) :
    Inv (s.takeOver i latest) [] lifo.reverse := by
  have hgoto : Inv (s.goto i .unlockLoad) lifo [] :=
    h.goto hpc (by simp) (by simpa [Pc.Relies] using hholds)
  have hqueued := h.queued
  rw [hstate] at hqueued
  have hnodup : lifo.Nodup := by simpa using h.nodup
  have hreversed := reverseOnto_spec hnodup.length_le_card h.nodup hqueued (chain_nil.mpr rfl)
  rw [List.append_nil] at hreversed
  refine ⟨rfl, hreversed, by simpa using hnodup, ?_, by simp [System.takeOver], ?_,
    h.exclusive, ?_, ?_⟩
  · intro j
    simpa [System.takeOver, System.goto] using hgoto.suspended j
  · intro _
    exact ⟨i, hholds⟩
  · intro j
    by_cases hj : j = i
    · subst hj
      simpa [System.takeOver, Pc.Relies] using hholds
    · simpa [System.takeOver, hj] using (h.relies j).of_not_unlocking (h.not_unlocking hholds hj)
  · simpa [System.takeOver] using h.order

/-- Draining is taking over followed by the hand-over to the oldest awaiter. -/
theorem exists_drain_eq (h : Inv s lifo []) {i latest : ι} (hholds : s.holds i = true)
    (hpc : s.pc i ≠ .suspended) (hlifo : lifo ≠ [])
    (hstate : s.state = .awaiters (some latest)) :
    ∃ w rest, lifo.reverse = w :: rest ∧ drain s i latest = (s.takeOver i latest).resume i w := by
  have htaken := h.takeOver hholds hpc hstate
  rcases List.exists_cons_of_ne_nil (mt List.reverse_eq_nil_iff.mp hlifo) with ⟨w, rest, hw⟩
  refine ⟨w, rest, hw, ?_⟩
  have hwaiting := htaken.waiting
  rw [hw] at hwaiting
  have hhead : (reverseOnto (Fintype.card ι) s.next (some latest) none).2 = some w := hwaiting.1
  simp [drain, hhead, System.resume, System.takeOver]

/-- Everything a step of {lit}`unlock` can do: go on, release the lock, or hand
it over to the oldest awaiter, before which the newly queued ones may have been
taken over. -/
theorem unlockStep_cases {s' : System ι} {i : ι} (h : Inv s lifo fifo)
    (hstep : unlockStep s i = some s') :
    s.holds i = true ∧
    ((∃ pc, s' = s.goto i pc ∧ s.pc i ≠ .suspended ∧ pc.Unlocking ∧
        pc.Relies (s.holds i) lifo fifo ∧
        ((s.pc i).Unlocking → pc.unlockSteps < (s.pc i).unlockSteps)) ∨
      (s.pc i = .unlockRelease ∧ s.state = .awaiters none ∧ s' = s.release i) ∨
      (∃ t lifo' w rest, Inv t lifo' (w :: rest) ∧ t.pc i ≠ .suspended ∧
        t.holds = s.holds ∧ t.granted = s.granted ∧ t.enqueued = s.enqueued ∧
        (∀ j, t.pc j = .suspended ↔ s.pc j = .suspended) ∧ s' = t.resume i w)) := by
  have hrelies := h.relies i
  unfold Mutex.unlockStep at hstep
  split at hstep
  · next hpc =>
      split at hstep
      · next hholds =>
          rw [if_neg (h.state_ne_of_holds hholds)] at hstep
          cases hstep
          refine ⟨hholds, Or.inl ⟨.unlockLoad, rfl, ?_⟩⟩
          simp [hpc, Pc.Unlocking, Pc.Relies, hholds]
      · cases hstep
  · next hpc =>
      rw [hpc] at hrelies
      have hholds : s.holds i = true := hrelies
      refine ⟨hholds, ?_⟩
      have hwaiting := h.waiting
      cases hw : s.waiters with
      | some w =>
          simp only [hw, Option.some.injEq] at hstep
          rw [hw] at hwaiting
          rcases chain_some hwaiting with ⟨rest, rfl, -⟩
          exact Or.inr (Or.inr ⟨s, lifo, w, rest, h, by simp [hpc], rfl, rfl, rfl,
            fun _ => Iff.rfl, hstep.symm⟩)
      | none =>
          simp only [hw] at hstep
          rw [hw, chain_none] at hwaiting
          split at hstep
          · cases hstep
            refine Or.inl ⟨.unlockRelease, rfl, ?_⟩
            simp [hpc, Pc.Unlocking, Pc.Relies, hholds, hwaiting, Pc.unlockSteps]
          · next hstate =>
              cases hstep
              have hlifo := h.lifo_ne_nil hholds hstate
              refine Or.inl ⟨.unlockDrain, rfl, ?_⟩
              simp [hpc, Pc.Unlocking, Pc.Relies, hholds, hwaiting, hlifo, Pc.unlockSteps]
  · next hpc =>
      rw [hpc] at hrelies
      rcases hrelies with ⟨hholds, hfifo⟩
      refine ⟨hholds, ?_⟩
      split at hstep
      · next hstate =>
          cases hstep
          exact Or.inr (Or.inl ⟨hpc, hstate, rfl⟩)
      · next hstate =>
          cases hstep
          have hlifo := h.lifo_ne_nil hholds hstate
          refine Or.inl ⟨.unlockDrain, rfl, ?_⟩
          simp [hpc, Pc.Unlocking, Pc.Relies, hholds, hfifo, hlifo, Pc.unlockSteps]
  · next hpc =>
      rw [hpc] at hrelies
      rcases hrelies with ⟨hholds, rfl, hlifo⟩
      refine ⟨hholds, ?_⟩
      rcases h.exists_latest hholds hlifo with ⟨latest, hstate⟩
      have hpc' : s.pc i ≠ .suspended := by simp [hpc]
      have htaken := h.takeOver hholds hpc' hstate
      rcases h.exists_drain_eq hholds hpc' hlifo hstate with ⟨w, rest, hw, hdrain⟩
      rw [hw] at htaken
      simp only [hstate, hdrain, Option.some.injEq] at hstep
      refine Or.inr (Or.inr ⟨s.takeOver i latest, [], w, rest, htaken, ?_, rfl, rfl, rfl, ?_,
        hstep.symm⟩)
      · simp [System.takeOver]
      · intro j
        by_cases hj : j = i
        · subst hj
          simp [System.takeOver, hpc]
        · simp [System.takeOver, hj]
  · cases hstep

theorem unlockStep {s' : System ι} {i : ι} (h : Inv s lifo fifo)
    (hstep : unlockStep s i = some s') : ∃ lifo' fifo', Inv s' lifo' fifo' := by
  rcases h.unlockStep_cases hstep with ⟨hholds, hcase⟩
  rcases hcase with ⟨pc, rfl, hi, hpc, hrelies, -⟩ | ⟨hpc, hstate, rfl⟩ |
    ⟨t, lifo', w, rest, ht, hi, hth, -, -, -, rfl⟩
  · have hne : pc ≠ .suspended := by
      rintro rfl
      exact hpc
    exact ⟨lifo, fifo, h.goto hi hne hrelies⟩
  · exact ⟨lifo, fifo, (h.release hpc hstate).1⟩
  · exact ⟨lifo', rest, ht.resume hi (by rw [hth]; exact hholds)⟩

/-- Every step keeps the invariant. -/
theorem step {s' : System ι} {l : Label ι} (h : Inv s lifo fifo) (hstep : step s l = some s') :
    ∃ lifo' fifo', Inv s' lifo' fifo' := by
  cases l with
  | tryLock i =>
      simp only [Mutex.step, Option.ite_none_right_eq_some, Option.some.injEq] at hstep
      rcases hstep with ⟨hi, rfl⟩
      exact ⟨lifo, fifo, h.tryLockOr hi (by simp) (by simp [Pc.Relies])⟩
  | coLock i =>
      simp only [Mutex.step, Option.ite_none_right_eq_some, Option.some.injEq] at hstep
      rcases hstep with ⟨hi, rfl⟩
      exact ⟨lifo, fifo, h.tryLockOr hi (by simp) (by simp [Pc.Relies])⟩
  | lockAsyncImpl i spurious =>
      rcases h.lockAsyncImplStep hstep with ⟨lifo', h'⟩
      exact ⟨lifo', fifo, h'⟩
  | unlock i => exact h.unlockStep hstep

end Unlock

end Inv

/-! ## Service -/

/-- What a completed call of {lit}`unlock` has done: with nobody waiting the
lock is free, otherwise the awaiter that was queued first is the only one that
has been resumed, and it owns the lock. -/
def Served (s s' : System ι) (i : ι) : Prop :=
  ((∀ j, s.pc j ≠ .suspended) ∧ s'.state = .unlockedState ∧ s'.granted = s.granted ∧
      ∀ j, s'.holds j = false) ∨
    ∃ w, s.pc w = .suspended ∧ (s.granted ++ [w]) <+: s.enqueued ∧
      s'.granted = s.granted ++ [w] ∧ s'.pc w = .running ∧
      (∀ j, s'.holds j = true ↔ j = w) ∧ w ≠ i ∧
      ∀ j, j ≠ w → (s'.pc j = .suspended ↔ s.pc j = .suspended)

namespace Inv

variable [DecidableEq ι] [Fintype ι] {s s' : System ι} {lifo fifo : List ι} {i : ι}

/-- The last step of {lit}`unlock` serves the oldest awaiter. -/
theorem served (h : Inv s lifo fifo) (hstep : Mutex.unlockStep s i = some s')
    (hout : ¬ (s'.pc i).Unlocking) : s'.pc i = .running ∧ Served s s' i := by
  rcases h.unlockStep_cases hstep with ⟨hholds, hcase⟩
  rcases hcase with ⟨pc, rfl, -, hpc, -, -⟩ | ⟨hpc, hstate, rfl⟩ |
    ⟨t, lifo', w, rest, ht, hi, hth, htg, hte, htp, rfl⟩
  · exact absurd (by simpa [System.goto] using hpc) hout
  · rcases h.release hpc hstate with ⟨h', hlifo, hfifo⟩
    refine ⟨by simp [System.release], Or.inl ⟨h.nobody_suspended hlifo hfifo, rfl, rfl, ?_⟩⟩
    exact (h'.unlocked rfl).2
  · have hw : t.pc w = .suspended := (ht.suspended w).mpr (by simp)
    have hwi := ht.first_ne hi
    have hti : t.holds i = true := by rw [hth]; exact hholds
    have h' := ht.resume hi hti
    refine ⟨by simp [System.resume, Ne.symm hwi],
      Or.inr ⟨w, (htp w).mp hw, ?_, ?_, ?_, ?_, hwi, ?_⟩⟩
    · rw [← htg, ← hte, ht.order]
      simp [List.append_assoc]
    · simp [System.resume, htg]
    · simp [System.resume]
    · intro j
      constructor
      · intro hj
        exact h'.exclusive j w hj (by simp [System.resume])
      · rintro rfl
        simp [System.resume]
    · intro j hj
      rw [← htp j]
      by_cases hji : j = i
      · subst hji
        simp [System.resume, hj, hi]
      · simp [System.resume, hj, hji]

/-- A caller of {lit}`unlock` can always go on, and its steps run out. -/
theorem unlock_goes_on (h : Inv s lifo fifo) (hunlocking : (s.pc i).Unlocking) :
    ∃ t, Mutex.unlockStep s i = some t ∧ (t.pc i).unlockSteps < (s.pc i).unlockSteps := by
  have hsome : ∃ t, Mutex.unlockStep s i = some t := by
    unfold Mutex.unlockStep
    cases hpc : s.pc i <;> simp only [hpc, Pc.Unlocking] at hunlocking ⊢
    all_goals repeat' split
    all_goals simp
  rcases hsome with ⟨t, ht⟩
  refine ⟨t, ht, ?_⟩
  rcases h.unlockStep_cases ht with ⟨hholds, hcase⟩
  by_cases hout : (t.pc i).Unlocking
  · rcases hcase with ⟨pc, rfl, -, -, -, hlt⟩ | ⟨hpc, hstate, rfl⟩ |
      ⟨u, lifo', w, rest, hu, hi, -, -, -, -, rfl⟩
    · simpa [System.goto] using hlt hunlocking
    · simp [System.release, Pc.Unlocking] at hout
    · simp [System.resume, (hu.first_ne hi).symm, Pc.Unlocking] at hout
  · rw [(h.served ht hout).1]
    cases hpc : s.pc i <;> simp_all [Pc.Unlocking, Pc.unlockSteps]

/-- Whoever gets the lock without having waited finds nobody waiting. -/
theorem no_overtaking {l : Label ι} (h : Inv s lifo fifo) (hstep : Mutex.step s l = some s')
    (hbefore : s.holds i = false) (hafter : s'.holds i = true) :
    (s.pc i = .suspended ∧ s'.granted = s.granted ++ [i]) ∨ ∀ j, s.pc j ≠ .suspended := by
  have hfree : s.state = .unlockedState → ∀ j, s.pc j ≠ .suspended := by
    intro hstate
    rcases h.lists_nil_of_unlocked hstate with ⟨hlifo, hfifo⟩
    exact h.nobody_suspended hlifo hfifo
  have hsame : s'.holds = s.holds → False := by
    intro heq
    rw [heq, hbefore] at hafter
    exact Bool.noConfusion hafter
  cases l with
  | tryLock k =>
      simp only [Mutex.step, Option.ite_none_right_eq_some, Option.some.injEq] at hstep
      rcases hstep with ⟨-, rfl⟩
      unfold Mutex.tryLockOr at hsame
      split at hsame
      · next hstate => exact Or.inr (hfree hstate)
      · exact absurd rfl hsame
  | coLock k =>
      simp only [Mutex.step, Option.ite_none_right_eq_some, Option.some.injEq] at hstep
      rcases hstep with ⟨-, rfl⟩
      unfold Mutex.tryLockOr at hsame
      split at hsame
      · next hstate => exact Or.inr (hfree hstate)
      · exact absurd rfl hsame
  | lockAsyncImpl k spurious =>
      simp only [Mutex.step, Mutex.lockAsyncImplStep] at hstep
      split at hstep
      · cases hstep
        exact absurd rfl hsame
      · split at hstep
        · next hcas => exact Or.inr (hfree hcas.1)
        · cases hstep
          exact absurd rfl hsame
      · split at hstep <;> cases hstep <;> exact absurd rfl hsame
      · cases hstep
  | unlock k =>
      have hcases := h.unlockStep_cases hstep
      by_cases hout : (s'.pc k).Unlocking
      · rcases hcases with
          ⟨-, ⟨pc, rfl, -⟩ | ⟨-, -, rfl⟩ | ⟨t, lifo', w, rest, ht, hi, -, -, -, -, rfl⟩⟩
        · exact absurd rfl hsame
        · simp [System.release, Pc.Unlocking] at hout
        · simp [System.resume, (ht.first_ne hi).symm, Pc.Unlocking] at hout
      · rcases (h.served hstep hout).2 with ⟨hnone, -⟩ | ⟨w, hw, -, hgranted, -, howner, -⟩
        · exact Or.inr hnone
        · have hiw := (howner i).mp hafter
          subst hiw
          exact Or.inl ⟨hw, hgranted⟩

end Inv

/-! ## All runs -/

/-- What the mutex promises in a state: one owner at most; the suspended
coroutines are those on the two lists, each once, and the lists in the order of
service complete the log of arrivals; an unlocked word means empty lists and no
owner; every call of {lit}`unlock` ends and serves the oldest awaiter, whom
nobody overtakes; no assertion fails. -/
structure FairExclusion [DecidableEq ι] [Fintype ι] (s : System ι) : Prop where
  exclusive : ∀ i j, s.holds i = true → s.holds j = true → i = j
  lists : ∃ lifo fifo, s.state.Lists s.next lifo ∧ Chain s.next s.waiters fifo ∧
    (lifo ++ fifo).Nodup ∧ (∀ i, s.pc i = .suspended ↔ i ∈ lifo ++ fifo) ∧
    s.enqueued = s.granted ++ fifo ++ lifo.reverse
  unlocked : s.state = .unlockedState →
    s.waiters = none ∧ ∀ i, s.pc i ≠ .suspended ∧ s.holds i = false
  calls : ∀ i, s.pc i = .running → s.holds i = true →
    ∃ s', step s (.unlock i) = some s' ∧ (s'.pc i).Unlocking
  returns : ∀ i, (s.pc i).Unlocking → ∃ s', step s (.unlock i) = some s' ∧
    (s'.pc i).unlockSteps < (s.pc i).unlockSteps
  serves : ∀ i s', step s (.unlock i) = some s' → ¬ (s'.pc i).Unlocking →
    s'.pc i = .running ∧ Served s s' i
  inOrder : ∀ l s' i, step s l = some s' → s.holds i = false → s'.holds i = true →
    (s.pc i = .suspended ∧ s'.granted = s.granted ++ [i]) ∨ ∀ j, s.pc j ≠ .suspended
  asserts : ∀ i, s.pc i ≠ .aborted

theorem Inv.fairExclusion [DecidableEq ι] [Fintype ι] {s : System ι} {lifo fifo : List ι}
    (h : Inv s lifo fifo) : FairExclusion s where
  exclusive := h.exclusive
  lists := ⟨lifo, fifo, h.queued, h.waiting, h.nodup, h.suspended, h.order⟩
  unlocked := by
    intro hstate
    rcases h.lists_nil_of_unlocked hstate with ⟨hlifo, hfifo⟩
    have hwaiting := h.waiting
    rw [hfifo] at hwaiting
    exact ⟨hwaiting, fun i => ⟨h.nobody_suspended hlifo hfifo i, (h.unlocked hstate).2 i⟩⟩
  calls := by
    intro i hpc hholds
    have hstate := h.state_ne_of_holds hholds
    exact ⟨s.goto i .unlockLoad, by simp [Mutex.step, Mutex.unlockStep, hpc, hholds, hstate],
      by simp [System.goto, Pc.Unlocking]⟩
  returns := fun _ hunlocking => h.unlock_goes_on hunlocking
  serves := fun _ _ hstep hout => h.served hstep hout
  inOrder := fun _ _ _ hstep hbefore hafter => h.no_overtaking hstep hbefore hafter
  asserts := by
    intro i hpc
    have hrelies := h.relies i
    rw [hpc] at hrelies
    exact hrelies

/-- For every finite set of coroutines and every interleaving of their calls,
with spurious failures of the weak exchanges, the mutex keeps its promise. -/
theorem mutex_fair_exclusion [DecidableEq ι] [Fintype ι] (next : ι → Option ι)
    (ls : List (Label ι)) (s : System ι)
    (hrun : machine.run (System.initial next) ls = some s) : FairExclusion s := by
  have hstart : ∃ lifo fifo, Inv (System.initial next) lifo fifo := ⟨[], [], Inv.initial next⟩
  have hkeep : ∀ (s : System ι) (l : Label ι) (s' : System ι),
      (∃ lifo fifo, Inv s lifo fifo) → machine.step s l = some s' →
      ∃ lifo fifo, Inv s' lifo fifo := by
    rintro s l s' ⟨lifo, fifo, h⟩ hstep
    exact h.step hstep
  rcases machine.run_invariant hkeep hstart hrun with ⟨lifo, fifo, h⟩
  exact h.fairExclusion

/-- Two coroutines queue while a third holds the lock and unlocks it. -/
def twoWaiters (i j k : Fin 3) : List (Label (Fin 3)) :=
  [.tryLock i, .coLock j, .lockAsyncImpl j false, .lockAsyncImpl j true, .coLock k,
    .lockAsyncImpl k false, .lockAsyncImpl j false, .lockAsyncImpl k false,
    .lockAsyncImpl k false, .unlock i, .unlock i, .unlock i]

theorem mutex_fair_exclusion_twoWaiters :
    ∃ s, machine.run (System.initial fun _ => none) (twoWaiters 0 1 2) = some s ∧
      (s.enqueued = [1, 2] ∧ s.granted = [1] ∧ s.holds 1 = true ∧ s.waiters = some 2) ∧
      FairExclusion s := by
  rcases machine.exists_run_of_any (System.initial fun _ => none) (twoWaiters 0 1 2)
    (fun s => s.enqueued = [1, 2] ∧ s.granted = [1] ∧ s.holds 1 = true ∧ s.waiters = some 2)
    (by decide) with ⟨s, hrun, hs⟩
  exact ⟨s, hrun, hs, mutex_fair_exclusion _ _ s hrun⟩

end Mutex

end AsyncSimple
