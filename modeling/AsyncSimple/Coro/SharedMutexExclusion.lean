import AsyncSimple.Coro.MonitorMoves
import Mathlib.Data.Nat.Bitwise

/-!
# Exclusion of the shared mutex

Who holds the mutex is read off the results that its operations have returned.
The packed word then is the write-entered flag, set while a writer holds the
mutex or is queued for it, plus the number of the reader locks.

Main results:

- Theorem {lit}`Exclusion.run`: one section of an operation keeps the invariant.
- Theorem {lit}`Exclusion.step`: so does every step in which a lock is given
  back by a holder only.
- Theorem {lit}`sharedMutex_excludes`: a writer excludes everybody else, in
  every run without cancellation.
-/

namespace AsyncSimple

open Transition Monitor

namespace SharedMutex

variable {ι : Type}

/-- States of a shared mutex and its coroutines. -/
abbrev System (ι : Type) := Monitor.System UInt32 Gate Op Bool ι

/-! ## The packed word -/

theorem toNat_readers (state : UInt32) : (readers state).toNat = state.toNat % 2 ^ 31 := by
  have hmax : maxReaders.toNat = 2 ^ 31 - 1 := by decide
  rw [readers, UInt32.toNat_and, hmax, Nat.and_two_pow_sub_one_eq_mod]

theorem readers_eq_zero_iff (state : UInt32) : readers state = 0 ↔ state.toNat % 2 ^ 31 = 0 := by
  rw [← UInt32.toNat_inj, toNat_readers]
  exact Iff.rfl

theorem writeEntered_iff (state : UInt32) :
    writeEntered state = true ↔ 2 ^ 31 ≤ state.toNat := by
  have hflag : writeEnteredFlag.toNat = 2 ^ 31 := by decide
  have hbit : (state &&& writeEnteredFlag).toNat = (state.toNat.testBit 31).toNat * 2 ^ 31 := by
    rw [UInt32.toNat_and, hflag, Nat.and_two_pow]
  have hlt := state.toNat_lt
  have htest : state.toNat.testBit 31 = true ↔ 2 ^ 31 ≤ state.toNat := by
    constructor
    · exact Nat.ge_two_pow_of_testBit
    · intro hle
      rw [Nat.testBit_eq_decide_div_mod_eq]
      simp only [decide_eq_true_eq]
      omega
  rw [← htest]
  simp only [writeEntered, decide_eq_true_eq, ne_eq, ← UInt32.toNat_inj, hbit]
  cases state.toNat.testBit 31 <;> simp

theorem writeEntered_eq_false_iff (state : UInt32) :
    writeEntered state = false ↔ state.toNat < 2 ^ 31 := by
  rw [← Bool.not_eq_true, writeEntered_iff, Nat.not_le]

theorem toNat_setFlag {state : UInt32} (h : state.toNat < 2 ^ 31) :
    (state ||| writeEnteredFlag).toNat = 2 ^ 31 + state.toNat := by
  have hflag : writeEnteredFlag.toNat = 2 ^ 31 := by decide
  have hadd := Nat.two_pow_add_eq_or_of_lt h 1
  rw [Nat.mul_one] at hadd
  rw [UInt32.toNat_or, hflag, Nat.or_comm, hadd]

/-- The test of a reader: no flag, and room for one more. -/
theorem lt_maxReaders_iff (state : UInt32) :
    state < maxReaders ↔ state.toNat < 2 ^ 31 - 1 := by
  have hmax : maxReaders.toNat = 2 ^ 31 - 1 := by decide
  rw [UInt32.lt_iff_toNat_lt, hmax]

theorem toNat_succ {state : UInt32} (h : state.toNat < 2 ^ 31) :
    (state + 1).toNat = state.toNat + 1 := by
  have hone : UInt32.toNat 1 = 1 := rfl
  rw [UInt32.toNat_add, hone]
  omega

theorem toNat_pred {state : UInt32} (h : 0 < state.toNat) :
    (state - 1).toNat = state.toNat - 1 := by
  have hone : UInt32.toNat 1 = 1 := rfl
  have hle : (1 : UInt32) ≤ state := by
    rw [UInt32.le_iff_toNat_le, hone]
    exact h
  rw [UInt32.toNat_sub_of_le _ _ hle, hone]

/-! ## Who holds the mutex -/

/-- One entry for each reader lock that is held, the coroutines that hold the
mutex as writers, and those that have set the flag and wait for the readers. -/
structure Holders (ι : Type) where
  readers : List ι
  writers : List ι
  queued : List ι

variable [DecidableEq ι]

/-- What a result changes.  The first section of {lit}`coLock` sets the flag, the
second one ends when the readers are gone. -/
def Holders.after (h : Holders ι) : ι × Op × Except YieldError Bool → Holders ι
  | (i, .coLock, .ok true) =>
      if i ∈ h.queued then
        { h with queued := h.queued.erase i, writers := i :: h.writers }
      else
        { h with queued := i :: h.queued }
  | (i, .tryLock, .ok true) => { h with writers := i :: h.writers }
  | (i, .unlock, .ok true) => { h with writers := h.writers.erase i }
  | (i, .coLockShared, .ok true) | (i, .tryLockShared, .ok true) =>
      { h with readers := i :: h.readers }
  | (i, .unlockShared, .ok true) => { h with readers := h.readers.erase i }
  | _ => h

namespace Holders

variable (h : Holders ι) (i : ι)

theorem after_coLock : h.after (i, .coLock, .ok true) =
    if i ∈ h.queued then { h with queued := h.queued.erase i, writers := i :: h.writers }
    else { h with queued := i :: h.queued } := rfl

theorem after_tryLock : h.after (i, .tryLock, .ok true) =
    { h with writers := i :: h.writers } := rfl

theorem after_tryLock_false : h.after (i, .tryLock, .ok false) = h := rfl

theorem after_unlock : h.after (i, .unlock, .ok true) =
    { h with writers := h.writers.erase i } := rfl

theorem after_tryLockShared : h.after (i, .tryLockShared, .ok true) =
    { h with readers := i :: h.readers } := rfl

theorem after_tryLockShared_false : h.after (i, .tryLockShared, .ok false) = h := rfl

theorem after_unlockShared : h.after (i, .unlockShared, .ok true) =
    { h with readers := h.readers.erase i } := rfl

end Holders

/-- The holders after the results in a log. -/
def holders (log : List (ι × Op × Except YieldError Bool)) : Holders ι :=
  log.foldl Holders.after ⟨[], [], []⟩

theorem holders_concat (log : List (ι × Op × Except YieldError Bool))
    (entry : ι × Op × Except YieldError Bool) :
    holders (log ++ [entry]) = (holders log).after entry := by
  simp [holders]

omit [DecidableEq ι] in
/-- The part of the word that stands for the writers. -/
def Holders.flag (h : Holders ι) : Nat :=
  if h.queued = [] ∧ h.writers = [] then 0 else 2 ^ 31

/-- Only a holder gives a lock back, and nobody is canceled. -/
def Orderly (s : System ι) : Label Op ι → Prop
  | .call i .unlock => i ∈ (holders s.log).writers
  | .call i .unlockShared => i ∈ (holders s.log).readers
  | .terminate _ => False
  | _ => True

instance (s : System ι) (l : Label Op ι) : Decidable (Orderly s l) := by
  unfold Orderly
  split <;> infer_instance

/-! ## The invariant -/

/-- The word, the holders and the stages of the coroutines. -/
structure Exclusive (value : UInt32) (h : Holders ι) (stage : ι → Option (Op × Nat)) : Prop where
  value : value.toNat = h.flag + h.readers.length
  bound : h.readers.length < 2 ^ 31
  single : h.queued.length + h.writers.length ≤ 1
  exclusive : h.writers ≠ [] → h.readers = []
  queued : ∀ i, i ∈ h.queued ↔ stage i = some (.coLock, 1)
  unlocks : ∀ i, stage i = some (.unlock, 0) → i ∈ h.writers
  unlocksShared : ∀ i, stage i = some (.unlockShared, 0) → i ∈ h.readers

namespace Exclusive

variable {value : UInt32} {h : Holders ι} {stage stage' : ι → Option (Op × Nat)} {i : ι}

omit [DecidableEq ι] in
/-- The flag is set exactly when a writer holds the mutex or is queued. -/
theorem flag_iff (hinv : Exclusive value h stage) :
    2 ^ 31 ≤ value.toNat ↔ ¬ (h.queued = [] ∧ h.writers = []) := by
  have hvalue := hinv.value
  have hbound := hinv.bound
  unfold Holders.flag at hvalue
  split at hvalue
  case isTrue hnone =>
    simp only [hnone, and_self, not_true_eq_false, iff_false, Nat.not_le]
    omega
  case isFalse hsome =>
    simp only [hsome, not_false_eq_true, iff_true]
    omega

omit [DecidableEq ι] in
theorem mod_eq (hinv : Exclusive value h stage) :
    value.toNat % 2 ^ 31 = h.readers.length := by
  have hvalue := hinv.value
  have hbound := hinv.bound
  unfold Holders.flag at hvalue
  split at hvalue
  · omega
  · omega

omit [DecidableEq ι] in
theorem readers_eq_nil (hinv : Exclusive value h stage) (hzero : value.toNat % 2 ^ 31 = 0) :
    h.readers = [] := by
  rw [hinv.mod_eq] at hzero
  exact List.eq_nil_of_length_eq_zero hzero

omit [DecidableEq ι] in
/-- The only writer. -/
theorem writers_eq (hinv : Exclusive value h stage) (hi : i ∈ h.writers) :
    h.writers = [i] ∧ h.queued = [] ∧ h.readers = [] := by
  have hsingle := hinv.single
  have hne : h.writers ≠ [] := List.ne_nil_of_mem hi
  have hpos := List.length_pos_iff.mpr hne
  refine ⟨?_, List.eq_nil_of_length_eq_zero (by omega), hinv.exclusive hne⟩
  rcases List.length_eq_one_iff.mp (by omega : h.writers.length = 1) with ⟨j, hj⟩
  rw [hj] at hi ⊢
  rw [List.mem_singleton.mp hi]

omit [DecidableEq ι] in
/-- The only queued writer. -/
theorem queued_eq (hinv : Exclusive value h stage) (hi : i ∈ h.queued) :
    h.queued = [i] ∧ h.writers = [] := by
  have hsingle := hinv.single
  have hpos := List.length_pos_iff.mpr (List.ne_nil_of_mem hi)
  refine ⟨?_, List.eq_nil_of_length_eq_zero (by omega)⟩
  rcases List.length_eq_one_iff.mp (by omega : h.queued.length = 1) with ⟨j, hj⟩
  rw [hj] at hi ⊢
  rw [List.mem_singleton.mp hi]

omit [DecidableEq ι] in
theorem congr (hinv : Exclusive value h stage) (hstage : ∀ j, stage' j = stage j) :
    Exclusive value h stage' := by
  rw [funext hstage]
  exact hinv

/-- A coroutine begins an operation, as a holder if it gives a lock back. -/
theorem begins (hinv : Exclusive value h stage) {op : Op}
    (hstage : ∀ j, stage' j = if j = i then some (op, 0) else stage j) (hnone : stage i = none)
    (hunlock : op = .unlock → i ∈ h.writers) (hshared : op = .unlockShared → i ∈ h.readers) :
    Exclusive value h stage' := by
  refine ⟨hinv.value, hinv.bound, hinv.single, hinv.exclusive, ?_, ?_, ?_⟩
  · intro j
    rw [hstage j]
    by_cases hj : j = i
    · subst hj
      rw [hinv.queued j, hnone]
      simp
    · rw [if_neg hj]
      exact hinv.queued j
  · intro j hstart
    rw [hstage j] at hstart
    by_cases hj : j = i
    · subst hj
      simp only [if_true, Option.some.injEq, Prod.mk.injEq, and_true] at hstart
      exact hunlock hstart
    · rw [if_neg hj] at hstart
      exact hinv.unlocks j hstart
  · intro j hstart
    rw [hstage j] at hstart
    by_cases hj : j = i
    · subst hj
      simp only [if_true, Option.some.injEq, Prod.mk.injEq, and_true] at hstart
      exact hshared hstart
    · rw [if_neg hj] at hstart
      exact hinv.unlocksShared j hstart

/-- A coroutine that is not queued ends its operation. -/
theorem ends (hinv : Exclusive value h stage)
    (hstage : ∀ j, stage' j = if j = i then none else stage j)
    (hqueued : stage i ≠ some (.coLock, 1)) : Exclusive value h stage' := by
  refine ⟨hinv.value, hinv.bound, hinv.single, hinv.exclusive, ?_, ?_, ?_⟩
  · intro j
    rw [hstage j]
    by_cases hj : j = i
    · subst hj
      rw [hinv.queued j]
      simp [hqueued]
    · rw [if_neg hj]
      exact hinv.queued j
  · intro j hstart
    rw [hstage j] at hstart
    by_cases hj : j = i
    · simp [hj] at hstart
    · rw [if_neg hj] at hstart
      exact hinv.unlocks j hstart
  · intro j hstart
    rw [hstage j] at hstart
    by_cases hj : j = i
    · simp [hj] at hstart
    · rw [if_neg hj] at hstart
      exact hinv.unlocksShared j hstart

/-- A coroutine goes on to its next section with new holders. -/
theorem advance {value' : UInt32} {h' : Holders ι} {op : Op} {k : Nat}
    (hinv : Exclusive value h stage)
    (hstage : ∀ j, stage' j = if j = i then some (op, k + 1) else stage j)
    (hvalue : value'.toNat = h'.flag + h'.readers.length) (hbound : h'.readers.length < 2 ^ 31)
    (hsingle : h'.queued.length + h'.writers.length ≤ 1)
    (hexclusive : h'.writers ≠ [] → h'.readers = [])
    (hqueued : ∀ j, j ≠ i → (j ∈ h'.queued ↔ j ∈ h.queued))
    (hself : i ∈ h'.queued ↔ op = .coLock ∧ k = 0)
    (hwriters : ∀ j, j ≠ i → j ∈ h.writers → j ∈ h'.writers)
    (hreaders : ∀ j, j ≠ i → j ∈ h.readers → j ∈ h'.readers) :
    Exclusive value' h' stage' := by
  refine ⟨hvalue, hbound, hsingle, hexclusive, ?_, ?_, ?_⟩
  · intro j
    rw [hstage j]
    by_cases hj : j = i
    · subst hj
      simp [hself]
    · rw [if_neg hj, hqueued j hj]
      exact hinv.queued j
  · intro j hstart
    rw [hstage j] at hstart
    by_cases hj : j = i
    · simp [hj] at hstart
    · rw [if_neg hj] at hstart
      exact hwriters j hj (hinv.unlocks j hstart)
  · intro j hstart
    rw [hstage j] at hstart
    by_cases hj : j = i
    · simp [hj] at hstart
    · rw [if_neg hj] at hstart
      exact hreaders j hj (hinv.unlocksShared j hstart)

/-! ### The sections -/

theorem enterWrite (hinv : Exclusive value h stage)
    (hstage : ∀ j, stage' j = if j = i then some (.coLock, 1) else stage j)
    (hready : SharedMutex.enterWrite.ready value = true) :
    Exclusive (value ||| writeEnteredFlag) (h.after (i, .coLock, .ok true)) stage' := by
  have hfree : value.toNat < 2 ^ 31 := by
    rw [← writeEntered_eq_false_iff]
    simpa [SharedMutex.enterWrite] using hready
  have hnone : h.queued = [] ∧ h.writers = [] := by
    by_contra hsome
    have hflag := hinv.flag_iff.mpr hsome
    omega
  have hvalue := hinv.value
  rw [Holders.flag, if_pos hnone] at hvalue
  have hafter : h.after (i, .coLock, .ok true) = { h with queued := [i] } := by
    simp [Holders.after_coLock, hnone.1]
  rw [hafter]
  refine hinv.advance hstage ?_ hinv.bound ?_ hinv.exclusive ?_ ?_ ?_ ?_
  · rw [toNat_setFlag hfree]
    simp only [Holders.flag, List.cons_ne_nil, false_and, if_false]
    omega
  · simp [hnone.2]
  · intro j hj
    simp [hj, hnone.1]
  · simp
  · exact fun _ _ hmem => hmem
  · exact fun _ _ hmem => hmem

theorem awaitReaders (hinv : Exclusive value h stage) (hi : stage i = some (.coLock, 1))
    (hstage : ∀ j, stage' j = if j = i then some (.coLock, 2) else stage j)
    (hready : SharedMutex.awaitReaders.ready value = true) :
    Exclusive value (h.after (i, .coLock, .ok true)) stage' := by
  have hmem := (hinv.queued i).mpr hi
  rcases hinv.queued_eq hmem with ⟨hqueued, hwriters⟩
  have hreaders : h.readers = [] := by
    apply hinv.readers_eq_nil
    rw [← readers_eq_zero_iff]
    simpa [SharedMutex.awaitReaders] using hready
  have hvalue := hinv.value
  have hafter : h.after (i, .coLock, .ok true) = ⟨[], [i], []⟩ := by
    simp [Holders.after_coLock, hqueued, hwriters, hreaders]
  rw [hafter]
  refine hinv.advance hstage ?_ (by simp) (by simp) (by simp) ?_ (by simp) ?_ ?_
  · simpa [Holders.flag, hqueued, hreaders] using hvalue
  · intro j hj
    simp [hqueued, hj]
  · intro j hj hw
    rw [hwriters] at hw
    cases hw
  · intro j hj hr
    rw [hreaders] at hr
    cases hr

theorem tryLock (hinv : Exclusive value h stage) (hi : stage i = some (.tryLock, 0))
    (hstage : ∀ j, stage' j = if j = i then some (.tryLock, 1) else stage j) :
    Exclusive (SharedMutex.tryLock.body value).value
      (h.after (i, .tryLock, .ok (SharedMutex.tryLock.body value).result)) stage' := by
  have hnot : i ∉ h.queued := by
    rw [hinv.queued i, hi]
    simp
  by_cases hzero : value = 0
  · have hnone : h.queued = [] ∧ h.writers = [] := by
      by_contra hsome
      have hflag := hinv.flag_iff.mpr hsome
      rw [hzero] at hflag
      exact absurd hflag (by decide)
    have hreaders := hinv.readers_eq_nil (by rw [hzero]; decide)
    have hafter : h.after (i, .tryLock, .ok true) = ⟨[], [i], []⟩ := by
      simp [Holders.after_tryLock, hnone, hreaders]
    simp only [SharedMutex.tryLock, Section.immediate, hzero, if_true, hafter]
    refine hinv.advance hstage ?_ (by simp) (by simp) (by simp) ?_ (by simp) ?_ ?_
    · rfl
    · intro j hj
      simp [hnone.1]
    · intro j hj hw
      rw [hnone.2] at hw
      cases hw
    · intro j hj hr
      rw [hreaders] at hr
      cases hr
  · simp only [SharedMutex.tryLock, Section.immediate, hzero, if_false,
      Holders.after_tryLock_false]
    exact hinv.advance hstage hinv.value hinv.bound hinv.single hinv.exclusive (fun _ _ => Iff.rfl)
      (by simp [hnot]) (fun _ _ hw => hw) fun _ _ hr => hr

theorem unlock (hinv : Exclusive value h stage) (hi : stage i = some (.unlock, 0))
    (hstage : ∀ j, stage' j = if j = i then some (.unlock, 1) else stage j) :
    Exclusive 0 (h.after (i, .unlock, .ok true)) stage' := by
  rcases hinv.writers_eq (hinv.unlocks i hi) with ⟨hwriters, hqueued, hreaders⟩
  have hafter : h.after (i, .unlock, .ok true) = ⟨[], [], []⟩ := by
    simp [Holders.after_unlock, hwriters, hqueued, hreaders]
  rw [hafter]
  refine hinv.advance hstage rfl (by simp) (by simp) (by simp) ?_ (by simp) ?_ ?_
  · intro j hj
    simp [hqueued]
  · intro j hj hw
    rw [hwriters] at hw
    exact absurd (List.mem_singleton.mp hw) hj
  · intro j hj hr
    rw [hreaders] at hr
    cases hr

/-- A reader lock is granted. -/
theorem grant (hinv : Exclusive value h stage) {op : Op} (hop : op ≠ .coLock)
    (hstage : ∀ j, stage' j = if j = i then some (op, 1) else stage j)
    (hready : value < maxReaders) :
    Exclusive (value + 1) { h with readers := i :: h.readers } stage' := by
  rw [lt_maxReaders_iff] at hready
  have hnone : h.queued = [] ∧ h.writers = [] := by
    by_contra hsome
    have hflag := hinv.flag_iff.mpr hsome
    omega
  have hvalue := hinv.value
  rw [Holders.flag, if_pos hnone] at hvalue
  have hsmall : value.toNat < 2 ^ 31 := by omega
  have hnext := toNat_succ hsmall
  refine hinv.advance hstage ?_ ?_ hinv.single ?_ (fun _ _ => Iff.rfl) ?_ (fun _ _ hw => hw) ?_
  · simp only [Holders.flag, hnone, and_self, if_true, List.length_cons]
    omega
  · simp only [List.length_cons]
    omega
  · intro hne
    exact absurd hnone.2 hne
  · simp [hnone.1, hop]
  · intro j hj hr
    exact List.mem_cons_of_mem _ hr

theorem tryLockShared (hinv : Exclusive value h stage) (hi : stage i = some (.tryLockShared, 0))
    (hstage : ∀ j, stage' j = if j = i then some (.tryLockShared, 1) else stage j) :
    Exclusive (SharedMutex.tryLockShared.body value).value
      (h.after (i, .tryLockShared, .ok (SharedMutex.tryLockShared.body value).result)) stage' := by
  have hnot : i ∉ h.queued := by
    rw [hinv.queued i, hi]
    simp
  by_cases hroom : value < maxReaders
  · simp only [SharedMutex.tryLockShared, Section.immediate, hroom, if_true,
      Holders.after_tryLockShared]
    exact hinv.grant (by simp) hstage hroom
  · simp only [SharedMutex.tryLockShared, Section.immediate, hroom, if_false,
      Holders.after_tryLockShared_false]
    exact hinv.advance hstage hinv.value hinv.bound hinv.single hinv.exclusive (fun _ _ => Iff.rfl)
      (by simp [hnot]) (fun _ _ hw => hw) fun _ _ hr => hr

theorem unlockShared (hinv : Exclusive value h stage) (hi : stage i = some (.unlockShared, 0))
    (hstage : ∀ j, stage' j = if j = i then some (.unlockShared, 1) else stage j) :
    Exclusive (value - 1) (h.after (i, .unlockShared, .ok true)) stage' := by
  have hmem := hinv.unlocksShared i hi
  have hnot : i ∉ h.queued := by
    rw [hinv.queued i, hi]
    simp
  have hpos := List.length_pos_iff.mpr (List.ne_nil_of_mem hmem)
  have hvalue := hinv.value
  have hbound := hinv.bound
  have hlength := List.length_erase_of_mem hmem
  have hsome : 0 < value.toNat := by omega
  have hpred := toNat_pred hsome
  refine hinv.advance hstage ?_ ?_ hinv.single ?_ (fun _ _ => Iff.rfl) ?_ (fun _ _ hw => hw) ?_
  · have hflag : (h.after (i, .unlockShared, .ok true)).flag = h.flag := rfl
    rw [hflag]
    simp only [Holders.after_unlockShared]
    omega
  · simp only [Holders.after_unlockShared]
    omega
  · intro hne
    rw [hinv.exclusive hne] at hmem
    cases hmem
  · simpa [Holders.after_unlockShared] using hnot
  · intro j hj hr
    exact (List.mem_erase_of_ne hj).mpr hr

/-- Every section of every operation keeps the invariant. -/
theorem run (hinv : Exclusive value h stage) {op : Op} {k : Nat} {sec : Section UInt32 Gate Bool}
    (hi : stage i = some (op, k)) (hsec : (primitive.sections op)[k]? = some sec)
    (hready : sec.ready value = true)
    (hstage : ∀ j, stage' j = if j = i then some (op, k + 1) else stage j) :
    Exclusive (sec.body value).value (h.after (i, op, .ok (sec.body value).result)) stage' := by
  have hzero : op ≠ .coLock → k = 0 := by
    intro hop
    by_contra hk
    cases op <;> simp_all [primitive]
  cases op with
  | coLock =>
      rcases k with _ | _ | k
      · cases hsec
        exact hinv.enterWrite hstage hready
      · cases hsec
        exact hinv.awaitReaders hi hstage hready
      · simp [primitive] at hsec
  | tryLock =>
      cases hzero (by simp)
      cases hsec
      exact hinv.tryLock hi hstage
  | unlock =>
      cases hzero (by simp)
      cases hsec
      exact hinv.unlock hi hstage
  | coLockShared =>
      cases hzero (by simp)
      cases hsec
      have hroom : value < maxReaders := by simpa [SharedMutex.coLockShared] using hready
      exact hinv.grant (by simp) hstage hroom
  | tryLockShared =>
      cases hzero (by simp)
      cases hsec
      exact hinv.tryLockShared hi hstage
  | unlockShared =>
      cases hzero (by simp)
      cases hsec
      exact hinv.unlockShared hi hstage

end Exclusive

/-! ## Steps -/

/-- The invariant of a mutex with its coroutines. -/
structure Exclusion (s : System ι) : Prop where
  calm : Calm s
  word : Exclusive s.value (holders s.log) fun i => (s.pc i).stage

namespace Exclusion

variable {s s' : System ι} {l : Label Op ι} {spinCount : Int}

theorem initial (executor : ι → Bool) (hexecutor : ∀ i, executor i = true) :
    Exclusion (Monitor.System.initial 0 executor : System ι) where
  calm := Calm.initial 0 executor hexecutor
  word := by
    constructor <;> simp [Monitor.System.initial, holders, Holders.flag, Pc.stage]

omit [DecidableEq ι] in
/-- An operation that ends has run all its sections, or it has not waited. -/
theorem not_queued {i : ι} (h : (s.pc i).stage = none ∨ ∃ op k, (s.pc i).stage = some (op, k) ∧
      (primitive.blocking op = false ∨ (primitive.sections op)[k]? = none ∨
        ∃ sec, (primitive.sections op)[k]? = some sec ∧ sec.asserts s.value = false)) :
    (s.pc i).stage ≠ some (.coLock, 1) := by
  intro hi
  rcases h with hnone | ⟨op, k, hstage, hwhy⟩
  · rw [hnone] at hi
    cases hi
  · rw [hstage] at hi
    cases hi
    rcases hwhy with hblocking | hsec | ⟨sec, hsec, hasserts⟩
    · cases hblocking
    · cases hsec
    · cases hsec
      cases hasserts

theorem move (h : Exclusion s) (horderly : Orderly s l) (hmove : Move primitive s l s') :
    Exclusive s'.value (holders s'.log) fun i => (s'.pc i).stage := by
  rcases hmove.stage_cases with ⟨i, op, rfl, hidle, hvalue, hlog, hstage⟩ |
    ⟨i, op, k, sec, rfl, hi, hsec, hready, hasserts, hvalue, hlog, hstage⟩ |
    ⟨i, hvalue, hlog, hstage, hwhy⟩ | ⟨hvalue, hlog, hsame⟩
  · rw [hvalue, hlog]
    refine h.word.begins hstage (by rw [hidle]; rfl) ?_ ?_
    · intro hop
      subst hop
      exact horderly
    · intro hop
      subst hop
      exact horderly
  · rw [hvalue, hlog, holders_concat]
    exact h.word.run (by rw [hi]; rfl) hsec hready hstage
  · rw [hvalue, hlog]
    exact h.word.ends hstage (not_queued hwhy)
  · rw [hvalue, hlog]
    exact h.word.congr hsame

theorem step_move (h : Exclusion s) (horderly : Orderly s l)
    (hstep : Monitor.step primitive spinCount s l = some s') :
    Exclusion s' ∧ Move primitive s l s' := by
  have hl : ∀ i, l ≠ .terminate i := by
    intro i hl
    subst hl
    exact horderly
  rcases h.calm.step hl hstep with ⟨hcalm, hmove⟩
  exact ⟨⟨hcalm, h.move horderly hmove⟩, hmove⟩

theorem of_run {executor : ι → Bool} (hexecutor : ∀ i, executor i = true) {ls : List (Label Op ι)}
    (horderly : (machine primitive spinCount).RunsWithin Orderly
      (Monitor.System.initial 0 executor) ls)
    (hrun : (machine primitive spinCount).run (Monitor.System.initial 0 executor) ls = some s) :
    Exclusion s :=
  Machine.runsWithin_invariant _ (fun _ _ _ h hok hstep => (h.step_move hok hstep).1)
    (initial executor hexecutor) horderly hrun

end Exclusion

/-! ## All runs -/

/-- A step grants a reader lock to {lit}`i`. -/
def GrantsShared (s s' : System ι) (i : ι) : Prop :=
  s'.log = s.log ++ [(i, .coLockShared, .ok true)] ∨
    s'.log = s.log ++ [(i, .tryLockShared, .ok true)]

/-- What the mutex promises in a state: a writer is alone, and the word is the
flag of the writers plus the count of the readers, neither of which runs into the
other. -/
structure Excludes (s : System ι) : Prop where
  writer : ∀ i ∈ (holders s.log).writers, (holders s.log).writers = [i] ∧
    (holders s.log).readers = []
  word : s.value.toNat = (holders s.log).flag + (holders s.log).readers.length
  flag : writeEntered s.value = true ↔
    ∃ i, i ∈ (holders s.log).writers ∨ i ∈ (holders s.log).queued
  count : (readers s.value).toNat = (holders s.log).readers.length

theorem Exclusion.excludes {s : System ι} (h : Exclusion s) : Excludes s := by
  refine ⟨?_, h.word.value, ?_, ?_⟩
  · intro i hi
    rcases h.word.writers_eq hi with ⟨hwriters, -, hreaders⟩
    exact ⟨hwriters, hreaders⟩
  · rw [writeEntered_iff, h.word.flag_iff]
    constructor
    · intro hsome
      by_contra hnone
      simp only [not_exists, not_or] at hnone
      exact hsome ⟨List.eq_nil_iff_forall_not_mem.mpr fun i => (hnone i).2,
        List.eq_nil_iff_forall_not_mem.mpr fun i => (hnone i).1⟩
    · rintro ⟨i, hi⟩ ⟨hqueued, hwriters⟩
      simp [hqueued, hwriters] at hi
  · rw [toNat_readers]
    exact h.word.mod_eq

/-- While the flag is set no reader lock is granted. -/
theorem Exclusion.not_grantsShared {s s' : System ι} {l : Label Op ι}
    (hmove : Move primitive s l s') (hflag : writeEntered s.value = true) (i : ι) :
    ¬ GrantsShared s s' i := by
  rw [writeEntered_iff] at hflag
  have hfull : ¬ s.value < maxReaders := by
    rw [lt_maxReaders_iff]
    omega
  have hunchanged : s'.log = s.log → ¬ GrantsShared s s' i := by
    rintro hlog (hgrant | hgrant)
    · rw [hlog] at hgrant
      simp at hgrant
    · rw [hlog] at hgrant
      simp at hgrant
  rcases hmove.stage_cases with ⟨-, -, -, -, -, hlog, -⟩ |
    ⟨j, op, k, sec, rfl, hj, hsec, hready, -, -, hlog, -⟩ | ⟨-, -, hlog, -, -⟩ | ⟨-, hlog, -⟩
  · exact hunchanged hlog
  · rintro (hgrant | hgrant)
    · rw [hlog] at hgrant
      simp only [List.append_cancel_left_eq, List.cons.injEq, Prod.mk.injEq, and_true] at hgrant
      rcases hgrant with ⟨-, rfl, -⟩
      rcases k with _ | k
      · cases hsec
        simp [coLockShared, hfull] at hready
      · simp [primitive] at hsec
    · rw [hlog] at hgrant
      simp only [List.append_cancel_left_eq, List.cons.injEq, Prod.mk.injEq, and_true] at hgrant
      rcases hgrant with ⟨-, rfl, hresult⟩
      rcases k with _ | k
      · cases hsec
        simp [tryLockShared, Section.immediate, hfull] at hresult
      · simp [primitive] at hsec
  · exact hunchanged hlog
  · exact hunchanged hlog

/-- In every run without cancellation in which locks are given back by their
holders, of any set of coroutines that have an executor, the mutex keeps its
promise, and no step grants a reader lock while the flag is set. -/
theorem sharedMutex_excludes (spinCount : Int) (executor : ι → Bool)
    (hexecutor : ∀ i, executor i = true) (ls : List (Label Op ι)) (s : System ι)
    (horderly : (machine primitive spinCount).RunsWithin Orderly
      (Monitor.System.initial 0 executor) ls)
    (hrun : (machine primitive spinCount).run (Monitor.System.initial 0 executor) ls = some s) :
    Excludes s ∧ ∀ l s', Orderly s l → (machine primitive spinCount).step s l = some s' →
      writeEntered s.value = true → ∀ i, ¬ GrantsShared s s' i := by
  have hinv : Exclusion s := Exclusion.of_run hexecutor horderly hrun
  refine ⟨hinv.excludes, ?_⟩
  intro l s' hl hstep hflag i
  exact Exclusion.not_grantsShared (hinv.step_move hl hstep).2 hflag i

/-- Two readers hold the mutex while a writer is queued behind them; one of the
readers leaves. -/
def queuedWriter (i j k : Fin 3) : List (Label Op (Fin 3)) :=
  [.call i .coLockShared, .go i, .go i, .go i, .call j .tryLockShared, .go j, .go j, .go j,
    .call k .coLock, .go k, .go k, .go k, .go k, .go k, .call i .unlockShared, .go i, .go i, .go i]

theorem sharedMutex_excludes_queuedWriter :
    ∃ s, (machine primitive 128).run (Monitor.System.initial 0 fun _ => true)
        (queuedWriter 0 1 2) = some s ∧
      ((holders s.log).readers = [1] ∧ (holders s.log).queued = [2] ∧
        s.awaiters .gate2 = [2] ∧ s.locked = false) ∧
      Excludes s := by
  rcases Machine.exists_run_of_any (machine primitive 128)
    (Monitor.System.initial 0 fun _ => true) (queuedWriter 0 1 2)
    (fun s => (holders s.log).readers = [1] ∧ (holders s.log).queued = [2] ∧
      s.awaiters .gate2 = [2] ∧ s.locked = false)
    (by decide) with ⟨s, hrun, hs⟩
  exact ⟨s, hrun, hs, (sharedMutex_excludes 128 _ (fun _ => rfl) (queuedWriter 0 1 2) s (by decide)
    hrun).1⟩

end SharedMutex

end AsyncSimple
