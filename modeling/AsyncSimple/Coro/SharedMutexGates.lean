import AsyncSimple.Coro.SharedMutexExclusion

/-!
# Wake-ups of the shared mutex

A coroutine waits behind the first gate because the write-entered flag is set, and
the writer that has set the flag waits behind the second gate because readers hold
the mutex.  Both reasons can end only inside a section, and the one who ends them
notifies the gate before it gives the lock up.

Main results:

- Theorem {lit}`Gated.move`: what waits behind the gates, for every move.
- Theorem {lit}`sharedMutex_wakes`: no wake-up is lost, in every run without
  cancellation that stays below the maximal number of readers.
-/

namespace AsyncSimple

open Transition Monitor

namespace SharedMutex

variable {ι : Type}

/-! ## The invariant -/

/-- What holds of a coroutine at a program point.  One that has not waited yet is
at its first section; one that blocks has found its section not ready, which nobody
changes while it holds the lock; one that waits is on the list of its gate. -/
def Stands (value : UInt32) (awaiters : Gate → List ι) (i : ι) : Pc Gate Op → Prop
  | .exchange .first _ k _ | .spin .first _ k _ | .yield .first _ k | .yielded .first _ k => k = 0
  | .push op k => ∃ sec, (primitive.sections op)[k]? = some sec ∧ sec.ready value = false
  | .leave op k popped => popped = false ∧ ∃ sec, (primitive.sections op)[k]? = some sec ∧
      sec.ready value = false ∧ i ∈ awaiters sec.gate
  | .waiting op k => ∃ sec, (primitive.sections op)[k]? = some sec ∧ i ∈ awaiters sec.gate
  | _ => True

/-- The program points of a coroutine on a list. -/
def Listed (g : Gate) (pc : Pc Gate Op) : Prop :=
  ∃ op k sec, (pc = .waiting op k ∨ pc = .leave op k false) ∧
    (primitive.sections op)[k]? = some sec ∧ sec.gate = g

/-- The notification that a coroutine owes. -/
def Owes (n : Notification Gate) (pc : Pc Gate Op) : Prop :=
  ∃ op k, pc = .notifying op k n

/-- The word, the lists of the gates and the program points. -/
structure Gated (value : UInt32) (awaiters : Gate → List ι) (pc : ι → Pc Gate Op) : Prop where
  stands : ∀ i, Stands value awaiters i (pc i)
  nodup : ∀ g, (awaiters g).Nodup
  listed : ∀ g, ∀ i ∈ awaiters g, Listed g (pc i)
  gate1 : awaiters .gate1 ≠ [] → writeEntered value = true ∨ ∃ i, Owes ⟨.gate1, true⟩ (pc i)
  gate2 : awaiters .gate2 ≠ [] → writeEntered value = true ∧ readers value ≠ 0 ∨
    ∃ i, Owes ⟨.gate2, false⟩ (pc i)

theorem Stands.of_contends {value : UInt32} {awaiters : Gate → List ι} {i : ι}
    {pc : Pc Gate Op} {op : Op} {k : Nat} (h : Stands value awaiters i pc) (hpc : pc.Contends)
    (hstage : pc.stage = some (op, k)) : pc.InFlight = true ∨ k = 0 := by
  cases pc with
  | exchange phase op' k' counter | spin phase op' k' counter =>
      cases hstage
      cases phase with
      | first => exact .inr h
      | again => exact .inl rfl
  | yield phase op' k' | yielded phase op' k' =>
      cases hstage
      cases phase with
      | first => exact .inr h
      | again => exact .inl rfl
  | woken op' k' => exact .inl rfl
  | _ => exact hpc.elim

/-- A contending coroutine stands well when it has waited or is at the start. -/
theorem stands_of_contends {value : UInt32} {awaiters : Gate → List ι} {i : ι}
    {pc : Pc Gate Op} {op : Op} {k : Nat} (hpc : pc.Contends) (hstage : pc.stage = some (op, k))
    (hwhy : pc.InFlight = true ∨ k = 0) : Stands value awaiters i pc := by
  cases pc with
  | exchange phase op' k' counter | spin phase op' k' counter =>
      cases hstage
      cases phase with
      | first => exact hwhy.resolve_left nofun
      | again => trivial
  | yield phase op' k' | yielded phase op' k' =>
      cases hstage
      cases phase with
      | first => exact hwhy.resolve_left nofun
      | again => trivial
  | woken op' k' => trivial
  | _ => exact hpc.elim

/-- Outside the lock only the lists matter. -/
theorem Stands.of_outside {value value' : UInt32} {awaiters awaiters' : Gate → List ι} {i : ι}
    {pc : Pc Gate Op} (h : Stands value awaiters i pc) (hpc : ¬ pc.Inside)
    (hlists : ∀ g, Listed g pc → i ∈ awaiters g → i ∈ awaiters' g) :
    Stands value' awaiters' i pc := by
  cases pc with
  | waiting op k =>
      rcases h with ⟨sec, hsec, hmem⟩
      exact ⟨sec, hsec, hlists _ ⟨op, k, sec, .inl rfl, hsec, rfl⟩ hmem⟩
  | inside op k | push op k | leave op k popped | notifying op k n => exact (hpc trivial).elim
  | exchange phase op k counter | spin phase op k counter => cases phase <;> exact h
  | yield phase op k | yielded phase op k => cases phase <;> exact h
  | _ => trivial

/-- Only the second half of {lit}`coLock` uses the second gate to wait. -/
theorem stage_of_listed_gate2 {pc : Pc Gate Op} (h : Listed .gate2 pc) :
    pc.stage = some (.coLock, 1) := by
  rcases h with ⟨op, k, sec, hpc, hsec, hgate⟩
  have hstage : pc.stage = some (op, k) := by
    rcases hpc with rfl | rfl
    · rfl
    · rfl
  rw [hstage]
  cases op with
  | coLock =>
      rcases k with _ | _ | k
      · cases hsec
        cases hgate
      · rfl
      · simp [primitive] at hsec
  | _ =>
      rcases k with _ | k
      · cases hsec
        cases hgate
      · simp [primitive] at hsec

namespace Gated

variable {value : UInt32} {awaiters : Gate → List ι} {pcs : ι → Pc Gate Op} {i : ι}
  [DecidableEq ι]

omit [DecidableEq ι] in
theorem not_mem (h : Gated value awaiters pcs) (hi : ∀ g, ¬ Listed g (pcs i)) (g : Gate) :
    i ∉ awaiters g :=
  fun hmem => hi g (h.listed g i hmem)

/-- A coroutine that is on no list and owes no notification moves. -/
theorem goto (h : Gated value awaiters pcs) {pc : Pc Gate Op} (hi : ∀ g, ¬ Listed g (pcs i))
    (howes : ∀ n, ¬ Owes n (pcs i)) (hpc : Stands value awaiters i pc) :
    Gated value awaiters (Function.update pcs i pc) := by
  have howed : ∀ n j, Owes n (pcs j) → Owes n (Function.update pcs i pc j) := by
    intro n j hj
    have hne : j ≠ i := by
      intro hji
      rw [hji] at hj
      exact howes n hj
    rwa [Function.update_of_ne hne]
  refine ⟨?_, h.nodup, ?_, ?_, ?_⟩
  · intro j
    by_cases hj : j = i
    · subst hj
      rw [Function.update_self]
      exact hpc
    · rw [Function.update_of_ne hj]
      exact h.stands j
  · intro g j hj
    have hne : j ≠ i := by
      intro hji
      rw [hji] at hj
      exact h.not_mem hi g hj
    rw [Function.update_of_ne hne]
    exact h.listed g j hj
  · intro hne
    rcases h.gate1 hne with hflag | ⟨j, hj⟩
    · exact .inl hflag
    · exact .inr ⟨j, howed _ j hj⟩
  · intro hne
    rcases h.gate2 hne with hflag | ⟨j, hj⟩
    · exact .inl hflag
    · exact .inr ⟨j, howed _ j hj⟩

omit [DecidableEq ι] in
/-- The owner of the lock is the only one that can owe a notification. -/
theorem owes_alone (halone : ∀ j, j ≠ i → ¬ (pcs j).Inside) {n : Notification Gate}
    (howes : ∃ j, Owes n (pcs j)) : Owes n (pcs i) := by
  rcases howes with ⟨j, hj⟩
  by_cases hji : j = i
  · rw [← hji]
    exact hj
  · rcases hj with ⟨op, k, hpc⟩
    exact absurd (by rw [hpc]; trivial) (halone j hji)

omit [DecidableEq ι] in
theorem flag_of_gate1 (h : Gated value awaiters pcs) (halone : ∀ j, j ≠ i → ¬ (pcs j).Inside)
    (howes : ∀ n, ¬ Owes n (pcs i)) (hne : awaiters .gate1 ≠ []) : writeEntered value = true :=
  (h.gate1 hne).resolve_right fun hj => howes _ (owes_alone halone hj)

omit [DecidableEq ι] in
theorem flag_of_gate2 (h : Gated value awaiters pcs) (halone : ∀ j, j ≠ i → ¬ (pcs j).Inside)
    (howes : ∀ n, ¬ Owes n (pcs i)) (hne : awaiters .gate2 ≠ []) :
    writeEntered value = true ∧ readers value ≠ 0 :=
  (h.gate2 hne).resolve_right fun hj => howes _ (owes_alone halone hj)

/-- The owner of the lock changes the word. -/
theorem setValue (h : Gated value awaiters pcs) {value' : UInt32} {pc : Pc Gate Op}
    (halone : ∀ j, j ≠ i → ¬ (pcs j).Inside) (hi : ∀ g, ¬ Listed g (pcs i))
    (hpc : Stands value' awaiters i pc)
    (hgate1 : awaiters .gate1 ≠ [] → writeEntered value' = true ∨ Owes ⟨.gate1, true⟩ pc)
    (hgate2 : awaiters .gate2 ≠ [] → writeEntered value' = true ∧ readers value' ≠ 0 ∨
      Owes ⟨.gate2, false⟩ pc) :
    Gated value' awaiters (Function.update pcs i pc) := by
  refine ⟨?_, h.nodup, ?_, ?_, ?_⟩
  · intro j
    by_cases hj : j = i
    · subst hj
      rw [Function.update_self]
      exact hpc
    · rw [Function.update_of_ne hj]
      exact (h.stands j).of_outside (halone j hj) fun _ _ hmem => hmem
  · intro g j hj
    have hne : j ≠ i := by
      intro hji
      rw [hji] at hj
      exact h.not_mem hi g hj
    rw [Function.update_of_ne hne]
    exact h.listed g j hj
  · intro hne
    rcases hgate1 hne with hflag | howes
    · exact .inl hflag
    · exact .inr ⟨i, by rwa [Function.update_self]⟩
  · intro hne
    rcases hgate2 hne with hflag | howes
    · exact .inl hflag
    · exact .inr ⟨i, by rwa [Function.update_self]⟩

/-- A section that finds no flag leaves nobody behind a gate. -/
theorem setValue_of_unflagged (h : Gated value awaiters pcs) {value' : UInt32} {pc : Pc Gate Op}
    (halone : ∀ j, j ≠ i → ¬ (pcs j).Inside) (hi : ∀ g, ¬ Listed g (pcs i))
    (howes : ∀ n, ¬ Owes n (pcs i)) (hpc : Stands value' awaiters i pc)
    (hflag : writeEntered value = false) : Gated value' awaiters (Function.update pcs i pc) := by
  refine h.setValue halone hi hpc ?_ ?_
  · intro hne
    have hset := h.flag_of_gate1 halone howes hne
    rw [hflag] at hset
    cases hset
  · intro hne
    have hset := (h.flag_of_gate2 halone howes hne).1
    rw [hflag] at hset
    cases hset

/-- The last reader wakes up the queued writer. -/
theorem unlockShared (h : Gated value awaiters pcs) (halone : ∀ j, j ≠ i → ¬ (pcs j).Inside)
    (hi : ∀ g, ¬ Listed g (pcs i)) (howes : ∀ n, ¬ Owes n (pcs i)) {op : Op} {k : Nat}
    (hasserts : SharedMutex.unlockShared.asserts value = true) :
    Gated (value - 1) awaiters
      (Function.update pcs i ((SharedMutex.unlockShared.body value).next op k)) := by
  have hreaders : 0 < value.toNat % 2 ^ 31 := by
    rw [← toNat_readers]
    simpa [SharedMutex.unlockShared, Section.immediate, UInt32.lt_iff_toNat_lt] using hasserts
  have hsome : 0 < value.toNat := by omega
  have hpred := toNat_pred hsome
  have hlt := value.toNat_lt
  have hsame : writeEntered (value - 1) = true ↔ writeEntered value = true := by
    rw [writeEntered_iff, writeEntered_iff]
    omega
  have hstands : Stands (value - 1) awaiters i
      ((SharedMutex.unlockShared.body value).next op k) := by
    unfold Effect.next
    split <;> trivial
  refine h.setValue halone hi hstands ?_ ?_
  · intro hne
    exact .inl (hsame.mpr (h.flag_of_gate1 halone howes hne))
  · intro hne
    have hflag := hsame.mpr (h.flag_of_gate2 halone howes hne).1
    by_cases hzero : readers (value - 1) = 0
    · refine .inr ⟨op, k, ?_⟩
      simp [Effect.next, SharedMutex.unlockShared, Section.immediate, hflag, hzero]
    · exact .inl ⟨hflag, hzero⟩

/-- Every section of every operation keeps the gates. -/
theorem run (h : Gated value awaiters pcs) {holders : Holders ι}
    (hinv : Exclusive value holders fun i => (pcs i).stage)
    (halone : ∀ j, j ≠ i → ¬ (pcs j).Inside) {op : Op} {k : Nat}
    {sec : Section UInt32 Gate Bool} (hi : pcs i = .inside op k)
    (hsec : (primitive.sections op)[k]? = some sec) (hready : sec.ready value = true)
    (hasserts : sec.asserts value = true) :
    Gated (sec.body value).value awaiters
      (Function.update pcs i ((sec.body value).next op k)) := by
  have hlisted : ∀ g, ¬ Listed g (pcs i) := by
    rintro g ⟨op', k', sec', hpc, -⟩
    simp [hi] at hpc
  have howes : ∀ n, ¬ Owes n (pcs i) := by
    rintro n ⟨op', k', hpc⟩
    simp [hi] at hpc
  have hzero : op ≠ .coLock → k = 0 := by
    intro hop
    by_contra hk
    cases op <;> simp_all [primitive]
  cases op with
  | coLock =>
      rcases k with _ | _ | k
      · cases hsec
        have hflag : writeEntered value = false := by
          simpa [SharedMutex.enterWrite] using hready
        exact h.setValue_of_unflagged halone hlisted howes trivial hflag
      · cases hsec
        exact h.goto hlisted howes trivial
      · simp [primitive] at hsec
  | tryLock =>
      cases hzero (by simp)
      cases hsec
      by_cases hfree : value = 0
      · have hflag : writeEntered value = false := by
          rw [hfree]
          decide
        simp only [SharedMutex.tryLock, Section.immediate, hfree, if_true]
        exact h.setValue_of_unflagged halone hlisted howes trivial hflag
      · simp only [SharedMutex.tryLock, Section.immediate, hfree, if_false]
        exact h.goto hlisted howes trivial
  | unlock =>
      cases hzero (by simp)
      cases hsec
      have hstage : (pcs i).stage = some (.unlock, 0) := by
        rw [hi]
        rfl
      have hreaders := (hinv.writers_eq (hinv.unlocks i hstage)).2.2
      refine h.setValue halone hlisted trivial (fun _ => .inr ⟨.unlock, 0, rfl⟩) ?_
      intro hne
      have hsome := (h.flag_of_gate2 halone howes hne).2
      rw [Ne, readers_eq_zero_iff, hinv.mod_eq, hreaders] at hsome
      exact absurd rfl hsome
  | coLockShared =>
      cases hzero (by simp)
      cases hsec
      have hroom : value < maxReaders := by
        simpa [SharedMutex.coLockShared] using hready
      rw [lt_maxReaders_iff] at hroom
      have hflag : writeEntered value = false := by
        rw [writeEntered_eq_false_iff]
        omega
      exact h.setValue_of_unflagged halone hlisted howes trivial hflag
  | tryLockShared =>
      cases hzero (by simp)
      cases hsec
      by_cases hroom : value < maxReaders
      · have hflag : writeEntered value = false := by
          rw [lt_maxReaders_iff] at hroom
          rw [writeEntered_eq_false_iff]
          omega
        simp only [SharedMutex.tryLockShared, Section.immediate, hroom, if_true]
        exact h.setValue_of_unflagged halone hlisted howes trivial hflag
      · simp only [SharedMutex.tryLockShared, Section.immediate, hroom, if_false]
        exact h.goto hlisted howes trivial
  | unlockShared =>
      cases hzero (by simp)
      cases hsec
      exact h.unlockShared halone hlisted howes hasserts

omit [DecidableEq ι] in
/-- Why a section is not ready, while the count stays below its maximum: the flag
is set, and behind the second gate readers are left. -/
theorem blocked_flag {holders : Holders ι} (hinv : Exclusive value holders fun i => (pcs i).stage)
    (hbelow : readers value < maxReaders) {op : Op} {k : Nat} {sec : Section UInt32 Gate Bool}
    (hi : (pcs i).stage = some (op, k)) (hsec : (primitive.sections op)[k]? = some sec)
    (hready : sec.ready value = false) :
    writeEntered value = true ∧ (sec.gate = .gate2 → readers value ≠ 0) := by
  cases op with
  | coLock =>
      rcases k with _ | _ | k
      · cases hsec
        exact ⟨by simpa [SharedMutex.enterWrite] using hready, by simp [SharedMutex.enterWrite]⟩
      · cases hsec
        have hqueued := (hinv.queued i).mpr hi
        refine ⟨?_, fun _ => by simpa [SharedMutex.awaitReaders] using hready⟩
        rw [writeEntered_iff, hinv.flag_iff]
        rintro ⟨hnone, -⟩
        rw [hnone] at hqueued
        cases hqueued
      · simp [primitive] at hsec
  | coLockShared =>
      rcases k with _ | k
      · cases hsec
        refine ⟨?_, by simp [SharedMutex.coLockShared]⟩
        have hfull : ¬ value < maxReaders := by
          simpa [SharedMutex.coLockShared] using hready
        rw [lt_maxReaders_iff] at hfull
        rw [lt_maxReaders_iff, toNat_readers] at hbelow
        rw [writeEntered_iff]
        omega
      · simp [primitive] at hsec
  | _ =>
      rcases k with _ | k
      · cases hsec
        cases hready
      · simp [primitive] at hsec

/-- A coroutine puts itself on the list of its gate. -/
theorem push (h : Gated value awaiters pcs) {holders : Holders ι}
    (hinv : Exclusive value holders fun i => (pcs i).stage)
    (hbelow : readers value < maxReaders) (halone : ∀ j, j ≠ i → ¬ (pcs j).Inside) {op : Op}
    {k : Nat} {sec : Section UInt32 Gate Bool} (hi : pcs i = .push op k)
    (hsec : (primitive.sections op)[k]? = some sec) :
    Gated value (Function.update awaiters sec.gate (i :: awaiters sec.gate))
      (Function.update pcs i (.leave op k false)) := by
  have hlisted : ∀ g, ¬ Listed g (pcs i) := by
    rintro g ⟨op', k', sec', hpc, -⟩
    simp [hi] at hpc
  have hready : sec.ready value = false := by
    have hstands := h.stands i
    rw [hi] at hstands
    rcases hstands with ⟨sec', hsec', hready⟩
    rw [hsec] at hsec'
    cases hsec'
    exact hready
  have hflag := blocked_flag hinv hbelow (i := i) (by rw [hi]; rfl) hsec hready
  have hmono : ∀ g j, j ∈ awaiters g →
      j ∈ Function.update awaiters sec.gate (i :: awaiters sec.gate) g := by
    intro g j hj
    by_cases hg : g = sec.gate
    · subst hg
      rw [Function.update_self]
      exact List.mem_cons_of_mem _ hj
    · rwa [Function.update_of_ne hg]
  refine ⟨?_, ?_, ?_, fun _ => .inl hflag.1, ?_⟩
  · intro j
    by_cases hj : j = i
    · subst hj
      rw [Function.update_self]
      refine ⟨rfl, sec, hsec, hready, ?_⟩
      rw [Function.update_self]
      exact List.mem_cons_self
    · rw [Function.update_of_ne hj]
      exact (h.stands j).of_outside (halone j hj) fun g _ hmem => hmono g j hmem
  · intro g
    by_cases hg : g = sec.gate
    · subst hg
      rw [Function.update_self]
      exact List.nodup_cons.mpr ⟨h.not_mem hlisted _, h.nodup _⟩
    · rw [Function.update_of_ne hg]
      exact h.nodup g
  · intro g j hj
    by_cases hji : j = i
    · subst hji
      rw [Function.update_self]
      by_cases hg : g = sec.gate
      · exact ⟨op, k, sec, .inr rfl, hsec, hg.symm⟩
      · rw [Function.update_of_ne hg] at hj
        exact absurd hj (h.not_mem hlisted g)
    · rw [Function.update_of_ne hji]
      apply h.listed g j
      by_cases hg : g = sec.gate
      · subst hg
        rw [Function.update_self] at hj
        exact (List.mem_cons.mp hj).resolve_left hji
      · rwa [Function.update_of_ne hg] at hj
  · intro hne
    by_cases hg : sec.gate = .gate2
    · exact .inl ⟨hflag.1, hflag.2 hg⟩
    · rw [Function.update_of_ne (Ne.symm hg)] at hne
      refine .inl (h.flag_of_gate2 halone ?_ hne)
      rintro n ⟨op', k', hpc⟩
      simp [hi] at hpc

/-- A coroutine on a list gives the lock up. -/
theorem leave (h : Gated value awaiters pcs) {op : Op} {k : Nat} {popped : Bool}
    (hi : pcs i = .leave op k popped) :
    Gated value awaiters
      (Function.update pcs i (if popped then .woken op k else .waiting op k)) := by
  have hstands := h.stands i
  rw [hi] at hstands
  rcases hstands with ⟨rfl, sec, hsec, -, hmem⟩
  have howed : ∀ n j, Owes n (pcs j) → Owes n (Function.update pcs i (.waiting op k) j) := by
    rintro n j ⟨op', k', hpc⟩
    have hne : j ≠ i := by
      intro hji
      rw [hji, hi] at hpc
      cases hpc
    exact ⟨op', k', by rwa [Function.update_of_ne hne]⟩
  refine ⟨?_, h.nodup, ?_, ?_, ?_⟩
  · intro j
    by_cases hj : j = i
    · subst hj
      rw [Function.update_self]
      exact ⟨sec, hsec, hmem⟩
    · rw [Function.update_of_ne hj]
      exact h.stands j
  · intro g j hj
    by_cases hji : j = i
    · subst hji
      rw [Function.update_self]
      rcases h.listed g j hj with ⟨op', k', sec', hpc, hsec', hgate⟩
      rw [hi] at hpc
      rcases hpc with hpc | hpc
      · cases hpc
      · cases hpc
        exact ⟨op, k, sec', .inl rfl, hsec', hgate⟩
    · rw [Function.update_of_ne hji]
      exact h.listed g j hj
  · intro hne
    rcases h.gate1 hne with hflag | ⟨j, hj⟩
    · exact .inl hflag
    · exact .inr ⟨j, howed _ j hj⟩
  · intro hne
    rcases h.gate2 hne with hflag | ⟨j, hj⟩
    · exact .inl hflag
    · exact .inr ⟨j, howed _ j hj⟩

omit [DecidableEq ι] in
/-- Only one writer is behind the second gate. -/
theorem gate2_length (h : Gated value awaiters pcs) {holders : Holders ι}
    (hinv : Exclusive value holders fun i => (pcs i).stage) : (awaiters .gate2).length ≤ 1 := by
  have hmem : ∀ j ∈ awaiters .gate2, j ∈ holders.queued := by
    intro j hj
    exact (hinv.queued j).mpr (stage_of_listed_gate2 (h.listed .gate2 j hj))
  rcases hlist : awaiters .gate2 with _ | ⟨j, _ | ⟨j', rest⟩⟩
  · simp
  · simp
  · rw [hlist] at hmem
    have hnodup := h.nodup .gate2
    rw [hlist] at hnodup
    have hj := hmem j (by simp)
    have hj' := hmem j' (by simp)
    rw [(hinv.queued_eq hj).1, List.mem_singleton] at hj'
    simp [hj'] at hnodup

end Gated

/-- A coroutine is on the list of one gate only. -/
theorem Listed.gate_eq {g g' : Gate} {pc : Pc Gate Op} (h : Listed g pc) (h' : Listed g' pc) :
    g = g' := by
  rcases h with ⟨op, k, sec, hpc, hsec, rfl⟩
  rcases h' with ⟨op', k', sec', hpc', hsec', rfl⟩
  have hsame : op = op' ∧ k = k' := by
    rcases hpc with rfl | rfl <;> rcases hpc' with hpc' | hpc' <;> cases hpc' <;> exact ⟨rfl, rfl⟩
  rcases hsame with ⟨rfl, rfl⟩
  rw [hsec] at hsec'
  cases hsec'
  rfl

namespace Gated

variable {value : UInt32} {awaiters : Gate → List ι} {pcs : ι → Pc Gate Op} {i : ι}
  [DecidableEq ι]

/-- The owner of the lock notifies a gate. -/
theorem notify (h : Gated value awaiters pcs) {holders : Holders ι}
    (hinv : Exclusive value holders fun i => (pcs i).stage)
    (halone : ∀ j, j ≠ i → ¬ (pcs j).Inside) {op : Op} {k : Nat} {n : Notification Gate}
    (hi : pcs i = .notifying op k n) :
    Gated value (Function.update awaiters n.gate (n.left (awaiters n.gate)))
      fun j => if j ∈ n.popped (awaiters n.gate) then
          (Function.update pcs i (.inside op (k + 1)) j).wake
        else Function.update pcs i (.inside op (k + 1)) j := by
  have hlisted : ∀ g, ¬ Listed g (pcs i) := by
    rintro g ⟨op', k', sec', hpc, -⟩
    simp [hi] at hpc
  have hself : i ∉ n.popped (awaiters n.gate) := fun hmem =>
    h.not_mem hlisted n.gate (n.mem_of_mem_popped hmem)
  -- whoever is on a list has given the lock up
  have hwaiting : ∀ g, ∀ j ∈ awaiters g, j ≠ i ∧ ∃ op' k', pcs j = .waiting op' k' := by
    intro g j hj
    have hne : j ≠ i := by
      intro hji
      rw [hji] at hj
      exact h.not_mem hlisted g hj
    rcases h.listed g j hj with ⟨op', k', sec', hpc | hpc, -⟩
    · exact ⟨hne, op', k', hpc⟩
    · exact absurd (by rw [hpc]; trivial) (halone j hne)
  have howes : ∀ m, (∃ j, Owes m (pcs j)) → m = n := by
    intro m hm
    rcases owes_alone halone hm with ⟨op', k', hpc⟩
    rw [hi] at hpc
    cases hpc
    rfl
  refine ⟨?_, ?_, ?_, ?_, ?_⟩
  · intro j
    by_cases hj : j ∈ n.popped (awaiters n.gate)
    · rcases hwaiting n.gate j (n.mem_of_mem_popped hj) with ⟨hne, op', k', hpc⟩
      simp only [if_pos hj, Function.update_of_ne hne, hpc]
      trivial
    · by_cases hji : j = i
      · subst hji
        simp only [if_neg hj, Function.update_self]
        trivial
      · simp only [if_neg hj, Function.update_of_ne hji]
        refine (h.stands j).of_outside (halone j hji) fun g _ hmem => ?_
        by_cases hg : g = n.gate
        · subst hg
          rw [Function.update_self]
          exact n.mem_left_of_not_mem_popped hmem hj
        · rwa [Function.update_of_ne hg]
  · intro g
    by_cases hg : g = n.gate
    · subst hg
      rw [Function.update_self]
      exact n.left_nodup (h.nodup _)
    · rw [Function.update_of_ne hg]
      exact h.nodup g
  · intro g j hj
    have hmem : j ∈ awaiters g := by
      by_cases hg : g = n.gate
      · subst hg
        rw [Function.update_self] at hj
        exact n.mem_of_mem_left hj
      · rwa [Function.update_of_ne hg] at hj
    have hpopped : j ∉ n.popped (awaiters n.gate) := by
      intro hpop
      have hg : g = n.gate :=
        (h.listed g j hmem).gate_eq (h.listed n.gate j (n.mem_of_mem_popped hpop))
      subst hg
      rw [Function.update_self] at hj
      exact n.not_mem_popped_of_mem_left (h.nodup _) hj hpop
    simp only [if_neg hpopped, Function.update_of_ne (hwaiting g j hmem).1]
    exact h.listed g j hmem
  · intro hne
    by_cases hg : n.gate = .gate1
    · rw [← hg, Function.update_self] at hne
      rcases n.popped_of_left_ne_nil hne with ⟨hone, -, -, hsome⟩
      rw [hg] at hsome
      refine .inl ((h.gate1 hsome).resolve_right fun hj => ?_)
      rw [← howes _ hj] at hone
      cases hone
    · rw [Function.update_of_ne (Ne.symm hg)] at hne
      refine .inl ((h.gate1 hne).resolve_right fun hj => ?_)
      rw [← howes _ hj] at hg
      exact hg rfl
  · intro hne
    by_cases hg : n.gate = .gate2
    · rw [← hg, Function.update_self] at hne
      rcases n.popped_of_left_ne_nil hne with ⟨hone, -, -, -⟩
      have hlength := h.gate2_length hinv
      rw [hg, Notification.left, hone] at hne
      simp only [Bool.false_eq_true, if_false, ne_eq, List.drop_eq_nil_iff] at hne
      exact absurd hlength hne
    · rw [Function.update_of_ne (Ne.symm hg)] at hne
      refine .inl ((h.gate2 hne).resolve_right fun hj => ?_)
      rw [← howes _ hj] at hg
      exact hg rfl

end Gated

/-! ## Steps -/

variable [DecidableEq ι]

/-- A coroutine that contends for the lock is on no list and owes nothing. -/
theorem not_listed_of_contends {pc : Pc Gate Op} (h : pc.Contends) :
    (∀ g, ¬ Listed g pc) ∧ ∀ n, ¬ Owes n pc := by
  constructor
  · rintro g ⟨op, k, sec, hpc | hpc, -⟩
    · rw [hpc] at h
      exact h
    · rw [hpc] at h
      exact h
  · rintro n ⟨op, k, hpc⟩
    rw [hpc] at h
    exact h

theorem not_listed_of_idle {pc : Pc Gate Op} (h : pc = .idle) :
    (∀ g, ¬ Listed g pc) ∧ ∀ n, ¬ Owes n pc := by
  subst h
  constructor
  · rintro g ⟨op, k, sec, hpc | hpc, -⟩ <;> cases hpc
  · rintro n ⟨op, k, hpc⟩
    cases hpc

theorem not_listed_of_inside {pc : Pc Gate Op} {op : Op} {k : Nat} (h : pc = .inside op k) :
    (∀ g, ¬ Listed g pc) ∧ ∀ n, ¬ Owes n pc := by
  subst h
  constructor
  · rintro g ⟨op', k', sec, hpc | hpc, -⟩ <;> cases hpc
  · rintro n ⟨op', k', hpc⟩
    cases hpc

variable {s s' : System ι} {l : Label Op ι} {spinCount : Int}

/-- What waits behind the gates, for every move that finds the count below its
maximum. -/
theorem Gated.move (h : Gated s.value s.awaiters s.pc) (hexclusion : Exclusion s)
    (hbelow : readers s.value < maxReaders) (hmove : Move primitive s l s') :
    Gated s'.value s'.awaiters s'.pc := by
  have halone : ∀ i, (s.pc i).Inside → ∀ j, j ≠ i → ¬ (s.pc j).Inside := by
    intro i hi j hne hj
    exact hne (hexclusion.calm.owner.discipline.exclusive j i hj hi)
  cases hmove with
  | @call i op pc hidle hcontends hflight hstage hentry =>
      rcases not_listed_of_idle hidle with ⟨hlisted, howes⟩
      exact h.goto hlisted howes (stands_of_contends hcontends hstage (.inr rfl))
  | @refuse i op hidle hentry => cases hentry
  | @contend i pc hi hcontends hflight hstage =>
      rcases not_listed_of_contends hi with ⟨hlisted, howes⟩
      refine h.goto hlisted howes ?_
      rcases hat : pc.stage with _ | ⟨op, k⟩
      · cases pc with
        | exchange | spin | yield | yielded | woken => cases hat
        | _ => exact hcontends.elim
      · refine stands_of_contends hcontends hat ?_
        rw [hflight]
        exact (h.stands i).of_contends hi (by rw [← hstage, hat])
  | @giveUp i op k hi hstage hop =>
      rcases not_listed_of_contends hi with ⟨hlisted, howes⟩
      exact h.goto hlisted howes trivial
  | @enter i op k hi hstage hfree =>
      rcases not_listed_of_contends hi with ⟨hlisted, howes⟩
      exact h.goto hlisted howes trivial
  | @block i op k sec hi hsec hready =>
      rcases not_listed_of_inside hi with ⟨hlisted, howes⟩
      exact h.goto hlisted howes ⟨sec, hsec, hready⟩
  | @abort i op k sec hi hsec hasserts =>
      rcases not_listed_of_inside hi with ⟨hlisted, howes⟩
      exact h.goto hlisted howes trivial
  | @run i op k sec hi hsec hready hasserts =>
      exact h.run hexclusion.word (halone i (by rw [hi]; trivial)) hi hsec hready hasserts
  | @exit i op k hi hsec hlocked =>
      rcases not_listed_of_inside hi with ⟨hlisted, howes⟩
      rw [unlock_eq hlocked]
      exact h.goto hlisted howes trivial
  | @push i op k sec hi hsec =>
      exact h.push hexclusion.word hbelow (halone i (by rw [hi]; trivial)) hi hsec
  | @leave i op k popped hi hlocked =>
      rw [unlock_eq hlocked]
      exact h.leave hi
  | @notify i op k n hi =>
      exact h.notify hexclusion.word (halone i (by rw [hi]; trivial)) hi

/-! ## All runs -/

/-- Popped from the second gate and not yet holding the lock again. -/
def Popped (s : System ι) (i : ι) : Prop :=
  (s.pc i).InFlight = true ∧ (s.pc i).stage = some (.coLock, 1)

/-- What holds whenever the lock is free. -/
structure Wakes (s : System ι) : Prop where
  gate1 : s.awaiters .gate1 ≠ [] → writeEntered s.value = true
  one : (s.awaiters .gate2).length ≤ 1
  gate2 : s.awaiters .gate2 ≠ [] → writeEntered s.value = true ∧ 0 < readers s.value
  writer : writeEntered s.value = true →
    ∃! i, i ∈ (holders s.log).writers ∨ i ∈ s.awaiters .gate2 ∨ Popped s i

omit [DecidableEq ι] in
/-- While the lock is free, a queued writer is on the list or in flight. -/
theorem Gated.queued (h : Gated s.value s.awaiters s.pc) (hout : ∀ i, ¬ (s.pc i).Inside) {i : ι}
    (hi : (s.pc i).stage = some (.coLock, 1)) : i ∈ s.awaiters .gate2 ∨ Popped s i := by
  have hinside := hout i
  have hstands := h.stands i
  have hcontends : (s.pc i).Contends → Popped s i := fun hpc =>
    ⟨(hstands.of_contends hpc hi).resolve_right nofun, hi⟩
  cases hpc : s.pc i with
  | idle | unwind | aborted =>
      rw [hpc] at hi
      cases hi
  | inside op k | push op k | leave op k popped | notifying op k n =>
      rw [hpc] at hinside
      exact (hinside trivial).elim
  | waiting op k =>
      rw [hpc] at hi hstands
      cases hi
      rcases hstands with ⟨sec, hsec, hmem⟩
      cases hsec
      exact .inl hmem
  | _ =>
      rw [hpc] at hcontends
      exact .inr (hcontends trivial)

theorem Gated.wakes (h : Gated s.value s.awaiters s.pc) (hexclusion : Exclusion s)
    (hfree : s.locked = false) : Wakes s := by
  have hout : ∀ i, ¬ (s.pc i).Inside := by
    intro i hi
    have howner := hexclusion.calm.owner.inside i hi
    rw [hexclusion.calm.owner.owner_eq_none hfree] at howner
    cases howner
  have hnone : ∀ n, ¬ ∃ i, Owes n (s.pc i) := by
    rintro n ⟨i, op, k, hpc⟩
    exact hout i (by rw [hpc]; trivial)
  refine ⟨?_, h.gate2_length hexclusion.word, ?_, ?_⟩
  · intro hne
    exact (h.gate1 hne).resolve_right (hnone _)
  · intro hne
    rcases (h.gate2 hne).resolve_right (hnone _) with ⟨hflag, hreaders⟩
    refine ⟨hflag, ?_⟩
    rw [UInt32.lt_iff_toNat_lt]
    apply Nat.pos_of_ne_zero
    intro hzero
    exact hreaders (UInt32.toNat_inj.mp hzero)
  · intro hflag
    rcases hexclusion.excludes.flag.mp hflag with ⟨i, hi⟩
    -- the writers and the queued writer are one coroutine
    have hunique : ∀ j, j ∈ (holders s.log).writers ∨ j ∈ (holders s.log).queued → j = i := by
      intro j hj
      rcases hi with hi | hi
      · rcases hexclusion.word.writers_eq hi with ⟨hwriters, hqueued, -⟩
        simpa [hwriters, hqueued] using hj
      · rcases hexclusion.word.queued_eq hi with ⟨hqueued, hwriters⟩
        simpa [hwriters, hqueued] using hj
    refine ⟨i, ?_, ?_⟩
    · rcases hi with hi | hi
      · exact .inl hi
      · exact .inr (h.queued hout ((hexclusion.word.queued i).mp hi))
    · rintro j (hj | hj | hj)
      · exact hunique j (.inl hj)
      · have hstage := stage_of_listed_gate2 (h.listed .gate2 j hj)
        exact hunique j (.inr ((hexclusion.word.queued j).mpr hstage))
      · exact hunique j (.inr ((hexclusion.word.queued j).mpr hj.2))

/-- In every run without cancellation in which locks are given back by their
holders and in which the count of the readers stays below its maximum, no wake-up is
lost. -/
theorem sharedMutex_wakes (spinCount : Int) (executor : ι → Bool)
    (hexecutor : ∀ i, executor i = true) (ls : List (Label Op ι)) (s : System ι)
    (hok : (machine primitive spinCount).RunsWithin
      (fun s l => Orderly s l ∧ readers s.value < maxReaders)
      (Monitor.System.initial 0 executor) ls)
    (hrun : (machine primitive spinCount).run (Monitor.System.initial 0 executor) ls = some s)
    (hfree : s.locked = false) : Wakes s := by
  have hstart : Gated (ι := ι) 0 (fun _ => []) fun _ => .idle :=
    ⟨fun _ => trivial, fun _ => List.nodup_nil, nofun, fun hne => absurd rfl hne,
      fun hne => absurd rfl hne⟩
  have hinv : Exclusion s ∧ Gated s.value s.awaiters s.pc := by
    refine Machine.runsWithin_invariant (machine primitive spinCount)
      (P := fun s => Exclusion s ∧ Gated s.value s.awaiters s.pc)
      (fun s l s' h hok hstep => ?_) ⟨Exclusion.initial executor hexecutor, hstart⟩ hok hrun
    rcases h.1.step_move hok.1 hstep with ⟨hexclusion, hmove⟩
    exact ⟨hexclusion, h.2.move h.1 hok.2 hmove⟩
  exact hinv.2.wakes hinv.1 hfree

/-- The last reader has left and woken up the queued writer, which has not taken the
lock again; another reader is blocked behind the first gate. -/
def writerInFlight (i j k : Fin 3) : List (Label Op (Fin 3)) :=
  [.call i .coLockShared, .go i, .go i, .go i, .call j .coLock, .go j, .go j, .go j, .go j, .go j,
    .call k .coLockShared, .go k, .go k, .go k, .go k, .call i .unlockShared, .go i, .go i, .go i,
    .go i]

theorem sharedMutex_wakes_writerInFlight :
    ∃ s, (machine primitive 128).run (Monitor.System.initial 0 fun _ => true)
        (writerInFlight 0 1 2) = some s ∧
      (s.locked = false ∧ s.awaiters .gate1 = [2] ∧ s.awaiters .gate2 = [] ∧
        s.pc 1 = .woken .coLock 1) ∧
      Wakes s := by
  rcases Machine.exists_run_of_any (machine primitive 128)
    (Monitor.System.initial 0 fun _ => true) (writerInFlight 0 1 2)
    (fun s => s.locked = false ∧ s.awaiters .gate1 = [2] ∧ s.awaiters .gate2 = [] ∧
      s.pc 1 = .woken .coLock 1)
    (by decide) with ⟨s, hrun, hs⟩
  exact ⟨s, hrun, hs, sharedMutex_wakes 128 _ (fun _ => rfl) (writerInFlight 0 1 2) s (by decide)
    hrun hs.1⟩

end SharedMutex

end AsyncSimple
