import Mathlib.Algebra.GroupWithZero.Nat
import AsyncSimple.Library.Counting
import AsyncSimple.Coro.MonitorMoves

/-!
# Conservation and wake-ups of the counting semaphore

The units of the semaphore are conserved, and a unit that is available while
coroutines wait is matched by a coroutine that has been woken up and will test
the counter again.  The second property is broken for a moment inside
{lit}`release`, between the increment and the notification; the invariant says
how far, by the program point of the owner of the lock.

Main results:

- Theorem {lit}`WakeInv.step`: the invariant of runs without cancellation.
- Theorem {lit}`semaphore_conserves_and_wakes`: conservation and no lost
  wake-up in every state of such a run.
-/

namespace AsyncSimple

open Transition Monitor

namespace CountingSemaphore

variable {ι : Type}

/-- States of a semaphore and its coroutines. -/
abbrev System (ι : Type) := Monitor.System UInt64 Unit Op Bool ι

/-! ## What is counted -/

/-- Successful acquisitions in a log. -/
def acquires (log : List (ι × Op × Except YieldError Bool)) : Nat :=
  log.countP fun entry => match entry.2 with
    | (.acquire, .ok true) | (.tryAcquire, .ok true) => true
    | _ => false

/-- Sum of the released updates in a log. -/
def released (log : List (ι × Op × Except YieldError Bool)) : Nat :=
  (log.map fun entry => match entry.2 with
    | (.release update, .ok _) => update.toNat
    | _ => 0).sum

/-- Waiters that were popped by a notification and have not taken the lock
again. -/
def inFlight [Fintype ι] (s : System ι) : Nat :=
  tally Pc.InFlight s.pc

theorem acquires_concat (log : List (ι × Op × Except YieldError Bool))
    (entry : ι × Op × Except YieldError Bool) :
    acquires (log ++ [entry]) = acquires log + acquires [entry] :=
  List.countP_append

theorem released_concat (log : List (ι × Op × Except YieldError Bool))
    (entry : ι × Op × Except YieldError Bool) :
    released (log ++ [entry]) = released log + released [entry] := by
  simp [released]

/-! ## The width of the counter -/

theorem toNat_pos {count : UInt64} (h : count ≠ 0) : 0 < count.toNat := by
  rw [Nat.pos_iff_ne_zero]
  intro hzero
  exact h (UInt64.toNat_inj.mp (by simpa using hzero))

/-- A decrement of a positive counter does not wrap. -/
theorem toNat_sub_one {count : UInt64} (h : count ≠ 0) :
    (count - 1).toNat = count.toNat - 1 := by
  have hpos := toNat_pos h
  rw [UInt64.toNat_sub_of_le]
  · rfl
  · rw [UInt64.le_iff_toNat_le]
    exact hpos

/-- An increment within the asserted bounds does not wrap. -/
theorem toNat_add_of_le {count update bound : UInt64} (hupdate : update ≤ bound)
    (hcount : count ≤ bound - update) :
    (count + update).toNat = count.toNat + update.toNat := by
  rw [UInt64.le_iff_toNat_le, UInt64.toNat_sub_of_le _ _ hupdate] at hcount
  rw [UInt64.le_iff_toNat_le] at hupdate
  have hbound := bound.toNat_lt
  rw [UInt64.toNat_add, Nat.mod_eq_of_lt (by omega)]

/-! ## The invariant -/

/-- The operation a coroutine is in, if it is one that can be at its program
point: only {lit}`acquire` waits, in its only section, and only
{lit}`release` notifies. -/
def Shape (leastMaxValue : UInt64) : Pc Unit Op → Prop
  | .exchange .first op k _ | .spin .first op k _ | .yield .first op k | .yielded .first op k =>
      k = 0 ∧ (primitive leastMaxValue).entryAsserts op = true
  | .inside op _ => (primitive leastMaxValue).entryAsserts op = true
  | .exchange .again op k _ | .spin .again op k _ | .yield .again op k | .yielded .again op k
  | .push op k | .waiting op k | .woken op k => op = .acquire ∧ k = 0
  | .leave op k popped => op = .acquire ∧ k = 0 ∧ popped = false
  | .notifying op k n => ∃ update, op = .release update ∧ k = 0 ∧
      n = ⟨(), decide (1 < update)⟩ ∧ (primitive leastMaxValue).entryAsserts op = true
  | .idle | .unwind | .aborted => True

/-- A coroutine that contends for the lock is at the first section of an operation
that it may call, of {lit}`acquire` if it was woken up. -/
theorem shape_iff_of_contends {leastMaxValue : UInt64} {pc : Pc Unit Op} (h : pc.Contends) :
    Shape leastMaxValue pc ↔ ∃ op, pc.stage = some (op, 0) ∧
      if pc.InFlight then op = .acquire
      else (primitive leastMaxValue).entryAsserts op = true := by
  cases pc with
  | exchange phase op k counter | spin phase op k counter | yield phase op k
  | yielded phase op k =>
      cases phase <;> simp [Shape, Pc.stage, Pc.InFlight, and_comm]
  | woken op k => simp [Shape, Pc.stage, Pc.InFlight, and_comm]
  | _ => exact h.elim

/-- How many units may be available, given the waiters in flight, while the
owner of the lock is at a program point and other coroutines wait. -/
def Covered (units flight : Nat) : Pc Unit Op → Prop
  | .inside .acquire 0 => units ≤ flight + 1
  | .notifying _ _ n => n.all = true ∨ units ≤ flight + 1
  | _ => units ≤ flight

/-- A coroutine on the list of the condition variable. -/
def OnList : Pc Unit Op → Prop
  | .waiting _ _ | .leave _ _ _ => True
  | _ => False

theorem not_onList_of_contends {pc : Pc Unit Op} (h : pc.Contends) : ¬ OnList pc := by
  cases pc <;> simp_all [Pc.Contends, OnList]

/-- The invariant of a run that started with {lit}`desired` units. -/
structure WakeInv [Fintype ι] (leastMaxValue desired : UInt64) (s : System ι) : Prop where
  owner : OwnerInv s
  undisturbed : ∀ i, s.canceled i = false ∧ s.executor i = true
  shape : ∀ i, Shape leastMaxValue (s.pc i)
  conserved : s.value.toNat + acquires s.log = desired.toNat + released s.log
  nodup : (s.awaiters ()).Nodup
  onList : ∀ i ∈ s.awaiters (), OnList (s.pc i)
  pushing : ∀ i op k, s.pc i = .push op k → s.value = 0
  free : s.awaiters () ≠ [] → s.owner = none → s.value.toNat ≤ inFlight s
  taken : ∀ i, s.awaiters () ≠ [] → s.owner = some i →
    Covered s.value.toNat (inFlight s) (s.pc i)

theorem inFlight_of_inside {pc : Pc Unit Op} (h : pc.Inside ∨ pc = .aborted) :
    pc.InFlight = false := by
  rcases h with h | rfl
  · cases pc <;> simp_all [Pc.Inside, Pc.InFlight]
  · rfl

variable [Fintype ι] {leastMaxValue desired : UInt64} {s s' : System ι}

theorem WakeInv.initial (executor : ι → Bool) (hexecutor : ∀ i, executor i = true) :
    WakeInv leastMaxValue desired (Monitor.System.initial desired executor : System ι) where
  owner := OwnerInv.initial desired executor
  undisturbed := fun i => ⟨rfl, hexecutor i⟩
  shape := by simp [Monitor.System.initial, Shape]
  conserved := by simp [Monitor.System.initial, acquires, released]
  nodup := by simp [Monitor.System.initial]
  onList := by simp [Monitor.System.initial]
  pushing := by simp [Monitor.System.initial]
  free := by simp [Monitor.System.initial]
  taken := by simp [Monitor.System.initial]

namespace WakeInv

theorem not_mem (h : WakeInv leastMaxValue desired s) {i : ι} (hi : ¬ OnList (s.pc i)) :
    i ∉ s.awaiters () := by
  intro hmem
  exact hi (h.onList i hmem)

/-- While another coroutine works under the lock, those on the list wait. -/
theorem waiting_of_mem (h : WakeInv leastMaxValue desired s) {i j : ι} (howner : s.owner = some i)
    (hi : ¬ OnList (s.pc i)) (hj : j ∈ s.awaiters ()) : s.pc j = .waiting .acquire 0 ∧ j ≠ i := by
  have hlist := h.onList j hj
  have hne : j ≠ i := by
    rintro rfl
    exact hi hlist
  have hout : ¬ (s.pc j).Inside := by
    intro hinside
    have hother := h.owner.inside j hinside
    rw [howner] at hother
    exact hne (Option.some.inj hother).symm
  have hshape := h.shape j
  refine ⟨?_, hne⟩
  cases hpc : s.pc j <;> simp_all [OnList, Pc.Inside, Shape]

variable [DecidableEq ι]

/-- Moves of a coroutine that does not own the lock. -/
theorem goto_outside (h : WakeInv leastMaxValue desired s) {i : ι} {pc : Pc Unit Op}
    (hi : ¬ (s.pc i).Inside ∧ s.pc i ≠ .aborted) (hlist : ¬ OnList (s.pc i))
    (hpc : ¬ pc.Inside) (hne : pc ≠ .unwind) (hshape : Shape leastMaxValue pc)
    (hflight : pc.InFlight = (s.pc i).InFlight) :
    WakeInv leastMaxValue desired (s.goto i pc) := by
  have hsame : inFlight (s.goto i pc) = inFlight s := tally_update_of_eq hflight
  refine ⟨h.owner.goto_outside hi hpc hne, h.undisturbed, ?_, h.conserved, h.nodup, ?_, ?_, ?_, ?_⟩
  · intro j
    by_cases hj : j = i
    · subst hj
      simpa [System.goto] using hshape
    · simpa [System.goto, hj] using h.shape j
  · intro j hj
    have hji : j ≠ i := by
      rintro rfl
      exact h.not_mem hlist hj
    simpa [System.goto, hji] using h.onList j hj
  · intro j op k hj
    by_cases hji : j = i
    · subst hji
      have hpush : pc = .push op k := by simpa [System.goto] using hj
      rw [hpush] at hpc
      exact absurd trivial hpc
    · exact h.pushing j op k (by simpa [System.goto, hji] using hj)
  · rw [hsame]
    exact h.free
  · intro j hwaiting hj
    have hji : j ≠ i := by
      rintro rfl
      exact absurd (h.owner.holder j hj) (not_or.mpr hi)
    rw [hsame]
    simpa [System.goto, hji] using h.taken j hwaiting hj

/-- A coroutine goes on contending for the lock. -/
theorem contend (h : WakeInv leastMaxValue desired s) {i : ι} {pc : Pc Unit Op}
    (hi : (s.pc i).Contends) (hpc : pc.Contends) (hflight : pc.InFlight = (s.pc i).InFlight)
    (hstage : pc.stage = (s.pc i).stage) : WakeInv leastMaxValue desired (s.goto i pc) := by
  have hout := Pc.Contends.not_inside hi
  have hshape := (shape_iff_of_contends hi).mp (h.shape i)
  rw [← hflight, ← hstage] at hshape
  refine h.goto_outside ⟨hout.1, hout.2.1⟩ (not_onList_of_contends hi)
    (Pc.Contends.not_inside hpc).1 (Pc.Contends.not_inside hpc).2.2
    ((shape_iff_of_contends hpc).mpr hshape) hflight

/-- Work of the owner under the lock. -/
theorem advance (h : WakeInv leastMaxValue desired s) {i : ι} {pc : Pc Unit Op} {value : UInt64}
    {log : List (ι × Op × Except YieldError Bool)}
    (hinside : (s.pc i).Inside) (hlist : ¬ OnList (s.pc i)) (hpc : pc.Inside ∨ pc = .aborted)
    (hshape : Shape leastMaxValue pc)
    (hconserved : value.toNat + acquires log = desired.toNat + released log)
    (hpush : ∀ op k, pc = .push op k → value = 0)
    (hcovered : s.awaiters () ≠ [] → Covered value.toNat (inFlight s) pc) :
    WakeInv leastMaxValue desired { s.goto i pc with value := value, log := log } := by
  have howner := h.owner.inside i hinside
  have hflight : pc.InFlight = (s.pc i).InFlight := by
    rw [inFlight_of_inside hpc, inFlight_of_inside (Or.inl hinside)]
  have hsame : tally Pc.InFlight (Function.update s.pc i pc) = inFlight s :=
    tally_update_of_eq hflight
  refine ⟨(h.owner.goto_owner howner hpc).congr rfl rfl rfl rfl, h.undisturbed, ?_, hconserved,
    h.nodup, ?_, ?_, ?_, ?_⟩
  · intro j
    by_cases hj : j = i
    · subst hj
      simpa [System.goto] using hshape
    · simpa [System.goto, hj] using h.shape j
  · intro j hj
    have hji : j ≠ i := by
      rintro rfl
      exact h.not_mem hlist hj
    simpa [System.goto, hji] using h.onList j hj
  · intro j op k hj
    by_cases hji : j = i
    · subst hji
      exact hpush op k (by simpa [System.goto] using hj)
    · have hpc' : s.pc j = .push op k := by simpa [System.goto, hji] using hj
      have hother := h.owner.inside j (by simp [hpc', Pc.Inside])
      rw [howner] at hother
      exact absurd (Option.some.inj hother).symm hji
  · intro _ hnone
    have hnone' : s.owner = none := hnone
    rw [howner] at hnone'
    cases hnone'
  · intro j hwaiting hj
    have hj' : s.owner = some j := hj
    rw [howner] at hj'
    cases hj'
    simpa [inFlight, System.goto, hsame] using hcovered hwaiting

/-- The exchange of a free lock.  A waiter that takes the lock again is no
longer in flight, and stands before its test. -/
theorem enter (h : WakeInv leastMaxValue desired s) {i : ι} {op : Op} {k : Nat}
    (hi : (s.pc i).Contends) (hstage : (s.pc i).stage = some (op, k))
    (hfree : s.locked = false) :
    WakeInv leastMaxValue desired ((s.take i).goto i (.inside op k)) := by
  have hnone := h.owner.owner_eq_none hfree
  have hlist := not_onList_of_contends hi
  rcases (shape_iff_of_contends hi).mp (h.shape i) with ⟨op', hstage', hop⟩
  rw [hstage, Option.some.injEq, Prod.mk.injEq] at hstage'
  rcases hstage' with ⟨rfl, rfl⟩
  have htally := tally_update Pc.InFlight s.pc i (.inside op 0)
  refine ⟨h.owner.enter hfree, h.undisturbed, ?_, h.conserved, h.nodup, ?_, ?_, ?_, ?_⟩
  · intro j
    by_cases hj : j = i
    · subst hj
      simp only [System.goto, Function.update_self, Shape]
      split at hop
      · rw [hop]
        rfl
      · exact hop
    · simpa [System.goto, System.take, hj] using h.shape j
  · intro j hj
    have hji : j ≠ i := by
      rintro rfl
      exact h.not_mem hlist hj
    simpa [System.goto, System.take, hji] using h.onList j hj
  · intro j op' k' hj
    by_cases hji : j = i
    · subst hji
      simp [System.goto] at hj
    · exact h.pushing j op' k' (by simpa [System.goto, System.take, hji] using hj)
  · intro _ hno
    cases hno
  · intro j hwaiting hj
    have hji : i = j := Option.some.inj hj
    subst hji
    have hunits : s.value.toNat ≤ tally Pc.InFlight s.pc := h.free hwaiting hnone
    have hinside : Pc.InFlight (.inside op 0 : Pc Unit Op) = false := rfl
    rw [hinside] at htally
    simp only [System.goto, System.take, inFlight, Function.update_self]
    split at hop
    case isTrue hflight =>
      subst hop
      rw [hflight] at htally
      simp only [if_true, Bool.false_eq_true, if_false, Nat.add_zero] at htally
      simp only [Covered]
      omega
    case isFalse hflight =>
      rw [if_neg hflight] at htally
      simp only [Bool.false_eq_true, if_false, Nat.add_zero] at htally
      rw [htally]
      unfold Covered
      split <;> omega

/-- The owner gives the lock up. -/
theorem unlock (h : WakeInv leastMaxValue desired s) {i : ι} {pc : Pc Unit Op}
    (hinside : (s.pc i).Inside) (hpc : ¬ pc.Inside) (hne : pc ≠ .unwind)
    (hshape : Shape leastMaxValue pc) (hflight : pc.InFlight = false)
    (hlist : i ∈ s.awaiters () → OnList pc)
    (hcovered : s.awaiters () ≠ [] → s.value.toNat ≤ inFlight s) :
    WakeInv leastMaxValue desired (s.unlock i pc) := by
  have howner := h.owner.inside i hinside
  have hunlocked := h.owner.unlock howner hpc hne
  have hlocked : s.locked = true := by
    rw [h.owner.locked, howner]
    rfl
  have hflight' : pc.InFlight = (s.pc i).InFlight := by
    rw [hflight, inFlight_of_inside (Or.inl hinside)]
  have hsame : tally Pc.InFlight (Function.update s.pc i pc) = inFlight s :=
    tally_update_of_eq hflight'
  rw [System.unlock, if_pos hlocked] at hunlocked ⊢
  refine ⟨hunlocked, h.undisturbed, ?_, h.conserved, h.nodup, ?_, ?_, ?_, ?_⟩
  · intro j
    by_cases hj : j = i
    · subst hj
      simpa using hshape
    · simpa [hj] using h.shape j
  · intro j hj
    by_cases hji : j = i
    · subst hji
      simpa using hlist hj
    · simpa [hji] using h.onList j hj
  · intro j op k hj
    by_cases hji : j = i
    · subst hji
      have hpush : pc = .push op k := by simpa using hj
      rw [hpush] at hpc
      exact absurd trivial hpc
    · exact h.pushing j op k (by simpa [hji] using hj)
  · intro hwaiting _
    simpa [inFlight, hsame] using hcovered hwaiting
  · intro j _ hj
    cases hj

/-- A coroutine that found no unit puts itself on the list. -/
theorem push (h : WakeInv leastMaxValue desired s) {i : ι} (hpc : s.pc i = .push .acquire 0) :
    WakeInv leastMaxValue desired { s.goto i (.leave .acquire 0 false) with
      awaiters := Function.update s.awaiters () (i :: s.awaiters ()) } := by
  have hempty := h.pushing i _ _ hpc
  have hinside : (s.pc i).Inside := by simp [hpc, Pc.Inside]
  have hnotin := h.not_mem (i := i) (by simp [hpc, OnList])
  have hleave : WakeInv leastMaxValue desired { s.goto i (.leave .acquire 0 false) with
      value := s.value, log := s.log } :=
    h.advance hinside (by simp [hpc, OnList]) (by simp [Pc.Inside]) (by simp [Shape])
      h.conserved (by simp) (by simp [Covered, hempty])
  refine ⟨hleave.owner.congr rfl rfl rfl rfl, h.undisturbed, hleave.shape, h.conserved, ?_, ?_,
    hleave.pushing, ?_, ?_⟩
  · simpa using ⟨hnotin, h.nodup⟩
  · intro j hj
    by_cases hji : j = i
    · subst hji
      simp [System.goto, OnList]
    · exact hleave.onList j (by simpa [hji, System.goto] using hj)
  · intro _ _
    simp [System.goto, hempty]
  · intro j _ hj
    have hj' : s.owner = some j := hj
    rw [h.owner.inside i hinside] at hj'
    cases hj'
    simp [System.goto, Covered, hempty]

/-- The notification of {lit}`release`.  One waiter in flight more covers the
released unit; after {lit}`notifyAll` nobody waits. -/
theorem notify (h : WakeInv leastMaxValue desired s) {i : ι} {op : Op} {k : Nat}
    {n : Notification Unit} (hpc : s.pc i = .notifying op k n) :
    WakeInv leastMaxValue desired ((s.goto i (.inside op (k + 1))).notify n) := by
  have hinside : (s.pc i).Inside := by simp [hpc, Pc.Inside]
  have howner := h.owner.inside i hinside
  have hlist : ¬ OnList (s.pc i) := by simp [hpc, OnList]
  have hshape := h.shape i
  rw [hpc] at hshape
  rcases hshape with ⟨update, rfl, rfl, hn, hentry⟩
  have hwaiting : ∀ j ∈ n.popped (s.awaiters ()), s.pc j = .waiting .acquire 0 ∧ j ≠ i := by
    intro j hj
    exact h.waiting_of_mem howner hlist (n.mem_of_mem_popped hj)
  have hpcs : ∀ j, ((s.goto i (.inside (.release update) 1)).notify n).pc j =
      if j ∈ n.popped (s.awaiters ()) then .woken .acquire 0
      else Function.update s.pc i (.inside (.release update) 1) j := by
    intro j
    by_cases hj : j ∈ n.popped (s.awaiters ())
    · rcases hwaiting j hj with ⟨hpcj, hji⟩
      simp [System.notify, System.goto, hj, hji, hpcj, Pc.wake]
    · simp [System.notify, System.goto, hj]
  have hi : i ∉ n.popped (s.awaiters ()) := fun hi => (hwaiting i hi).2 rfl
  refine ⟨(h.owner.goto_owner howner (by simp [Pc.Inside])).notify n, h.undisturbed, ?_,
    h.conserved, ?_, ?_, ?_, ?_, ?_⟩
  · intro j
    rw [hpcs j]
    split
    · simp [Shape]
    · by_cases hji : j = i
      · subst hji
        simpa [Shape] using hentry
      · simpa [hji] using h.shape j
  · simpa [System.notify, System.goto] using n.left_nodup h.nodup
  · intro j hj
    have hleft : j ∈ n.left (s.awaiters ()) := by simpa [System.notify, System.goto] using hj
    have hmem := n.mem_of_mem_left hleft
    rcases h.waiting_of_mem howner hlist hmem with ⟨hpcj, hji⟩
    rw [hpcs j, if_neg (n.not_mem_popped_of_mem_left h.nodup hleft)]
    simp [hji, hpcj, OnList]
  · intro j op' k' hj
    rw [hpcs j] at hj
    split at hj
    · cases hj
    · by_cases hji : j = i
      · subst hji
        simp at hj
      · exact h.pushing j op' k' (by simpa [hji] using hj)
  · intro _ hnone
    have hnone' : s.owner = none := hnone
    rw [howner] at hnone'
    cases hnone'
  · intro j hleft hj
    have hj' : s.owner = some j := hj
    rw [howner] at hj'
    cases hj'
    rw [hpcs i, if_neg hi]
    have hleft' : n.left (s.awaiters ()) ≠ [] := by
      simpa [System.notify, System.goto] using hleft
    rcases n.popped_of_left_ne_nil hleft' with ⟨hone, w, hpopped, hne⟩
    have hcovered := h.taken i hne howner
    rw [hpc] at hcovered
    have hunits : s.value.toNat ≤ inFlight s + 1 := hcovered.resolve_left (by simp [hone])
    have hw := hwaiting w (by simp [hpopped])
    have hpc' : ((s.goto i (.inside (.release update) 1)).notify n).pc =
        Function.update (Function.update s.pc i (.inside (.release update) 1)) w
          (.woken .acquire 0) := by
      funext j
      rw [hpcs j, hpopped]
      by_cases hjw : j = w
      · simp [hjw]
      · simp [hjw]
    have hfirst := tally_update Pc.InFlight s.pc i (.inside (.release update) 1)
    have hsecond := tally_update Pc.InFlight
      (Function.update s.pc i (.inside (.release update) 1)) w (.woken .acquire 0)
    simp only [hpc, Function.update_of_ne hw.2, hw.1, Pc.InFlight, Bool.false_eq_true, if_false,
      if_true, Nat.add_zero] at hfirst hsecond
    simp only [Function.update_self, Covered, inFlight, hpc'] at hunits ⊢
    have hvalue : ((s.goto i (.inside (.release update) 1)).notify n).value = s.value := rfl
    rw [hvalue]
    omega

omit [DecidableEq ι] in
/-- A successful acquisition moves one unit from the counter to the log. -/
theorem conserved_take (h : WakeInv leastMaxValue desired s) (hvalue : s.value ≠ 0)
    {entry : ι × Op × Except YieldError Bool} (hacquire : acquires [entry] = 1)
    (hrelease : released [entry] = 0) :
    (s.value - 1).toNat + acquires (s.log ++ [entry]) =
      desired.toNat + released (s.log ++ [entry]) := by
  have hconserved := h.conserved
  have hpos := toNat_pos hvalue
  rw [acquires_concat, released_concat, hacquire, hrelease, toNat_sub_one hvalue]
  omega

/-! ## Steps -/

/-- The work of the three operations under the lock. -/
theorem insideStep (h : WakeInv leastMaxValue desired s) {i : ι} {op : Op} {k : Nat}
    (hpc : s.pc i = .inside op k) :
    WakeInv leastMaxValue desired (insideStep (primitive leastMaxValue) s i op k) := by
  have hinside : (s.pc i).Inside := by simp [hpc, Pc.Inside]
  have howner := h.owner.inside i hinside
  have hlist : ¬ OnList (s.pc i) := by simp [hpc, OnList]
  have hshape := h.shape i
  rw [hpc] at hshape
  have htaken := fun hwaiting => h.taken i hwaiting howner
  rw [hpc] at htaken
  have hconserved := h.conserved
  cases k with
  | succ k =>
      have hunlock : Monitor.insideStep (primitive leastMaxValue) s i op (k + 1) =
          s.unlock i .idle := by
        cases op <;> rfl
      rw [hunlock]
      refine h.unlock hinside (by simp [Pc.Inside]) (by simp) trivial rfl ?_ ?_
      · intro hmem
        exact absurd hmem (h.not_mem hlist)
      · intro hwaiting
        have hcovered := htaken hwaiting
        cases op <;> exact hcovered
  | zero =>
      cases op with
      | acquire =>
          by_cases hzero : s.value = 0
          · have hstep : Monitor.insideStep (primitive leastMaxValue) s i .acquire 0 =
                { s.goto i (.push .acquire 0) with value := s.value, log := s.log } := by
              simp [Monitor.insideStep, primitive, acquire, hzero, System.goto]
            rw [hstep]
            exact h.advance hinside hlist (by simp [Pc.Inside]) (by simp [Shape]) h.conserved
              (by simp [hzero]) (by simp [Covered, hzero])
          · have hready : 0 < s.value := by
              rw [UInt64.lt_iff_toNat_lt]
              exact toNat_pos hzero
            have hstep : Monitor.insideStep (primitive leastMaxValue) s i .acquire 0 =
                { s.goto i (.inside .acquire 1) with
                  value := s.value - 1, log := s.log ++ [(i, .acquire, .ok true)] } := by
              simp [Monitor.insideStep, primitive, acquire, hready]
            rw [hstep]
            refine h.advance hinside hlist (by simp [Pc.Inside]) rfl
              (h.conserved_take hzero rfl rfl) (by simp) ?_
            intro hwaiting
            have hcovered : s.value.toNat ≤ inFlight s + 1 := htaken hwaiting
            simp only [Covered, toNat_sub_one hzero]
            omega
      | tryAcquire =>
          by_cases hzero : s.value = 0
          · have hstep : Monitor.insideStep (primitive leastMaxValue) s i .tryAcquire 0 =
                { s.goto i (.inside .tryAcquire 1) with
                  value := s.value, log := s.log ++ [(i, .tryAcquire, .ok false)] } := by
              simp [Monitor.insideStep, primitive, tryAcquire, Section.immediate, hzero]
            rw [hstep]
            refine h.advance hinside hlist (by simp [Pc.Inside]) rfl ?_ (by simp)
              (by simp [Covered, hzero])
            rw [acquires_concat, released_concat]
            exact h.conserved
          · have hstep : Monitor.insideStep (primitive leastMaxValue) s i .tryAcquire 0 =
                { s.goto i (.inside .tryAcquire 1) with
                  value := s.value - 1, log := s.log ++ [(i, .tryAcquire, .ok true)] } := by
              simp [Monitor.insideStep, primitive, tryAcquire, Section.immediate, hzero]
            rw [hstep]
            refine h.advance hinside hlist (by simp [Pc.Inside]) rfl
              (h.conserved_take hzero rfl rfl) (by simp) ?_
            intro hwaiting
            have hcovered : s.value.toNat ≤ inFlight s := htaken hwaiting
            simp only [Covered, toNat_sub_one hzero]
            omega
      | release update =>
          have hentry : update ≤ leastMaxValue ∧ update ≠ 0 := by
            simpa [Shape, primitive] using hshape
          by_cases hassert : s.value ≤ leastMaxValue - update
          · have hstep : Monitor.insideStep (primitive leastMaxValue) s i (.release update) 0 =
                { s.goto i (.notifying (.release update) 0 ⟨(), decide (1 < update)⟩) with
                  value := s.value + update
                  log := s.log ++ [(i, .release update, .ok true)] } := by
              simp [Monitor.insideStep, primitive, release, Section.immediate, hassert]
            have hvalue := toNat_add_of_le hentry.1 hassert
            rw [hstep]
            refine h.advance hinside hlist (by simp [Pc.Inside]) ⟨update, rfl, rfl, rfl, hshape⟩ ?_
              (by simp) ?_
            · have hgain : released [(i, Op.release update, Except.ok true)] = update.toNat := by
                simp [released]
              have hnone : acquires [(i, Op.release update, Except.ok true)] = 0 := rfl
              rw [acquires_concat, released_concat, hgain, hnone, hvalue]
              omega
            · intro hwaiting
              have hcovered : s.value.toNat ≤ inFlight s := htaken hwaiting
              by_cases hmany : 1 < update
              · exact Or.inl (by simpa using hmany)
              · have hone : update.toNat ≤ 1 := by
                  rw [UInt64.lt_iff_toNat_lt] at hmany
                  exact Nat.not_lt.mp hmany
                refine Or.inr ?_
                omega
          · have hstep : Monitor.insideStep (primitive leastMaxValue) s i (.release update) 0 =
                { s.goto i .aborted with value := s.value, log := s.log } := by
              simp [Monitor.insideStep, primitive, release, Section.immediate, hassert, System.goto]
            rw [hstep]
            exact h.advance hinside hlist (Or.inr rfl) trivial h.conserved (by simp) htaken

variable {spinCount : Int}

/-- Every step except the arrival of {lit}`Terminate` keeps the invariant. -/
theorem step (h : WakeInv leastMaxValue desired s) {l : Label Op ι}
    (hl : ∀ i, l ≠ .terminate i)
    (hstep : step (primitive leastMaxValue) spinCount s l = some s') :
    WakeInv leastMaxValue desired s' := by
  have hcalm : Calm s := ⟨h.owner, h.undisturbed⟩
  have hinside : ∀ i op k, l = .go i → s.pc i = .inside op k →
      WakeInv leastMaxValue desired s' := by
    rintro i op k rfl hpc
    simp only [Monitor.step, Monitor.coroutineStep, hpc, Option.some.injEq] at hstep
    exact hstep ▸ h.insideStep hpc
  cases (hcalm.step hl hstep).2 with
  | call hidle hcontends hflight hstage hentry =>
      have hout := Pc.Contends.not_inside hcontends
      refine h.goto_outside (by simp [hidle, Pc.Inside]) (by simp [hidle, OnList]) hout.1 hout.2.2
        ((shape_iff_of_contends hcontends).mpr ⟨_, hstage, ?_⟩) (by rw [hflight, hidle]; rfl)
      rw [hflight]
      exact hentry
  | refuse hidle hentry =>
      exact h.goto_outside (by simp [hidle, Pc.Inside]) (by simp [hidle, OnList])
        (by simp [Pc.Inside]) (by simp) trivial (by simp [hidle, Pc.InFlight])
  | contend hi hcontends hflight hstage => exact h.contend hi hcontends hflight hstage
  | giveUp hi hstage hop => cases hop
  | enter hi hstage hfree => exact h.enter hi hstage hfree
  | block hi | abort hi | run hi | exit hi => exact hinside _ _ _ rfl hi
  | @push i op k sec hi hsec =>
      have hshape := h.shape i
      rw [hi] at hshape
      rcases hshape with ⟨rfl, rfl⟩
      exact h.push hi
  | @leave i op k popped hi hlocked =>
      have hshape := h.shape i
      rw [hi] at hshape
      rcases hshape with ⟨rfl, rfl, rfl⟩
      have howner : (s.pc i).Inside := by simp [hi, Pc.Inside]
      refine h.unlock howner (by simp [Pc.Inside]) (by simp) (by simp [Shape]) rfl
        (by simp [OnList]) ?_
      intro hwaiting
      have hcovered := h.taken i hwaiting (h.owner.inside i howner)
      rw [hi] at hcovered
      exact hcovered
  | notify hi => exact h.notify hi

end WakeInv

/-! ## All runs -/

/-- In every run without {lit}`Terminate`, with coroutines that have an
executor, the units are conserved, as natural numbers, so that no decrement has
wrapped; and while the lock is free and coroutines wait, there are at most as
many units as waiters in flight. -/
theorem semaphore_conserves_and_wakes [DecidableEq ι] (spinCount : Int)
    (leastMaxValue desired : UInt64) (executor : ι → Bool) (hexecutor : ∀ i, executor i = true)
    (ls : List (Label Op ι)) (hls : ∀ i, .terminate i ∉ ls) (s : System ι)
    (hrun : (machine (primitive leastMaxValue) spinCount).run
      (Monitor.System.initial desired executor) ls = some s) :
    s.value.toNat + acquires s.log = desired.toNat + released s.log ∧
      (s.locked = false → s.awaiters () ≠ [] → s.value.toNat ≤ inFlight s) := by
  have hquiet : (machine (primitive leastMaxValue) spinCount).RunsWithin
      (fun _ l => ∀ i, l ≠ .terminate i)
      (Monitor.System.initial desired executor : System ι) ls := by
    refine Machine.runsWithin_of_forall_mem _ ?_
    rintro l hl i rfl
    exact hls i hl
  have hinv : WakeInv leastMaxValue desired s :=
    Machine.runsWithin_invariant _ (fun _ _ _ h hok hstep => h.step hok hstep)
      (WakeInv.initial executor hexecutor) hquiet hrun
  refine ⟨hinv.conserved, ?_⟩
  intro hfree hwaiting
  exact hinv.free hwaiting (hinv.owner.owner_eq_none hfree)

/-- Two coroutines wait, one unit is released, one of them is woken up. -/
def oneUnitForTwo (i j k : Fin 3) : List (Label Op (Fin 3)) :=
  [.call i .acquire, .go i, .go i, .go i, .go i, .call j .acquire, .go j, .go j, .go j, .go j,
    .call k (.release 1), .go k, .go k, .go k, .go k]

theorem semaphore_conserves_and_wakes_oneUnitForTwo :
    ∃ s, (machine (primitive 5) spinCount).run
        (Monitor.System.initial 0 fun _ => true) (oneUnitForTwo 0 1 2) = some s ∧
      (s.locked = false ∧ s.awaiters () = [0] ∧ s.value = 1 ∧ s.pc 1 = .woken .acquire 0) ∧
      s.value.toNat + acquires s.log = UInt64.toNat 0 + released s.log ∧
      (s.locked = false → s.awaiters () ≠ [] → s.value.toNat ≤ inFlight s) := by
  rcases Machine.exists_run_of_any (machine (primitive 5) spinCount)
    (Monitor.System.initial 0 fun _ => true) (oneUnitForTwo 0 1 2)
    (fun s => s.locked = false ∧ s.awaiters () = [0] ∧ s.value = 1 ∧ s.pc 1 = .woken .acquire 0)
    (by decide) with ⟨s, hrun, hs⟩
  exact ⟨s, hrun, hs, semaphore_conserves_and_wakes _ _ _ _ (fun _ => rfl) (oneUnitForTwo 0 1 2)
    (by decide) s hrun⟩

end CountingSemaphore

end AsyncSimple
