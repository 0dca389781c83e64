import AsyncSimple.Coro.ConditionVariable
import Mathlib.Data.Fintype.Basic

/-!
# Notifications of a condition variable

The list of awaiters is a stack from which {lit}`notifyOne` pops.  The pop reads
{lit}`_next` of the head it has loaded, and is right as long as no other notifier
unlinks that head in the meantime.

Main results:

- Theorem {lit}`null_next_is_read`: two calls of {lit}`notifyOne` on a list with
  one awaiter, one of which follows a null pointer.
- Theorem {lit}`Inv.step`: the invariant of every step that does not unlink an
  awaiter another {lit}`notifyOne` has loaded.
- Theorem {lit}`notifications_resume_once`: the consequence for runs.
-/

namespace AsyncSimple

open Transition PointerList

namespace ConditionVariable

variable {ι κ : Type}

/-! ## What is promised -/

/-- The awaiters a call still has to resume. -/
def Ahead (next : ι → Option ι) (l : List ι) : NotifierPc ι → Prop
  | .unlink a => l = [a]
  | .walk p => Chain next p l
  | .resume a p => ∃ rest, l = a :: rest ∧ Chain next p rest
  | _ => l = []

/-- The awaiter that a {lit}`notifyOne` has loaded and not yet unlinked. -/
def NotifierPc.held : NotifierPc ι → Option ι
  | .next awaitings => awaitings
  | .casOne awaitings _ => some awaitings
  | _ => none

/-- What holds of a condition variable: no fault, every awaiter is resumed at most
once for each time it was enqueued, one that was not resumed yet is on the list or
ahead of a notifier, and a call of {lit}`notifyOne` that has returned resumed the
awaiter it had unlinked, if any. -/
structure Sound (s : System ι κ) : Prop where
  faults : s.faults = []
  once : ∀ i, s.resumed i ≤ s.enqueued i ∧ s.enqueued i ≤ s.resumed i + 1
  kept : ∀ i, s.enqueued i = s.resumed i + 1 →
    (∃ l, Chain s.next s.awaiters l ∧ i ∈ l) ∨ ∃ k l, Ahead s.next l (s.notifier k) ∧ i ∈ l
  one : ∀ k, s.kind k = .one → s.notifier k = .returned →
    s.woke k = s.took k ∧ (s.took k).length ≤ 1

variable [DecidableEq ι] [DecidableEq κ]

/-- The step does not unlink an awaiter that another call of {lit}`notifyOne` has
loaded. -/
def Unshared (s : System ι κ) : Label ι κ → Prop
  | .notifier k false =>
      match s.notifier k with
      | .casOne awaitings _ => s.awaiters = some awaitings →
          ∀ k', k' ≠ k → (s.notifier k').held ≠ some awaitings
      | .casAll awaitings => s.awaiters = awaitings → ∀ k', k' ≠ k → (s.notifier k').held = none
      | _ => True
  | _ => True

instance [Fintype κ] (s : System ι κ) (l : Label ι κ) : Decidable (Unshared s l) := by
  unfold Unshared
  split
  · split <;> infer_instance
  · infer_instance

/-- Coroutine {lit}`i` waits, and both notifiers load it.  Notifier {lit}`k` unlinks
it, and the failed exchange leaves null in the local variable of notifier {lit}`l`. -/
def bothLoadTheHead (i : Fin 1) (k l : Fin 2) : List (Label (Fin 1) (Fin 2)) :=
  [.wait i, .waiter i false, .waiter i false, .waiter i false, .notify k .one, .notify l .one,
    .notifier k false, .notifier l false, .notifier k false, .notifier l false,
    .notifier k false, .notifier l false, .notifier l false]

theorem null_next_is_read :
    ∃ s, machine.run (System.initial fun _ => none) (bothLoadTheHead 0 0 1) = some s ∧
      s.faults = [.nullNext 1] ∧ s.notifier 1 = .crashed ∧ ¬ Sound s := by
  rcases machine.exists_run_of_any (System.initial fun _ => none) (bothLoadTheHead 0 0 1)
    (fun s => s.faults = [.nullNext 1] ∧ s.notifier 1 = .crashed)
    (by decide) with ⟨s, hrun, hfaults, hcrashed⟩
  refine ⟨s, hrun, hfaults, hcrashed, ?_⟩
  intro hsound
  have hnone := hsound.faults
  rw [hfaults] at hnone
  cases hnone

/-! ## The invariant -/

omit [DecidableEq ι] [DecidableEq κ] in
/-- What a call of {lit}`notifyOne` knows about the head it has loaded, and what it
has done so far. -/
def NotifierPc.Knows (next : ι → Option ι) (stack took woke : List ι) (kind : Kind) :
    NotifierPc ι → Prop
  | .next awaitings => (∃ a, awaitings = some a ∧ a ∈ stack) ∧ took = [] ∧ woke = []
  | .casOne awaitings p => awaitings ∈ stack ∧ next awaitings = p ∧ took = [] ∧ woke = []
  | .load => took = [] ∧ woke = []
  | .casAll _ => kind = .all
  | .unlink awaitings => took = [awaitings] ∧ woke = []
  | .walk awaiters => kind = .one →
      took.length = 1 ∧ (awaiters = none ∧ woke = took ∨
        ∃ a, awaiters = some a ∧ took = [a] ∧ next a = none ∧ woke = [])
  | .resume prev awaiters => kind = .one → took = [prev] ∧ awaiters = none ∧ woke = []
  | .returned => kind = .one → woke = took ∧ took.length ≤ 1
  | .crashed => False
  | .idle => True

/-- The stack of the enqueued awaiters and the lists of the notifiers. -/
structure Inv (s : System ι κ) (stack : List ι) (taken : κ → List ι) : Prop where
  owned : Owned stack taken
  chain : Chain s.next s.awaiters stack
  ahead : ∀ k, Ahead s.next (taken k) (s.notifier k)
  suspended : ∀ i, s.waiter i = .suspended ↔ Listed stack taken i
  linked : ∀ i awaitings, s.waiter i = .cas awaitings → s.next i = awaitings
  knows : ∀ k, (s.notifier k).Knows s.next stack (s.took k) (s.woke k) (s.kind k)
  counts : ∀ i, s.enqueued i = s.resumed i + if s.waiter i = .suspended then 1 else 0
  faults : s.faults = []

namespace Inv

variable {s s' : System ι κ} {stack : List ι} {taken : κ → List ι}

omit [DecidableEq κ] in
theorem initial (next : ι → Option ι) :
    Inv (System.initial next : System ι κ) [] fun _ => [] where
  owned := Owned.empty
  chain := rfl
  ahead := fun _ => rfl
  suspended := fun i => by simp [System.initial, Listed]
  linked := nofun
  knows := fun _ => trivial
  counts := fun i => by simp [System.initial]
  faults := rfl

omit [DecidableEq κ] in
theorem sound (h : Inv s stack taken) : Sound s where
  faults := h.faults
  once := balance_bounds h.counts
  kept := by
    intro i hi
    have hsuspended := inside_of_lt h.counts (by omega : s.resumed i < s.enqueued i)
    rcases (h.suspended i).mp hsuspended with hstack | ⟨k, hk⟩
    · exact .inl ⟨stack, h.chain, hstack⟩
    · exact .inr ⟨k, taken k, h.ahead k, hk⟩
  one := by
    intro k hkind hreturned
    have hknows := h.knows k
    rw [hreturned] at hknows
    exact hknows hkind

/-! ### Steps of a coroutine -/

omit [DecidableEq κ] in
/-- A coroutine that is not on a list moves to a program point where it is not
either. -/
theorem setWaiter (h : Inv s stack taken) {i : ι} {pc : WaiterPc ι}
    (hi : s.waiter i ≠ .suspended) (hpc : pc ≠ .suspended)
    (hlinked : ∀ awaitings, pc = .cas awaitings → s.next i = awaitings) :
    Inv (s.setWaiter i pc) stack taken := by
  refine ⟨h.owned, h.chain, h.ahead, ?_, ?_, h.knows, ?_, h.faults⟩
  · intro j
    rw [← h.suspended j]
    by_cases hj : j = i
    · subst hj
      simp [System.setWaiter, hi, hpc]
    · simp [System.setWaiter, hj]
  · intro j awaitings hj
    by_cases hji : j = i
    · subst hji
      exact hlinked awaitings (by simpa [System.setWaiter] using hj)
    · exact h.linked j awaitings (by simpa [System.setWaiter, hji] using hj)
  · exact balance_move h.counts hi hpc

end Inv

/-! ## What other steps leave alone -/

omit [DecidableEq κ] in
theorem Ahead.update {next : ι → Option ι} {l : List ι} {pc : NotifierPc ι} {i : ι}
    {p : Option ι} (h : Ahead next l pc) (hi : i ∉ l) : Ahead (Function.update next i p) l pc := by
  cases pc with
  | walk q => exact Chain.update h hi
  | resume a q =>
      rcases h with ⟨rest, rfl, hrest⟩
      exact ⟨rest, rfl, hrest.update fun hmem => hi (List.mem_cons_of_mem _ hmem)⟩
  | _ => exact h

omit [DecidableEq κ] in
/-- A write to an awaiter that is neither on the stack nor ahead of the call. -/
theorem NotifierPc.Knows.update {next : ι → Option ι} {stack took woke l : List ι} {kind : Kind}
    {pc : NotifierPc ι} {i : ι} {p : Option ι} (h : pc.Knows next stack took woke kind)
    (hahead : Ahead next l pc) (hi : i ∉ stack) (hl : i ∉ l) :
    pc.Knows (Function.update next i p) stack took woke kind := by
  cases pc with
  | casOne a q =>
      rcases h with ⟨hmem, hnext, hrest⟩
      have hne : a ≠ i := fun hai => hi (hai ▸ hmem)
      exact ⟨hmem, by rwa [Function.update_of_ne hne], hrest⟩
  | walk q =>
      intro hkind
      rcases h hkind with ⟨hlength, hend | ⟨a, rfl, htook, hnext, hwoke⟩⟩
      · exact ⟨hlength, .inl hend⟩
      · rcases chain_some hahead with ⟨rest, rfl, -⟩
        have hne : a ≠ i := fun hai => hl (hai ▸ List.mem_cons_self)
        exact ⟨hlength, .inr ⟨a, rfl, htook, by rwa [Function.update_of_ne hne], hwoke⟩⟩
  | _ => exact h

omit [DecidableEq ι] [DecidableEq κ] in
/-- Only an awaiter that the call has loaded must stay on the stack. -/
theorem NotifierPc.Knows.restack {next : ι → Option ι} {stack stack' took woke : List ι}
    {kind : Kind} {pc : NotifierPc ι} (h : pc.Knows next stack took woke kind)
    (hmem : ∀ a, pc.held = some a → a ∈ stack → a ∈ stack') :
    pc.Knows next stack' took woke kind := by
  cases pc with
  | next q =>
      rcases h with ⟨⟨a, rfl, ha⟩, hrest⟩
      exact ⟨⟨a, rfl, hmem a rfl ha⟩, hrest⟩
  | casOne a q => exact ⟨hmem a rfl h.1, h.2⟩
  | _ => exact h

namespace Inv

variable {s s' : System ι κ} {stack : List ι} {taken : κ → List ι}

omit [DecidableEq κ] in
theorem not_listed (h : Inv s stack taken) {i : ι} (hi : s.waiter i ≠ .suspended) :
    i ∉ stack ∧ ∀ k, i ∉ taken k := by
  have hfree := fun hlisted => hi ((h.suspended i).mpr hlisted)
  exact ⟨fun hmem => hfree (.inl hmem), fun k hmem => hfree (.inr ⟨k, hmem⟩)⟩

omit [DecidableEq κ] in
/-- {lit}`_next = awaitings`. -/
theorem link (h : Inv s stack taken) {i : ι} {awaitings : Option ι}
    (hi : s.waiter i = .link awaitings) :
    Inv ((s.setNext i awaitings).setWaiter i (.cas awaitings)) stack taken := by
  rcases h.not_listed (i := i) (by simp [hi]) with ⟨hstack, htaken⟩
  have hnext : Inv (s.setNext i awaitings) stack taken := by
    refine ⟨h.owned, h.chain.update hstack, fun k => (h.ahead k).update (htaken k), h.suspended, ?_,
      fun k => (h.knows k).update (h.ahead k) hstack (htaken k), h.counts, h.faults⟩
    intro j old hj
    have hji : j ≠ i := by
      intro hji
      rw [hji] at hj
      have hcas : s.waiter i = .cas old := hj
      rw [hi] at hcas
      cases hcas
    have hlinked := h.linked j old hj
    simpa [System.setNext, hji] using hlinked
  refine hnext.setWaiter (by simp [System.setNext, hi]) (by simp) ?_
  intro old hold
  cases hold
  simp [System.setNext]

omit [DecidableEq κ] in
/-- The exchange of the head for the awaiter. -/
theorem enqueue (h : Inv s stack taken) {i : ι} (hi : s.waiter i = .cas s.awaiters) :
    Inv (s.enqueue i) (i :: stack) taken := by
  have hfree : ¬ Listed stack taken i := by
    rw [← h.suspended i, hi]
    nofun
  refine ⟨h.owned.push hfree, ⟨rfl, ?_⟩, h.ahead, ?_, ?_, ?_, ?_, h.faults⟩
  · have hlinked := h.linked i _ hi
    have hchain : Chain s.next (s.next i) stack := by
      rw [hlinked]
      exact h.chain
    exact hchain
  · intro j
    rw [listed_push, ← h.suspended j]
    by_cases hj : j = i
    · subst hj
      simp [System.enqueue, System.setWaiter]
    · simp [System.enqueue, System.setWaiter, hj]
  · intro j old hj
    have hji : j ≠ i := by
      intro hji
      rw [hji] at hj
      simp [System.enqueue, System.setWaiter] at hj
    exact h.linked j old (by simpa [System.enqueue, System.setWaiter, hji] using hj)
  · intro k
    exact (h.knows k).restack fun a _ hmem => List.mem_cons_of_mem _ hmem
  · exact balance_enter h.counts (by simp [hi])

omit [DecidableEq κ] in
theorem waiterStep (h : Inv s stack taken) {i : ι} {spurious : Bool}
    (hstep : waiterStep s i spurious = some s') : ∃ stack', Inv s' stack' taken := by
  unfold ConditionVariable.waiterStep at hstep
  cases hpc : s.waiter i with
  | running | suspended =>
      rw [hpc] at hstep
      cases hstep
  | load =>
      rw [hpc] at hstep
      cases hstep
      exact ⟨stack, h.setWaiter (by simp [hpc]) (by simp) nofun⟩
  | link awaitings =>
      rw [hpc] at hstep
      cases hstep
      exact ⟨stack, h.link hpc⟩
  | cas awaitings =>
      rw [hpc] at hstep
      dsimp only at hstep
      split at hstep
      case isTrue hwon =>
        cases hstep
        rw [← hwon.1] at hpc
        exact ⟨i :: stack, h.enqueue hpc⟩
      case isFalse =>
        cases hstep
        exact ⟨stack, h.setWaiter (by simp [hpc]) (by simp) nofun⟩

/-! ### Steps of a notifier -/

/-- A notifier moves and has the same awaiters ahead. -/
theorem setNotifier (h : Inv s stack taken) {k : κ} {pc : NotifierPc ι}
    (hahead : Ahead s.next (taken k) pc)
    (hknows : pc.Knows s.next stack (s.took k) (s.woke k) (s.kind k)) :
    Inv (s.setNotifier k pc) stack taken := by
  refine ⟨h.owned, h.chain, ?_, h.suspended, h.linked, ?_, h.counts, h.faults⟩
  · intro k'
    by_cases hk : k' = k
    · subst hk
      simpa [System.setNotifier] using hahead
    · simpa [System.setNotifier, hk] using h.ahead k'
  · intro k'
    by_cases hk : k' = k
    · subst hk
      simpa [System.setNotifier] using hknows
    · simpa [System.setNotifier, hk] using h.knows k'

/-- A new call of a notification. -/
theorem call (h : Inv s stack taken) {k : κ} {kind : Kind} (hk : taken k = []) :
    Inv { s.setNotifier k .load with
      kind := Function.update s.kind k kind
      took := Function.update s.took k []
      woke := Function.update s.woke k [] } stack taken := by
  refine ⟨h.owned, h.chain, ?_, h.suspended, h.linked, ?_, h.counts, h.faults⟩
  · intro k'
    by_cases hkk : k' = k
    · subst hkk
      simpa [System.setNotifier, Ahead] using hk
    · simpa [System.setNotifier, hkk] using h.ahead k'
  · intro k'
    by_cases hkk : k' = k
    · subst hkk
      simp [System.setNotifier, NotifierPc.Knows]
    · simpa [System.setNotifier, hkk] using h.knows k'

/-- {lit}`notifyOne` unlinks the head. -/
theorem pop (h : Inv s stack taken) {k : κ} {a : ι} {p : Option ι}
    (hk : s.notifier k = .casOne a p) (hhead : s.awaiters = some a)
    (hunshared : ∀ k', k' ≠ k → (s.notifier k').held ≠ some a) :
    ∃ stack', Inv { s.setNotifier k (.unlink a) with
      awaiters := p
      took := Function.update s.took k [a] } stack' (Function.update taken k [a]) := by
  have hchain := h.chain
  rw [hhead] at hchain
  rcases chain_some hchain with ⟨rest, rfl, hrest⟩
  have hknows := h.knows k
  rw [hk] at hknows
  rcases hknows with ⟨-, hnext, htook, hwoke⟩
  rw [hnext] at hrest
  have hempty : taken k = [] := by
    have hahead := h.ahead k
    rw [hk] at hahead
    exact hahead
  refine ⟨rest, ?_, hrest, ?_, ?_, h.linked, ?_, h.counts, h.faults⟩
  · have howned : Owned ([a] ++ rest) taken := h.owned
    exact howned.take hempty
  · intro k'
    by_cases hkk : k' = k
    · subst hkk
      simp [System.setNotifier, Ahead]
    · simpa [System.setNotifier, hkk] using h.ahead k'
  · intro i
    rw [listed_take hempty]
    exact h.suspended i
  · intro k'
    by_cases hkk : k' = k
    · subst hkk
      simpa [System.setNotifier, NotifierPc.Knows] using hwoke
    · have hkept : ∀ b, (s.notifier k').held = some b → b ∈ a :: rest → b ∈ rest := by
        intro b hheld hmem
        have hne : b ≠ a := by
          intro hba
          rw [hba] at hheld
          exact hunshared k' hkk hheld
        exact (List.mem_cons.mp hmem).resolve_left hne
      have hother := (h.knows k').restack hkept
      simpa [System.setNotifier, hkk] using hother

/-- {lit}`awaitings->_next = nullptr`. -/
theorem unlink (h : Inv s stack taken) {k : κ} {a : ι} (hk : s.notifier k = .unlink a) :
    Inv ((s.setNext a none).setNotifier k (.walk (some a))) stack taken := by
  have htaken : taken k = [a] := by
    have hahead := h.ahead k
    rw [hk] at hahead
    exact hahead
  have hmem : a ∈ taken k := by
    rw [htaken]
    exact List.mem_singleton_self a
  have hstack : a ∉ stack := h.owned.apart k a hmem
  have hother : ∀ k', k' ≠ k → a ∉ taken k' := fun k' hne hmem' =>
    hne (h.owned.single k' k a hmem' hmem)
  have hsuspended := (h.suspended a).mpr (.inr ⟨k, hmem⟩)
  have hknows := h.knows k
  rw [hk] at hknows
  refine ⟨h.owned, h.chain.update hstack, ?_, h.suspended, ?_, ?_, h.counts, h.faults⟩
  · intro k'
    by_cases hkk : k' = k
    · subst hkk
      simp [System.setNotifier, System.setNext, Ahead, htaken]
    · simpa [System.setNotifier, System.setNext, hkk] using
        (h.ahead k').update (p := none) (hother k' hkk)
  · intro j old hj
    have hja : j ≠ a := by
      intro hja
      rw [hja] at hj
      have hcas : s.waiter a = .cas old := hj
      rw [hsuspended] at hcas
      cases hcas
    have hlinked := h.linked j old hj
    simpa [System.setNotifier, System.setNext, hja] using hlinked
  · intro k'
    by_cases hkk : k' = k
    · subst hkk
      simp [System.setNotifier, System.setNext, NotifierPc.Knows, hknows.1, hknows.2]
    · simpa [System.setNotifier, System.setNext, hkk] using
        (h.knows k').update (p := none) (h.ahead k') hstack (hother k' hkk)

/-- {lit}`notifyAll` unlinks everything. -/
theorem takeAll (h : Inv s stack taken) {k : κ} {p : Option ι} (hk : s.notifier k = .casAll p)
    (hhead : s.awaiters = p) (hunshared : ∀ k', k' ≠ k → (s.notifier k').held = none) :
    Inv { s.setNotifier k (.walk p) with awaiters := none } [] (Function.update taken k stack) := by
  have hempty : taken k = [] := by
    have hahead := h.ahead k
    rw [hk] at hahead
    exact hahead
  have hkind : s.kind k = .all := by
    have hknows := h.knows k
    rw [hk] at hknows
    exact hknows
  have howned : Owned (stack ++ []) taken := by
    rw [List.append_nil]
    exact h.owned
  refine ⟨howned.take hempty, rfl, ?_, ?_, h.linked, ?_, h.counts, h.faults⟩
  · intro k'
    by_cases hkk : k' = k
    · subst hkk
      simpa [System.setNotifier, Ahead, ← hhead] using h.chain
    · simpa [System.setNotifier, hkk] using h.ahead k'
  · intro i
    rw [listed_take hempty, List.append_nil]
    exact h.suspended i
  · intro k'
    by_cases hkk : k' = k
    · subst hkk
      simp [System.setNotifier, NotifierPc.Knows, hkind]
    · have hkept : ∀ b, (s.notifier k').held = some b → b ∈ stack → b ∈ [] := by
        intro b hheld
        rw [hunshared k' hkk] at hheld
        cases hheld
      have hother := (h.knows k').restack hkept
      simpa [System.setNotifier, hkk] using hother

/-- {lit}`resumeWaiters` resumes the awaiter it has stepped over. -/
theorem resume (h : Inv s stack taken) {k : κ} {a : ι} {p : Option ι}
    (hk : s.notifier k = .resume a p) :
    ∃ rest, taken k = a :: rest ∧ s.waiter a = .suspended ∧
      Inv ((s.resume k a).setNotifier k (.walk p)) stack (Function.update taken k rest) := by
  have hahead := h.ahead k
  rw [hk] at hahead
  rcases hahead with ⟨rest, htaken, hchain⟩
  have hmem : a ∈ taken k := by
    rw [htaken]
    exact List.mem_cons_self
  have hsuspended := (h.suspended a).mpr (.inr ⟨k, hmem⟩)
  have hknows := h.knows k
  rw [hk] at hknows
  refine ⟨rest, htaken, hsuspended, ?_⟩
  rw [System.resume, if_pos hsuspended]
  refine ⟨h.owned.drop htaken, h.chain, ?_, ?_, ?_, ?_, ?_, h.faults⟩
  · intro k'
    by_cases hkk : k' = k
    · subst hkk
      simpa [System.setNotifier, System.setWaiter, Ahead] using hchain
    · simpa [System.setNotifier, System.setWaiter, hkk] using h.ahead k'
  · intro i
    rw [h.owned.listed_drop htaken, ← h.suspended i]
    by_cases hi : i = a
    · subst hi
      simp [System.setNotifier, System.setWaiter]
    · simp [System.setNotifier, System.setWaiter, hi]
  · intro j old hj
    have hja : j ≠ a := by
      intro hja
      rw [hja] at hj
      simp [System.setNotifier, System.setWaiter] at hj
    exact h.linked j old (by simpa [System.setNotifier, System.setWaiter, hja] using hj)
  · intro k'
    by_cases hkk : k' = k
    · subst hkk
      simp only [System.setNotifier, System.setWaiter, Function.update_self]
      intro hkind
      rcases hknows hkind with ⟨htook, hnone, hwoke⟩
      refine ⟨by rw [htook]; rfl, .inl ⟨hnone, ?_⟩⟩
      rw [htook, hwoke]
      rfl
    · simpa [System.setNotifier, System.setWaiter, hkk] using h.knows k'
  · exact balance_leave h.counts hsuspended (by simp)

theorem notifierStep (h : Inv s stack taken) {k : κ} {spurious : Bool}
    (hunshared : Unshared s (.notifier k spurious))
    (hstep : notifierStep s k spurious = some s') : ∃ stack' taken', Inv s' stack' taken' := by
  have hahead := h.ahead k
  have hknows := h.knows k
  unfold ConditionVariable.notifierStep at hstep
  cases hpc : s.notifier k with
  | idle | returned | crashed =>
      rw [hpc] at hstep
      cases hstep
  | load =>
      rw [hpc] at hstep hahead hknows
      dsimp only at hstep
      split at hstep
      case h_1 hkind =>
        split at hstep
        case isTrue hnone =>
          cases hstep
          refine ⟨stack, taken, h.setNotifier hahead ?_⟩
          intro _
          rw [hknows.1, hknows.2]
          exact ⟨rfl, Nat.zero_le 1⟩
        case isFalse hsome =>
          cases hstep
          refine ⟨stack, taken, h.setNotifier hahead ⟨?_, hknows⟩⟩
          rcases Option.ne_none_iff_exists'.mp hsome with ⟨a, ha⟩
          have hchain := h.chain
          rw [ha] at hchain
          rcases chain_some hchain with ⟨rest, rfl, -⟩
          exact ⟨a, ha, List.mem_cons_self⟩
      case h_2 hkind =>
        cases hstep
        exact ⟨stack, taken, h.setNotifier hahead hkind⟩
  | next awaitings =>
      rw [hpc] at hstep hahead hknows
      rcases hknows with ⟨⟨a, rfl, hmem⟩, hrest⟩
      have hsuspended := (h.suspended a).mpr (.inl hmem)
      simp only [hsuspended, if_true] at hstep
      cases hstep
      exact ⟨stack, taken, h.setNotifier hahead ⟨hmem, rfl, hrest⟩⟩
  | casOne a p =>
      rw [hpc] at hstep hknows
      dsimp only at hstep
      split at hstep
      case isTrue hwon =>
        cases hstep
        rcases hwon with ⟨hhead, rfl⟩
        simp only [Unshared, hpc] at hunshared
        rcases h.pop hpc hhead (hunshared hhead) with ⟨stack', hinv⟩
        exact ⟨stack', _, hinv⟩
      case isFalse =>
        cases hstep
        rw [hpc] at hahead
        refine ⟨stack, taken, h.setNotifier hahead ⟨?_, hknows.2.2⟩⟩
        -- the head that the call had loaded is still on the stack
        cases hhead : s.awaiters with
        | none =>
            have hchain := h.chain
            rw [hhead, chain_none] at hchain
            rw [hchain] at hknows
            cases hknows.1
        | some b =>
            have hchain := h.chain
            rw [hhead] at hchain
            rcases chain_some hchain with ⟨rest, rfl, -⟩
            exact ⟨b, rfl, List.mem_cons_self⟩
  | unlink a =>
      rw [hpc] at hstep
      cases hstep
      exact ⟨stack, taken, h.unlink hpc⟩
  | casAll p =>
      rw [hpc] at hstep hknows hahead
      dsimp only at hstep
      split at hstep
      case isTrue hwon =>
        cases hstep
        rcases hwon with ⟨hhead, rfl⟩
        simp only [Unshared, hpc] at hunshared
        exact ⟨[], _, h.takeAll hpc hhead (hunshared hhead)⟩
      case isFalse =>
        cases hstep
        exact ⟨stack, taken, h.setNotifier hahead hknows⟩
  | walk p =>
      rw [hpc] at hstep hknows hahead
      cases p with
      | none =>
          cases hstep
          refine ⟨stack, taken, h.setNotifier (chain_none.mp hahead) ?_⟩
          intro hkind
          rcases hknows hkind with ⟨hlength, ⟨-, hwoke⟩ | ⟨a, hnone, -⟩⟩
          · exact ⟨hwoke, Nat.le_of_eq hlength⟩
          · cases hnone
      | some a =>
          cases hstep
          rcases chain_some hahead with ⟨rest, hrest, hchain⟩
          refine ⟨stack, taken, h.setNotifier ⟨rest, hrest, hchain⟩ ?_⟩
          intro hkind
          rcases hknows hkind with ⟨-, ⟨hnone, -⟩ | ⟨b, hb, htook, hnext, hwoke⟩⟩
          · cases hnone
          · cases hb
            exact ⟨htook, hnext, hwoke⟩
  | resume a p =>
      rw [hpc] at hstep
      cases hstep
      rcases h.resume hpc with ⟨rest, -, -, hinv⟩
      exact ⟨stack, _, hinv⟩

/-- Every step that does not unlink what another {lit}`notifyOne` has loaded keeps
the invariant. -/
theorem step (h : Inv s stack taken) {l : Label ι κ} (hunshared : Unshared s l)
    (hstep : step s l = some s') : ∃ stack' taken', Inv s' stack' taken' := by
  cases l with
  | wait i =>
      simp only [ConditionVariable.step] at hstep
      split at hstep
      case h_1 hpc =>
        cases hstep
        exact ⟨stack, taken, h.setWaiter (by simp [hpc]) (by simp) nofun⟩
      case h_2 => cases hstep
  | waiter i spurious =>
      rcases h.waiterStep hstep with ⟨stack', hinv⟩
      exact ⟨stack', taken, hinv⟩
  | notify k kind =>
      have hahead := h.ahead k
      simp only [ConditionVariable.step] at hstep
      split at hstep
      case h_1 hpc | h_2 hpc =>
        cases hstep
        rw [hpc] at hahead
        exact ⟨stack, taken, h.call hahead⟩
      case h_3 => cases hstep
  | notifier k spurious => exact h.notifierStep hunshared hstep

/-! ### A call goes on to its end -/

/-- From the head of its loop {lit}`resumeWaiters` resumes everything ahead. -/
theorem finish_walk (h : Inv s stack taken) {k : κ} {p : Option ι}
    (hk : s.notifier k = .walk p) :
    ∃ ks t, (∀ m ∈ ks, m = .notifier k false) ∧ machine.run s ks = some t ∧
      t.notifier k = .returned ∧ t.woke k = s.woke k ++ taken k := by
  induction hl : taken k generalizing s stack taken p with
  | nil =>
      have hahead := h.ahead k
      rw [hk, hl] at hahead
      have hnone : p = none := hahead
      subst hnone
      refine ⟨[.notifier k false], s.setNotifier k .returned, by simp, ?_, ?_, ?_⟩
      · simp [Machine.run, machine, ConditionVariable.step, ConditionVariable.notifierStep, hk]
      · simp [System.setNotifier]
      · simp [System.setNotifier]
  | cons a rest ih =>
      have hahead := h.ahead k
      rw [hk, hl] at hahead
      rcases hahead with ⟨rfl, hchain⟩
      have hknows := h.knows k
      rw [hk] at hknows
      -- one round of the loop
      let s₁ := s.setNotifier k (.resume a (s.next a))
      have hstep₁ : machine.step s (.notifier k false) = some s₁ := by
        simp [machine, ConditionVariable.step, ConditionVariable.notifierStep, hk, s₁]
      have hunshared : Unshared s (.notifier k false) := by simp [Unshared, hk]
      rcases h.notifierStep hunshared hstep₁ with ⟨stack₁, taken₁, h₁⟩
      have hk₁ : s₁.notifier k = .resume a (s.next a) := by simp [s₁, System.setNotifier]
      rcases h₁.resume hk₁ with ⟨rest₁, htaken₁, hsuspended, h₂⟩
      have hrest : rest₁ = rest := by
        have hahead₁ := h₁.ahead k
        rw [hk₁, htaken₁] at hahead₁
        rcases hahead₁ with ⟨rest₂, heq, hchain₂⟩
        cases heq
        exact hchain₂.unique hchain
      subst hrest
      have hstep₂ : machine.step s₁ (.notifier k false) =
          some ((s₁.resume k a).setNotifier k (.walk (s.next a))) := by
        simp [machine, ConditionVariable.step, ConditionVariable.notifierStep, hk₁]
      rcases ih h₂ (p := s.next a) (by simp [System.setNotifier]) (by simp) with
        ⟨ks, t, hks, hrun, hreturned, hwoke⟩
      refine ⟨.notifier k false :: .notifier k false :: ks, t, ?_, ?_, hreturned, ?_⟩
      · intro m hm
        simp only [List.mem_cons] at hm
        rcases hm with rfl | rfl | hm
        · rfl
        · rfl
        · exact hks m hm
      · exact machine.run_cons_eq_some.mpr ⟨s₁, hstep₁, machine.run_cons_eq_some.mpr
          ⟨_, hstep₂, hrun⟩⟩
      · rw [hwoke]
        have hsuspended' : s.waiter a = .suspended := hsuspended
        simp [s₁, System.setNotifier, System.resume, System.setWaiter, hsuspended']

/-- A call that has awaiters ahead resumes all of them. -/
theorem finish (h : Inv s stack taken) {k : κ} {l : List ι}
    (hahead : Ahead s.next l (s.notifier k)) (hne : l ≠ []) :
    ∃ ks t, (∀ m ∈ ks, m = .notifier k false) ∧ machine.run s ks = some t ∧
      t.notifier k = .returned ∧ t.woke k = s.woke k ++ l := by
  have htaken := h.ahead k
  cases hk : s.notifier k with
  | walk p =>
      rw [hk] at hahead htaken
      rw [Chain.unique hahead htaken]
      exact h.finish_walk hk
  | unlink a =>
      rw [hk] at hahead htaken
      have hl : l = taken k := by
        rw [show l = [a] from hahead]
        exact htaken.symm
      have hstep : machine.step s (.notifier k false) =
          some ((s.setNext a none).setNotifier k (.walk (some a))) := by
        simp [machine, ConditionVariable.step, ConditionVariable.notifierStep, hk]
      rcases (h.unlink hk).finish_walk (k := k) (p := some a) (by simp [System.setNotifier]) with
        ⟨ks, t, hks, hrun, hreturned, hwoke⟩
      refine ⟨.notifier k false :: ks, t, ?_, machine.run_cons_eq_some.mpr ⟨_, hstep, hrun⟩,
        hreturned, ?_⟩
      · intro m hm
        rcases List.mem_cons.mp hm with rfl | hm
        · rfl
        · exact hks m hm
      · rw [hwoke, hl]
        rfl
  | resume a p =>
      rw [hk] at hahead
      rcases hahead with ⟨rest, rfl, hchain⟩
      rcases h.resume hk with ⟨rest', htaken', hsuspended, hinv⟩
      have hrest : rest' = rest := by
        rw [hk, htaken'] at htaken
        rcases htaken with ⟨rest₂, heq, hchain₂⟩
        cases heq
        exact hchain₂.unique hchain
      subst hrest
      have hstep : machine.step s (.notifier k false) =
          some ((s.resume k a).setNotifier k (.walk p)) := by
        simp [machine, ConditionVariable.step, ConditionVariable.notifierStep, hk]
      rcases hinv.finish_walk (k := k) (p := p) (by simp [System.setNotifier]) with
        ⟨ks, t, hks, hrun, hreturned, hwoke⟩
      refine ⟨.notifier k false :: ks, t, ?_, machine.run_cons_eq_some.mpr ⟨_, hstep, hrun⟩,
        hreturned, ?_⟩
      · intro m hm
        rcases List.mem_cons.mp hm with rfl | hm
        · rfl
        · exact hks m hm
      · rw [hwoke]
        simp [System.setNotifier, System.resume, System.setWaiter, hsuspended]
  | _ =>
      rw [hk] at hahead
      exact absurd hahead hne

end Inv

/-! ## All runs -/

/-- In every run in which no notification unlinks an awaiter that another
{lit}`notifyOne` has loaded and not yet unlinked, whoever holds the lock, the
condition variable is sound, and a call that has unlinked awaiters resumes all of
them. -/
theorem notifications_resume_once (next : ι → Option ι) (ls : List (Label ι κ)) (s : System ι κ)
    (hunshared : machine.RunsWithin Unshared (System.initial next) ls)
    (hrun : machine.run (System.initial next) ls = some s) :
    Sound s ∧ ∀ k l, Ahead s.next l (s.notifier k) → l ≠ [] →
      ∃ ks t, (∀ m ∈ ks, m = .notifier k false) ∧ machine.run s ks = some t ∧
        t.notifier k = .returned ∧ t.woke k = s.woke k ++ l := by
  have hinv : ∃ stack taken, Inv s stack taken := by
    refine Machine.runsWithin_invariant machine
      (P := fun s : System ι κ => ∃ stack taken, Inv s stack taken) ?_
      ⟨[], fun _ => [], Inv.initial next⟩ hunshared hrun
    intro s l s' h hok hstep
    rcases h with ⟨stack, taken, hinv⟩
    exact hinv.step hok hstep
  rcases hinv with ⟨stack, taken, hinv⟩
  exact ⟨hinv.sound, fun k l => hinv.finish⟩

/-- Two coroutines wait; {lit}`notifyOne` loses a race with the second enqueue and
resumes the latest awaiter, and {lit}`notifyAll` is in its walk. -/
def popThenAll (i j k l : Fin 2) : List (Label (Fin 2) (Fin 2)) :=
  [.wait i, .waiter i false, .waiter i false, .waiter i true, .waiter i false, .waiter i false,
    .notify k .one, .notifier k false, .wait j, .waiter j false, .waiter j false,
    .notifier k false, .waiter j false, .notifier k false, .notifier k false, .notifier k false,
    .notifier k false, .notifier k false, .notifier k false, .notifier k false, .notify l .all,
    .notifier l false, .notifier l false]

theorem notifications_resume_once_popThenAll :
    ∃ s : System (Fin 2) (Fin 2),
      machine.run (System.initial fun _ => none) (popThenAll 0 1 0 1) = some s ∧
      (s.woke 0 = [1] ∧ s.notifier 0 = .returned ∧ s.notifier 1 = .walk (some 0)) ∧ Sound s := by
  rcases machine.exists_run_of_any (System.initial fun _ => none) (popThenAll 0 1 0 1)
    (fun s => s.woke 0 = [1] ∧ s.notifier 0 = .returned ∧ s.notifier 1 = .walk (some 0))
    (by decide) with ⟨s, hrun, hs⟩
  exact ⟨s, hrun, hs, (notifications_resume_once _ (popThenAll 0 1 0 1) s (by decide) hrun).1⟩

end ConditionVariable

end AsyncSimple
