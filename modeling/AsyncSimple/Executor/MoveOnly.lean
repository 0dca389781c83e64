import AsyncSimple.Executor.TaskConservation

/-!
# Move-only functors in the thread pool

{lit}`Executor::schedule_move_only` wraps a functor into a {lit}`MoveWrapper`, whose copy
constructor moves, because a {lit}`std::function` has to be copyable.  Each copy of the function
therefore empties its source.  {lit}`ThreadPool::scheduleById` copies its argument into a work
item when the pool steals work, tries to push copies of this item, and comes back to its
argument when no attempt succeeds.

Main results:

- Theorem {lit}`Holds.step`: which of the functions holds the functor.
- Theorem {lit}`survives_of_pushSucceeds`: in every run in which some attempt succeeds for every
  move-only functor the workers invoke what was passed.
-/

namespace AsyncSimple

open Transition

namespace MoveOnly

open ThreadPool (Thread Call CallPc WorkItem ErrorType)

variable {τ φ : Type} {n : Nat}

/-! ## The functions of a call -/

/-- {lit}`MoveWrapper<T>`; {lit}`none` is a value that was moved from. -/
structure MoveWrapper (φ : Type) where
  value : Option φ
deriving DecidableEq, Repr

/-- The copy constructor and the move constructor: the new wrapper, and what is left of the
other one. -/
def MoveWrapper.copy (other : MoveWrapper φ) : MoveWrapper φ × MoveWrapper φ :=
  (⟨other.value⟩, ⟨none⟩)

/-- The pool, with the functors that were passed to {lit}`schedule_move_only`, by the number of
the call; the wrappers in the functions {lit}`fn` and {lit}`workerItem` of the call and in the
work item in the queue; and the wrappers that the workers have invoked. -/
structure State (τ : Type) (n : Nat) (φ : Type) where
  pool : ThreadPool.State τ n
  functor : Nat → Option φ
  fn : Nat → MoveWrapper φ
  workerItem : Nat → MoveWrapper φ
  queued : Nat → MoveWrapper φ
  invoked : List (Nat × MoveWrapper φ)

def State.initial (enableWorkSteal : Bool) : State τ n φ where
  pool := ThreadPool.State.initial enableWorkSteal
  functor := fun _ => none
  fn := fun _ => ⟨none⟩
  workerItem := fun _ => ⟨none⟩
  queued := fun _ => ⟨none⟩
  invoked := []

namespace State

/-- {lit}`WorkItem workerItem{true, fn}`. -/
def makeItem (s : State τ n φ) (c : Nat) : State τ n φ :=
  { s with
    workerItem := Function.update s.workerItem c (s.fn c).copy.1
    fn := Function.update s.fn c (s.fn c).copy.2 }

/-- {lit}`_queue.push(item)` in {lit}`try_push`. -/
def pushItem (s : State τ n φ) (c : Nat) : State τ n φ :=
  { s with
    queued := Function.update s.queued c (s.workerItem c).copy.1
    workerItem := Function.update s.workerItem c (s.workerItem c).copy.2 }

/-- {lit}`push(WorkItem{..., std::move(fn)})`. -/
def pushFn (s : State τ n φ) (c : Nat) : State τ n φ :=
  { s with
    queued := Function.update s.queued c (s.fn c).copy.1
    fn := Function.update s.fn c (s.fn c).copy.2 }

/-- The copies that the next step of a call makes. -/
def copies (s : State τ n φ) (enableWorkSteal lock : Bool) (call : Call n) : State τ n φ :=
  match call.pc with
  | .checkStop =>
      if s.pool.stop = false ∧ call.id = none ∧ enableWorkSteal = true then
        s.makeItem call.fn
      else
        s
  | .tryPush k => if k < 2 * n ∧ lock = true then s.pushItem call.fn else s
  | .push _ _ => s.pushFn call.fn
  | .checkNull _ | .returning _ => s

end State

inductive Label (τ : Type) (n : Nat) (φ : Type) where
  /-- a thread calls {lit}`schedule_move_only`, which forwards to {lit}`scheduleById` -/
  | scheduleMoveOnly (th : Thread τ n) (g : φ)
  | pool (l : ThreadPool.Label τ n)
deriving DecidableEq, Repr

variable [DecidableEq τ]

/-- The copies made by a move of the pool. -/
def State.copiesAt (s : State τ n φ) (enableWorkSteal : Bool) :
    ThreadPool.Label τ n → State τ n φ
  | .call th lock _ =>
      match s.pool.call th with
      | some call => s.copies enableWorkSteal lock call
      | none => s
  | _ => s

def step (enableWorkSteal : Bool) (s : State τ n φ) : Label τ n φ → Option (State τ n φ)
  | .scheduleMoveOnly th g =>
      (ThreadPool.step enableWorkSteal s.pool (.scheduleById th none false)).map fun pool =>
        { s with
          pool := pool
          functor := Function.update s.functor s.pool.next (some g)
          fn := Function.update s.fn s.pool.next ⟨some g⟩ }
  | .pool l =>
      (ThreadPool.step enableWorkSteal s.pool l).map fun pool =>
        { s.copiesAt enableWorkSteal l with
          pool := pool
          -- a function that the step executes is the one from the queue
          invoked := s.invoked ++
            (pool.executed.drop s.pool.executed.length).map fun c => (c, s.queued c) }

/-- A pool of {lit}`n` workers with callers that pass move-only functors. -/
def machine (τ : Type) [DecidableEq τ] (n : Nat) (φ : Type) (enableWorkSteal : Bool) :
    Machine (State τ n φ) (Label τ n φ) where
  step := step enableWorkSteal

/-- A functor whose {lit}`schedule_move_only` returned true is invoked at most once, exactly once
when the destructor of the pool has returned, and it is the functor that is invoked. -/
def Survives (s : State τ n φ) : Prop :=
  ∀ c g, s.functor c = some g → (c, ErrorType.errorNone) ∈ s.pool.returned →
    (∀ w, (c, w) ∈ s.invoked → w = ⟨some g⟩) ∧ (s.invoked.map Prod.fst).count c ≤ 1 ∧
      (s.pool.destructor = .returned → (s.invoked.map Prod.fst).count c = 1)

/-- The step is not the last of the attempts to push a move-only functor, or it succeeds. -/
def pushSucceeds (s : State τ n φ) : Label τ n φ → Bool
  | .pool (.call th lock _) =>
      match s.pool.call th with
      | some call =>
          match call.pc with
          | .tryPush k => lock || decide (k + 1 < 2 * n) || (s.functor call.fn).isNone
          | _ => true
      | none => true
  | _ => true

/-- The move of the pool is not a push into the queue of a worker that has left it. -/
def attended (s : State τ n φ) : Label τ n φ → Bool
  | .pool l => ThreadPool.attended s.pool l
  | .scheduleMoveOnly _ _ => true

/-- Every step is a step of the pool. -/
theorem step_pool {s s' : State τ n φ} {enableWorkSteal : Bool} {l : Label τ n φ}
    (hstep : step enableWorkSteal s l = some s') :
    ∃ l', attended s l = ThreadPool.attended s.pool l' ∧
      ThreadPool.step enableWorkSteal s.pool l' = some s'.pool := by
  cases l with
  | scheduleMoveOnly th g =>
      simp only [step, Option.map_eq_some_iff] at hstep
      rcases hstep with ⟨pool, hpool, rfl⟩
      exact ⟨_, rfl, hpool⟩
  | pool l =>
      simp only [step, Option.map_eq_some_iff] at hstep
      rcases hstep with ⟨pool, hpool, rfl⟩
      exact ⟨l, rfl, hpool⟩

/-! ## Where the functor is -/

/-- The function from which a call goes on holds the functor. -/
def State.HeldAt (s : State τ n φ) (c : Nat) (g : φ) : CallPc n → Prop
  | .checkNull _ | .checkStop | .push _ _ => s.fn c = ⟨some g⟩
  | .tryPush k => k < 2 * n ∧ s.workerItem c = ⟨some g⟩
  | .returning _ => True

/-- Every functor is with its call, in the queue, or has been invoked. -/
structure Holds (s : State τ n φ) : Prop where
  pool : ThreadPool.Inv s.pool
  fresh : ∀ c, s.pool.next ≤ c → s.functor c = none
  calling : ∀ th call g, s.pool.call th = some call → s.functor call.fn = some g →
    s.HeldAt call.fn g call.pc
  queued : ∀ q, ∀ x ∈ (s.pool.queue q).items, ∀ g, s.functor x.fn = some g →
    s.queued x.fn = ⟨some g⟩
  invoked : ∀ c w g, (c, w) ∈ s.invoked → s.functor c = some g → w = ⟨some g⟩
  executed : s.invoked.map Prod.fst = s.pool.executed

section

omit [DecidableEq τ]

variable {p : ThreadPool.State τ n}

/-- What is in a queue counts. -/
theorem copies_pos_of_mem {q : Fin n} {x : WorkItem} (hx : x ∈ (p.queue q).items) :
    0 < p.copies x.fn := by
  have hone : 0 < ThreadPool.copiesIn x.fn (p.queue q) :=
    List.count_pos_iff.mpr (List.mem_map_of_mem hx)
  have hsum := Finset.single_le_sum (f := fun q => ThreadPool.copiesIn x.fn (p.queue q))
    (fun _ _ => Nat.zero_le _) (Finset.mem_univ q)
  simp only [ThreadPool.State.copies]
  omega

theorem copies_pos_of_executed {c : Nat} (hc : c ∈ p.executed) : 0 < p.copies c := by
  have hone : 0 < p.executed.count c := List.count_pos_iff.mpr hc
  simp only [ThreadPool.State.copies]
  omega

/-- Functions in the queues and executed ones belong to calls that have begun. -/
theorem lt_next_of_copies (h : ThreadPool.Inv p) {c : Nat} (hc : 0 < p.copies c) : c < p.next := by
  by_contra hlarge
  have hzero := (h.fresh c (Nat.le_of_not_lt hlarge)).1
  omega

end

/-! ### What the copies leave where -/

namespace State

variable (s : State τ n φ) (c : Nat)

omit [DecidableEq τ]

theorem makeItem_workerItem_self : (s.makeItem c).workerItem c = s.fn c := by
  simp [makeItem, MoveWrapper.copy]

theorem pushItem_queued_self : (s.pushItem c).queued c = s.workerItem c := by
  simp [pushItem, MoveWrapper.copy]

theorem pushFn_queued_self : (s.pushFn c).queued c = s.fn c := by
  simp [pushFn, MoveWrapper.copy]

/-- The copies of one call do not touch the functions of another. -/
theorem copies_of_ne {enableWorkSteal lock : Bool} {call : Call n} (hc : c ≠ call.fn) :
    (s.copies enableWorkSteal lock call).fn c = s.fn c ∧
      (s.copies enableWorkSteal lock call).workerItem c = s.workerItem c ∧
      (s.copies enableWorkSteal lock call).queued c = s.queued c := by
  unfold copies
  split
  · split
    · simp [makeItem, hc]
    · exact ⟨rfl, rfl, rfl⟩
  · split
    · simp [pushItem, hc]
    · exact ⟨rfl, rfl, rfl⟩
  · simp [pushFn, hc]
  · exact ⟨rfl, rfl, rfl⟩
  · exact ⟨rfl, rfl, rfl⟩

theorem copies_functor (enableWorkSteal lock : Bool) (call : Call n) :
    (s.copies enableWorkSteal lock call).functor = s.functor := by
  unfold copies
  split
  · split <;> rfl
  · split <;> rfl
  · rfl
  · rfl
  · rfl

end State

namespace Holds

variable {s s' : State τ n φ} {enableWorkSteal : Bool}

omit [DecidableEq τ] in
theorem initial : Holds (State.initial enableWorkSteal : State τ n φ) where
  pool := ThreadPool.Inv.initial
  fresh := fun _ _ => rfl
  calling := by simp [State.initial, ThreadPool.State.initial]
  queued := by simp [State.initial]
  invoked := by simp [State.initial]
  executed := rfl

omit [DecidableEq τ] in
theorem invoked_mem (h : Holds s) {c : Nat} {w : MoveWrapper φ} (hmem : (c, w) ∈ s.invoked) :
    c ∈ s.pool.executed := by
  rw [← h.executed]
  exact List.mem_map_of_mem hmem

/-- A thread begins a call; {lit}`functor` is what it passes to {lit}`schedule_move_only`. -/
theorem begins (h : Holds s) {th : Thread τ n} {id : Option (Fin n)} {isNull : Bool}
    {functor : Option φ} {fn : MoveWrapper φ} (hfn : ∀ g, functor = some g → fn = ⟨some g⟩)
    (hpool : ThreadPool.step enableWorkSteal s.pool (.scheduleById th id isNull) =
      some s'.pool)
    (hfunctor : s'.functor = Function.update s.functor s.pool.next functor)
    (hwrapper : s'.fn = Function.update s.fn s.pool.next fn)
    (hitem : s'.workerItem = s.workerItem) (hqueued : s'.queued = s.queued)
    (hinvoked : s'.invoked = s.invoked) : Holds s' := by
  have hinv := h.pool.step hpool
  simp only [ThreadPool.step, Option.ite_none_right_eq_some, Option.some.injEq] at hpool
  rcases hpool with ⟨-, hpool⟩
  have hold : ∀ c, c < s.pool.next → s'.functor c = s.functor c ∧ s'.fn c = s.fn c := by
    intro c hc
    rw [hfunctor, hwrapper, Function.update_of_ne (Nat.ne_of_lt hc),
      Function.update_of_ne (Nat.ne_of_lt hc)]
    exact ⟨rfl, rfl⟩
  refine ⟨hinv, ?_, ?_, ?_, ?_, ?_⟩
  · intro c hc
    rw [← hpool] at hc
    have hne : c ≠ s.pool.next := Nat.ne_of_gt hc
    rw [hfunctor, Function.update_of_ne hne]
    exact h.fresh c (Nat.le_of_succ_le hc)
  · intro th' call g hcall hg
    rw [← hpool] at hcall
    by_cases hth : th' = th
    · subst hth
      simp only [ThreadPool.State.setCall, Function.update_self, Option.some.injEq] at hcall
      subst hcall
      rw [hfunctor, Function.update_self] at hg
      have hnew : s'.fn s.pool.next = fn := by rw [hwrapper, Function.update_self]
      exact hnew.trans (hfn g hg)
    · simp only [ThreadPool.State.setCall, Function.update_of_ne hth] at hcall
      have hlt := (h.pool.calling th' call hcall).1
      rw [(hold call.fn hlt).1] at hg
      have hheld := h.calling th' call g hcall hg
      cases hpc : call.pc <;> rw [hpc] at hheld <;>
        simp only [State.HeldAt, (hold call.fn hlt).2, hitem] at hheld ⊢ <;> exact hheld
  · intro q x hx g hg
    rw [← hpool] at hx
    rw [(hold x.fn (lt_next_of_copies h.pool (copies_pos_of_mem hx))).1] at hg
    rw [hqueued]
    exact h.queued q x hx g hg
  · intro c w g hmem hg
    rw [hinvoked] at hmem
    rw [(hold c (lt_next_of_copies h.pool (copies_pos_of_executed (h.invoked_mem hmem)))).1] at hg
    exact h.invoked c w g hmem hg
  · rw [hinvoked, h.executed, ← hpool]
    rfl

/-- A call that has not pushed its function goes on, or pushes it. -/
theorem proceeds (h : Holds s) {th : Thread τ n} {call : Call n} {lock : Bool}
    {pool : ThreadPool.State τ n} {pc : CallPc n} (hcall : s.pool.call th = some call)
    (hpool : ThreadPool.Inv pool) (hnext : pool.next = s.pool.next)
    (hcalls : pool.call = Function.update s.pool.call th (some { call with pc := pc }))
    (hexecuted : pool.executed = s.pool.executed)
    (hthis : ∀ g, s.functor call.fn = some g →
      (s.copies enableWorkSteal lock call).HeldAt call.fn g pc)
    (hqueued : ∀ q, ∀ x ∈ (pool.queue q).items, ∀ g, s.functor x.fn = some g →
      (s.copies enableWorkSteal lock call).queued x.fn = ⟨some g⟩) :
    Holds { s.copies enableWorkSteal lock call with pool := pool, invoked := s.invoked } := by
  refine ⟨hpool, ?_, ?_, ?_, ?_, ?_⟩
  · intro c hc
    rw [hnext] at hc
    exact (congrFun (s.copies_functor _ _ _) c).trans (h.fresh c hc)
  · intro th' call' g hcall' hg
    have hg' : s.functor call'.fn = some g := by rwa [State.copies_functor] at hg
    have hcall'' : pool.call th' = some call' := hcall'
    rw [hcalls] at hcall''
    by_cases hth : th' = th
    · subst hth
      rw [Function.update_self, Option.some.injEq] at hcall''
      subst hcall''
      exact hthis g hg'
    · rw [Function.update_of_ne hth] at hcall''
      have hne : call'.fn ≠ call.fn := fun heq =>
        hth (h.pool.distinct th' th call' call hcall'' hcall heq)
      rcases s.copies_of_ne call'.fn hne with ⟨hfn, hitem, -⟩
      have hheld := h.calling th' call' g hcall'' hg'
      cases hpc : call'.pc with
      | checkNull isNull =>
          rw [hpc] at hheld
          exact hfn.trans hheld
      | checkStop =>
          rw [hpc] at hheld
          exact hfn.trans hheld
      | tryPush k =>
          rw [hpc] at hheld
          exact ⟨hheld.1, hitem.trans hheld.2⟩
      | push q canSteal =>
          rw [hpc] at hheld
          exact hfn.trans hheld
      | returning e => trivial
  · intro q x hx g hg
    rw [State.copies_functor] at hg
    exact hqueued q x hx g hg
  · intro c w g hmem hg
    rw [State.copies_functor] at hg
    exact h.invoked c w g hmem hg
  · exact h.executed.trans hexecuted.symm

omit [DecidableEq τ] in
/-- A call that has not pushed its function is not in a queue. -/
theorem ne_of_mem (h : Holds s) {th : Thread τ n} {call : Call n}
    (hcall : s.pool.call th = some call) (hpushed : call.pc.pushed = false) {q : Fin n}
    {x : WorkItem} (hx : x ∈ (s.pool.queue q).items) : x.fn ≠ call.fn := by
  intro heq
  have hpos := copies_pos_of_mem hx
  have hcopies := (h.pool.calling th call hcall).2.2
  rw [hpushed] at hcopies
  rw [heq, hcopies] at hpos
  exact absurd hpos (by simp)

omit [DecidableEq τ] in
/-- The queues of a call that does not push. -/
theorem queued_same (h : Holds s) {th : Thread τ n} {call : Call n} {lock : Bool}
    (hcall : s.pool.call th = some call) (hpushed : call.pc.pushed = false) (q : Fin n) :
    ∀ x ∈ (s.pool.queue q).items, ∀ g, s.functor x.fn = some g →
      (s.copies enableWorkSteal lock call).queued x.fn = ⟨some g⟩ := by
  intro x hx g hg
  rw [(s.copies_of_ne x.fn (h.ne_of_mem hcall hpushed hx)).2.2]
  exact h.queued q x hx g hg

/-- The queues of a call that pushes. -/
theorem queued_push (h : Holds s) {th : Thread τ n} {call : Call n} {lock : Bool}
    (hcall : s.pool.call th = some call) (hpushed : call.pc.pushed = false) (q : Fin n)
    (canSteal : Bool) (hthis : ∀ g, s.functor call.fn = some g →
      (s.copies enableWorkSteal lock call).queued call.fn = ⟨some g⟩) (q' : Fin n) :
    ∀ x ∈ ((s.pool.pushed th call q canSteal).queue q').items, ∀ g, s.functor x.fn = some g →
      (s.copies enableWorkSteal lock call).queued x.fn = ⟨some g⟩ := by
  intro x hx g hg
  have hcases : x ∈ (s.pool.queue q').items ∨ x.fn = call.fn := by
    simp only [ThreadPool.State.pushed, ThreadPool.State.setCall, ThreadPool.State.setQueue] at hx
    by_cases hq : q' = q
    · subst hq
      simp only [Function.update_self, Queue.push, List.mem_append, List.mem_singleton] at hx
      rcases hx with hx | rfl
      · exact .inl hx
      · exact .inr rfl
    · rw [Function.update_of_ne hq] at hx
      exact .inl hx
  rcases hcases with hx | heq
  · exact h.queued_same hcall hpushed q' x hx g hg
  · rw [heq] at hg ⊢
    exact hthis g hg

/-- A call returns. -/
theorem returns (h : Holds s) {th : Thread τ n} {pool : ThreadPool.State τ n}
    (hpool : ThreadPool.Inv pool) (hnext : pool.next = s.pool.next)
    (hcalls : pool.call = Function.update s.pool.call th none)
    (hqueue : pool.queue = s.pool.queue) (hexecuted : pool.executed = s.pool.executed) :
    Holds { s with pool := pool } := by
  refine ⟨hpool, ?_, ?_, ?_, h.invoked, h.executed.trans hexecuted.symm⟩
  · intro c hc
    rw [hnext] at hc
    exact h.fresh c hc
  · intro th' call' g hcall' hg
    have hcall'' : pool.call th' = some call' := hcall'
    rw [hcalls] at hcall''
    by_cases hth : th' = th
    · subst hth
      rw [Function.update_self] at hcall''
      cases hcall''
    · rw [Function.update_of_ne hth] at hcall''
      exact h.calling th' call' g hcall'' hg
  · intro q x hx
    rw [hqueue] at hx
    exact h.queued q x hx

/-- A step of {lit}`scheduleById`. -/
theorem call (h : Holds s) {th : Thread τ n} {lock : Bool} {choice : Fin n}
    {pool : ThreadPool.State τ n}
    (hsucceeds : pushSucceeds s (.pool (.call th lock choice)) = true)
    (hpool : ThreadPool.callStep enableWorkSteal s.pool th lock choice = some pool) :
    pool.executed = s.pool.executed ∧
      Holds { s.copiesAt enableWorkSteal (.call th lock choice) with
        pool := pool
        invoked := s.invoked } := by
  have hinv : ThreadPool.Inv pool := h.pool.call hpool
  simp only [ThreadPool.callStep] at hpool
  split at hpool
  · cases hpool
  · next call hcall =>
      simp only [State.copiesAt, hcall]
      have hheld := fun g => h.calling th call g hcall
      simp only [pushSucceeds, hcall] at hsucceeds
      split at hpool
      · next isNull hpc =>
          cases hpool
          refine ⟨rfl, h.proceeds hcall hinv rfl rfl rfl ?_
            (h.queued_same hcall (by rw [hpc]; rfl))⟩
          intro g hg
          have hfn := hheld g hg
          rw [hpc] at hfn
          rw [State.copies, hpc]
          cases isNull with
          | true => trivial
          | false => exact hfn
      · next hpc =>
          cases hpool
          refine ⟨rfl, h.proceeds hcall hinv rfl rfl rfl ?_
            (h.queued_same hcall (by rw [hpc]; rfl))⟩
          intro g hg
          have hfn := hheld g hg
          rw [hpc] at hfn
          rw [State.copies, hpc]
          cases hstop : s.pool.stop with
          | true => trivial
          | false =>
              cases hid : call.id with
              | some q => exact hfn
              | none =>
                  cases enableWorkSteal with
                  | false => exact hfn
                  | true =>
                      refine ⟨by have := choice.pos; omega, ?_⟩
                      rw [if_pos ⟨rfl, rfl, rfl⟩, State.makeItem_workerItem_self]
                      exact hfn
      · next k hpc =>
          rw [hpc] at hsucceeds
          split at hpool
          · next hk =>
              split at hpool
              · next hlock =>
                  cases hpool
                  refine ⟨rfl, h.proceeds hcall hinv rfl rfl rfl (fun _ _ => trivial) ?_⟩
                  refine h.queued_push hcall (by rw [hpc]; rfl) _ true fun g hg => ?_
                  have hitem := hheld g hg
                  rw [hpc] at hitem
                  rw [State.copies, hpc]
                  simp only [hk, hlock, and_self, if_true]
                  rw [State.pushItem_queued_self]
                  exact hitem.2
              · next hlock =>
                  cases hpool
                  refine ⟨rfl, h.proceeds hcall hinv rfl rfl rfl ?_
                    (h.queued_same hcall (by rw [hpc]; rfl))⟩
                  intro g hg
                  have hitem := hheld g hg
                  rw [hpc] at hitem
                  rw [State.copies, hpc]
                  simp only [hlock, Bool.false_eq_true, and_false, if_false]
                  refine ⟨?_, hitem.2⟩
                  -- this was not the last attempt
                  simpa [hlock, hg] using hsucceeds
          · next hk =>
              cases hpool
              refine ⟨rfl, h.proceeds hcall hinv rfl rfl rfl ?_
                (h.queued_same hcall (by rw [hpc]; rfl))⟩
              intro g hg
              have hitem := hheld g hg
              rw [hpc] at hitem
              exact absurd hitem.1 hk
      · next q canSteal hpc =>
          cases hpool
          refine ⟨rfl, h.proceeds hcall hinv rfl rfl rfl (fun _ _ => trivial) ?_⟩
          refine h.queued_push hcall (by rw [hpc]; rfl) q canSteal fun g hg => ?_
          have hfn := hheld g hg
          rw [hpc] at hfn
          rw [State.copies, hpc, State.pushFn_queued_self]
          exact hfn
      · next e hpc =>
          cases hpool
          rw [State.copies, hpc]
          exact ⟨rfl, h.returns hinv rfl rfl rfl rfl⟩

omit [DecidableEq τ] in
/-- A step of the pool that makes no call and executes nothing. -/
theorem unchanged (h : Holds s) {pool : ThreadPool.State τ n} (hpool : ThreadPool.Inv pool)
    (hnext : pool.next = s.pool.next) (hcalls : pool.call = s.pool.call)
    (hqueue : ∀ q, (pool.queue q).items = (s.pool.queue q).items)
    (hexecuted : pool.executed = s.pool.executed) : Holds { s with pool := pool } := by
  refine ⟨hpool, ?_, ?_, ?_, h.invoked, h.executed.trans hexecuted.symm⟩
  · intro c hc
    rw [hnext] at hc
    exact h.fresh c hc
  · intro th call g hcall
    exact h.calling th call g ((congrFun hcalls th).symm.trans hcall)
  · intro q x hx
    rw [hqueue] at hx
    exact h.queued q x hx

omit [DecidableEq τ] in
/-- A worker takes a function from a queue and invokes it. -/
theorem executes (h : Holds s) {v q : Fin n} {queue : Queue WorkItem} {x : WorkItem}
    (hitems : (s.pool.queue q).items = x :: queue.items)
    (hpool : ThreadPool.Inv ((s.pool.setQueue q queue).execute v x.fn)) :
    Holds { s with
      pool := (s.pool.setQueue q queue).execute v x.fn
      invoked := s.invoked ++ [(x.fn, s.queued x.fn)] } := by
  have hx : x ∈ (s.pool.queue q).items := by
    rw [hitems]
    exact List.mem_cons_self
  refine ⟨hpool, h.fresh, h.calling, ?_, ?_, ?_⟩
  · intro q' y hy
    have hmem : y ∈ (s.pool.queue q').items := by
      simp only [ThreadPool.State.execute, ThreadPool.State.setQueue] at hy
      by_cases hq : q' = q
      · subst hq
        rw [Function.update_self] at hy
        rw [hitems]
        exact List.mem_cons_of_mem x hy
      · rwa [Function.update_of_ne hq] at hy
    exact h.queued q' y hmem
  · intro c w g hmem hg
    rcases List.mem_append.mp hmem with hold | hnew
    · exact h.invoked c w g hold hg
    · cases List.mem_singleton.mp hnew
      exact h.queued q x hx g hg
  · rw [List.map_append, h.executed]
    rfl

omit [DecidableEq τ] in
/-- A step of a worker. -/
theorem worker (h : Holds s) {v : Fin n} {lock : Bool} {pool : ThreadPool.State τ n}
    (hstep : ThreadPool.workerStep enableWorkSteal s.pool v lock = some pool) :
    Holds { s with
      pool := pool
      invoked := s.invoked ++
        (pool.executed.drop s.pool.executed.length).map fun c => (c, s.queued c) } := by
  have hinv := h.pool.worker hstep
  cases (ThreadPool.workerStep_move hstep).2 with
  | execute q queue x hitems =>
      have hnew : ((s.pool.setQueue q queue).execute v x.fn).executed.drop
          s.pool.executed.length = [x.fn] := List.drop_left
      rw [hnew]
      exact h.executes hitems hinv
  | goes pc =>
      have hnone : (s.pool.setWorker v pc).executed.drop s.pool.executed.length = [] :=
        List.drop_length
      rw [hnone, List.map_nil, List.append_nil]
      exact h.unchanged hinv rfl rfl (fun _ => rfl) rfl

omit [DecidableEq τ] in
theorem destructor (h : Holds s) {pool : ThreadPool.State τ n}
    (hstep : ThreadPool.destructorStep s.pool = some pool) :
    pool.executed = s.pool.executed ∧ Holds { s with pool := pool } := by
  have hinv := h.pool.destructor hstep
  simp only [ThreadPool.destructorStep] at hstep
  split at hstep
  · cases hstep
    exact ⟨rfl, h.unchanged hinv rfl rfl (fun _ => rfl) rfl⟩
  · split at hstep
    · cases hstep
      exact ⟨rfl, h.unchanged hinv rfl rfl (ThreadPool.Emptied.items_stop _) rfl⟩
    · cases hstep
      exact ⟨rfl, h.unchanged hinv rfl rfl (fun _ => rfl) rfl⟩
  · split at hstep
    · split at hstep
      · cases hstep
        exact ⟨rfl, h.unchanged hinv rfl rfl (fun _ => rfl) rfl⟩
      · cases hstep
    · cases hstep
      exact ⟨rfl, h.unchanged hinv rfl rfl (fun _ => rfl) rfl⟩
  · cases hstep

omit [DecidableEq τ] in
/-- A step after which the workers have executed what they had executed before. -/
theorem of_executed {t : State τ n φ} {pool : ThreadPool.State τ n}
    (hexecuted : pool.executed = s.pool.executed)
    (h : Holds { t with pool := pool, invoked := s.invoked }) :
    Holds { t with
      pool := pool
      invoked := s.invoked ++
        (pool.executed.drop s.pool.executed.length).map fun c => (c, s.queued c) } := by
  rw [hexecuted, List.drop_length, List.map_nil, List.append_nil]
  exact h

theorem step (h : Holds s) {l : Label τ n φ} (hsucceeds : pushSucceeds s l = true)
    (hstep : MoveOnly.step enableWorkSteal s l = some s') : Holds s' := by
  cases l with
  | scheduleMoveOnly th g =>
      simp only [MoveOnly.step, Option.map_eq_some_iff] at hstep
      rcases hstep with ⟨pool, hpool, rfl⟩
      refine h.begins ?_ hpool rfl rfl rfl rfl rfl
      intro g' hg'
      cases hg'
      rfl
  | pool l =>
      simp only [MoveOnly.step, Option.map_eq_some_iff] at hstep
      rcases hstep with ⟨pool, hpool, rfl⟩
      cases l with
      | scheduleById th id isNull =>
          have hexecuted : pool.executed = s.pool.executed := by
            simp only [ThreadPool.step, Option.ite_none_right_eq_some,
              Option.some.injEq] at hpool
            rw [← hpool.2]
            rfl
          refine of_executed hexecuted ?_
          -- a function that is not a move-only functor
          have hnone : ∀ g, (none : Option φ) = some g → s.fn s.pool.next = ⟨some g⟩ := by
            intro g hg
            cases hg
          refine h.begins hnone hpool ?_ ?_ rfl rfl rfl
          · rw [← h.fresh s.pool.next (Nat.le_refl _), Function.update_eq_self]
            rfl
          · rw [Function.update_eq_self]
            rfl
      | call th lock choice =>
          rcases h.call hsucceeds hpool with ⟨hexecuted, hholds⟩
          exact of_executed hexecuted hholds
      | worker v lock =>
          simp only [ThreadPool.step, Option.ite_none_right_eq_some] at hpool
          exact h.worker hpool.2
      | destructor =>
          rcases h.destructor hpool with ⟨hexecuted, hholds⟩
          exact of_executed hexecuted hholds

end Holds

/-! ## The functor is invoked -/

/-- In every run in which one of the attempts to push succeeds for every move-only functor and no
call pushes into the queue of a worker that has left it, the workers invoke what was passed. -/
theorem survives_of_pushSucceeds (n : Nat) (enableWorkSteal : Bool) {ls : List (Label τ n φ)}
    {s : State τ n φ}
    (hwithin : (machine τ n φ enableWorkSteal).RunsWithin
      (fun s l => pushSucceeds s l = true ∧ attended s l = true)
      (State.initial enableWorkSteal) ls)
    (hrun : (machine τ n φ enableWorkSteal).run (State.initial enableWorkSteal) ls = some s) :
    Survives s := by
  have h : Holds s ∧ ThreadPool.Emptied s.pool ∧ ThreadPool.Shutdown s.pool := by
    refine Machine.runsWithin_invariant _
      (P := fun s => Holds s ∧ ThreadPool.Emptied s.pool ∧ ThreadPool.Shutdown s.pool) ?_
      ⟨Holds.initial, ThreadPool.Emptied.initial, ThreadPool.Shutdown.initial⟩ hwithin hrun
    rintro s l s' ⟨hholds, hemptied, hshutdown⟩ ⟨hsucceeds, hattended⟩ hstep
    rcases step_pool hstep with ⟨l', hl', hpool⟩
    rw [hl'] at hattended
    exact ⟨hholds.step hsucceeds hstep, hemptied.step hattended hpool, hshutdown.step hpool⟩
  have hconserved := ThreadPool.conserved_of_emptied h.1.pool h.2.1 h.2.2
  intro c g hg hreturned
  have hcount := hconserved c .errorNone hreturned
  rw [if_pos rfl, ← h.1.executed] at hcount
  exact ⟨fun w hmem => h.1.invoked c w g hmem hg, hcount⟩

/-- A thread passes the functor to {lit}`schedule_move_only`; {lit}`locks` says which locks the
steps of the call get. -/
def moveOnlyCall (g : φ) (choice : Fin n) (locks : List Bool) : List (Label Unit n φ) :=
  .scheduleMoveOnly (.external ()) g ::
    locks.map fun lock => .pool (.call (.external ()) lock choice)

/-- The worker invokes the functor and goes back to its loop, and the pool is destroyed. -/
def invokeAndStop (v : Fin n) : List (Label Unit n φ) :=
  List.replicate 2 (.pool (.worker v true)) ++ List.replicate (n + 2) (.pool .destructor) ++
    List.replicate 5 (.pool (.worker v true)) ++ List.replicate (n + 1) (.pool .destructor)

/-- The second attempt succeeds, and the functor is invoked. -/
theorem survives_of_pushSucceeds_secondAttempt :
    ∃ s, (machine Unit 1 Nat true).run (State.initial true)
        (moveOnlyCall 7 0 [true, true, false, true, true] ++ invokeAndStop 0) = some s ∧
      s.functor 0 = some 7 ∧ (0, .errorNone) ∈ s.pool.returned ∧ s.pool.destructor = .returned ∧
      s.invoked = [(0, ⟨some 7⟩)] ∧ Survives s := by
  rcases Machine.exists_run_of_any (machine Unit 1 Nat true) (State.initial true)
    (moveOnlyCall 7 0 [true, true, false, true, true] ++ invokeAndStop 0)
    (fun s => s.functor 0 = some 7 ∧ (0, .errorNone) ∈ s.pool.returned ∧
      s.pool.destructor = .returned ∧ s.invoked = [(0, ⟨some 7⟩)])
    (by decide +kernel) with ⟨s, hrun, hfunctor, hreturned, hdestructor, hinvoked⟩
  exact ⟨s, hrun, hfunctor, hreturned, hdestructor, hinvoked,
    survives_of_pushSucceeds 1 true (by decide +kernel) hrun⟩

/-- No attempt succeeds: the function that the call then pushes is empty, since the work item was
made from it, and this is what the worker invokes. -/
theorem exists_not_survives :
    ∃ s, (machine Unit 1 Nat true).run (State.initial true)
        (moveOnlyCall 7 0 [true, true, false, false, true, true, true] ++ invokeAndStop 0) =
          some s ∧
      s.functor 0 = some 7 ∧ (0, .errorNone) ∈ s.pool.returned ∧
      s.invoked = [(0, ⟨none⟩)] ∧ ¬ Survives s := by
  rcases Machine.exists_run_of_any (machine Unit 1 Nat true) (State.initial true)
    (moveOnlyCall 7 0 [true, true, false, false, true, true, true] ++ invokeAndStop 0)
    (fun s => s.functor 0 = some 7 ∧ (0, .errorNone) ∈ s.pool.returned ∧
      s.invoked = [(0, ⟨none⟩)])
    (by decide +kernel) with ⟨s, hrun, hfunctor, hreturned, hinvoked⟩
  refine ⟨s, hrun, hfunctor, hreturned, hinvoked, fun hsurvives => ?_⟩
  have hsame := (hsurvives 0 7 hfunctor hreturned).1 ⟨none⟩ (by simp [hinvoked])
  cases hsame

end MoveOnly

end AsyncSimple
