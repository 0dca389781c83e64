import AsyncSimple.Executor.ThreadPool

/-!
# Every accepted function is executed once

A function that {lit}`scheduleById` has accepted is in one queue or has been executed, never
both and never twice.  Whether it is executed before the destructor returns depends on its
queue: a worker that has found its queue empty after the stop does not look into it again,
while a call that has passed the test of {lit}`_stop` still pushes.

Main results:

- Theorem {lit}`Inv.step`: where the function of every call is.
- Theorem {lit}`Emptied.step`: a worker that leaves has left nothing in its queue, as long
  as no call pushes into it afterwards.
- Theorem {lit}`conserved_of_attended`: in every run without such a push the pool executes
  what it has accepted, and its destructor can return.
-/

namespace AsyncSimple

open Transition

namespace ThreadPool

variable {τ : Type} {n : Nat}

/-! ## What the steps can do -/

/-- The call has put its function into a queue. -/
def CallPc.pushed : CallPc n → Bool
  | .returning .errorNone => true
  | _ => false

/-- Everything one step of a worker can do. -/
inductive WorkerMove (s : State τ n) (v : Fin n) : State τ n → Prop where
  | execute (q : Fin n) (queue : Queue WorkItem) (x : WorkItem)
      (hitems : (s.queue q).items = x :: queue.items)
      (hstopped : queue.stopped = (s.queue q).stopped) :
      WorkerMove s v ((s.setQueue q queue).execute v x.fn)
  | goes (pc : WorkerPc)
      (hleaves : pc.leaves = true → (s.worker v).leaves = true ∨ (s.queue v).items = []) :
      WorkerMove s v (s.setWorker v pc)

theorem loopStart_stays (enableWorkSteal : Bool) : (loopStart enableWorkSteal).leaves = false := by
  cases enableWorkSteal <;> rfl

theorem workerStep_move {s s' : State τ n} {enableWorkSteal : Bool} {v : Fin n} {lock : Bool}
    (hstep : workerStep enableWorkSteal s v lock = some s') :
    s.worker v ≠ .exited ∧ WorkerMove s v s' := by
  simp only [workerStep] at hstep
  split at hstep
  · next k hpc =>
      refine ⟨by rw [hpc]; simp, ?_⟩
      split at hstep
      · split at hstep
        · next item queue hpop =>
            cases hstep
            rcases Queue.tryPopIf_eq_some hpop with ⟨hitems, hstopped⟩
            exact .execute _ queue item hitems hstopped
        · cases hstep
          exact .goes _ (by simp [WorkerPc.leaves])
      · cases hstep
        exact .goes _ (by simp [WorkerPc.leaves])
  · next hpc =>
      refine ⟨by rw [hpc]; simp, ?_⟩
      split at hstep
      · next item queue hpop =>
          cases hstep
          rcases Queue.pop_eq_item hpop with ⟨hitems, hstopped⟩
          exact .execute _ queue item hitems hstopped
      · next hpop =>
          cases hstep
          exact .goes _ fun _ => .inr (Queue.pop_eq_stopped hpop).1
      · cases hstep
  · next hpc =>
      refine ⟨by rw [hpc]; simp, ?_⟩
      split at hstep
      · cases hstep
        exact .goes _ fun _ => .inl (by rw [hpc]; rfl)
      · cases hstep
        exact .goes _ (by simp [loopStart_stays])
  · next fn hpc =>
      cases hstep
      exact ⟨by rw [hpc]; simp, .goes _ (by simp [loopStart_stays])⟩
  · cases hstep

section

variable [DecidableEq τ]

/-- Everything one step of {lit}`scheduleById` can do. -/
inductive CallMove (s : State τ n) (th : Thread τ n) (lock : Bool) (choice : Fin n) :
    State τ n → Prop where
  | proceeds (call : Call n) (pc : CallPc n) (hcall : s.call th = some call)
      (hbefore : call.pc.pushed = false) (hafter : pc.pushed = false) :
      CallMove s th lock choice (s.setCall th (some { call with pc := pc }))
  | pushes (call : Call n) (q : Fin n) (canSteal : Bool) (hcall : s.call th = some call)
      (hbefore : call.pc.pushed = false) (hinto : s.pushesInto th lock choice = some q) :
      CallMove s th lock choice (s.pushed th call q canSteal)
  | returns (call : Call n) (e : ErrorType) (hcall : s.call th = some call)
      (hpc : call.pc = .returning e) :
      CallMove s th lock choice
        { s.setCall th none with returned := s.returned ++ [(call.fn, e)] }

theorem callStep_move {s s' : State τ n} {enableWorkSteal : Bool} {th : Thread τ n} {lock : Bool}
    {choice : Fin n} (hstep : callStep enableWorkSteal s th lock choice = some s') :
    CallMove s th lock choice s' := by
  simp only [callStep] at hstep
  split at hstep
  · cases hstep
  · next call hcall =>
      split at hstep
      · next isNull hpc =>
          cases hstep
          exact .proceeds call _ hcall (by rw [hpc]; rfl) (by cases isNull <;> rfl)
      · next hpc =>
          cases hstep
          refine .proceeds call _ hcall (by rw [hpc]; rfl) ?_
          split
          · rfl
          · split
            · split <;> rfl
            · rfl
      · next k hpc =>
          split at hstep
          · next hk =>
              split at hstep
              · next hlock =>
                  cases hstep
                  exact .pushes call _ _ hcall (by rw [hpc]; rfl)
                    (by simp [State.pushesInto, hcall, hpc, hk, hlock])
              · cases hstep
                exact .proceeds call _ hcall (by rw [hpc]; rfl) rfl
          · cases hstep
            exact .proceeds call _ hcall (by rw [hpc]; rfl) rfl
      · next q canSteal hpc =>
          cases hstep
          exact .pushes call q canSteal hcall (by rw [hpc]; rfl)
            (by simp [State.pushesInto, hcall, hpc])
      · next e hpc =>
          cases hstep
          exact .returns call e hcall hpc

end

/-! ## Where a function is -/

/-- How often the function is in the queue. -/
def copiesIn (fn : Nat) (q : Queue WorkItem) : Nat :=
  (q.items.map WorkItem.fn).count fn

/-- How often the function is in the queues or has been executed. -/
def State.copies (s : State τ n) (fn : Nat) : Nat :=
  ∑ q, copiesIn fn (s.queue q) + s.executed.count fn

@[simp]
theorem copiesIn_push (fn : Nat) (q : Queue WorkItem) (x : WorkItem) :
    copiesIn fn (q.push x) = copiesIn fn q + if x.fn = fn then 1 else 0 := by
  simp [copiesIn, Queue.push, List.count_singleton]

@[simp]
theorem copiesIn_stop (fn : Nat) (q : Queue WorkItem) : copiesIn fn q.stop = copiesIn fn q :=
  rfl

theorem copiesIn_of_items {q q' : Queue WorkItem} {x : WorkItem} (h : q.items = x :: q'.items)
    (fn : Nat) : copiesIn fn q = copiesIn fn q' + if x.fn = fn then 1 else 0 := by
  simp [copiesIn, h, List.count_cons]

/-- A worker takes a function from a queue and executes it. -/
theorem copies_execute (s : State τ n) (v q : Fin n) {queue : Queue WorkItem} {x : WorkItem}
    (h : (s.queue q).items = x :: queue.items) (fn : Nat) :
    ((s.setQueue q queue).execute v x.fn).copies fn = s.copies fn := by
  have hsum := sum_update (copiesIn fn) s.queue q queue
  have hitems := copiesIn_of_items h fn
  simp only [State.copies, State.execute, State.setQueue, List.count_append,
    List.count_singleton, beq_iff_eq]
  omega

/-- A function is put into a queue. -/
theorem copies_push (s : State τ n) (q : Fin n) (x : WorkItem) (fn : Nat) :
    (s.setQueue q ((s.queue q).push x)).copies fn =
      s.copies fn + if x.fn = fn then 1 else 0 := by
  have hsum := sum_update (copiesIn fn) s.queue q ((s.queue q).push x)
  rw [copiesIn_push] at hsum
  simp only [State.copies, State.setQueue]
  omega

theorem copies_stop (s : State τ n) (q : Fin n) (fn : Nat) :
    (s.setQueue q (s.queue q).stop).copies fn = s.copies fn := by
  have hsum := sum_update (copiesIn fn) s.queue q (s.queue q).stop
  rw [copiesIn_stop] at hsum
  simp only [State.copies, State.setQueue]
  omega

/-- The function of every call is where the call has put it. -/
structure Inv (s : State τ n) : Prop where
  calling : ∀ th call, s.call th = some call → call.fn < s.next ∧
    (∀ e, (call.fn, e) ∉ s.returned) ∧ s.copies call.fn = if call.pc.pushed then 1 else 0
  distinct : ∀ th th' call call', s.call th = some call → s.call th' = some call' →
    call.fn = call'.fn → th = th'
  fresh : ∀ fn, s.next ≤ fn → s.copies fn = 0 ∧ ∀ e, (fn, e) ∉ s.returned
  returned : ∀ fn e, (fn, e) ∈ s.returned → s.copies fn = if e = .errorNone then 1 else 0

namespace Inv

variable {s s' : State τ n} {enableWorkSteal : Bool}

theorem initial : Inv (State.initial enableWorkSteal : State τ n) := by
  have hcopies : ∀ fn, (State.initial enableWorkSteal : State τ n).copies fn = 0 := by
    intro fn
    simp [State.copies, State.initial, copiesIn, Queue.empty]
  refine ⟨?_, ?_, fun fn _ => ⟨hcopies fn, by simp [State.initial]⟩, ?_⟩ <;>
    simp [State.initial]

/-- A step that moves no function and no call. -/
theorem congr (h : Inv s) (hcall : s'.call = s.call) (hnext : s'.next = s.next)
    (hreturned : s'.returned = s.returned) (hcopies : ∀ fn, s'.copies fn = s.copies fn) :
    Inv s' := by
  refine ⟨?_, ?_, ?_, ?_⟩
  · intro th call
    rw [hcall, hnext, hreturned, hcopies]
    exact h.calling th call
  · rw [hcall]
    exact h.distinct
  · intro fn
    rw [hnext, hreturned, hcopies]
    exact h.fresh fn
  · intro fn e
    rw [hreturned, hcopies]
    exact h.returned fn e

theorem worker (h : Inv s) {v : Fin n} {lock : Bool}
    (hstep : workerStep enableWorkSteal s v lock = some s') : Inv s' := by
  cases (workerStep_move hstep).2 with
  | execute q queue x hitems => exact h.congr rfl rfl rfl (copies_execute s v q hitems)
  | goes pc => exact h.congr rfl rfl rfl fun _ => rfl

theorem destructor (h : Inv s) (hstep : destructorStep s = some s') : Inv s' := by
  simp only [destructorStep] at hstep
  split at hstep
  · cases hstep
    exact h.congr rfl rfl rfl fun _ => rfl
  · split at hstep
    · cases hstep
      exact h.congr rfl rfl rfl (copies_stop s _)
    · cases hstep
      exact h.congr rfl rfl rfl fun _ => rfl
  · split at hstep
    · split at hstep
      · cases hstep
        exact h.congr rfl rfl rfl fun _ => rfl
      · cases hstep
    · cases hstep
      exact h.congr rfl rfl rfl fun _ => rfl
  · cases hstep

variable [DecidableEq τ]

/-- A call moves on to another program point, and pushes its function or does not. -/
theorem setCall (h : Inv s) {th : Thread τ n} {call : Call n} {pc : CallPc n}
    {queue : Fin n → Queue WorkItem} (hcall : s.call th = some call)
    (hpushed : call.pc.pushed = false)
    (hcopies : ∀ fn, State.copies { s with queue := queue } fn =
      s.copies fn + if call.fn = fn ∧ pc.pushed = true then 1 else 0) :
    Inv (State.setCall { s with queue := queue } th (some { call with pc := pc })) := by
  have hthis := h.calling th call hcall
  rw [hpushed] at hthis
  -- the functions of the other calls stay where they are
  have hothers : ∀ fn, fn ≠ call.fn →
      State.copies { s with queue := queue } fn = s.copies fn := by
    intro fn hne
    rw [hcopies, if_neg fun hand => hne hand.1.symm]
    rfl
  refine ⟨?_, ?_, ?_, ?_⟩
  · intro th' call' hcall'
    by_cases hth : th' = th
    · subst hth
      simp only [State.setCall, Function.update_self, Option.some.injEq] at hcall'
      subst hcall'
      refine ⟨hthis.1, hthis.2.1, (hcopies call.fn).trans ?_⟩
      simp [hthis.2.2]
    · simp only [State.setCall, Function.update_of_ne hth] at hcall'
      have hother := h.calling th' call' hcall'
      have hne : call'.fn ≠ call.fn := fun heq => hth (h.distinct _ _ _ _ hcall' hcall heq)
      exact ⟨hother.1, hother.2.1, (hothers _ hne).trans hother.2.2⟩
  · have hfn : ∀ th' call', (State.setCall { s with queue := queue } th
        (some { call with pc := pc })).call th' = some call' →
        ∃ call'', s.call th' = some call'' ∧ call''.fn = call'.fn := by
      intro th' call' hcall'
      by_cases hth : th' = th
      · subst hth
        simp only [State.setCall, Function.update_self, Option.some.injEq] at hcall'
        subst hcall'
        exact ⟨call, hcall, rfl⟩
      · simp only [State.setCall, Function.update_of_ne hth] at hcall'
        exact ⟨call', hcall', rfl⟩
    intro a b x y hx hy hxy
    rcases hfn a x hx with ⟨x', hx', hxx⟩
    rcases hfn b y hy with ⟨y', hy', hyy⟩
    exact h.distinct a b x' y' hx' hy' (hxx.trans (hxy.trans hyy.symm))
  · intro fn hfn
    have hne : fn ≠ call.fn := by
      have hlt := hthis.1
      intro heq
      rw [heq] at hfn
      exact Nat.not_le_of_lt hlt hfn
    exact ⟨(hothers fn hne).trans (h.fresh fn hfn).1, (h.fresh fn hfn).2⟩
  · intro fn e hmem
    have hne : fn ≠ call.fn := by
      intro heq
      rw [heq] at hmem
      exact hthis.2.1 e hmem
    exact (hothers fn hne).trans (h.returned fn e hmem)

/-- A call goes on without a push. -/
theorem proceeds (h : Inv s) {th : Thread τ n} {call : Call n} {pc : CallPc n}
    (hcall : s.call th = some call) (hpushed : call.pc.pushed = false)
    (hpc : pc.pushed = false) : Inv (s.setCall th (some { call with pc := pc })) := by
  refine h.setCall hcall hpushed fun fn => ?_
  rw [hpc, if_neg (by simp)]
  rfl

theorem pushed (h : Inv s) {th : Thread τ n} {call : Call n} (hcall : s.call th = some call)
    (hpushed : call.pc.pushed = false) (q : Fin n) (canSteal : Bool) :
    Inv (s.pushed th call q canSteal) := by
  refine h.setCall hcall hpushed fun fn => ?_
  rw [show (CallPc.returning .errorNone : CallPc n).pushed = true from rfl]
  simp only [and_true]
  exact copies_push s q ⟨canSteal, call.fn⟩ fn

theorem returns (h : Inv s) {th : Thread τ n} {call : Call n} {e : ErrorType}
    (hcall : s.call th = some call) (hpc : call.pc = .returning e) :
    Inv { s.setCall th none with returned := s.returned ++ [(call.fn, e)] } := by
  have hthis := h.calling th call hcall
  have hcopies : s.copies call.fn = if e = .errorNone then 1 else 0 := by
    rw [hthis.2.2, hpc]
    cases e <;> rfl
  have hother : ∀ th' call', Function.update s.call th none th' = some call' →
      s.call th' = some call' ∧ call'.fn ≠ call.fn := by
    intro th' call' hcall'
    by_cases hth : th' = th
    · subst hth
      simp at hcall'
    · rw [Function.update_of_ne hth] at hcall'
      exact ⟨hcall', fun heq => hth (h.distinct _ _ _ _ hcall' hcall heq)⟩
  refine ⟨?_, ?_, ?_, ?_⟩
  · intro th' call' hcall'
    rcases hother th' call' hcall' with ⟨hcall', hne⟩
    have hc := h.calling th' call' hcall'
    refine ⟨hc.1, fun e' hmem => ?_, hc.2.2⟩
    rcases List.mem_append.mp hmem with hmem | hmem
    · exact hc.2.1 e' hmem
    · simp only [List.mem_singleton, Prod.mk.injEq] at hmem
      exact hne hmem.1
  · intro a b x y hx hy hxy
    exact h.distinct a b x y (hother a x hx).1 (hother b y hy).1 hxy
  · intro fn hfn
    have hlt := hthis.1
    have hfresh := h.fresh fn hfn
    refine ⟨hfresh.1, fun e' hmem => ?_⟩
    rcases List.mem_append.mp hmem with hmem | hmem
    · exact hfresh.2 e' hmem
    · simp only [List.mem_singleton, Prod.mk.injEq] at hmem
      have hle : s.next ≤ call.fn := hmem.1 ▸ hfn
      exact Nat.not_le_of_lt hlt hle
  · intro fn e' hmem
    rcases List.mem_append.mp hmem with hmem | hmem
    · exact h.returned fn e' hmem
    · simp only [List.mem_singleton, Prod.mk.injEq] at hmem
      rw [hmem.1, hmem.2]
      exact hcopies

theorem call (h : Inv s) {th : Thread τ n} {lock : Bool} {choice : Fin n}
    (hstep : callStep enableWorkSteal s th lock choice = some s') : Inv s' := by
  cases callStep_move hstep with
  | proceeds call pc hcall hbefore hafter => exact h.proceeds hcall hbefore hafter
  | pushes call q canSteal hcall hbefore => exact h.pushed hcall hbefore q canSteal
  | returns call e hcall hpc => exact h.returns hcall hpc

theorem scheduleById (h : Inv s) {th : Thread τ n} {id : Option (Fin n)} {isNull : Bool} :
    Inv { s.setCall th (some ⟨s.next, id, .checkNull isNull⟩) with next := s.next + 1 } := by
  have hnew := h.fresh s.next (Nat.le_refl _)
  have hcases : ∀ th' call',
      Function.update s.call th (some ⟨s.next, id, .checkNull isNull⟩) th' = some call' →
      th' = th ∧ call' = ⟨s.next, id, .checkNull isNull⟩ ∨
        th' ≠ th ∧ s.call th' = some call' ∧ call'.fn < s.next := by
    intro th' call' hcall'
    by_cases hth : th' = th
    · subst hth
      rw [Function.update_self, Option.some.injEq] at hcall'
      exact .inl ⟨rfl, hcall'.symm⟩
    · rw [Function.update_of_ne hth] at hcall'
      exact .inr ⟨hth, hcall', (h.calling th' call' hcall').1⟩
  refine ⟨?_, ?_, ?_, h.returned⟩
  · intro th' call' hcall'
    rcases hcases th' call' hcall' with ⟨rfl, rfl⟩ | ⟨-, hcall', -⟩
    · exact ⟨Nat.lt_succ_self _, hnew.2, hnew.1⟩
    · have hc := h.calling th' call' hcall'
      exact ⟨Nat.lt_succ_of_lt hc.1, hc.2⟩
  · intro a b x y hx hy hxy
    rcases hcases a x hx with ⟨rfl, rfl⟩ | ⟨-, hx, hxlt⟩
    · rcases hcases b y hy with ⟨rfl, -⟩ | ⟨-, -, hylt⟩
      · rfl
      · rw [← hxy] at hylt
        exact absurd hylt (Nat.lt_irrefl _)
    · rcases hcases b y hy with ⟨rfl, rfl⟩ | ⟨-, hy, -⟩
      · rw [hxy] at hxlt
        exact absurd hxlt (Nat.lt_irrefl _)
      · exact h.distinct a b x y hx hy hxy
  · intro fn hfn
    exact h.fresh fn (Nat.le_of_succ_le hfn)

theorem step (h : Inv s) {l : Label τ n}
    (hstep : ThreadPool.step enableWorkSteal s l = some s') : Inv s' := by
  cases l with
  | scheduleById th id isNull =>
      simp only [ThreadPool.step, Option.ite_none_right_eq_some, Option.some.injEq] at hstep
      rcases hstep with ⟨-, rfl⟩
      exact h.scheduleById
  | call th lock choice => exact h.call hstep
  | worker v lock =>
      simp only [ThreadPool.step, Option.ite_none_right_eq_some] at hstep
      exact h.worker hstep.2
  | destructor => exact h.destructor hstep

end Inv

/-! ## What a worker leaves behind -/

/-- A worker that leaves has left nothing in its queue. -/
def Emptied (s : State τ n) : Prop :=
  ∀ q, (s.worker q).leaves = true → (s.queue q).items = []

namespace Emptied

variable {s s' : State τ n} {enableWorkSteal : Bool}

theorem initial : Emptied (State.initial enableWorkSteal : State τ n) := fun _ _ => rfl

/-- A worker goes to a program point of its loop. -/
theorem setWorker (h : Emptied s) {v : Fin n} {pc : WorkerPc}
    (hpc : pc.leaves = true → (s.queue v).items = []) : Emptied (s.setWorker v pc) := by
  intro q hq
  by_cases hqv : q = v
  · subst hqv
    simp only [State.setWorker, Function.update_self] at hq
    exact hpc hq
  · simp only [State.setWorker, Function.update_of_ne hqv] at hq
    exact h q hq

/-- A worker takes a function from its queue or from another one. -/
theorem execute (h : Emptied s) {v q : Fin n} {queue : Queue WorkItem} {x : WorkItem}
    (hitems : (s.queue q).items = x :: queue.items) :
    Emptied ((s.setQueue q queue).execute v x.fn) := by
  intro w hw
  have hwv : w ≠ v := by
    rintro rfl
    simp [State.execute, WorkerPc.leaves] at hw
  simp only [State.execute, State.setQueue, Function.update_of_ne hwv] at hw
  have hempty := h w hw
  have hwq : w ≠ q := by
    rintro rfl
    rw [hempty] at hitems
    cases hitems
  simp only [State.execute, State.setQueue, Function.update_of_ne hwq]
  exact hempty

theorem worker (h : Emptied s) {v : Fin n} {lock : Bool}
    (hstep : workerStep enableWorkSteal s v lock = some s') : Emptied s' := by
  cases (workerStep_move hstep).2 with
  | execute q queue x hitems => exact h.execute hitems
  | goes pc hleaves =>
      refine h.setWorker fun hpc => ?_
      rcases hleaves hpc with hleft | hempty
      · exact h v hleft
      · exact hempty

theorem items_stop (i q : Fin n) :
    ((s.setQueue i (s.queue i).stop).queue q).items = (s.queue q).items :=
  apply_update_of_eq (f := Queue.items) (g := s.queue) (i := i) (a := (s.queue i).stop) rfl q

theorem destructor (h : Emptied s) (hstep : destructorStep s = some s') : Emptied s' := by
  simp only [destructorStep] at hstep
  split at hstep
  · cases hstep
    exact h
  · split at hstep
    · cases hstep
      intro q hq
      exact (items_stop _ q).trans (h q hq)
    · cases hstep
      exact h
  · split at hstep
    · split at hstep
      · cases hstep
        exact h
      · cases hstep
    · cases hstep
      exact h
  · cases hstep

variable [DecidableEq τ]

/-- A push into the queue of a worker that stays. -/
theorem pushed (h : Emptied s) {th : Thread τ n} {call : Call n} {q : Fin n} {canSteal : Bool}
    (hstays : (s.worker q).leaves = false) : Emptied (s.pushed th call q canSteal) := by
  intro w hw
  have hwq : w ≠ q := by
    rintro rfl
    exact absurd (hw.symm.trans hstays) (by simp)
  simp only [State.pushed, State.setCall, State.setQueue, Function.update_of_ne hwq]
  exact h w hw

theorem call (h : Emptied s) {th : Thread τ n} {lock : Bool} {choice : Fin n}
    (hattended : attended s (.call th lock choice) = true)
    (hstep : callStep enableWorkSteal s th lock choice = some s') : Emptied s' := by
  cases callStep_move hstep with
  | proceeds call pc => exact h
  | pushes call q canSteal hcall hbefore hinto =>
      exact h.pushed (by simpa [attended, hinto] using hattended)
  | returns call e => exact h

theorem step (h : Emptied s) {l : Label τ n} (hattended : attended s l = true)
    (hstep : ThreadPool.step enableWorkSteal s l = some s') : Emptied s' := by
  cases l with
  | scheduleById th id isNull =>
      simp only [ThreadPool.step, Option.ite_none_right_eq_some, Option.some.injEq] at hstep
      rcases hstep with ⟨-, rfl⟩
      exact h
  | call th lock choice => exact h.call hattended hstep
  | worker v lock =>
      simp only [ThreadPool.step, Option.ite_none_right_eq_some] at hstep
      exact h.worker hstep.2
  | destructor => exact h.destructor hstep

end Emptied

/-! ## The destructor -/

/-- The queues below this number are stopped. -/
def DestructorPc.stopped (n : Nat) : DestructorPc → Nat
  | .notStarted => 0
  | .stopQueue i => i
  | .join _ | .returned => n

/-- The workers below this number have been joined. -/
def DestructorPc.joined (n : Nat) : DestructorPc → Nat
  | .notStarted | .stopQueue _ => 0
  | .join i => i
  | .returned => n

structure Shutdown (s : State τ n) : Prop where
  stop : s.destructor ≠ .notStarted → s.stop = true
  stopped : ∀ q, q.val < s.destructor.stopped n → (s.queue q).stopped = true
  joined : ∀ q, q.val < s.destructor.joined n → s.worker q = .exited

namespace Shutdown

variable {s s' : State τ n} {enableWorkSteal : Bool}

theorem initial : Shutdown (State.initial enableWorkSteal : State τ n) := by
  refine ⟨fun hnot => absurd rfl hnot, ?_, ?_⟩ <;> intro q hq <;> exact absurd hq (by
    simp [State.initial, DestructorPc.stopped, DestructorPc.joined])

/-- The stop flags and the workers that have left do not change. -/
theorem congr (h : Shutdown s) (hstop : s'.stop = s.stop)
    (hdestructor : s'.destructor = s.destructor)
    (hstopped : ∀ q, (s'.queue q).stopped = (s.queue q).stopped)
    (hexited : ∀ q, s.worker q = .exited → s'.worker q = .exited) : Shutdown s' := by
  refine ⟨?_, ?_, ?_⟩
  · rw [hstop, hdestructor]
    exact h.stop
  · intro q
    rw [hstopped, hdestructor]
    exact h.stopped q
  · intro q hq
    rw [hdestructor] at hq
    exact hexited q (h.joined q hq)

theorem stopped_setQueue {q : Fin n} {queue : Queue WorkItem}
    (hqueue : queue.stopped = (s.queue q).stopped) (w : Fin n) :
    ((s.setQueue q queue).queue w).stopped = (s.queue w).stopped :=
  apply_update_of_eq (f := Queue.stopped) hqueue w

theorem worker (h : Shutdown s) {v : Fin n} {lock : Bool}
    (hstep : workerStep enableWorkSteal s v lock = some s') : Shutdown s' := by
  rcases workerStep_move hstep with ⟨hv, hmove⟩
  have hexited : ∀ pc q, s.worker q = .exited → Function.update s.worker v pc q = .exited := by
    intro pc q hq
    rw [Function.update_of_ne (by rintro rfl; exact hv hq)]
    exact hq
  cases hmove with
  | execute q queue x hitems hstopped =>
      exact h.congr rfl rfl (stopped_setQueue hstopped) (hexited _)
  | goes pc => exact h.congr rfl rfl (fun _ => rfl) (hexited _)

theorem destructor (h : Shutdown s) (hstep : destructorStep s = some s') : Shutdown s' := by
  simp only [destructorStep] at hstep
  split at hstep
  · next hpc =>
      cases hstep
      refine ⟨fun _ => rfl, ?_, ?_⟩ <;> intro q hq <;> exact absurd hq (by
        simp [DestructorPc.stopped, DestructorPc.joined])
  · next i hpc =>
      have hstop := h.stop (by rw [hpc]; simp)
      have hstopped := h.stopped
      simp only [hpc, DestructorPc.stopped] at hstopped
      split at hstep
      · next hi =>
          cases hstep
          refine ⟨fun _ => hstop, ?_, ?_⟩
          · intro q hq
            by_cases hqi : q = ⟨i, hi⟩
            · subst hqi
              simp only [State.setQueue, Function.update_self]
              rfl
            · have hne : q.val ≠ i := fun hval => hqi (Fin.ext hval)
              simp only [State.setQueue, Function.update_of_ne hqi]
              simp only [DestructorPc.stopped] at hq
              exact hstopped q (by omega)
          · intro q hq
            exact absurd hq (by simp [DestructorPc.joined])
      · next hi =>
          cases hstep
          refine ⟨fun _ => hstop, fun q _ => hstopped q (by omega), ?_⟩
          intro q hq
          exact absurd hq (by simp [DestructorPc.joined])
  · next i hpc =>
      have hstop := h.stop (by rw [hpc]; simp)
      have hstopped := h.stopped
      have hjoined := h.joined
      simp only [hpc, DestructorPc.stopped] at hstopped
      simp only [hpc, DestructorPc.joined] at hjoined
      split at hstep
      · next hi =>
          split at hstep
          · next hexited =>
              cases hstep
              refine ⟨fun _ => hstop, hstopped, fun q hq => ?_⟩
              rcases Nat.lt_succ_iff_lt_or_eq.mp hq with hlt | rfl
              · exact hjoined q hlt
              · exact hexited
          · cases hstep
      · next hi =>
          cases hstep
          exact ⟨fun _ => hstop, hstopped, fun q _ => hjoined q (by omega)⟩
  · cases hstep

variable [DecidableEq τ]

theorem call (h : Shutdown s) {th : Thread τ n} {lock : Bool} {choice : Fin n}
    (hstep : callStep enableWorkSteal s th lock choice = some s') : Shutdown s' := by
  cases callStep_move hstep with
  | proceeds call pc => exact h.congr rfl rfl (fun _ => rfl) fun _ hq => hq
  | pushes call q canSteal =>
      have hqueue : ((s.queue q).push ⟨canSteal, call.fn⟩).stopped = (s.queue q).stopped := rfl
      exact h.congr rfl rfl (stopped_setQueue hqueue) fun _ hq => hq
  | returns call e => exact h.congr rfl rfl (fun _ => rfl) fun _ hq => hq

theorem step (h : Shutdown s) {l : Label τ n}
    (hstep : ThreadPool.step enableWorkSteal s l = some s') : Shutdown s' := by
  cases l with
  | scheduleById th id isNull =>
      simp only [ThreadPool.step, Option.ite_none_right_eq_some, Option.some.injEq] at hstep
      rcases hstep with ⟨-, rfl⟩
      exact h.congr rfl rfl (fun _ => rfl) fun _ hq => hq
  | call th lock choice => exact h.call hstep
  | worker v lock =>
      simp only [ThreadPool.step, Option.ite_none_right_eq_some] at hstep
      exact h.worker hstep.2
  | destructor => exact h.destructor hstep

end Shutdown

/-- All functions have been executed when all workers have left. -/
theorem conserved_of_emptied {s : State τ n} (hinv : Inv s) (hemptied : Emptied s)
    (hshutdown : Shutdown s) : Conserved s := by
  intro fn e hmem
  have hcopies := hinv.returned fn e hmem
  simp only [State.copies] at hcopies
  by_cases he : e = .errorNone
  · rw [if_pos he] at hcopies ⊢
    refine ⟨by omega, fun hreturned => ?_⟩
    have hqueues : ∑ q, copiesIn fn (s.queue q) = 0 := by
      refine Finset.sum_eq_zero fun q _ => ?_
      have hexited := hshutdown.joined q (by rw [hreturned]; exact q.isLt)
      simp [copiesIn, hemptied q (by rw [hexited]; rfl)]
    omega
  · rw [if_neg he] at hcopies ⊢
    omega

/-! ## The destructor can return -/

/-- Steps that a call may still make. -/
def CallPc.rank : CallPc n → Nat
  | .checkNull _ => 2 * n + 5
  | .checkStop => 2 * n + 4
  | .tryPush k => 2 * n - k + 3
  | .push _ _ => 2
  | .returning _ => 1

def callRank : Option (Call n) → Nat
  | none => 0
  | some call => call.pc.rank

/-- Steps of a worker to its end, if it finds no more functions. -/
def WorkerPc.rank (n : Nat) : WorkerPc → Nat
  | .running _ => 2 * n + 4
  | .steal k => 2 * n - k + 3
  | .pop => 2
  | .testStop => 1
  | .exited => 0

def DestructorPc.rank (n : Nat) : DestructorPc → Nat
  | .notStarted => 2 * n + 4
  | .stopQueue i => (n - i) + n + 3
  | .join i => n - i + 1
  | .returned => 0

/-- Steps that the workers, their calls and the destructor may still make; a call may add
one function to the queues, and a function occupies a worker for one more round. -/
def State.rank (s : State τ n) : Nat :=
  (2 * n + 6) * ∑ v, callRank (s.call (.worker v)) +
    (2 * n + 5) * ∑ q, (s.queue q).items.length +
    ∑ v, (s.worker v).rank n + s.destructor.rank n

section Progress

variable {s : State τ n} {enableWorkSteal : Bool}

/-- The worker goes on in its loop. -/
theorem rank_setWorker {v : Fin n} {pc : WorkerPc} (hlt : pc.rank n < (s.worker v).rank n) :
    (s.setWorker v pc).rank < s.rank := by
  have hsum := sum_update_lt (r := WorkerPc.rank n) (f := s.worker) (i := v) hlt
  simp only [State.rank, State.setWorker]
  omega

/-- The worker takes a function from a queue. -/
theorem rank_execute {v q : Fin n} {queue : Queue WorkItem} {x : WorkItem}
    (hitems : (s.queue q).items = x :: queue.items) (hworker : 0 < (s.worker v).rank n) :
    ((s.setQueue q queue).execute v x.fn).rank < s.rank := by
  have hworkers := sum_update (WorkerPc.rank n) s.worker v (.running x.fn)
  have hqueues := sum_update (fun q => q.items.length) s.queue q queue
  simp only [hitems, List.length_cons] at hqueues
  have hfewer : ∑ w, (Function.update s.queue q queue w).items.length + 1 =
      ∑ w, (s.queue w).items.length := by omega
  simp only [State.rank, State.execute, State.setQueue, ← hfewer]
  have hrunning : (WorkerPc.running x.fn).rank n = 2 * n + 4 := rfl
  rw [hrunning] at hworkers
  rw [Nat.mul_add]
  omega

theorem rank_loopStart_lt : (loopStart enableWorkSteal).rank n < 2 * n + 4 := by
  cases enableWorkSteal
  · simp only [loopStart, Bool.false_eq_true, if_false, WorkerPc.rank]
    omega
  · simp only [loopStart, if_true, WorkerPc.rank]
    omega

variable [DecidableEq τ]

theorem exists_step_of_worker {v : Fin n} (hcall : s.call (.worker v) = none)
    (hexited : s.worker v ≠ .exited) (hstop : s.stop = true)
    (hstopped : (s.queue v).stopped = true) :
    ∃ l s', ThreadPool.step enableWorkSteal s l = some s' ∧ s'.rank < s.rank := by
  refine ⟨.worker v false, ?_⟩
  simp only [step, hcall, if_true, workerStep]
  cases hpc : s.worker v with
  | steal k =>
      simp only
      split
      · next hk =>
          have hnone : (s.queue (index v (v + k))).tryPopIf false WorkItem.canSteal = none := by
            unfold Queue.tryPopIf
            split <;> simp
          rw [hnone]
          refine ⟨_, rfl, rank_setWorker ?_⟩
          rw [hpc]
          simp only [WorkerPc.rank]
          omega
      · refine ⟨_, rfl, rank_setWorker ?_⟩
        rw [hpc]
        simp only [WorkerPc.rank]
        omega
  | pop =>
      cases hpop : (s.queue v).pop with
      | waits =>
          unfold Queue.pop at hpop
          split at hpop <;> simp [hstopped] at hpop
      | stopped => exact ⟨_, rfl, rank_setWorker (by simp [hpc, WorkerPc.rank])⟩
      | item x queue =>
          exact ⟨_, rfl, rank_execute (Queue.pop_eq_item hpop).1 (by simp [hpc, WorkerPc.rank])⟩
  | testStop =>
      simp only [hstop, if_true]
      exact ⟨_, rfl, rank_setWorker (by simp [hpc, WorkerPc.rank])⟩
  | running fn =>
      refine ⟨_, rfl, rank_setWorker ?_⟩
      rw [hpc]
      exact rank_loopStart_lt
  | exited => exact absurd hpc hexited

/-- A call by the function on a worker moves on. -/
theorem rank_call {v : Fin n} {call : Option (Call n)} {queue : Fin n → Queue WorkItem}
    {returned : List (Nat × ErrorType)}
    (hlt : callRank call < callRank (s.call (.worker v)))
    (hqueues : ∑ q, (queue q).items.length ≤ ∑ q, (s.queue q).items.length + 1) :
    State.rank { s with
      queue := queue
      call := Function.update s.call (.worker v) call
      returned := returned } < s.rank := by
  have hcalls : ∑ w, callRank (Function.update s.call (.worker v) call (.worker w)) <
      ∑ w, callRank (s.call (.worker w)) := by
    have hcomp := Function.update_comp_eq_of_injective s.call
      (f := (Thread.worker : Fin n → Thread τ n)) (fun _ _ heq => by cases heq; rfl) v call
    have hsum := sum_update_lt (r := callRank) (f := fun w => s.call (Thread.worker w)) (i := v)
      (a := call) hlt
    have heq : ∀ w, Function.update s.call (.worker v) call (.worker w) =
        Function.update (fun w => s.call (Thread.worker w)) v call w := fun w =>
      congrFun hcomp w
    simp only [heq]
    exact hsum
  have hfirst := Nat.mul_le_mul_left (2 * n + 6) hcalls
  have hsecond := Nat.mul_le_mul_left (2 * n + 5) hqueues
  simp only [Nat.succ_eq_add_one, Nat.mul_add, Nat.mul_one] at hfirst hsecond
  simp only [State.rank]
  omega

theorem exists_step_of_call {v : Fin n} {call : Call n} (hcall : s.call (.worker v) = some call) :
    ∃ l s', ThreadPool.step enableWorkSteal s l = some s' ∧ s'.rank < s.rank := by
  refine ⟨.call (.worker v) true v, ?_⟩
  have hsame : ∑ q, (s.queue q).items.length ≤ ∑ q, (s.queue q).items.length + 1 :=
    Nat.le_succ _
  have hpushed : ∀ q canSteal,
      ∑ w, (Function.update s.queue q ((s.queue q).push ⟨canSteal, call.fn⟩) w).items.length ≤
        ∑ w, (s.queue w).items.length + 1 := by
    intro q canSteal
    have hsum := sum_update (fun q => q.items.length) s.queue q
      ((s.queue q).push ⟨canSteal, call.fn⟩)
    simp only [Queue.push, List.length_append, List.length_singleton] at hsum ⊢
    omega
  simp only [step, callStep, hcall]
  cases hpc : call.pc with
  | checkNull isNull =>
      refine ⟨_, rfl, rank_call ?_ hsame⟩
      rw [hcall]
      cases isNull <;> simp [callRank, hpc, CallPc.rank]
  | checkStop =>
      refine ⟨_, rfl, rank_call ?_ hsame⟩
      rw [hcall]
      simp only [callRank, hpc]
      split
      · simp [CallPc.rank]
      · split
        · split <;> simp [CallPc.rank]
        · simp [CallPc.rank]
  | tryPush k =>
      simp only
      split
      · refine ⟨_, rfl, rank_call ?_ (hpushed _ _)⟩
        simp [hcall, callRank, hpc, CallPc.rank]
      · refine ⟨_, rfl, rank_call ?_ hsame⟩
        simp [hcall, callRank, hpc, CallPc.rank]
  | push q canSteal =>
      refine ⟨_, rfl, rank_call ?_ (hpushed _ _)⟩
      simp [hcall, callRank, hpc, CallPc.rank]
  | returning e =>
      refine ⟨_, rfl, rank_call ?_ hsame⟩
      simp [hcall, callRank, hpc, CallPc.rank]

theorem Shutdown.exists_step (h : Shutdown s) (hreturned : s.destructor ≠ .returned) :
    ∃ l s', ThreadPool.step enableWorkSteal s l = some s' ∧ s'.rank < s.rank := by
  cases hpc : s.destructor with
  | notStarted =>
      refine ⟨.destructor, _, by simp only [ThreadPool.step, destructorStep, hpc]; rfl, ?_⟩
      simp only [State.rank, hpc, DestructorPc.rank]
      omega
  | stopQueue i =>
      refine ⟨.destructor, ?_⟩
      simp only [ThreadPool.step, destructorStep, hpc]
      split
      · next hi =>
          refine ⟨_, rfl, ?_⟩
          have hitems : ∀ q, (Function.update s.queue ⟨i, hi⟩ (s.queue ⟨i, hi⟩).stop q).items =
              (s.queue q).items := Emptied.items_stop _
          simp only [State.rank, State.setQueue, hitems, hpc, DestructorPc.rank]
          omega
      · refine ⟨_, rfl, ?_⟩
        simp only [State.rank, hpc, DestructorPc.rank]
        omega
  | join i =>
      by_cases hi : i < n
      · by_cases hexited : s.worker ⟨i, hi⟩ = .exited
        · refine ⟨.destructor, { s with destructor := .join (i + 1) }, ?_, ?_⟩
          · simp [ThreadPool.step, destructorStep, hpc, hi, hexited]
          · simp only [State.rank, hpc, DestructorPc.rank]
            omega
        · cases hcall : s.call (.worker ⟨i, hi⟩) with
          | none =>
              exact exists_step_of_worker hcall hexited (h.stop (by rw [hpc]; simp))
                (h.stopped _ (by rw [hpc]; exact hi))
          | some call => exact exists_step_of_call hcall
      · refine ⟨.destructor, { s with destructor := .returned }, ?_, ?_⟩
        · simp [ThreadPool.step, destructorStep, hpc, hi]
        · simp only [State.rank, hpc, DestructorPc.rank]
          omega
  | returned => exact absurd hpc hreturned

/-- Every run can be continued until the destructor has returned. -/
theorem Shutdown.exists_returned (h : Shutdown s) :
    ∃ ks s', (machine τ n enableWorkSteal).run s ks = some s' ∧ s'.destructor = .returned := by
  have hprogress : ∀ s : State τ n, Shutdown s → ¬ s.destructor = .returned →
      ∃ l s', True ∧ (machine τ n enableWorkSteal).step s l = some s' ∧ Shutdown s' ∧
        s'.rank < s.rank := by
    intro s h hreturned
    rcases h.exists_step hreturned with ⟨l, s', hstep, hlt⟩
    exact ⟨l, s', trivial, hstep, h.step hstep, hlt⟩
  rcases (machine τ n enableWorkSteal).exists_run_of_measure (fun _ => True) State.rank
    hprogress h with ⟨ks, s', -, hrun, -, hreturned⟩
  exact ⟨ks, s', hrun, hreturned⟩

end Progress

/-! ## Conservation -/

/-- In every run in which no call pushes into the queue of a worker that has found it empty
after the stop, the pool executes what it has accepted, and nothing else. -/
theorem conserved_of_attended [DecidableEq τ] (n : Nat) (enableWorkSteal : Bool)
    {ls : List (Label τ n)} {s : State τ n}
    (hattended : (machine τ n enableWorkSteal).RunsWithin (fun s l => attended s l = true)
      (State.initial enableWorkSteal) ls)
    (hrun : (machine τ n enableWorkSteal).run (State.initial enableWorkSteal) ls = some s) :
    Conserved s ∧
      ∃ ks s', (machine τ n enableWorkSteal).run s ks = some s' ∧ s'.destructor = .returned := by
  have h : Inv s ∧ Emptied s ∧ Shutdown s := by
    refine Machine.runsWithin_invariant _ (P := fun s => Inv s ∧ Emptied s ∧ Shutdown s) ?_
      ⟨Inv.initial, Emptied.initial, Shutdown.initial⟩ hattended hrun
    rintro s l s' ⟨hinv, hemptied, hshutdown⟩ hattended hstep
    exact ⟨hinv.step hstep, hemptied.step hattended hstep, hshutdown.step hstep⟩
  exact ⟨conserved_of_emptied h.1 h.2.1 h.2.2, h.2.2.exists_returned⟩

/-- A function that runs on the worker {lit}`v` passes another one to the worker
{lit}`w`; {lit}`between` are the steps between the test of {lit}`_stop` and the push. -/
def nestedCall (v w : Fin n) (between : List (Label Unit n)) : List (Label Unit n) :=
  .scheduleById (.external ()) (some v) false ::
    List.replicate 4 (.call (.external ()) true v) ++
    [.worker v true, .scheduleById (.worker v) (some w) false] ++
    List.replicate 2 (.call (.worker v) true v) ++ between ++
    List.replicate 2 (.call (.worker v) true v)

/-- The destructor up to its first {lit}`join`, and the worker {lit}`w` to its end. -/
def stopAndLeave (w : Fin n) : List (Label Unit n) :=
  List.replicate (n + 2) .destructor ++ List.replicate 2 (.worker w true)

/-- Both functions are executed when the second one is pushed before its worker leaves. -/
theorem conserved_of_attended_nestedCall :
    ∃ s, (machine Unit 2 false).run (State.initial false) (nestedCall 0 1 [] ++
        stopAndLeave 1 ++ List.replicate 2 (.worker 1 true) ++
        List.replicate 3 (.worker 0 true) ++ List.replicate 3 .destructor) = some s ∧
      s.destructor = .returned ∧ s.returned = [(0, .errorNone), (1, .errorNone)] ∧
      s.executed.count 0 = 1 ∧ s.executed.count 1 = 1 := by
  rcases Machine.exists_run_of_any (machine Unit 2 false) (State.initial false)
    (nestedCall 0 1 [] ++ stopAndLeave 1 ++ List.replicate 2 (Label.worker 1 true) ++
      List.replicate 3 (Label.worker 0 true) ++ List.replicate 3 Label.destructor)
    (fun s => s.destructor = .returned ∧ s.returned = [(0, .errorNone), (1, .errorNone)])
    (by decide +kernel) with ⟨s, hrun, hdestructor, hreturned⟩
  have hconserved := (conserved_of_attended 2 false (by decide +kernel) hrun).1
  refine ⟨s, hrun, hdestructor, hreturned, ?_, ?_⟩
  · exact (hconserved 0 .errorNone (by simp [hreturned])).2 hdestructor
  · exact (hconserved 1 .errorNone (by simp [hreturned])).2 hdestructor

/-- The second function is accepted and never executed when its worker leaves between the
test of {lit}`_stop` and the push. -/
theorem accepted_not_executed :
    ∃ s, (machine Unit 2 false).run (State.initial false) (nestedCall 0 1 (stopAndLeave 1) ++
        List.replicate 3 (.worker 0 true) ++ List.replicate 3 .destructor) = some s ∧
      s.destructor = .returned ∧ s.returned = [(0, .errorNone), (1, .errorNone)] ∧
      s.executed = [0] ∧ ¬ Conserved s := by
  rcases Machine.exists_run_of_any (machine Unit 2 false) (State.initial false)
    (nestedCall 0 1 (stopAndLeave 1) ++
      List.replicate 3 (Label.worker 0 true) ++ List.replicate 3 Label.destructor)
    (fun s => s.destructor = .returned ∧ s.returned = [(0, .errorNone), (1, .errorNone)] ∧
      s.executed = [0])
    (by decide +kernel) with ⟨s, hrun, hdestructor, hreturned, hexecuted⟩
  refine ⟨s, hrun, hdestructor, hreturned, hexecuted, fun hconserved => ?_⟩
  have hone := (hconserved 1 .errorNone (by simp [hreturned])).2 hdestructor
  rw [hexecuted] at hone
  exact absurd hone (by decide)

end ThreadPool

end AsyncSimple
