import AsyncSimple.Executor.TaskConservation

/-!
# Tasks that are pinned to a worker

{lit}`scheduleById(fn, id)` with an {lit}`id` puts the function into the queue of this worker
with {lit}`canSteal = false`.  The queue also holds functions that may be stolen, and thieves
pop from its front after a test of the flag.

The machine is the pool with a log of what happens to the functions: the push of a pinned one,
and the beginning and the end of each execution.

Main results:

- Theorem {lit}`move_of_step`: what a step does to the queues and the log.
- Theorem {lit}`LogInv.move`: what was pinned to a worker is done, runs on the worker or is in
  its queue, in this order.
- Theorem {lit}`pinned_tasks_in_order`: pinned functions run on their worker, one after the
  other in the order of the pushes.
-/

namespace AsyncSimple

open Transition

namespace ThreadPool

variable {τ : Type} {n : Nat}

/-! ## The log -/

inductive Event (n : Nat) where
  /-- the function was pushed by a call with this {lit}`id` -/
  | pushed (fn : Nat) (id : Fin n)
  | started (fn : Nat) (v : Fin n)
  | finished (fn : Nat) (v : Fin n)
deriving DecidableEq, Repr

/-- The function that a worker runs. -/
def WorkerPc.fn : WorkerPc → Option Nat
  | .running fn => some fn
  | _ => none

@[simp]
theorem WorkerPc.fn_running (fn : Nat) : (WorkerPc.running fn).fn = some fn :=
  rfl

/-- The next step of the call pushes a pinned function. -/
def Call.events (call : Call n) : List (Event n) :=
  match call.pc, call.id with
  | .push _ _, some id => [.pushed call.fn id]
  | _, _ => []

/-- What a step adds to the log. -/
def events (s s' : State τ n) : Label τ n → List (Event n)
  | .call th _ _ =>
      match s.call th with
      | some call => call.events
      | none => []
  | .worker v _ =>
      match (s.worker v).fn, (s'.worker v).fn with
      | some fn, _ => [.finished fn v]
      | none, some fn => [.started fn v]
      | none, none => []
  | .scheduleById _ _ _ | .destructor => []

structure Logged (τ : Type) (n : Nat) where
  pool : State τ n
  log : List (Event n)

def Logged.initial (enableWorkSteal : Bool) : Logged τ n where
  pool := State.initial enableWorkSteal
  log := []

/-- A pool with its log. -/
def loggedMachine (τ : Type) [DecidableEq τ] (n : Nat) (enableWorkSteal : Bool) :
    Machine (Logged τ n) (Label τ n) where
  step := fun s l => (step enableWorkSteal s.pool l).map fun pool =>
    ⟨pool, s.log ++ events s.pool pool l⟩

/-- The function of an event that pins one to the worker. -/
def Event.pinnedTo (id : Fin n) : Event n → Option Nat
  | .pushed fn id' => if id' = id then some fn else none
  | _ => none

/-- The functions that were pinned to the worker, in the order of their pushes. -/
def pinned (log : List (Event n)) (id : Fin n) : List Nat :=
  log.filterMap (Event.pinnedTo id)

/-- A pinned function is executed by its worker; when it starts, everything that was pinned to
the worker before it has started and finished. -/
structure PinnedInOrder (log : List (Event n)) : Prop where
  own : ∀ fn id v, fn ∈ pinned log id → Event.started fn v ∈ log → v = id
  order : ∀ f g id, [f, g].Sublist (pinned log id) → Event.started g id ∈ log →
    [Event.started f id, .finished f id, .started g id].Sublist log

/-! ## What the steps do -/

/-- Everything a step does to the queues, the running functions and the log. -/
inductive Move [DecidableEq τ] (s : State τ n) : List (Event n) → State τ n → Prop where
  | push (th : Thread τ n) (call : Call n) (q : Fin n) (canSteal : Bool)
      (hcall : s.call th = some call) (hbefore : call.pc.pushed = false)
      (hpinned : ∀ id, call.id = some id → q = id ∧ canSteal = false) :
      Move s (call.id.toList.map (.pushed call.fn)) (s.pushed th call q canSteal)
  | take (v q : Fin n) (queue : Queue WorkItem) (x : WorkItem) (hfree : (s.worker v).fn = none)
      (hitems : (s.queue q).items = x :: queue.items) (hown : q = v ∨ x.canSteal = true) :
      Move s [.started x.fn v] ((s.setQueue q queue).execute v x.fn)
  | finish (v : Fin n) (fn : Nat) (pc : WorkerPc) (hruns : (s.worker v).fn = some fn)
      (hpc : pc.fn = none) : Move s [.finished fn v] (s.setWorker v pc)
  | other (s' : State τ n) (hitems : ∀ q, (s'.queue q).items = (s.queue q).items)
      (hworker : ∀ v, (s'.worker v).fn = (s.worker v).fn)
      (hexecuted : s'.executed = s.executed) : Move s [] s'

/-- A call with an {lit}`id` comes to the queue of this worker only. -/
def Call.Aimed (call : Call n) : Prop :=
  match call.pc, call.id with
  | .tryPush _, some _ => False
  | .push q canSteal, some id => q = id ∧ canSteal = false
  | _, _ => True

@[simp]
theorem loopStart_fn (enableWorkSteal : Bool) : (loopStart enableWorkSteal).fn = none := by
  cases enableWorkSteal <;> rfl

section

variable [DecidableEq τ] {s s' : State τ n} {enableWorkSteal : Bool}

/-- A worker goes from one point without a function to another one. -/
theorem move_setWorker {v : Fin n} {pc : WorkerPc} (hbefore : (s.worker v).fn = none)
    (hafter : pc.fn = none) {lock : Bool} :
    Move s (events s (s.setWorker v pc) (.worker v lock)) (s.setWorker v pc) := by
  have hworker : (s.setWorker v pc).worker v = pc := Function.update_self ..
  have hevents : events s (s.setWorker v pc) (.worker v lock) = [] := by
    simp [events, hbefore, hworker, hafter]
  rw [hevents]
  refine .other _ (fun _ => rfl) ?_ rfl
  refine forall_update (p := fun w (pc : WorkerPc) => pc.fn = (s.worker w).fn) ?_ fun _ => rfl
  rw [hafter, hbefore]

theorem move_execute {v q : Fin n} {queue : Queue WorkItem} {x : WorkItem}
    (hfree : (s.worker v).fn = none) (hitems : (s.queue q).items = x :: queue.items)
    (hown : q = v ∨ x.canSteal = true) {lock : Bool} :
    Move s (events s ((s.setQueue q queue).execute v x.fn) (.worker v lock))
      ((s.setQueue q queue).execute v x.fn) := by
  have hruns : (((s.setQueue q queue).execute v x.fn).worker v).fn = some x.fn := by
    simp [State.execute]
  have hevents : events s ((s.setQueue q queue).execute v x.fn) (.worker v lock) =
      [.started x.fn v] := by
    simp [events, hfree, hruns]
  rw [hevents]
  exact .take v q queue x hfree hitems hown

theorem move_of_workerStep {v : Fin n} {lock : Bool}
    (hstep : workerStep enableWorkSteal s v lock = some s') :
    Move s (events s s' (.worker v lock)) s' := by
  unfold workerStep at hstep
  split at hstep
  case h_1 k hpc =>
    have hfree : (s.worker v).fn = none := by rw [hpc]; rfl
    split at hstep
    · split at hstep
      · next item queue hpop =>
          cases hstep
          exact move_execute hfree (Queue.tryPopIf_eq_some hpop).1
            (.inr (Queue.tryPopIf_predict hpop))
      · cases hstep
        exact move_setWorker hfree rfl
    · cases hstep
      exact move_setWorker hfree rfl
  case h_2 hpc =>
    have hfree : (s.worker v).fn = none := by rw [hpc]; rfl
    split at hstep
    · next x queue hpop =>
        cases hstep
        exact move_execute hfree (Queue.pop_eq_item hpop).1 (.inl rfl)
    · cases hstep
      exact move_setWorker hfree rfl
    · cases hstep
  case h_3 hpc =>
    have hfree : (s.worker v).fn = none := by rw [hpc]; rfl
    split at hstep
    · cases hstep
      exact move_setWorker hfree rfl
    · cases hstep
      exact move_setWorker hfree (loopStart_fn enableWorkSteal)
  case h_4 fn hpc =>
    cases hstep
    have hruns : (s.worker v).fn = some fn := by rw [hpc]; rfl
    have hevents : events s (s.setWorker v (loopStart enableWorkSteal)) (.worker v lock) =
        [.finished fn v] := by
      simp [events, hruns]
    rw [hevents]
    exact .finish v fn _ hruns (loopStart_fn enableWorkSteal)
  case h_5 => cases hstep

/-- A call proceeds without touching a queue. -/
theorem move_setCall {th : Thread τ n} {call : Option (Call n)} : Move s [] (s.setCall th call) :=
  .other _ (fun _ => rfl) (fun _ => rfl) rfl

/-- A step of {lit}`scheduleById`. -/
theorem move_of_callStep {th : Thread τ n} {lock : Bool} {choice : Fin n}
    (haimed : ∀ call, s.call th = some call → call.Aimed)
    (hstep : callStep enableWorkSteal s th lock choice = some s') :
    Move s (events s s' (.call th lock choice)) s' := by
  unfold callStep at hstep
  split at hstep
  case h_1 => cases hstep
  case h_2 call hcall =>
    have hevents : events s s' (.call th lock choice) = call.events := by
      simp only [events, hcall]
    have haim := haimed call hcall
    rcases call with ⟨fn, id, pc⟩
    rw [hevents]
    cases pc with
    | checkNull isNull =>
        cases hstep
        exact move_setCall
    | checkStop =>
        cases hstep
        exact move_setCall
    | tryPush k =>
        cases id with
        | some id => exact haim.elim
        | none =>
            simp only at hstep
            split at hstep
            · split at hstep
              · cases hstep
                exact .push th _ (index choice k) true hcall rfl nofun
              · cases hstep
                exact move_setCall
            · cases hstep
              exact move_setCall
    | push q canSteal =>
        cases hstep
        cases id with
        | some id =>
            refine .push th _ q canSteal hcall rfl ?_
            intro id' hid
            cases hid
            exact haim
        | none => exact .push th _ q canSteal hcall rfl nofun
    | returning e =>
        cases hstep
        exact .other _ (fun _ => rfl) (fun _ => rfl) rfl

theorem move_of_destructorStep (hstep : destructorStep s = some s') : Move s [] s' := by
  unfold destructorStep at hstep
  split at hstep
  case h_1 =>
    cases hstep
    exact .other _ (fun _ => rfl) (fun _ => rfl) rfl
  case h_2 i hpc =>
    split at hstep
    · next hi =>
        cases hstep
        refine .other _ ?_ (fun _ => rfl) rfl
        exact forall_update (p := fun q (queue : Queue WorkItem) =>
          queue.items = (s.queue q).items) rfl fun _ => rfl
    · cases hstep
      exact .other _ (fun _ => rfl) (fun _ => rfl) rfl
  case h_3 i hpc =>
    split at hstep
    · split at hstep
      · cases hstep
        exact .other _ (fun _ => rfl) (fun _ => rfl) rfl
      · cases hstep
    · cases hstep
      exact .other _ (fun _ => rfl) (fun _ => rfl) rfl
  case h_4 => cases hstep

/-- Everything a step of the pool can do. -/
theorem move_of_step {l : Label τ n}
    (haimed : ∀ th call, s.call th = some call → call.Aimed)
    (hstep : step enableWorkSteal s l = some s') : Move s (events s s' l) s' := by
  cases l with
  | scheduleById th id isNull =>
      simp only [step, Option.ite_none_right_eq_some, Option.some.injEq] at hstep
      rcases hstep with ⟨-, rfl⟩
      exact .other _ (fun _ => rfl) (fun _ => rfl) rfl
  | call th lock choice => exact move_of_callStep (haimed th) hstep
  | worker v lock =>
      simp only [step, Option.ite_none_right_eq_some] at hstep
      exact move_of_workerStep hstep.2
  | destructor => exact move_of_destructorStep hstep

omit [DecidableEq τ] in
theorem destructorStep_call (hstep : destructorStep s = some s') : s'.call = s.call := by
  unfold destructorStep at hstep
  split at hstep
  · cases hstep
    rfl
  · split at hstep <;> cases hstep <;> rfl
  · split at hstep
    · split at hstep <;> cases hstep
      rfl
    · cases hstep
      rfl
  · cases hstep

/-- The calls stay aimed at their workers. -/
theorem aimed_step {l : Label τ n} (haimed : ∀ th call, s.call th = some call → call.Aimed)
    (hstep : step enableWorkSteal s l = some s') :
    ∀ th call, s'.call th = some call → call.Aimed := by
  have hset : ∀ (th : Thread τ n) (next : Option (Call n)), (∀ call ∈ next, call.Aimed) →
      ∀ th' call, Function.update s.call th next th' = some call → call.Aimed := by
    intro th next hnext
    exact forall_update (p := fun _ (next : Option (Call n)) => ∀ call, next = some call →
      call.Aimed) hnext haimed
  cases l with
  | scheduleById th id isNull =>
      simp only [step, Option.ite_none_right_eq_some, Option.some.injEq] at hstep
      rcases hstep with ⟨-, rfl⟩
      refine hset th _ fun call hcall => ?_
      cases hcall
      trivial
  | worker v lock =>
      simp only [step, Option.ite_none_right_eq_some] at hstep
      rcases workerStep_move hstep.2 with ⟨-, hmove⟩
      cases hmove <;> exact haimed
  | destructor =>
      have hcall : s'.call = s.call := destructorStep_call hstep
      rw [hcall]
      exact haimed
  | call th lock choice =>
      simp only [step, callStep] at hstep
      split at hstep
      case h_1 => cases hstep
      case h_2 call hcall =>
        have haim := haimed th call hcall
        rcases call with ⟨fn, id, pc⟩
        have hfree : ∀ pc, Call.Aimed (⟨fn, none, pc⟩ : Call n) := by
          intro pc
          cases pc <;> trivial
        have hproceeds : ∀ pc, Call.Aimed (⟨fn, id, pc⟩ : Call n) → ∀ th' call,
            Function.update s.call th (some ⟨fn, id, pc⟩) th' = some call → call.Aimed := by
          intro pc hpc
          exact hset th _ fun call hcall => Option.some.inj hcall ▸ hpc
        cases pc with
        | checkNull isNull =>
            cases hstep
            exact hproceeds _ (by cases isNull <;> trivial)
        | checkStop =>
            cases hstep
            refine hproceeds _ ?_
            cases s.stop with
            | true => trivial
            | false =>
                cases id with
                | none => exact hfree _
                | some id => exact ⟨rfl, rfl⟩
        | tryPush k =>
            cases id with
            | some id => exact haim.elim
            | none =>
                simp only at hstep
                split at hstep
                · split at hstep <;> cases hstep <;> exact hproceeds _ (hfree _)
                · cases hstep
                  exact hproceeds _ (hfree _)
        | push q canSteal =>
            cases hstep
            exact hproceeds _ trivial
        | returning e =>
            cases hstep
            exact hset th none (by simp)

end

/-! ## The invariant -/

section

variable {log : List (Event n)} {id : Fin n} {fn : Nat}

theorem mem_pinned : fn ∈ pinned log id ↔ Event.pushed fn id ∈ log := by
  unfold pinned
  rw [List.mem_filterMap]
  constructor
  · rintro ⟨e, he, hfn⟩
    cases e with
    | pushed fn' id' =>
        simp only [Event.pinnedTo, Option.ite_none_right_eq_some, Option.some.injEq] at hfn
        rcases hfn with ⟨rfl, rfl⟩
        exact he
    | started fn' v | finished fn' v => cases hfn
  · intro he
    exact ⟨_, he, if_pos rfl⟩

@[simp]
theorem pinned_append (log events : List (Event n)) (id : Fin n) :
    pinned (log ++ events) id = pinned log id ++ pinned events id :=
  List.filterMap_append

/-- A call that names a worker pins its function behind what is pinned there. -/
theorem pinned_append_pushed (log : List (Event n)) (target : Option (Fin n)) (fn : Nat)
    (id : Fin n) :
    pinned (log ++ target.toList.map (.pushed fn)) id =
      pinned log id ++ if target = some id then [fn] else [] := by
  rw [pinned_append]
  cases target with
  | none => rfl
  | some id' =>
      by_cases heq : id' = id
      · simp [pinned, Event.pinnedTo, heq]
      · simp [pinned, Event.pinnedTo, heq]

/-- In a list without repetitions, what stands before {lit}`g` stands in front of it. -/
theorem mem_of_pair_sublist {f g : Nat} {front back : List Nat}
    (hnodup : (front ++ g :: back).Nodup) (h : [f, g].Sublist (front ++ g :: back)) :
    f ∈ front := by
  have hback : g ∉ back := (List.nodup_cons.mp (List.nodup_append.mp hnodup).2.1).1
  rcases List.sublist_append_iff.mp h with ⟨l₁, l₂, hl, hfront, hrest⟩
  cases l₁ with
  | cons a l₁ =>
      rw [List.cons_append, List.cons.injEq] at hl
      rw [hl.1]
      exact hfront.subset List.mem_cons_self
  | nil =>
      subst hl
      have hg : [g].Sublist back := by
        cases hrest with
        | cons _ hrest => exact (List.sublist_cons_self f [g]).trans hrest
        | cons_cons _ hrest => exact hrest
      exact absurd (List.singleton_sublist.mp hg) hback

theorem pair_sublist_of_concat {f g a : Nat} {l : List Nat} (hne : g ≠ a)
    (h : [f, g].Sublist (l ++ [a])) : [f, g].Sublist l := by
  have hreverse : [g, f].Sublist (a :: l.reverse) := by simpa using h.reverse
  cases hreverse with
  | cons _ hrest => simpa using hrest.reverse
  | cons_cons _ _ => exact absurd rfl hne

end

/-- The function that runs on the worker and those in its queue. -/
def State.remaining (s : State τ n) (id : Fin n) : List Nat :=
  (s.worker id).fn.toList ++ (s.queue id).items.map WorkItem.fn

theorem State.remaining_pushed [DecidableEq τ] (s : State τ n) (th : Thread τ n) (call : Call n)
    (q : Fin n) (canSteal : Bool) (id : Fin n) :
    (s.pushed th call q canSteal).remaining id =
      s.remaining id ++ if id = q then [call.fn] else [] := by
  by_cases hid : id = q
  · subst hid
    simp [State.remaining, State.pushed, State.setCall, State.setQueue, Queue.push]
  · simp [State.remaining, State.pushed, State.setCall, State.setQueue, hid]

/-- The log says of every pinned function where it is. -/
structure LogInv (s : State τ n) (log : List (Event n)) : Prop where
  /-- functions in the log have been put into a queue -/
  copies : ∀ fn, (∃ id, fn ∈ pinned log id) ∨ (∃ v, Event.started fn v ∈ log) → 0 < s.copies fn
  items : ∀ q, ∀ x ∈ (s.queue q).items, ∀ id, x.fn ∈ pinned log id → q = id ∧ x.canSteal = false
  running : ∀ v, ∀ fn ∈ (s.worker v).fn, Event.started fn v ∈ log
  /-- what is pinned to a worker is done, or remains, in this order -/
  split : ∀ id, ∃ done, pinned log id = done ++ (s.remaining id).filter (· ∈ pinned log id) ∧
    ∀ f ∈ done, [Event.started f id, .finished f id].Sublist log
  nodup : ∀ id, (pinned log id).Nodup
  inOrder : PinnedInOrder log

theorem State.copies_pos_of_item {s : State τ n} {q : Fin n} {x : WorkItem}
    (hx : x ∈ (s.queue q).items) : 0 < s.copies x.fn := by
  have hcount : 0 < copiesIn x.fn (s.queue q) :=
    List.count_pos_iff.mpr (List.mem_map_of_mem hx)
  have hle : copiesIn x.fn (s.queue q) ≤ ∑ q, copiesIn x.fn (s.queue q) :=
    Finset.single_le_sum (f := fun q => copiesIn x.fn (s.queue q)) (fun _ _ => Nat.zero_le _)
      (Finset.mem_univ q)
  unfold State.copies
  omega

namespace LogInv

variable {s s' : State τ n} {log : List (Event n)}

theorem initial (enableWorkSteal : Bool) :
    LogInv (State.initial enableWorkSteal : State τ n) [] where
  copies := by simp [pinned]
  items := by simp [State.initial, Queue.empty]
  running := by simp [State.initial]
  split := fun id => ⟨[], by simp [pinned], by simp⟩
  nodup := fun id => List.nodup_nil
  inOrder := ⟨by simp, by simp⟩

/-- A function that is not in the log remains nowhere. -/
theorem not_mem_remaining (h : LogInv s log) {fn : Nat} (hfresh : s.copies fn = 0) (id : Fin n) :
    fn ∉ s.remaining id := by
  intro hmem
  rcases List.mem_append.mp hmem with hrun | hitem
  · have hpos := h.copies fn (.inr ⟨id, h.running id fn (Option.mem_toList.mp hrun)⟩)
    omega
  · rcases List.mem_map.mp hitem with ⟨x, hx, rfl⟩
    have hpos := State.copies_pos_of_item hx
    omega

theorem other (h : LogInv s log) (hitems : ∀ q, (s'.queue q).items = (s.queue q).items)
    (hworker : ∀ v, (s'.worker v).fn = (s.worker v).fn) (hexecuted : s'.executed = s.executed) :
    LogInv s' log where
  copies := by
    have hcopies : ∀ fn, s'.copies fn = s.copies fn := by
      intro fn
      simp only [State.copies, copiesIn, hitems, hexecuted]
    simpa only [hcopies] using h.copies
  items := by simpa only [hitems] using h.items
  running := by simpa only [hworker] using h.running
  split := by simpa only [State.remaining, hitems, hworker] using h.split
  nodup := h.nodup
  inOrder := h.inOrder

/-- The running function comes to its end. -/
theorem finish (h : LogInv s log) {v : Fin n} {fn : Nat} {pc : WorkerPc}
    (hruns : (s.worker v).fn = some fn) (hpc : pc.fn = none) :
    LogInv (s.setWorker v pc) (log ++ [.finished fn v]) := by
  have hpinned : ∀ id, pinned (log ++ [Event.finished fn v]) id = pinned log id := by
    simp [pinned, Event.pinnedTo]
  have hmono : ∀ {l : List (Event n)}, l.Sublist log → l.Sublist (log ++ [.finished fn v]) :=
    fun hl => hl.trans (List.sublist_append_left _ _)
  have hstarted : ∀ {fn' v'}, Event.started fn' v' ∈ log ++ [.finished fn v] →
      Event.started fn' v' ∈ log := by
    intro fn' v' hmem
    simpa using hmem
  refine ⟨?_, ?_, ?_, ?_, ?_, ?_, ?_⟩
  · intro fn' hlog
    refine h.copies fn' (hlog.imp ?_ ?_)
    · rintro ⟨id, hid⟩
      exact ⟨id, hpinned id ▸ hid⟩
    · rintro ⟨v', hv'⟩
      exact ⟨v', hstarted hv'⟩
  · intro q x hx id hid
    exact h.items q x hx id (hpinned id ▸ hid)
  · refine forall_update (p := fun v' (pc : WorkerPc) => ∀ fn' ∈ pc.fn,
      Event.started fn' v' ∈ log ++ [.finished fn v]) ?_ ?_
    · rw [hpc]
      exact fun _ hmem => absurd hmem (Option.not_mem_none _)
    · exact fun v' fn' hfn' => List.mem_append_left _ (h.running v' fn' hfn')
  · intro id
    rcases h.split id with ⟨done, heq, hdone⟩
    rw [hpinned]
    by_cases hid : id = v
    · subst hid
      have hbefore : s.remaining id = fn :: (s.queue id).items.map WorkItem.fn := by
        rw [State.remaining, hruns]
        rfl
      have hafter : (s.setWorker id pc).remaining id = (s.queue id).items.map WorkItem.fn := by
        simp [State.remaining, State.setWorker, hpc]
      rw [hbefore] at heq
      rw [hafter]
      by_cases hfn : fn ∈ pinned log id
      · refine ⟨done ++ [fn], ?_, ?_⟩
        · rw [List.filter_cons_of_pos (by simpa using hfn)] at heq
          rw [List.append_assoc]
          exact heq
        · intro f hf
          rcases List.mem_append.mp hf with hf | hf
          · exact hmono (hdone f hf)
          · rw [List.mem_singleton.mp hf]
            have hrun : [Event.started fn id].Sublist log :=
              List.singleton_sublist.mpr (h.running id fn hruns)
            exact hrun.append (List.Sublist.refl [Event.finished fn id])
      · rw [List.filter_cons_of_neg (by simpa using hfn)] at heq
        exact ⟨done, heq, fun f hf => hmono (hdone f hf)⟩
    · have hsame : (s.setWorker v pc).remaining id = s.remaining id := by
        simp [State.remaining, State.setWorker, hid]
      rw [hsame]
      exact ⟨done, heq, fun f hf => hmono (hdone f hf)⟩
  · simpa only [hpinned] using h.nodup
  · intro fn' id v' hfn' hmem
    exact h.inOrder.own fn' id v' (hpinned id ▸ hfn') (hstarted hmem)
  · intro f g id hfg hmem
    exact hmono (h.inOrder.order f g id (hpinned id ▸ hfg) (hstarted hmem))

/-- A pinned function is taken by its own worker. -/
theorem taken_by_own (h : LogInv s log) {v q id : Fin n} {x : WorkItem}
    (hx : x ∈ (s.queue q).items) (hown : q = v ∨ x.canSteal = true)
    (hid : x.fn ∈ pinned log id) : q = id ∧ v = id := by
  rcases h.items q x hx id hid with ⟨hq, hsteal⟩
  refine ⟨hq, ?_⟩
  rcases hown with rfl | hcan
  · exact hq
  · rw [hsteal] at hcan
    cases hcan

/-- Taking a function leaves every worker with the pinned functions it had. -/
theorem filter_remaining_take (h : LogInv s log) {v q : Fin n} {queue : Queue WorkItem}
    {x : WorkItem} (hfree : (s.worker v).fn = none)
    (hitems : (s.queue q).items = x :: queue.items) (hown : q = v ∨ x.canSteal = true)
    (id : Fin n) :
    (((s.setQueue q queue).execute v x.fn).remaining id).filter (· ∈ pinned log id) =
      (s.remaining id).filter (· ∈ pinned log id) := by
  have hx : x ∈ (s.queue q).items := by
    rw [hitems]
    exact List.mem_cons_self
  by_cases hv : id = v
  · subst hv
    by_cases hq : id = q
    · subst hq
      simp [State.remaining, State.execute, State.setQueue, hfree, hitems]
    · -- a thief does not take a pinned function
      have hfn : x.fn ∉ pinned log id := fun hfn => hq (h.taken_by_own hx hown hfn).1.symm
      simp [State.remaining, State.execute, State.setQueue, hfree, hq, hfn]
  · by_cases hq : id = q
    · subst hq
      have hfn : x.fn ∉ pinned log id := fun hfn => hv (h.taken_by_own hx hown hfn).2.symm
      simp [State.remaining, State.execute, State.setQueue, hitems, hv, hfn]
    · simp [State.remaining, State.execute, State.setQueue, hv, hq]

/-- A free worker takes a function from the front of a queue. -/
theorem take (h : LogInv s log) {v q : Fin n} {queue : Queue WorkItem} {x : WorkItem}
    (hfree : (s.worker v).fn = none) (hitems : (s.queue q).items = x :: queue.items)
    (hown : q = v ∨ x.canSteal = true) :
    LogInv ((s.setQueue q queue).execute v x.fn) (log ++ [.started x.fn v]) := by
  have hpinned : ∀ id, pinned (log ++ [Event.started x.fn v]) id = pinned log id := by
    simp [pinned, Event.pinnedTo]
  have hmono : ∀ {l : List (Event n)}, l.Sublist log → l.Sublist (log ++ [.started x.fn v]) :=
    fun hl => hl.trans (List.sublist_append_left _ _)
  have hx : x ∈ (s.queue q).items := by
    rw [hitems]
    exact List.mem_cons_self
  have hmine : ∀ id, x.fn ∈ pinned log id → q = id ∧ v = id := fun _ => h.taken_by_own hx hown
  have hstarted : ∀ {fn v'}, Event.started fn v' ∈ log ++ [.started x.fn v] →
      Event.started fn v' ∈ log ∨ fn = x.fn ∧ v' = v := by
    intro fn v' hmem
    simpa using hmem
  refine ⟨?_, ?_, ?_, ?_, ?_, ?_, ?_⟩
  · intro fn hlog
    rw [copies_execute s v q hitems]
    rcases hlog with ⟨id, hid⟩ | ⟨v', hv'⟩
    · exact h.copies fn (.inl ⟨id, hpinned id ▸ hid⟩)
    · rcases hstarted hv' with hmem | ⟨rfl, -⟩
      · exact h.copies fn (.inr ⟨v', hmem⟩)
      · exact State.copies_pos_of_item hx
  · intro q' y hy id hid
    refine h.items q' y ?_ id (hpinned id ▸ hid)
    by_cases hq : q' = q
    · subst hq
      rw [hitems]
      have hy' : y ∈ queue.items := by simpa [State.execute, State.setQueue] using hy
      exact List.mem_cons_of_mem _ hy'
    · simpa [State.execute, State.setQueue, hq] using hy
  · refine forall_update (p := fun v' (pc : WorkerPc) => ∀ fn ∈ pc.fn,
      Event.started fn v' ∈ log ++ [.started x.fn v]) ?_ ?_
    · rintro fn hfn
      cases hfn
      exact List.mem_append_right _ (List.mem_singleton_self _)
    · exact fun v' fn hfn => List.mem_append_left _ (h.running v' fn hfn)
  · intro id
    rcases h.split id with ⟨done, heq, hdone⟩
    rw [hpinned, h.filter_remaining_take hfree hitems hown]
    exact ⟨done, heq, fun f hf => hmono (hdone f hf)⟩
  · simpa only [hpinned] using h.nodup
  · intro fn id v' hfn hmem
    rw [hpinned] at hfn
    rcases hstarted hmem with hmem | ⟨rfl, rfl⟩
    · exact h.inOrder.own fn id v' hfn hmem
    · exact (hmine id hfn).2
  · intro f g id hfg hmem
    rw [hpinned] at hfg
    rcases hstarted hmem with hmem | ⟨rfl, rfl⟩
    · exact hmono (h.inOrder.order f g id hfg hmem)
    · -- everything that was pinned before the function is done
      have hfn : x.fn ∈ pinned log id := hfg.subset (by simp)
      rcases h.split id with ⟨done, heq, hdone⟩
      have hhead : (s.remaining id).filter (· ∈ pinned log id) =
          x.fn :: (queue.items.map WorkItem.fn).filter (· ∈ pinned log id) := by
        rw [State.remaining, hfree, ← (hmine id hfn).1, hitems]
        simp [(hmine id hfn).1, hfn]
      rw [hhead] at heq
      have hf : f ∈ done := mem_of_pair_sublist (heq ▸ h.nodup id) (heq ▸ hfg)
      exact (hdone f hf).append (List.Sublist.refl [Event.started x.fn id])

/-- A call puts its function into a queue. -/
theorem push [DecidableEq τ] (h : LogInv s log) (hinv : Inv s) {th : Thread τ n} {call : Call n}
    {q : Fin n} {canSteal : Bool} (hcall : s.call th = some call)
    (hbefore : call.pc.pushed = false)
    (haim : ∀ id, call.id = some id → q = id ∧ canSteal = false) :
    LogInv (s.pushed th call q canSteal) (log ++ call.id.toList.map (.pushed call.fn)) := by
  have hfresh : s.copies call.fn = 0 := by simpa [hbefore] using (hinv.calling th call hcall).2.2
  have hnew : ∀ id, call.fn ∉ pinned log id := by
    intro id hid
    have hpos := h.copies call.fn (.inl ⟨id, hid⟩)
    omega
  have hpinned := pinned_append_pushed log call.id call.fn
  have hmem : ∀ {fn id}, fn ∈ pinned (log ++ call.id.toList.map (.pushed call.fn)) id ↔
      fn ∈ pinned log id ∨ call.id = some id ∧ fn = call.fn := by
    intro fn id
    rw [hpinned, List.mem_append, List.mem_ite_nil_right, List.mem_singleton]
  have hmono : ∀ {l : List (Event n)}, l.Sublist log →
      l.Sublist (log ++ call.id.toList.map (.pushed call.fn)) :=
    fun hl => hl.trans (List.sublist_append_left _ _)
  have hstarted : ∀ {fn v}, Event.started fn v ∈ log ++ call.id.toList.map (.pushed call.fn) →
      Event.started fn v ∈ log := by
    intro fn v hfn
    simpa using hfn
  have hgrows : ∀ fn, s.copies fn ≤ (s.pushed th call q canSteal).copies fn := by
    intro fn
    have hcopies := copies_push s q ⟨canSteal, call.fn⟩ fn
    have hsame : (s.pushed th call q canSteal).copies fn =
        (s.setQueue q ((s.queue q).push ⟨canSteal, call.fn⟩)).copies fn := rfl
    omega
  have hitem : (s.pushed th call q canSteal).copies call.fn = 1 := by
    have hcopies := copies_push s q ⟨canSteal, call.fn⟩ call.fn
    rw [hfresh, if_pos rfl] at hcopies
    exact hcopies
  refine ⟨?_, ?_, ?_, ?_, ?_, ?_, ?_⟩
  · intro fn hlog
    rcases hlog with ⟨id, hid⟩ | ⟨v, hv⟩
    · rcases hmem.mp hid with hid | ⟨-, rfl⟩
      · exact lt_of_lt_of_le (h.copies fn (.inl ⟨id, hid⟩)) (hgrows fn)
      · omega
    · exact lt_of_lt_of_le (h.copies fn (.inr ⟨v, hstarted hv⟩)) (hgrows fn)
  · intro q' x hx id hid
    have hx' : x ∈ (s.queue q').items ∨ q' = q ∧ x = ⟨canSteal, call.fn⟩ := by
      by_cases hq : q' = q
      · subst hq
        simpa [State.pushed, State.setCall, State.setQueue, Queue.push] using hx
      · left
        simpa [State.pushed, State.setCall, State.setQueue, hq] using hx
    rcases hx' with hx | ⟨rfl, rfl⟩
    · rcases hmem.mp hid with hid | ⟨-, hfn⟩
      · exact h.items q' x hx id hid
      · have hpos := State.copies_pos_of_item hx
        rw [hfn] at hpos
        omega
    · rcases hmem.mp hid with hid | ⟨hid, -⟩
      · exact absurd hid (hnew id)
      · exact haim id hid
  · exact fun v fn hfn => List.mem_append_left _ (h.running v fn hfn)
  · intro id
    rcases h.split id with ⟨done, heq, hdone⟩
    refine ⟨done, ?_, fun f hf => hmono (hdone f hf)⟩
    have hold : (s.remaining id).filter (fun fn => decide
        (fn ∈ pinned (log ++ call.id.toList.map (.pushed call.fn)) id)) =
        (s.remaining id).filter (· ∈ pinned log id) := by
      refine List.filter_congr fun fn hfn => ?_
      rw [decide_eq_decide, hmem]
      refine or_iff_left ?_
      rintro ⟨-, rfl⟩
      exact h.not_mem_remaining hfresh id hfn
    rw [State.remaining_pushed, List.filter_append, hold, ← List.append_assoc, ← heq, hpinned]
    congr 1
    by_cases hid : call.id = some id
    · have hq := (haim id hid).1
      simp [hid, hq]
    · by_cases hq : id = q
      · subst hq
        simp [hid, hnew]
      · simp [hid, hq]
  · intro id
    rw [hpinned]
    split
    · exact List.nodup_append.mpr ⟨h.nodup id, List.nodup_singleton _, by
        rintro a ha b hb rfl
        rw [List.mem_singleton] at hb
        exact hnew id (hb ▸ ha)⟩
    · simpa using h.nodup id
  · intro fn id v hfn hv
    rcases hmem.mp hfn with hfn | ⟨-, rfl⟩
    · exact h.inOrder.own fn id v hfn (hstarted hv)
    · have hpos := h.copies call.fn (.inr ⟨v, hstarted hv⟩)
      omega
  · intro f g id hfg hg
    -- a function that has started was pinned before
    have hne : g ≠ call.fn := by
      rintro rfl
      have hpos := h.copies call.fn (.inr ⟨id, hstarted hg⟩)
      omega
    refine hmono (h.inOrder.order f g id ?_ (hstarted hg))
    rw [hpinned] at hfg
    split at hfg
    · exact pair_sublist_of_concat hne hfg
    · simpa using hfg

theorem move [DecidableEq τ] (h : LogInv s log) (hinv : Inv s) {events : List (Event n)}
    (hmove : Move s events s') : LogInv s' (log ++ events) := by
  cases hmove with
  | push th call q canSteal hcall hbefore hpinned => exact h.push hinv hcall hbefore hpinned
  | take v q queue x hfree hitems hown => exact h.take hfree hitems hown
  | finish v fn pc hruns hpc => exact h.finish hruns hpc
  | other s' hitems hworker hexecuted =>
      rw [List.append_nil]
      exact h.other hitems hworker hexecuted

end LogInv

/-- The invariants of the pool, of its calls and of the log. -/
structure PinnedInv (s : Logged τ n) : Prop where
  inv : Inv s.pool
  aimed : ∀ th call, s.pool.call th = some call → call.Aimed
  log : LogInv s.pool s.log

theorem PinnedInv.initial (enableWorkSteal : Bool) :
    PinnedInv (Logged.initial enableWorkSteal : Logged τ n) :=
  ⟨Inv.initial, nofun, LogInv.initial enableWorkSteal⟩

theorem PinnedInv.step [DecidableEq τ] {enableWorkSteal : Bool} {s s' : Logged τ n}
    (h : PinnedInv s) {l : Label τ n}
    (hstep : (loggedMachine τ n enableWorkSteal).step s l = some s') : PinnedInv s' := by
  rcases Option.map_eq_some_iff.mp hstep with ⟨pool, hpool, rfl⟩
  exact {
    inv := h.inv.step hpool
    aimed := aimed_step h.aimed hpool
    log := h.log.move h.inv (move_of_step h.aimed hpool) }

/-! ## All runs -/

/-- In a pool of any size, with or without work stealing, and in every interleaving of the
calls, the workers and the destructor: a function that was scheduled with an {lit}`id` is
executed by this worker, and the functions with the same {lit}`id` are executed one after the
other in the order of their pushes. -/
theorem pinned_tasks_in_order [DecidableEq τ] (n : Nat) (enableWorkSteal : Bool)
    (ls : List (Label τ n)) (s : Logged τ n)
    (hrun : (loggedMachine τ n enableWorkSteal).run (Logged.initial enableWorkSteal) ls = some s) :
    PinnedInOrder s.log :=
  ((loggedMachine τ n enableWorkSteal).run_invariant (fun _ _ _ h hstep => h.step hstep)
    (PinnedInv.initial enableWorkSteal) hrun).log.inOrder

/-- The call of {lit}`scheduleById` up to its return. -/
def wholeCall (id : Option (Fin n)) (choice : Fin n) : List (Label Unit n) :=
  .scheduleById (.external ()) id false :: List.replicate 4 (.call (.external ()) true choice)

/-- Two functions are pinned to one worker, with one that may be stolen between them.  A thief
meets the first one and goes on; when the worker runs it, the thief takes the second one. -/
def thiefPasses (v w : Fin n) : List (Label Unit n) :=
  wholeCall (some v) v ++ wholeCall none v ++ wholeCall (some v) v ++
    [Label.worker w true, Label.worker w true] ++ List.replicate 6 (Label.worker v true) ++
    [Label.worker w true, Label.worker w true] ++ List.replicate 7 (Label.worker v true)

theorem pinned_tasks_in_order_thief :
    ∃ s, (loggedMachine Unit 2 true).run (Logged.initial true) (thiefPasses 0 1) = some s ∧
      s.log = [.pushed 0 0, .pushed 2 0, .started 0 0, .started 1 1, .finished 0 0, .started 2 0] ∧
      PinnedInOrder s.log := by
  rcases (loggedMachine Unit 2 true).exists_run_of_any (Logged.initial true) (thiefPasses 0 1)
    (fun s => s.log =
      [.pushed 0 0, .pushed 2 0, .started 0 0, .started 1 1, .finished 0 0, .started 2 0])
    (by decide +kernel) with ⟨s, hrun, hs⟩
  exact ⟨s, hrun, hs, pinned_tasks_in_order 2 true _ s hrun⟩

end ThreadPool

end AsyncSimple
