import AsyncSimple.Coro.RejectingExecutor

/-!
# Handles and inputs that a step has in its hand

The handle of a suspended coroutine is in one place: in the queue of an executor, with the event
it awaits, or in a collect call that has not resumed it.  A collect call counts the inputs that
have not completed: those the loop has not come to, those submitted to an executor, and those
that are started.  A handle that a step has taken from its place is in its hand until the step
puts it into another one, and the same holds for an input of a collect call.

Main results:

- Theorem {lit}`Handles.move`, {lit}`Handles.setQueue`, {lit}`Handles.setEvents` and
  {lit}`Handles.setCall`: a handle changes its place.
- Theorem {lit}`Accounts.move`, {lit}`Accounts.setQueue` and {lit}`Accounts.setCall`: an input
  changes its place.
-/

namespace AsyncSimple

open Transition

namespace RejectingExecutor

variable {ξ : Type} {s : State ξ} {p : Nat}

/-! ## One task moves -/

@[simp]
theorem setTask_task_self (s : State ξ) (p : Nat) (task : Task ξ) :
    (s.setTask p task).task p = task :=
  Function.update_self ..

theorem setTask_task_of_ne {q : Nat} (hne : q ≠ p) (task : Task ξ) :
    (s.setTask p task).task q = s.task q :=
  Function.update_of_ne hne ..

@[simp]
theorem setTask_queue (s : State ξ) (p : Nat) (task : Task ξ) :
    (s.setTask p task).queue = s.queue :=
  rfl

@[simp]
theorem setTask_events (s : State ξ) (p : Nat) (task : Task ξ) :
    (s.setTask p task).events = s.events :=
  rfl

@[simp]
theorem setTask_call (s : State ξ) (p : Nat) (task : Task ξ) :
    (s.setTask p task).call = s.call :=
  rfl

/-! ## Handles -/

/-- The collect call that the task awaits. -/
def Status.collects : Status → Option Nat
  | .suspended (.collect c) => some c
  | .suspended .start | .suspended .yield | .suspended .dispatch | .suspended .sleep
  | .suspended .future | .suspended .via | .unstarted | .running | .finished => none

theorem isSuspended_of_collects {status : Status} {c : Nat} (h : status.collects = some c) :
    status.isSuspended = true := by
  cases status with
  | suspended await => rfl
  | unstarted | running | finished => cases h

/-- The call has the handle of its coroutine. -/
def Call.armed (call : Call ξ) : Bool :=
  match call.kind with
  | .all => decide (0 < call.event.count)
  | .any => decide (call.event.count = call.inputs.length + 1)

/-- The handle of the task is in the collect call that it awaits. -/
def State.collecting (s : State ξ) (p : Nat) : Nat :=
  if (s.task p).status.collects.any (fun c => (s.call c).any Call.armed) then 1 else 0

/-- The handle of every suspended task is in one place, or in the hand of the present step. -/
structure Handles [DecidableEq ξ] (hand : Option Nat) (s : State ξ) : Prop where
  held : ∀ p, s.queue.count (.resume p) + s.events.count p + s.collecting p +
    (if hand = some p then 1 else 0) = if (s.task p).status.isSuspended then 1 else 0
  owner : ∀ c call, s.call c = some call → call.armed = true →
    (s.task call.owner).status.collects = some c
  awaited : ∀ p c, (s.task p).status.collects = some c →
    ∃ call, s.call c = some call ∧ call.owner = p
  once : ∀ p, (s.task p).suspensions =
    (s.task p).resumptions + if (s.task p).status.isSuspended then 1 else 0

theorem collecting_of_collects (h : (s.task p).status.collects = none) : s.collecting p = 0 := by
  simp [State.collecting, h]

theorem collecting_of_not_suspended (h : (s.task p).status.isSuspended = false) :
    s.collecting p = 0 := by
  refine collecting_of_collects ?_
  cases hcollects : (s.task p).status.collects with
  | none => rfl
  | some c => simp [isSuspended_of_collects hcollects] at h

theorem collecting_setTask_of_ne {q : Nat} (hne : q ≠ p) (task : Task ξ) :
    (s.setTask p task).collecting q = s.collecting q := by
  simp only [State.collecting, setTask_task_of_ne hne, setTask_call]

theorem collecting_setCall_of_ne {c : Nat} (h : (s.task p).status.collects ≠ some c)
    (call : Call ξ) : (s.setCall c call).collecting p = s.collecting p := by
  unfold State.collecting
  cases hcase : (s.task p).status.collects with
  | none => simp [State.setCall, hcase]
  | some d =>
      have hd : d ≠ c := fun heq => h (by rw [hcase, heq])
      simp [State.setCall, hcase, hd]

section

variable [DecidableEq ξ] {hand : Option Nat}

/-- The handle in the hand is the only one of a suspended task. -/
theorem Handles.in_hand (hh : Handles (some p) s) :
    (s.task p).status.isSuspended = true ∧ s.queue.count (.resume p) = 0 ∧
      s.events.count p = 0 ∧ s.collecting p = 0 := by
  have hheld := hh.held p
  simp only [if_true] at hheld
  split at hheld
  · rename_i hsuspended
    exact ⟨hsuspended, by omega, by omega, by omega⟩
  · omega

/-- Nobody has a handle of a task that is not suspended. -/
theorem Handles.not_suspended (hh : Handles hand s)
    (hstatus : (s.task p).status.isSuspended = false) :
    s.queue.count (.resume p) = 0 ∧ s.events.count p = 0 ∧ s.collecting p = 0 ∧
      hand ≠ some p := by
  have hheld := hh.held p
  rw [hstatus] at hheld
  split at hheld <;> simp at hheld
  rename_i hhand
  exact ⟨hheld.1.1, hheld.1.2, hheld.2, hhand⟩

/-- One task moves whose handle is in no collect call. -/
theorem Handles.move (hh : Handles hand s) {hand' : Option Nat} {task : Task ξ}
    (hothers : ∀ q, q ≠ p → (hand' = some q ↔ hand = some q)) (hfree : s.collecting p = 0)
    (hcollects : task.status.collects = none)
    (hheld : s.queue.count (.resume p) + s.events.count p + (if hand' = some p then 1 else 0) =
      if task.status.isSuspended then 1 else 0)
    (honce : task.suspensions = task.resumptions + if task.status.isSuspended then 1 else 0) :
    Handles hand' (s.setTask p task) where
  held := fun q => by
    by_cases hq : q = p
    · subst hq
      rw [collecting_of_collects (by simpa using hcollects)]
      simpa using hheld
    · have hold := hh.held q
      rw [collecting_setTask_of_ne hq, setTask_task_of_ne hq]
      simpa only [setTask_queue, setTask_events, hothers q hq] using hold
  owner := fun c call hcall harmed => by
    have howner := hh.owner c call hcall harmed
    have hne : call.owner ≠ p := by
      rintro rfl
      have hcall' : s.call c = some call := hcall
      simp [State.collecting, howner, hcall', harmed] at hfree
    rw [setTask_task_of_ne hne]
    exact howner
  awaited := fun q c hstatus => by
    by_cases hq : q = p
    · subst hq
      simp [hcollects] at hstatus
    · rw [setTask_task_of_ne hq] at hstatus
      exact hh.awaited q c hstatus
  once := fun q => by
    by_cases hq : q = p
    · subst hq
      simpa using honce
    · rw [setTask_task_of_ne hq]
      exact hh.once q

/-- A task that is not suspended moves. -/
theorem Handles.setTask (hh : Handles hand s) {task : Task ξ}
    (hbefore : (s.task p).status.isSuspended = false) (hafter : task.status.isSuspended = false)
    (honce : task.suspensions = task.resumptions) : Handles hand (s.setTask p task) := by
  rcases hh.not_suspended hbefore with ⟨hqueue, hevents, hfree, hhand⟩
  have hcollects : task.status.collects = none := by
    cases hcase : task.status.collects with
    | none => rfl
    | some c => simp [isSuspended_of_collects hcase] at hafter
  refine hh.move (fun _ _ => Iff.rfl) hfree hcollects ?_ ?_
  · simp [hqueue, hevents, hhand, hafter]
  · simp [hafter, honce]

/-- A running task suspends itself and has its handle in its hand. -/
theorem Handles.suspend (hh : Handles none s) (hrunning : (s.task p).status = .running)
    {await : Await} (hawait : (Status.suspended await).collects = none) :
    Handles (some p) (s.suspend p await) := by
  rcases hh.not_suspended (p := p) (by simp [hrunning, Status.isSuspended])
    with ⟨hqueue, hevents, hfree, -⟩
  have honce := hh.once p
  rw [hrunning] at honce
  refine hh.move (fun q hq => by simp [Ne.symm hq]) hfree hawait ?_ ?_
  · simp [hqueue, hevents, Status.isSuspended]
  · simpa [Status.isSuspended] using honce

/-- {lit}`resume()` on the handle in the hand. -/
theorem Handles.resume (hh : Handles (some p) s) : Handles none (s.resume p) := by
  rcases hh.in_hand with ⟨hsuspended, hqueue, hevents, hfree⟩
  have honce := hh.once p
  rw [hsuspended] at honce
  refine hh.move (fun q hq => by simp [Ne.symm hq]) hfree rfl ?_ ?_
  · simp [hqueue, hevents, Status.isSuspended]
  · simpa [Status.isSuspended] using honce

/-- Handles go into the queue of an executor or come out of it. -/
theorem Handles.setQueue (hh : Handles hand s) {hand' : Option Nat} {queue : List (Work ξ)}
    (hqueue : ∀ q, queue.count (.resume q) + (if hand' = some q then 1 else 0) =
      s.queue.count (.resume q) + if hand = some q then 1 else 0) :
    Handles hand' { s with queue := queue } :=
  { hh with
    held := fun q => by
      have hmoved := hqueue q
      refine Eq.trans ?_ (hh.held q)
      change queue.count (.resume q) + s.events.count q + s.collecting q + _ = _
      omega }

theorem Handles.setEvents (hh : Handles hand s) {hand' : Option Nat} {events : List Nat}
    (hevents : ∀ q, events.count q + (if hand' = some q then 1 else 0) =
      s.events.count q + if hand = some q then 1 else 0) :
    Handles hand' { s with events := events } :=
  { hh with
    held := fun q => by
      have hmoved := hevents q
      refine Eq.trans ?_ (hh.held q)
      change s.queue.count (.resume q) + events.count q + s.collecting q + _ = _
      omega }

/-- An executor accepts the handle in the hand. -/
theorem Handles.enqueue (hh : Handles (some p) s) :
    Handles none { s with queue := s.queue ++ [.resume p] } := by
  refine hh.setQueue fun q => ?_
  by_cases hq : p = q <;> simp [hq]

theorem Handles.dequeue (hh : Handles none s) (hmem : .resume p ∈ s.queue) :
    Handles (some p) { s with queue := s.queue.erase (.resume p) } := by
  refine hh.setQueue fun q => ?_
  by_cases hq : p = q
  · subst hq
    have hpos := List.count_pos_iff.mpr hmem
    simp [List.count_erase_self]
    omega
  · simp [List.count_erase_of_ne, hq, Ne.symm hq]

/-- The functions that start inputs are no handles. -/
theorem Handles.enqueue_submit (hh : Handles hand s) (c : Nat) (ex : Option ξ) :
    Handles hand { s with queue := s.queue ++ [.submit c ex] } :=
  hh.setQueue fun q => by simp

theorem Handles.dequeue_submit (hh : Handles hand s) (c : Nat) (ex : Option ξ) :
    Handles hand { s with queue := s.queue.erase (.submit c ex) } :=
  hh.setQueue fun q => by simp [List.count_erase_of_ne]

/-- The event that the task awaits has its handle. -/
theorem Handles.expect (hh : Handles (some p) s) :
    Handles none { s with events := p :: s.events } := by
  refine hh.setEvents fun q => ?_
  by_cases hq : p = q <;> simp [hq]

theorem Handles.wake (hh : Handles none s) (hmem : p ∈ s.events) :
    Handles (some p) { s with events := s.events.erase p } := by
  refine hh.setEvents fun q => ?_
  by_cases hq : p = q
  · subst hq
    have hpos := List.count_pos_iff.mpr hmem
    simp [List.count_erase_self]
    omega
  · simp [List.count_erase_of_ne, hq, Ne.symm hq]

/-- A collect call keeps the handle of its owner or gives it out. -/
theorem Handles.setCall (hh : Handles hand s) (hand' : Option Nat) {c : Nat} {call : Call ξ}
    (call' : Call ξ) (hcall : s.call c = some call) (howner : call'.owner = call.owner)
    (harmed : call'.armed = true → call.armed = true)
    (hgiven : (if call'.armed then 1 else 0) + (if hand' = some call.owner then 1 else 0) =
      (if call.armed then 1 else 0) + if hand = some call.owner then 1 else 0)
    (hothers : ∀ q, q ≠ call.owner → (hand' = some q ↔ hand = some q)) :
    Handles hand' (s.setCall c call') where
  held := fun q => by
    refine Eq.trans ?_ (hh.held q)
    change s.queue.count (.resume q) + s.events.count q + (s.setCall c call').collecting q + _ = _
    by_cases hcollects : (s.task q).status.collects = some c
    · rcases hh.awaited q c hcollects with ⟨call₀, hcall₀, rfl⟩
      rw [hcall, Option.some.injEq] at hcall₀
      subst hcall₀
      have hbefore : s.collecting call.owner = if call.armed then 1 else 0 := by
        simp [State.collecting, hcollects, hcall]
      have hafter : (s.setCall c call').collecting call.owner = if call'.armed then 1 else 0 := by
        simp [State.collecting, State.setCall, hcollects]
      omega
    · have hsame := collecting_setCall_of_ne hcollects call'
      have hhand : hand' = some q ↔ hand = some q := by
        by_cases hq : q = call.owner
        · -- the owner waits for something else, so that the call has no handle to give out
          subst hq
          have hunarmed : call.armed ≠ true := fun h => hcollects (hh.owner c call hcall h)
          have hunarmed' : call'.armed ≠ true := fun h => hunarmed (harmed h)
          simp only [hunarmed, hunarmed'] at hgiven
          by_cases h' : hand' = some call.owner <;> by_cases h : hand = some call.owner <;>
            simp [h', h] at hgiven ⊢
        · exact hothers q hq
      simp only [hsame, hhand]
  owner := fun d call₀ hcall₀ harmed₀ => by
    by_cases hd : d = c
    · subst hd
      simp only [State.setCall, Function.update_self, Option.some.injEq] at hcall₀
      subst hcall₀
      rw [howner]
      exact hh.owner d call hcall (harmed harmed₀)
    · simp only [State.setCall, Function.update_of_ne hd] at hcall₀
      exact hh.owner d call₀ hcall₀ harmed₀
  awaited := fun q d hstatus => by
    rcases hh.awaited q d hstatus with ⟨call₀, hcall₀, rfl⟩
    by_cases hd : d = c
    · subst hd
      rw [hcall, Option.some.injEq] at hcall₀
      subst hcall₀
      exact ⟨call', by simp [State.setCall], howner⟩
    · exact ⟨call₀, by simpa [State.setCall, hd] using hcall₀, rfl⟩
  once := hh.once

/-- A running task suspends itself in a new collect call, which has its handle. -/
theorem Handles.collect (hh : Handles none s) (hrunning : (s.task p).status = .running)
    {c : Nat} (hnone : s.call c = none) {call : Call ξ} (howner : call.owner = p)
    (harmed : call.armed = true) :
    Handles none ((s.suspend p (.collect c)).setCall c call) := by
  rcases hh.not_suspended (p := p) (by simp [hrunning, Status.isSuspended])
    with ⟨hqueue, hevents, -, -⟩
  have hother : ∀ q, (s.task q).status.collects ≠ some c := fun q hcollects => by
    rcases hh.awaited q c hcollects with ⟨call₀, hcall₀, -⟩
    simp [hnone] at hcall₀
  have honce := hh.once p
  rw [hrunning] at honce
  have hself : ((s.suspend p (.collect c)).setCall c call).task p = { s.task p with
      status := .suspended (.collect c), suspensions := (s.task p).suspensions + 1 } :=
    setTask_task_self ..
  have hrest : ∀ q, q ≠ p → ((s.suspend p (.collect c)).setCall c call).task q = s.task q :=
    fun q hq => setTask_task_of_ne hq _
  refine ⟨fun q => ?_, fun d call₀ hcall₀ harmed₀ => ?_, fun q d hstatus => ?_, fun q => ?_⟩
  · by_cases hq : q = p
    · subst hq
      have hheld : ((s.suspend q (.collect c)).setCall c call).collecting q = 1 := by
        unfold State.collecting
        rw [hself]
        simp [Status.collects, State.setCall, harmed]
      rw [hheld, hself]
      change s.queue.count (.resume q) + s.events.count q + 1 + _ = _
      simp [hqueue, hevents, Status.isSuspended]
    · have hcollects : ((s.suspend p (.collect c)).task q).status.collects ≠ some c := by
        rw [State.suspend, setTask_task_of_ne hq]
        exact hother q
      have hsame : ((s.suspend p (.collect c)).setCall c call).collecting q = s.collecting q :=
        (collecting_setCall_of_ne hcollects call).trans (collecting_setTask_of_ne hq _)
      rw [hsame, hrest q hq]
      exact hh.held q
  · by_cases hd : d = c
    · subst hd
      simp only [State.setCall, Function.update_self, Option.some.injEq] at hcall₀
      subst hcall₀
      rw [howner, hself]
      rfl
    · simp only [State.setCall, Function.update_of_ne hd] at hcall₀
      have hold := hh.owner d call₀ hcall₀ harmed₀
      have hne : call₀.owner ≠ p := fun heq => by
        rw [heq, hrunning] at hold
        cases hold
      rw [hrest _ hne]
      exact hold
  · by_cases hq : q = p
    · subst hq
      rw [hself] at hstatus
      obtain rfl : c = d := Option.some.inj hstatus
      exact ⟨call, by simp [State.setCall], howner⟩
    · rw [hrest q hq] at hstatus
      have hd : d ≠ c := fun heq => hother q (heq ▸ hstatus)
      rcases hh.awaited q d hstatus with ⟨call₀, hcall₀, howner₀⟩
      exact ⟨call₀, by simpa [State.setCall, State.suspend, hd] using hcall₀, howner₀⟩
  · by_cases hq : q = p
    · subst hq
      rw [hself]
      simpa [Status.isSuspended] using honce
    · rw [hrest q hq]
      exact hh.once q

end

/-! ## Inputs of the collect calls -/

/-- The function starts an input of the call. -/
def Work.starts (c : Nat) : Work ξ → Bool
  | .resume _ => false
  | .submit d _ => d = c

/-- The task is an input of the call and has not finished. -/
def Task.opens (c : Nat) (task : Task ξ) : Bool :=
  task.call = some c && task.status ≠ .finished

/-- What the counter has for the cancel handler. -/
def Call.slack (call : Call ξ) : Nat :=
  if call.kind = .any ∧ call.handled = false then 1 else 0

/-- Inputs of the call that have not completed. -/
def State.outstanding (s : State ξ) (c : Nat) (call : Call ξ) : Nat :=
  (call.inputs.length - call.started) + s.queue.countP (Work.starts c) +
    tallyBelow (Task.opens c) s.task s.tasks

/-- The counter of the call with {lit}`n` inputs that have not completed. -/
structure Call.Counts (call : Call ξ) (n : Nat) : Prop where
  count : call.event.count = (n + call.slack : Nat)
  nonempty : 0 < call.inputs.length
  started : call.started ≤ call.inputs.length
  bound : call.kind = .any → call.event.count ≤ call.inputs.length + 1

/-- The counters of the collect calls count their inputs, one of which may be in the hand of the
present step. -/
structure Accounts (slot : Option Nat) (s : State ξ) : Prop where
  fresh : ∀ p, s.tasks ≤ p → (s.task p).status = .unstarted
  begun : ∀ p < s.tasks, (s.task p).status ≠ .unstarted
  noCall : ∀ c, s.calls ≤ c → s.call c = none
  input : ∀ p < s.tasks, ∀ c, (s.task p).call = some c →
    ∃ call, s.call c = some call ∧ call.owner < p
  owner : ∀ c call, s.call c = some call → call.owner < s.tasks
  submitted : ∀ c ex, .submit c ex ∈ s.queue → ∃ call, s.call c = some call
  inHand : ∀ c, slot = some c → ∃ call, s.call c = some call
  counts : ∀ c call, s.call c = some call →
    call.Counts (s.outstanding c call + if slot = some c then 1 else 0)

variable {slot slot' : Option Nat}

theorem Accounts.lt_tasks (ha : Accounts slot s) (hstatus : (s.task p).status ≠ .unstarted) :
    p < s.tasks := by
  by_contra hle
  exact hstatus (ha.fresh p (Nat.le_of_not_lt hle))

/-- A started task moves. -/
theorem Accounts.move (ha : Accounts slot s) (hp : p < s.tasks) {task : Task ξ}
    (hstatus : task.status ≠ .unstarted) (hcall : task.call = (s.task p).call)
    (hopens : ∀ c, (if task.opens c then 1 else 0) + (if slot' = some c then 1 else 0) =
      (if (s.task p).opens c then 1 else 0) + if slot = some c then 1 else 0)
    (hslot : ∀ c, slot' = some c → ∃ call, s.call c = some call) :
    Accounts slot' (s.setTask p task) :=
  { ha with
    fresh := fun q hq => by
      have hne : q ≠ p := fun heq => Nat.not_le_of_lt hp (heq ▸ hq)
      rw [setTask_task_of_ne hne]
      exact ha.fresh q hq
    begun := fun q hq => by
      by_cases hqp : q = p
      · subst hqp
        simpa using hstatus
      · rw [setTask_task_of_ne hqp]
        exact ha.begun q hq
    input := fun q hq c hinput => by
      by_cases hqp : q = p
      · subst hqp
        rw [setTask_task_self, hcall] at hinput
        exact ha.input q hq c hinput
      · rw [setTask_task_of_ne hqp] at hinput
        exact ha.input q hq c hinput
    inHand := hslot
    counts := fun c call hcall => by
      have hcounts := ha.counts c call hcall
      have htally := tallyBelow_update (Task.opens c) s.task hp task
      have hmoved := hopens c
      have hsame : (s.setTask p task).outstanding c call + (if slot' = some c then 1 else 0) =
          s.outstanding c call + if slot = some c then 1 else 0 := by
        change call.inputs.length - call.started + s.queue.countP (Work.starts c) +
          tallyBelow (Task.opens c) (Function.update s.task p task) s.tasks + _ = _
        unfold State.outstanding
        omega
      rw [hsame]
      exact hcounts }

/-- A task that has not finished moves. -/
theorem Accounts.setTask (ha : Accounts slot s) (hp : p < s.tasks) {task : Task ξ}
    (hbefore : (s.task p).status ≠ .finished) (hafter : task.status ≠ .finished)
    (hstatus : task.status ≠ .unstarted) (hcall : task.call = (s.task p).call) :
    Accounts slot (s.setTask p task) :=
  ha.move hp hstatus hcall (fun c => by simp [Task.opens, hbefore, hafter, hcall]) ha.inHand

/-- The outermost frame of a task ends, and the callback has an input in its hand. -/
theorem Accounts.finish (ha : Accounts none s) (hp : p < s.tasks)
    (hbefore : (s.task p).status ≠ .finished) {task : Task ξ} (hafter : task.status = .finished)
    (hcall : task.call = (s.task p).call) : Accounts (s.task p).call (s.setTask p task) := by
  refine ha.move hp (by simp [hafter]) hcall (fun c => ?_) fun c hslot => ?_
  · simp [Task.opens, hbefore, hafter]
  · rcases ha.input p hp c hslot with ⟨call, hcall, -⟩
    exact ⟨call, hcall⟩

/-- A new task is an input in the hand, or of no call. -/
theorem Accounts.addTask (ha : Accounts slot s) (ex : Option ξ) :
    Accounts none (s.addTask ex slot) := by
  have hself : (s.addTask ex slot).task s.tasks = ⟨1, ex, .running, slot, 0, 0⟩ :=
    Function.update_self ..
  have hrest : ∀ q, q ≠ s.tasks → (s.addTask ex slot).task q = s.task q :=
    fun q hq => Function.update_of_ne hq ..
  have htasks : (s.addTask ex slot).tasks = s.tasks + 1 := rfl
  exact { ha with
    fresh := fun q hq => by
      rw [hrest q (by omega)]
      exact ha.fresh q (by omega)
    begun := fun q hq => by
      by_cases hqp : q = s.tasks
      · rw [hqp, hself]
        simp
      · rw [hrest q hqp]
        exact ha.begun q (by omega)
    input := fun q hq c hinput => by
      by_cases hqp : q = s.tasks
      · subst hqp
        rw [hself] at hinput
        rcases ha.inHand c hinput with ⟨call, hcall⟩
        exact ⟨call, hcall, ha.owner c call hcall⟩
      · rw [hrest q hqp] at hinput
        exact ha.input q (by omega) c hinput
    owner := fun c call hcall => Nat.lt_succ_of_lt (ha.owner c call hcall)
    inHand := fun c hslot => by cases hslot
    counts := fun c call hcall => by
      have hcounts := ha.counts c call hcall
      have hbelow : tallyBelow (Task.opens c) (s.addTask ex slot).task s.tasks =
          tallyBelow (Task.opens c) s.task s.tasks :=
        tallyBelow_congr fun q hq => by rw [hrest q (Nat.ne_of_lt hq)]
      have hsame : (s.addTask ex slot).outstanding c call + (if none = some c then 1 else 0) =
          s.outstanding c call + if slot = some c then 1 else 0 := by
        unfold State.outstanding
        rw [htasks, tallyBelow_succ, hbelow, hself]
        by_cases hslot : slot = some c <;> simp [Task.opens, hslot, State.addTask, State.setTask]
        omega
      rw [hsame]
      exact hcounts }

/-- Functions that start inputs go into the queue of an executor or come out of it. -/
theorem Accounts.setQueue (ha : Accounts slot s) {queue : List (Work ξ)}
    (hqueue : ∀ c, queue.countP (Work.starts c) + (if slot' = some c then 1 else 0) =
      s.queue.countP (Work.starts c) + if slot = some c then 1 else 0) :
    Accounts slot' { s with queue := queue } := by
  have hknown : ∀ c, 0 < queue.countP (Work.starts c) + (if slot' = some c then 1 else 0) →
      ∃ call, s.call c = some call := fun c hpos => by
    rw [hqueue c] at hpos
    by_cases hslot : slot = some c
    · exact ha.inHand c hslot
    · rw [if_neg hslot] at hpos
      rcases List.countP_pos_iff.mp hpos with ⟨work, hmem, hstarts⟩
      cases work with
      | resume q => cases hstarts
      | submit d ex =>
          obtain rfl : d = c := of_decide_eq_true hstarts
          exact ha.submitted d ex hmem
  exact { ha with
    submitted := fun c ex hmem => hknown c (Nat.add_pos_left
      (List.countP_pos_iff.mpr ⟨_, hmem, by simp [Work.starts]⟩) _)
    inHand := fun c hslot => hknown c (by simp [hslot])
    counts := fun c call hcall => by
      have hcounts := ha.counts c call hcall
      have hmoved := hqueue c
      have hsame : ({ s with queue := queue } : State ξ).outstanding c call +
          (if slot' = some c then 1 else 0) =
          s.outstanding c call + if slot = some c then 1 else 0 := by
        simp only [State.outstanding]
        omega
      rw [hsame]
      exact hcounts }

theorem Accounts.enqueue_resume (ha : Accounts slot s) (p : Nat) :
    Accounts slot { s with queue := s.queue ++ [.resume p] } :=
  ha.setQueue fun c => by simp [Work.starts]

/-- An executor accepts the function that starts the input in the hand. -/
theorem Accounts.enqueue_submit {c : Nat} (ha : Accounts (some c) s) (ex : Option ξ) :
    Accounts none { s with queue := s.queue ++ [.submit c ex] } :=
  ha.setQueue fun d => by by_cases hd : c = d <;> simp [Work.starts, hd]

theorem Accounts.dequeue_resume [DecidableEq ξ] (ha : Accounts slot s) (p : Nat) :
    Accounts slot { s with queue := s.queue.erase (.resume p) } := by
  refine ha.setQueue fun c => ?_
  rw [List.countP_erase]
  simp [Work.starts]

theorem Accounts.dequeue_submit [DecidableEq ξ] (ha : Accounts none s) {c : Nat} {ex : Option ξ}
    (hmem : .submit c ex ∈ s.queue) :
    Accounts (some c) { s with queue := s.queue.erase (.submit c ex) } := by
  refine ha.setQueue fun d => ?_
  rw [List.countP_erase]
  by_cases hd : c = d
  · subst hd
    have hpos := List.countP_pos_iff.mpr ⟨_, hmem, show Work.starts c (.submit c ex) = true by
      simp [Work.starts]⟩
    simp [Work.starts, hmem]
    omega
  · simp [Work.starts, hd]

/-- The step counts an input of one call, or has it in its hand. -/
theorem Accounts.setCall (ha : Accounts slot s) {c : Nat} {call call' : Call ξ}
    (hcall : s.call c = some call) (howner : call'.owner = call.owner)
    (hothers : ∀ d, d ≠ c → (slot' = some d ↔ slot = some d))
    (hcounts : call'.Counts (s.outstanding c call' + if slot' = some c then 1 else 0)) :
    Accounts slot' (s.setCall c call') := by
  have hself : (s.setCall c call').call c = some call' := Function.update_self ..
  have hrest : ∀ d, d ≠ c → (s.setCall c call').call d = s.call d :=
    fun d hd => Function.update_of_ne hd ..
  have hkept : ∀ d, (∃ call, s.call d = some call) →
      ∃ call, (s.setCall c call').call d = some call := fun d hd => by
    by_cases heq : d = c
    · subst heq
      exact ⟨call', hself⟩
    · rw [hrest d heq]
      exact hd
  exact { ha with
    noCall := fun d hd => by
      have hnone := ha.noCall d hd
      have hne : d ≠ c := fun heq => by simp [heq, hcall] at hnone
      rw [hrest d hne]
      exact hnone
    input := fun q hq d hinput => by
      rcases ha.input q hq d hinput with ⟨call₀, hcall₀, hlt⟩
      by_cases heq : d = c
      · subst heq
        rw [hcall, Option.some.injEq] at hcall₀
        subst hcall₀
        exact ⟨call', hself, by omega⟩
      · exact ⟨call₀, by rw [hrest d heq, hcall₀], hlt⟩
    owner := fun d call₀ hcall₀ => by
      by_cases heq : d = c
      · subst heq
        rw [hself, Option.some.injEq] at hcall₀
        subst hcall₀
        rw [howner]
        exact ha.owner d call hcall
      · rw [hrest d heq] at hcall₀
        exact ha.owner d call₀ hcall₀
    submitted := fun d ex hmem => hkept d (ha.submitted d ex hmem)
    inHand := fun d hslot => by
      by_cases heq : d = c
      · subst heq
        exact ⟨call', hself⟩
      · exact hkept d (ha.inHand d ((hothers d heq).mp hslot))
    counts := fun d call₀ hcall₀ => by
      by_cases heq : d = c
      · subst heq
        rw [hself, Option.some.injEq] at hcall₀
        subst hcall₀
        exact hcounts
      · rw [hrest d heq] at hcall₀
        have hold := ha.counts d call₀ hcall₀
        simp only [hothers d heq]
        exact hold }

/-- The loop of the call comes to the next input. -/
theorem Accounts.launch (ha : Accounts none s) {c : Nat} {call : Call ξ}
    (hcall : s.call c = some call) (hstarted : call.started < call.inputs.length) :
    Accounts (some c) (s.setCall c { call with started := call.started + 1 }) := by
  have hcounts := ha.counts c call hcall
  have hcount := hcounts.count
  refine ha.setCall hcall rfl (fun d hd => by simp [Ne.symm hd])
    { hcounts with count := ?_, started := hstarted }
  have hnext : s.outstanding c { call with started := call.started + 1 } + 1 =
      s.outstanding c call := by
    simp only [State.outstanding]
    omega
  rw [if_pos rfl, hnext]
  exact hcount

/-- The counter of the call goes down for the input in the hand. -/
theorem Accounts.down {c : Nat} (ha : Accounts (some c) s) {call : Call ξ}
    (hcall : s.call c = some call) :
    Accounts none (s.setCall c { call with event := call.event.downCount.2 }) := by
  have hcounts := ha.counts c call hcall
  have hcount := hcounts.count
  rw [if_pos rfl] at hcount
  refine ha.setCall hcall rfl (fun d hd => by simp [Ne.symm hd])
    { hcounts with count := ?_, bound := fun hany => ?_ }
  · change call.event.count - 1 = ((s.outstanding c call + 0 + call.slack : Nat) : Int)
    omega
  · have hbound := hcounts.bound hany
    change call.event.count - 1 ≤ (call.inputs.length : Int) + 1
    omega

/-- The cancel handler runs, and its decrement is still to come. -/
theorem Accounts.cancel (ha : Accounts none s) {c : Nat} {call : Call ξ}
    (hcall : s.call c = some call) (hany : call.kind = .any) (hhandled : call.handled = false) :
    Accounts (some c) (s.setCall c { call with handled := true }) := by
  have hcounts := ha.counts c call hcall
  have hcount := hcounts.count
  refine ha.setCall hcall rfl (fun d hd => by simp [Ne.symm hd]) { hcounts with count := ?_ }
  have hslack : call.slack = 1 := if_pos ⟨hany, hhandled⟩
  have hnone : Call.slack { call with handled := true } = 0 := if_neg (by simp)
  rw [hnone, if_pos rfl]
  change call.event.count = ((s.outstanding c call + 1 + 0 : Nat) : Int)
  simpa [hslack] using hcount

/-- A collect call is created. -/
theorem Accounts.collect (ha : Accounts none s) {call : Call ξ} (howner : call.owner < s.tasks)
    (hcounts : call.Counts call.inputs.length) (hstarted : call.started = 0) :
    Accounts none { s.setCall s.calls call with calls := s.calls + 1 } := by
  have hnone := ha.noCall s.calls (Nat.le_refl _)
  have hself : (s.setCall s.calls call).call s.calls = some call := Function.update_self ..
  have hrest : ∀ d call₀, s.call d = some call₀ →
      (s.setCall s.calls call).call d = some call₀ := fun d call₀ hcall₀ => by
    have hne : d ≠ s.calls := fun heq => by simp [heq, hnone] at hcall₀
    exact (Function.update_of_ne hne ..).trans hcall₀
  have hold : ∀ d call₀, (s.setCall s.calls call).call d = some call₀ →
      d = s.calls ∧ call₀ = call ∨ s.call d = some call₀ := fun d call₀ hcall₀ => by
    by_cases heq : d = s.calls
    · subst heq
      rw [hself, Option.some.injEq] at hcall₀
      exact .inl ⟨rfl, hcall₀.symm⟩
    · exact .inr ((Function.update_of_ne heq ..).symm.trans hcall₀)
  exact { ha with
    noCall := fun d hd => by
      have hlt : s.calls < d := hd
      exact (Function.update_of_ne (Nat.ne_of_gt hlt) ..).trans (ha.noCall d (Nat.le_of_lt hlt))
    input := fun q hq d hinput => by
      rcases ha.input q hq d hinput with ⟨call₀, hcall₀, hlt⟩
      exact ⟨call₀, hrest d call₀ hcall₀, hlt⟩
    owner := fun d call₀ hcall₀ => by
      rcases hold d call₀ hcall₀ with ⟨rfl, rfl⟩ | hcall₀
      · exact howner
      · exact ha.owner d call₀ hcall₀
    submitted := fun d ex hmem => by
      rcases ha.submitted d ex hmem with ⟨call₀, hcall₀⟩
      exact ⟨call₀, hrest d call₀ hcall₀⟩
    inHand := fun d hslot => by cases hslot
    counts := fun d call₀ hcall₀ => by
      rcases hold d call₀ hcall₀ with ⟨rfl, rfl⟩ | hcall₀
      · -- nothing refers to the new call
        have hqueue : s.queue.countP (Work.starts s.calls) = 0 := by
          refine List.countP_eq_zero.mpr fun work hmem hstarts => ?_
          cases work with
          | resume q => cases hstarts
          | submit d ex =>
              obtain rfl : d = s.calls := of_decide_eq_true hstarts
              rcases ha.submitted s.calls ex hmem with ⟨call, hcall⟩
              simp [hnone] at hcall
        have htasks : tallyBelow (Task.opens s.calls) s.task s.tasks = 0 := by
          refine tallyBelow_eq_zero fun q hq => ?_
          have hcall : (s.task q).call ≠ some s.calls := fun hinput => by
            rcases ha.input q hq _ hinput with ⟨call, hcall, -⟩
            simp [hnone] at hcall
          simp [Task.opens, hcall]
        have hall : s.outstanding s.calls call₀ = call₀.inputs.length := by
          simp [State.outstanding, hqueue, htasks, hstarted]
        have hcounts' : call₀.Counts (s.outstanding s.calls call₀ + 0) := by
          rw [hall]
          exact hcounts
        exact hcounts'
      · exact ha.counts d call₀ hcall₀ }

end RejectingExecutor

end AsyncSimple
