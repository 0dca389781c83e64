import AsyncSimple.Coro.SuspendedHandles

/-!
# No coroutine is stranded by an executor that accepts

Every step of the machine puts the handle that it takes into another place, as long as the
executors accept what the code does not check.  In a quiet state the handle of a suspended task
can only be in a collect call, which waits for a task that was created later.

Main results:

- Theorem {lit}`Inv.step`: the handles and the inputs stay where they are counted.
- Theorem {lit}`Inv.finished`: in a quiet state every task has finished.
- Theorem {lit}`noneStranded_of_accepted`: no coroutine is stranded in a run in which the executors
  accept whatever is not checked.
-/

namespace AsyncSimple

open Transition

namespace RejectingExecutor

variable {ξ : Type} {s : State ξ} {p : Nat} {slot : Option Nat}

/-! ## The counter of a call -/

/-- The decrement that resumes the coroutine finds its handle in the call. -/
theorem Call.armed_of_resumes {call : Call ξ} (h : call.resumes = true) : call.armed = true := by
  cases hkind : call.kind with
  | all =>
      simp only [Call.resumes, hkind, decide_eq_true_eq] at h
      simp [Call.armed, hkind, h]
  | any => simpa [Call.resumes, Call.armed, hkind] using h

/-- No second decrement does. -/
theorem Call.armed_down_of_resumes {call : Call ξ} (h : call.resumes = true) :
    Call.armed { call with event := call.event.downCount.2 } = false := by
  cases hkind : call.kind with
  | all | any =>
      simp only [Call.resumes, hkind, decide_eq_true_eq] at h
      simp [Call.armed, h]

/-- The other decrements leave the handle where it is. -/
theorem Call.armed_down {call : Call ξ} {n : Nat} (hcounts : call.Counts (n + 1))
    (h : call.resumes = false) :
    Call.armed { call with event := call.event.downCount.2 } = call.armed := by
  have hcount := hcounts.count
  cases hkind : call.kind with
  | all =>
      simp only [Call.resumes, hkind, decide_eq_false_iff_not] at h
      simp only [Call.armed, hkind, CountEvent.downCount_count]
      exact decide_eq_decide.mpr (by omega)
  | any =>
      have hbound := hcounts.bound hkind
      simp only [Call.resumes, hkind, decide_eq_false_iff_not] at h
      simp only [Call.armed, hkind, CountEvent.downCount_count]
      exact decide_eq_decide.mpr (by omega)

/-- A call that has a handle waits for an input. -/
theorem Call.Counts.pos {call : Call ξ} {n : Nat} (hcounts : call.Counts n)
    (h : call.armed = true) : 0 < n := by
  have hcount := hcounts.count
  have hnonempty := hcounts.nonempty
  cases hkind : call.kind with
  | all =>
      simp only [Call.armed, hkind, decide_eq_true_eq] at h
      simp only [Call.slack, hkind, reduceCtorEq, false_and, if_false] at hcount
      omega
  | any =>
      simp only [Call.armed, hkind, decide_eq_true_eq] at h
      have hslack : call.slack ≤ 1 := by
        unfold Call.slack
        split <;> omega
      omega

theorem Call.counts_create (kind : CollectKind) (para : Bool) (owner : Nat) (executor : Option ξ)
    (inputs : Inputs ξ) (hne : (Call.create kind para owner executor inputs).inputs ≠ []) :
    (Call.create kind para owner executor inputs).Counts
      (Call.create kind para owner executor inputs).inputs.length where
  count := by
    cases kind <;> simp [Call.create, Call.slack]
  nonempty := List.length_pos_iff.mpr hne
  started := Nat.zero_le _
  bound := fun hany => by
    cases kind with
    | all => cases hany
    | any => simp [Call.create]

theorem Call.armed_create (kind : CollectKind) (para : Bool) (owner : Nat) (executor : Option ξ)
    (inputs : Inputs ξ) (hne : (Call.create kind para owner executor inputs).inputs ≠ []) :
    (Call.create kind para owner executor inputs).armed = true := by
  have hpos := List.length_pos_iff.mpr hne
  cases kind with
  | all => simpa [Call.create, Call.armed] using hpos
  | any => simp [Call.create, Call.armed]

/-! ## Operations -/

section

variable [DecidableEq ξ] {hand : Option Nat} {answer : Bool}

/-- The handles and the inputs are where they are counted, up to what the present step has in its
hand. -/
structure Inv (hand slot : Option Nat) (s : State ξ) : Prop where
  handles : Handles hand s
  accounts : Accounts slot s

theorem Inv.initial : Inv none none (State.initial : State ξ) where
  handles :=
    { held := fun p => by
        simp [State.initial, State.collecting, Status.collects, Status.isSuspended]
      owner := fun c call hcall => by cases hcall
      awaited := fun p c hstatus => by cases hstatus
      once := fun p => by simp [State.initial, Status.isSuspended] }
  accounts :=
    { fresh := fun p _ => rfl
      begun := fun p hp => absurd hp (Nat.not_lt_zero p)
      noCall := fun c _ => rfl
      input := fun p hp => absurd hp (Nat.not_lt_zero p)
      owner := fun c call hcall => by cases hcall
      submitted := fun c ex hmem => by cases hmem
      inHand := fun c hslot => by cases hslot
      counts := fun c call hcall => by cases hcall }

theorem Inv.enqueue (hinv : Inv (some p) slot s) : Inv none slot (s.schedule (.resume p) true) :=
  ⟨hinv.handles.enqueue, hinv.accounts.enqueue_resume p⟩

theorem Inv.resume (hinv : Inv (some p) slot s) : Inv none slot (s.resume p) := by
  have hsuspended := hinv.handles.in_hand.1
  have hunstarted : (s.task p).status ≠ .unstarted := fun h => by
    simp [h, Status.isSuspended] at hsuspended
  have hunfinished : (s.task p).status ≠ .finished := fun h => by
    simp [h, Status.isSuspended] at hsuspended
  exact ⟨hinv.handles.resume, hinv.accounts.setTask (hinv.accounts.lt_tasks hunstarted)
    hunfinished (by simp) (by simp) rfl⟩

theorem Inv.checkin (hinv : Inv (some p) slot s)
    (hok : (s.task p).executor.isSome = true → answer = true) :
    Inv none slot (s.checkin p answer) := by
  unfold State.checkin
  cases hex : (s.task p).executor with
  | some ex =>
      rw [hok (by simp [hex])]
      exact hinv.enqueue
  | none => exact hinv.resume

theorem Inv.suspend (hinv : Inv none slot s) (hrunning : (s.task p).status = .running)
    {await : Await} (hawait : (Status.suspended await).collects = none) :
    Inv (some p) slot (s.suspend p await) :=
  ⟨hinv.handles.suspend hrunning hawait, hinv.accounts.setTask
    (hinv.accounts.lt_tasks (by simp [hrunning])) (by simp [hrunning]) (by simp) (by simp) rfl⟩

/-- A running task changes something that no handle depends on. -/
theorem Inv.setTask (hinv : Inv none slot s) (hrunning : (s.task p).status = .running)
    {task : Task ξ} (hstatus : task.status = .running) (hcall : task.call = (s.task p).call)
    (hsuspensions : task.suspensions = (s.task p).suspensions)
    (hresumptions : task.resumptions = (s.task p).resumptions) :
    Inv none slot (s.setTask p task) := by
  have honce := hinv.handles.once p
  simp only [hrunning, Status.isSuspended] at honce
  exact ⟨hinv.handles.setTask (by simp [hrunning, Status.isSuspended])
      (by simp [hstatus, Status.isSuspended]) (by simpa [hsuspensions, hresumptions] using honce),
    hinv.accounts.setTask (hinv.accounts.lt_tasks (by simp [hrunning])) (by simp [hrunning])
      (by simp [hstatus]) (by simp [hstatus]) hcall⟩

theorem Inv.start (hinv : Inv none slot s) (ex : Option ξ) {reschedule : Bool}
    (hok : reschedule = true → answer = true) :
    Inv none none (s.start ex slot reschedule answer) := by
  have hfresh := hinv.accounts.fresh s.tasks (Nat.le_refl _)
  have hhandles : Handles none (s.setTask s.tasks ⟨1, ex, .running, slot, 0, 0⟩) :=
    hinv.handles.setTask (by simp [hfresh, Status.isSuspended]) rfl rfl
  have hadd : Inv none none (s.addTask ex slot) :=
    ⟨{ hhandles with }, hinv.accounts.addTask ex⟩
  unfold State.start
  cases reschedule with
  | false => exact hadd
  | true =>
      have hrunning : ((s.addTask ex slot).task s.tasks).status = .running := by
        simp [State.addTask]
      rw [hok rfl, if_pos rfl]
      exact (hadd.suspend hrunning rfl).enqueue

/-- A suspended task waits for an event that has its handle. -/
theorem Inv.expect (hinv : Inv (some p) slot s) :
    Inv none slot { s with events := p :: s.events } :=
  ⟨hinv.handles.expect, { hinv.accounts with }⟩

/-- A running task awaits a new collect call. -/
theorem Inv.collect (hinv : Inv none none s) (hrunning : (s.task p).status = .running)
    (kind : CollectKind) (para : Bool) (inputs : Inputs ξ)
    (hne : (Call.create kind para p (s.task p).executor inputs).inputs ≠ []) :
    Inv none none { (s.suspend p (.collect s.calls)).setCall s.calls
      (Call.create kind para p (s.task p).executor inputs) with calls := s.calls + 1 } := by
  have hp := hinv.accounts.lt_tasks (p := p) (by simp [hrunning])
  have hnone := hinv.accounts.noCall s.calls (Nat.le_refl _)
  have harmed := Call.armed_create kind para p (s.task p).executor inputs hne
  have hhandles := hinv.handles.collect hrunning hnone rfl harmed
  have hsuspended : Accounts none (s.suspend p (.collect s.calls)) :=
    hinv.accounts.setTask hp (by simp [hrunning]) (by simp) (by simp) rfl
  exact ⟨{ hhandles with }, hsuspended.collect hp (Call.counts_create kind para p _ inputs hne) rfl⟩

/-- The callback of an input, or the cancel handler, counts down. -/
theorem Inv.countDown {c : Nat} (hinv : Inv none (some c) s)
    (hok : checksIn s c = true → answer = true) : Inv none none (s.countDown c answer) := by
  rcases hinv.accounts.inHand c rfl with ⟨call, hcall⟩
  have hcounts := hinv.accounts.counts c call hcall
  have haccounts := hinv.accounts.down hcall
  rw [if_pos rfl] at hcounts
  unfold State.countDown
  rw [hcall]
  dsimp only
  cases hresumes : call.resumes with
  | false =>
      have harmed := Call.armed_down hcounts hresumes
      have hhandles := hinv.handles.setCall none { call with event := call.event.downCount.2 }
        hcall rfl (fun h => harmed ▸ h) (by rw [harmed]) (fun _ _ => Iff.rfl)
      exact ⟨hhandles, haccounts⟩
  | true =>
      have hbefore := Call.armed_of_resumes hresumes
      have hafter := Call.armed_down_of_resumes hresumes
      -- the call gives out the handle of its owner
      have hhandles := hinv.handles.setCall (some call.owner)
        { call with event := call.event.downCount.2 } hcall rfl (fun _ => hbefore)
        (by simp [hbefore, hafter]) (fun q hq => by simp [Ne.symm hq])
      have hnext : Inv (some call.owner) none
          (s.setCall c { call with event := call.event.downCount.2 }) := ⟨hhandles, haccounts⟩
      rw [if_pos rfl]
      split
      · rename_i hwrapped
        refine hnext.checkin fun hex => hok ?_
        simp only [checksIn, hcall, hresumes, hwrapped, Bool.true_and]
        exact hex
      · exact hnext.resume

/-- The outermost frame of a running task ends. -/
theorem Inv.complete (hinv : Inv none none s) (hrunning : (s.task p).status = .running)
    (hok : ∀ c, (s.task p).call = some c → checksIn s c = true → answer = true) :
    Inv none none (s.complete p answer) := by
  have honce := hinv.handles.once p
  simp only [hrunning, Status.isSuspended] at honce
  have hended : Inv none (s.task p).call
      (s.setTask p { s.task p with frames := 0, status := .finished }) :=
    ⟨hinv.handles.setTask (by simp [hrunning, Status.isSuspended]) rfl (by simpa using honce),
      hinv.accounts.finish (hinv.accounts.lt_tasks (by simp [hrunning])) (by simp [hrunning]) rfl
        rfl⟩
  unfold State.complete
  cases hcall : (s.task p).call with
  | none =>
      rw [hcall] at hended
      exact hended
  | some c =>
      rw [hcall] at hended
      refine hended.countDown fun hchecks => hok c hcall ?_
      -- the end of the task changes the executor of nobody
      have hex : ∀ q, ((s.setTask p { s.task p with frames := 0, status := .finished }).task
          q).executor = (s.task q).executor := fun q => by
        by_cases hq : q = p
        · subst hq
          simp
        · rw [setTask_task_of_ne hq]
      simpa only [checksIn, setTask_call, hex] using hchecks

/-! ## Steps -/

variable {t : State ξ}

theorem Inv.act (hinv : Inv none none s) (hrunning : (s.task p).status = .running) {a : Action ξ}
    (hok : accepted s (.act p a answer)) (hstep : act s p answer a = some t) :
    Inv none none t := by
  cases a with
  | await =>
      simp only [RejectingExecutor.act, Option.some.injEq] at hstep
      subst hstep
      exact hinv.setTask hrunning hrunning rfl rfl rfl
  | ret =>
      simp only [RejectingExecutor.act] at hstep
      split at hstep
      · rename_i hframes
        simp only [Option.some.injEq] at hstep
        subst hstep
        refine hinv.complete hrunning fun c hcall hchecks => hok ?_
        simp [asks, hframes, hcall, hchecks]
      · simp only [Option.some.injEq] at hstep
        subst hstep
        exact hinv.setTask hrunning hrunning rfl rfl rfl
  | yield =>
      simp only [RejectingExecutor.act] at hstep
      split at hstep
      · rename_i ex hex
        have hanswer : answer = true := hok (by simp [asks, hex])
        simp only [hanswer, Option.some.injEq] at hstep
        subst hstep
        exact (hinv.suspend hrunning rfl).enqueue
      · simp only [Option.some.injEq] at hstep
        exact hstep ▸ hinv
  | dispatch ex =>
      simp only [RejectingExecutor.act] at hstep
      split at hstep
      · simp only [Option.some.injEq] at hstep
        exact hstep ▸ hinv
      · split at hstep
        · rename_i hanswer
          simp only [hanswer, Option.some.injEq] at hstep
          subst hstep
          have hmoved : Inv none none (s.setTask p { s.task p with executor := some ex }) :=
            hinv.setTask hrunning hrunning rfl rfl rfl
          exact (hmoved.suspend (by simpa using hrunning) rfl).enqueue
        · simp only [Option.some.injEq] at hstep
          exact hstep ▸ hinv
  | sleep =>
      simp only [RejectingExecutor.act] at hstep
      split at hstep
      · simp only [Option.some.injEq] at hstep
        subst hstep
        exact (hinv.suspend hrunning rfl).expect
      · simp only [Option.some.injEq] at hstep
        exact hstep ▸ hinv
  | future | via =>
      simp only [RejectingExecutor.act, Option.some.injEq] at hstep
      subst hstep
      exact (hinv.suspend hrunning rfl).expect
  | collect kind para inputs =>
      simp only [RejectingExecutor.act] at hstep
      split at hstep
      · simp only [Option.some.injEq] at hstep
        exact hstep ▸ hinv
      · rename_i hne
        simp only [Option.some.injEq] at hstep
        subst hstep
        exact hinv.collect hrunning kind para inputs hne

/-- Every step puts the handles and the inputs it has taken into another place. -/
theorem Inv.step {l : Label ξ} (hinv : Inv none none s) (hok : accepted s l)
    (hstep : step s l = some t) : Inv none none t := by
  cases l with
  | start ex =>
      simp only [RejectingExecutor.step, Option.some.injEq] at hstep
      subst hstep
      exact hinv.start ex (by simp)
  | via ex answer =>
      simp only [RejectingExecutor.step, Option.some.injEq] at hstep
      subst hstep
      exact hinv.start (some ex) fun _ => hok rfl
  | act p a answer =>
      simp only [RejectingExecutor.step] at hstep
      split at hstep
      · rename_i hrunning
        exact hinv.act hrunning hok hstep
      · cases hstep
  | launch c answer =>
      simp only [RejectingExecutor.step] at hstep
      split at hstep
      case h_2 => cases hstep
      case h_1 call hcall =>
        split at hstep
        case h_2 => cases hstep
        case h_1 ex hinput =>
          have hstarted := (List.getElem?_eq_some_iff.mp hinput).1
          have hlaunched : Inv none (some c)
              (s.setCall c { call with started := call.started + 1 }) :=
            ⟨hinv.handles.setCall none _ hcall rfl id rfl (fun _ _ => Iff.rfl),
              hinv.accounts.launch hcall hstarted⟩
          split at hstep
          · rename_i hsubmits
            have hanswer : answer = true := hok (by simp [asks, hcall, hinput, hsubmits])
            simp only [hanswer, Option.some.injEq] at hstep
            subst hstep
            exact ⟨hlaunched.handles.enqueue_submit c ex, hlaunched.accounts.enqueue_submit ex⟩
          · simp only [Option.some.injEq] at hstep
            subst hstep
            exact hlaunched.start ex fun hwrapped => hok (by simp [asks, hcall, hwrapped])
  | run work answer =>
      simp only [RejectingExecutor.step] at hstep
      split at hstep
      case isFalse => cases hstep
      case isTrue hmem =>
        cases work with
        | resume p =>
            simp only [Option.some.injEq] at hstep
            subst hstep
            have htaken : Inv (some p) none { s with queue := s.queue.erase (.resume p) } :=
              ⟨hinv.handles.dequeue hmem, hinv.accounts.dequeue_resume p⟩
            exact htaken.resume
        | submit c ex =>
            rcases Option.map_eq_some_iff.mp hstep with ⟨call, hcall, rfl⟩
            have htaken : Inv none (some c) { s with queue := s.queue.erase (.submit c ex) } :=
              ⟨hinv.handles.dequeue_submit c ex, hinv.accounts.dequeue_submit hmem⟩
            exact htaken.start ex fun hwrapped => hok (by simp [asks, hcall, hwrapped])
  | wake p answer =>
      simp only [RejectingExecutor.step] at hstep
      split at hstep
      case isFalse => cases hstep
      case isTrue hmem =>
        have htaken : Inv (some p) none { s with events := s.events.erase p } :=
          ⟨hinv.handles.wake hmem, { hinv.accounts with }⟩
        split at hstep
        · rename_i hsleep
          have hanswer : answer = true := hok (by simp [asks, hsleep])
          simp only [hanswer, Option.some.injEq] at hstep
          subst hstep
          exact htaken.enqueue
        · simp only [Option.some.injEq] at hstep
          subst hstep
          refine htaken.checkin fun hex => hok ?_
          have hex' : (s.task p).executor.isSome = true := hex
          simp [asks, hex']
  | cancel c answer =>
      simp only [RejectingExecutor.step] at hstep
      split at hstep
      case h_2 => cases hstep
      case h_1 call hcall =>
        split at hstep
        case isFalse => cases hstep
        case isTrue hany =>
          simp only [Option.some.injEq] at hstep
          subst hstep
          have hhandled : Inv none (some c) (s.setCall c { call with handled := true }) :=
            ⟨hinv.handles.setCall none _ hcall rfl id rfl (fun _ _ => Iff.rfl),
              hinv.accounts.cancel hcall hany.1 hany.2⟩
          refine hhandled.countDown fun hchecks => hok ?_
          simp only [checksIn, State.setCall, Function.update_self] at hchecks
          simp only [asks, checksIn, hcall]
          exact hchecks

/-! ## Quiet states -/

/-- A task that is not finished in a quiet state waits for a later one. -/
theorem Inv.exists_later (hinv : Inv none none s) (hquiet : Quiet s) (hp : p < s.tasks)
    (hunfinished : (s.task p).status ≠ .finished) :
    ∃ q, p < q ∧ q < s.tasks ∧ (s.task q).status ≠ .finished := by
  have hrunning := hquiet.running p hp
  have hbegun := hinv.accounts.begun p hp
  have hsuspended : (s.task p).status.isSuspended = true := by
    cases hstatus : (s.task p).status with
    | suspended await => rfl
    | unstarted => exact absurd hstatus hbegun
    | running => exact absurd hstatus hrunning
    | finished => exact absurd hstatus hunfinished
  -- the handle of the task can only be in a collect call
  have hheld := hinv.handles.held p
  rw [hquiet.queue, hquiet.events, hsuspended] at hheld
  have hcollecting : s.collecting p = 1 := by simpa using hheld
  have hawaits : (s.task p).status.collects.any (fun c => (s.call c).any Call.armed) = true := by
    by_contra hnot
    simp [State.collecting, hnot] at hcollecting
  rcases (Option.any_eq_true ..).mp hawaits with ⟨c, hcollects, hcalls⟩
  rcases (Option.any_eq_true ..).mp hcalls with ⟨call, hcall, harmed⟩
  obtain rfl : call.owner = p := by
    rcases hinv.handles.awaited p c hcollects with ⟨call₀, hcall₀, howner⟩
    rw [hcall, Option.some.injEq] at hcall₀
    rw [hcall₀, howner]
  -- and the call waits for an input that is started
  have hpos := (hinv.accounts.counts c call hcall).pos harmed
  have hc : c < s.calls := by
    by_contra hle
    simp [hinv.accounts.noCall c (Nat.le_of_not_lt hle)] at hcall
  have hloop : call.inputs.length ≤ call.started := by
    simpa [hcall] using hquiet.loops c hc
  have htally : 0 < tallyBelow (Task.opens c) s.task s.tasks := by
    simp only [State.outstanding, hquiet.queue, List.countP_nil, reduceCtorEq, if_false] at hpos
    omega
  rcases exists_of_tallyBelow_pos htally with ⟨q, hq, hopens⟩
  simp only [Task.opens, Bool.and_eq_true, decide_eq_true_eq] at hopens
  rcases hinv.accounts.input q hq c hopens.1 with ⟨call₀, hcall₀, hlt⟩
  rw [hcall, Option.some.injEq] at hcall₀
  subst hcall₀
  exact ⟨q, hlt, hq, hopens.2⟩

/-- No task is the last one that waits. -/
theorem Inv.finished (hinv : Inv none none s) (hquiet : Quiet s) :
    ∀ p < s.tasks, (s.task p).status = .finished := by
  have hlast : ∀ k p, s.tasks - p = k → p < s.tasks → (s.task p).status = .finished := by
    intro k
    induction k using Nat.strong_induction_on with
    | _ k ih =>
        intro p hk hp
        by_contra hunfinished
        rcases hinv.exists_later hquiet hp hunfinished with ⟨q, hlt, hq, hwaits⟩
        exact hwaits (ih (s.tasks - q) (by omega) q rfl hq)
  exact fun p hp => hlast _ p rfl hp

theorem Inv.noneStranded (hinv : Inv none none s) : NoneStranded s :=
  ⟨hinv.handles.once, hinv.finished⟩

/-- No coroutine is stranded in a run in which the executors accept whatever is not checked. -/
theorem noneStranded_of_accepted {ls : List (Label ξ)}
    (hok : machine.RunsWithin accepted (State.initial : State ξ) ls)
    (hrun : machine.run State.initial ls = some t) : NoneStranded t := by
  refine Inv.noneStranded (machine.runsWithin_invariant (P := Inv none none) ?_ Inv.initial hok
    hrun)
  intro s l s' hinv hok hstep
  exact hinv.step hok hstep

end

/-- A {lit}`collectAllPara` of two inputs, with the answer to the submission of the second one. -/
def paraRun (ex : ξ) (answer : Bool) : List (Label ξ) :=
  [.start (some ex), .act 0 (.collect .all true (.lazy [none, none])) true, .launch 0 true,
    .launch 0 answer, .run (.submit 0 (some ex)) true, .act 1 .ret true]

theorem noneStranded_of_accepted_para :
    ∃ t, machine.run (State.initial : State Unit)
        (paraRun () true ++ [.run (.submit 0 (some ())) true, .act 2 .ret true]) = some t ∧
      NoneStranded t ∧ t.tasks = 3 ∧ (t.task 0).status = .running := by
  rcases machine.exists_run_of_any (State.initial : State Unit)
    (paraRun () true ++ [.run (.submit 0 (some ())) true, .act 2 .ret true])
    (fun t => t.tasks = 3 ∧ (t.task 0).status = .running) (by decide +kernel)
    with ⟨t, hrun, hend⟩
  exact ⟨t, hrun, noneStranded_of_accepted (by decide +kernel) hrun, hend⟩

/-- Every path that drops the answer {lit}`false`: the start of a {lit}`RescheduleLazy`, the
submission of an input, {lit}`Yield`, the timer of {lit}`sleep`, and the {lit}`checkin` of
{lit}`FutureAwaiter` and of {lit}`ViaCoroutine`. -/
def rejectedRuns (ex : ξ) : List (List (Label ξ)) :=
  [[.via ex false],
    paraRun ex false,
    [.start (some ex), .act 0 .yield false],
    [.start (some ex), .act 0 .sleep true, .wake 0 false],
    [.start (some ex), .act 0 .future true, .wake 0 false],
    [.start (some ex), .act 0 .via true, .wake 0 false]]

theorem stranded_of_rejected :
    (rejectedRuns ()).Forall fun ls => ∃ t,
      machine.run (State.initial : State Unit) ls = some t ∧ ¬ NoneStranded t := by
  rw [List.forall_iff_forall_mem]
  intro ls hls
  have hquiet : (machine.run (State.initial : State Unit) ls).any (fun t => decide
      ((t.queue = [] ∧ t.events = [] ∧ (∀ p < t.tasks, (t.task p).status ≠ .running) ∧
        ∀ c < t.calls, (t.call c).all (fun call => decide (call.inputs.length ≤ call.started))) ∧
        0 < t.tasks ∧ (t.task 0).status ≠ .finished)) = true := by
    revert ls
    decide +kernel
  rcases machine.exists_run_of_any _ ls _ hquiet
    with ⟨t, hrun, ⟨hqueue, hevents, hrunning, hloops⟩, htasks, hunfinished⟩
  refine ⟨t, hrun, fun hstranded => hunfinished ?_⟩
  exact hstranded.finished ⟨hqueue, hevents, hrunning, hloops⟩ 0 htasks

end RejectingExecutor

end AsyncSimple
