import AsyncSimple.Uthread.Lifetime
import Mathlib.Data.List.Basic

/-!
# A joined uthread outlives its stack

The worker on which the uthread was created executes it from one await to the next, and it is
inside a task for as long as it does.  The continuation of {lit}`done_` goes into the queue of
this worker, which therefore comes to it after the uthread has switched out for good.

Main results:

- Theorem {lit}`Inv.step`: the worker that executes the uthread, what {lit}`join` has done, and
  where the continuation of {lit}`done_` is.
- Theorem {lit}`Inv.finished`: the worker leaves after it has run the continuation.
- Theorem {lit}`lifetime_of_accepted`: the callback and the destruction come once and in order, in
  every run in which the uthread is joined on its worker and the pool refuses none of its
  continuations.
-/

namespace AsyncSimple

open Transition

namespace UthreadLife

variable {n : Nat} {home : Fin n} {s t : State n} {l : Label n}

/-! ## The queues -/

theorem count_enqueue (s : State n) (v u : Fin n) (x y : Task) :
    ((s.enqueue v x).queue u).count y =
      (s.queue u).count y + if u = v ∧ x = y then 1 else 0 := by
  simp only [State.enqueue, State.setQueue]
  by_cases hu : u = v
  · subst hu
    simp [List.count_singleton]
  · simp [hu]

/-- Somebody schedules a task of another kind. -/
theorem count_enqueue_of_ne (s : State n) (v u : Fin n) {x y : Task} (hne : x ≠ y) :
    ((s.enqueue v x).queue u).count y = (s.queue u).count y := by
  simp [count_enqueue, hne]

theorem count_pop {v : Fin n} {x : Task} {rest : List Task} (hqueue : s.queue v = x :: rest)
    (u : Fin n) (y : Task) :
    ((s.setQueue v rest).queue u).count y + (if u = v ∧ x = y then 1 else 0) =
      (s.queue u).count y := by
  simp only [State.setQueue]
  by_cases hu : u = v
  · subst hu
    simp [hqueue, List.count_cons]
  · simp [hu]

theorem count_pop_of_ne {v : Fin n} {x y : Task} {rest : List Task}
    (hqueue : s.queue v = x :: rest) (hne : x ≠ y) (u : Fin n) :
    ((s.setQueue v rest).queue u).count y = (s.queue u).count y := by
  have hcount := count_pop hqueue u y
  simpa [hne] using hcount

/-! ## The worker of the uthread -/

/-- The uthread has not switched out. -/
@[simp]
def Pc.onStack : Pc → Bool
  | .suspended | .left => false
  | .body | .attached | .ended | .checkin | .push | .inPlace | .release | .freed | .switchOut =>
      true

/-- An await has not come back. -/
@[simp]
def Pc.awaits : Pc → Bool
  | .attached | .suspended => true
  | .body | .ended | .checkin | .push | .inPlace | .release | .freed | .switchOut | .left => false

/-- The function has returned or thrown. -/
@[simp]
def Pc.over : Pc → Bool
  | .body | .attached | .suspended => false
  | .ended | .checkin | .push | .inPlace | .release | .freed | .switchOut | .left => true

/-- {lit}`done_` has its result. -/
@[simp]
def Pc.fulfilled : Pc → Bool
  | .body | .attached | .suspended | .ended => false
  | .checkin | .push | .inPlace | .release | .freed | .switchOut | .left => true

/-- The uthread runs the continuation of {lit}`done_` itself. -/
@[simp]
def Pc.runsInPlace : Pc → Bool
  | .inPlace | .release | .freed => true
  | .body | .attached | .suspended | .ended | .checkin | .push | .switchOut | .left => false

/-- One worker executes the uthread, and is inside a task for as long as it does. -/
structure Switching (home : Fin n) (s : State n) : Prop where
  on : s.on = if s.pc.onStack then some (.worker home) else none
  scheduled : s.pc.runsInPlace = false
  inTask : s.pc.onStack = true → s.worker home = .task
  awaits : s.pc.awaits = false ↔ s.wake = .idle
  ctx : s.wake ≠ .idle → s.ctx = some home
  resumes : ∀ v, (s.queue v).count .resume = if v = home ∧ s.wake = .queued then 1 else 0
  ended : s.ended = s.pc.over
  hasResult : s.hasResult = s.pc.fulfilled

theorem switching_initial (home : Fin n) : Switching home (State.initial home) where
  on := rfl
  scheduled := rfl
  inTask := fun _ => if_pos rfl
  awaits := by simp [State.initial, Pc.awaits]
  ctx := fun hwake => absurd rfl hwake
  resumes := fun v => by simp [State.initial]
  ended := rfl
  hasResult := rfl

/-- A worker that is not in a task does not execute the uthread. -/
theorem Switching.offStack (hs : Switching home s) (hworker : s.worker home ≠ .task) :
    s.pc.onStack = false := by
  cases hpc : s.pc.onStack with
  | false => rfl
  | true => exact absurd (hs.inTask hpc) hworker

/-- A task on the worker of the uthread runs while the uthread does not. -/
theorem Switching.offStack_of_inTask (hs : Switching home s) (htask : s.inTask home = true) :
    s.pc.onStack = false := by
  cases hpc : s.pc.onStack with
  | false => rfl
  | true =>
      have hon := hs.on
      rw [hpc, if_pos rfl] at hon
      simp [State.inTask, hon] at htask

/-- A task that finds a result on the worker of the uthread comes after {lit}`final_switch_out`. -/
theorem Switching.left_of_hasResult (hs : Switching home s) (htask : s.inTask home = true)
    (hresult : s.hasResult = true) : s.pc = .left := by
  have hoff := hs.offStack_of_inTask htask
  have hfulfilled := hs.hasResult.symm.trans hresult
  cases hpc : s.pc <;> simp [hpc] at hoff hfulfilled ⊢

/-- The item of {lit}`switch_in` is in the queue of the uthread's worker. -/
theorem Switching.resume_mem (hs : Switching home s) {v : Fin n} (hmem : .resume ∈ s.queue v) :
    v = home ∧ s.wake = .queued := by
  have hcount := hs.resumes v
  have hpos := List.count_pos_iff.mpr hmem
  by_contra hnot
  rw [if_neg hnot] at hcount
  omega

theorem Switching.uthreadStep (hs : Switching home s) (hok : accepted home s .uthread = true)
    (hstep : uthreadStep s = some t) : Switching home t := by
  have hscheduled := hs.scheduled
  unfold UthreadLife.uthreadStep at hstep
  split at hstep
  case h_1 hpc =>
    -- `switch_out` of an await
    simp only [Option.some.injEq] at hstep
    subst hstep
    exact { hs with
      on := rfl
      scheduled := rfl
      inTask := fun h => by cases h
      awaits := by simp [← hs.awaits, hpc]
      ended := by simp [hs.ended, hpc]
      hasResult := by simp [hs.hasResult, hpc] }
  case h_2 hpc =>
    simp only [Option.some.injEq] at hstep
    subst hstep
    have htask := hs.inTask (by simp [hpc])
    cases hcont : s.continuation <;>
      exact { hs with
        on := by simp [hs.on, hpc]
        scheduled := rfl
        inTask := fun _ => htask
        awaits := by simp [← hs.awaits, hpc]
        ended := by simp [hs.ended, hpc]
        hasResult := rfl }
  case h_3 hpc =>
    have hstop : s.stop = false := by simpa [accepted, hpc] using hok
    simp only [hstop, Option.some.injEq] at hstep
    subst hstep
    exact { hs with
      on := by simp [hs.on, hpc]
      scheduled := rfl
      inTask := fun _ => hs.inTask (by simp [hpc])
      awaits := by simp [← hs.awaits, hpc]
      ended := by simp [hs.ended, hpc]
      hasResult := by simp [hs.hasResult, hpc] }
  case h_4 hpc =>
    rcases Option.map_eq_some_iff.mp hstep with ⟨v, -, rfl⟩
    exact { hs with
      on := by simp [State.enqueue, State.setQueue, hs.on, hpc]
      scheduled := rfl
      inTask := fun _ => hs.inTask (by simp [hpc])
      awaits := by simp [State.enqueue, State.setQueue, ← hs.awaits, hpc]
      resumes := fun u => (count_enqueue_of_ne s v u (by decide)).trans (hs.resumes u)
      ended := by simp [State.enqueue, State.setQueue, hs.ended, hpc]
      hasResult := by simp [State.enqueue, State.setQueue, hs.hasResult, hpc] }
  case h_5 hpc | h_6 hpc => simp [hpc] at hscheduled
  case h_7 hpc =>
    simp only [Option.some.injEq] at hstep
    subst hstep
    exact { hs with
      on := rfl
      scheduled := rfl
      inTask := fun h => by cases h
      awaits := by simp [← hs.awaits, hpc]
      ended := by simp [hs.ended, hpc]
      hasResult := by simp [hs.hasResult, hpc] }
  all_goals cases hstep

theorem Switching.popStep (hs : Switching home s) {v : Fin n} (hstep : popStep s v = some t) :
    Switching home t := by
  unfold UthreadLife.popStep at hstep
  split at hstep
  case isFalse => cases hstep
  case isTrue hloop =>
    split at hstep
    case h_1 => cases hstep
    case h_2 rest hqueue =>
      simp only [Option.some.injEq] at hstep
      subst hstep
      exact { hs with
        inTask := fun hpc => by
          simp only [State.setWorker, Function.update_apply]
          split
          · rfl
          · exact hs.inTask hpc
        resumes := fun u => (count_pop_of_ne hqueue (by decide) u).trans (hs.resumes u) }
    case h_3 rest hqueue =>
      rcases hs.resume_mem (hqueue ▸ List.mem_cons_self) with ⟨rfl, hwake⟩
      split at hstep
      case isFalse => cases hstep
      case isTrue hpc =>
        simp only [Option.some.injEq] at hstep
        subst hstep
        exact {
          on := rfl
          scheduled := rfl
          inTask := fun _ => Function.update_self ..
          awaits := by simp
          ctx := fun hwake => absurd rfl hwake
          resumes := fun u => by
            have hcount := count_pop hqueue u .resume
            have hbefore := hs.resumes u
            simp only [hwake, and_true] at hcount hbefore
            simp only [reduceCtorEq, and_false, if_false]
            change ((s.setQueue v rest).queue u).count .resume = 0
            omega
          ended := hs.ended.trans (by simp [hpc])
          hasResult := hs.hasResult.trans (by simp [hpc]) }
    case h_4 rest hqueue =>
      simp only [Option.some.injEq] at hstep
      subst hstep
      exact { hs with
        inTask := fun hpc => by
          simp only [State.setWorker, Function.update_apply]
          split
          · rename_i heq
            subst heq
            exact absurd (hs.inTask hpc) (by simp [hloop])
          · exact hs.inTask hpc
        resumes := fun u => (count_pop_of_ne hqueue (by decide) u).trans (hs.resumes u) }

/-- A worker that does not execute the uthread can go on as it likes. -/
theorem Switching.setWorker (hs : Switching home s) {v : Fin n} (pc : WorkerPc)
    (hoff : v = home → s.pc.onStack = false) : Switching home (s.setWorker v pc) :=
  { hs with
    inTask := fun hpc => by
      by_cases hv : v = home
      · exact absurd (hoff hv) (Bool.ne_false_iff.mpr hpc)
      · exact (Function.update_of_ne (Ne.symm hv) ..).trans (hs.inTask hpc) }

theorem Switching.taskStep (hs : Switching home s) {v : Fin n} (hstep : taskStep s v = some t) :
    Switching home t := by
  unfold UthreadLife.taskStep at hstep
  split at hstep
  case h_1 htask =>
    split at hstep
    case isFalse => cases hstep
    case isTrue hfree =>
      simp only [Option.some.injEq] at hstep
      subst hstep
      refine hs.setWorker .loop fun hv => hs.offStack_of_inTask ?_
      subst hv
      simp [State.inTask, htask, hfree.1]
  case h_2 hworker =>
    simp only [Option.some.injEq] at hstep
    subst hstep
    have hnext := hs.setWorker (v := v) .release fun hv => hs.offStack (by simp [← hv, hworker])
    exact { hnext with }
  case h_3 hworker =>
    simp only [Option.some.injEq] at hstep
    subst hstep
    have hnext := hs.setWorker (v := v) .loop fun hv => hs.offStack (by simp [← hv, hworker])
    exact { hnext with }
  all_goals cases hstep

theorem Switching.joinStep (hs : Switching home s) (hstep : joinStep s = some t) :
    Switching home t := by
  unfold UthreadLife.joinStep at hstep
  split at hstep <;> simp only [Option.some.injEq, reduceCtorEq] at hstep <;> subst hstep
  case h_3 v _ =>
    exact { hs with
      resumes := fun u => (count_enqueue_of_ne s v u (by decide)).trans (hs.resumes u) }
  all_goals exact { hs with }

theorem Switching.joinCall (hs : Switching home s) {v : Fin n} (hstep : joinCall s v = some t) :
    Switching home t := by
  unfold UthreadLife.joinCall at hstep
  split at hstep
  case isFalse => cases hstep
  case isTrue =>
    split at hstep <;> simp only [Option.some.injEq] at hstep <;> subst hstep <;>
      exact { hs with }

/-- The uthread awaits in the context of its worker. -/
theorem Switching.await (hs : Switching home s) {v : Fin n} (hpc : s.pc = .body)
    (hon : s.on = some (.worker v)) :
    Switching home { s with pc := .attached, wake := .armed, ctx := some v } := by
  have hhome := hs.on
  simp only [hpc, hon, Pc.onStack, if_true, Option.some.injEq, Place.worker.injEq] at hhome
  have hidle : s.wake = .idle := hs.awaits.mp (by simp [hpc])
  exact { hs with
    on := hs.on.trans (by simp [hpc])
    scheduled := rfl
    inTask := fun _ => hs.inTask (by simp [hpc])
    awaits := by simp
    ctx := fun _ => congrArg some hhome
    resumes := fun u => (hs.resumes u).trans (by simp [hidle])
    ended := hs.ended.trans (by simp [hpc])
    hasResult := hs.hasResult.trans (by simp [hpc]) }

theorem Switching.ends (hs : Switching home s) (hpc : s.pc = .body) :
    Switching home { s with pc := .ended, ended := true } :=
  { hs with
    on := hs.on.trans (by simp [hpc])
    scheduled := rfl
    inTask := fun _ => hs.inTask (by simp [hpc])
    awaits := by simp [← hs.awaits, hpc]
    ended := rfl
    hasResult := hs.hasResult.trans (by simp [hpc]) }

/-- The thread that fulfils the future has found the pool running. -/
theorem Switching.fulfil (hs : Switching home s) (harmed : s.wake = .armed) :
    Switching home { s with wake := .push } :=
  { hs with
    awaits := hs.awaits.trans (by simp [harmed])
    ctx := fun _ => hs.ctx (by simp [harmed])
    resumes := fun u => (hs.resumes u).trans (by simp [harmed]) }

theorem Switching.pushResume (hs : Switching home s) (hpush : s.wake = .push) :
    Switching home { s.enqueue home .resume with wake := .queued } :=
  { hs with
    awaits := hs.awaits.trans (by simp [hpush])
    ctx := fun _ => hs.ctx (by simp [hpush])
    resumes := fun u => by
      have hbefore := hs.resumes u
      simp only [hpush, reduceCtorEq, and_false, if_false] at hbefore
      exact (count_enqueue ..).trans (by simp [hbefore]) }

/-- Somebody schedules another task or the continuation of {lit}`done_`. -/
theorem Switching.enqueue (hs : Switching home s) (v : Fin n) {x : Task} (hx : x ≠ .resume) :
    Switching home (s.enqueue v x) :=
  { hs with
    resumes := fun u => (count_enqueue_of_ne s v u hx).trans (hs.resumes u) }

/-! ## The caller of join -/

/-- What is known at the program points of {lit}`join`. -/
def JoinKnows (home : Fin n) (s : State n) : JoinPc n → Prop
  | .notCalled | .dropped | .direct => s.continuation = false
  | .attach v => v = home ∧ s.worker home = .task ∧ s.pc = .suspended ∧ s.continuation = false
  | .moved => s.continuation = true ∧ s.doneCtx = some home
  | .checkin _ | .push _ | .inPlace _ | .release _ => False

/-- {lit}`join` finds the result, or the uthread waits while it attaches the continuation. -/
structure Joining (home : Fin n) (s : State n) : Prop where
  knows : JoinKnows home s s.join
  continues : s.pc = .checkin ∨ s.pc = .push → s.join = .moved
  found : s.join = .direct ∨ s.join = .dropped → s.pc = .left

theorem joining_initial (home : Fin n) : Joining home (State.initial home) where
  knows := rfl
  continues := by simp [State.initial]
  found := by simp [State.initial]

theorem Joining.moved_of_continuation (hj : Joining home s) (hcont : s.continuation = true) :
    s.join = .moved := by
  have hknows := hj.knows
  cases hjoin : s.join with
  | moved => rfl
  | notCalled | direct | dropped => simp [hjoin, JoinKnows, hcont] at hknows
  | attach v => simp [hjoin, JoinKnows, hcont] at hknows
  | checkin v | push v | inPlace v | release v => simp [hjoin, JoinKnows] at hknows

theorem Joining.of_attach (hj : Joining home s) {v : Fin n} (hjoin : s.join = .attach v) :
    v = home ∧ s.worker home = .task ∧ s.pc = .suspended := by
  have hknows := hj.knows
  rw [hjoin] at hknows
  exact ⟨hknows.1, hknows.2.1, hknows.2.2.1⟩

theorem Joining.of_moved (hj : Joining home s) (hjoin : s.join = .moved) :
    s.continuation = true ∧ s.doneCtx = some home := by
  have hknows := hj.knows
  rw [hjoin] at hknows
  exact hknows

/-- The other parties leave {lit}`join` alone. -/
theorem Joining.frame (hj : Joining home s) (hjoin : t.join = s.join)
    (hcont : t.continuation = s.continuation) (hctx : t.doneCtx = s.doneCtx)
    (hattach : ∀ v, s.join = .attach v → t.worker home = .task ∧ t.pc = .suspended)
    (hcontinues : t.pc = .checkin ∨ t.pc = .push → s.join = .moved)
    (hleft : s.pc = .left → t.pc = .left) : Joining home t where
  knows := by
    have hknows := hj.knows
    rw [hjoin]
    cases hcase : s.join with
    | attach v =>
        rw [hcase] at hknows
        exact ⟨hknows.1, (hattach v hcase).1, (hattach v hcase).2, hcont.trans hknows.2.2.2⟩
    | notCalled | direct | dropped =>
        rw [hcase] at hknows
        exact hcont.trans hknows
    | moved =>
        rw [hcase] at hknows
        exact ⟨hcont.trans hknows.1, hctx.trans hknows.2⟩
    | checkin v | push v | inPlace v | release v =>
        rw [hcase] at hknows
        exact hknows
  continues := fun h => hjoin.trans (hcontinues h)
  found := fun h => hleft (hj.found (hjoin ▸ h))

/-- A uthread that has not switched out leaves {lit}`join` alone. -/
theorem Joining.frame_of_onStack (hj : Joining home s) (hpc : s.pc.onStack = true)
    (hjoin : t.join = s.join) (hcont : t.continuation = s.continuation)
    (hctx : t.doneCtx = s.doneCtx)
    (hcontinues : t.pc = .checkin ∨ t.pc = .push → s.join = .moved) : Joining home t := by
  refine hj.frame hjoin hcont hctx (fun v hattach => ?_) hcontinues (fun hleft => ?_)
  · simp [(hj.of_attach hattach).2.2] at hpc
  · simp [hleft] at hpc

theorem Joining.uthreadStep (hj : Joining home s) (hstep : uthreadStep s = some t) :
    Joining home t := by
  unfold UthreadLife.uthreadStep at hstep
  split at hstep
  case h_2 hpc =>
    simp only [Option.some.injEq] at hstep
    subst hstep
    refine hj.frame_of_onStack (by simp [hpc]) rfl rfl rfl fun hnext => ?_
    cases hcont : s.continuation with
    | false => simp [hcont] at hnext
    | true => exact hj.moved_of_continuation hcont
  case h_3 hpc =>
    simp only [Option.some.injEq] at hstep
    subst hstep
    exact hj.frame_of_onStack (by simp [hpc]) rfl rfl rfl fun _ => hj.continues (.inl hpc)
  case h_4 hpc =>
    rcases Option.map_eq_some_iff.mp hstep with ⟨v, -, rfl⟩
    exact hj.frame_of_onStack (by simp [hpc]) rfl rfl rfl (by simp)
  case h_1 hpc | h_5 hpc | h_6 hpc | h_7 hpc =>
    simp only [Option.some.injEq] at hstep
    subst hstep
    exact hj.frame_of_onStack (by simp [hpc]) rfl rfl rfl (by simp)
  all_goals cases hstep

theorem Joining.joinStep (hj : Joining home s) (hs : Switching home s)
    (hstep : joinStep s = some t) : Joining home t := by
  have hknows := hj.knows
  unfold UthreadLife.joinStep at hstep
  split at hstep
  case h_1 v hjoin =>
    simp only [Option.some.injEq] at hstep
    subst hstep
    rcases hj.of_attach hjoin with ⟨rfl, -, hpc⟩
    -- the uthread waits, so that `done_` has no result
    have hresult : s.hasResult = false := hs.hasResult.trans (by simp [hpc])
    simp only [hresult, Bool.false_eq_true, if_false]
    exact ⟨⟨rfl, rfl⟩, by simp [hpc], by simp⟩
  case h_2 hjoin | h_3 hjoin | h_4 hjoin | h_5 hjoin => simp [hjoin, JoinKnows] at hknows
  all_goals cases hstep

theorem Joining.joinCall (hj : Joining home s) (hs : Switching home s)
    (hstep : joinCall s home = some t) : Joining home t := by
  unfold UthreadLife.joinCall at hstep
  split at hstep
  case isFalse => cases hstep
  case isTrue hcall =>
    rcases hcall with ⟨hjoin, -, htask⟩
    have hknows := hj.knows
    have hoff := hs.offStack_of_inTask htask
    have hresult := hs.hasResult
    rw [hjoin] at hknows
    split at hstep
    case isTrue hfound =>
      simp only [Option.some.injEq] at hstep
      subst hstep
      have hpc := hs.left_of_hasResult htask hfound
      exact ⟨hknows, by simp [hpc], fun _ => hpc⟩
    case isFalse hmissing =>
      simp only [Option.some.injEq] at hstep
      subst hstep
      have hpc : s.pc = .suspended := by
        rw [Bool.not_eq_true] at hmissing
        rw [hmissing] at hresult
        cases hcase : s.pc <;> simp [hcase] at hoff hresult ⊢
      have hworker : s.worker home = .task := by
        simp only [State.inTask, Bool.and_eq_true, decide_eq_true_eq] at htask
        exact htask.1
      exact ⟨⟨rfl, hworker, hpc, hknows⟩, by simp [hpc], by simp⟩

/-- A worker that is not inside {lit}`join` can go on as it likes. -/
theorem Joining.setWorker (hj : Joining home s) {v : Fin n} (pc : WorkerPc)
    (hfree : s.worker v ≠ .task ∨ s.join.worker ≠ some v) : Joining home (s.setWorker v pc) := by
  refine hj.frame rfl rfl rfl (fun w hattach => ?_) hj.continues id
  rcases hj.of_attach hattach with ⟨rfl, hworker, hpc⟩
  have hv : v ≠ w := by
    rintro rfl
    rcases hfree with hfree | hfree
    · exact hfree hworker
    · exact hfree (by simp [hattach, JoinPc.worker])
  exact ⟨(Function.update_of_ne (Ne.symm hv) ..).trans hworker, hpc⟩

theorem Joining.popStep (hj : Joining home s) (hs : Switching home s) {v : Fin n}
    (hstep : popStep s v = some t) : Joining home t := by
  unfold UthreadLife.popStep at hstep
  split at hstep
  case isFalse => cases hstep
  case isTrue hloop =>
    have hnext := fun pc => hj.setWorker (v := v) pc (.inl (by simp [hloop]))
    split at hstep
    case h_1 => cases hstep
    case h_2 rest hqueue | h_4 rest hqueue =>
      simp only [Option.some.injEq] at hstep
      subst hstep
      exact { hnext _ with }
    case h_3 rest hqueue =>
      rcases hs.resume_mem (hqueue ▸ List.mem_cons_self) with ⟨rfl, -⟩
      split at hstep
      case isFalse => cases hstep
      case isTrue hpc =>
        simp only [Option.some.injEq] at hstep
        subst hstep
        refine hj.frame rfl rfl rfl (fun w hattach => ?_) (by simp) (by simp [hpc])
        simp [(hj.of_attach hattach).2.1] at hloop

theorem Joining.taskStep (hj : Joining home s) {v : Fin n} (hstep : taskStep s v = some t) :
    Joining home t := by
  unfold UthreadLife.taskStep at hstep
  split at hstep
  case h_1 =>
    split at hstep
    case isFalse => cases hstep
    case isTrue hfree =>
      simp only [Option.some.injEq] at hstep
      subst hstep
      exact hj.setWorker .loop (.inr hfree.2)
  case h_2 hworker | h_3 hworker =>
    simp only [Option.some.injEq] at hstep
    subst hstep
    have hnext := fun pc => hj.setWorker (v := v) pc (.inl (by simp [hworker]))
    exact { hnext _ with }
  all_goals cases hstep

theorem Joining.drop (hj : Joining home s) (hjoin : s.join = .direct) :
    Joining home { s with destroyed := s.destroyed + 1, join := .dropped } := by
  have hknows := hj.knows
  have hpc := hj.found (.inl hjoin)
  rw [hjoin] at hknows
  exact ⟨hknows, by simp [hpc], fun _ => hpc⟩

/-! ## The continuation of the promise -/

/-- Who is to run the callback and to destroy the uthread. -/
inductive Custody where
  | nobody
  | queued
  | callback
  | release
  | finished
  /-- the caller of {lit}`join`, which has found the result -/
  | direct
  | dropped
deriving DecidableEq

/-- How often the callback was run. -/
@[simp]
def Custody.callbacks : Custody → Nat
  | .nobody | .queued | .callback => 0
  | .release | .finished | .direct | .dropped => 1

@[simp]
def Custody.destroyed : Custody → Nat
  | .nobody | .queued | .callback | .release | .direct => 0
  | .finished | .dropped => 1

/-- The uthread has scheduled the continuation of {lit}`done_`. -/
@[simp]
def Custody.scheduled : Custody → Bool
  | .queued | .callback | .release | .finished => true
  | .nobody | .direct | .dropped => false

/-- The continuation is in one place, and the worker comes to it after the uthread has left its
stack. -/
structure Holds (home : Fin n) (c : Custody) (s : State n) : Prop where
  queued : ∀ v, (s.queue v).count .done = if v = home ∧ c = .queued then 1 else 0
  callback : ∀ v, s.worker v = .callback ↔ v = home ∧ c = .callback
  release : ∀ v, s.worker v = .release ↔ v = home ∧ c = .release
  callbacks : s.callbacks = c.callbacks
  destroyed : s.destroyed = c.destroyed
  direct : c = .direct ↔ s.join = .direct
  dropped : c = .dropped ↔ s.join = .dropped
  scheduled : c.scheduled = true ↔ s.join = .moved ∧ (s.pc = .switchOut ∨ s.pc = .left)
  taken : c ≠ .nobody → c ≠ .queued → s.pc = .left
  gone : s.worker home = .left → c ≠ .queued

theorem holds_initial (home : Fin n) : Holds home .nobody (State.initial home) where
  queued := fun v => by simp [State.initial]
  callback := fun v => by by_cases hv : v = home <;> simp [State.initial, hv]
  release := fun v => by by_cases hv : v = home <;> simp [State.initial, hv]
  callbacks := rfl
  destroyed := rfl
  direct := by simp [State.initial]
  dropped := by simp [State.initial]
  scheduled := by simp [State.initial]
  taken := fun h => absurd rfl h
  gone := by simp [State.initial]

variable {c : Custody}

/-- Nobody has the continuation before {lit}`join` finds the result or the uthread ends. -/
theorem Holds.nobody (hh : Holds home c s) (hdirect : s.join ≠ .direct)
    (hdropped : s.join ≠ .dropped)
    (hscheduled : s.join = .moved → s.pc ≠ .switchOut ∧ s.pc ≠ .left) : c = .nobody := by
  have hnot : c.scheduled ≠ true := fun h => by
    rcases hh.scheduled.mp h with ⟨hmoved, hpc | hpc⟩
    · exact (hscheduled hmoved).1 hpc
    · exact (hscheduled hmoved).2 hpc
  cases c with
  | nobody => rfl
  | queued | callback | release | finished => exact absurd rfl hnot
  | direct => exact absurd (hh.direct.mp rfl) hdirect
  | dropped => exact absurd (hh.dropped.mp rfl) hdropped

theorem Holds.done_mem (hh : Holds home c s) {v : Fin n} (hmem : .done ∈ s.queue v) :
    v = home ∧ c = .queued := by
  have hcount := hh.queued v
  have hpos := List.count_pos_iff.mpr hmem
  by_contra hnot
  rw [if_neg hnot] at hcount
  omega

/-- Before its end the uthread leaves the continuation alone. -/
theorem Holds.frame_of_pc (hh : Holds home c s) (pc : Pc)
    (hbefore : s.pc ≠ .switchOut ∧ s.pc ≠ .left) (hafter : pc ≠ .switchOut ∧ pc ≠ .left) :
    Holds home c { s with pc := pc } :=
  { hh with
    scheduled := hh.scheduled.trans (by simp [hbefore, hafter])
    taken := fun h h' => absurd (hh.taken h h') hbefore.2 }

/-- A worker takes another task, or comes back from one. -/
theorem Holds.setWorker (hh : Holds home c s) {v : Fin n} {pc : WorkerPc}
    (hbefore : s.worker v ≠ .callback ∧ s.worker v ≠ .release)
    (hafter : pc ≠ .callback ∧ pc ≠ .release)
    (hgone : pc = .left → v = home → c ≠ .queued) : Holds home c (s.setWorker v pc) :=
  { hh with
    callback := fun u => by
      by_cases hu : u = v
      · subst hu
        have hold := hh.callback u
        simp only [State.setWorker, Function.update_self, hafter.1, false_iff]
        exact fun h => hbefore.1 (hold.mpr h)
      · simp only [State.setWorker, Function.update_of_ne hu]
        exact hh.callback u
    release := fun u => by
      by_cases hu : u = v
      · subst hu
        have hold := hh.release u
        simp only [State.setWorker, Function.update_self, hafter.2, false_iff]
        exact fun h => hbefore.2 (hold.mpr h)
      · simp only [State.setWorker, Function.update_of_ne hu]
        exact hh.release u
    gone := fun h => by
      by_cases hv : home = v
      · subst hv
        exact hgone ((Function.update_self ..).symm.trans h) rfl
      · exact hh.gone ((Function.update_of_ne hv ..).symm.trans h) }

theorem Holds.uthreadStep (hh : Holds home c s) (hs : Switching home s) (hj : Joining home s)
    (hok : accepted home s .uthread = true) (hstep : uthreadStep s = some t) :
    ∃ c', Holds home c' t := by
  have hscheduled := hs.scheduled
  unfold UthreadLife.uthreadStep at hstep
  split at hstep
  case h_1 hpc =>
    simp only [Option.some.injEq] at hstep
    subst hstep
    have hnext := hh.frame_of_pc .suspended (by simp [hpc]) (by simp)
    exact ⟨c, { hnext with }⟩
  case h_2 hpc =>
    simp only [Option.some.injEq] at hstep
    subst hstep
    cases hcont : s.continuation with
    | true =>
        have hnext := hh.frame_of_pc .checkin (by simp [hpc]) (by simp)
        exact ⟨c, { hnext with }⟩
    | false =>
        -- nobody has joined the uthread
        have hmoved : s.join ≠ .moved := fun hjoin => by
          simp [(hj.of_moved hjoin).1] at hcont
        exact ⟨c, { hh with
          scheduled := hh.scheduled.trans (by simp [hmoved])
          taken := fun h h' => by simpa [hpc] using hh.taken h h' }⟩
  case h_3 hpc =>
    have hstop : s.stop = false := by simpa [accepted, hpc] using hok
    simp only [hstop, Option.some.injEq] at hstep
    subst hstep
    have hnext := hh.frame_of_pc .push (by simp [hpc]) (by simp)
    exact ⟨c, { hnext with }⟩
  case h_4 hpc =>
    have hjoin := hj.continues (.inr hpc)
    have hc := hh.nobody (by simp [hjoin]) (by simp [hjoin]) (by simp [hpc])
    subst hc
    simp only [(hj.of_moved hjoin).2, Option.map_some, Option.some.injEq] at hstep
    subst hstep
    refine ⟨.queued, { hh with
      queued := fun v => ?_
      callback := fun v => (hh.callback v).trans (by simp)
      release := fun v => (hh.release v).trans (by simp)
      direct := ?_
      dropped := ?_
      scheduled := ?_
      taken := fun _ h => absurd rfl h
      gone := fun h => ?_ }⟩
    · exact (count_enqueue ..).trans (by simp [hh.queued v])
    · simp [State.enqueue, State.setQueue, hjoin]
    · simp [State.enqueue, State.setQueue, hjoin]
    · simp [State.enqueue, State.setQueue, hjoin]
    · have htask := hs.inTask (by simp [hpc])
      simp [State.enqueue, State.setQueue, htask] at h
  case h_5 hpc | h_6 hpc => simp [hpc] at hscheduled
  case h_7 hpc =>
    simp only [Option.some.injEq] at hstep
    subst hstep
    exact ⟨c, { hh with
      scheduled := hh.scheduled.trans (by simp [hpc])
      taken := fun _ _ => rfl }⟩
  all_goals cases hstep

/-- The worker of the uthread has the continuation and goes on with it. -/
theorem Holds.handOn (hh : Holds home c s) (pc : WorkerPc) (c' : Custody)
    {queue : Fin n → List Task} (hc : c.scheduled = true) (hc' : c'.scheduled = true)
    (hqueued : c' ≠ .queued) (hleft : s.pc = .left) (hqueue : ∀ u, (queue u).count .done = 0)
    (hcallback : pc = .callback ↔ c' = .callback) (hrelease : pc = .release ↔ c' = .release) :
    Holds home c' { s.setWorker home pc with
      queue := queue, callbacks := c'.callbacks, destroyed := c'.destroyed } where
  queued := fun u => (hqueue u).trans (by simp [hqueued])
  callback := fun u => by
    by_cases hu : u = home
    · simp [State.setWorker, hu, hcallback]
    · have hold := hh.callback u
      simpa [State.setWorker, hu] using hold
  release := fun u => by
    by_cases hu : u = home
    · simp [State.setWorker, hu, hrelease]
    · have hold := hh.release u
      simpa [State.setWorker, hu] using hold
  callbacks := rfl
  destroyed := rfl
  direct := by
    have hmoved := (hh.scheduled.mp hc).1
    constructor
    · rintro rfl
      simp at hc'
    · simp [State.setWorker, hmoved]
  dropped := by
    have hmoved := (hh.scheduled.mp hc).1
    constructor
    · rintro rfl
      simp at hc'
    · simp [State.setWorker, hmoved]
  scheduled := ⟨fun _ => hh.scheduled.mp hc, fun _ => hc'⟩
  taken := fun _ _ => hleft
  gone := fun _ => hqueued

theorem Holds.popStep (hh : Holds home c s) (hs : Switching home s) {v : Fin n}
    (hstep : popStep s v = some t) : ∃ c', Holds home c' t := by
  unfold UthreadLife.popStep at hstep
  split at hstep
  case isFalse => cases hstep
  case isTrue hloop =>
    have hnext : Holds home c (s.setWorker v .task) :=
      hh.setWorker (by simp [hloop]) (by simp) (by simp)
    split at hstep
    case h_1 => cases hstep
    case h_2 rest hqueue =>
      simp only [Option.some.injEq] at hstep
      subst hstep
      exact ⟨c, { hnext with
        queued := fun u => (count_pop_of_ne hqueue (by decide) u).trans (hh.queued u) }⟩
    case h_3 rest hqueue =>
      split at hstep
      case isFalse => cases hstep
      case isTrue hpc =>
        simp only [Option.some.injEq] at hstep
        subst hstep
        have hbody := hnext.frame_of_pc .body (by simp [State.setWorker, hpc]) (by simp)
        exact ⟨c, { hbody with
          queued := fun u => (count_pop_of_ne hqueue (by decide) u).trans (hh.queued u) }⟩
    case h_4 rest hqueue =>
      simp only [Option.some.injEq] at hstep
      subst hstep
      rcases hh.done_mem (hqueue ▸ List.mem_cons_self) with ⟨rfl, rfl⟩
      -- the worker has left the uthread before it takes the continuation
      have hscheduled := hh.scheduled.mp rfl
      have hoff := hs.offStack (by simp [hloop])
      have hleft : s.pc = .left := by
        rcases hscheduled.2 with hpc | hpc
        · simp [hpc] at hoff
        · exact hpc
      have hrest : ∀ u, ((s.setQueue v rest).queue u).count .done = 0 := fun u => by
        have hcount := count_pop hqueue u .done
        have hbefore := hh.queued u
        simp only [and_true] at hcount hbefore
        omega
      have hnext := hh.handOn .callback .callback rfl rfl (by simp) hleft hrest
        (by simp) (by simp)
      exact ⟨.callback, { hnext with
        callbacks := hh.callbacks
        destroyed := hh.destroyed }⟩

theorem Holds.taskStep (hh : Holds home c s) {v : Fin n} (hstep : taskStep s v = some t) :
    ∃ c', Holds home c' t := by
  unfold UthreadLife.taskStep at hstep
  split at hstep
  case h_1 hworker =>
    split at hstep
    case isFalse => cases hstep
    case isTrue =>
      simp only [Option.some.injEq] at hstep
      subst hstep
      exact ⟨c, hh.setWorker (by simp [hworker]) (by simp) (by simp)⟩
  case h_2 hworker =>
    simp only [Option.some.injEq] at hstep
    subst hstep
    rcases (hh.callback v).mp hworker with ⟨rfl, rfl⟩
    have hleft := hh.taken (by simp) (by simp)
    have hqueue : ∀ u, (s.queue u).count .done = 0 := fun u => by simp [hh.queued u]
    have hnext := hh.handOn .release .release rfl rfl (by simp) hleft hqueue
      (by simp) (by simp)
    exact ⟨.release, { hnext with
      callbacks := congrArg (· + 1) hh.callbacks
      destroyed := hh.destroyed }⟩
  case h_3 hworker =>
    simp only [Option.some.injEq] at hstep
    subst hstep
    rcases (hh.release v).mp hworker with ⟨rfl, rfl⟩
    have hleft := hh.taken (by simp) (by simp)
    have hqueue : ∀ u, (s.queue u).count .done = 0 := fun u => by simp [hh.queued u]
    have hnext := hh.handOn .loop .finished rfl rfl (by simp) hleft hqueue
      (by simp) (by simp)
    exact ⟨.finished, { hnext with
      callbacks := hh.callbacks
      destroyed := congrArg (· + 1) hh.destroyed }⟩
  all_goals cases hstep

theorem Holds.joinCall (hh : Holds home c s) (hs : Switching home s)
    (hstep : joinCall s home = some t) : ∃ c', Holds home c' t := by
  unfold UthreadLife.joinCall at hstep
  split at hstep
  case isFalse => cases hstep
  case isTrue hcall =>
    have hjoin := hcall.1
    have hc := hh.nobody (by simp [hjoin]) (by simp [hjoin]) (by simp [hjoin])
    subst hc
    split at hstep
    case isTrue hfound =>
      simp only [Option.some.injEq] at hstep
      subst hstep
      have hpc := hs.left_of_hasResult hcall.2.2 hfound
      exact ⟨.direct, { hh with
        queued := fun v => (hh.queued v).trans (by simp)
        callback := fun v => (hh.callback v).trans (by simp)
        release := fun v => (hh.release v).trans (by simp)
        callbacks := congrArg (· + 1) hh.callbacks
        direct := by simp
        dropped := by simp
        scheduled := by simp
        taken := fun _ _ => hpc
        gone := by simp }⟩
    case isFalse =>
      simp only [Option.some.injEq] at hstep
      subst hstep
      exact ⟨.nobody, { hh with
        direct := by simp
        dropped := by simp
        scheduled := by simp }⟩

theorem Holds.joinStep (hh : Holds home c s) (hs : Switching home s) (hj : Joining home s)
    (hstep : joinStep s = some t) : ∃ c', Holds home c' t := by
  have hknows := hj.knows
  unfold UthreadLife.joinStep at hstep
  split at hstep
  case h_1 v hjoin =>
    simp only [Option.some.injEq] at hstep
    subst hstep
    have hpc := (hj.of_attach hjoin).2.2
    have hc := hh.nobody (by simp [hjoin]) (by simp [hjoin]) (by simp [hpc])
    subst hc
    have hresult : s.hasResult = false := hs.hasResult.trans (by simp [hpc])
    exact ⟨.nobody, { hh with
      direct := by simp [hresult]
      dropped := by simp [hresult]
      scheduled := by simp [hpc] }⟩
  case h_2 hjoin | h_3 hjoin | h_4 hjoin | h_5 hjoin => simp [hjoin, JoinKnows] at hknows
  all_goals cases hstep

theorem Holds.drop (hh : Holds home c s) (hj : Joining home s) (hjoin : s.join = .direct) :
    ∃ c', Holds home c' { s with destroyed := s.destroyed + 1, join := .dropped } := by
  have hc := hh.direct.mpr hjoin
  subst hc
  exact ⟨.dropped, { hh with
    queued := fun v => (hh.queued v).trans (by simp)
    callback := fun v => (hh.callback v).trans (by simp)
    release := fun v => (hh.release v).trans (by simp)
    destroyed := congrArg (· + 1) hh.destroyed
    direct := by simp
    dropped := by simp
    scheduled := by simp
    taken := fun _ _ => hj.found (.inl hjoin)
    gone := by simp }⟩

/-- Somebody schedules another task or {lit}`switch_in`. -/
theorem Holds.enqueue (hh : Holds home c s) (v : Fin n) {x : Task} (hx : x ≠ .done) :
    Holds home c (s.enqueue v x) :=
  { hh with
    queued := fun u => (count_enqueue_of_ne s v u hx).trans (hh.queued u) }

/-- A worker leaves when its queue is empty. -/
theorem Holds.leave (hh : Holds home c s) {v : Fin n} (hloop : s.worker v = .loop)
    (hempty : s.queue v = []) : Holds home c (s.setWorker v .left) := by
  refine hh.setWorker (by simp [hloop]) (by simp) fun _ hv hc => ?_
  have hcount := hh.queued v
  rw [hempty] at hcount
  simp [hv, hc] at hcount

/-! ## The lifetime -/

/-- Who executes the uthread, what {lit}`join` has done, and where the continuation is. -/
structure Inv (home : Fin n) (s : State n) : Prop where
  switching : Switching home s
  joining : Joining home s
  holds : ∃ c, Holds home c s

theorem Inv.initial (home : Fin n) : Inv home (State.initial home) :=
  ⟨switching_initial home, joining_initial home, .nobody, holds_initial home⟩

/-- One worker executes the uthread, {lit}`join` is called on this worker, and the continuation is
handed on from one to the next. -/
theorem Inv.step (hinv : Inv home s) (hok : accepted home s l = true)
    (hstep : step s l = some t) : Inv home t := by
  rcases hinv with ⟨hs, hj, c, hh⟩
  cases l with
  | await =>
      simp only [UthreadLife.step] at hstep
      split at hstep
      case h_2 => cases hstep
      case h_1 v hpc hon =>
        simp only [Option.some.injEq] at hstep
        subst hstep
        have hbody := hh.frame_of_pc .attached (by simp [hpc]) (by simp)
        exact ⟨hs.await hpc hon, hj.frame_of_onStack (by simp [hpc]) rfl rfl rfl (by simp), c,
          { hbody with }⟩
  | ends =>
      simp only [UthreadLife.step] at hstep
      split at hstep
      case isFalse => cases hstep
      case isTrue hpc =>
        simp only [Option.some.injEq] at hstep
        subst hstep
        have hbody := hh.frame_of_pc .ended (by simp [hpc]) (by simp)
        exact ⟨hs.ends hpc, hj.frame_of_onStack (by simp [hpc]) rfl rfl rfl (by simp), c,
          { hbody with }⟩
  | uthread =>
      exact ⟨hs.uthreadStep hok hstep, hj.uthreadStep hstep, hh.uthreadStep hs hj hok hstep⟩
  | fulfil p =>
      have hstop : s.stop = false := by simpa [accepted] using hok
      simp only [UthreadLife.step, fulfilStep] at hstep
      split at hstep
      case isFalse => cases hstep
      case isTrue harmed =>
        rw [if_neg (by simp [hstop]), Option.some.injEq] at hstep
        subst hstep
        exact ⟨hs.fulfil harmed.1, { hj with }, c, { hh with }⟩
  | pushResume =>
      simp only [UthreadLife.step] at hstep
      split at hstep
      case isFalse => cases hstep
      case isTrue hpush =>
        have hctx := hs.ctx (by simp [hpush])
        simp only [hctx, Option.map_some, Option.some.injEq] at hstep
        subst hstep
        have hqueue := hh.enqueue home (x := .resume) (by simp)
        exact ⟨hs.pushResume hpush, { hj with }, c, { hqueue with }⟩
  | join v =>
      have hv : v = home := by simpa [accepted] using hok
      subst hv
      exact ⟨hs.joinCall hstep, hj.joinCall hs hstep, hh.joinCall hs hstep⟩
  | joiner => exact ⟨hs.joinStep hstep, hj.joinStep hs hstep, hh.joinStep hs hj hstep⟩
  | drop =>
      simp only [UthreadLife.step] at hstep
      split at hstep
      case isFalse => cases hstep
      case isTrue hjoin =>
        simp only [Option.some.injEq] at hstep
        subst hstep
        exact ⟨{ hs with }, hj.drop hjoin, hh.drop hj hjoin⟩
  | schedule v =>
      simp only [UthreadLife.step, Option.some.injEq] at hstep
      subst hstep
      exact ⟨hs.enqueue v (by simp), { hj with }, c, hh.enqueue v (by simp)⟩
  | pop v => exact ⟨hs.popStep hstep, hj.popStep hs hstep, hh.popStep hs hstep⟩
  | task v => exact ⟨hs.taskStep hstep, hj.taskStep hstep, hh.taskStep hstep⟩
  | stop =>
      simp only [UthreadLife.step, Option.some.injEq] at hstep
      subst hstep
      exact ⟨{ hs with }, { hj with }, c, { hh with }⟩
  | stopQueue v =>
      simp only [UthreadLife.step] at hstep
      split at hstep <;> simp only [Option.some.injEq, reduceCtorEq] at hstep
      subst hstep
      exact ⟨{ hs with }, { hj with }, c, { hh with }⟩
  | leave v =>
      simp only [UthreadLife.step] at hstep
      split at hstep
      case isFalse => cases hstep
      case isTrue hleave =>
        simp only [Option.some.injEq] at hstep
        subst hstep
        have hnotTask : s.worker v ≠ .task := by simp [hleave.1]
        exact ⟨hs.setWorker .left fun hv => hs.offStack (hv ▸ hnotTask),
          hj.setWorker .left (.inl hnotTask), c, hh.leave hleave.1 hleave.2.1⟩

/-- The worker of a uthread that has ended goes home with nothing left to do. -/
theorem Inv.finished (hs : Switching home s) (hh : Holds home c s) (hmoved : s.join = .moved)
    (hended : s.ended = true) (hworker : s.worker home = .left) : c = .finished := by
  have hoff := hs.offStack (by simp [hworker])
  have hover := hs.ended.symm.trans hended
  have hleft : s.pc = .left := by
    cases hpc : s.pc <;> simp [hpc] at hoff hover ⊢
  have hscheduled := hh.scheduled.mpr ⟨hmoved, .inr hleft⟩
  cases c with
  | finished => rfl
  | nobody | direct | dropped => simp at hscheduled
  | queued => exact absurd rfl (hh.gone hworker)
  | callback =>
      have hcallback := (hh.callback home).mpr ⟨rfl, rfl⟩
      simp [hworker] at hcallback
  | release =>
      have hrelease := (hh.release home).mpr ⟨rfl, rfl⟩
      simp [hworker] at hrelease

theorem Inv.lifetime (hinv : Inv home s) : Lifetime home s := by
  rcases hinv with ⟨hs, hj, c, hh⟩
  have hleft : 0 < c.callbacks ∨ 0 < c.destroyed → s.pc = .left := fun h =>
    hh.taken (by rintro rfl; simp at h) (by rintro rfl; simp at h)
  constructor
  case callback =>
    rw [hh.callbacks]
    cases c <;> simp
  case afterEnd =>
    intro hpos
    rw [hs.ended, hleft (.inl (hh.callbacks ▸ hpos))]
    rfl
  case destroyed =>
    rw [hh.destroyed]
    cases c <;> simp
  case afterSwitchOut => exact fun hpos => hleft (.inr (hh.destroyed ▸ hpos))
  case complete =>
    intro hcase
    have hc : c = .finished ∨ c = .dropped := by
      rcases hcase with ⟨hmoved, hended, hworker⟩ | hdropped
      · exact .inl (Inv.finished hs hh hmoved hended hworker)
      · exact .inr (hh.dropped.mpr hdropped)
    rcases hc with rfl | rfl
    · exact ⟨hh.callbacks, hh.destroyed⟩
    · exact ⟨hh.callbacks, hh.destroyed⟩

/-- A uthread that awaits once and is joined in the meantime. -/
def awaitedRun (w : Fin n) (p : Place n) : List (Label n) :=
  [.await, .uthread, .join w, .joiner, .task w, .fulfil p, .pushResume, .pop w, .ends, .uthread]

/-- The pool stops before the uthread ends; the uthread then runs the callback itself and
destroys the stack it runs on. -/
def stoppedRun (w : Fin n) (p : Place n) : List (Label n) :=
  awaitedRun w p ++ [.stop, .uthread, .uthread, .uthread]

/-- Another worker joins the uthread, and has run the continuation before the uthread switches
out. -/
def elsewhereRun (w v : Fin n) (p : Place n) : List (Label n) :=
  [.await, .uthread, .schedule v, .pop v, .join v, .joiner, .task v, .task w, .fulfil p,
    .pushResume, .pop w, .ends, .uthread, .uthread, .uthread, .pop v, .task v, .task v]

/-- The pool stops during the await, and a thread outside of the pool goes on with the uthread.
The worker finds the result and destroys the uthread. -/
def movedRun (w : Fin n) (p : Place n) : List (Label n) :=
  [.await, .uthread, .stop, .fulfil p, .ends, .uthread, .join w, .drop]

end UthreadLife

end AsyncSimple
