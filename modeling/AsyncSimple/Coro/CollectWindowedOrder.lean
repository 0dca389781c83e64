import Mathlib.Algebra.GroupWithZero.Nat
import Mathlib.Data.List.FinRange
import Mathlib.Data.List.Perm.Basic
import AsyncSimple.Coro.CollectWindowed

/-!
# One batch after the other

The awaiter of every batch keeps the invariant of {lit}`collectAll`.  The coroutine forms a new
batch only after the newest one has resumed it, and all tasks of a batch have counted down then;
so only tasks of the newest batch are active, and there are at most {lit}`maxConcurrency` of
them.

Main results:

- Theorem {lit}`Batch.Sound.step`: what a step of an awaiter keeps.
- Theorem {lit}`Inv.step`: the invariant of the coroutine is kept by every step.
- Theorem {lit}`Inv.step_remaining`: every step decreases the work that is left.
- Theorem {lit}`collectAllWindowed_collects`: every run keeps the promise, and comes to the
  result of {lit}`collectAll`.
-/

namespace AsyncSimple

open Transition

namespace CollectAll

variable {n : Nat} {ε : Type} {α : Fin n → Type} {cfg : Config n ε α} {s s' : State n ε α}

/-! ## What a step does to the tasks -/

/-- {lit}`start` has been called for the task. -/
def TaskPc.launched : TaskPc → Bool
  | .unstarted | .scheduled => false
  | _ => true

/-- The loop starts the task that it has come to, or hands it to its executor. -/
theorem mainStep_task (hstep : mainStep cfg s = some s') :
    s'.resumes = s.resumes ∧
      ((∀ i, s.main ≠ .launch i) ∧ s'.task = s.task ∨
        ∃ i pc, s.main = .launch i ∧ (pc = .scheduled ∨ pc = .running) ∧
          s'.task = Function.update s.task i pc) := by
  unfold mainStep at hstep
  split at hstep
  · next hmain =>
      cases hstep
      exact ⟨rfl, .inl ⟨by simp [hmain], rfl⟩⟩
  · next hmain =>
      cases hstep
      exact ⟨rfl, .inl ⟨by simp [hmain], rfl⟩⟩
  · next k hmain =>
      split at hstep
      · cases hstep
        exact ⟨rfl, .inl ⟨by simp [hmain], rfl⟩⟩
      · cases hstep
        exact ⟨rfl, .inl ⟨by simp [hmain], rfl⟩⟩
  · next i hmain =>
      cases hstep
      refine ⟨rfl, .inr ⟨i, _, hmain, ?_, rfl⟩⟩
      split
      · exact .inl rfl
      · exact .inr rfl
  · cases hstep

/-- A task goes on, and is started then. -/
theorem taskStep_task {i : Fin n} (hstep : taskStep cfg s i = some s') :
    s.resumes <+: s'.resumes ∧ s.task i ≠ .unstarted ∧
      ∃ pc, pc.launched = true ∧ s'.task = Function.update s.task i pc := by
  unfold taskStep at hstep
  split at hstep
  case h_1 | h_2 => cases hstep
  case h_10 hi =>
    split at hstep
    · cases hstep
      exact ⟨List.prefix_append _ _, by simp [hi], _, rfl, rfl⟩
    · cases hstep
      exact ⟨List.prefix_rfl, by simp [hi], _, rfl, rfl⟩
  case h_8 hi =>
    cases hstep
    split
    · exact ⟨List.prefix_rfl, by simp [hi], _, rfl, rfl⟩
    · exact ⟨List.prefix_rfl, by simp [hi], _, rfl, rfl⟩
  all_goals
    rename_i hi
    cases hstep
    exact ⟨List.prefix_rfl, by simp [hi], _, rfl, rfl⟩

end CollectAll

namespace CollectWindowed

variable {ε α : Type} {cfg : Config ε α}

/-! ## One batch -/

namespace Batch

/-- The coroutine has been resumed by this batch. -/
def Resumed (B : Batch ε α) : Prop :=
  B.awaiter.resumes ≠ []

/-- The awaiter is in order, and the record holds the tasks that were started. -/
structure Sound (cfg : Config ε α) (B : Batch ε α) : Prop where
  nonempty : B.tasks ≠ []
  inv : CollectAll.Inv (cfg.group B.tasks) B.awaiter
  starts : Logged B.starts fun i => (B.awaiter.task i).launched = true

/-- The places of the tasks of a batch. -/
theorem ofFn_places (B : Batch ε α) :
    List.ofFn (fun i => (B.tasks.get i).2) = B.tasks.map Prod.snd := by
  conv_rhs => rw [← List.ofFn_get B.tasks, List.map_ofFn]
  rfl

/-- A step of the awaiter leaves the tasks of the batch alone. -/
theorem tasks_of_step {B B' : Batch ε α} {l : CollectAll.Label B.tasks.length}
    (hstep : B.step cfg l = some B') : B'.tasks = B.tasks := by
  unfold Batch.step at hstep
  split at hstep
  · cases hstep
  · rcases Option.map_eq_some_iff.mp hstep with ⟨awaiter, -, rfl⟩
    rfl

namespace Sound

variable {B B' : Batch ε α}

theorem create {tasks : List (Task ε α × Nat)} (htasks : tasks ≠ []) :
    Sound cfg (Batch.create cfg tasks) where
  nonempty := htasks
  inv := CollectAll.Inv.initial _
  starts := ⟨List.nodup_nil, fun _ => iff_of_false List.not_mem_nil Bool.false_ne_true⟩

/-- The record grows with the tasks that a step starts. -/
theorem starts_step (h : Sound cfg B) {l : CollectAll.Label B.tasks.length}
    {awaiter : CollectAll.State B.tasks.length ε fun _ => α}
    (hstep : CollectAll.step (cfg.group B.tasks) B.awaiter l = some awaiter) :
    Logged (B.starts ++ B.startedBy awaiter l) fun i =>
      (awaiter.task i).launched = true := by
  cases l with
  | main =>
      rcases (CollectAll.mainStep_task hstep).2 with ⟨hmain, htask⟩ | ⟨i, pc, hmain, hpc, htask⟩
      · have hnone : B.startedBy awaiter .main = [] := by
          cases hpc : B.awaiter.main with
          | launch i => exact absurd hpc (hmain i)
          | _ => simp only [startedBy, hpc]
        rw [hnone, List.append_nil, htask]
        exact h.starts
      · have hbefore : B.awaiter.task i = .unstarted :=
          (h.inv.unstarted i).mpr (by rw [hmain]; exact Nat.le_refl _)
        have hfresh : ¬ (B.awaiter.task i).launched = true := by
          rw [hbefore]
          exact Bool.false_ne_true
        simp only [startedBy, hmain, htask, Function.update_self]
        rcases hpc with rfl | rfl
        · rw [if_neg nofun, List.append_nil]
          refine h.starts.congr fun j => ?_
          by_cases hj : j = i
          · subst hj
            rw [Function.update_self, hbefore]
            exact Iff.rfl
          · rw [Function.update_of_ne hj]
        · rw [if_pos rfl]
          refine h.starts.append hfresh fun j => ?_
          by_cases hj : j = i
          · subst hj
            simp [CollectAll.TaskPc.launched]
          · simp [hj]
  | task i =>
      rcases (CollectAll.taskStep_task hstep).2 with ⟨hstarted, pc, hpc, htask⟩
      simp only [startedBy, htask]
      by_cases hscheduled : B.awaiter.task i = .scheduled
      · rw [if_pos hscheduled]
        refine h.starts.append (by simp [hscheduled, CollectAll.TaskPc.launched]) fun j => ?_
        by_cases hj : j = i
        · subst hj
          simp [hpc]
        · simp [hj]
      · rw [if_neg hscheduled, List.append_nil]
        refine h.starts.congr fun j => ?_
        by_cases hj : j = i
        · subst hj
          have hlaunched : (B.awaiter.task j).launched = true := by
            cases hpc' : B.awaiter.task j with
            | unstarted => exact absurd hpc' hstarted
            | scheduled => exact absurd hpc' hscheduled
            | _ => rfl
          rw [Function.update_self, hlaunched, hpc]
        · rw [Function.update_of_ne hj]

/-- A step of the awaiter. -/
theorem step (h : Sound cfg B) {l : CollectAll.Label B.tasks.length}
    (hstep : B.step cfg l = some B') :
    B'.tasks = B.tasks ∧ Sound cfg B' ∧ (B.Resumed → B'.Resumed) ∧
      B'.awaiter.remaining < B.awaiter.remaining := by
  rw [Batch.step, if_neg h.nonempty, Option.map_eq_some_iff] at hstep
  rcases hstep with ⟨awaiter, hstep, rfl⟩
  refine ⟨rfl, ⟨h.nonempty, h.inv.step hstep, h.starts_step hstep⟩, fun hresumed hnil => ?_,
    h.inv.step_remaining hstep⟩
  have hprefix : B.awaiter.resumes <+: awaiter.resumes := by
    cases l with
    | main =>
        rw [(CollectAll.mainStep_task hstep).1]
    | task i => exact (CollectAll.taskStep_task hstep).1
  simp only at hnil
  rw [hnil, List.prefix_nil] at hprefix
  exact hresumed hprefix

theorem oldCount_of_resumed (h : Sound cfg B) (hresumed : B.Resumed) (i : Fin B.tasks.length) :
    (B.awaiter.task i).oldCount.isSome = true := by
  rcases h.inv.exists_oldCount_of_resumes hresumed i with ⟨o, ho⟩
  rw [ho]
  rfl

/-- No task of a batch is active after the resume. -/
theorem active_of_resumed (h : Sound cfg B) (hresumed : B.Resumed) : B.active = [] := by
  simp only [Batch.active, List.map_eq_nil_iff, List.filter_eq_nil_iff, Bool.and_eq_true]
  rintro i - ⟨-, hnone⟩
  have hsome := h.oldCount_of_resumed hresumed i
  rw [Option.isNone_iff_eq_none] at hnone
  rw [hnone] at hsome
  cases hsome

/-- All tasks of a batch have been started before the resume. -/
theorem starts_of_resumed (h : Sound cfg B) (hresumed : B.Resumed) :
    (B.starts.map fun i => (B.tasks.get i).2).Perm (B.tasks.map Prod.snd) := by
  have hall : B.starts.Perm (List.finRange B.tasks.length) := by
    refine (List.perm_ext_iff_of_nodup h.starts.nodup (List.nodup_finRange _)).mpr fun i => ?_
    refine iff_of_true ((h.starts.mem_iff i).mpr ?_) (List.mem_finRange i)
    rcases h.inv.exists_oldCount_of_resumes hresumed i with ⟨o, ho⟩
    cases hpc : B.awaiter.task i with
    | unstarted | scheduled =>
        rw [hpc] at ho
        cases ho
    | _ => rfl
  have hmap := hall.map fun i => (B.tasks.get i).2
  rwa [← List.ofFn_eq_map, ofFn_places] at hmap

/-- The results of a batch, in the order of its tasks. -/
theorem collected_eq (h : Sound cfg B) {r : List (Try ε α)} (hr : B.collected = some r) :
    B.Resumed ∧ r = B.tasks.map fun t => t.1.outcome := by
  rw [Batch.collected, if_neg h.nonempty, h.inv.result, Option.map_eq_some_iff] at hr
  rcases hr with ⟨f, hf, rfl⟩
  by_cases hresumes : B.awaiter.resumes = []
  · rw [if_pos hresumes] at hf
    cases hf
  · rw [if_neg hresumes, Option.some.injEq] at hf
    subst hf
    refine ⟨hresumes, ?_⟩
    conv_rhs => rw [← List.ofFn_get B.tasks, List.map_ofFn]
    rfl

theorem isSome_collected (h : Sound cfg B) (hresumed : B.Resumed) : B.collected.isSome = true := by
  rw [Batch.collected, if_neg h.nonempty, h.inv.result, if_neg hresumed]
  rfl

end Sound

theorem active_length (B : Batch ε α) : B.active.length ≤ B.tasks.length := by
  rw [Batch.active, List.length_map]
  refine (List.length_filter_le _ _).trans ?_
  rw [List.length_finRange]

/-- Only tasks of the batch are started. -/
theorem starts_subset (B : Batch ε α) :
    (B.starts.map fun i => (B.tasks.get i).2) ⊆ B.tasks.map Prod.snd := by
  intro k hk
  rcases List.mem_map.mp hk with ⟨i, -, rfl⟩
  exact List.mem_map_of_mem (List.get_mem _ _)

end Batch

/-! ## The input -/

theorem mapM_map_some {β : Type} (l : List β) : (l.map some).mapM id = some l := by
  induction l with
  | nil => rfl
  | cons a l ih =>
      rw [List.map_cons, List.mapM_cons, ih]
      rfl

/-- The results of some tasks. -/
def outcomes (tasks : List (Task ε α × Nat)) : List (Try ε α) :=
  tasks.map fun t => t.1.outcome

theorem outcomes_tasks (cfg : Config ε α) :
    outcomes cfg.tasks = cfg.input.map Task.outcome := by
  have hfst : cfg.tasks.map Prod.fst = cfg.input := List.zipIdx_map_fst 0 cfg.input
  conv_rhs => rw [← hfst, List.map_map]
  rfl

theorem places_tasks (cfg : Config ε α) :
    cfg.tasks.map Prod.snd = List.range cfg.input.length := by
  rw [List.range_eq_range']
  exact List.zipIdx_map_snd 0 cfg.input

theorem length_tasks (cfg : Config ε α) : cfg.tasks.length = cfg.input.length :=
  List.length_zipIdx

/-! ## The invariant of the coroutine -/

/-- The coroutine waits for the newest batch. -/
def Pc.awaits : Pc → Bool
  | .whole | .batch => true
  | _ => false

/-- The groups of tasks that the coroutine has formed. -/
def State.groups (s : State ε α) : List (List (Task ε α × Nat)) :=
  s.batches.map Batch.tasks

/-- A step of one awaiter leaves the groups alone. -/
theorem State.groups_set {s : State ε α} {b : Nat} {B B' : Batch ε α}
    (hb : s.batches[b]? = some B) (htasks : B'.tasks = B.tasks) :
    State.groups { s with batches := s.batches.set b B' } = s.groups := by
  simp only [State.groups]
  refine List.ext_getElem? fun k => ?_
  rw [List.getElem?_map, List.getElem?_map, List.getElem?_set]
  split
  · next hk =>
      subst hk
      rw [hb]
      simp [(List.getElem?_eq_some_iff.mp hb).1, htasks]
  · rfl

/-- The tasks before {lit}`start` are in the groups, the others in the input. -/
structure InLoop (cfg : Config ε α) (groups : List (List (Task ε α × Nat))) (s : State ε α) :
    Prop where
  positive : 0 < cfg.maxConcurrency
  small : cfg.maxConcurrency < cfg.input.length
  start_le : s.start ≤ cfg.input.length
  flatten : groups.flatten = cfg.tasks.take s.start
  input : s.input = List.replicate s.start none ++ (cfg.tasks.drop s.start).map some
  sizes : ∀ g ∈ groups, g.length ≤ cfg.maxConcurrency
  result : s.result = none

/-- What the coroutine has done at a program point. -/
def Stage (cfg : Config ε α) (groups : List (List (Task ε α × Nat))) (s : State ε α) : Pc → Prop
  | .entry => groups = [] ∧ s.start = 0 ∧ s.input = cfg.tasks.map some ∧ s.output = [] ∧
      s.result = none
  | .whole => groups = [cfg.tasks] ∧ s.result = none ∧
      (cfg.maxConcurrency = 0 ∨ cfg.input.length ≤ cfg.maxConcurrency)
  | .loop | .yield => InLoop cfg groups s ∧ s.output = outcomes groups.flatten
  | .batch => InLoop cfg groups s ∧ groups ≠ [] ∧ s.output = outcomes groups.dropLast.flatten
  | .returned => groups.flatten = cfg.tasks ∧ s.result = some (outcomes cfg.tasks)
  | .raised => False

structure Inv (cfg : Config ε α) (s : State ε α) : Prop where
  sound : ∀ B ∈ s.batches, B.Sound cfg
  resumed : ∀ (b : Nat) (B : Batch ε α), s.batches[b]? = some B →
    (s.pc.awaits = true → b + 1 < s.batches.length) → B.Resumed
  stage : Stage cfg s.groups s s.pc

namespace InLoop

variable {groups : List (List (Task ε α × Nat))} {s : State ε α}

/-- The sum of two sizes is a {lit}`size_t`. -/
theorem noOverflow (h : InLoop cfg groups s) : s.start + cfg.maxConcurrency < 2 ^ 64 := by
  have hsize := cfg.size_lt
  have hstart := h.start_le
  have hsmall := h.small
  omega

theorem batchEnd_eq (h : InLoop cfg groups s) :
    batchEnd cfg s.start = min cfg.input.length (s.start + cfg.maxConcurrency) := by
  rw [batchEnd, Nat.mod_eq_of_lt h.noOverflow]

/-- The next slice of the input has not been moved from. -/
theorem slice_eq (h : InLoop cfg groups s) {last : Nat} (hlast : s.start ≤ last) :
    s.slice s.start last = some ((cfg.tasks.drop s.start).take (last - s.start)) := by
  have hdrop : s.input.drop s.start = (cfg.tasks.drop s.start).map some := by
    rw [h.input]
    exact List.drop_left' List.length_replicate
  rw [State.slice, if_pos hlast, hdrop, ← List.map_take]
  exact mapM_map_some _

/-- The tasks up to {lit}`last` are in the groups when the slice has been moved out. -/
theorem next (h : InLoop cfg groups s) {last : Nat} {s' : State ε α} (hfirst : s.start ≤ last)
    (hlast : last ≤ cfg.input.length) (hsize : last - s.start ≤ cfg.maxConcurrency)
    (hstart : s'.start = last) (hinput : s'.input = s.movedOut s.start last)
    (hresult : s'.result = s.result) :
    InLoop cfg (groups ++ [(cfg.tasks.drop s.start).take (last - s.start)]) s' where
  positive := h.positive
  small := h.small
  start_le := by rw [hstart]; exact hlast
  flatten := by
    rw [List.flatten_append, h.flatten, List.flatten_singleton, hstart, ← List.take_add,
      Nat.add_sub_cancel' hfirst]
  input := by
    have htake : s.input.take s.start = List.replicate s.start none := by
      rw [h.input]
      exact List.take_left' List.length_replicate
    have hdrop : s.input.drop last = (cfg.tasks.drop last).map some := by
      rw [h.input, List.drop_append, List.length_replicate, List.drop_replicate,
        Nat.sub_eq_zero_of_le hfirst, List.replicate_zero, List.nil_append, ← List.map_drop,
        List.drop_drop, Nat.add_sub_cancel' hfirst]
    rw [hinput, State.movedOut, htake, hdrop, List.replicate_append_replicate,
      Nat.add_sub_cancel' hfirst, hstart]
  sizes := by
    intro g hg
    rcases List.mem_append.mp hg with hold | hnew
    · exact h.sizes g hold
    · cases List.mem_singleton.mp hnew
      exact (List.length_take_le _ _).trans hsize
  result := hresult.trans h.result

theorem congr (h : InLoop cfg groups s) {s' : State ε α} (hstart : s'.start = s.start)
    (hinput : s'.input = s.input) (hresult : s'.result = s.result) : InLoop cfg groups s' where
  positive := h.positive
  small := h.small
  start_le := by rw [hstart]; exact h.start_le
  flatten := by rw [hstart]; exact h.flatten
  input := by rw [hinput, hstart]; exact h.input
  sizes := h.sizes
  result := hresult.trans h.result

end InLoop

/-- The batches are not among the local variables. -/
theorem Stage.setBatches {groups : List (List (Task ε α × Nat))} {s : State ε α} {pc : Pc}
    (h : Stage cfg groups s pc) (batches : List (Batch ε α)) :
    Stage cfg groups { s with batches := batches } pc := by
  cases pc with
  | loop | yield | batch => exact ⟨h.1.congr rfl rfl rfl, h.2⟩
  | entry | whole | returned | raised => exact h

namespace Inv

variable {s s' : State ε α}

theorem initial (cfg : Config ε α) : Inv cfg (State.initial cfg) where
  sound := by simp [State.initial]
  resumed := by simp [State.initial]
  stage := ⟨rfl, rfl, rfl, rfl, rfl⟩

/-- A coroutine that does not wait has been resumed by all batches. -/
theorem all_resumed (h : Inv cfg s) (hpc : s.pc.awaits = false) :
    ∀ B ∈ s.batches, B.Resumed := by
  intro B hB
  rcases List.mem_iff_getElem?.mp hB with ⟨b, hb⟩
  exact h.resumed b B hb fun hawaits => Bool.noConfusion (hpc.symm.trans hawaits)

/-! ### Steps of the awaiters -/

theorem awaiter (h : Inv cfg s) {b : Nat} {B B' : Batch ε α}
    {l : CollectAll.Label B.tasks.length} (hb : s.batches[b]? = some B)
    (hstep : B.step cfg l = some B') : Inv cfg { s with batches := s.batches.set b B' } := by
  rcases (h.sound B (List.mem_of_getElem? hb)).step hstep with ⟨htasks, hsound, hresumed, -⟩
  have hgroups := State.groups_set hb htasks
  refine ⟨?_, ?_, ?_⟩
  · intro C hC
    rcases List.mem_or_eq_of_mem_set hC with hold | rfl
    · exact h.sound C hold
    · exact hsound
  · intro k C hk hnewest
    simp only [List.length_set] at hk hnewest
    by_cases hkb : b = k
    · subst hkb
      rw [List.getElem?_set_self (List.getElem?_eq_some_iff.mp hb).1, Option.some.injEq] at hk
      subst hk
      exact hresumed (h.resumed b B hb hnewest)
    · rw [List.getElem?_set_ne hkb] at hk
      exact h.resumed k C hk hnewest
  · have hstage := h.stage.setBatches (s.batches.set b B')
    rwa [← hgroups] at hstage

/-! ### Steps of the coroutine -/

/-- The coroutine goes on without forming a batch. -/
theorem goOn (h : Inv cfg s) (hall : ∀ B ∈ s.batches, B.Resumed)
    (hbatches : s'.batches = s.batches) (hstage : Stage cfg s.groups s' s'.pc) : Inv cfg s' := by
  refine ⟨?_, ?_, ?_⟩
  · rw [hbatches]
    exact h.sound
  · intro b B hb _
    rw [hbatches] at hb
    exact hall B (List.mem_of_getElem? hb)
  · rw [State.groups, hbatches]
    exact hstage

/-- The coroutine forms a batch and waits for it. -/
theorem form (h : Inv cfg s) (hpc : s.pc.awaits = false) {tasks : List (Task ε α × Nat)}
    (htasks : tasks ≠ []) (hbatches : s'.batches = s.batches ++ [Batch.create cfg tasks])
    (hpc' : s'.pc.awaits = true) (hstage : Stage cfg (s.groups ++ [tasks]) s' s'.pc) :
    Inv cfg s' := by
  refine ⟨?_, ?_, ?_⟩
  · rw [hbatches]
    intro B hB
    rcases List.mem_append.mp hB with hold | hnew
    · exact h.sound B hold
    · cases List.mem_singleton.mp hnew
      exact Batch.Sound.create htasks
  · intro b B hb hnewest
    have hlt := hnewest hpc'
    rw [hbatches, List.length_append, List.length_singleton] at hlt
    rw [hbatches, List.getElem?_append_left (Nat.lt_of_succ_lt_succ hlt)] at hb
    exact h.all_resumed hpc B (List.mem_of_getElem? hb)
  · have hgroups : s'.groups = s.groups ++ [tasks] := by
      rw [State.groups, hbatches, List.map_append]
      rfl
    rw [hgroups]
    exact hstage

/-- The batches before the newest one have resumed the coroutine. -/
theorem past_resumed (h : Inv cfg s) {past : List (Batch ε α)} {B : Batch ε α}
    (hpast : s.batches = past ++ [B]) : ∀ C ∈ past, C.Resumed := by
  intro C hC
  rcases List.mem_iff_getElem?.mp hC with ⟨b, hb⟩
  have hlt := (List.getElem?_eq_some_iff.mp hb).1
  refine h.resumed b C ?_ fun _ => ?_
  · rw [hpast, List.getElem?_append_left hlt]
    exact hb
  · rw [hpast, List.length_append, List.length_singleton]
    exact Nat.succ_lt_succ hlt

/-- The newest batch resumes the coroutine. -/
theorem collected (h : Inv cfg s) {r : List (Try ε α)} (hr : s.collected = some r) :
    (∀ B ∈ s.batches, B.Resumed) ∧ s.groups.dropLast.flatten ++ s.groups.getLastD [] =
      s.groups.flatten ∧ r = outcomes (s.groups.getLastD []) := by
  rw [State.collected, Option.bind_eq_some_iff] at hr
  rcases hr with ⟨B, hB, hr⟩
  rcases List.getLast?_eq_some_iff.mp hB with ⟨past, hpast⟩
  have hmem : B ∈ s.batches := List.mem_of_getLast? hB
  rcases (h.sound B hmem).collected_eq hr with ⟨hresumed, rfl⟩
  have hgroups : s.groups = past.map Batch.tasks ++ [B.tasks] := by
    rw [State.groups, hpast, List.map_append]
    rfl
  refine ⟨?_, ?_, ?_⟩
  · intro C hC
    rw [hpast] at hC
    rcases List.mem_append.mp hC with hold | hnewest
    · exact h.past_resumed hpast C hold
    · rw [List.mem_singleton.mp hnewest]
      exact hresumed
  · rw [hgroups]
    simp
  · rw [hgroups]
    simp [outcomes]

/-- The whole input, before any task was moved from it. -/
theorem slice_whole (hinput : s.input = cfg.tasks.map some) :
    s.slice 0 cfg.input.length = some cfg.tasks := by
  rw [State.slice, if_pos (Nat.zero_le _), hinput, List.drop_zero, Nat.sub_zero,
    List.take_of_length_le (by rw [List.length_map, length_tasks])]
  exact mapM_map_some _

/-- The end of the next batch. -/
theorem next_end (hloop : InLoop cfg s.groups s) (hstart : s.start < cfg.input.length) :
    s.start < batchEnd cfg s.start ∧ batchEnd cfg s.start ≤ cfg.input.length ∧
      batchEnd cfg s.start - s.start ≤ cfg.maxConcurrency := by
  have hpositive := hloop.positive
  rw [hloop.batchEnd_eq]
  omega

/-- The next group has at least one task. -/
theorem next_ne_nil (hloop : InLoop cfg s.groups s) (hstart : s.start < cfg.input.length) :
    (cfg.tasks.drop s.start).take (batchEnd cfg s.start - s.start) ≠ [] := by
  rcases next_end hloop hstart with ⟨hfirst, hlast, -⟩
  have hlength := length_tasks cfg
  refine List.ne_nil_of_length_pos ?_
  rw [List.length_take, List.length_drop]
  omega

theorem coroutine (h : Inv cfg s) (hm : cfg.input ≠ [])
    (hexecutor : cfg.yield = true → cfg.executor = true)
    (hstep : coroutineStep cfg s = some s') : Inv cfg s' := by
  have hstage := h.stage
  unfold coroutineStep at hstep
  split at hstep
  · next hpc =>
      rw [hpc] at hstage
      rcases hstage with ⟨hgroups, hstart, hinput, houtput, hresult⟩
      have hawaits : s.pc.awaits = false := by rw [hpc]; rfl
      split at hstep
      · next hwhole =>
          rw [slice_whole hinput, Option.map_some, Option.some.injEq] at hstep
          subst hstep
          have htasks : cfg.tasks ≠ [] := by
            intro hnil
            have hlength := length_tasks cfg
            rw [hnil] at hlength
            exact hm (List.eq_nil_of_length_eq_zero hlength.symm)
          refine h.form hawaits htasks rfl rfl ⟨?_, hresult, hwhole⟩
          rw [hgroups]
          rfl
      · next hloop =>
          cases hstep
          rw [not_or, Nat.not_le] at hloop
          refine h.goOn (h.all_resumed hawaits) rfl ⟨⟨Nat.pos_of_ne_zero hloop.1, hloop.2, ?_, ?_,
            ?_, ?_, hresult⟩, ?_⟩
          · simp only [hstart]
            exact Nat.zero_le _
          · simp [hgroups, hstart]
          · simp only [hinput, hstart]
            rfl
          · simp [hgroups]
          · simp only [hgroups, houtput]
            rfl
  · next hpc =>
      rw [hpc] at hstage
      rcases hstage with ⟨hgroups, -, -⟩
      rw [Option.map_eq_some_iff] at hstep
      rcases hstep with ⟨r, hr, rfl⟩
      rcases h.collected hr with ⟨hall, -, rfl⟩
      refine h.goOn hall rfl ⟨?_, ?_⟩
      · rw [hgroups]
        exact List.flatten_singleton
      · rw [hgroups]
        rfl
  · next hpc =>
      rw [hpc] at hstage
      rcases hstage with ⟨hloop, houtput⟩
      have hawaits : s.pc.awaits = false := by rw [hpc]; rfl
      split at hstep
      · next hstart =>
          rcases next_end hloop hstart with ⟨hfirst, hlast, hsize⟩
          rw [hloop.slice_eq (Nat.le_of_lt hfirst), Option.map_some, Option.some.injEq] at hstep
          subst hstep
          refine h.form hawaits (next_ne_nil hloop hstart) rfl rfl
            ⟨hloop.next (Nat.le_of_lt hfirst) hlast hsize rfl rfl rfl, by simp, ?_⟩
          rw [List.dropLast_concat]
          exact houtput
      · next hend =>
          cases hstep
          have hflatten : s.groups.flatten = cfg.tasks := by
            rw [hloop.flatten, List.take_of_length_le]
            rw [length_tasks]
            exact Nat.le_of_not_lt hend
          refine h.goOn (h.all_resumed hawaits) rfl ⟨hflatten, ?_⟩
          rw [← hflatten]
          exact congrArg some houtput
  · next hpc =>
      rw [hpc] at hstage
      rcases hstage with ⟨hloop, -, houtput⟩
      rw [Option.map_eq_some_iff] at hstep
      rcases hstep with ⟨r, hr, rfl⟩
      rcases h.collected hr with ⟨hall, hflatten, rfl⟩
      have hnew : s.output ++ outcomes (s.groups.getLastD []) = outcomes s.groups.flatten := by
        rw [houtput, ← hflatten]
        simp [outcomes]
      refine h.goOn hall rfl ?_
      cases hyield : cfg.yield with
      | false => exact ⟨hloop.congr rfl rfl rfl, hnew⟩
      | true =>
          simp only [hexecutor hyield, if_true]
          exact ⟨hloop.congr rfl rfl rfl, hnew⟩
  · next hpc =>
      cases hstep
      rw [hpc] at hstage
      have hawaits : s.pc.awaits = false := by rw [hpc]; rfl
      exact h.goOn (h.all_resumed hawaits) rfl ⟨hstage.1.congr rfl rfl rfl, hstage.2⟩
  · cases hstep
  · cases hstep

theorem step (h : Inv cfg s) (hm : cfg.input ≠ [])
    (hexecutor : cfg.yield = true → cfg.executor = true) {l : Label}
    (hstep : CollectWindowed.step cfg s l = some s') : Inv cfg s' := by
  cases l with
  | coroutine => exact h.coroutine hm hexecutor hstep
  | awaiter b p =>
      simp only [CollectWindowed.step, Option.bind_eq_some_iff, Option.map_eq_some_iff] at hstep
      rcases hstep with ⟨B, hb, l, -, B', hB', rfl⟩
      exact h.awaiter hb hB'

/-- The groups are consecutive pieces of the input. -/
theorem consecutive (h : Inv cfg s) : s.groups.flatten <+: cfg.tasks := by
  have hstage := h.stage
  cases hpc : s.pc with
  | entry =>
      rw [hpc] at hstage
      rw [hstage.1]
      exact List.nil_prefix
  | whole =>
      rw [hpc] at hstage
      rw [hstage.1, List.flatten_singleton]
  | loop | yield | batch =>
      rw [hpc] at hstage
      rw [hstage.1.flatten]
      exact List.take_prefix _ _
  | returned =>
      rw [hpc] at hstage
      rw [hstage.1]
  | raised =>
      rw [hpc] at hstage
      exact hstage.elim

end Inv

/-! ## Every run comes to an end -/

/-- Steps of the coroutine to the end of its round. -/
def Pc.rank : Pc → Nat
  | .entry => 4
  | .whole | .batch => 3
  | .yield => 2
  | .loop => 1
  | .returned | .raised => 0

/-- Steps left for the awaiters. -/
def State.work (s : State ε α) : Nat :=
  (s.batches.map fun B => B.awaiter.remaining).sum

/-- Steps left for the awaiters, and for the tasks that are in no group yet. -/
def State.remaining (cfg : Config ε α) (s : State ε α) : Nat :=
  20 * (cfg.input.length - s.groups.flatten.length) + s.work + s.pc.rank

/-- The coroutine goes on in its round, or forms a batch. -/
theorem coroutineStep_moves {s s' : State ε α} (hstep : coroutineStep cfg s = some s') :
    s'.batches = s.batches ∧ s'.pc.rank < s.pc.rank ∨
      ∃ tasks, s'.batches = s.batches ++ [Batch.create cfg tasks] ∧
        s'.pc.rank ≤ s.pc.rank + 2 := by
  unfold coroutineStep at hstep
  split at hstep
  · next hpc =>
      rw [hpc]
      split at hstep
      · rcases Option.map_eq_some_iff.mp hstep with ⟨tasks, -, rfl⟩
        exact .inr ⟨tasks, rfl, by simp [Pc.rank]⟩
      · cases hstep
        exact .inl ⟨rfl, by simp [Pc.rank]⟩
  · next hpc =>
      rw [hpc]
      rcases Option.map_eq_some_iff.mp hstep with ⟨r, -, rfl⟩
      exact .inl ⟨rfl, by simp [Pc.rank]⟩
  · next hpc =>
      rw [hpc]
      split at hstep
      · rcases Option.map_eq_some_iff.mp hstep with ⟨tasks, -, rfl⟩
        exact .inr ⟨tasks, rfl, by simp [Pc.rank]⟩
      · cases hstep
        exact .inl ⟨rfl, by simp [Pc.rank]⟩
  · next hpc =>
      rw [hpc]
      rcases Option.map_eq_some_iff.mp hstep with ⟨r, -, rfl⟩
      refine .inl ⟨rfl, ?_⟩
      cases cfg.yield with
      | false => simp [Pc.rank]
      | true => cases cfg.executor <;> simp [Pc.rank]
  · next hpc =>
      cases hstep
      rw [hpc]
      exact .inl ⟨rfl, by simp [Pc.rank]⟩
  · cases hstep
  · cases hstep

namespace Inv

variable {s s' : State ε α}

theorem coroutine_remaining (h' : Inv cfg s') (hstep : coroutineStep cfg s = some s') :
    s'.remaining cfg < s.remaining cfg := by
  rcases coroutineStep_moves hstep with ⟨hbatches, hrank⟩ | ⟨tasks, hbatches, hrank⟩
  · simp only [State.remaining, State.work, State.groups, hbatches]
    omega
  · have hgroups : s'.groups = s.groups ++ [tasks] := by
      rw [State.groups, hbatches, List.map_append]
      rfl
    have hwork : s'.work = s.work + (11 * tasks.length + 3) := by
      rw [State.work, hbatches, List.map_append, List.sum_append, List.map_singleton,
        List.sum_singleton]
      exact congrArg _ (CollectAll.State.remaining_initial _)
    have hpositive : 0 < tasks.length := by
      have hsound := h'.sound (Batch.create cfg tasks) (by simp [hbatches])
      exact List.length_pos_iff.mpr hsound.nonempty
    have hlength := h'.consecutive.length_le
    rw [length_tasks, hgroups, List.flatten_append, List.flatten_singleton,
      List.length_append] at hlength
    rw [State.remaining, State.remaining, hgroups, hwork, List.flatten_append,
      List.flatten_singleton, List.length_append]
    omega

theorem awaiter_remaining (h : Inv cfg s) {b : Nat} {B B' : Batch ε α}
    {l : CollectAll.Label B.tasks.length} (hb : s.batches[b]? = some B)
    (hstep : B.step cfg l = some B') :
    State.remaining cfg { s with batches := s.batches.set b B' } < s.remaining cfg := by
  rcases (h.sound B (List.mem_of_getElem? hb)).step hstep with ⟨htasks, -, -, hless⟩
  rcases List.getElem?_eq_some_iff.mp hb with ⟨hlt, hget⟩
  have hsplit : s.batches = s.batches.take b ++ B :: s.batches.drop (b + 1) := by
    rw [← hget, List.cons_getElem_drop_succ, List.take_append_drop]
  have hset : s.batches.set b B' = s.batches.take b ++ B' :: s.batches.drop (b + 1) := by
    rw [List.set_eq_take_append_cons_drop, if_pos hlt]
  have hwork : State.work { s with batches := s.batches.set b B' } < s.work := by
    simp only [State.work, hset]
    conv_rhs => rw [hsplit]
    simp only [List.map_append, List.map_cons, List.sum_append, List.sum_cons]
    omega
  simp only [State.remaining, State.groups_set hb htasks]
  omega

/-- Every step decreases the work that is left. -/
theorem step_remaining (h : Inv cfg s) (h' : Inv cfg s') {l : Label}
    (hstep : CollectWindowed.step cfg s l = some s') : s'.remaining cfg < s.remaining cfg := by
  cases l with
  | coroutine => exact h'.coroutine_remaining hstep
  | awaiter b p =>
      simp only [CollectWindowed.step, Option.bind_eq_some_iff, Option.map_eq_some_iff] at hstep
      rcases hstep with ⟨B, hb, l, -, B', hB', rfl⟩
      exact h.awaiter_remaining hb hB'

/-- A step keeps the invariant and decreases the work that is left. -/
theorem step_decreases (hm : cfg.input ≠ [])
    (hexecutor : cfg.yield = true → cfg.executor = true) (s : State ε α) (l : Label)
    (s' : State ε α) (h : Inv cfg s) (hstep : (machine cfg).step s l = some s') :
    Inv cfg s' ∧ s'.remaining cfg < s.remaining cfg := by
  have h' := h.step hm hexecutor hstep
  exact ⟨h', h.step_remaining h' hstep⟩

/-- A batch that cannot move has resumed the coroutine. -/
theorem resumed_of_stuck (h : Inv cfg s) (hstuck : (machine cfg).Stuck (fun _ => True) s)
    {b : Nat} {B : Batch ε α} (hb : s.batches[b]? = some B) : B.Resumed := by
  have hsound := h.sound B (List.mem_of_getElem? hb)
  have hnone : ∀ p l, Party.label B.tasks.length p = some l →
      CollectAll.step (cfg.group B.tasks) B.awaiter l = none := by
    intro p l hl
    have hstep : CollectWindowed.step cfg s (.awaiter b p) = none := hstuck (.awaiter b p) trivial
    simpa [CollectWindowed.step, hb, hl, Batch.step, hsound.nonempty] using hstep
  have hstuck' : (CollectAll.machine (cfg.group B.tasks)).Stuck (fun _ => True) B.awaiter := by
    intro l _
    cases l with
    | main => exact hnone .suspend .main rfl
    | task i => exact hnone (.task i) (.task i) (dif_pos i.isLt)
  have hcollected := hsound.inv.collected (List.length_pos_iff.mpr hsound.nonempty)
  intro hnil
  have hone := (hcollected.complete hstuck').1
  rw [hnil] at hone
  cases hone

/-- Nothing is left to do only when the coroutine has returned. -/
theorem returned_of_stuck (h : Inv cfg s) (hstuck : (machine cfg).Stuck (fun _ => True) s) :
    s.pc = .returned := by
  have hstep : coroutineStep cfg s = none := hstuck .coroutine trivial
  have hstage := h.stage
  have hcollected : s.groups ≠ [] → s.collected.isSome = true := by
    intro hgroups
    have hbatches : s.batches ≠ [] := by
      intro hnil
      rw [State.groups, hnil] at hgroups
      exact hgroups rfl
    rw [State.collected, List.getLast?_eq_some_getLast hbatches, Option.bind_some]
    have hmem := List.getLast_mem hbatches
    rcases List.mem_iff_getElem?.mp hmem with ⟨b, hb⟩
    exact (h.sound _ hmem).isSome_collected (h.resumed_of_stuck hstuck hb)
  unfold coroutineStep at hstep
  split at hstep
  · next hpc =>
      rw [hpc] at hstage
      split at hstep
      · rw [slice_whole hstage.2.2.1] at hstep
        cases hstep
      · cases hstep
  · next hpc =>
      rw [hpc] at hstage
      rw [Option.map_eq_none_iff] at hstep
      have hsome := hcollected (by rw [hstage.1]; exact List.cons_ne_nil _ _)
      rw [hstep] at hsome
      cases hsome
  · next hpc =>
      rw [hpc] at hstage
      split at hstep
      · next hstart =>
          rw [hstage.1.slice_eq (Nat.le_of_lt (next_end hstage.1 hstart).1)] at hstep
          cases hstep
      · cases hstep
  · next hpc =>
      rw [hpc] at hstage
      rw [Option.map_eq_none_iff] at hstep
      have hsome := hcollected hstage.2.1
      rw [hstep] at hsome
      cases hsome
  · cases hstep
  · next hpc => exact hpc
  · next hpc =>
      rw [hpc] at hstage
      exact hstage.elim

/-! ## What holds in every state -/

theorem starts_nodup (h : Inv cfg s) : s.starts.Nodup := by
  have hplaces : (s.batches.flatMap fun B => B.tasks.map Prod.snd).Nodup := by
    have hflatten : (s.batches.flatMap fun B => B.tasks.map Prod.snd) =
        s.groups.flatten.map Prod.snd := by
      rw [State.groups, List.map_flatten, List.map_map, List.flatMap_def]
      rfl
    rw [hflatten]
    refine (h.consecutive.map Prod.snd).sublist.nodup ?_
    rw [places_tasks]
    exact List.nodup_range
  rw [List.nodup_flatMap] at hplaces
  rw [State.starts, List.nodup_flatMap]
  refine ⟨fun B hB => ?_, hplaces.2.imp fun hdisjoint => ?_⟩
  · have hinj := hplaces.1 B hB
    rw [← Batch.ofFn_places, List.nodup_ofFn] at hinj
    exact (h.sound B hB).starts.nodup.map hinj
  · intro k hk hk'
    exact hdisjoint (Batch.starts_subset _ hk) (Batch.starts_subset _ hk')

/-- When all batches have resumed the coroutine no task is active. -/
theorem active_of_resumed (h : Inv cfg s) (hall : ∀ B ∈ s.batches, B.Resumed) :
    s.active = [] := by
  rw [State.active, List.flatMap_eq_nil_iff]
  intro B hB
  exact (h.sound B hB).active_of_resumed (hall B hB)

theorem active_length (h : Inv cfg s) (hpositive : 0 < cfg.maxConcurrency)
    (hsmall : cfg.maxConcurrency < cfg.input.length) : s.active.length ≤ cfg.maxConcurrency := by
  have hstage := h.stage
  by_cases hawaits : s.pc.awaits = true
  · have hpc : s.pc = .batch := by
      cases hpc : s.pc with
      | batch => rfl
      | whole =>
          rw [hpc] at hstage
          have hwhole := hstage.2.2
          omega
      | entry | loop | yield | returned | raised =>
          rw [hpc] at hawaits
          cases hawaits
    rw [hpc] at hstage
    rcases hstage with ⟨hloop, hgroups, -⟩
    rcases List.eq_nil_or_concat' s.batches with hnil | ⟨past, B, hpast⟩
    · rw [State.groups, hnil] at hgroups
      exact absurd rfl hgroups
    · have hold : past.flatMap Batch.active = [] := by
        rw [List.flatMap_eq_nil_iff]
        intro C hC
        exact (h.sound C (by simp [hpast, hC])).active_of_resumed (h.past_resumed hpast C hC)
      rw [State.active, hpast, List.flatMap_append, hold, List.nil_append, List.flatMap_singleton]
      exact (Batch.active_length B).trans
        (hloop.sizes B.tasks (List.mem_map_of_mem (by simp [hpast])))
  · rw [h.active_of_resumed (h.all_resumed (by simpa using hawaits))]
    exact Nat.zero_le _

theorem ordered (h : Inv cfg s) {b b' : Nat} {B B' : Batch ε α} (hlt : b < b')
    (hb : s.batches[b]? = some B) (hb' : s.batches[b']? = some B') (i : Fin B.tasks.length) :
    (B.awaiter.task i).oldCount.isSome = true := by
  have hlast := (List.getElem?_eq_some_iff.mp hb').1
  exact (h.sound B (List.mem_of_getElem? hb)).oldCount_of_resumed
    (h.resumed b B hb fun _ => by omega) i

/-- The coroutine has returned. -/
theorem returned_of_result (h : Inv cfg s) {r : List (Try ε α)} (hr : s.result = some r) :
    s.pc = .returned := by
  have hstage := h.stage
  cases hpc : s.pc with
  | returned => rfl
  | entry =>
      rw [hpc] at hstage
      exact absurd (hr.symm.trans hstage.2.2.2.2) (Option.some_ne_none r)
  | whole =>
      rw [hpc] at hstage
      exact absurd (hr.symm.trans hstage.2.1) (Option.some_ne_none r)
  | loop | yield | batch =>
      rw [hpc] at hstage
      exact absurd (hr.symm.trans hstage.1.result) (Option.some_ne_none r)
  | raised =>
      rw [hpc] at hstage
      exact hstage.elim

theorem windowed (h : Inv cfg s) : Windowed cfg s where
  consecutive := h.consecutive
  noOverflow := by
    intro hpc _
    have hstage := h.stage
    rw [hpc] at hstage
    exact hstage.1.noOverflow
  startedOnce := h.starts_nodup
  bounded := h.active_length
  ordered := fun _ _ _ _ hlt hb hb' _ => h.ordered hlt hb hb'
  safe := fun B hB => (h.sound B hB).inv.dangling
  returns := by
    intro r hr
    have hpc := h.returned_of_result hr
    have hall := h.all_resumed (by rw [hpc]; rfl)
    have hstage := h.stage
    rw [hpc] at hstage
    rcases hstage with ⟨hflatten, hresult⟩
    rw [hr, Option.some.injEq] at hresult
    refine ⟨hresult.trans (outcomes_tasks cfg), h.active_of_resumed hall, ?_, ?_⟩
    · rw [← places_tasks, ← hflatten, State.groups, List.map_flatten, List.map_map,
        ← List.flatMap_def]
      exact List.Perm.flatMap_left _ fun B hB => (h.sound B hB).starts_of_resumed (hall B hB)
    · intro ls u f hrun hu
      have hinv : CollectAll.Inv (cfg.group cfg.tasks) u :=
        Machine.run_invariant _ (fun _ _ _ hinv hstep => hinv.step hstep)
          (CollectAll.Inv.initial _) hrun
      rw [hinv.result] at hu
      split at hu
      · cases hu
      · cases hu
        rw [hresult, outcomes]
        conv_lhs => rw [← List.ofFn_get cfg.tasks, List.map_ofFn]
        rfl

end Inv

/-! ## All runs -/

/-- For every limit, with and without yielding, for every nonempty input, every assignment of
results and every order of the steps: a call of {lit}`collectAllWindowed` keeps its promise, each
run is finite, and it can be brought to its end, where the results of all tasks are returned in
their order. -/
theorem collectAllWindowed_collects (cfg : Config ε α) (hm : cfg.input ≠ [])
    (hexecutor : cfg.yield = true → cfg.executor = true) (ls : List Label) (s : State ε α)
    (hrun : (machine cfg).run (State.initial cfg) ls = some s) :
    Windowed cfg s ∧ ls.length ≤ 20 * cfg.input.length + 4 ∧
      ((machine cfg).Stuck (fun _ => True) s → s.result = some (cfg.input.map Task.outcome)) ∧
      ∃ ks t, (machine cfg).run s ks = some t ∧ Windowed cfg t ∧
        t.result = some (cfg.input.map Task.outcome) := by
  have hstep := Inv.step_decreases hm hexecutor
  have hstuck : ∀ t, Inv cfg t → (machine cfg).Stuck (fun _ => True) t →
      t.result = some (cfg.input.map Task.outcome) := by
    intro t h hstuck
    have hstage := h.stage
    rw [h.returned_of_stuck hstuck] at hstage
    rw [hstage.2, outcomes_tasks]
  have hinv : Inv cfg s :=
    Machine.run_invariant _ (fun s l s' h hs => (hstep s l s' h hs).1) (Inv.initial cfg) hrun
  have hlength := Machine.run_length_le _ (State.remaining cfg) hstep (Inv.initial cfg) hrun
  have hinitial : (State.initial cfg).remaining cfg = 20 * cfg.input.length + 4 := by
    simp [State.remaining, State.work, State.groups, State.initial, Pc.rank]
  rcases Machine.exists_run_stuck _ (fun _ => True) (State.remaining cfg) hstep hinv with
    ⟨ks, t, -, ht, hinv', hend⟩
  exact ⟨hinv.windowed, by omega, hstuck s hinv, ks, t, ht, hinv'.windowed, hstuck t hinv' hend⟩

/-- Three tasks in batches of two, with a yield after each batch. -/
def threeTasks : Config Unit Nat where
  para := true
  signalType := 0#64
  maxConcurrency := 2
  yield := true
  executor := true
  input := [⟨false, .value 1⟩, ⟨false, .error ()⟩, ⟨false, .value 3⟩]
  maxConcurrency_lt := by decide
  size_lt := by decide

/-- The steps of {lit}`await_suspend` and of the tasks of a batch, one after the other. -/
def batchRun (b suspend : Nat) (tasks : List Nat) : List Label :=
  List.replicate suspend (.awaiter b .suspend) ++
    tasks.flatMap fun i => List.replicate 8 (.awaiter b (.task i))

/-- The second batch has one task, which is started in place. -/
def threeTasksRun : List Label :=
  List.replicate 2 .coroutine ++ batchRun 0 7 [1, 0] ++ List.replicate 3 .coroutine ++
    batchRun 1 5 [] ++ List.replicate 7 (.awaiter 1 (.task 0)) ++ List.replicate 3 .coroutine

theorem collectAllWindowed_collects_threeTasks :
    ∃ s, (machine threeTasks).run (State.initial threeTasks) threeTasksRun = some s ∧
      s.starts = [1, 0, 2] ∧ s.result = some [.value 1, .error (), .value 3] ∧
      Windowed threeTasks s := by
  rcases (machine threeTasks).exists_run_of_any (State.initial threeTasks) threeTasksRun
    (fun s => s.starts = [1, 0, 2] ∧ s.result.isSome = true) (by decide +kernel) with
    ⟨s, hrun, hstarts, hresult⟩
  have h := (collectAllWindowed_collects threeTasks (by decide) (fun _ => rfl) threeTasksRun s
    hrun).1
  rcases Option.isSome_iff_exists.mp hresult with ⟨r, hr⟩
  refine ⟨s, hrun, hstarts, ?_, h⟩
  rw [hr, (h.returns r hr).1]
  rfl

end CollectWindowed

end AsyncSimple
