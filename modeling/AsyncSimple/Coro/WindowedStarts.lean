import Mathlib.Algebra.Group.Action.Defs
import AsyncSimple.Coro.CollectWindowedOrder

/-!
# How a window starts its tasks

{lit}`collectAll` starts its tasks in place, one after the other, and {lit}`collectAllPara` hands
each of them to its executor.  What {lit}`await_suspend` does with the tasks is observed here as a
list, and the list of every window of {lit}`collectAllWindowed` and {lit}`collectAllWindowedPara`
is compared with the lists of the plain call for the tasks of that window.  The two windowed
functions pass the template argument of the other one, so that the comparison fails as soon as
some window of two tasks has an executor.

Main results:

- Theorem {lit}`CollectAll.startsOf_eq`: what a run has started is a beginning of one fixed list.
- Theorem {lit}`exists_run_of_batch`: in a run of the coroutine every batch makes a run of
  {lit}`CollectAll`, and what that run starts is what the coroutine's run shows of the batch.
- Theorem {lit}`windowed_startsLike_iff`: the windowed functions start their windows like the
  plain ones exactly if no window of two tasks has an executor.
-/

namespace AsyncSimple

open Transition

namespace CollectAll

variable {n : Nat} {ε : Type} {α : Fin n → Type} {cfg : Config n ε α} {s s' : State n ε α}

/-! ## The plain calls -/

/-- {lit}`collectAll`: {lit}`detail::collectAllImpl<false>`. -/
def collectAll (cfg : Config n ε α) : Config n ε α :=
  { cfg with para := false }

/-- {lit}`collectAllPara`: {lit}`detail::collectAllImpl<true>`. -/
def collectAllPara (cfg : Config n ε α) : Config n ε α :=
  { cfg with para := true }

/-- What {lit}`await_suspend` does with a task: call {lit}`func`, or submit it to the executor. -/
inductive Start where
  | inPlace
  | submitted
deriving DecidableEq, Repr

/-- The task that a step of {lit}`await_suspend` starts, and how. -/
def observeStart (s : State n ε α) : Label n → State n ε α → List (Nat × Start)
  | .main, s' =>
      match s.main with
      | .launch i => [(i, if s'.task i = .scheduled then .submitted else .inPlace)]
      | _ => []
  | .task _, _ => []

/-- The task has an executor in the loop: its own, or that of the awaiting coroutine. -/
def Config.executorOf (cfg : Config n ε α) (i : Fin n) : Bool :=
  cfg.taskExecutor i || cfg.executor

def Config.startOf (cfg : Config n ε α) (i : Fin n) : Start :=
  if cfg.para && decide (1 < n) && cfg.executorOf i then .submitted else .inPlace

/-- All tasks in the order of the loop. -/
def Config.starts (cfg : Config n ε α) : List (Nat × Start) :=
  List.ofFn fun i => ((i : Nat), cfg.startOf i)

/-- How far the loop has come: what it has started, and which executors it has filled in. -/
structure Starting (cfg : Config n ε α) (seen : List (Nat × Start)) (s : State n ε α) : Prop where
  seen : seen = cfg.starts.take s.main.next
  waiting : ∀ i : Fin n, s.main.next ≤ i → s.main ≠ .launch i →
    s.hasExecutor i = cfg.taskExecutor i
  chosen : ∀ i, s.main = .launch i → s.hasExecutor i = cfg.executorOf i

theorem Config.length_starts (cfg : Config n ε α) : cfg.starts.length = n :=
  List.length_ofFn

/-- A task does not touch what the loop works with. -/
theorem taskStep_loop {i : Fin n} (hstep : taskStep cfg s i = some s') :
    s'.main = s.main ∧ s'.hasExecutor = s.hasExecutor := by
  unfold taskStep at hstep
  split at hstep
  case h_1 | h_2 => cases hstep
  case h_10 =>
    split at hstep
    · cases hstep
      exact ⟨rfl, rfl⟩
    · cases hstep
      exact ⟨rfl, rfl⟩
  case h_8 =>
    cases hstep
    split
    · exact ⟨rfl, rfl⟩
    · exact ⟨rfl, rfl⟩
  all_goals
    cases hstep
    exact ⟨rfl, rfl⟩

theorem observeStart_main (hmain : ∀ i, s.main ≠ .launch i) : observeStart s .main s' = [] := by
  cases hpc : s.main with
  | launch i => exact absurd hpc (hmain i)
  | _ => simp only [observeStart, hpc]

namespace Starting

variable {seen : List (Nat × Start)}

theorem initial (cfg : Config n ε α) : Starting cfg [] (State.initial cfg) where
  seen := List.take_zero.symm
  waiting := fun _ _ _ => rfl
  chosen := by
    intro i hlaunch
    cases hlaunch

/-- A step of the loop between two tasks. -/
theorem between (h : Starting cfg seen s) (hmain : ∀ i, s.main ≠ .launch i)
    (hmain' : ∀ i, s'.main ≠ .launch i) (hexecutor : s'.hasExecutor = s.hasExecutor)
    (hnext : ∀ i : Fin n, s'.main.next ≤ i → s.main.next ≤ i)
    (hstarts : cfg.starts.take s'.main.next = cfg.starts.take s.main.next) :
    Starting cfg (seen ++ observeStart s .main s') s' where
  seen := by rw [observeStart_main hmain, List.append_nil, hstarts, h.seen]
  waiting := fun i hi _ => by rw [hexecutor, h.waiting i (hnext i hi) (hmain i)]
  chosen := fun i hlaunch => absurd hlaunch (hmain' i)

/-- The loop comes to the next task and fills in its executor. -/
theorem choose (h : Starting cfg seen s) {k : Fin n} (hmain : s.main = .loop k)
    (hmain' : s'.main = .launch k)
    (hexecutor : s'.hasExecutor =
      Function.update s.hasExecutor k (s.hasExecutor k || cfg.executor)) :
    Starting cfg (seen ++ observeStart s .main s') s' where
  seen := by
    rw [observeStart_main (by simp [hmain]), List.append_nil, h.seen, hmain, hmain']
    rfl
  waiting := by
    intro i hi hne
    have hik : i ≠ k := by
      intro heq
      exact hne (heq ▸ hmain')
    rw [hexecutor, Function.update_of_ne hik]
    refine h.waiting i ?_ (by simp [hmain])
    rwa [hmain, MainPc.next, ← MainPc.next, ← hmain']
  chosen := by
    intro i hi
    rw [hmain'] at hi
    cases hi
    have hown := h.waiting k (by rw [hmain]; exact Nat.le_refl _) (by simp [hmain])
    rw [hexecutor, Function.update_self, hown, Config.executorOf]

/-- The task is started as its executor asks for it. -/
theorem launch (h : Starting cfg seen s) {k : Fin n} (hmain : s.main = .launch k)
    (hmain' : s'.main = .loop (k + 1)) (hexecutor : s'.hasExecutor = s.hasExecutor)
    (htask : s'.task k = if cfg.para && decide (1 < n) && s.hasExecutor k then .scheduled
      else .running) :
    Starting cfg (seen ++ observeStart s .main s') s' where
  seen := by
    have hk : (k : Nat) < cfg.starts.length := by rw [cfg.length_starts]; exact k.isLt
    have hnext : cfg.starts[(k : Nat)] = ((k : Nat), cfg.startOf k) := by simp [Config.starts]
    have hstart : (if s'.task k = .scheduled then Start.submitted else .inPlace) =
        cfg.startOf k := by
      rw [htask, h.chosen k hmain, Config.startOf]
      split <;> simp
    rw [hmain', MainPc.next, List.take_succ_eq_append_getElem hk, hnext, h.seen]
    simp only [observeStart, hmain, MainPc.next, hstart]
  waiting := by
    intro i hi _
    rw [hmain'] at hi
    have hlater : (k : Nat) < i := hi
    rw [hexecutor]
    refine h.waiting i ?_ ?_
    · rw [hmain]
      exact Nat.le_of_lt hlater
    · rw [hmain]
      intro heq
      cases heq
      exact Nat.lt_irrefl _ hlater
  chosen := by
    intro i hi
    rw [hmain'] at hi
    cases hi

theorem main (h : Starting cfg seen s) (hstep : mainStep cfg s = some s') :
    Starting cfg (seen ++ observeStart s .main s') s' := by
  unfold mainStep at hstep
  split at hstep
  case h_1 hmain =>
    cases hstep
    exact h.between (by simp [hmain]) (by simp [State.setMain]) rfl
      (fun _ _ => by rw [hmain]; exact Nat.zero_le _) (by rw [hmain]; rfl)
  case h_2 hmain =>
    cases hstep
    exact h.between (by simp [hmain]) (by simp [State.setMain]) rfl
      (fun _ _ => by rw [hmain]; exact Nat.zero_le _) (by rw [hmain]; rfl)
  case h_3 k hmain =>
    split at hstep
    case isTrue hlt =>
      cases hstep
      exact h.choose (k := ⟨k, hlt⟩) hmain rfl rfl
    case isFalse hge =>
      cases hstep
      have hlength := cfg.length_starts
      refine h.between (by simp [hmain]) (by simp [State.setMain]) rfl ?_ ?_
      · intro i hi
        exact absurd i.isLt (Nat.not_lt.mpr hi)
      · simp only [hmain, State.setMain, MainPc.next]
        rw [List.take_of_length_le (by omega), List.take_of_length_le (by omega)]
  case h_4 k hmain =>
    cases hstep
    exact h.launch hmain rfl rfl (by simp [State.setTask, State.setMain, State.access])
  case h_5 => cases hstep

theorem step (h : Starting cfg seen s) {l : Label n} (hstep : CollectAll.step cfg s l = some s') :
    Starting cfg (seen ++ observeStart s l s') s' := by
  cases l with
  | main => exact h.main hstep
  | task i =>
      rcases taskStep_loop hstep with ⟨hmain, hexecutor⟩
      refine ⟨?_, ?_, ?_⟩
      · rw [observeStart, List.append_nil, hmain]
        exact h.seen
      · rw [hmain, hexecutor]
        exact h.waiting
      · rw [hmain, hexecutor]
        exact h.chosen

end Starting

/-- The calls of {lit}`func` and the submissions of a run, in their order. -/
def startsOf (cfg : Config n ε α) (ls : List (Label n)) : List (Nat × Start) :=
  (machine cfg).observed observeStart (State.initial cfg) ls

/-- What has been started is the part of one list that the loop has gone through. -/
theorem startsOf_eq {ls : List (Label n)}
    (hrun : (machine cfg).run (State.initial cfg) ls = some s) :
    startsOf cfg ls = cfg.starts.take s.main.next := by
  have h := (machine cfg).run_observed_invariant observeStart
    (fun _ _ _ _ h hstep => h.step hstep) (Starting.initial cfg) hrun
  exact h.seen

/-- Without an executor {lit}`Para` makes no difference. -/
theorem step_para (hmain : ∀ i, s.main = .launch i → s.hasExecutor i = false) (p : Bool)
    (l : Label n) : CollectAll.step { cfg with para := p } s l = CollectAll.step cfg s l := by
  cases l with
  | task i => rfl
  | main =>
      simp only [CollectAll.step, mainStep]
      split
      case h_4 i hlaunch => simp [hmain i hlaunch]
      all_goals rfl

/-- Nor does it in a whole run. -/
theorem run_para (hexecutor : ∀ i, cfg.executorOf i = false) (p : Bool) {ls : List (Label n)}
    (hrun : (machine cfg).run (State.initial cfg) ls = some s) :
    (machine { cfg with para := p }).run (State.initial { cfg with para := p }) ls = some s ∧
      startsOf { cfg with para := p } ls = startsOf cfg ls := by
  have hsame : ∀ s l s', (∃ seen, Starting cfg seen s) → (machine cfg).step s l = some s' →
      (machine { cfg with para := p }).step s l = some s' ∧ ∃ seen, Starting cfg seen s' := by
    rintro s l s' ⟨seen, h⟩ hstep
    have hmain : ∀ i, s.main = .launch i → s.hasExecutor i = false := fun i hi => by
      rw [h.chosen i hi, hexecutor]
    exact ⟨(step_para hmain p l).trans hstep, _, h.step hstep⟩
  exact (machine cfg).run_observed_of_same_steps observeStart (machine { cfg with para := p })
    hsame ⟨[], Starting.initial cfg⟩ hrun

/-- The template argument is seen at every task that has an executor. -/
theorem executorOf_of_starts_eq {p : Bool} (hp : cfg.para ≠ p) (hn : 1 < n)
    (hstarts : Config.starts { cfg with para := p } = cfg.starts) (i : Fin n) :
    cfg.executorOf i = false := by
  have hi := congrArg Prod.snd (congrFun (List.ofFn_inj.mp hstarts) i)
  simp only [Config.startOf, hn, decide_true, Bool.and_true] at hi
  cases hexecutor : cfg.executorOf i with
  | false => rfl
  | true =>
      have hsame : Config.executorOf { cfg with para := p } i = true := hexecutor
      rw [hexecutor, hsame] at hi
      cases hpara : cfg.para <;> cases p <;> simp_all

end CollectAll

namespace CollectWindowed

variable {ε α : Type} {cfg : Config ε α}

/-! ## The windowed calls -/

/-- {lit}`collectAllWindowed`: {lit}`detail::collectAllWindowedImpl<true>`. -/
def collectAllWindowed (cfg : Config ε α) : Config ε α :=
  { cfg with para := true }

/-- {lit}`collectAllWindowedPara`: {lit}`detail::collectAllWindowedImpl<false>`. -/
def collectAllWindowedPara (cfg : Config ε α) : Config ε α :=
  { cfg with para := false }

/-- What a step of an awaiter starts. -/
def Batch.observeStart (cfg : Config ε α) (B : Batch ε α) (l : CollectAll.Label B.tasks.length) :
    List (Nat × CollectAll.Start) :=
  match CollectAll.step (cfg.group B.tasks) B.awaiter l with
  | none => []
  | some awaiter => CollectAll.observeStart B.awaiter l awaiter

/-- What a step starts, with the batch that it is in. -/
def observeStart (cfg : Config ε α) (s : State ε α) :
    Label → State ε α → List (Nat × Nat × CollectAll.Start)
  | .coroutine, _ => []
  | .awaiter b p, _ =>
      match s.batches[b]? with
      | none => []
      | some B =>
          match p.label B.tasks.length with
          | none => []
          | some l => (B.observeStart cfg l).map fun start => (b, start)

/-- The part of one batch. -/
def ofBatch (b : Nat) (seen : List (Nat × Nat × CollectAll.Start)) :
    List (Nat × CollectAll.Start) :=
  seen.filterMap fun start => if start.1 = b then some start.2 else none

/-- What a run has started in one window. -/
def windowStarts (cfg : Config ε α) (b : Nat) (ls : List Label) : List (Nat × CollectAll.Start) :=
  ofBatch b ((machine cfg).observed (observeStart cfg) (State.initial cfg) ls)

/-- In every run each window of at least two tasks is started like a plain call for its tasks:
what has been started of it is what some run of the plain call starts up to the same point of
{lit}`await_suspend`. -/
def StartsLike (windowed : Config ε α)
    (plain : ∀ {n : Nat}, CollectAll.Config n ε (fun _ => α) →
      CollectAll.Config n ε (fun _ => α)) : Prop :=
  ∀ ls s, (machine windowed).run (State.initial windowed) ls = some s →
    ∀ (b : Nat) (B : Batch ε α), s.batches[b]? = some B → 2 ≤ B.tasks.length →
      ∃ ks t, (CollectAll.machine (plain (windowed.group B.tasks))).run
          (CollectAll.State.initial (plain (windowed.group B.tasks))) ks = some t ∧
        t.main = B.awaiter.main ∧
        CollectAll.startsOf (plain (windowed.group B.tasks)) ks = windowStarts windowed b ls

/-! ## The run of a batch -/

@[simp]
theorem ofBatch_append (b : Nat) (seen seen' : List (Nat × Nat × CollectAll.Start)) :
    ofBatch b (seen ++ seen') = ofBatch b seen ++ ofBatch b seen' :=
  List.filterMap_append

theorem ofBatch_map_self (b : Nat) (starts : List (Nat × CollectAll.Start)) :
    ofBatch b (starts.map fun start => (b, start)) = starts := by
  simp [ofBatch, List.filterMap_map]

theorem ofBatch_map_of_ne {b b' : Nat} (hne : b ≠ b') (starts : List (Nat × CollectAll.Start)) :
    ofBatch b' (starts.map fun start => (b, start)) = [] := by
  simp [ofBatch, List.filterMap_map, hne]

/-- Every awaiter is at the end of a run of its own, of which the observations of its batch are
those of the coroutine's run. -/
structure Followed (cfg : Config ε α) (seen : List (Nat × Nat × CollectAll.Start))
    (s : State ε α) : Prop where
  batch : ∀ (b : Nat) (B : Batch ε α), s.batches[b]? = some B →
    ∃ ks, (CollectAll.machine (cfg.group B.tasks)).run
        (CollectAll.State.initial (cfg.group B.tasks)) ks = some B.awaiter ∧
      CollectAll.startsOf (cfg.group B.tasks) ks = ofBatch b seen
  later : ∀ b, s.batches.length ≤ b → ofBatch b seen = []

namespace Followed

variable {seen : List (Nat × Nat × CollectAll.Start)} {s s' : State ε α}

theorem initial (cfg : Config ε α) : Followed cfg [] (State.initial cfg) where
  batch := by simp [State.initial]
  later := fun _ _ => rfl

theorem coroutine (h : Followed cfg seen s) (hstep : coroutineStep cfg s = some s') :
    Followed cfg seen s' := by
  rcases coroutineStep_moves hstep with ⟨hbatches, -⟩ | ⟨tasks, hbatches, -⟩
  · refine ⟨?_, ?_⟩
    · rw [hbatches]
      exact h.batch
    · rw [hbatches]
      exact h.later
  · refine ⟨?_, ?_⟩
    · intro b B hb
      rw [hbatches, List.getElem?_append] at hb
      split at hb
      · exact h.batch b B hb
      · next hlater =>
          have hnew := List.mem_of_getElem? hb
          cases List.mem_singleton.mp hnew
          exact ⟨[], rfl, (h.later b (Nat.le_of_not_lt hlater)).symm⟩
    · intro b hb
      rw [hbatches, List.length_append] at hb
      exact h.later b (Nat.le_of_add_right_le hb)

theorem awaiter (h : Followed cfg seen s) {b : Nat} {B B' : Batch ε α}
    {l : CollectAll.Label B.tasks.length} (hb : s.batches[b]? = some B)
    (hstep : B.step cfg l = some B') :
    Followed cfg (seen ++ (B.observeStart cfg l).map fun start => (b, start))
      { s with batches := s.batches.set b B' } := by
  have hlt := (List.getElem?_eq_some_iff.mp hb).1
  refine ⟨?_, ?_⟩
  · intro k C hk
    by_cases hkb : b = k
    · subst hkb
      simp only [List.getElem?_set_self hlt, Option.some.injEq] at hk
      subst hk
      rw [Batch.step] at hstep
      split at hstep
      · cases hstep
      · rcases Option.map_eq_some_iff.mp hstep with ⟨awaiter, hawaiter, rfl⟩
        rcases h.batch b B hb with ⟨ks, hrun, hstarts⟩
        refine ⟨ks ++ [l], ?_, ?_⟩
        · exact (CollectAll.machine _).run_append hrun
            (((CollectAll.machine _).run_cons_eq_some).mpr ⟨awaiter, hawaiter, rfl⟩)
        · rw [ofBatch_append, ofBatch_map_self, ← hstarts, Batch.observeStart, hawaiter]
          exact (CollectAll.machine _).observed_concat CollectAll.observeStart hrun hawaiter
    · simp only [List.getElem?_set_ne hkb] at hk
      rcases h.batch k C hk with ⟨ks, hrun, hstarts⟩
      refine ⟨ks, hrun, ?_⟩
      rw [ofBatch_append, ofBatch_map_of_ne hkb, List.append_nil, hstarts]
  · intro k hk
    simp only [List.length_set] at hk
    have hkb : b ≠ k := by omega
    rw [ofBatch_append, ofBatch_map_of_ne hkb, List.append_nil, h.later k hk]

theorem step (h : Followed cfg seen s) {l : Label}
    (hstep : CollectWindowed.step cfg s l = some s') :
    Followed cfg (seen ++ observeStart cfg s l s') s' := by
  cases l with
  | coroutine =>
      rw [observeStart, List.append_nil]
      exact h.coroutine hstep
  | awaiter b p =>
      simp only [CollectWindowed.step, Option.bind_eq_some_iff, Option.map_eq_some_iff] at hstep
      rcases hstep with ⟨B, hb, l, hl, B', hB', rfl⟩
      simp only [observeStart, hb, hl]
      exact h.awaiter hb hB'

end Followed

/-- Every batch makes a run of {lit}`CollectAll`, and what that run starts is what is seen of the
batch. -/
theorem exists_run_of_batch {ls : List Label} {s : State ε α}
    (hrun : (machine cfg).run (State.initial cfg) ls = some s) {b : Nat} {B : Batch ε α}
    (hb : s.batches[b]? = some B) :
    ∃ ks, (CollectAll.machine (cfg.group B.tasks)).run
        (CollectAll.State.initial (cfg.group B.tasks)) ks = some B.awaiter ∧
      CollectAll.startsOf (cfg.group B.tasks) ks = windowStarts cfg b ls := by
  have h := (machine cfg).run_observed_invariant (observeStart cfg)
    (fun _ _ _ _ h hstep => h.step hstep) (Followed.initial cfg) hrun
  exact h.batch b B hb

/-! ## The windows of the input -/

/-- The whole input is one window when there is no limit, and when it fits into one. -/
def Config.windowSize (cfg : Config ε α) : Nat :=
  if cfg.maxConcurrency = 0 ∨ cfg.input.length ≤ cfg.maxConcurrency then cfg.input.length
  else cfg.maxConcurrency

/-- The tasks of a window. -/
def Config.window (cfg : Config ε α) (j : Nat) : List (Task ε α × Nat) :=
  (cfg.tasks.drop (j * cfg.windowSize)).take cfg.windowSize

/-- The coroutine is in its loop. -/
def Pc.looping : Pc → Bool
  | .loop | .batch | .yield => true
  | _ => false

/-- The groups are the windows, and all of them but the last one of the input are full. -/
structure Windows (cfg : Config ε α) (s : State ε α) : Prop where
  groups : ∀ (b : Nat) (g : List (Task ε α × Nat)), s.groups[b]? = some g → g = cfg.window b
  start : s.pc.looping = true →
    s.start = min cfg.input.length (s.groups.length * cfg.maxConcurrency)

/-- The number of windows is bounded by their size. -/
theorem Config.lt_of_window (cfg : Config ε α) {j m : Nat} (hj : cfg.window j ≠ [])
    (hm : cfg.input.length ≤ m * cfg.windowSize) : j < m := by
  by_contra hge
  have hmj : m * cfg.windowSize ≤ j * cfg.windowSize :=
    Nat.mul_le_mul_right _ (Nat.le_of_not_lt hge)
  refine hj ?_
  rw [Config.window, List.drop_eq_nil_of_le (by rw [length_tasks]; omega), List.take_nil]

namespace Windows

variable {s s' : State ε α}

theorem initial (cfg : Config ε α) : Windows cfg (State.initial cfg) where
  groups := by simp [State.groups, State.initial]
  start := fun h => Bool.noConfusion h

/-- The coroutine goes on with the same groups. -/
theorem goOn (h : Windows cfg s) (hgroups : s'.groups = s.groups)
    (hstart : s'.pc.looping = true →
      s'.start = min cfg.input.length (s.groups.length * cfg.maxConcurrency)) :
    Windows cfg s' where
  groups := by
    rw [hgroups]
    exact h.groups
  start := by
    rw [hgroups]
    exact hstart

/-- The coroutine forms the next window. -/
theorem form (h : Windows cfg s) (hgroups : s'.groups = s.groups ++ [cfg.window s.groups.length])
    (hstart : s'.pc.looping = true →
      s'.start = min cfg.input.length ((s.groups.length + 1) * cfg.maxConcurrency)) :
    Windows cfg s' where
  groups := by
    intro b g hb
    rw [hgroups, List.getElem?_append] at hb
    split at hb
    · exact h.groups b g hb
    · next hlater =>
        rw [List.getElem?_singleton] at hb
        split at hb
        · next hzero =>
            have hlast : b = s.groups.length := by omega
            cases hb
            rw [hlast]
        · cases hb
  start := by
    rw [hgroups, List.length_append, List.length_singleton]
    exact hstart

/-- The slice that the loop moves out of the input is the next window. -/
theorem next_window (hloop : InLoop cfg s.groups s) (hmore : s.start < cfg.input.length)
    (hfirst : s.start = s.groups.length * cfg.maxConcurrency) :
    cfg.window s.groups.length =
      (cfg.tasks.drop s.start).take (batchEnd cfg s.start - s.start) := by
  have hpositive := hloop.positive
  have hsmall := hloop.small
  have hsize : cfg.windowSize = cfg.maxConcurrency := if_neg (by omega)
  rw [Config.window, hsize, ← hfirst, List.take_eq_take_iff, hloop.batchEnd_eq, List.length_drop,
    length_tasks]
  omega

theorem coroutine (h : Windows cfg s) (hinv : Inv cfg s)
    (hstep : coroutineStep cfg s = some s') : Windows cfg s' := by
  have hstage := hinv.stage
  unfold coroutineStep at hstep
  split at hstep
  · next hpc =>
      rw [hpc] at hstage
      rcases hstage with ⟨hgroups, hstart, hinput, -, -⟩
      split at hstep
      · next hwhole =>
          rw [Inv.slice_whole hinput, Option.map_some, Option.some.injEq] at hstep
          subst hstep
          have hwindow : cfg.window s.groups.length = cfg.tasks := by
            rw [Config.window, Config.windowSize, if_pos hwhole, hgroups, List.length_nil,
              Nat.zero_mul, List.drop_zero, ← length_tasks, List.take_length]
          refine h.form ?_ (fun hloop => Bool.noConfusion hloop)
          rw [hwindow, State.groups, List.map_append]
          rfl
      · cases hstep
        refine h.goOn rfl fun _ => ?_
        simp [hgroups, hstart]
  · rcases Option.map_eq_some_iff.mp hstep with ⟨r, -, rfl⟩
    exact h.goOn rfl fun hloop => Bool.noConfusion hloop
  · next hpc =>
      rw [hpc] at hstage
      have hloop := hstage.1
      have hstart := h.start (by rw [hpc]; rfl)
      split at hstep
      · next hmore =>
          rw [hloop.slice_eq (Nat.le_of_lt (Inv.next_end hloop hmore).1), Option.map_some,
            Option.some.injEq] at hstep
          subst hstep
          have hfirst : s.start = s.groups.length * cfg.maxConcurrency := by omega
          refine h.form ?_ fun _ => ?_
          · rw [next_window hloop hmore hfirst, State.groups, List.map_append]
            rfl
          · rw [hloop.batchEnd_eq, hfirst, Nat.succ_mul]
      · cases hstep
        exact h.goOn rfl fun hloop => Bool.noConfusion hloop
  · next hpc =>
      rcases Option.map_eq_some_iff.mp hstep with ⟨r, -, rfl⟩
      exact h.goOn rfl fun _ => h.start (by rw [hpc]; rfl)
  · next hpc =>
      cases hstep
      exact h.goOn rfl fun _ => h.start (by rw [hpc]; rfl)
  · cases hstep
  · cases hstep

theorem step (h : Windows cfg s) (hinv : Inv cfg s) {l : Label}
    (hstep : CollectWindowed.step cfg s l = some s') : Windows cfg s' := by
  cases l with
  | coroutine => exact h.coroutine hinv hstep
  | awaiter b p =>
      simp only [CollectWindowed.step, Option.bind_eq_some_iff, Option.map_eq_some_iff] at hstep
      rcases hstep with ⟨B, hb, l, -, B', hB', rfl⟩
      exact h.goOn (State.groups_set hb (Batch.tasks_of_step hB')) h.start

/-- When all tasks are in the groups, every window is one of them. -/
theorem getElem?_groups (h : Windows cfg s) (hflatten : s.groups.flatten = cfg.tasks) {j : Nat}
    (hj : cfg.window j ≠ []) : s.groups[j]? = some (cfg.window j) := by
  have hsizes : ∀ k ∈ s.groups.map List.length, k ≤ cfg.windowSize := by
    intro k hk
    rcases List.mem_map.mp hk with ⟨g, hg, rfl⟩
    rcases List.mem_iff_getElem?.mp hg with ⟨b, hb⟩
    rw [h.groups b g hb]
    exact List.length_take_le _ _
  have hlength := List.sum_le_card_nsmul _ _ hsizes
  rw [← List.length_flatten, hflatten, length_tasks, List.length_map, smul_eq_mul] at hlength
  have hlt := cfg.lt_of_window hj hlength
  rw [List.getElem?_eq_getElem hlt, h.groups j _ (List.getElem?_eq_getElem hlt)]

end Windows

/-- What holds in every state of a call with a nonempty input. -/
theorem inv_windows {ls : List Label} {s : State ε α} (hm : cfg.input ≠ [])
    (hexecutor : cfg.yield = true → cfg.executor = true)
    (hrun : (machine cfg).run (State.initial cfg) ls = some s) : Inv cfg s ∧ Windows cfg s := by
  refine (machine cfg).run_invariant (P := fun s => Inv cfg s ∧ Windows cfg s) ?_
    ⟨Inv.initial cfg, Windows.initial cfg⟩ hrun
  rintro s l s' ⟨hinv, h⟩ hstep
  exact ⟨hinv.step hm hexecutor hstep, h.step hinv hstep⟩

/-- An empty input has no windows. -/
theorem tasks_eq_nil (hm : cfg.input = []) {ls : List Label} {s : State ε α}
    (hrun : (machine cfg).run (State.initial cfg) ls = some s) :
    ∀ B ∈ s.batches, B.tasks = [] := by
  have hlength : cfg.input.length = 0 := by rw [hm]; rfl
  have hstart : State.input (State.initial cfg) = [] ∧
      ∀ B ∈ (State.initial cfg).batches, B.tasks = [] := by
    simp [State.initial, Config.tasks, hm]
  refine ((machine cfg).run_invariant
    (P := fun s => s.input = [] ∧ ∀ B ∈ s.batches, B.tasks = []) ?_ hstart hrun).2
  rintro s l s' ⟨hinput, hbatches⟩ hstep
  cases l with
  | awaiter b p =>
      simp only [machine, CollectWindowed.step, Option.bind_eq_some_iff,
        Option.map_eq_some_iff] at hstep
      rcases hstep with ⟨B, hb, l, -, B', hB', rfl⟩
      rw [Batch.step, if_pos (hbatches B (List.mem_of_getElem? hb))] at hB'
      cases hB'
  | coroutine =>
      change coroutineStep cfg s = some s' at hstep
      unfold coroutineStep at hstep
      split at hstep
      · rw [if_pos (Or.inr (by omega)), hlength, State.slice, if_pos (Nat.le_refl 0),
          hinput] at hstep
        cases hstep
        refine ⟨rfl, fun B hB => ?_⟩
        rcases List.mem_append.mp hB with hold | hnew
        · exact hbatches B hold
        · cases List.mem_singleton.mp hnew
          rfl
      · rcases Option.map_eq_some_iff.mp hstep with ⟨r, -, rfl⟩
        exact ⟨hinput, hbatches⟩
      · rw [if_neg (by omega)] at hstep
        cases hstep
        exact ⟨hinput, hbatches⟩
      · rcases Option.map_eq_some_iff.mp hstep with ⟨r, -, rfl⟩
        exact ⟨hinput, hbatches⟩
      · cases hstep
        exact ⟨hinput, hbatches⟩
      · cases hstep
      · cases hstep

/-! ## The comparison -/

/-- No task of a window of two or more tasks has an executor, of its own or from the awaiting
coroutine. -/
def Config.NoExecutor (cfg : Config ε α) : Prop :=
  ∀ j, 2 ≤ (cfg.window j).length →
    ∀ t ∈ cfg.window j, t.1.hasExecutor = false ∧ cfg.executor = false

/-- Without executors all calls start their tasks in place. -/
theorem startsLike_of_noExecutor (cfg : Config ε α)
    (hexecutor : cfg.yield = true → cfg.executor = true) (hnone : cfg.NoExecutor) (p : Bool) :
    StartsLike cfg fun plain => { plain with para := p } := by
  intro ls s hrun b B hb hsize
  rcases exists_run_of_batch hrun hb with ⟨ks, hks, hstarts⟩
  have hm : cfg.input ≠ [] := by
    intro hm
    rw [tasks_eq_nil hm hrun B (List.mem_of_getElem? hb)] at hsize
    exact absurd hsize (Nat.not_le.mpr Nat.zero_lt_two)
  have hwindow : B.tasks = cfg.window b := by
    refine (inv_windows hm hexecutor hrun).2.groups b B.tasks ?_
    rw [State.groups, List.getElem?_map, hb, Option.map_some]
  have hnoneB := hnone b
  rw [← hwindow] at hnoneB
  have hexecutorOf : ∀ i, (cfg.group B.tasks).executorOf i = false := by
    intro i
    rcases hnoneB hsize _ (List.get_mem B.tasks i) with ⟨hown, hcoroutine⟩
    simp only [CollectAll.Config.executorOf, Config.group, hown, hcoroutine, Bool.or_false]
  rcases CollectAll.run_para hexecutorOf p hks with ⟨hplain, hsame⟩
  exact ⟨ks, B.awaiter, hplain, rfl, hsame.trans hstarts⟩

/-- The loop of a batch that has resumed the coroutine has gone through all tasks. -/
theorem Batch.Sound.length_le_next {B : Batch ε α} (h : B.Sound cfg) (hresumed : B.Resumed) :
    B.tasks.length ≤ B.awaiter.main.next := by
  by_contra hless
  have hwaiting := (h.inv.unstarted ⟨B.awaiter.main.next, Nat.lt_of_not_le hless⟩).mpr
    (Nat.le_refl _)
  have hcounted := h.oldCount_of_resumed hresumed ⟨B.awaiter.main.next, Nat.lt_of_not_le hless⟩
  rw [hwaiting] at hcounted
  cases hcounted

/-- A nonempty input can be brought to a state where every window has been started. -/
theorem exists_run_windows (hm : cfg.input ≠ [])
    (hexecutor : cfg.yield = true → cfg.executor = true) :
    ∃ ls s, (machine cfg).run (State.initial cfg) ls = some s ∧
      ∀ j, cfg.window j ≠ [] → ∃ B, s.batches[j]? = some B ∧ B.tasks = cfg.window j ∧
        B.tasks.length ≤ B.awaiter.main.next := by
  rcases Machine.exists_run_stuck _ (fun _ => True) (State.remaining cfg)
    (Inv.step_decreases hm hexecutor) (Inv.initial cfg) with ⟨ls, s, -, hrun, hinv, hstuck⟩
  have hpc := hinv.returned_of_stuck hstuck
  have hall := hinv.all_resumed (by rw [hpc]; rfl)
  have hstage := hinv.stage
  rw [hpc] at hstage
  refine ⟨ls, s, hrun, fun j hj => ?_⟩
  have hgroup := (inv_windows hm hexecutor hrun).2.getElem?_groups hstage.1 hj
  rw [State.groups, List.getElem?_map, Option.map_eq_some_iff] at hgroup
  rcases hgroup with ⟨B, hB, htasks⟩
  have hmem := List.mem_of_getElem? hB
  exact ⟨B, hB, htasks, (hinv.sound B hmem).length_le_next (hall B hmem)⟩

/-- A call with the other template argument starts a task that has an executor differently. -/
theorem noExecutor_of_startsLike (cfg : Config ε α)
    (hexecutor : cfg.yield = true → cfg.executor = true) {p : Bool} (hp : cfg.para ≠ p)
    (h : StartsLike cfg fun plain => { plain with para := p }) :
    cfg.NoExecutor := by
  intro j hsize t ht
  have hj : cfg.window j ≠ [] := by
    intro hnil
    rw [hnil] at hsize
    exact absurd hsize (Nat.not_le.mpr Nat.zero_lt_two)
  have hm : cfg.input ≠ [] := by
    intro hm
    refine hj ?_
    simp [Config.window, Config.tasks, hm]
  rcases exists_run_windows hm hexecutor with ⟨ls, s, hrun, hwindows⟩
  rcases hwindows j hj with ⟨B, hB, htasks, hnext⟩
  rw [← htasks] at hsize ht
  rcases h ls s hrun j B hB hsize with ⟨ks, u, hplain, hmain, hlike⟩
  rcases exists_run_of_batch hrun hB with ⟨ks', hrun', hstarts⟩
  rw [← hstarts, CollectAll.startsOf_eq hplain, CollectAll.startsOf_eq hrun', hmain,
    List.take_of_length_le (by rwa [CollectAll.Config.length_starts]),
    List.take_of_length_le (by rwa [CollectAll.Config.length_starts])] at hlike
  have hnone := CollectAll.executorOf_of_starts_eq hp hsize hlike
  rcases List.mem_iff_get.mp ht with ⟨i, rfl⟩
  simpa only [CollectAll.Config.executorOf, Config.group, Bool.or_eq_false_iff] using hnone i

/-- The windowed calls start their windows like the plain ones exactly if no window of two or
more tasks has an executor: each of the two passes the template argument of the other. -/
theorem windowed_startsLike_iff (cfg : Config ε α)
    (hexecutor : cfg.yield = true → cfg.executor = true) :
    StartsLike (collectAllWindowed cfg) CollectAll.collectAll ∧
        StartsLike (collectAllWindowedPara cfg) CollectAll.collectAllPara ↔
      ∀ j, 2 ≤ (cfg.window j).length →
        ∀ t ∈ cfg.window j, t.1.hasExecutor = false ∧ cfg.executor = false := by
  constructor
  · rintro ⟨h, -⟩
    exact noExecutor_of_startsLike (collectAllWindowed cfg) hexecutor
      Bool.false_ne_true.symm h
  · intro hnone
    exact ⟨startsLike_of_noExecutor (collectAllWindowed cfg) hexecutor hnone false,
      startsLike_of_noExecutor (collectAllWindowedPara cfg) hexecutor hnone true⟩

/-- A limit of one makes windows of one task. -/
def oneByOne : Config Unit Nat :=
  { threeTasks with maxConcurrency := 1, maxConcurrency_lt := by decide }

theorem windowed_startsLike_iff_oneByOne :
    (StartsLike (collectAllWindowed oneByOne) CollectAll.collectAll ∧
      StartsLike (collectAllWindowedPara oneByOne) CollectAll.collectAllPara) ∧
    ¬ (StartsLike (collectAllWindowed threeTasks) CollectAll.collectAll ∧
      StartsLike (collectAllWindowedPara threeTasks) CollectAll.collectAllPara) := by
  refine ⟨(windowed_startsLike_iff oneByOne fun _ => rfl).mpr fun j hsize => ?_, fun h => ?_⟩
  · have hone : (oneByOne.window j).length ≤ 1 := List.length_take_le _ _
    omega
  · have hnone := (windowed_startsLike_iff threeTasks fun _ => rfl).mp h 0 (by decide)
    exact absurd (hnone _ List.mem_cons_self).2 (by decide)

/-- Two tasks in one window, awaited by a coroutine with an executor. -/
def twoTasks : Config Unit Nat :=
  { threeTasks with
    yield := false
    input := [⟨false, .value 1⟩, ⟨false, .value 2⟩]
    size_lt := by decide }

theorem not_startsLike_twoTasks :
    ¬ StartsLike (collectAllWindowed twoTasks) CollectAll.collectAll ∧
      ¬ StartsLike (collectAllWindowedPara twoTasks) CollectAll.collectAllPara := by
  have hwindow : ¬ twoTasks.NoExecutor := by
    intro hnone
    exact absurd (hnone 0 (by decide) _ List.mem_cons_self).2 (by decide)
  have hyield : twoTasks.yield = true → twoTasks.executor = true := fun _ => rfl
  refine ⟨fun h => hwindow ?_, fun h => hwindow ?_⟩
  · exact noExecutor_of_startsLike (collectAllWindowed twoTasks) hyield
      Bool.false_ne_true.symm h
  · exact noExecutor_of_startsLike (collectAllWindowedPara twoTasks) hyield
      Bool.false_ne_true h

/-- Both tasks have been started by these steps. -/
def twoTasksRun : List Label :=
  Label.coroutine :: List.replicate 6 (Label.awaiter 0 Party.suspend)

example : windowStarts (collectAllWindowed twoTasks) 0 twoTasksRun =
      [(0, .submitted), (1, .submitted)] ∧
    windowStarts (collectAllWindowedPara twoTasks) 0 twoTasksRun =
      [(0, .inPlace), (1, .inPlace)] := by
  decide +kernel

end CollectWindowed

end AsyncSimple
