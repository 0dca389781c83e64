import AsyncSimple.Coro.CollectAll

/-!
# One resume after all results

The value that a completion finds in the counter is its place in the order of the
decrements.  The completion that finds one is the last; it alone takes the
handle, and all other tasks are past their accesses to the awaiter then.  The
completion that finds the number of tasks is the first and emits on the child
signal.

Main results:

- Theorem {lit}`Inv.step`: the invariant of the awaiter is kept by every step.
- Theorem {lit}`step_remaining`: every step decreases the work that is left.
- Theorem {lit}`collectAll_resumes_once`: one resume with all results, one
  emission and no access to a dead awaiter in every run.
-/

namespace AsyncSimple

open Transition

namespace CollectAll

variable {n : Nat} {ε : Type} {α : Fin n → Type}

/-! ## Program points -/

namespace TaskPc

theorem oldCount_of_takenCount {pc : TaskPc} {o : Int} (h : pc.takenCount = some o) :
    pc.oldCount = some o := by
  cases pc with
  | emit | resume | finished => exact h
  | _ => cases h

theorem oldCount_of_emittedCount {pc : TaskPc} {o : Int} (h : pc.emittedCount = some o) :
    pc.oldCount = some o := by
  cases pc with
  | resume | finished => exact h
  | _ => cases h

theorem oldCount_of_finishedCount {pc : TaskPc} {o : Int} (h : pc.finishedCount = some o) :
    pc.oldCount = some o := by
  cases pc with
  | finished => exact h
  | _ => cases h

/-- The handle was handed out to the decrement that found one. -/
def CoroTaken : TaskPc → Prop
  | .emit o awaitingCoro | .resume o awaitingCoro => awaitingCoro = true ↔ o = 1
  | _ => True

/-- The decrement comes after the store. -/
theorem stored_of_oldCount {pc : TaskPc} {o : Int} (h : pc.oldCount = some o) : pc.Stored := by
  cases pc with
  | unstarted | scheduled | running | store => cases h
  | _ => trivial

end TaskPc

namespace MainPc

/-- First task that the loop has not started yet. -/
def next : MainPc n → Nat
  | .createSignal | .setAwaitingCoro => 0
  | .loop i => i
  | .launch i => i
  | .returned => n

/-- The handle of the awaiting coroutine is in the event. -/
def CoroSet : MainPc n → Prop
  | .createSignal | .setAwaitingCoro => False
  | _ => True

theorem coroSet_of_pos {pc : MainPc n} (h : 0 < pc.next) : pc.CoroSet := by
  cases pc <;> simp_all [next, CoroSet]

end MainPc

/-! ## The invariant -/

/-- What holds of the awaiter while the tasks are started and complete. -/
structure Inv (cfg : Config n ε α) (s : State n ε α) : Prop where
  countDown : CountDown n s.downs (fun i => (s.task i).oldCount) s.event.count
  unstarted : ∀ i : Fin n, s.task i = .unstarted ↔ s.main.next ≤ i
  bound : s.main.next ≤ n
  awaiting : s.event.awaitingCoro = true ↔
    s.main.CoroSet ∧ ∀ i, (s.task i).takenCount ≠ some 1
  coro : ∀ i, (s.task i).CoroTaken
  stored : ∀ i, (s.task i).Stored → s.output i = cfg.outcome i
  emits : Logged s.emits fun p =>
    (s.task p.1).emittedCount = some (n : Int) ∧ p.2 = cfg.signalType
  resumes : Logged s.resumes fun i => (s.task i).finishedCount = some 1
  result : s.result = if s.resumes = [] then none else some cfg.outcome
  dangling : s.dangling = false

namespace Inv

variable {cfg : Config n ε α} {s s' : State n ε α}

theorem initial (cfg : Config n ε α) : Inv cfg (State.initial cfg) where
  countDown := CountDown.initial n fun _ => rfl
  unstarted := fun i => by simp [State.initial, MainPc.next]
  bound := Nat.zero_le n
  awaiting := by simp [State.initial, CountEvent.create, MainPc.CoroSet]
  coro := fun _ => trivial
  stored := fun i h => by simp [State.initial, TaskPc.Stored] at h
  emits := ⟨List.nodup_nil, fun p => by simp [State.initial, TaskPc.emittedCount]⟩
  resumes := ⟨List.nodup_nil, fun i => by simp [State.initial, TaskPc.finishedCount]⟩
  result := rfl
  dangling := rfl

theorem card_le (n : Nat) : Fintype.card (Fin n) ≤ n :=
  Nat.le_of_eq (Fintype.card_fin n)

/-- While a task has not decremented the counter the coroutine is suspended. -/
theorem resumes_nil_of_oldCount (h : Inv cfg s) {i : Fin n} (hi : (s.task i).oldCount = none) :
    s.resumes = [] := by
  rw [h.resumes.eq_nil_iff]
  intro j hj
  rcases h.countDown.all_of_one (card_le n) (TaskPc.oldCount_of_finishedCount hj) i with ⟨o, ho⟩
  rw [hi] at ho
  cases ho

/-- All tasks have decremented the counter when the coroutine is resumed. -/
theorem exists_oldCount_of_resumes (h : Inv cfg s) (hresumes : s.resumes ≠ []) (i : Fin n) :
    ∃ o, (s.task i).oldCount = some o := by
  by_contra hnone
  exact hresumes (h.resumes_nil_of_oldCount (Option.eq_none_iff_forall_ne_some.mpr
    fun o ho => hnone ⟨o, ho⟩))

/-- The last task is in {lit}`down`, so that nobody has resumed the coroutine. -/
theorem resumes_nil_of_take (h : Inv cfg s) {i : Fin n} (hi : s.task i = .take 1) :
    s.resumes = [] := by
  rw [h.resumes.eq_nil_iff]
  intro j hj
  have hold : (s.task i).oldCount = some 1 := by rw [hi]; rfl
  have hij : i = j := h.countDown.inj hold (TaskPc.oldCount_of_finishedCount hj)
  subst hij
  rw [hi] at hj
  cases hj

/-- Before the loop no task is started. -/
theorem resumes_nil_of_next (h : Inv cfg s) (hnext : s.main.next = 0) : s.resumes = [] := by
  rw [h.resumes.eq_nil_iff]
  intro i hi
  rw [(h.unstarted i).mpr (by rw [hnext]; exact Nat.zero_le _)] at hi
  cases hi

/-- Accesses before the resume leave no trace. -/
theorem access_eq (h : Inv cfg s) (hresumes : s.resumes = []) : s.access = s := by
  have hdangling := h.dangling
  cases s
  simp_all [State.access]

theorem unstarted_of_next_le (h : Inv cfg s) {i : Fin n} (hi : s.main.next ≤ i) :
    (s.task i).oldCount = none := by
  rw [(h.unstarted i).mpr hi]
  rfl

/-! ### Steps of the loop -/

/-- A step of the loop that starts no task. -/
theorem setMain (h : Inv cfg s) {pc : MainPc n} (hnext : pc.next = s.main.next)
    (hset : pc.CoroSet ↔ s.main.CoroSet) : Inv cfg (s.setMain pc) where
  countDown := h.countDown
  unstarted := fun i => by
    have hi := h.unstarted i
    rwa [← hnext] at hi
  bound := by
    have hbound := h.bound
    rwa [← hnext] at hbound
  awaiting := h.awaiting.trans (and_congr_left fun _ => hset.symm)
  coro := h.coro
  stored := h.stored
  emits := h.emits
  resumes := h.resumes
  result := h.result
  dangling := h.dangling

/-- The executors of the tasks play no role here. -/
theorem setExecutor (h : Inv cfg s) (hasExecutor : Fin n → Bool) :
    Inv cfg { s with hasExecutor := hasExecutor } :=
  ⟨h.countDown, h.unstarted, h.bound, h.awaiting, h.coro, h.stored, h.emits, h.resumes, h.result,
    h.dangling⟩

/-- A task that has not come to its decrement moves to another such point, perhaps
because the loop starts it. -/
theorem move (h : Inv cfg s) {i : Fin n} {pc : TaskPc} {main : MainPc n}
    (hold : (s.task i).oldCount = none) (hold' : pc.oldCount = none)
    (hunstarted : ∀ j : Fin n, Function.update s.task i pc j = .unstarted ↔ main.next ≤ j)
    (hbound : main.next ≤ n) (hset : main.CoroSet ↔ s.main.CoroSet)
    (hstored : pc.Stored → s.output i = cfg.outcome i) :
    Inv cfg ((s.setTask i pc).setMain main) := by
  have hsame : ∀ {f : TaskPc → Option Int}, (∀ {pc o}, f pc = some o → pc.oldCount = some o) →
      ∀ j, f (Function.update s.task i pc j) = f (s.task j) := by
    intro f hf
    apply apply_update_of_eq
    have hnone : ∀ {pc : TaskPc}, pc.oldCount = none → f pc = none := by
      intro pc hpc
      rw [Option.eq_none_iff_forall_ne_some]
      intro o ho
      rw [hf ho] at hpc
      cases hpc
    rw [hnone hold, hnone hold']
  have hcoro : pc.CoroTaken := by
    cases pc <;> simp_all [TaskPc.CoroTaken, TaskPc.oldCount]
  refine ⟨h.countDown.congr (hsame id), hunstarted, hbound, ?_, ?_, ?_,
    h.emits.congr fun p => ?_, h.resumes.congr fun j => ?_, h.result, h.dangling⟩
  · refine h.awaiting.trans (and_congr hset.symm (forall_congr' fun j => ?_))
    rw [State.setMain, State.setTask, hsame TaskPc.oldCount_of_takenCount]
  · exact forall_update hcoro h.coro
  · exact forall_update (p := fun i (pc : TaskPc) => pc.Stored → s.output i = cfg.outcome i)
      hstored h.stored
  · rw [State.setMain, State.setTask, hsame TaskPc.oldCount_of_emittedCount]
  · rw [State.setMain, State.setTask, hsame TaskPc.oldCount_of_finishedCount]

/-- A started task moves on: it stays started. -/
theorem update_unstarted (h : Inv cfg s) {i : Fin n} {pc : TaskPc} (hi : s.task i ≠ .unstarted)
    (hpc : pc ≠ .unstarted) (j : Fin n) :
    Function.update s.task i pc j = .unstarted ↔ s.main.next ≤ j := by
  rw [← h.unstarted j]
  by_cases hj : j = i
  · subst hj
    simp [hi, hpc]
  · rw [Function.update_of_ne hj]

/-- A task whose result is stored moves on. -/
theorem stored_update (h : Inv cfg s) {i : Fin n} {pc : TaskPc} (hi : (s.task i).Stored)
    (j : Fin n) (hj : (Function.update s.task i pc j).Stored) : s.output j = cfg.outcome j := by
  by_cases hji : j = i
  · subst hji
    exact h.stored j hi
  · rw [Function.update_of_ne hji] at hj
    exact h.stored j hj

/-- A started task moves before its decrement. -/
theorem setTask (h : Inv cfg s) {i : Fin n} {pc : TaskPc} (hi : s.task i ≠ .unstarted)
    (hold : (s.task i).oldCount = none) (hpc : pc ≠ .unstarted) (hold' : pc.oldCount = none)
    (hstored : pc.Stored → s.output i = cfg.outcome i) : Inv cfg (s.setTask i pc) :=
  h.move hold hold' (h.update_unstarted hi hpc) h.bound Iff.rfl hstored

/-- The handle is stored before the loop starts the first task. -/
theorem setAwaitingCoro (h : Inv cfg s) (hmain : s.main = .setAwaitingCoro) :
    Inv cfg { s.setMain (.loop 0) with event := s.event.setAwaitingCoro } := by
  have hunstarted : ∀ i, s.task i = .unstarted := fun i =>
    (h.unstarted i).mpr (by rw [hmain]; exact Nat.zero_le _)
  refine ⟨h.countDown, fun i => ?_, Nat.zero_le n, ?_, h.coro, h.stored, h.emits, h.resumes,
    h.result, h.dangling⟩
  · simp [State.setMain, hunstarted i, MainPc.next]
  · simp [State.setMain, MainPc.CoroSet, hunstarted, TaskPc.takenCount]

theorem step_main (h : Inv cfg s) (hstep : mainStep cfg s = some s') : Inv cfg s' := by
  -- a step that touches the awaiter comes before the start of some task
  have haccess : ∀ i : Fin n, s.main.next ≤ i → s.access = s := fun i hi =>
    h.access_eq (h.resumes_nil_of_oldCount (h.unstarted_of_next_le hi))
  unfold mainStep at hstep
  split at hstep
  case h_1 hmain =>
    cases hstep
    rw [h.access_eq (h.resumes_nil_of_next (by rw [hmain]; rfl))]
    exact h.setMain (by rw [hmain]; rfl) (by rw [hmain]; rfl)
  case h_2 hmain =>
    cases hstep
    rw [h.access_eq (h.resumes_nil_of_next (by rw [hmain]; rfl))]
    exact h.setAwaitingCoro hmain
  case h_3 i hmain =>
    split at hstep
    case isTrue hlt =>
      cases hstep
      rw [haccess ⟨i, hlt⟩ (by rw [hmain]; exact le_rfl)]
      have hset : Inv cfg (s.setMain (.launch ⟨i, hlt⟩)) :=
        h.setMain (by rw [hmain]; rfl) (by rw [hmain]; rfl)
      exact hset.setExecutor _
    case isFalse hge =>
      cases hstep
      have hbound := h.bound
      rw [hmain] at hbound
      have hi : i = n := Nat.le_antisymm hbound (Nat.le_of_not_lt hge)
      exact h.setMain (by rw [hmain, hi]; rfl) (by rw [hmain]; rfl)
  case h_4 i hmain =>
    cases hstep
    rw [haccess i (by rw [hmain]; exact le_rfl)]
    have hold := h.unstarted_of_next_le (i := i) (by rw [hmain]; exact le_rfl)
    refine h.move hold ?_ (fun j => ?_) i.isLt (by rw [hmain]; rfl) ?_
    · split <;> rfl
    · by_cases hj : j = i
      · subst hj
        rw [Function.update_self]
        simp only [MainPc.next]
        split <;> simp
      · rw [Function.update_of_ne hj, h.unstarted j, hmain]
        simp only [MainPc.next]
        have hne : (j : Nat) ≠ i := fun heq => hj (Fin.ext heq)
        omega
    · split <;> exact False.elim
  case h_5 => cases hstep

/-! ### Steps of the callbacks -/

/-- The result goes to the output before the task can be counted. -/
theorem store (h : Inv cfg s) {i : Fin n} (hi : s.task i = .store) :
    Inv cfg { s.setTask i .copy with output := Function.update s.output i (cfg.outcome i) } := by
  have hold : (s.task i).oldCount = none := by rw [hi]; rfl
  have houtput : Inv cfg { s with output := Function.update s.output i (cfg.outcome i) } := by
    refine ⟨h.countDown, h.unstarted, h.bound, h.awaiting, h.coro, ?_, h.emits, h.resumes,
      h.result, h.dangling⟩
    intro j hj
    by_cases hji : j = i
    · subst hji
      simp
    · simp only [Function.update_of_ne hji]
      exact h.stored j hj
  exact houtput.setTask (by simp [hi]) hold nofun rfl fun _ => by simp

/-- The decrement puts the task at its place in the order. -/
theorem down (h : Inv cfg s) {i : Fin n} (hi : s.task i = .down) :
    Inv cfg { s.setTask i (.take s.event.count) with
      event := s.event.downCount.2
      downs := s.downs ++ [i] } := by
  have hold : (s.task i).oldCount = none := by rw [hi]; rfl
  have hstarted : ∀ j : Fin n, Function.update s.task i (.take s.event.count) j = .unstarted ↔
      s.main.next ≤ j := h.update_unstarted (by simp [hi]) nofun
  have hsame : ∀ f : TaskPc → Option Int, f (.take s.event.count) = f .down →
      ∀ j, f (Function.update s.task i (.take s.event.count) j) = f (s.task j) := by
    intro f hf
    exact apply_update_of_eq (by rw [hf, hi])
  refine ⟨(h.countDown.down hold).congr fun j => ?_, hstarted, h.bound, ?_,
    forall_update trivial h.coro, ?_, h.emits.congr fun p => ?_, h.resumes.congr fun j => ?_,
    h.result, h.dangling⟩
  · exact Function.apply_update (fun _ => TaskPc.oldCount) s.task i _ j
  · refine h.awaiting.trans (and_congr_right fun _ => forall_congr' fun j => ?_)
    rw [State.setTask, hsame TaskPc.takenCount rfl]
  · exact h.stored_update (by rw [hi]; trivial)
  · rw [State.setTask, hsame TaskPc.emittedCount rfl]
  · rw [State.setTask, hsame TaskPc.finishedCount rfl]

/-- Only the last completion touches the handle. -/
theorem take (h : Inv cfg s) {i : Fin n} {oldCount : Int} (hi : s.task i = .take oldCount) :
    Inv cfg { s.setTask i (.emit oldCount (s.event.takeAwaitingCoro oldCount).1) with
      event := (s.event.takeAwaitingCoro oldCount).2 } := by
  have hold : (s.task i).oldCount = some oldCount := by rw [hi]; rfl
  have hne : s.task i ≠ .unstarted := by simp [hi]
  have hstored : (s.task i).Stored := TaskPc.stored_of_oldCount hold
  have hset : s.main.CoroSet := by
    have hlt : i < s.main.next := Nat.lt_of_not_le fun hle => hne ((h.unstarted i).mpr hle)
    exact MainPc.coroSet_of_pos (Nat.zero_lt_of_lt hlt)
  have hsame : ∀ f : TaskPc → Option Int, (∀ c, f (.emit oldCount c) = f (.take oldCount)) →
      ∀ c j, f (Function.update s.task i (.emit oldCount c) j) = f (s.task j) := by
    intro f hf c
    exact apply_update_of_eq (by rw [hf, hi])
  -- nobody else has found one, so that the handle is still there
  have hthere : oldCount = 1 → s.event.awaitingCoro = true := by
    rintro rfl
    refine h.awaiting.mpr ⟨hset, fun j hj => ?_⟩
    have hij : i = j := h.countDown.inj hold (TaskPc.oldCount_of_takenCount hj)
    subst hij
    rw [hi] at hj
    cases hj
  refine ⟨?_, h.update_unstarted hne nofun, h.bound, ?_, forall_update ?_ h.coro,
    h.stored_update hstored, h.emits.congr fun p => ?_, h.resumes.congr fun j => ?_, h.result,
    h.dangling⟩
  · rw [CountEvent.takeAwaitingCoro_count]
    exact h.countDown.congr (hsame TaskPc.oldCount (fun _ => rfl) _)
  · by_cases hone : oldCount = 1
    · subst hone
      simp only [CountEvent.takeAwaitingCoro_one, Bool.false_eq_true, false_iff]
      rintro ⟨-, hnone⟩
      exact hnone i (by simp [State.setTask, TaskPc.takenCount])
    · rw [CountEvent.takeAwaitingCoro_of_ne s.event hone, h.awaiting]
      refine and_congr_right fun _ => forall_congr' fun j => ?_
      by_cases hj : j = i
      · subst hj
        simp [State.setTask, hi, TaskPc.takenCount, hone]
      · simp [State.setTask, hj]
  · by_cases hone : oldCount = 1
    · subst hone
      simp [TaskPc.CoroTaken, CountEvent.takeAwaitingCoro_one, hthere rfl]
    · simp [TaskPc.CoroTaken, CountEvent.takeAwaitingCoro_of_ne s.event hone, hone]
  · rw [State.setTask, hsame TaskPc.emittedCount fun _ => rfl]
  · rw [State.setTask, hsame TaskPc.finishedCount fun _ => rfl]

/-- The first completion emits on the child signal. -/
theorem emit (h : Inv cfg s) {i : Fin n} {oldCount : Int} {awaitingCoro : Bool}
    (hi : s.task i = .emit oldCount awaitingCoro) :
    Inv cfg { s.setTask i (.resume oldCount awaitingCoro) with
      emits := if oldCount = n then s.emits ++ [(i, cfg.signalType)] else s.emits } := by
  have hold : (s.task i).oldCount = some oldCount := by rw [hi]; rfl
  have hstored : (s.task i).Stored := TaskPc.stored_of_oldCount hold
  have hcoro := h.coro i
  rw [hi] at hcoro
  have hsame : ∀ f : TaskPc → Option Int,
      f (.resume oldCount awaitingCoro) = f (.emit oldCount awaitingCoro) →
      ∀ j, f (Function.update s.task i (.resume oldCount awaitingCoro) j) = f (s.task j) := by
    intro f hf
    exact apply_update_of_eq (by rw [hf, hi])
  refine ⟨h.countDown.congr (hsame TaskPc.oldCount rfl),
    h.update_unstarted (by simp [hi]) nofun, h.bound, ?_, forall_update hcoro h.coro,
    h.stored_update hstored, ?_, h.resumes.congr fun j => ?_, h.result, h.dangling⟩
  · refine h.awaiting.trans (and_congr_right fun _ => forall_congr' fun j => ?_)
    rw [State.setTask, hsame TaskPc.takenCount rfl]
  · split
    case isTrue hfirst =>
      refine h.emits.append (by simp [hi, TaskPc.emittedCount]) fun p => ?_
      rcases p with ⟨j, type⟩
      by_cases hj : j = i
      · subst hj
        simp [State.setTask, TaskPc.emittedCount, hi, hfirst]
      · simp [State.setTask, hj]
    case isFalse hlater =>
      refine h.emits.congr fun p => ?_
      rcases p with ⟨j, type⟩
      by_cases hj : j = i
      · subst hj
        simp [State.setTask, TaskPc.emittedCount, hi, hlater]
      · simp [State.setTask, hj]
  · rw [State.setTask, hsame TaskPc.finishedCount rfl]

/-- All results are stored when the handle is used. -/
theorem resume (h : Inv cfg s) {i : Fin n} {oldCount : Int} {awaitingCoro : Bool}
    (hi : s.task i = .resume oldCount awaitingCoro) :
    Inv cfg (if awaitingCoro then
      { s.setTask i (.finished oldCount) with
        resumes := s.resumes ++ [i]
        result := some s.output }
      else s.setTask i (.finished oldCount)) := by
  have hold : (s.task i).oldCount = some oldCount := by rw [hi]; rfl
  have hstored : (s.task i).Stored := TaskPc.stored_of_oldCount hold
  have hcoro := h.coro i
  rw [hi] at hcoro
  have hsame : ∀ f : TaskPc → Option Int,
      f (.finished oldCount) = f (.resume oldCount awaitingCoro) →
      ∀ j, f (Function.update s.task i (.finished oldCount) j) = f (s.task j) := by
    intro f hf
    exact apply_update_of_eq (by rw [hf, hi])
  have hstarted : ∀ j : Fin n, Function.update s.task i (.finished oldCount) j = .unstarted ↔
      s.main.next ≤ j := h.update_unstarted (by simp [hi]) nofun
  have hawaiting : s.event.awaitingCoro = true ↔ s.main.CoroSet ∧
      ∀ j, (Function.update s.task i (.finished oldCount) j).takenCount ≠ some 1 := by
    refine h.awaiting.trans (and_congr_right fun _ => forall_congr' fun j => ?_)
    rw [hsame TaskPc.takenCount rfl]
  have hemits := h.emits.congr (Q := fun p => (Function.update s.task i (.finished oldCount)
      p.1).emittedCount = some (n : Int) ∧ p.2 = cfg.signalType) fun p => by
    rw [hsame TaskPc.emittedCount rfl]
  have hcountDown := h.countDown.congr (hsame TaskPc.oldCount rfl)
  cases awaitingCoro with
  | true =>
      have hone : oldCount = 1 := hcoro.mp rfl
      subst hone
      have houtput : s.output = cfg.outcome := by
        funext j
        rcases h.countDown.all_of_one (card_le n) hold j with ⟨o, ho⟩
        exact h.stored j (TaskPc.stored_of_oldCount ho)
      refine ⟨hcountDown, hstarted, h.bound, hawaiting, forall_update trivial h.coro,
        h.stored_update hstored, hemits, ?_, ?_, h.dangling⟩
      · refine h.resumes.append (by simp [hi, TaskPc.finishedCount]) fun j => ?_
        by_cases hj : j = i
        · subst hj
          simp [State.setTask, TaskPc.finishedCount]
        · simp [State.setTask, hj]
      · simp [State.setTask, houtput]
  | false =>
      have hone : oldCount ≠ 1 := fun hone => Bool.noConfusion (hcoro.mpr hone)
      refine ⟨hcountDown, hstarted, h.bound, hawaiting, forall_update trivial h.coro,
        h.stored_update hstored, hemits, h.resumes.congr fun j => ?_, h.result, h.dangling⟩
      by_cases hj : j = i
      · subst hj
        simp [State.setTask, TaskPc.finishedCount, hi, hone]
      · simp [State.setTask, hj]

theorem step_task (h : Inv cfg s) {i : Fin n} (hstep : taskStep cfg s i = some s') :
    Inv cfg s' := by
  have haccess : (s.task i).oldCount = none → s.access = s := fun hold =>
    h.access_eq (h.resumes_nil_of_oldCount hold)
  unfold taskStep at hstep
  split at hstep
  case h_1 | h_2 => cases hstep
  case h_3 hi =>
    cases hstep
    rw [haccess (by rw [hi]; rfl)]
    exact h.setTask (by simp [hi]) (by rw [hi]; rfl) nofun rfl False.elim
  case h_4 hi =>
    cases hstep
    exact h.setTask (by simp [hi]) (by rw [hi]; rfl) nofun rfl False.elim
  case h_5 hi =>
    cases hstep
    rw [haccess (by rw [hi]; rfl)]
    exact h.store hi
  case h_6 hi =>
    cases hstep
    rw [haccess (by rw [hi]; rfl)]
    exact h.setTask (by simp [hi]) (by rw [hi]; rfl) nofun rfl fun _ =>
      h.stored i (by rw [hi]; trivial)
  case h_7 hi =>
    cases hstep
    rw [haccess (by rw [hi]; rfl)]
    exact h.down hi
  case h_8 oldCount hi =>
    cases hstep
    have hif : (if oldCount = 1 then s.access else s) = s := by
      split
      case isTrue hone =>
        subst hone
        exact h.access_eq (h.resumes_nil_of_take hi)
      case isFalse => rfl
    rw [hif]
    exact h.take hi
  case h_9 oldCount awaitingCoro hi =>
    cases hstep
    exact h.emit hi
  case h_10 oldCount awaitingCoro hi =>
    have hresume := h.resume hi
    split at hstep
    · cases hstep
      simpa [*] using hresume
    · cases hstep
      simpa [*] using hresume

theorem step (h : Inv cfg s) {l : Label n} (hstep : CollectAll.step cfg s l = some s') :
    Inv cfg s' := by
  cases l with
  | main => exact h.step_main hstep
  | task i => exact h.step_task hstep

end Inv

/-! ## Every run comes to an end -/

/-- Steps left for a task and its callback. -/
def TaskPc.remaining : TaskPc → Nat
  | .unstarted => 9
  | .scheduled => 8
  | .running => 7
  | .store => 6
  | .copy => 5
  | .down => 4
  | .take _ => 3
  | .emit _ _ => 2
  | .resume _ _ => 1
  | .finished _ => 0

/-- Steps left for {lit}`await_suspend`. -/
def MainPc.remaining : MainPc n → Nat
  | .createSignal => 2 * n + 3
  | .setAwaitingCoro => 2 * n + 2
  | .loop i => 2 * (n - i) + 1
  | .launch i => 2 * (n - i)
  | .returned => 0

def State.remaining (s : State n ε α) : Nat :=
  s.main.remaining + ∑ i, (s.task i).remaining

section

variable {cfg : Config n ε α} {s s' : State n ε α}

theorem State.remaining_setTask {i : Fin n} {pc : TaskPc}
    (hpc : pc.remaining < (s.task i).remaining) : (s.setTask i pc).remaining < s.remaining :=
  Nat.add_lt_add_left (sum_update_lt hpc) _

theorem Inv.mainStep_remaining (h : Inv cfg s) (hstep : mainStep cfg s = some s') :
    s'.remaining < s.remaining := by
  unfold mainStep at hstep
  split at hstep
  case h_1 hmain | h_2 hmain =>
    cases hstep
    simp [State.remaining, State.setMain, State.access, hmain, MainPc.remaining]
  case h_3 i hmain =>
    split at hstep <;> cases hstep <;>
      simp [State.remaining, State.setMain, State.access, hmain, MainPc.remaining]
  case h_4 i hmain =>
    cases hstep
    have hi : s.task i = .unstarted := (h.unstarted i).mpr (by rw [hmain]; exact le_rfl)
    have htask : ∀ pc : TaskPc, pc.remaining < 9 →
        (s.setTask i pc).remaining < s.remaining := fun pc hpc =>
      State.remaining_setTask (by rw [hi]; exact hpc)
    have hstarted := htask (if cfg.para && decide (1 < n) && s.hasExecutor i then .scheduled
      else .running) (by split <;> decide)
    have hlt := i.isLt
    simp only [State.remaining, State.setTask, State.setMain, State.access, hmain,
      MainPc.remaining] at hstarted ⊢
    omega
  case h_5 => cases hstep

theorem taskStep_remaining {i : Fin n} (hstep : taskStep cfg s i = some s') :
    s'.remaining < s.remaining := by
  have hless : ∀ {pc pc' : TaskPc}, s.task i = pc' → pc.remaining < pc'.remaining →
      (s.setTask i pc).remaining < s.remaining := by
    rintro pc pc' rfl hpc
    exact State.remaining_setTask hpc
  unfold taskStep at hstep
  split at hstep
  case h_1 | h_2 => cases hstep
  case h_3 hi | h_4 hi | h_5 hi | h_6 hi | h_7 hi | h_9 hi =>
    cases hstep
    exact hless hi (by simp [TaskPc.remaining])
  case h_8 hi =>
    cases hstep
    split <;> exact hless hi (by simp [TaskPc.remaining])
  case h_10 hi =>
    split at hstep <;> cases hstep <;> exact hless hi (by simp [TaskPc.remaining])

/-- The work of a whole call. -/
theorem State.remaining_initial (cfg : Config n ε α) :
    (State.initial cfg).remaining = 11 * n + 3 := by
  have htasks : ∑ _i : Fin n, TaskPc.unstarted.remaining = Fintype.card (Fin n) * 9 :=
    Finset.sum_const_nat fun _ _ => rfl
  rw [Fintype.card_fin] at htasks
  simp only [State.remaining, State.initial, MainPc.remaining, htasks]
  omega

/-- Every step decreases the work that is left. -/
theorem Inv.step_remaining (h : Inv cfg s) {l : Label n}
    (hstep : CollectAll.step cfg s l = some s') : s'.remaining < s.remaining := by
  cases l with
  | main => exact h.mainStep_remaining hstep
  | task i => exact taskStep_remaining hstep

/-- Nothing is left to do only when the loop and all callbacks have ended. -/
theorem Inv.finished_of_stuck (h : Inv cfg s) (hstuck : (machine cfg).Stuck (fun _ => True) s)
    (i : Fin n) :
    ∃ o, s.task i = .finished o := by
  have hmain : s.main = .returned := by
    have hnone : mainStep cfg s = none := hstuck .main trivial
    unfold mainStep at hnone
    split at hnone
    case h_5 hmain => exact hmain
    case h_3 => split at hnone <;> cases hnone
    all_goals cases hnone
  have hnone : taskStep cfg s i = none := hstuck (.task i) trivial
  unfold taskStep at hnone
  split at hnone
  case h_1 hi =>
    have hle := (h.unstarted i).mp hi
    rw [hmain] at hle
    exact absurd i.isLt (Nat.not_lt_of_le hle)
  case h_2 o hi => exact ⟨o, hi⟩
  case h_10 => split at hnone <;> cases hnone
  all_goals cases hnone

end

/-! ## All runs -/

/-- What a call of {lit}`collectAll` promises in every state: the coroutine is
resumed at most once and then with all results; the first completion, and only
it, emits on the child signal; nobody touches the awaiter after the resume; and
when nothing is left to do both the resume and the emission have happened. -/
structure Collected (cfg : Config n ε α) (s : State n ε α) : Prop where
  resumedOnce : s.resumes.length ≤ 1
  afterAll : s.resumes ≠ [] → ∀ i, (s.task i).Stored ∧ s.output i = cfg.outcome i
  result : s.resumes ≠ [] → s.result = some cfg.outcome
  emittedOnce : s.emits.length ≤ 1
  byFirst : ∀ i type, (i, type) ∈ s.emits → s.downs.head? = some i ∧ type = cfg.signalType
  safe : s.dangling = false
  complete : (machine cfg).Stuck (fun _ => True) s →
    s.resumes.length = 1 ∧ ∃ i, s.downs.head? = some i ∧ s.emits = [(i, cfg.signalType)]

theorem Inv.collected {cfg : Config n ε α} {s : State n ε α} (h : Inv cfg s) (hn : 0 < n) :
    Collected cfg s := by
  have hone : ∀ i j, (s.task i).finishedCount = some 1 → (s.task j).finishedCount = some 1 →
      i = j := fun i j hi hj => h.countDown.inj (TaskPc.oldCount_of_finishedCount hi)
    (TaskPc.oldCount_of_finishedCount hj)
  have hfirst : ∀ p q : Fin n × Signal.SignalType,
      ((s.task p.1).emittedCount = some (n : Int) ∧ p.2 = cfg.signalType) →
      ((s.task q.1).emittedCount = some (n : Int) ∧ q.2 = cfg.signalType) → p = q := by
    rintro ⟨i, t⟩ ⟨j, u⟩ ⟨hi, rfl⟩ ⟨hj, rfl⟩
    have hij : i = j := h.countDown.inj (TaskPc.oldCount_of_emittedCount hi)
      (TaskPc.oldCount_of_emittedCount hj)
    rw [hij]
  refine ⟨h.resumes.length_le_one hone, ?_, ?_, h.emits.length_le_one hfirst, ?_, h.dangling, ?_⟩
  · intro hresumed j
    rcases List.exists_mem_of_ne_nil _ hresumed with ⟨i, hi⟩
    have hlast := TaskPc.oldCount_of_finishedCount ((h.resumes.mem_iff i).mp hi)
    rcases h.countDown.all_of_one (Inv.card_le n) hlast j with ⟨o, ho⟩
    have hstored := TaskPc.stored_of_oldCount ho
    exact ⟨hstored, h.stored j hstored⟩
  · intro hresumed
    rw [h.result, if_neg hresumed]
  · intro i type hmem
    rcases (h.emits.mem_iff (i, type)).mp hmem with ⟨hi, htype⟩
    exact ⟨(h.countDown.first_iff i).mp (TaskPc.oldCount_of_emittedCount hi), htype⟩
  · intro hstuck
    have hfinished := h.finished_of_stuck hstuck
    have hall : ∀ i, ∃ o, (s.task i).oldCount = some o := fun i => by
      rcases hfinished i with ⟨o, ho⟩
      exact ⟨o, by rw [ho]; rfl⟩
    have hcard : Fintype.card (Fin n) = n := Fintype.card_fin n
    constructor
    · rcases h.countDown.exists_of_all hall (k := n - 1) (by omega) with ⟨i, hi⟩
      rcases hfinished i with ⟨o, ho⟩
      rw [ho] at hi
      have hlast : (s.task i).finishedCount = some 1 := by
        rw [ho]
        simp only [TaskPc.oldCount, Option.some.injEq] at hi
        simp only [TaskPc.finishedCount, Option.some.injEq]
        omega
      rw [h.resumes.eq_singleton hone hlast]
      rfl
    · rcases h.countDown.exists_of_all hall (k := 0) (by omega) with ⟨i, hi⟩
      rcases hfinished i with ⟨o, ho⟩
      have hstart : (s.task i).oldCount = some (n : Int) := by simpa using hi
      refine ⟨i, (h.countDown.first_iff i).mp hstart, h.emits.eq_singleton hfirst ⟨?_, rfl⟩⟩
      rw [ho] at hstart ⊢
      exact hstart

/-- For every number of tasks, every assignment of results and every order of the
steps, a call of {lit}`collectAll` keeps its promise; each run is finite and can
be brought to its end. -/
theorem collectAll_resumes_once (cfg : Config n ε α) (hn : 0 < n) (ls : List (Label n))
    (s : State n ε α) (hrun : (machine cfg).run (State.initial cfg) ls = some s) :
    Collected cfg s ∧ ls.length ≤ 11 * n + 3 ∧
      ∃ ks t, (machine cfg).run s ks = some t ∧ Collected cfg t ∧
        (machine cfg).Stuck (fun _ => True) t := by
  have hstep : ∀ s l s', Inv cfg s → (machine cfg).step s l = some s' →
      Inv cfg s' ∧ s'.remaining < s.remaining := fun s l s' h hs =>
    ⟨h.step hs, h.step_remaining hs⟩
  have hinv : Inv cfg s :=
    Machine.run_invariant _ (fun s l s' h hs => (hstep s l s' h hs).1) (Inv.initial cfg) hrun
  have hlength := Machine.run_length_le _ State.remaining hstep (Inv.initial cfg) hrun
  rw [State.remaining_initial] at hlength
  rcases Machine.exists_run_stuck _ (fun _ => True) State.remaining hstep hinv with
    ⟨ks, t, -, ht, hinv', hstuck⟩
  exact ⟨hinv.collected hn, by omega, ks, t, ht, hinv'.collected hn, hstuck⟩

/-- Two tasks, one of which completes inside the loop and the other on its executor
after the loop. -/
def inlineThenLater (later : Fin 2) : Config 2 Unit (fun _ => Nat) where
  para := true
  signalType := 1#64
  executor := false
  taskExecutor := fun i => i = later
  outcome := fun i => if i = later then .error () else .value 7

def inlineThenLaterRun (i j : Fin 2) : List (Label 2) :=
  [.main, .main, .main, .main] ++ List.replicate 7 (.task i) ++ [.main, .main, .main] ++
    List.replicate 8 (.task j)

theorem collectAll_resumes_once_inlineThenLater :
    ∃ s, (machine (inlineThenLater 1)).run (State.initial (inlineThenLater 1))
        (inlineThenLaterRun 0 1) = some s ∧
      (s.downs = [0, 1] ∧ s.emits = [(0, 1#64)] ∧ s.resumes = [1]) ∧
      Collected (inlineThenLater 1) s := by
  rcases (machine (inlineThenLater 1)).exists_run_of_any (State.initial (inlineThenLater 1))
    (inlineThenLaterRun 0 1) (fun s => s.downs = [0, 1] ∧ s.emits = [(0, 1#64)] ∧ s.resumes = [1])
    (by decide +kernel) with ⟨s, hrun, hs⟩
  exact ⟨s, hrun, hs, (collectAll_resumes_once (inlineThenLater 1) (by decide)
    (inlineThenLaterRun 0 1) s hrun).1⟩

end CollectAll

end AsyncSimple
