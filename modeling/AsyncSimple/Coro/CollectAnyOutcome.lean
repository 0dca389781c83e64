import AsyncSimple.Coro.CollectAnyOnce

/-!
# The outcome of {lit}`collectAny`

Every step brings a call nearer to its end, and at the end the coroutine has
continued.  What it continued with is read off the invariant.

Main results:

- Theorem {lit}`Inv.step_remaining`: every step decreases the work that is left.
- Theorem {lit}`collectAny_continues_once`: one continuation, with the result of
  the first completion or the exception, in every run.
-/

namespace AsyncSimple

open Transition Signal

namespace CollectAny

variable {n : Nat} {ε : Type} {α : Fin n → Type}

/-! ## Every run comes to an end -/

/-- Steps left for {lit}`await_ready` and {lit}`await_suspend`. -/
def MainPc.remaining (n : Nat) : MainPc → Nat
  | .ready => n + 7
  | .chain => n + 6
  | .emplace pc => n + 1 + pc.remaining
  | .loop i => n - i + 1
  | .notSuspended | .returned _ | .aborted => 0

/-- Steps left for {lit}`await_resume`. -/
def CoroPc.remaining : CoroPc n ε α → Nat
  | .suspended => 6
  | .clear pc => 2 + pc.remaining
  | .canceled => 2
  | .take => 1
  | .done _ | .aborted => 0

/-- Steps left for a task and its callback. -/
def TaskPc.remaining : TaskPc → Nat
  | .unstarted => 6
  | .running => 5
  | .down => 4
  | .counted _ => 3
  | .emit _ => 2
  | .resume _ => 1
  | .finished _ => 0

def HandlerPc.remaining : HandlerPc → Nat
  | .notRun => 2
  | .counted _ => 1
  | .finished _ => 0

/-- Steps left for all parties. -/
def State.remaining (s : State n ε α) : Nat :=
  s.main.remaining n + s.coro.remaining + ∑ i, (s.task i).remaining + s.slot.visit.remaining +
    s.handler.remaining

variable {cfg : Config n ε α} {s s' : State n ε α}

theorem State.remaining_continueBy (s : State n ε α) (who : Continuer n) :
    (s.continueBy cfg who).remaining ≤ s.remaining := by
  unfold State.continueBy
  split
  case h_1 hcoro =>
    have hstart : (if cfg.hasSlot then (.clear .clearLookup : CoroPc n ε α) else .take).remaining
        ≤ 6 := by
      split
      · exact Nat.le_succ 5
      · exact Nat.le_add_left 1 5
    simp only [State.remaining, hcoro, CoroPc.remaining] at hstart ⊢
    omega
  case h_2 => exact le_rfl

theorem State.remaining_setTask {i : Fin n} {pc : TaskPc}
    (hpc : pc.remaining < (s.task i).remaining) : (s.setTask i pc).remaining < s.remaining := by
  have hsum := sum_update_lt (r := TaskPc.remaining) (f := s.task) hpc
  simp only [State.remaining, State.setTask]
  omega

theorem State.remaining_setMain {main : MainPc} (hmain : main.remaining n < s.main.remaining n) :
    (s.setMain main).remaining < s.remaining := by
  simp only [State.remaining, State.setMain]
  omega

theorem emplaceStep_remaining {pc : CallPc Handler} (hmain : s.main = .emplace pc)
    (hstep : mainStep cfg s = some s') : s'.remaining < s.remaining := by
  have hpos := pc.remaining_pos
  have hslot : ∀ {main : MainPc}, main.remaining n < n + 1 + pc.remaining →
      (State.setMain { s with slot := (s.slot.callStep pc).1 } main).remaining < s.remaining := by
    intro main hless
    have hvisit : (s.slot.callStep pc).1.visit = s.slot.visit := by
      cases pc <;> rfl
    have hbefore : s.main.remaining n = n + 1 + pc.remaining := by rw [hmain]; rfl
    simp only [State.remaining, State.setMain, hbefore, hvisit]
    omega
  simp only [mainStep, hmain] at hstep
  split at hstep
  case h_1 pc' hnext =>
    cases hstep
    have hless := TerminateSlot.callStep_remaining hnext
    exact hslot (by simp only [MainPc.remaining]; omega)
  case h_2 =>
    cases hstep
    exact hslot (by simp only [MainPc.remaining]; omega)
  case h_3 =>
    cases hstep
    exact Nat.lt_of_le_of_lt (State.remaining_continueBy _ _)
      (hslot (by simp only [MainPc.remaining]; omega))
  case h_4 =>
    cases hstep
    exact hslot (by simp only [MainPc.remaining]; omega)

theorem Inv.mainStep_remaining (h : Inv cfg s) (hstep : mainStep cfg s = some s') :
    s'.remaining < s.remaining := by
  cases hmain : s.main with
  | notSuspended | returned value | aborted =>
      simp only [mainStep, hmain] at hstep
      cases hstep
  | emplace pc => exact emplaceStep_remaining hmain hstep
  | ready =>
      simp only [mainStep, hmain] at hstep
      split at hstep
      · cases hstep
        exact Nat.lt_of_le_of_lt (State.remaining_continueBy _ _)
          (State.remaining_setMain (by simp [hmain, MainPc.remaining]))
      · cases hstep
        exact State.remaining_setMain (by simp [hmain, MainPc.remaining])
  | chain =>
      simp only [mainStep, hmain] at hstep
      split at hstep
      · cases hstep
        have hlookup : (MainPc.emplace (.emplaceLookup .cancel)).remaining n <
            s.main.remaining n := by
          rw [hmain]
          exact Nat.lt_succ_self _
        exact State.remaining_setMain hlookup
      · cases hstep
        exact State.remaining_setMain (by simp [hmain, MainPc.remaining])
  | loop i =>
      simp only [mainStep, hmain] at hstep
      split at hstep
      case isTrue hlt =>
        cases hstep
        have hi : s.task ⟨i, hlt⟩ = .unstarted :=
          (h.unstarted ⟨i, hlt⟩).mpr (by rw [hmain]; exact le_rfl)
        have htask : (s.setTask ⟨i, hlt⟩ .running).remaining < s.remaining :=
          State.remaining_setTask (by rw [hi]; decide)
        refine Nat.lt_trans (State.remaining_setMain ?_) htask
        simp only [State.setTask, hmain, MainPc.remaining]
        omega
      case isFalse =>
        cases hstep
        exact State.remaining_setMain (by simp [hmain, MainPc.remaining])

theorem coroStep_remaining (hstep : coroStep cfg s = some s') : s'.remaining < s.remaining := by
  have hless : ∀ {slot : TerminateSlot Handler Unit} {coro : CoroPc n ε α},
      slot.visit = s.slot.visit → coro.remaining < s.coro.remaining →
      State.remaining { s with slot := slot, coro := coro } < s.remaining := by
    intro slot coro hvisit hcoro
    simp only [State.remaining, hvisit]
    omega
  unfold coroStep at hstep
  split at hstep
  case h_1 | h_2 | h_3 => cases hstep
  case h_4 pc hcoro =>
    cases hstep
    have hpos := pc.remaining_pos
    refine hless (by cases pc <;> rfl) ?_
    rw [hcoro]
    split
    case h_1 pc' hnext =>
      have hcall := TerminateSlot.callStep_remaining hnext
      simp only [CoroPc.remaining]
      omega
    all_goals
      simp only [CoroPc.remaining]
      omega
  case h_5 hcoro =>
    cases hstep
    refine hless rfl ?_
    rw [hcoro]
    split <;> simp [CoroPc.remaining]
  case h_6 hcoro =>
    cases hstep
    exact hless rfl (by rw [hcoro]; exact Nat.one_pos)

theorem taskStep_remaining {i : Fin n} (hstep : taskStep cfg s i = some s') :
    s'.remaining < s.remaining := by
  have hless : ∀ {pc pc' : TaskPc}, s.task i = pc' → pc.remaining < pc'.remaining →
      (s.setTask i pc).remaining < s.remaining := by
    rintro pc pc' rfl hpc
    exact State.remaining_setTask hpc
  unfold taskStep at hstep
  split at hstep
  case h_1 | h_2 => cases hstep
  case h_3 hi | h_4 hi | h_6 hi =>
    cases hstep
    exact hless hi (by simp [TaskPc.remaining])
  case h_5 hi =>
    split at hstep <;> cases hstep <;> exact hless hi (by simp [TaskPc.remaining])
  case h_7 hi =>
    cases hstep
    exact Nat.lt_of_le_of_lt (State.remaining_continueBy _ _)
      (hless hi (by simp [TaskPc.remaining]))

theorem emissionStep_remaining (hstep : emissionStep cfg s = some s') :
    s'.remaining < s.remaining := by
  unfold emissionStep at hstep
  split at hstep
  case h_1 hv =>
    cases hstep
    simp [State.remaining, hv, VisitPc.remaining]
  case h_2 hv =>
    split at hstep
    case h_1 hrun =>
      cases hstep
      simp [State.remaining, hrun, HandlerPc.remaining]
    case h_2 count hrun =>
      have hfinished : State.remaining { s with
          handler := .finished count
          slot := { s.slot with visit := .passed true } } < s.remaining := by
        simp only [State.remaining, hv, hrun, VisitPc.remaining, HandlerPc.remaining]
        omega
      simp only [Option.some.injEq] at hstep
      subst hstep
      split
      · exact Nat.lt_of_le_of_lt (State.remaining_continueBy _ _) hfinished
      · exact hfinished
    case h_3 => cases hstep
  case h_3 hv =>
    cases hstep
    simp [State.remaining, hv, VisitPc.remaining]
  case h_4 =>
    rcases Option.map_eq_some_iff.mp hstep with ⟨slot, hvisit, rfl⟩
    have hless := TerminateSlot.visitStep_remaining hvisit
    simp only [State.remaining]
    omega

/-- Every step decreases the work that is left. -/
theorem Inv.step_remaining (h : Inv cfg s) {l : Label n}
    (hstep : CollectAny.step cfg s l = some s') : s'.remaining < s.remaining := by
  cases l with
  | main => exact h.mainStep_remaining hstep
  | coro => exact coroStep_remaining hstep
  | task i => exact taskStep_remaining hstep
  | emission => exact emissionStep_remaining hstep
  | emits =>
      simp only [CollectAny.step] at hstep
      split at hstep
      · rcases Option.map_eq_some_iff.mp hstep with ⟨slot, hemits, rfl⟩
        rcases TerminateSlot.emits_frame hemits with ⟨-, -, hless⟩
        simp only [State.remaining]
        omega
      · cases hstep

/-! ## The end of a run -/

/-- Nothing is left to do, except perhaps the emission of {lit}`Terminate`. -/
abbrev Ended (cfg : Config n ε α) (s : State n ε α) : Prop :=
  (machine cfg).Stuck (fun l => l ≠ .emits) s

theorem task_of_ended (hended : Ended cfg s) {i : Fin n} (hi : s.task i ≠ .unstarted) :
    ∃ count, s.task i = .finished count := by
  have hnone : taskStep cfg s i = none := hended (.task i) nofun
  unfold taskStep at hnone
  split at hnone
  case h_1 hi' => exact (hi hi').elim
  case h_2 count hi' => exact ⟨count, hi'⟩
  case h_5 => split at hnone <;> cases hnone
  all_goals cases hnone

theorem Inv.main_of_ended (h : Inv cfg s) (hended : Ended cfg s) :
    s.main = .notSuspended ∨ ∃ value, s.main = .returned value := by
  have hnone : mainStep cfg s = none := hended .main nofun
  cases hmain : s.main with
  | notSuspended => exact .inl rfl
  | returned value => exact .inr ⟨value, rfl⟩
  | aborted =>
      have hknows := h.slot.mainKnows
      rw [hmain] at hknows
      exact hknows.elim
  | _ =>
      simp only [mainStep, hmain] at hnone
      split at hnone <;> cases hnone

theorem Inv.handler_of_ended (h : Inv cfg s) (hended : Ended cfg s) {count : Int} :
    s.handler ≠ .counted count := by
  intro hrun
  have hv : s.slot.visit = .call (.handler .cancel) := by
    have hknows := h.slot.handlerKnows
    rwa [hrun] at hknows
  have hnone : emissionStep cfg s = none := hended .emission nofun
  simp only [emissionStep, hv, hrun] at hnone
  cases hnone

/-- At the end the coroutine has continued. -/
theorem Inv.continues_of_ended (h : Inv cfg s) (hn : 0 < n) (hended : Ended cfg s) :
    s.continues ≠ [] := by
  rw [Ne, h.continues.eq_nil_iff]
  intro hnone
  have hmain : s.main = .returned true := by
    rcases h.main_of_ended hended with hready | ⟨value, hreturned⟩
    · exact (hnone .awaitReady hready).elim
    · cases value with
      | true => exact hreturned
      | false => exact (hnone .awaitSuspend hreturned).elim
  -- a task has come to the counter, so that somebody was the first
  have hstarted : s.task ⟨0, hn⟩ ≠ .unstarted := by
    rw [Ne, h.unstarted, hmain]
    exact Nat.not_le_of_lt hn
  rcases task_of_ended hended hstarted with ⟨count, hcount⟩
  have hdown : some ⟨0, hn⟩ ∈ s.downs := by
    rw [h.countDown.mem_iff]
    exact ⟨count, by simp [State.oldCount, hcount, TaskPc.oldCount]⟩
  rcases List.exists_cons_of_ne_nil (List.ne_nil_of_mem hdown) with ⟨p, rest, hdowns⟩
  have hfirst : s.oldCount p = some (n + 1 : Int) := by
    have hhead := (h.countDown.first_iff p).mpr (by rw [hdowns]; rfl)
    simpa using hhead
  cases p with
  | none =>
      cases hrun : s.handler with
      | notRun =>
          simp [State.oldCount, hrun, HandlerPc.oldCount] at hfirst
      | counted count => exact h.handler_of_ended hended hrun
      | finished count =>
          apply hnone (.party none)
          simpa [State.Continued, State.oldCount, hrun, HandlerPc.oldCount,
            HandlerPc.finishedCount] using hfirst
  | some i =>
      rcases task_of_ended hended (TaskPc.ne_unstarted_of_oldCount hfirst) with ⟨count, hi⟩
      apply hnone (.party (some i))
      simpa [State.Continued, State.oldCount, hi, TaskPc.oldCount, TaskPc.finishedCount]
        using hfirst

theorem Inv.done_of_ended (h : Inv cfg s) (hn : 0 < n) (hended : Ended cfg s) :
    ∃ o, s.coro = .done o := by
  have hnone : coroStep cfg s = none := hended .coro nofun
  cases hcoro : s.coro with
  | suspended => exact (h.continues_of_ended hn hended (h.suspended.mp hcoro)).elim
  | done o => exact ⟨o, rfl⟩
  | aborted =>
      have hknows := h.slot.coroKnows
      rw [hcoro] at hknows
      exact hknows.elim
  | _ =>
      simp only [coroStep, hcoro] at hnone
      cases hnone

/-! ## All runs -/

/-- What a call of {lit}`collectAny` promises in every state, for a filter that
admits {lit}`Terminate`.  The coroutine continues at most once, the counter does
not go below zero and nobody touches the awaiter after the continuation.  When a
task came first, the await ends with its index and result, or with the exception
if {lit}`Terminate` was emitted; when the cancel handler came first, or an
emission had passed the slot before the coroutine continued, it ends with the
exception.  Without a decrement it ends with the exception too, unless the slot
held a handler from before the call.  When nothing is left to do, the coroutine
has continued and the await has ended. -/
structure Collected (cfg : Config n ε α) (s : State n ε α) : Prop where
  once : s.continues.length ≤ 1
  counter : 0 ≤ s.event.count
  safe : s.dangling = false
  byTask : ∀ i, s.downs.head? = some (some i) → ∀ o, s.coro = .done o →
    o = .result i (cfg.outcome i) ∨ o = .signalException ∧ s.slot.state = true
  byHandler : s.downs.head? = some none → ∀ o, s.coro = .done o → o = .signalException
  emitted : s.emittedBefore = true → ∀ o, s.coro = .done o → o = .signalException
  refused : s.downs = [] → cfg.earlierHandler = false →
    ∀ o, s.coro = .done o → o = .signalException
  ended : Ended cfg s → s.continues.length = 1 ∧ ∃ o, s.coro = .done o

theorem Doomed.done {slot : TerminateSlot Handler Unit} {o : Outcome n ε α}
    (h : Doomed slot (.done o)) : o = .signalException := by
  have hthrows := h.throws
  cases o with
  | signalException => rfl
  | _ => exact hthrows.elim

/-- Somebody has made the coroutine continue when the await has ended. -/
theorem Inv.exists_continued (h : Inv cfg s) {o : Outcome n ε α} (ho : s.coro = .done o) :
    ∃ c, s.Continued c := by
  have hne : s.continues ≠ [] := by
    rw [Ne, ← h.suspended, ho]
    nofun
  rcases List.exists_mem_of_ne_nil _ hne with ⟨c, hc⟩
  exact ⟨c, (h.continues.mem_iff c).mp hc⟩

theorem Inv.continued_of_head (h : Inv cfg s) {p : Option (Fin n)}
    (hp : s.downs.head? = some p) {o : Outcome n ε α} (ho : s.coro = .done o) :
    s.Continued (.party p) := by
  have hfirst : s.oldCount p = some (n + 1 : Int) := by
    have hhead := (h.countDown.first_iff p).mpr hp
    simpa using hhead
  rcases h.exists_continued ho with ⟨c, hc⟩
  rw [h.eq_party_of_continued hfirst hc] at hc
  exact hc

theorem Inv.collected (h : Inv cfg s) (hn : 0 < n) : Collected cfg s := by
  have hemitted : s.emittedBefore = true → ∀ o, s.coro = .done o → o = .signalException := by
    intro hbefore o ho
    have hdoomed := h.throws (.inl hbefore)
    rw [ho] at hdoomed
    exact hdoomed.done
  have honce : s.continues.length ≤ 1 := h.continues.length_le_one fun _ _ => h.continued_unique
  refine ⟨honce, h.countDown.count_nonneg (Inv.card_le n), h.dangling, ?_, ?_, hemitted, ?_, ?_⟩
  · intro i hi o ho
    have hfinished : (s.task i).finishedCount = some (n + 1 : Int) := h.continued_of_head hi ho
    have hresult : s.result = some ⟨i, cfg.outcome i⟩ :=
      (h.stored _).mpr ⟨i, rfl, TaskPc.storedCount_of_finishedCount hfinished⟩
    rcases h.outcome o ho with hexception | houtcome
    · have hknows := h.slot.coroKnows
      rw [ho, hexception] at hknows
      exact .inr ⟨hexception, hknows⟩
    · rw [hresult] at houtcome
      exact .inl houtcome
  · intro hnone o ho
    exact hemitted (h.byHandler (h.continued_of_head hnone ho)) o ho
  · intro hdowns hearlier o ho
    rcases h.exists_continued ho with ⟨c, hc⟩
    have hrefused : s.main.Refused := by
      rcases c with _ | _ | p
      · have hmain : s.main = .notSuspended := hc
        rw [hmain]
        trivial
      · have hmain : s.main = .returned false := hc
        rw [hmain]
        trivial
      · have hmem := (h.countDown.mem_iff p).mpr ⟨_, Inv.oldCount_of_continued hc⟩
        rw [hdowns] at hmem
        cases hmem
    have hdoomed := h.throws (.inr ⟨hrefused, hearlier⟩)
    rw [ho] at hdoomed
    exact hdoomed.done
  · intro hended
    have hpos := List.length_pos_of_ne_nil (h.continues_of_ended hn hended)
    exact ⟨by omega, h.done_of_ended hn hended⟩

/-- For every number of tasks, every assignment of results, both forms, every
order of the steps and every moment of the emission, a call of
{lit}`collectAny` keeps its promise; each run is finite and can be brought to its
end without another emission. -/
theorem collectAny_continues_once (cfg : Config n ε α) (hn : 0 < n)
    (hfilter : cfg.hasSlot = true → cfg.filter = true) (ls : List (Label n)) (s : State n ε α)
    (hrun : (machine cfg).run (State.initial cfg) ls = some s) :
    Collected cfg s ∧ ls.length ≤ 7 * n + 22 ∧
      ∃ ks t, (∀ l ∈ ks, l ≠ .emits) ∧ (machine cfg).run s ks = some t ∧ Collected cfg t ∧
        Ended cfg t := by
  have hstep : ∀ s l s', Inv cfg s → (machine cfg).step s l = some s' →
      Inv cfg s' ∧ s'.remaining < s.remaining := fun s l s' h hs =>
    ⟨h.step (fun _ => hfilter) hs, h.step_remaining hs⟩
  have hstart := Inv.initial cfg
  have hinv : Inv cfg s :=
    Machine.run_invariant _ (fun s l s' h hs => (hstep s l s' h hs).1) hstart hrun
  have hlength := Machine.run_length_le _ State.remaining hstep hstart hrun
  have hbound : (State.initial cfg).remaining = 7 * n + 22 := by
    have htasks : ∑ _i : Fin n, TaskPc.unstarted.remaining = Fintype.card (Fin n) * 6 :=
      Finset.sum_const_nat fun _ _ => rfl
    rw [Fintype.card_fin] at htasks
    simp only [State.remaining, State.initial, SlotConfig.slot, MainPc.remaining,
      CoroPc.remaining, VisitPc.remaining, HandlerPc.remaining, htasks]
    omega
  rcases Machine.exists_run_stuck _ (fun l => l ≠ .emits) State.remaining hstep hinv with
    ⟨ks, t, hks, ht, hinv', hended⟩
  exact ⟨hinv.collected hn, by omega, ks, t, hks, ht, hinv'.collected hn, hended⟩

/-- Two tasks under a slot; the winner completes inside {lit}`start`, while
the emission has set the bit and not yet come to the slot. -/
def emittedInBetween (winner : Fin 2) : Config 2 Unit (fun _ => Nat) where
  form := .vector
  hasSlot := true
  filter := true
  manager := false
  earlierHandler := false
  outcome := fun i => if i = winner then .value 7 else .error ()

def emittedInBetweenRun (winner : Fin 2) : List (Label 2) :=
  List.replicate 8 .main ++ List.replicate 3 (.task winner) ++ [.emits] ++
    List.replicate 2 (.task winner) ++ List.replicate 3 .coro ++ List.replicate 5 .emission ++
    [.coro]

theorem collectAny_continues_once_emittedInBetween :
    ∃ s, (machine (emittedInBetween 1)).run (State.initial (emittedInBetween 1))
        (emittedInBetweenRun 1) = some s ∧
      (s.downs = [some 1] ∧ s.continues = [.party (some 1)] ∧ s.slot.state = true) ∧
      Collected (emittedInBetween 1) s := by
  rcases (machine (emittedInBetween 1)).exists_run_of_any (State.initial (emittedInBetween 1))
    (emittedInBetweenRun 1)
    (fun s => s.downs = [some 1] ∧ s.continues = [.party (some 1)] ∧ s.slot.state = true)
    (by decide +kernel) with ⟨s, hrun, hs⟩
  exact ⟨s, hrun, hs, (collectAny_continues_once (emittedInBetween 1) (by decide) (fun _ => rfl)
    (emittedInBetweenRun 1) s hrun).1⟩

end CollectAny

end AsyncSimple
