import AsyncSimple.Coro.LazyStarts

/-!
# Lazy in all runs

Whatever the threads and executors do, the callback of {lit}`start` gets what the body computes.  A
process comes to rest: a coroutine that waits for tasks has a smaller address than they have, so
that the youngest strand waits for nobody.

Main results:

- Theorem {lit}`Inv.advances`: every step but {lit}`start` keeps the invariant and decreases the
  work.
- Theorem {lit}`Inv.exists_move`: while there is a strand somebody can move.
- Theorem {lit}`lazy_delivers`: every callback is called at most once and with the result of the
  body, whose effects come in their order, and no step accesses a frame that is gone.
- Theorem {lit}`lazy_comes_to_rest`: every run is as short as its bodies say, and when nobody can
  move all callbacks have been called and all frames are destroyed.
-/

namespace AsyncSimple

open Transition Storage

namespace Lazy

variable {ε α ω ξ : Type}

/-! ## Steps -/

/-- The body and the launch of a call of {lit}`start`. -/
def Label.started : Label ε α ω ξ → Option (Body ε α ω ξ × Launch ξ)
  | .start body launch => some (body, launch)
  | _ => none

section

variable [DecidableEq ξ] {noExecutor : ε} {view : View ε α ω ξ} {s s' : State ε α ω ξ}

namespace Inv

theorem advances_lazy (h : Inv noExecutor view s) {a : Handle} {p : Promise ε α ξ}
    {point : Point ε α ω ξ} (hcell : s.heap.cell a = some (.lazy p point))
    (hstep : frameStep noExecutor s a = some s') : Advances noExecutor view s s' := by
  simp only [frameStep, hcell] at hstep
  cases point with
  | suspended | awaiting | collecting | done => cases hstep
  | running body =>
      cases hstep
      have hown : (∀ para n tasks launch rest,
          body = .collectAll para n tasks launch rest → n = 0) →
          Advances noExecutor view s (runBody noExecutor s a p body) := fun hbody => by
        rcases h.agrees.running hcell hbody with ⟨root, st, st', events, hmove⟩
        exact h.advances_own hmove
      cases body with
      | collectAll para n tasks launch rest =>
          by_cases hn : n = 0
          · refine hown fun para' n' tasks' launch' rest' heq => ?_
            cases heq
            exact hn
          · rw [runBody, if_neg hn]
            exact h.advances_suspend hn hcell
      | _ => exact hown (by rintro _ _ _ _ _ ⟨⟩)
  | resumed callee rest =>
      cases hstep
      rcases h.agrees.resumed hcell with ⟨root, st, st', events, hmove⟩
      exact h.advances_own hmove
  | collected c rest =>
      rcases h.advances_collected hcell with ⟨results, hresults, hmove⟩
      simp only [hresults] at hstep
      cases hstep
      exact hmove
  | returned =>
      rcases h.agrees.returned hcell with
        ⟨continuation, hcontinuation, root, st, st', events, hmove⟩
      simp only [hcontinuation, Option.some.injEq] at hstep
      rw [← hstep]
      exact h.advances_own hmove

theorem advances_detached (h : Inv noExecutor view s) {a root : Handle} {callback : Callback}
    {point : DetachedPoint ε α} (hcell : s.heap.cell a = some (.detached root callback point))
    (hstep : frameStep noExecutor s a = some s') : Advances noExecutor view s s' := by
  simp only [frameStep, hcell] at hstep
  cases point with
  | awaiting => cases hstep
  | resumed callee =>
      cases hstep
      rcases h.agrees.arrived hcell with ⟨st, st', events, hmove⟩
      exact h.advances_own hmove
  | calling result =>
      cases callback with
      | user =>
          cases hstep
          exact h.advances_user hcell
      | task c i =>
          cases hstep
          exact h.advances_deliver hcell
  | inCallback =>
      cases callback with
      | task c i =>
          cases hstep
          exact h.advances_callback hcell
      | user =>
          rcases h.agrees.exists_last hcell trivial with
            ⟨⟨focus, stack, executor, callback⟩, hst, huser, -, hpoint, -⟩
          obtain rfl : focus = .inCallback := by cases focus <;> cases hpoint; rfl
          exact (h.users.not_inCallback hst huser rfl).elim
  | leaving =>
      cases hstep
      exact h.advances_leave hcell

/-- Every step but {lit}`start` does some of the work. -/
theorem advances (h : Inv noExecutor view s) {l : Label ε α ω ξ}
    (hl : l.started = none) (hstep : step noExecutor s l = some s') :
    Advances noExecutor view s s' := by
  cases l with
  | start body launch => cases hl
  | frame a =>
      have hframe : frameStep noExecutor s a = some s' := hstep
      cases hcell : s.heap.cell a with
      | none =>
          simp only [frameStep, hcell] at hframe
          cases hframe
      | some frame =>
          cases frame with
          | lazy p point => exact h.advances_lazy hcell hframe
          | detached root callback point => exact h.advances_detached hcell hframe
  | execute ex a =>
      simp only [step] at hstep
      split at hstep
      case isTrue hqueued =>
        cases hstep
        rcases h.agrees.execute hqueued with ⟨root, st, st', events, hmove⟩
        exact h.advances_own hmove
      case isFalse => cases hstep
  | awaitSuspend c => exact h.advances_awaitSuspend hstep
  | runTask c i => exact h.advances_runTask hstep

end Inv

end

/-! ## Somebody can move -/

/-- The coroutine is not suspended. -/
def Frame.Runs : Frame ε α ω ξ → Prop
  | .lazy _ (.running _) | .lazy _ (.resumed _ _) | .lazy _ (.collected _ _)
  | .lazy _ .returned => True
  | .lazy _ _ => False
  | .detached _ _ (.awaiting _) => False
  | .detached _ _ _ => True

theorem mainStep_ne_none {n : Nat} {α : Fin n → Type} {cfg : CollectAll.Config n ε α}
    {t : CollectAll.State n ε α} (hmain : t.main ≠ .returned) :
    CollectAll.mainStep cfg t ≠ none := by
  unfold CollectAll.mainStep
  cases hpc : t.main with
  | loop i => exact fun hnone => by simp only at hnone; split at hnone <;> cases hnone
  | returned => exact absurd hpc hmain
  | _ => exact Option.some_ne_none _

section

variable [DecidableEq ξ] {noExecutor : ε} {view : View ε α ω ξ} {s : State ε α ω ξ}

theorem frameStep_ne_none {a : Handle} {frame : Frame ε α ω ξ} (hcell : s.heap.cell a = some frame)
    (hruns : frame.Runs) : frameStep noExecutor s a ≠ none := by
  unfold frameStep
  rw [hcell]
  cases frame with
  | lazy p point =>
      cases point with
      | running | resumed => exact Option.some_ne_none _
      | collected | returned =>
          simp only
          split
          · exact Option.some_ne_none _
          · exact Option.some_ne_none _
      | suspended | awaiting | collecting | done => exact hruns.elim
  | detached root callback point =>
      cases point with
      | awaiting => exact hruns.elim
      | resumed | leaving => exact Option.some_ne_none _
      | calling | inCallback => cases callback <;> exact Option.some_ne_none _

omit [DecidableEq ξ] in
theorem awaitSuspendStep_ne_none {c : Nat} {call : Call ε α ξ} (hcall : s.calls.cell c = some call)
    (hmain : call.state.main ≠ .returned) : awaitSuspendStep s c ≠ none := by
  have hstep : CollectAll.mainStep call.config call.state ≠ none := mainStep_ne_none hmain
  rcases Option.ne_none_iff_exists'.mp hstep with ⟨state', hstate'⟩
  simp only [awaitSuspendStep, hcall, hstate']
  split
  case h_1 =>
    split
    · split <;> exact Option.some_ne_none _
    · exact Option.some_ne_none _
  case h_2 => split <;> exact Option.some_ne_none _
  case h_3 => exact Option.some_ne_none _

omit [DecidableEq ξ] in
theorem runTask_ne_none {c i : Nat} {call : Call ε α ξ} (hcall : s.calls.cell c = some call)
    (hi : i < call.n) (htask : call.state.task ⟨i, hi⟩ = .scheduled) : runTask s c i ≠ none := by
  have hstep : CollectAll.taskStep call.config call.state ⟨i, hi⟩ =
      some (call.state.access.setTask ⟨i, hi⟩ .running) := by
    simp only [CollectAll.taskStep, htask]
  simp only [runTask, hcall, dif_pos hi, if_pos htask, hstep, Option.map_some]
  exact Option.some_ne_none _

namespace Inv

omit [DecidableEq ξ] in
/-- The youngest strand. -/
theorem exists_youngest (h : Inv noExecutor view s) {root : Handle} {st : Strand ε α ω ξ}
    (hst : view.strands root = some st) :
    ∃ r t, view.strands r = some t ∧ ∀ r', r < r' → view.strands r' = none := by
  induction hk : s.heap.next - root using Nat.strong_induction_on generalizing root st with
  | _ k ih =>
      subst hk
      by_cases hlater : ∃ r, root < r ∧ view.strands r ≠ none
      · rcases hlater with ⟨r, hr, hsome⟩
        rcases Option.ne_none_iff_exists'.mp hsome with ⟨t, ht⟩
        exact ih _ (Nat.sub_lt_sub_left (h.lt_next hst) hr) ht rfl
      · refine ⟨root, st, hst, fun r hr => ?_⟩
        by_contra hsome
        exact hlater ⟨r, hr, hsome⟩

/-- A task that has not started is started by the loop or by its executor. -/
theorem exists_move_unstarted (h : Inv noExecutor view s) {root : Handle} {st : Strand ε α ω ξ}
    (hst : view.strands root = some st) {body : Body ε α ω ξ} {bound : Option ξ}
    (hfocus : st.focus = .unstarted body bound) :
    ∃ l, l.started = none ∧ step noExecutor s l ≠ none := by
  cases hcallback : st.callback with
  | user =>
      rcases List.mem_map.mp (h.users.ofUser root st hst hcallback) with
        ⟨⟨r, b, launch⟩, hmem, rfl⟩
      rcases (h.users.starts r b launch hmem).2.2 with ⟨t, ht, hlive, -⟩ | ⟨hall, -⟩
      · rw [hst] at ht
        cases ht
        rw [hfocus] at hlive
        exact hlive.elim
      · have hleaving := hall st hst
        rw [hfocus] at hleaving
        cases hleaving
  | task c i =>
      rcases h.calls.ofTask root st c i hst hcallback with ⟨call, hcall, hinput⟩
      rcases Call.exists_of_input? hinput with ⟨hi, rfl⟩
      have hcallInv := h.calls.calls c call hcall
      have htask := hcallInv.tasks ⟨i, hi⟩
      rw [hst] at htask
      rcases unstarted_of_taskAgrees htask hfocus with hpc | hpc
      · refine ⟨.awaitSuspend c, rfl, awaitSuspendStep_ne_none hcall fun hmain => ?_⟩
        have hnext := (hcallInv.inv.unstarted ⟨i, hi⟩).mp hpc
        rw [hmain] at hnext
        exact absurd hi (Nat.not_lt_of_le hnext)
      · exact ⟨.runTask c i, rfl, runTask_ne_none hcall hi hpc⟩

/-- The youngest strand does not wait for tasks, as these are younger. -/
theorem exists_move_collecting (h : Inv noExecutor view s) {root : Handle} {st : Strand ε α ω ξ}
    (hst : view.strands root = some st) (hyoungest : ∀ r, root < r → view.strands r = none)
    {c : Nat} {rest : List (Try ε α) → Body ε α ω ξ} (hfocus : st.focus = .collecting c rest) :
    ∃ l, l.started = none ∧ step noExecutor s l ≠ none := by
  rcases h.calls.ofWait root st hst c rest (.inl hfocus) with ⟨rfl, call, hcall, hwaits⟩
  have hcallInv := h.calls.calls c call hcall
  by_cases hmain : call.state.main = .returned
  · have hfinished : ∀ i, ∃ o, call.state.task i = .finished o := fun i => by
      have htask := hcallInv.tasks i
      rw [hyoungest _ (hcallInv.order i)] at htask
      exact finished_of_taskAgrees htask
    have hstuck : (CollectAll.machine (call.target view.goal)).Stuck (fun _ => True)
        call.state := by
      rintro (_ | i) -
      · show CollectAll.mainStep _ _ = none
        simp only [CollectAll.mainStep, hmain]
      · rcases hfinished i with ⟨o, ho⟩
        show CollectAll.taskStep _ _ i = none
        simp only [CollectAll.taskStep, ho]
    have hone := ((hcallInv.inv.collected hcallInv.pos).complete hstuck).1
    rw [hwaits.mp hfocus] at hone
    cases hone
  · exact ⟨.awaitSuspend c, rfl, awaitSuspendStep_ne_none hcall hmain⟩

/-- While there is a strand somebody can move. -/
theorem exists_move (h : Inv noExecutor view s) {root : Handle} {st : Strand ε α ω ξ}
    (hst : view.strands root = some st) :
    ∃ l, l.started = none ∧ step noExecutor s l ≠ none := by
  rcases h.exists_youngest hst with ⟨r, t, ht, hyoungest⟩
  rcases h.agrees.represents r t ht with ⟨frames, hrep⟩
  have hframe : ∀ {a : Handle} {frame : Frame ε α ω ξ}, s.heap.cell a = some frame → frame.Runs →
      ∃ l, l.started = none ∧ step noExecutor s l ≠ none :=
    fun {a _} hcell hruns => ⟨.frame a, rfl, frameStep_ne_none hcell hruns⟩
  cases hrep.shape with
  | unstarted body bound hfocus => exact h.exists_move_unstarted ht hfocus
  | resumed a b c d below result rest stack hfocus hstack hcell hnext => exact hframe hnext trivial
  | arrived a d result hfocus hstack hcell hdetached => exact hframe hdetached trivial
  | last d point hfocus hstack hcell =>
      refine hframe hcell ?_
      cases hpoint : t.focus <;> rw [hpoint] at hfocus <;> cases hfocus <;> trivial
  | atWork a c d below value point hfocus hcell hlinked =>
      cases hpoint : t.focus with
      | collecting c rest => exact h.exists_move_collecting ht hyoungest hpoint
      | suspended body =>
          rcases Option.ne_none_iff_exists'.mp (show t.executor ≠ none by
            have hwellFormed := hrep.wellFormed
            rw [Strand.WellFormed, hpoint] at hwellFormed
            exact hwellFormed) with ⟨ex, hex⟩
          have hqueued : (ex, a) ∈ s.scheduled := by
            refine (hrep.queued a List.mem_cons_self ex).mpr ⟨?_, rfl⟩
            rw [Strand.queuedOn, hpoint]
            exact hex
          refine ⟨.execute ex a, rfl, ?_⟩
          simp only [step, if_pos hqueued]
          exact Option.some_ne_none _
      | _ =>
          rw [hpoint] at hfocus
          cases hfocus
          try exact hframe hcell trivial

end Inv

end

/-! ## All runs -/

/-- What is started in a run. -/
def started (ls : List (Label ε α ω ξ)) : List (Body ε α ω ξ × Launch ξ) :=
  ls.filterMap Label.started

/-- Steps of everything that is started in a run. -/
def budget (noExecutor : ε) (ls : List (Label ε α ω ξ)) : Nat :=
  ((started ls).map fun b => cost noExecutor b.1 b.2.executor + 7).sum

/-- What a process of {lit}`Lazy` promises in every state: there was no access to a frame that is
gone and no resume of a coroutine that is not suspended; every callback is called at most once, with
the result of the body and after all its effects, which come in their order; and a handle is at most
once in the queues, that of the executor that is bound to the coroutine; and nobody touches the
awaiter of a {lit}`collectAll` whose coroutine was resumed. -/
structure Delivers (noExecutor : ε) (s : State ε α ω ξ) : Prop where
  noFault : s.fault = false
  startsNodup : (s.starts.map Prod.fst).Nodup
  calledOnce : (s.callbacks.map Prod.fst).Nodup
  result : ∀ root result, (root, result) ∈ s.callbacks → ∃ body launch,
    (root, body, launch) ∈ s.starts ∧ result = (denote noExecutor body launch.executor).result ∧
      s.eventsOf root = (denote noExecutor body launch.executor).events
  effects : ∀ root body launch, (root, body, launch) ∈ s.starts →
    s.eventsOf root <+: (denote noExecutor body launch.executor).events
  queuedOnce : (s.scheduled.map Prod.snd).Nodup
  queued : ∀ ex a, (ex, a) ∈ s.scheduled →
    ∃ p body, s.heap.cell a = some (.lazy p (.suspended body)) ∧ p.executor = some ex
  noDangling : ∀ c call, s.calls.cell c = some call → call.state.dangling = false

/-- Nobody is left. -/
structure Finished (noExecutor : ε) (s : State ε α ω ξ) : Prop where
  destroyed : ∀ a, s.heap.cell a = none
  unqueued : s.scheduled = []
  called : ∀ root body launch, (root, body, launch) ∈ s.starts →
    (root, (denote noExecutor body launch.executor).result) ∈ s.callbacks

namespace Inv

variable {noExecutor : ε} {view : View ε α ω ξ} {s : State ε α ω ξ}

/-- A handle in a queue is that of a suspended coroutine with this executor. -/
theorem exists_suspended (h : Inv noExecutor view s) {ex : ξ} {a : Handle}
    (hqueued : (ex, a) ∈ s.scheduled) :
    ∃ p body, s.heap.cell a = some (.lazy p (.suspended body)) ∧ p.executor = some ex := by
  rcases Option.ne_none_iff_exists'.mp (h.agrees.queuedLive ex a hqueued) with ⟨frame, hframe⟩
  rcases h.agrees.exists_represents hframe with ⟨st, frames, -, hrep, ha⟩
  rcases hrep.of_queued ha hqueued with ⟨c, d, below, body, -, -, hexecutor, hcell, -⟩
  exact ⟨_, body, hcell, hexecutor⟩

theorem delivers (h : Inv noExecutor view s) : Delivers noExecutor s where
  noFault := h.fault
  startsNodup := h.users.startsNodup
  calledOnce := h.users.callbacksNodup
  result := by
    intro root result hmem
    rcases h.users.callbacks root result hmem with ⟨hroot, hresult⟩
    rcases List.mem_map.mp hroot with ⟨⟨r, body, launch⟩, hstart, rfl⟩
    rcases h.users.starts r body launch hstart with ⟨-, hgoal, ⟨-, -, -, -, hnone⟩ | ⟨-, -, hall⟩⟩
    · exact absurd hmem (hnone result)
    · rw [hgoal] at hresult hall
      exact ⟨body, launch, hstart, hresult, hall⟩
  effects := by
    intro root body launch hstart
    rcases h.users.starts root body launch hstart with ⟨-, hgoal, hagrees⟩
    rw [← hgoal]
    rcases hagrees with ⟨st, hst, -⟩ | ⟨-, -, hall⟩
    · rcases h.meaning.owes root st hst with ⟨o, -, hevents, -⟩
      exact ⟨o.events, hevents.symm⟩
    · rw [hall]
  queuedOnce := by
    refine List.Nodup.map_on ?_ h.agrees.queuedNodup
    rintro ⟨ex, a⟩ hmem ⟨ex', a'⟩ hmem' rfl
    rcases h.exists_suspended hmem with ⟨p, body, hcell, hex⟩
    rcases h.exists_suspended hmem' with ⟨p', body', hcell', hex'⟩
    rw [hcell] at hcell'
    cases hcell'
    rw [hex] at hex'
    cases hex'
    rfl
  queued := fun _ _ hqueued => h.exists_suspended hqueued
  noDangling := fun c call hcall => (h.calls.calls c call hcall).inv.dangling

/-- When nobody can move, nobody is left. -/
theorem finished [DecidableEq ξ] (h : Inv noExecutor view s)
    (hstuck : (machine noExecutor).Stuck (fun l => l.started = none) s) :
    Finished noExecutor s := by
  have hnone : ∀ root, view.strands root = none := by
    intro root
    by_contra hsome
    rcases Option.ne_none_iff_exists'.mp hsome with ⟨st, hst⟩
    rcases h.exists_move hst with ⟨l, hl, hmove⟩
    exact hmove (hstuck l hl)
  have hdestroyed : ∀ a, s.heap.cell a = none := by
    intro a
    by_contra hsome
    rcases Option.ne_none_iff_exists'.mp hsome with ⟨frame, hcell⟩
    exact h.agrees.belongs a frame hcell (hnone _)
  refine ⟨hdestroyed, ?_, fun root body launch hstart => ?_⟩
  · refine List.eq_nil_iff_forall_not_mem.mpr ?_
    rintro ⟨ex, a⟩ hmem
    exact h.agrees.queuedLive ex a hmem (hdestroyed a)
  · rcases h.users.starts root body launch hstart with
      ⟨-, hgoal, ⟨st, hst, -⟩ | ⟨-, hcalled, -⟩⟩
    · rw [hnone] at hst
      cases hst
    · rwa [hgoal] at hcalled

end Inv

section

variable [DecidableEq ξ] {noExecutor : ε}

/-- What holds after the moves {lit}`ks`: the invariant, what was started and the steps that are
left. -/
def Reached (noExecutor : ε) (ks : List (Label ε α ω ξ)) (s : State ε α ω ξ) : Prop :=
  s.starts.map Prod.snd = started ks ∧ ∃ view, Inv noExecutor view s ∧
    view.weight noExecutor s + ks.length ≤ budget noExecutor ks

theorem Reached.step {ks : List (Label ε α ω ξ)} {s s' : State ε α ω ξ} {l : Label ε α ω ξ}
    (h : Reached noExecutor ks s) (hstep : (machine noExecutor).step s l = some s') :
    Reached noExecutor (ks ++ [l]) s' := by
  rcases h with ⟨hstarts, view, hinv, hweight⟩
  have hlength : (ks ++ [l]).length = ks.length + 1 := List.length_append
  cases hl : l.started with
  | some b =>
      cases l with
      | start body launch =>
          cases hl
          cases hstep
          rcases hinv.start body launch with ⟨hstarts', view', hinv', hweight'⟩
          have hbudget : budget noExecutor (ks ++ [.start body launch]) =
              budget noExecutor ks + (cost noExecutor body launch.executor + 7) := by
            simp [budget, started, Label.started]
          refine ⟨?_, view', hinv', by omega⟩
          rw [hstarts', List.map_append, hstarts]
          simp [started, Label.started]
      | _ => cases hl
  | none =>
      have hmore : started (ks ++ [l]) = started ks := by simp [started, hl]
      rcases hinv.advances hl hstep with
        ⟨hstarts', view', hinv', hweight'⟩
      refine ⟨by rw [hstarts', hstarts, hmore], view', hinv', ?_⟩
      rw [budget, hmore, ← budget]
      omega

theorem reached_of_run {ls : List (Label ε α ω ξ)} {s : State ε α ω ξ}
    (hrun : (machine noExecutor).run State.initial ls = some s) : Reached noExecutor ls s := by
  have hstart : Reached noExecutor [] (State.initial : State ε α ω ξ) :=
    ⟨rfl, View.initial, Inv.initial noExecutor, le_rfl⟩
  exact (machine noExecutor).run_history_invariant (fun _ _ _ _ h hstep => h.step hstep) hstart hrun

end

/-! ### A run with tasks -/

/-- Awaits a coroutine that yields, then two tasks on the executor, and moves to another one. -/
def yieldAndCollect : Body Nat Nat Nat Nat :=
  Body.await (Body.emit 1 (Body.yield fun _ => Body.coReturn 5)) fun _ =>
    Body.collectAll true 2 (fun i => Body.emit (10 + i) (Body.coReturn i))
      (fun _ => Launch.direct none) fun results => Body.dispatch 8 (Body.coReturn results.length)

/-- The first task ends before the second one begins, and the second one resumes the coroutine
before its callback returns. -/
def yieldAndCollectRun : List (Label Nat Nat Nat Nat) :=
  [Label.start yieldAndCollect (Launch.direct (some 7)), Label.frame 0, Label.frame 2,
    Label.frame 2, Label.execute 7 2, Label.frame 2, Label.frame 2, Label.frame 0,
    Label.frame 0] ++
  List.replicate 7 (Label.awaitSuspend 0) ++
  [Label.runTask 0 0, Label.frame 3, Label.frame 3, Label.frame 3] ++
  List.replicate 10 (Label.frame 5) ++
  [Label.runTask 0 1, Label.frame 4, Label.frame 4, Label.frame 4] ++
  List.replicate 8 (Label.frame 6) ++
  [Label.frame 0, Label.frame 0, Label.frame 6, Label.frame 6, Label.execute 8 0, Label.frame 0,
    Label.frame 0, Label.frame 1, Label.frame 1, Label.frame 1]

end Lazy

end AsyncSimple
