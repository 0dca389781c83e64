import AsyncSimple.Coro.LazyInvariant

/-!
# Steps that involve several strands

The steps of {lit}`Coro/LazyInvariant` are those of one strand.  Here are the others: the callbacks,
the steps of {lit}`collectAll`, which starts strands, gets their results and resumes the strand that
waits for them, and {lit}`start`.  Each of them keeps the invariant, and each but {lit}`start`
decreases the work of all strands and calls together.

Main results:

- Definition {lit}`Advances`: a step that keeps the invariant and decreases the work.
- Theorem {lit}`Inv.advances`: every step but {lit}`start` is one.
- Theorem {lit}`Inv.start`: {lit}`start` keeps the invariant and adds the cost of the body.
-/

namespace AsyncSimple

open Transition Storage

namespace Lazy

variable {ε α ω ξ : Type}

/-! ## Callbacks of collectAll -/

section

variable {n : Nat} {α : Fin n → Type} {cfg cfg' : CollectAll.Config n ε α}
variable {t t' : CollectAll.State n ε α} {i : Fin n}

/-- A task reads its own result only. -/
theorem taskStep_congr (houtcome : t.task i = .store → cfg'.outcome i = cfg.outcome i)
    (hsignal : cfg'.signalType = cfg.signalType) :
    CollectAll.taskStep cfg' t i = CollectAll.taskStep cfg t i := by
  unfold CollectAll.taskStep
  cases htask : t.task i with
  | store => simp only [houtcome htask]
  | emit => simp only [hsignal]
  | _ => rfl

/-- What a callback does: it stays a callback, and it may resume the coroutine that waits. -/
theorem taskStep_called (hstep : CollectAll.taskStep cfg t i = some t')
    (hcalled : TaskCalled (t.task i)) :
    ∃ pc, t'.task = Function.update t.task i pc ∧ TaskCalled pc ∧ t'.main = t.main ∧
      (t'.resumes = t.resumes ∨ t'.resumes = t.resumes ++ [i]) := by
  unfold CollectAll.taskStep at hstep
  cases htask : t.task i <;> rw [htask] at hstep hcalled <;> simp only at hstep
  case unstarted | scheduled | running => exact hcalled.elim
  case finished => cases hstep
  case store | copy | down =>
    cases hstep
    exact ⟨_, rfl, trivial, rfl, .inl rfl⟩
  case take oldCount =>
    cases hstep
    split <;> exact ⟨_, rfl, trivial, rfl, .inl rfl⟩
  case emit =>
    cases hstep
    exact ⟨_, rfl, trivial, rfl, .inl rfl⟩
  case resume oldCount awaitingCoro =>
    cases awaitingCoro <;> cases hstep
    · exact ⟨_, rfl, trivial, rfl, .inl rfl⟩
    · exact ⟨_, rfl, trivial, rfl, .inr rfl⟩

/-- A callback that has not ended goes on. -/
theorem exists_taskStep (hcalled : TaskCalled (t.task i)) (hnot : ∀ o, t.task i ≠ .finished o) :
    ∃ t', CollectAll.taskStep cfg t i = some t' := by
  unfold CollectAll.taskStep
  cases htask : t.task i <;> rw [htask] at hcalled
  case unstarted | scheduled | running => exact hcalled.elim
  case finished o => exact absurd htask (hnot o)
  case resume oldCount awaitingCoro =>
    cases awaitingCoro
    · exact ⟨_, rfl⟩
    · exact ⟨_, rfl⟩
  all_goals exact ⟨_, rfl⟩

end

/-! ## Work -/

/-- Steps that the strands and the calls of {lit}`collectAll` have left. -/
def View.weight (noExecutor : ε) (view : View ε α ω ξ) (s : State ε α ω ξ) : Nat :=
  Heap.weigh s.heap.next view.strands (Strand.work noExecutor view.results) +
    s.calls.total fun call => call.state.remaining

/-- The step keeps the invariant, does some of the work and starts nothing. -/
structure Advances (noExecutor : ε) (view : View ε α ω ξ) (s s' : State ε α ω ξ) : Prop where
  starts : s'.starts = s.starts
  view : ∃ view', Inv noExecutor view' s' ∧ view'.weight noExecutor s' < view.weight noExecutor s

namespace Inv

variable {noExecutor : ε} {view : View ε α ω ξ} {s s' : State ε α ω ξ} {root : Handle}
variable {st : Strand ε α ω ξ}

theorem weigh_set (h : Inv noExecutor view s) (hst : view.strands root = some st)
    (hnext : s.heap.next ≤ s'.heap.next) (new : Option (Strand ε α ω ξ)) :
    Heap.weigh s'.heap.next (view.set root new).strands (Strand.work noExecutor view.results) +
        st.work noExecutor view.results =
      Heap.weigh s.heap.next view.strands (Strand.work noExecutor view.results) +
        (new.map (Strand.work noExecutor view.results)).getD 0 := by
  have hbelow : ∀ r, s.heap.next ≤ r → (view.set root new).strands r = none :=
    View.below_set h.below le_rfl (h.lt_next hst) new
  have hupdate : Heap.weigh s.heap.next (Function.update view.strands root new)
      (Strand.work noExecutor view.results) +
        ((view.strands root).map (Strand.work noExecutor view.results)).getD 0 = _ :=
    Heap.weigh_update (Strand.work noExecutor view.results) (h.lt_next hst) new
  rw [hst] at hupdate
  rw [Heap.weigh_of_le _ hbelow hnext]
  exact hupdate

/-- The strand does some of its work, and the calls are where they were. -/
theorem weight_lt (h : Inv noExecutor view s) (hst : view.strands root = some st)
    (hnext : s.heap.next ≤ s'.heap.next) (hcalls : s'.calls = s.calls)
    {new : Option (Strand ε α ω ξ)}
    (hwork : (new.map (Strand.work noExecutor view.results)).getD 0 <
      st.work noExecutor view.results) :
    (view.set root new).weight noExecutor s' < view.weight noExecutor s := by
  have hweigh := h.weigh_set hst hnext new
  simp only [View.weight, hcalls]
  have hresults : (view.set root new).results = view.results := rfl
  rw [hresults]
  omega

section

variable {c : Nat} {call : Call ε α ξ} {config' : CollectAll.Config call.n ε (fun _ => α)}
variable {state' : CollectAll.State call.n ε (fun _ => α)}

theorem total_setCall (hcall : s.calls.cell c = some call)
    (hcalls : s'.calls = s.calls.set c { call with config := config', state := state' }) :
    s'.calls.total (fun call => call.state.remaining) + call.state.remaining =
      s.calls.total (fun call => call.state.remaining) + state'.remaining := by
  rw [hcalls]
  exact Heap.total_set (fun call : Call ε α ξ => call.state.remaining) hcall

/-- A call does some of its work. -/
theorem weight_lt_of_call (hcall : s.calls.cell c = some call)
    (hcalls : s'.calls = s.calls.set c { call with config := config', state := state' })
    (hheap : s'.heap.next = s.heap.next) (hless : state'.remaining < call.state.remaining) :
    view.weight noExecutor s' < view.weight noExecutor s := by
  have htotal := total_setCall hcall hcalls
  simp only [View.weight, hheap]
  omega

/-- A call does some of its work, and a strand does not get more. -/
theorem weight_lt_of_setCall (h : Inv noExecutor view s) (hst : view.strands root = some st)
    (hnext : s.heap.next ≤ s'.heap.next) (hcall : s.calls.cell c = some call)
    (hcalls : s'.calls = s.calls.set c { call with config := config', state := state' })
    (hless : state'.remaining < call.state.remaining) {t : Strand ε α ω ξ}
    (hwork : t.work noExecutor view.results ≤ st.work noExecutor view.results) :
    (view.set root (some t)).weight noExecutor s' < view.weight noExecutor s := by
  have htotal := total_setCall hcall hcalls
  have hweigh := h.weigh_set hst hnext (some t)
  have hresults : (view.set root (some t)).results = view.results := rfl
  simp only [Option.map_some, Option.getD_some] at hweigh
  simp only [View.weight, hresults]
  omega

end

/-! ## Steps of one strand -/

theorem advances_own [DecidableEq ξ] (h : Inv noExecutor view s) {st' : Strand ε α ω ξ}
    {events : List ω} (hstep : OwnStep noExecutor s s' view.strands root st st' events) :
    Advances noExecutor view s s' :=
  ⟨hstep.starts, _, h.own hstep,
    h.weight_lt hstep.strand hstep.heapNext hstep.calls (Strand.work_next hstep.next)⟩

/-- A coroutine reads the results of its tasks. -/
theorem advances_collected (h : Inv noExecutor view s) {a : Handle} {p : Promise ε α ξ} {c : Nat}
    {rest : List (Try ε α) → Body ε α ω ξ}
    (hcell : s.heap.cell a = some (.lazy p (.collected c rest))) :
    ∃ results, ((s.calls.cell c).bind fun call => call.state.result.map List.ofFn) = some results ∧
      Advances noExecutor view s (s.setPoint a p (.running (rest results))) := by
  rcases h.agrees.collected hcell with ⟨root, st, hst, hfocus, hagrees⟩
  rcases h.calls.ofWait root st hst c rest (.inr hfocus) with ⟨-, call, hcall, hwaits⟩
  have hcallInv := h.calls.calls c call hcall
  have hresumed : call.state.resumes ≠ [] := fun hnil => by
    have hcollecting := hwaits.mpr hnil
    rw [hfocus] at hcollecting
    cases hcollecting
  have hresult : call.state.result = some (call.target view.goal).outcome := by
    rw [hcallInv.inv.result, if_neg hresumed]
  refine ⟨view.results c, ?_, rfl,
    view.set root (some { st with focus := .running (rest (view.results c)) }), ?_, ?_⟩
  · rw [hcall, Option.bind_some, hresult, hcallInv.results]
    rfl
  · have howes : Strand.Owes noExecutor view.results
        { st with focus := .running (rest (view.results c)) } (view.goal root)
        (s.eventsOf root ++ []) := by
      rcases h.meaning.owes root st hst with ⟨o, hpromises, howes⟩
      rw [Strand.Promises, hfocus] at hpromises
      rw [List.append_nil]
      exact ⟨o, hpromises, howes⟩
    exact h.live hst (by rw [hfocus]; trivial) trivial rfl (by rw [hfocus]; exact id) id howes
      (hagrees _) (List.append_nil _).symm rfl rfl rfl rfl le_rfl
  · refine h.weight_lt hst le_rfl rfl ?_
    simp only [Option.map_some, Option.getD_some, Strand.work, hfocus]
    exact Nat.lt_succ_self _

/-- What the callback gets is what the strand was to compute. -/
theorem goal_of_calling (h : Inv noExecutor view s) {result : Try ε α} {ex : Option ξ}
    {callback : Callback} (hst : view.strands root = some ⟨.calling result, [], ex, callback⟩) :
    (view.goal root).result = result ∧ (view.goal root).events = s.eventsOf root := by
  rcases h.meaning.owes root _ hst with ⟨o, rfl, hevents, hresult⟩
  exact ⟨hresult, hevents.trans (List.append_nil _)⟩

/-- The callback of {lit}`start` is called. -/
theorem advances_user (h : Inv noExecutor view s) {a : Handle} {result : Try ε α}
    (hcell : s.heap.cell a = some (.detached root .user (.calling result))) :
    Advances noExecutor view s { s.setFrame a (.detached root .user .leaving) with
      callbacks := s.callbacks ++ [(root, result)] } := by
  rcases h.agrees.exists_last hcell trivial with
    ⟨⟨focus, stack, executor, callback⟩, hst, rfl, hstack, hpoint, hrep⟩
  obtain rfl : focus = .calling result := by cases focus <;> cases hpoint; rfl
  obtain rfl : stack = [] := hstack
  rcases h.goal_of_calling hst with ⟨hresult, hgoal⟩
  let left : Strand ε α ω ξ := ⟨.leaving, [], executor, .user⟩
  refine ⟨rfl, view.set root (some left), ⟨?_, ?_, ?_, ?_, ?_, h.fault⟩, ?_⟩
  · exact h.agrees.setLast (t := left) hcell hrep rfl rfl rfl rfl rfl rfl (.refl _)
  · exact View.below_set h.below le_rfl (h.lt_next hst) _
  · refine h.meaning.set_silent rfl (h.lt_next hst) le_rfl ?_
    rintro _ ⟨⟩
    exact ⟨⟨result, executor, []⟩, rfl, hgoal.trans (List.append_nil _).symm, hresult⟩
  · exact h.users.call h.meaning hst rfl rfl rfl rfl rfl rfl rfl le_rfl
  · refine h.calls.set_of_eq hst rfl le_rfl ?_ ?_ ?_
    · rintro _ ⟨⟩
      rfl
    · exact fun c call hcall => (h.calls.calls c call hcall).other hst (by rintro i ⟨⟩) id
    · rintro _ ⟨⟩ c rest (hfocus | hfocus) <;> cases hfocus
  · refine h.weight_lt hst le_rfl rfl ?_
    show (1 : Nat) < 3
    decide

/-- The detached coroutine destroys itself. -/
theorem advances_leave (h : Inv noExecutor view s) {a : Handle} {callback : Callback}
    (hcell : s.heap.cell a = some (.detached root callback .leaving)) :
    Advances noExecutor view s { s with heap := s.heap.free a } := by
  rcases h.agrees.exists_last hcell trivial with
    ⟨⟨focus, stack, executor, callback⟩, hst, rfl, -, hpoint, -⟩
  obtain rfl : focus = .leaving := by cases focus <;> cases hpoint; rfl
  refine ⟨rfl, view.set root none, ⟨?_, ?_, ?_, ?_, ?_, h.fault⟩, ?_⟩
  · exact h.agrees.leave hcell
  · exact View.below_set h.below le_rfl (h.lt_next hst) _
  · exact h.meaning.set_silent rfl (h.lt_next hst) le_rfl (by rintro t ⟨⟩)
  · refine h.users.set hst (by rintro t ⟨⟩) rfl rfl (fun r _ => rfl) le_rfl fun hagrees => ?_
    exact Users.agrees_leave hagrees hst rfl rfl rfl
  · refine h.calls.set_of_eq hst rfl le_rfl (by rintro t ⟨⟩) ?_ (by rintro t ⟨⟩)
    intro c call hcall
    exact (h.calls.calls c call hcall).update hst (fun i _ hi => taskAgrees_leaving hi rfl)
      (by rintro rest ⟨⟩)
  · exact h.weight_lt hst le_rfl rfl Nat.zero_lt_one

/-! ## Callbacks of tasks -/

/-- A strand of a task is none of {lit}`start`. -/
theorem users_of_task (h : Inv noExecutor view s) {c i : Nat} (hst : view.strands root = some st)
    (htask : st.callback = .task c i) (hnot : st.focus ≠ .leaving) {t : Strand ε α ω ξ}
    (hcallback : t.callback = st.callback) (hstarts : s'.starts = s.starts)
    (hcallbacks : s'.callbacks = s.callbacks) (hevents : s'.events = s.events)
    (hnext : s.heap.next ≤ s'.heap.next) : Users noExecutor (view.set root (some t)) s' := by
  refine h.users.set hst ?_ hstarts hcallbacks (fun r _ => ?_) hnext fun hagrees => ?_
  · rintro _ ⟨⟩
    exact hcallback
  · rw [State.eventsOf, hevents, State.eventsOf]
  · exact (Users.not_agrees_of_task hagrees hst htask hnot).elim

/-- The callback of a task gets what the task was to compute. -/
theorem advances_deliver (h : Inv noExecutor view s) {a : Handle} {c i : Nat} {result : Try ε α}
    (hcell : s.heap.cell a = some (.detached root (.task c i) (.calling result))) :
    Advances noExecutor view s (deliver s a root c i result) := by
  rcases h.agrees.exists_last hcell trivial with
    ⟨⟨focus, stack, executor, callback⟩, hst, rfl, hstack, hpoint, hrep⟩
  obtain rfl : focus = .calling result := by cases focus <;> cases hpoint; rfl
  obtain rfl : stack = [] := hstack
  rcases h.goal_of_calling hst with ⟨hresult, hgoal⟩
  rcases h.calls.ofTask root _ c i hst rfl with ⟨call, hcall, hinput⟩
  rcases Call.exists_of_input? hinput with ⟨hi, rfl⟩
  have hcallInv := h.calls.calls c call hcall
  have htask := hcallInv.tasks ⟨i, hi⟩
  rw [hst] at htask
  have hrunning := running_of_taskAgrees htask trivial
  have hmove : CollectAll.taskStep (call.target view.goal) call.state ⟨i, hi⟩ =
      some (call.state.setTask ⟨i, hi⟩ .store) := by
    simp only [CollectAll.taskStep, hrunning]
  have hresumes := hcallInv.inv.resumes_nil_of_oldCount (i := ⟨i, hi⟩) (by rw [hrunning]; rfl)
  let called : Strand ε α ω ξ := ⟨.inCallback, [], executor, .task c i⟩
  let config' : CollectAll.Config call.n ε (fun _ => α) := { call.config with
    outcome := Function.update call.config.outcome ⟨i, hi⟩ result }
  let s₁ : State ε α ω ξ := (s.setCall c { call with
    config := config', state := call.state.setTask ⟨i, hi⟩ .store }).setFrame a
      (.detached (call.input ⟨i, hi⟩) (.task c i) .inCallback)
  have hdeliver : deliver s a (call.input ⟨i, hi⟩) c i result = s₁ := by
    simp only [deliver, hcall, dif_pos hi, if_pos hrunning]
    rfl
  have hcalls : s₁.calls = s.calls.set c { call with
    config := config', state := call.state.setTask ⟨i, hi⟩ .store } := rfl
  rw [hdeliver]
  refine ⟨rfl, view.set (call.input ⟨i, hi⟩) (some called), ⟨?_, ?_, ?_, ?_, ?_, h.fault⟩, ?_⟩
  · exact h.agrees.setLast (t := called) hcell hrep rfl rfl rfl rfl rfl rfl
      (Calls.grows_set hcall hcalls id).continues
  · exact View.below_set h.below le_rfl (h.lt_next hst) _
  · refine h.meaning.set_silent rfl (h.lt_next hst) le_rfl ?_
    rintro _ ⟨⟩
    exact ⟨⟨result, executor, []⟩, rfl, hgoal.trans (List.append_nil _).symm, hresult⟩
  · exact h.users_of_task hst rfl (by rintro ⟨⟩) rfl rfl rfl rfl le_rfl
  · refine h.calls.setCall hcall hcalls le_rfl id (fun _ => Iff.rfl) ?_ ?_ ?_ ?_
    · rintro _ ⟨⟩
      exact ⟨_, hst, rfl⟩
    · refine hcallInv.move (hcallInv.inv.step_task hmove) ⟨i, hi⟩ ?_ ?_ ?_ ?_
      · exact fun j hj => ⟨Function.update_of_ne hj _ _, Iff.rfl, Function.update_of_ne hj _ _,
          fun hroot => hj (hcallInv.injective hroot)⟩
      · rw [View.set_strands_self]
        refine taskAgrees_of_called ?_ rfl rfl
        simp only [CollectAll.State.setTask, Function.update_self]
        trivial
      · intro _
        simp only [config', Function.update_self]
        exact hresult.symm
      · intro _
        rcases hcallInv.waiting hresumes with ⟨t, rest, ht, hfocus⟩
        refine ⟨t, rest, ?_, hfocus⟩
        rw [View.set_strands_of_ne (Nat.ne_of_lt (hcallInv.order _)), ht]
    · intro c' call' hc hcall'
      refine (h.calls.calls c' call' hcall').other hst (fun j htask => hc ?_) id
      cases htask
      rfl
    · rintro _ ⟨⟩ c' rest (hfocus | hfocus) <;> cases hfocus
  · refine h.weight_lt_of_setCall hst ?_ hcall hcalls (CollectAll.taskStep_remaining hmove)
      (Nat.le_succ 2)
    exact le_rfl

/-- Only a call moves on, and it does not resume the strand that waits. -/
theorem callStep (h : Inv noExecutor view s) {c : Nat} {call : Call ε α ξ}
    {state' : CollectAll.State call.n ε (fun _ => α)} (hcall : s.calls.cell c = some call)
    (hresumes : state'.resumes = call.state.resumes)
    (hown : CallInv view c { call with state := state' })
    (hless : state'.remaining < call.state.remaining) :
    Advances noExecutor view s (s.setCall c { call with state := state' }) := by
  have hcalls : (s.setCall c { call with state := state' }).calls =
      s.calls.set c { call with config := call.config, state := state' } := rfl
  have hgrows := Calls.grows_set hcall hcalls fun hne => by rwa [hresumes]
  refine ⟨rfl, view, ⟨?_, h.below, ⟨h.meaning.below, h.meaning.owes⟩, ?_, ?_, h.fault⟩, ?_⟩
  · exact h.agrees.congr rfl rfl hgrows.continues
  · exact ⟨h.users.starts, h.users.startsNodup, h.users.callbacksNodup, h.users.callbacks,
      h.users.ofUser⟩
  · rw [← View.set_self view (view.parent c)]
    refine h.calls.setCall hcall hcalls le_rfl (fun hne => by rwa [hresumes])
      (fun _ => by rw [hresumes]) (fun t ht => ⟨t, ht, rfl⟩) ?_ ?_ ?_
    · rwa [View.set_self]
    · rw [View.set_self]
      exact fun c' call' _ hcall' => h.calls.calls c' call' hcall'
    · exact fun t ht => Calls.waitAgrees_set hcall hcalls (h.calls.ofWait _ t ht) fun _ => by
        rw [hresumes]
  · exact weight_lt_of_call hcall hcalls rfl hless

/-- The last task resumes the strand that waits. -/
theorem resumeStep (h : Inv noExecutor view s) {c : Nat} {call : Call ε α ξ}
    {state' : CollectAll.State call.n ε (fun _ => α)} (hcall : s.calls.cell c = some call)
    (hresumes : call.state.resumes = []) (hresumes' : state'.resumes ≠ [])
    (hown : ∀ t, CallInv (view.set (view.parent c) t) c { call with state := state' })
    (hless : state'.remaining < call.state.remaining) :
    Advances noExecutor view s
      ((s.setCall c { call with state := state' }).resume call.continuation) := by
  have hcallInv := h.calls.calls c call hcall
  have hcalls : (s.setCall c { call with state := state' }).calls =
      s.calls.set c { call with config := call.config, state := state' } := rfl
  have hgrows := Calls.grows_set hcall hcalls fun _ => hresumes'
  rcases hcallInv.waiting hresumes with ⟨⟨focus, stack, executor, callback⟩, rest, hst, hfocus⟩
  obtain rfl : focus = .collecting c rest := hfocus
  have hcongr : Agrees (s.setCall c { call with state := state' }) view.strands :=
    h.agrees.congr rfl rfl hgrows.continues
  rcases hcongr.resumeCall (Heap.cell_set_self hcall) hst rfl with ⟨heap, heq, hnext, hagrees⟩
  let collected : Strand ε α ω ξ := ⟨.collected c rest, stack, executor, callback⟩
  let s₁ : State ε α ω ξ := { s.setCall c { call with state := state' } with heap := heap }
  have heq₁ : (s.setCall c { call with state := state' }).resume call.continuation = s₁ := heq
  have hcalls₁ : s₁.calls = s.calls.set c
    { call with config := call.config, state := state' } := rfl
  rw [heq₁]
  have hle : s.heap.next ≤ heap.next := hnext.ge
  refine ⟨rfl, view.set (view.parent c) (some collected), ⟨hagrees, ?_, ?_, ?_, ?_, h.fault⟩, ?_⟩
  · exact View.below_set h.below hle (h.lt_next hst) _
  · refine h.meaning.set_silent rfl
      (Nat.lt_of_lt_of_le (h.lt_next hst) hle) hle ?_
    rintro _ ⟨⟩
    have howes := h.meaning.owes _ _ hst
    exact howes
  · refine h.users.set hst ?_ rfl rfl (fun r _ => rfl) hle fun hagrees' => ?_
    · rintro _ ⟨⟩
      rfl
    · exact Users.agrees_live hagrees' hst trivial trivial rfl rfl
  · refine h.calls.setCall hcall hcalls₁ hle (fun _ => hresumes') (fun hne => absurd rfl hne) ?_
      (hown _) ?_ ?_
    · rintro _ ⟨⟩
      exact ⟨_, hst, rfl⟩
    · intro c' call' hc hcall'
      refine (h.calls.calls c' call' hcall').live hst trivial trivial rfl fun rest' hfocus => ?_
      cases hfocus
      exact absurd rfl hc
    · rintro _ ⟨⟩ c' rest' (hfocus | hfocus) <;> cases hfocus
      refine ⟨rfl, _, Heap.cell_set_self hcall, ?_⟩
      exact ⟨by rintro ⟨⟩, fun hnil => absurd hnil hresumes'⟩
  · have hwork : collected.work noExecutor view.results ≤
        Strand.work noExecutor view.results ⟨.collecting c rest, stack, executor, callback⟩ :=
      le_rfl
    exact h.weight_lt_of_setCall hst hle hcall hcalls₁ hless hwork

/-- A callback of a task moves on. -/
theorem advances_callback (h : Inv noExecutor view s) {a : Handle} {c i : Nat}
    (hcell : s.heap.cell a = some (.detached root (.task c i) .inCallback)) :
    Advances noExecutor view s (callbackStep s a root c i) := by
  rcases h.agrees.exists_last hcell trivial with
    ⟨⟨focus, stack, executor, callback⟩, hst, rfl, hstack, hpoint, hrep⟩
  obtain rfl : focus = .inCallback := by cases focus <;> cases hpoint; rfl
  obtain rfl : stack = [] := hstack
  rcases h.calls.ofTask root _ c i hst rfl with ⟨call, hcall, hinput⟩
  rcases Call.exists_of_input? hinput with ⟨hi, rfl⟩
  have hcallInv := h.calls.calls c call hcall
  have htask := hcallInv.tasks ⟨i, hi⟩
  rw [hst] at htask
  have hcalled := called_of_taskAgrees htask rfl
  by_cases hfinished : ∃ o, call.state.task ⟨i, hi⟩ = .finished o
  · rcases hfinished with ⟨o, ho⟩
    have hstep : callbackStep s a (call.input ⟨i, hi⟩) c i =
        s.setFrame a (.detached (call.input ⟨i, hi⟩) (.task c i) .leaving) := by
      simp only [callbackStep, hcall, dif_pos hi, ho]
    rw [hstep]
    let left : Strand ε α ω ξ := ⟨.leaving, [], executor, .task c i⟩
    refine ⟨rfl, view.set (call.input ⟨i, hi⟩) (some left), ⟨?_, ?_, ?_, ?_, ?_, h.fault⟩, ?_⟩
    · exact h.agrees.setLast (t := left) hcell hrep rfl rfl rfl rfl rfl rfl (.refl _)
    · exact View.below_set h.below le_rfl (h.lt_next hst) _
    · refine h.meaning.set_silent rfl (h.lt_next hst) le_rfl ?_
      rintro _ ⟨⟩
      have howes := h.meaning.owes _ _ hst
      exact howes
    · exact h.users_of_task hst rfl (by rintro ⟨⟩) rfl rfl rfl rfl le_rfl
    · refine h.calls.set_of_eq hst rfl le_rfl ?_ ?_ ?_
      · rintro _ ⟨⟩
        rfl
      · intro c' call' hcall'
        refine (h.calls.calls c' call' hcall').update hst (fun j _ hj => ?_) (by rintro rest ⟨⟩)
        cases callback_of_taskAgrees hj
        rw [hcall] at hcall'
        cases hcall'
        have hpc : call.state.task j = .finished o := ho
        unfold TaskAgrees
        rw [hpc]
        rintro _ ⟨⟩
        exact ⟨.inr rfl, rfl⟩
      · rintro _ ⟨⟩ c' rest (hfocus | hfocus) <;> cases hfocus
    · refine h.weight_lt hst le_rfl rfl ?_
      show (1 : Nat) < 2
      decide
  · have hnot : ∀ o, call.state.task ⟨i, hi⟩ ≠ .finished o := fun o ho => hfinished ⟨o, ho⟩
    have hexists : ∃ state', CollectAll.taskStep call.config call.state ⟨i, hi⟩ = some state' :=
      exists_taskStep hcalled hnot
    rcases hexists with ⟨state', hstate'⟩
    have hsame : CollectAll.taskStep (call.target view.goal) call.state ⟨i, hi⟩ =
        CollectAll.taskStep call.config call.state ⟨i, hi⟩ :=
      taskStep_congr (fun _ => (hcallInv.outcome _ hcalled).symm) rfl
    have htarget := hsame.trans hstate'
    have hstep : callbackStep s a (call.input ⟨i, hi⟩) c i =
        if state'.resumes = call.state.resumes then s.setCall c { call with state := state' }
        else (s.setCall c { call with state := state' }).resume call.continuation := by
      simp only [callbackStep, hcall, dif_pos hi, hstate']
    have hinv' := hcallInv.inv.step_task htarget
    rcases taskStep_called hstate' hcalled with ⟨pc, htasks, hpc, hmain, hresumes⟩
    -- the strand of the task stays in its callback
    have hself : ∀ r t, call.input ⟨i, hi⟩ ≠ r → TaskAgrees c { call with state := state' } ⟨i, hi⟩
        ((view.set r t).strands (call.input ⟨i, hi⟩)) := by
      intro r t hr
      rw [View.set_strands_of_ne hr, hst]
      refine taskAgrees_of_called ?_ rfl rfl
      simp only [htasks, Function.update_self]
      exact hpc
    have hothers : ∀ j, j ≠ ⟨i, hi⟩ → state'.task j = call.state.task j ∧
        (state'.main = .launch j ↔ call.state.main = .launch j) ∧
        call.config.outcome j = call.config.outcome j ∧ call.input j ≠ view.parent c := fun j hj =>
      ⟨by rw [htasks, Function.update_of_ne hj], by rw [hmain], rfl,
        Nat.ne_of_gt (hcallInv.order j)⟩
    have hmove : ∀ t, (state'.resumes = [] → ∃ st rest,
        (view.set (view.parent c) t).strands (view.parent c) = some st ∧
          st.focus = .collecting c rest) →
        CallInv (view.set (view.parent c) t) c { call with state := state' } := fun t =>
      hcallInv.move hinv' ⟨i, hi⟩ hothers
        (hself _ _ (Nat.ne_of_gt (hcallInv.order _)))
        fun _ => hcallInv.outcome _ hcalled
    rw [hstep]
    have hless := CollectAll.taskStep_remaining hstate'
    rcases hresumes with hsame | hresumed
    · rw [if_pos hsame]
      refine h.callStep hcall hsame ?_ hless
      have hown := hmove (view.strands (view.parent c))
      rw [View.set_self] at hown
      exact hown fun hnil => hcallInv.waiting (by rwa [← hsame])
    · have hne : state'.resumes ≠ [] := by simp [hresumed]
      have hnil : call.state.resumes = [] := by
        have hone := (hinv'.collected hcallInv.pos).resumedOnce
        rw [hresumed, List.length_append, List.length_singleton] at hone
        exact List.length_eq_zero_iff.mp (by omega)
      rw [if_neg (by rw [hnil]; exact hne)]
      exact h.resumeStep hcall hnil hne (fun t => hmove t fun hnil' => absurd hnil' hne) hless

/-! ## The loop of collectAll -/

/-- A step of a call and of the strand of one of its tasks, which has not called back. -/
theorem advances_task (h : Inv noExecutor view s) {c : Nat} {call : Call ε α ξ} {i : Fin call.n}
    {state' : CollectAll.State call.n ε (fun _ => α)} (hcall : s.calls.cell c = some call)
    {body : Body ε α ω ξ} {bound : Option ξ} {t : Strand ε α ω ξ}
    (hst : view.strands (call.input i) =
      some ⟨.unstarted body bound, [], call.taskExecutor i, .task c i⟩)
    (ht : t = ⟨t.focus, [], call.taskExecutor i, .task c i⟩)
    (hfocus : (∃ bound', t.focus = .unstarted body bound') ∨
      ∃ launch : Launch ξ, t.focus = launch.focus body)
    (hinv : CollectAll.Inv (call.target view.goal) state')
    (htasks : ∀ j, j ≠ i → state'.task j = call.state.task j)
    (hmain : ∀ j, j ≠ i → (state'.main = .launch j ↔ call.state.main = .launch j))
    (hnot : ¬ TaskCalled (state'.task i)) (hresumes : state'.resumes = call.state.resumes)
    (hless : state'.remaining < call.state.remaining)
    (hself : TaskAgrees c { call with state := state' } i (some t))
    (hcalls : s'.calls = s.calls.set c { call with config := call.config, state := state' })
    (hagrees : Agrees s' (Function.update view.strands (call.input i) (some t)))
    (hstarts : s'.starts = s.starts) (hcallbacks : s'.callbacks = s.callbacks)
    (hevents : s'.events = s.events) (hfault : s'.fault = s.fault)
    (hnext : s.heap.next ≤ s'.heap.next) : Advances noExecutor view s s' := by
  have hcallInv := h.calls.calls c call hcall
  rcases t with ⟨focus, stack, executor, callback⟩
  cases ht
  have hwork : Strand.work noExecutor view.results
      (⟨focus, [], call.taskExecutor i, .task c i⟩ : Strand ε α ω ξ) ≤
        evalWork noExecutor [] body (call.taskExecutor i) + 1 := by
    rcases hfocus with ⟨bound', rfl⟩ | ⟨launch, rfl⟩
    · exact le_rfl
    · cases launch
      · exact Nat.le_succ _
      · exact le_rfl
  have hpromises : ∀ o, Strand.Promises noExecutor view.results
      (⟨focus, [], call.taskExecutor i, .task c i⟩ : Strand ε α ω ξ) o ↔
        o = eval noExecutor [] body (call.taskExecutor i) := by
    rcases hfocus with ⟨bound', rfl⟩ | ⟨launch, rfl⟩
    · exact fun o => Iff.rfl
    · cases launch
      · exact fun o => Iff.rfl
      · exact fun o => Iff.rfl
  have hnotWaiting : ¬ focus.Waits := by
    rcases hfocus with ⟨bound', rfl⟩ | ⟨launch, rfl⟩
    · exact id
    · cases launch <;> exact id
  refine ⟨hstarts, view.set (call.input i) (some ⟨focus, [], call.taskExecutor i, .task c i⟩),
    ⟨hagrees, ?_, ?_, ?_, ?_, hfault.trans h.fault⟩, ?_⟩
  · exact View.below_set h.below hnext (h.lt_next hst) _
  · refine h.meaning.set_silent hevents
      (Nat.lt_of_lt_of_le (h.lt_next hst) hnext) hnext ?_
    rintro _ ⟨⟩
    rcases h.meaning.owes _ _ hst with ⟨o, hold, howes⟩
    exact ⟨o, (hpromises o).mpr hold, howes⟩
  · exact h.users_of_task hst rfl (by rintro ⟨⟩) rfl hstarts hcallbacks hevents hnext
  · refine h.calls.setCall hcall hcalls hnext (fun hne => by rwa [hresumes])
      (fun _ => by rw [hresumes]) ?_ ?_ ?_ ?_
    · rintro _ ⟨⟩
      exact ⟨_, hst, rfl⟩
    · refine hcallInv.move hinv i ?_ ?_ (fun hcalled => absurd hcalled hnot) fun hnil => ?_
      · exact fun j hj => ⟨htasks j hj, hmain j hj, rfl, fun hroot => hj (hcallInv.injective hroot)⟩
      · rw [View.set_strands_self]
        exact hself
      · rcases hcallInv.waiting (by rwa [← hresumes]) with ⟨t, rest, ht, hfocus'⟩
        refine ⟨t, rest, ?_, hfocus'⟩
        rw [View.set_strands_of_ne (Nat.ne_of_lt (hcallInv.order i)), ht]
    · intro c' call' hc hcall'
      refine (h.calls.calls c' call' hcall').other hst (fun j htask => hc ?_) id
      cases htask
      rfl
    · rintro _ ⟨⟩ c' rest hwaits
      exact absurd hwaits (Focus.not_waiting hnotWaiting)
  · exact h.weight_lt_of_setCall hst hnext hcall hcalls hless hwork

/-- A task is started: on the spot, or because its executor got to it. -/
theorem advances_startTask (h : Inv noExecutor view s) {c : Nat} {call : Call ε α ξ}
    {i : Fin call.n} {state' : CollectAll.State call.n ε (fun _ => α)}
    (hcall : s.calls.cell c = some call) {body : Body ε α ω ξ}
    (hst : view.strands (call.input i) =
      some ⟨.unstarted body (call.taskExecutor i), [], call.taskExecutor i, .task c i⟩)
    (hinv : CollectAll.Inv (call.target view.goal) state')
    (htask : state'.task = Function.update call.state.task i .running)
    (hmain : ∀ j, j ≠ i → (state'.main = .launch j ↔ call.state.main = .launch j))
    (hresumes : state'.resumes = call.state.resumes)
    (hless : state'.remaining < call.state.remaining) :
    Advances noExecutor view s ((s.setCall c { call with state := state' }).startLazy
      (call.input i) (.task c i) (call.launch i)) := by
  have hcalls : (s.setCall c { call with state := state' }).calls =
      s.calls.set c { call with config := call.config, state := state' } := rfl
  have hgrows := Calls.grows_set hcall hcalls fun hne => by rwa [hresumes]
  have hcongr : Agrees (s.setCall c { call with state := state' }) view.strands :=
    h.agrees.congr rfl rfl hgrows.continues
  have hlaunch : ∀ e, call.launch i = .reschedule e → call.taskExecutor i ≠ none := by
    intro e he
    rw [Call.taskExecutor, he]
    exact Option.some_ne_none e
  rcases hcongr.startLazy hst hlaunch with
    ⟨hagrees, hnext, hcalls', hevents, hstarts, hcallbacks, hfault⟩
  have hself : state'.task i = .running := by rw [htask, Function.update_self]
  refine h.advances_task hcall hst rfl (.inr ⟨call.launch i, rfl⟩) hinv (fun j hj => ?_) hmain ?_
    hresumes hless ?_ (hcalls'.trans hcalls) hagrees hstarts hcallbacks hevents hfault ?_
  · rw [htask, Function.update_of_ne hj]
  · rw [hself]
    exact id
  · have hlive : ((call.launch i).focus body).Live := by cases call.launch i <;> trivial
    unfold TaskAgrees
    rw [hself]
    exact ⟨_, rfl, hlive, rfl⟩
  · rw [hnext]
    exact Nat.le_succ _

/-- A step of the loop that starts no task. -/
theorem advances_main (h : Inv noExecutor view s) {c : Nat} {call : Call ε α ξ}
    {state' : CollectAll.State call.n ε (fun _ => α)} (hcall : s.calls.cell c = some call)
    (hstep : CollectAll.mainStep call.config call.state = some state')
    (htask : state'.task = call.state.task) (hresumes : state'.resumes = call.state.resumes)
    (hmain : ∀ j, call.state.main ≠ .launch j) (hmain' : ∀ j, state'.main ≠ .launch j) :
    Advances noExecutor view s (s.setCall c { call with state := state' }) := by
  have hcallInv := h.calls.calls c call hcall
  have hsame : ∀ j, state'.main = .launch j ↔ call.state.main = .launch j := fun j =>
    iff_of_false (hmain' j) (hmain j)
  refine h.callStep hcall hresumes ?_ (hcallInv.inv.mainStep_remaining hstep)
  rw [← View.set_self view (view.parent c)]
  refine hcallInv.move (hcallInv.inv.step_main hstep) ⟨0, hcallInv.pos⟩ (fun j _ => ?_) ?_ ?_ ?_
  · exact ⟨by rw [htask], hsame j, rfl, Nat.ne_of_gt (hcallInv.order j)⟩
  · rw [View.set_self]
    exact (taskAgrees_congr (by rw [htask]) (hsame _)).mpr (hcallInv.tasks _)
  · rw [htask]
    exact hcallInv.outcome _
  · rw [View.set_self, hresumes]
    exact hcallInv.waiting

/-- The strand of a task that the loop has not come to. -/
theorem exists_unstarted (h : Inv noExecutor view s) {c : Nat} {call : Call ε α ξ}
    (hcall : s.calls.cell c = some call) {i : Fin call.n} (hi : call.state.main.next ≤ i) :
    call.state.task i = .unstarted ∧ ∃ body, view.strands (call.input i) = some
      ⟨.unstarted body (if call.state.main = .launch i then call.taskExecutor i
        else (call.launch i).executor), [], call.taskExecutor i, .task c i⟩ := by
  have hcallInv := h.calls.calls c call hcall
  have hunstarted := (hcallInv.inv.unstarted i).mpr hi
  have htask := hcallInv.tasks i
  unfold TaskAgrees at htask
  rw [hunstarted] at htask
  exact ⟨hunstarted, htask⟩

/-- The loop gives its executor to the next task. -/
theorem advances_loop (h : Inv noExecutor view s) {c : Nat} {call : Call ε α ξ}
    {state' : CollectAll.State call.n ε (fun _ => α)} (hcall : s.calls.cell c = some call)
    (hstep : CollectAll.mainStep call.config call.state = some state') {i : Nat}
    (hmain : call.state.main = .loop i) (hi : i < call.n) :
    ∃ p point, s.heap.cell (call.input ⟨i, hi⟩) = some (.lazy p point) ∧
      Advances noExecutor view s ((s.setCall c { call with state := state' }).setPoint
        (call.input ⟨i, hi⟩) { p with executor := p.executor.or call.executor } point) := by
  have hcallInv := h.calls.calls c call hcall
  have hinv := hcallInv.inv.step_main hstep
  have hless := hcallInv.inv.mainStep_remaining hstep
  rcases h.exists_unstarted hcall (i := ⟨i, hi⟩) (by rw [hmain]; exact le_rfl) with
    ⟨hunstarted, body, hst⟩
  rw [hmain, if_neg (by rintro ⟨⟩)] at hst
  rcases h.agrees.exists_unstarted hst with ⟨-, -, hcell⟩
  refine ⟨_, _, hcell, ?_⟩
  simp only [CollectAll.mainStep, hmain, dif_pos hi, Option.some.injEq] at hstep
  have hcalls : (s.setCall c { call with state := state' }).calls =
      s.calls.set c { call with config := call.config, state := state' } := rfl
  have hresumes : state'.resumes = call.state.resumes := by rw [← hstep]; rfl
  have hmain' : state'.main = .launch ⟨i, hi⟩ := by rw [← hstep]; rfl
  have htask : state'.task = call.state.task := by rw [← hstep]; rfl
  have hself : state'.task ⟨i, hi⟩ = .unstarted := by rw [htask, hunstarted]
  have hgrows := Calls.grows_set hcall hcalls fun hne => by rwa [hresumes]
  let inherited : Strand ε α ω ξ :=
    ⟨.unstarted body (call.taskExecutor ⟨i, hi⟩), [], call.taskExecutor ⟨i, hi⟩, .task c i⟩
  have hagrees : Agrees ((s.setCall c { call with state := state' }).setPoint (call.input ⟨i, hi⟩)
      ⟨call.input ⟨i, hi⟩, none, call.taskExecutor ⟨i, hi⟩, .nothing⟩ (.suspended body))
      (Function.update view.strands (call.input ⟨i, hi⟩) (some inherited)) :=
    h.agrees.inherit hst rfl rfl hgrows.continues
  refine h.advances_task (t := inherited) hcall hst rfl (.inl ⟨_, rfl⟩) hinv (fun j _ => ?_)
    (fun j hj => ?_) ?_ hresumes hless ?_ hcalls hagrees rfl rfl rfl rfl le_rfl
  · rw [htask]
  · rw [hmain, hmain']
    exact ⟨fun heq => absurd (CollectAll.MainPc.launch.inj heq).symm hj, by rintro ⟨⟩⟩
  · rw [hself]
    exact id
  · unfold TaskAgrees
    rw [hself]
    refine ⟨body, ?_⟩
    rw [if_pos hmain']
    rfl

/-- The loop starts a task or hands it to its executor. -/
theorem advances_launch (h : Inv noExecutor view s) {c : Nat} {call : Call ε α ξ}
    {state' : CollectAll.State call.n ε (fun _ => α)} (hcall : s.calls.cell c = some call)
    (hstep : CollectAll.mainStep call.config call.state = some state') {i : Fin call.n}
    (hmain : call.state.main = .launch i) :
    Advances noExecutor view s
      (if state'.task i = .running then (s.setCall c { call with state := state' }).startLazy
        (call.input i) (.task c i) (call.launch i)
      else s.setCall c { call with state := state' }) := by
  have hcallInv := h.calls.calls c call hcall
  have hinv := hcallInv.inv.step_main hstep
  have hless := hcallInv.inv.mainStep_remaining hstep
  rcases h.exists_unstarted hcall (i := i) (by rw [hmain]; exact le_rfl) with
    ⟨hunstarted, body, hst⟩
  rw [if_pos hmain] at hst
  simp only [CollectAll.mainStep, hmain, Option.some.injEq] at hstep
  have hresumes : state'.resumes = call.state.resumes := by rw [← hstep]; rfl
  have hmain' : ∀ j, j ≠ i → (state'.main = .launch j ↔ call.state.main = .launch j) := by
    intro j hj
    rw [← hstep, hmain]
    exact ⟨by rintro ⟨⟩, fun heq => absurd (CollectAll.MainPc.launch.inj heq).symm hj⟩
  have htask : state'.task = Function.update call.state.task i
      (if call.config.para && decide (1 < call.n) && call.state.hasExecutor i then .scheduled
        else .running) := by rw [← hstep]; rfl
  by_cases hpara : (call.config.para && decide (1 < call.n) && call.state.hasExecutor i) = true
  · rw [if_pos hpara] at htask
    have hself : state'.task i = .scheduled := by rw [htask, Function.update_self]
    rw [if_neg (by rw [hself]; rintro ⟨⟩)]
    refine h.callStep hcall hresumes ?_ hless
    rw [← View.set_self view (view.parent c)]
    refine hcallInv.move hinv i (fun j hj => ?_) ?_ ?_ ?_
    · exact ⟨by rw [htask, Function.update_of_ne hj], hmain' j hj, rfl,
        Nat.ne_of_gt (hcallInv.order j)⟩
    · rw [View.set_self]
      unfold TaskAgrees
      rw [hself]
      exact ⟨body, hst⟩
    · rw [hself]
      exact False.elim
    · rw [View.set_self, hresumes]
      exact hcallInv.waiting
  · rw [if_neg hpara] at htask
    have hself : state'.task i = .running := by rw [htask, Function.update_self]
    rw [if_pos hself]
    exact h.advances_startTask hcall hst hinv htask hmain' hresumes hless

/-- {lit}`await_suspend` of {lit}`collectAll` goes on. -/
theorem advances_awaitSuspend (h : Inv noExecutor view s) {c : Nat}
    (hstep : awaitSuspendStep s c = some s') : Advances noExecutor view s s' := by
  unfold awaitSuspendStep at hstep
  split at hstep
  case h_1 => cases hstep
  case h_2 call hcall =>
    split at hstep
    case h_1 => cases hstep
    case h_2 state' hstate' =>
      cases hmain : call.state.main with
      | createSignal | setAwaitingCoro =>
          simp only [hmain, Option.some.injEq] at hstep
          subst hstep
          have hnot : ∀ j, call.state.main ≠ .launch j := by rw [hmain]; rintro j ⟨⟩
          have hstate := hstate'
          simp only [CollectAll.mainStep, hmain, Option.some.injEq] at hstate
          refine h.advances_main hcall hstate' ?_ ?_ hnot ?_ <;> rw [← hstate]
          · rfl
          · rfl
          · rintro j ⟨⟩
      | loop i =>
          by_cases hi : i < call.n
          · rcases h.advances_loop hcall hstate' hmain hi with ⟨p, point, hcell, hadvances⟩
            simp only [hmain, dif_pos hi, hcell, Option.some.injEq] at hstep
            rw [← hstep]
            exact hadvances
          · simp only [hmain, dif_neg hi, Option.some.injEq] at hstep
            subst hstep
            have hnot : ∀ j, call.state.main ≠ .launch j := by rw [hmain]; rintro j ⟨⟩
            have hstate := hstate'
            simp only [CollectAll.mainStep, hmain, dif_neg hi, Option.some.injEq] at hstate
            refine h.advances_main hcall hstate' ?_ ?_ hnot ?_ <;> rw [← hstate]
            · rfl
            · rfl
            · rintro j ⟨⟩
      | launch i =>
          have hadvances := h.advances_launch hcall hstate' hmain
          simp only [hmain] at hstep
          split at hstep
          case isTrue hrunning =>
            rw [if_pos hrunning] at hadvances
            cases hstep
            exact hadvances
          case isFalse hscheduled =>
            rw [if_neg hscheduled] at hadvances
            cases hstep
            exact hadvances
      | returned =>
          simp only [CollectAll.mainStep, hmain] at hstate'
          cases hstate'

/-- An executor gets to a task. -/
theorem advances_runTask (h : Inv noExecutor view s) {c i : Nat}
    (hstep : runTask s c i = some s') : Advances noExecutor view s s' := by
  unfold runTask at hstep
  split at hstep
  case h_1 => cases hstep
  case h_2 call hcall =>
    split at hstep
    case isFalse => cases hstep
    case isTrue hi =>
      split at hstep
      case isFalse => cases hstep
      case isTrue hscheduled =>
        have hcallInv := h.calls.calls c call hcall
        rcases Option.map_eq_some_iff.mp hstep with ⟨state', hstate', rfl⟩
        have htarget : CollectAll.taskStep (call.target view.goal) call.state ⟨i, hi⟩ =
            some state' := by
          rw [← hstate']
          exact taskStep_congr (by rw [hscheduled]; rintro ⟨⟩) rfl
        have htask := hcallInv.tasks ⟨i, hi⟩
        unfold TaskAgrees at htask
        rw [hscheduled] at htask
        rcases htask with ⟨body, hst⟩
        have hinv := hcallInv.inv.step_task htarget
        have hless := CollectAll.taskStep_remaining hstate'
        simp only [CollectAll.taskStep, hscheduled, Option.some.injEq] at hstate'
        refine h.advances_startTask hcall hst hinv ?_ ?_ ?_ hless <;> rw [← hstate']
        · rfl
        · exact fun j _ => Iff.rfl
        · rfl

end Inv

end Lazy

end AsyncSimple
