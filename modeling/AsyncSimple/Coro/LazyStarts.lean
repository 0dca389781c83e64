import AsyncSimple.Coro.LazySteps

/-!
# New strands

A call of {lit}`start` adds a strand to the heap, and a coroutine that awaits {lit}`collectAll` adds
one for each task.  What was there before does not change: the new strands have the addresses that
come next, and the new call has the next number.

Main results:

- Theorem {lit}`Inv.start`: {lit}`start` keeps the invariant and adds the cost of the body to the
  work.
- Theorem {lit}`Inv.advances_suspend`: a coroutine that suspends in {lit}`collectAll` hands some of
  its work to the tasks.
-/

namespace AsyncSimple

open Transition Storage

namespace Lazy

variable {ε α ω ξ : Type}

/-! ## Views with more strands -/

namespace View

/-- New strands with what they are to compute, from the address {lit}`next` on.  They are the tasks
of the call {lit}`c` of the strand {lit}`root`, or nobody's. -/
def add (view : View ε α ω ξ) (next : Handle) {n : Nat} (new : Fin n → Strand ε α ω ξ)
    (goals : Fin n → Outcome ε α ω ξ) (c : Nat) (root : Handle) : View ε α ω ξ where
  strands := Heap.extend view.strands next new
  goal := fun r => (Heap.extend (fun _ => none) next goals r).getD (view.goal r)
  results := Function.update view.results c (List.ofFn fun i => (goals i).result)
  parent := Function.update view.parent c root

variable {view : View ε α ω ξ} {next : Handle} {n : Nat} {new : Fin n → Strand ε α ω ξ}
variable {goals : Fin n → Outcome ε α ω ξ} {c : Nat} {root : Handle}

theorem goal_add (i : Fin n) : (view.add next new goals c root).goal (next + i) = goals i := by
  simp only [add, Heap.extend_add, Option.getD_some]

theorem goal_add_of_lt {r : Handle} (hr : r < next) :
    (view.add next new goals c root).goal r = view.goal r := by
  simp only [add, Heap.extend_of_lt _ _ hr, Option.getD_none]

theorem strands_add (i : Fin n) :
    (view.add next new goals c root).strands (next + i) = some (new i) :=
  Heap.extend_add _ _ _ i

theorem strands_add_of_lt {r : Handle} (hr : r < next) :
    (view.add next new goals c root).strands r = view.strands r :=
  Heap.extend_of_lt _ _ hr

/-- A strand is a new one or was there before. -/
theorem cases_of_add (hbelow : ∀ r, next ≤ r → view.strands r = none) {r : Handle}
    {st : Strand ε α ω ξ} (hst : (view.add next new goals c root).strands r = some st) :
    (∃ i : Fin n, r = next + i ∧ st = new i) ∨ (r < next ∧ view.strands r = some st) := by
  rcases Heap.extend_cases view.strands next new r with ⟨i, rfl, hi⟩ | ⟨-, hold⟩
  · exact .inl ⟨i, rfl, Option.some.inj (hst.symm.trans hi)⟩
  · have hr : view.strands r = some st := hold.symm.trans hst
    refine .inr ⟨Nat.lt_of_not_le fun hge => ?_, hr⟩
    rw [hbelow r hge] at hr
    cases hr

end View

/-- Only the results of the call that the strand waits for matter. -/
theorem Strand.promises_congr {noExecutor : ε} {results results' : Nat → List (Try ε α)}
    {st : Strand ε α ω ξ} (hsame : ∀ c rest,
      st.focus = .collecting c rest ∨ st.focus = .collected c rest → results' c = results c) :
    st.Promises noExecutor results' = st.Promises noExecutor results ∧
      st.work noExecutor results' = st.work noExecutor results := by
  rcases st with ⟨focus, stack, executor, callback⟩
  cases focus with
  | collecting c rest =>
      have hc := hsame c rest (.inl rfl)
      exact ⟨by funext o; simp only [Promises, hc], by simp only [work, hc]⟩
  | collected c rest =>
      have hc := hsame c rest (.inr rfl)
      exact ⟨by funext o; simp only [Promises, hc], by simp only [work, hc]⟩
  | _ => exact ⟨rfl, rfl⟩

/-- Nobody waits for the call that is made next. -/
theorem Calls.ne_next {view : View ε α ω ξ} {s : State ε α ω ξ} (h : Calls view s) {r : Handle}
    {st : Strand ε α ω ξ} (hst : view.strands r = some st) {c : Nat}
    {rest : List (Try ε α) → Body ε α ω ξ}
    (hfocus : st.focus = .collecting c rest ∨ st.focus = .collected c rest) :
    c ≠ s.calls.next := by
  rcases h.ofWait r st hst c rest hfocus with ⟨-, call, hcall, -⟩
  exact Nat.ne_of_lt (s.calls.lt_next hcall)

section

variable {noExecutor : ε} {view : View ε α ω ξ} {s s' : State ε α ω ξ} {n : Nat}
variable {new : Fin n → Strand ε α ω ξ} {goals : Fin n → Outcome ε α ω ξ} {root : Handle}

theorem Calls.results_add (h : Calls view s) {r : Handle} {st : Strand ε α ω ξ}
    (hst : view.strands r = some st) (c : Nat) (rest : List (Try ε α) → Body ε α ω ξ)
    (hfocus : st.focus = .collecting c rest ∨ st.focus = .collected c rest) :
    (view.add s.heap.next new goals s.calls.next root).results c = view.results c :=
  Function.update_of_ne (h.ne_next hst hfocus) _ _

theorem Meaning.add (h : Meaning noExecutor view s) (hcalls : Calls view s)
    (hbelow : ∀ r, s.heap.next ≤ r → view.strands r = none) (hevents : s'.events = s.events)
    (hnext : s.heap.next ≤ s'.heap.next)
    (hnew : ∀ i, (new i).Owes noExecutor
      (view.add s.heap.next new goals s.calls.next root).results (goals i) []) :
    Meaning noExecutor (view.add s.heap.next new goals s.calls.next root) s' where
  below := by
    rw [hevents]
    exact fun event hevent => Nat.lt_of_lt_of_le (h.below event hevent) hnext
  owes := by
    intro r st hst
    rw [State.eventsOf, hevents, ← State.eventsOf]
    rcases View.cases_of_add hbelow hst with ⟨i, rfl, rfl⟩ | ⟨hr, hold⟩
    · have hnone : s.eventsOf (s.heap.next + i) = [] := by
        rw [State.eventsOf, List.map_eq_nil_iff]
        refine List.filter_eq_nil_iff.mpr fun event hevent heq => ?_
        have hlt := h.below event hevent
        rw [of_decide_eq_true heq] at hlt
        exact absurd hlt (Nat.not_lt_of_le (Nat.le_add_right _ _))
      rw [hnone, View.goal_add]
      exact hnew i
    · rw [View.goal_add_of_lt hr]
      rcases h.owes r st hold with ⟨o, hpromises, howes⟩
      rw [← (Strand.promises_congr (hcalls.results_add hold)).1] at hpromises
      exact ⟨o, hpromises, howes⟩

/-- The new strands are those of some calls of {lit}`start` or of none. -/
theorem Users.add (h : Users noExecutor view s)
    (hbelow : ∀ r, s.heap.next ≤ r → view.strands r = none)
    {started : List (Handle × Body ε α ω ξ × Launch ξ)}
    (hstarts : s'.starts = s.starts ++ started) (hcallbacks : s'.callbacks = s.callbacks)
    (hevents : s'.events = s.events) (hnext : s.heap.next + n ≤ s'.heap.next)
    (hstarted : ∀ r body launch, (r, body, launch) ∈ started → ∃ i : Fin n,
      r = s.heap.next + i ∧ goals i = denote noExecutor body launch.executor ∧
        (new i).focus.Live ∧ (new i).callback = .user)
    (hnodup : (started.map Prod.fst).Nodup)
    (hofUser : ∀ i, (new i).callback = .user →
      s.heap.next + (i : Nat) ∈ started.map Prod.fst) :
    Users noExecutor (view.add s.heap.next new goals s.calls.next root) s' where
  starts := by
    intro r body launch hmem
    rw [hstarts] at hmem
    unfold UserAgrees
    rw [hcallbacks, State.eventsOf, hevents, ← State.eventsOf]
    rcases List.mem_append.mp hmem with hold | hnew
    · rcases h.starts r body launch hold with ⟨hlt, hgoal, hagrees⟩
      rw [View.goal_add_of_lt hlt, View.strands_add_of_lt hlt]
      exact ⟨Nat.lt_of_lt_of_le hlt (Nat.le_trans (Nat.le_add_right _ _) hnext), hgoal, hagrees⟩
    · rcases hstarted r body launch hnew with ⟨i, rfl, hgoal, hlive, huser⟩
      rw [View.goal_add, View.strands_add]
      refine ⟨Nat.lt_of_lt_of_le (Nat.add_lt_add_left i.isLt _) hnext, hgoal,
        .inl ⟨_, rfl, hlive, huser, fun result hmem => ?_⟩⟩
      rcases List.mem_map.mp (h.callbacks _ result hmem).1 with ⟨⟨r, body', launch'⟩, hstart, heq⟩
      have hlt := (h.starts r body' launch' hstart).1
      rw [show r = s.heap.next + (i : Nat) from heq] at hlt
      exact absurd hlt (Nat.not_lt_of_le (Nat.le_add_right _ _))
  startsNodup := by
    rw [hstarts, List.map_append]
    refine List.Nodup.append h.startsNodup hnodup fun r hold hnew => ?_
    rcases List.mem_map.mp hold with ⟨⟨r', body, launch⟩, hstart, rfl⟩
    rcases List.mem_map.mp hnew with ⟨⟨r, body', launch'⟩, hstart', heq⟩
    rcases hstarted r body' launch' hstart' with ⟨i, hr, -⟩
    have hlt := (h.starts r' body launch hstart).1
    rw [show r' = s.heap.next + (i : Nat) from heq.symm.trans hr] at hlt
    exact absurd hlt (Nat.not_lt_of_le (Nat.le_add_right _ _))
  callbacksNodup := by
    rw [hcallbacks]
    exact h.callbacksNodup
  callbacks := by
    intro r result hmem
    rw [hcallbacks] at hmem
    rcases h.callbacks r result hmem with ⟨hroot, hresult⟩
    rcases List.mem_map.mp hroot with ⟨⟨r', body, launch⟩, hstart, rfl⟩
    rw [hstarts, List.map_append, View.goal_add_of_lt (h.starts r' body launch hstart).1]
    exact ⟨List.mem_append_left _ hroot, hresult⟩
  ofUser := by
    intro r st hst huser
    rw [hstarts, List.map_append]
    rcases View.cases_of_add hbelow hst with ⟨i, rfl, rfl⟩ | ⟨hr, hold⟩
    · exact List.mem_append_right _ (hofUser i huser)
    · exact List.mem_append_left _ (h.ofUser r st hold huser)

/-- The calls that are there do not see the new strands. -/
theorem CallInv.add {c : Nat} {call : Call ε α ξ} (h : CallInv view c call)
    (hc : c ≠ s.calls.next) (hinputs : ∀ i, call.input i < s.heap.next) :
    CallInv (view.add s.heap.next new goals s.calls.next root) c call := by
  have hgoal : ∀ i, (view.add s.heap.next new goals s.calls.next root).goal (call.input i) =
      view.goal (call.input i) := fun i => View.goal_add_of_lt (hinputs i)
  have hparent : (view.add s.heap.next new goals s.calls.next root).parent c = view.parent c :=
    Function.update_of_ne hc _ _
  have hresults : (view.add s.heap.next new goals s.calls.next root).results c = view.results c :=
    Function.update_of_ne hc _ _
  have htarget : call.target (view.add s.heap.next new goals s.calls.next root).goal =
      call.target view.goal := by
    simp only [Call.target, hgoal]
  refine ⟨h.pos, ?_, fun i => ?_, h.injective, ?_, fun i hi => ?_, ?_, fun hnil => ?_⟩
  · rw [htarget]
    exact h.inv
  · rw [View.strands_add_of_lt (hinputs i)]
    exact h.tasks i
  · rw [hparent]
    exact h.order
  · rw [hgoal]
    exact h.outcome i hi
  · simp only [hresults, hgoal, h.results]
  · have hlt := Nat.lt_trans (h.order ⟨0, h.pos⟩) (hinputs ⟨0, h.pos⟩)
    rw [hparent, View.strands_add_of_lt hlt]
    exact h.waiting hnil

/-- What the new strands and the old ones weigh. -/
theorem Calls.weigh_add (h : Calls view s) :
    Heap.weigh (s.heap.next + n) (view.add s.heap.next new goals s.calls.next root).strands
        (Strand.work noExecutor (view.add s.heap.next new goals s.calls.next root).results) =
      Heap.weigh s.heap.next view.strands (Strand.work noExecutor view.results) +
        ∑ i, Strand.work noExecutor
          (view.add s.heap.next new goals s.calls.next root).results (new i) := by
  refine (Heap.weigh_extend _ new).trans (congrArg (· + _) ?_)
  exact Heap.weigh_congr fun r st _ hst => (Strand.promises_congr (h.results_add hst)).2

end

namespace Inv

variable {noExecutor : ε} {view : View ε α ω ξ} {s : State ε α ω ξ}

/-! ## Calls of start -/

/-- A call of {lit}`start` adds a strand that has the body to execute. -/
theorem start (h : Inv noExecutor view s) (body : Body ε α ω ξ) (launch : Launch ξ) :
    (Lazy.start s body launch).starts = s.starts ++ [(s.heap.next, body, launch)] ∧
      ∃ view', Inv noExecutor view' (Lazy.start s body launch) ∧
        view'.weight noExecutor (Lazy.start s body launch) ≤
          view.weight noExecutor s + (cost noExecutor body launch.executor + 6) := by
  let s₁ : State ε α ω ξ := { s with
    heap := s.heap.alloc
      (.lazy ⟨s.heap.next, none, launch.executor, .nothing⟩ (.suspended body))
    starts := s.starts ++ [(s.heap.next, body, launch)] }
  let begun : Strand ε α ω ξ := ⟨launch.focus body, [], launch.executor, .user⟩
  let goal : Outcome ε α ω ξ := denote noExecutor body launch.executor
  let view' : View ε α ω ξ := view.add s.heap.next (fun _ : Fin 1 => begun) (fun _ => goal)
    s.calls.next s.heap.next
  have hlive : begun.focus.Live := by
    show (launch.focus body).Live
    cases launch <;> trivial
  have hnotWaiting : ¬ begun.focus.Waits := by
    show ¬ (launch.focus body).Waits
    cases launch <;> exact id
  have hpromises : begun.Promises noExecutor view'.results
      (eval noExecutor [] body launch.executor) := by
    show (⟨launch.focus body, _, _, _⟩ : Strand ε α ω ξ).Promises _ _ _
    cases launch <;> rfl
  have hwork : begun.work noExecutor view'.results ≤ cost noExecutor body launch.executor + 6 := by
    show (⟨launch.focus body, _, _, _⟩ : Strand ε α ω ξ).work _ _ ≤ _
    cases launch <;> simp only [Launch.focus, Strand.work, evalWork, unwindWork] <;> omega
  have halloc : Agrees s₁ (Function.update view.strands s.heap.next
      (some ⟨.unstarted body launch.executor, [], launch.executor, .user⟩)) :=
    h.agrees.allocLazy (h.below _ le_rfl) rfl rfl (.refl _)
  have hlaunch : ∀ e, launch = .reschedule e → launch.executor ≠ none := by
    rintro e rfl
    exact Option.some_ne_none e
  rcases halloc.startLazy (Function.update_self _ _ _) hlaunch with
    ⟨hagrees, hnext, hcalls, hevents, hstarts, hcallbacks, hfault⟩
  have hstart : Lazy.start s body launch = s₁.startLazy s.heap.next .user launch := rfl
  rw [hstart]
  have hnext' : (s₁.startLazy s.heap.next .user launch).heap.next = s.heap.next + 2 := hnext
  have hle : s.heap.next ≤ (s₁.startLazy s.heap.next .user launch).heap.next := by omega
  have hstrands : view'.strands = Function.update view.strands s.heap.next (some begun) :=
    Heap.extend_one _ _ _
  have hbelow : ∀ r, s.heap.next + 1 ≤ r → view'.strands r = none := by
    intro r hr
    rw [hstrands, Function.update_of_ne (Nat.ne_of_gt hr)]
    exact h.below r (Nat.le_of_succ_le hr)
  refine ⟨hstarts, view', ⟨?_, ?_, ?_, ?_, ?_, hfault.trans h.fault⟩, ?_⟩
  · rw [hstrands]
    rw [Function.update_idem] at hagrees
    exact hagrees
  · exact fun r hr => hbelow r (by rw [hnext'] at hr; exact Nat.le_of_succ_le hr)
  · refine h.meaning.add h.calls h.below hevents hle fun i => ⟨_, hpromises, ?_, ?_⟩
    · simp only [goal, eval, unwind, Outcome.after_events, List.nil_append, List.append_nil]
    · simp only [goal, eval, unwind, Outcome.after_result]
  · refine h.users.add h.below hstarts hcallbacks hevents ?_ ?_ (List.nodup_singleton _) ?_
    · omega
    · intro r body' launch' hmem
      cases List.mem_singleton.mp hmem
      exact ⟨⟨0, Nat.one_pos⟩, rfl, rfl, hlive, rfl⟩
    · intro i _
      have hi : (i : Nat) = 0 := Nat.lt_one_iff.mp i.isLt
      rw [hi]
      exact List.mem_singleton.mpr rfl
  · refine ⟨fun c call hcall => ?_, fun c call hcall i => ?_, fun r t c i ht htask => ?_,
      fun r t ht => ?_⟩
    · rw [hcalls] at hcall
      exact (h.calls.calls c call hcall).add (Nat.ne_of_lt (s.calls.lt_next hcall))
        (h.calls.inputs c call hcall)
    · rw [hcalls] at hcall
      exact Nat.lt_of_lt_of_le (h.calls.inputs c call hcall i) hle
    · rw [hcalls]
      rcases View.cases_of_add h.below ht with ⟨k, -, rfl⟩ | ⟨-, hold⟩
      · cases htask
      · exact h.calls.ofTask r t c i hold htask
    · intro c rest hfocus
      rw [hcalls]
      rcases View.cases_of_add h.below ht with ⟨k, -, rfl⟩ | ⟨-, hold⟩
      · exact absurd hfocus (Focus.not_waiting hnotWaiting)
      · rcases h.calls.ofWait r t hold c rest hfocus with ⟨hparent, hcall⟩
        refine ⟨?_, hcall⟩
        rw [← hparent]
        exact Function.update_of_ne (h.calls.ne_next hold hfocus) _ _
  · have hweigh : Heap.weigh (s.heap.next + 1) view'.strands
          (Strand.work noExecutor view'.results) =
        Heap.weigh s.heap.next view.strands (Strand.work noExecutor view.results) +
          begun.work noExecutor view'.results :=
      h.calls.weigh_add.trans (congrArg (_ + ·) (Fin.sum_univ_one _))
    simp only [View.weight, hcalls]
    rw [Heap.weigh_of_le _ hbelow (by omega), hweigh]
    have hsame : s₁.calls = s.calls := rfl
    rw [hsame]
    omega

end Inv

/-! ## Calls of collectAll -/

section

variable (noExecutor : ε) {n : Nat} (tasks : Fin n → Body ε α ω ξ) (launch : Fin n → Launch ξ)
variable (ex : Option ξ)

/-- The strands of the tasks before {lit}`collectAll` starts them. -/
def taskStrands (c : Nat) (i : Fin n) : Strand ε α ω ξ :=
  ⟨.unstarted (tasks i) (launch i).executor, [], (launch i).inherit ex, .task c i⟩

def taskGoals (i : Fin n) : Outcome ε α ω ξ :=
  denote noExecutor (tasks i) ((launch i).inherit ex)

/-- The tasks of the strand {lit}`root` are there. -/
def View.addTasks (view : View ε α ω ξ) (s : State ε α ω ξ) (root : Handle) : View ε α ω ξ :=
  view.add s.heap.next (taskStrands tasks launch ex s.calls.next)
    (taskGoals noExecutor tasks launch ex) s.calls.next root

end

section

variable {noExecutor : ε} {view : View ε α ω ξ} {s s' : State ε α ω ξ} {a root : Handle}
variable {para : Bool} {n : Nat} {tasks : Fin n → Body ε α ω ξ} {launch : Fin n → Launch ξ}
variable {rest : List (Try ε α) → Body ε α ω ξ} {stack : List (Try ε α → Body ε α ω ξ)}
variable {ex : Option ξ} {callback : Callback}

theorem View.results_addTasks :
    (view.addTasks noExecutor tasks launch ex s root).results s.calls.next =
      List.ofFn fun i => (taskGoals noExecutor tasks launch ex i).result :=
  Function.update_self _ _ _

theorem View.goal_addTasks (i : Fin n) :
    (view.addTasks noExecutor tasks launch ex s root).goal (s.heap.next + (i : Nat)) =
      taskGoals noExecutor tasks launch ex i :=
  View.goal_add i

theorem View.strands_addTasks (i : Fin n) :
    (view.addTasks noExecutor tasks launch ex s root).strands (s.heap.next + (i : Nat)) =
      some (taskStrands tasks launch ex s.calls.next i) :=
  View.strands_add i

/-- The coroutine will go on with what the tasks are to compute. -/
theorem eval_collectAll :
    eval noExecutor stack (rest
        ((view.addTasks noExecutor tasks launch ex s root).results s.calls.next)) ex =
      eval noExecutor stack (.collectAll para n tasks launch rest) ex := by
  rw [View.results_addTasks]
  rfl

/-- The new call is that of a strand that waits for tasks that have not started. -/
theorem CallInv.create (hn : n ≠ 0) (hroot : root < s.heap.next) :
    CallInv ((view.addTasks noExecutor tasks launch ex s root).set root
      (some ⟨.collecting s.calls.next rest, stack, ex, callback⟩)) s.calls.next
        (.create para (fun i => s.heap.next + (i : Nat)) launch a ex) := by
  have hne : ∀ i : Fin n, s.heap.next + (i : Nat) ≠ root := fun i heq =>
    absurd hroot (by rw [← heq]; exact Nat.not_lt_of_le (Nat.le_add_right _ _))
  have hparent : (view.addTasks noExecutor tasks launch ex s root).parent s.calls.next = root :=
    Function.update_self _ _ _
  have hstrands : ∀ (i : Fin n) (t : Strand ε α ω ξ),
      ((view.addTasks noExecutor tasks launch ex s root).set root (some t)).strands
        (s.heap.next + (i : Nat)) = some (taskStrands tasks launch ex s.calls.next i) :=
    fun i t => (View.set_strands_of_ne (hne i)).trans (View.strands_addTasks i)
  refine ⟨Nat.pos_of_ne_zero hn, CollectAll.Inv.initial _,
    fun i => ⟨tasks i, (hstrands i _).trans ?_⟩, fun i j hij => ?_, fun i => ?_,
    fun i hi => hi.elim, ?_, fun _ => ?_⟩
  · rw [if_neg (by rintro ⟨⟩)]
    rfl
  · exact Fin.ext (Nat.add_left_cancel hij)
  · show View.parent _ s.calls.next < s.heap.next + (i : Nat)
    exact hparent.trans_lt (Nat.lt_of_lt_of_le hroot (Nat.le_add_right _ _))
  · show View.results _ s.calls.next = List.ofFn fun i : Fin n =>
      (View.goal _ (s.heap.next + (i : Nat))).result
    have hresults : (view.addTasks noExecutor tasks launch ex s root).results s.calls.next =
        List.ofFn fun i : Fin n => ((view.addTasks noExecutor tasks launch ex s root).goal
          (s.heap.next + (i : Nat))).result := by
      simp only [View.results_addTasks, View.goal_addTasks]
    exact hresults
  · refine ⟨⟨.collecting s.calls.next rest, stack, ex, callback⟩, rest, ?_, rfl⟩
    exact (congrArg _ hparent).trans (View.set_strands_self _ _ _)

namespace Inv

/-- The calls when the strand waits. -/
theorem calls_suspend (h : Inv noExecutor view s) (hn : n ≠ 0)
    (hst : view.strands root = some ⟨.running (.collectAll para n tasks launch rest), stack, ex,
      callback⟩)
    (hcalls : s'.calls =
      s.calls.alloc (.create para (fun i => s.heap.next + (i : Nat)) launch a ex))
    (hnext : s'.heap.next = s.heap.next + n) :
    Calls ((view.addTasks noExecutor tasks launch ex s root).set root
      (some ⟨.collecting s.calls.next rest, stack, ex, callback⟩)) s' := by
  have hlt := h.lt_next hst
  have hold : (view.addTasks noExecutor tasks launch ex s root).strands root = _ :=
    (View.strands_add_of_lt hlt).trans hst
  have hnew := Heap.cell_alloc_next s.calls
    (.create para (fun i => s.heap.next + (i : Nat)) launch a ex)
  have hcell : ∀ c call, s'.calls.cell c = some call →
      (c = s.calls.next ∧
        call = .create para (fun i => s.heap.next + (i : Nat)) launch a ex) ∨
      (c ≠ s.calls.next ∧ s.calls.cell c = some call) := by
    intro c call hcall
    rw [hcalls, Heap.cell_alloc] at hcall
    split at hcall
    case isTrue hc =>
      cases hcall
      exact .inl ⟨hc, rfl⟩
    case isFalse hc => exact .inr ⟨hc, hcall⟩
  refine ⟨fun c call hcall => ?_, fun c call hcall i => ?_, fun r t c i ht htask => ?_,
    fun r t ht => ?_⟩
  · rcases hcell c call hcall with ⟨rfl, rfl⟩ | ⟨hc, hcall⟩
    · exact .create hn hlt
    · exact ((h.calls.calls c call hcall).add hc (h.calls.inputs c call hcall)).live hold trivial
        trivial rfl (by rintro rest ⟨⟩)
  · rw [hnext]
    rcases hcell c call hcall with ⟨rfl, rfl⟩ | ⟨hc, hcall⟩
    · exact Nat.add_lt_add_left i.isLt _
    · exact Nat.lt_of_lt_of_le (h.calls.inputs c call hcall i) (Nat.le_add_right _ _)
  · have hstrand : ∃ t', (view.addTasks noExecutor tasks launch ex s root).strands r = some t' ∧
        t'.callback = .task c i := by
      by_cases hr : r = root
      · subst hr
        rw [View.set_strands_self] at ht
        cases ht
        exact ⟨_, hold, htask⟩
      · rw [View.set_strands_of_ne hr] at ht
        exact ⟨t, ht, htask⟩
    rw [hcalls]
    rcases hstrand with ⟨t', ht', htask'⟩
    rcases View.cases_of_add h.below ht' with ⟨k, rfl, rfl⟩ | ⟨-, ht'⟩
    · cases htask'
      exact ⟨_, hnew, dif_pos k.isLt⟩
    · rcases h.calls.ofTask r t' c i ht' htask' with ⟨call, hcall, hinput⟩
      exact ⟨call, Heap.cell_alloc_of_some hcall, hinput⟩
  · intro c rest' hwaits
    rw [hcalls]
    by_cases hr : r = root
    · subst hr
      rw [View.set_strands_self] at ht
      cases ht
      rcases hwaits with hwaits | hwaits <;> cases hwaits
      exact ⟨Function.update_self _ _ _, _, hnew, fun _ => rfl, fun _ => rfl⟩
    · rw [View.set_strands_of_ne hr] at ht
      rcases View.cases_of_add h.below ht with ⟨k, -, rfl⟩ | ⟨-, ht⟩
      · rcases hwaits with hwaits | hwaits <;> cases hwaits
      · rcases h.calls.ofWait r t ht c rest' hwaits with ⟨hparent, call, hcall, hiff⟩
        refine ⟨?_, call, Heap.cell_alloc_of_some hcall, hiff⟩
        rw [← hparent]
        exact Function.update_of_ne (h.calls.ne_next ht hwaits) _ _

/-- The strand hands the tasks and the call some of its work. -/
theorem weight_suspend (h : Inv noExecutor view s)
    (hst : view.strands root = some ⟨.running (.collectAll para n tasks launch rest), stack, ex,
      callback⟩)
    (hcalls : s'.calls =
      s.calls.alloc (.create para (fun i => s.heap.next + (i : Nat)) launch a ex))
    (hnext : s'.heap.next = s.heap.next + n) :
    ((view.addTasks noExecutor tasks launch ex s root).set root
      (some ⟨.collecting s.calls.next rest, stack, ex, callback⟩)).weight noExecutor s' <
        view.weight noExecutor s := by
  let added : View ε α ω ξ := view.addTasks noExecutor tasks launch ex s root
  let waiting : Strand ε α ω ξ := ⟨.collecting s.calls.next rest, stack, ex, callback⟩
  have hlt := h.lt_next hst
  have hold : added.strands root = _ := (View.strands_add_of_lt hlt).trans hst
  have hweigh : Heap.weigh (s.heap.next + n) added.strands
        (Strand.work noExecutor added.results) =
      Heap.weigh s.heap.next view.strands (Strand.work noExecutor view.results) +
        ∑ i, (taskStrands tasks launch ex s.calls.next i).work noExecutor added.results :=
    h.calls.weigh_add
  have hupdate : Heap.weigh (s.heap.next + n) (added.set root (some waiting)).strands
        (Strand.work noExecutor added.results) +
      ((added.strands root).map (Strand.work noExecutor added.results)).getD 0 =
        Heap.weigh (s.heap.next + n) added.strands (Strand.work noExecutor added.results) +
          waiting.work noExecutor added.results :=
    Heap.weigh_update _ (Nat.lt_of_lt_of_le hlt (Nat.le_add_right _ _)) _
  have htotal : s'.calls.total (fun call => call.state.remaining) =
      s.calls.total (fun call => call.state.remaining) + (11 * n + 3) := by
    rw [hcalls, Heap.total_alloc]
    exact congrArg (_ + ·) (CollectAll.State.remaining_initial _)
  have hnew : ∀ i, (taskStrands tasks launch ex s.calls.next i).work noExecutor added.results =
      cost noExecutor (tasks i) ((launch i).inherit ex) + 6 := fun i => rfl
  have hwaiting : waiting.work noExecutor added.results = evalWork noExecutor stack
      (rest (List.ofFn fun i => (taskGoals noExecutor tasks launch ex i).result)) ex + 1 := by
    rw [← View.results_addTasks]
    rfl
  have hrunning : Strand.work noExecutor added.results
        (⟨.running (.collectAll para n tasks launch rest), stack, ex, callback⟩ :
          Strand ε α ω ξ) =
      evalWork noExecutor stack
        (rest (List.ofFn fun i => (taskGoals noExecutor tasks launch ex i).result)) ex +
        ∑ i, (cost noExecutor (tasks i) ((launch i).inherit ex) + 6) + (11 * n + 3) + 2 := by
    simp only [Strand.work, evalWork, cost, denote, taskGoals]
    omega
  rw [hold, Option.map_some, Option.getD_some, hrunning, hwaiting] at hupdate
  simp only [hnew] at hweigh
  show Heap.weigh s'.heap.next (added.set root (some waiting)).strands
    (Strand.work noExecutor added.results) + s'.calls.total _ < _
  rw [hnext, htotal, View.weight]
  omega

/-- A strand suspends in {lit}`collectAll`. -/
theorem advances_suspend (h : Inv noExecutor view s) {p : Promise ε α ξ} (hn : n ≠ 0)
    (hcell : s.heap.cell a = some (.lazy p (.running (.collectAll para n tasks launch rest)))) :
    Advances noExecutor view s (suspendInCollectAll s a p para tasks launch rest) := by
  rcases h.agrees.collecting h.below hcell with
    ⟨root, ⟨focus, stack, ex, callback⟩, hst, hfocus, hexecutor, hagrees⟩
  obtain rfl : focus = .running (.collectAll para n tasks launch rest) := hfocus
  obtain rfl : p.executor = ex := hexecutor
  let added : View ε α ω ξ := view.addTasks noExecutor tasks launch p.executor s root
  have hle : s.heap.next ≤ s.heap.next + n := Nat.le_add_right _ _
  have hlt := Nat.lt_of_lt_of_le (h.lt_next hst) hle
  have hold : added.strands root = _ := (View.strands_add_of_lt (h.lt_next hst)).trans hst
  have hbelow : ∀ r, s.heap.next + n ≤ r → added.strands r = none := fun r hr =>
    (Heap.extend_of_ge _ _ hr).trans (h.below r (Nat.le_trans hle hr))
  have hmeaning : Meaning noExecutor added (suspendInCollectAll s a p para tasks launch rest) := by
    refine h.meaning.add h.calls h.below rfl hle fun i => ⟨_, rfl, ?_, ?_⟩
    · simp only [taskGoals, eval, unwind, Outcome.after_events, List.nil_append,
        List.append_nil, taskStrands]
    · simp only [taskGoals, eval, unwind, Outcome.after_result, taskStrands]
  have husers : Users noExecutor added (suspendInCollectAll s a p para tasks launch rest) :=
    h.users.add h.below (List.append_nil _).symm rfl rfl le_rfl
      (fun _ _ _ hmem => (List.not_mem_nil hmem).elim) List.nodup_nil (by rintro i ⟨⟩)
  refine ⟨rfl, added.set root (some ⟨.collecting s.calls.next rest, stack, p.executor, callback⟩),
    ⟨hagrees, ?_, ?_, ?_, h.calls_suspend hn hst rfl rfl, h.fault⟩, h.weight_suspend hst rfl rfl⟩
  · exact View.below_set hbelow le_rfl hlt _
  · refine hmeaning.set_silent rfl hlt le_rfl ?_
    rintro _ ⟨⟩
    rcases hmeaning.owes root _ hold with ⟨o, hpromises, howes⟩
    exact ⟨o, hpromises.trans eval_collectAll.symm, howes⟩
  · refine husers.set hold ?_ rfl rfl (fun r _ => rfl) le_rfl fun hagrees' => ?_
    · rintro _ ⟨⟩
      rfl
    · exact Users.agrees_live hagrees' hold trivial trivial rfl rfl

end Inv

end

end Lazy

end AsyncSimple
