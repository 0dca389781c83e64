import AsyncSimple.Coro.CollectAllResume
import AsyncSimple.Coro.LazyCalls

/-!
# The invariant of a process of Lazy

Beside the strands of a heap the invariant knows with which outcome each of them will end.  What a
strand has emitted so far and what it still owes is that outcome; a strand that waits for a call
of {lit}`collectAll` waits for the outcomes of its tasks; and the call itself is in a state of the
machine of {lit}`Coro/CollectAll` that runs with these outcomes.

Main results:

- Definition {lit}`Inv`: the invariant.
- Theorems {lit}`Meaning.set`, {lit}`Users.set` and {lit}`Calls.set`: what the parts of the
  invariant ask of the step of one strand.
- Theorem {lit}`Inv.own`: a step of a strand on its own keeps the invariant.
-/

namespace AsyncSimple

open Transition Storage

namespace Lazy

variable {ε α ω ξ : Type}

/-! ## Strands and their outcomes -/

/-- The strands of a heap, the outcomes that they will end with, the results of the calls of
{lit}`collectAll`, and the strands that made them. -/
structure View (ε α ω ξ : Type) where
  strands : Handle → Option (Strand ε α ω ξ)
  goal : Handle → Outcome ε α ω ξ
  results : Nat → List (Try ε α)
  parent : Nat → Handle

namespace View

def initial : View ε α ω ξ where
  strands := fun _ => none
  goal := fun _ => ⟨.nothing, none, []⟩
  results := fun _ => []
  parent := fun _ => 0

/-- One strand has changed or has ended. -/
def set (view : View ε α ω ξ) (root : Handle) (st : Option (Strand ε α ω ξ)) : View ε α ω ξ :=
  { view with strands := Function.update view.strands root st }

@[simp]
theorem set_strands_self (view : View ε α ω ξ) (root : Handle) (st : Option (Strand ε α ω ξ)) :
    (view.set root st).strands root = st :=
  Function.update_self _ _ _

theorem set_strands_of_ne {view : View ε α ω ξ} {root r : Handle}
    {st : Option (Strand ε α ω ξ)} (hr : r ≠ root) :
    (view.set root st).strands r = view.strands r :=
  Function.update_of_ne hr _ _

@[simp]
theorem set_self (view : View ε α ω ξ) (root : Handle) :
    view.set root (view.strands root) = view := by
  rw [set, Function.update_eq_self]

end View

/-- The strand has started and its callback has not been called. -/
def Focus.Live : Focus ε α ω ξ → Prop
  | .unstarted _ _ | .inCallback | .leaving => False
  | _ => True

/-- The strand waits for a call of {lit}`collectAll` or has just been resumed by it. -/
def Focus.Waits : Focus ε α ω ξ → Prop
  | .collecting _ _ | .collected _ _ => True
  | _ => False

theorem Focus.not_waiting {focus : Focus ε α ω ξ} (h : ¬ focus.Waits) {c : Nat}
    {rest : List (Try ε α) → Body ε α ω ξ} :
    ¬ (focus = .collecting c rest ∨ focus = .collected c rest) := by
  rintro (rfl | rfl)
  · exact h trivial
  · exact h trivial

theorem Focus.not_collects {focus : Focus ε α ω ξ} (h : ¬ focus.Waits) : ¬ focus.Collects := by
  cases focus with
  | collecting => exact fun _ => h trivial
  | _ => exact id

/-- The effects of a strand so far. -/
def State.eventsOf (s : State ε α ω ξ) (root : Handle) : List ω :=
  (s.events.filter fun event => event.1 = root).map Prod.snd

theorem State.eventsOf_append {s s' : State ε α ω ξ} {root : Handle} {events : List ω}
    (h : s'.events = s.events ++ events.map fun event => (root, event)) (r : Handle) :
    s'.eventsOf r = if r = root then s.eventsOf r ++ events else s.eventsOf r := by
  simp only [eventsOf, h, List.filter_append, List.map_append]
  split
  case isTrue heq =>
    subst heq
    congr 1
    rw [List.filter_eq_self.mpr (by simp), List.map_map]
    exact List.map_id _
  case isFalse hne =>
    have hnil : (events.map fun event => (root, event)).filter (fun event => event.1 = r) = [] := by
      refine List.filter_eq_nil_iff.mpr fun event hevent => ?_
      rcases List.mem_map.mp hevent with ⟨w, -, rfl⟩
      simp [Ne.symm hne]
    rw [hnil, List.map_nil, List.append_nil]

/-- What the strand has emitted and what it will emit are the effects of the outcome, and it will
hand over the result of the outcome. -/
def Strand.Owes (noExecutor : ε) (results : Nat → List (Try ε α)) (st : Strand ε α ω ξ)
    (goal : Outcome ε α ω ξ) (events : List ω) : Prop :=
  ∃ o, st.Promises noExecutor results o ∧ goal.events = events ++ o.events ∧
    goal.result = o.result

/-! ## Effects and results -/

structure Meaning (noExecutor : ε) (view : View ε α ω ξ) (s : State ε α ω ξ) : Prop where
  below : ∀ event ∈ s.events, event.1 < s.heap.next
  owes : ∀ root st, view.strands root = some st →
    st.Owes noExecutor view.results (view.goal root) (s.eventsOf root)

/-- A strand emits something or nothing. -/
theorem Meaning.set {noExecutor : ε} {view : View ε α ω ξ} {s s' : State ε α ω ξ}
    (h : Meaning noExecutor view s) {root : Handle} {new : Option (Strand ε α ω ξ)}
    {events : List ω} (hevents : s'.events = s.events ++ events.map fun event => (root, event))
    (hroot : root < s'.heap.next) (hnext : s.heap.next ≤ s'.heap.next)
    (hnew : ∀ t, new = some t →
      t.Owes noExecutor view.results (view.goal root) (s.eventsOf root ++ events)) :
    Meaning noExecutor (view.set root new) s' where
  below := by
    intro event hevent
    rw [hevents] at hevent
    rcases List.mem_append.mp hevent with hold | hnew
    · exact Nat.lt_of_lt_of_le (h.below event hold) hnext
    · rcases List.mem_map.mp hnew with ⟨w, -, rfl⟩
      exact hroot
  owes := by
    intro r st hst
    rw [State.eventsOf_append hevents]
    by_cases hr : r = root
    · subst hr
      rw [View.set_strands_self] at hst
      rw [if_pos rfl]
      exact hnew st hst
    · rw [View.set_strands_of_ne hr] at hst
      rw [if_neg hr]
      exact h.owes r st hst

/-- A strand goes on silently. -/
theorem Meaning.set_silent {noExecutor : ε} {view : View ε α ω ξ} {s s' : State ε α ω ξ}
    (h : Meaning noExecutor view s) {root : Handle} {new : Option (Strand ε α ω ξ)}
    (hevents : s'.events = s.events) (hroot : root < s'.heap.next)
    (hnext : s.heap.next ≤ s'.heap.next)
    (hnew : ∀ t, new = some t →
      t.Owes noExecutor view.results (view.goal root) (s.eventsOf root)) :
    Meaning noExecutor (view.set root new) s' := by
  have hnone : s'.events = s.events ++ ([] : List ω).map fun event => (root, event) :=
    hevents.trans (List.append_nil _).symm
  refine h.set hnone hroot hnext fun t ht => ?_
  rw [List.append_nil]
  exact hnew t ht

/-! ## Calls of start -/

/-- Where the strand of a call of {lit}`start` is: it is at work or waits, or it has called the
callback with the outcome. -/
def UserAgrees (view : View ε α ω ξ) (s : State ε α ω ξ) (root : Handle) : Prop :=
  (∃ st, view.strands root = some st ∧ st.focus.Live ∧ st.callback = .user ∧
    ∀ result, (root, result) ∉ s.callbacks) ∨
  ((∀ st, view.strands root = some st → st.focus = .leaving) ∧
    (root, (view.goal root).result) ∈ s.callbacks ∧
    s.eventsOf root = (view.goal root).events)

structure Users (noExecutor : ε) (view : View ε α ω ξ) (s : State ε α ω ξ) : Prop where
  starts : ∀ root body launch, (root, body, launch) ∈ s.starts →
    root < s.heap.next ∧ view.goal root = denote noExecutor body launch.executor ∧
      UserAgrees view s root
  startsNodup : (s.starts.map Prod.fst).Nodup
  callbacksNodup : (s.callbacks.map Prod.fst).Nodup
  callbacks : ∀ root result, (root, result) ∈ s.callbacks →
    root ∈ s.starts.map Prod.fst ∧ result = (view.goal root).result
  ofUser : ∀ root st, view.strands root = some st → st.callback = .user →
    root ∈ s.starts.map Prod.fst

namespace Users

variable {noExecutor : ε} {view : View ε α ω ξ} {s s' : State ε α ω ξ} {root : Handle}

/-- No callback is called. -/
theorem set (h : Users noExecutor view s) {st : Strand ε α ω ξ} {new : Option (Strand ε α ω ξ)}
    (hst : view.strands root = some st) (hcallback : ∀ t, new = some t → t.callback = st.callback)
    (hstarts : s'.starts = s.starts) (hcallbacks : s'.callbacks = s.callbacks)
    (hevents : ∀ r, r ≠ root → s'.eventsOf r = s.eventsOf r)
    (hnext : s.heap.next ≤ s'.heap.next)
    (huser : UserAgrees view s root → UserAgrees (view.set root new) s' root) :
    Users noExecutor (view.set root new) s' where
  starts := by
    intro r body launch hmem
    rw [hstarts] at hmem
    rcases h.starts r body launch hmem with ⟨hlt, hgoal, hagrees⟩
    refine ⟨Nat.lt_of_lt_of_le hlt hnext, hgoal, ?_⟩
    by_cases hr : r = root
    · rw [hr] at hagrees ⊢
      exact huser hagrees
    · unfold UserAgrees at hagrees ⊢
      rw [View.set_strands_of_ne hr, hcallbacks, hevents r hr]
      exact hagrees
  startsNodup := by
    rw [hstarts]
    exact h.startsNodup
  callbacksNodup := by
    rw [hcallbacks]
    exact h.callbacksNodup
  callbacks := by
    rw [hcallbacks, hstarts]
    exact h.callbacks
  ofUser := by
    intro r t ht hofUser
    rw [hstarts]
    by_cases hr : r = root
    · subst hr
      rw [View.set_strands_self] at ht
      exact h.ofUser r st hst ((hcallback t ht).symm.trans hofUser)
    · rw [View.set_strands_of_ne hr] at ht
      exact h.ofUser r t ht hofUser

/-- A strand that calls a task is none of {lit}`start`. -/
theorem not_agrees_of_task (h : UserAgrees view s root) {st : Strand ε α ω ξ} {c i : Nat}
    (hst : view.strands root = some st) (htask : st.callback = .task c i)
    (hleaving : st.focus ≠ .leaving) : False := by
  rcases h with ⟨t, ht, -, huser, -⟩ | ⟨hall, -⟩
  · rw [hst] at ht
    cases ht
    rw [htask] at huser
    cases huser
  · exact hleaving (hall st hst)

/-- The callback of {lit}`start` is called in one step. -/
theorem not_inCallback (h : Users noExecutor view s) {st : Strand ε α ω ξ}
    (hst : view.strands root = some st) (huser : st.callback = .user)
    (hfocus : st.focus = .inCallback) : False := by
  rcases List.mem_map.mp (h.ofUser root st hst huser) with ⟨⟨root', body, launch⟩, hmem, rfl⟩
  rcases (h.starts _ body launch hmem).2.2 with ⟨t, ht, hlive, -⟩ | ⟨hall, -⟩
  · rw [hst] at ht
    cases ht
    rw [hfocus] at hlive
    exact hlive
  · have hleaving := hall st hst
    rw [hfocus] at hleaving
    cases hleaving

/-- A live strand goes on. -/
theorem agrees_live (h : UserAgrees view s root) {st t : Strand ε α ω ξ}
    (hst : view.strands root = some st) (hlive : st.focus.Live) (ht : t.focus.Live)
    (hcallback : t.callback = st.callback) (hcallbacks : s'.callbacks = s.callbacks) :
    UserAgrees (view.set root (some t)) s' root := by
  rcases h with ⟨st', hst', -, huser, hnone⟩ | ⟨hall, -⟩
  · rw [hst] at hst'
    cases hst'
    refine .inl ⟨t, View.set_strands_self _ _ _, ht, hcallback.trans huser, ?_⟩
    rw [hcallbacks]
    exact hnone
  · rw [hall st hst] at hlive
    exact hlive.elim

/-- A strand leaves. -/
theorem agrees_leave (h : UserAgrees view s root) {st : Strand ε α ω ξ}
    (hst : view.strands root = some st) (hleaving : st.focus = .leaving)
    (hcallbacks : s'.callbacks = s.callbacks) (hevents : s'.events = s.events) :
    UserAgrees (view.set root none) s' root := by
  rcases h with ⟨st', hst', hlive, -⟩ | ⟨-, hmem, hgoal⟩
  · rw [hst] at hst'
    cases hst'
    rw [hleaving] at hlive
    exact hlive.elim
  · refine .inr ⟨fun t ht => ?_, ?_, ?_⟩
    · rw [View.set_strands_self] at ht
      cases ht
    · rw [hcallbacks]
      exact hmem
    · rw [State.eventsOf, hevents]
      exact hgoal

/-- The callback of {lit}`start` is called. -/
theorem call (h : Users noExecutor view s) (hmeaning : Meaning noExecutor view s)
    {st t : Strand ε α ω ξ} {result : Try ε α} (hst : view.strands root = some st)
    (hfocus : st.focus = .calling result) (hstack : st.stack = []) (huser : st.callback = .user)
    (ht : t.focus = .leaving)
    (hstarts : s'.starts = s.starts) (hcallbacks : s'.callbacks = s.callbacks ++ [(root, result)])
    (hevents : s'.events = s.events) (hnext : s.heap.next ≤ s'.heap.next) :
    Users noExecutor (view.set root (some t)) s' := by
  have hgoal : (view.goal root).result = result ∧ s.eventsOf root = (view.goal root).events := by
    rcases hmeaning.owes root st hst with ⟨o, hpromises, hgoalEvents, hresult⟩
    rw [Strand.Promises, hfocus] at hpromises
    simp only [hstack, unwind] at hpromises
    subst hpromises
    exact ⟨hresult, (hgoalEvents.trans (List.append_nil _)).symm⟩
  have hroot := h.ofUser root st hst huser
  have hnew : ∀ r, (root, r) ∉ s.callbacks := by
    rcases List.mem_map.mp hroot with ⟨⟨root', body, launch⟩, hmem, rfl⟩
    rcases (h.starts _ body launch hmem).2.2 with ⟨_, _, -, -, hnone⟩ | ⟨hall, -⟩
    · exact hnone
    · rw [hall st hst] at hfocus
      cases hfocus
  have heventsOf : ∀ r, s'.eventsOf r = s.eventsOf r := fun r => by
    rw [State.eventsOf, State.eventsOf, hevents]
  refine ⟨fun r body launch hmem => ?_, ?_, ?_, fun r res hmem => ?_, fun r t' ht' huser' => ?_⟩
  · rw [hstarts] at hmem
    rcases h.starts r body launch hmem with ⟨hlt, hdenote, hagrees⟩
    refine ⟨Nat.lt_of_lt_of_le hlt hnext, hdenote, ?_⟩
    by_cases hr : r = root
    · subst hr
      refine .inr ⟨fun t' ht' => ?_, ?_, (heventsOf r).trans hgoal.2⟩
      · rw [View.set_strands_self] at ht'
        cases ht'
        exact ht
      · rw [hcallbacks]
        exact List.mem_append_right _ (List.mem_singleton.mpr (congrArg (Prod.mk r) hgoal.1))
    · rcases hagrees with ⟨st', hst', hlive, huser', hnone⟩ | ⟨hall, hcalled, hdone⟩
      · refine .inl ⟨st', (View.set_strands_of_ne hr).trans hst', hlive, huser', fun res hmem => ?_⟩
        rw [hcallbacks] at hmem
        rcases List.mem_append.mp hmem with hold | hlast
        · exact hnone res hold
        · exact hr (congrArg Prod.fst (List.mem_singleton.mp hlast))
      · refine .inr ⟨fun t' ht' => ?_, ?_, (heventsOf r).trans hdone⟩
        · rw [View.set_strands_of_ne hr] at ht'
          exact hall t' ht'
        · rw [hcallbacks]
          exact List.mem_append_left _ hcalled
  · rw [hstarts]
    exact h.startsNodup
  · rw [hcallbacks, List.map_append, List.nodup_append_comm]
    refine List.nodup_cons.mpr ⟨fun hmem => ?_, h.callbacksNodup⟩
    rcases List.mem_map.mp hmem with ⟨⟨r, res⟩, hold, heq⟩
    obtain rfl : r = root := heq
    exact hnew res hold
  · rw [hcallbacks] at hmem
    rw [hstarts]
    rcases List.mem_append.mp hmem with hold | hlast
    · exact h.callbacks r res hold
    · cases List.mem_singleton.mp hlast
      exact ⟨hroot, hgoal.1.symm⟩
  · rw [hstarts]
    by_cases hr : r = root
    · subst hr
      exact hroot
    · rw [View.set_strands_of_ne hr] at ht'
      exact h.ofUser r t' ht' huser'

end Users

/-! ## Calls of collectAll -/

namespace Call

/-- The executor that the task is started with. -/
def taskExecutor (call : Call ε α ξ) (i : Fin call.n) : Option ξ :=
  (call.launch i).inherit call.executor

/-- The inputs of the call, had the results of the tasks been known before. -/
def target (call : Call ε α ξ) (goal : Handle → Outcome ε α ω ξ) :
    CollectAll.Config call.n ε (fun _ => α) :=
  { call.config with outcome := fun i => (goal (call.input i)).result }

/-- The frame of the task with the number {lit}`i`. -/
def input? (call : Call ε α ξ) (i : Nat) : Option Handle :=
  if hi : i < call.n then some (call.input ⟨i, hi⟩) else none

theorem exists_of_input? {call : Call ε α ξ} {i : Nat} {root : Handle}
    (h : call.input? i = some root) : ∃ hi : i < call.n, call.input ⟨i, hi⟩ = root := by
  unfold input? at h
  split at h
  case isTrue hi => exact ⟨hi, Option.some.inj h⟩
  case isFalse => cases h

end Call

/-- The calls stay, and a coroutine that was resumed was resumed. -/
def Grows (calls calls' : Heap (Call ε α ξ)) : Prop :=
  ∀ c call, calls.cell c = some call → ∃ call', calls'.cell c = some call' ∧
    call'.continuation = call.continuation ∧ call'.input? = call.input? ∧
    (call.state.resumes ≠ [] → call'.state.resumes ≠ [])

theorem Grows.refl (calls : Heap (Call ε α ξ)) : Grows calls calls :=
  fun _ call hcall => ⟨call, hcall, rfl, rfl, id⟩

theorem Grows.continues {calls calls' : Heap (Call ε α ξ)} (h : Grows calls calls') :
    Continues calls calls' := fun c call hcall => by
  rcases h c call hcall with ⟨call', hcall', hsame, -⟩
  exact ⟨call', hcall', hsame⟩

/-- The callback of the task has been called. -/
def TaskCalled : CollectAll.TaskPc → Prop
  | .unstarted | .scheduled | .running => False
  | _ => True

/-- The strand of a task is where the call has it. -/
def TaskAgrees (c : Nat) (call : Call ε α ξ) (i : Fin call.n) (strand : Option (Strand ε α ω ξ)) :
    Prop :=
  match call.state.task i with
  | .unstarted => ∃ body, strand = some
      ⟨.unstarted body (if call.state.main = .launch i then call.taskExecutor i
        else (call.launch i).executor), [], call.taskExecutor i, .task c i⟩
  | .scheduled => ∃ body, strand = some
      ⟨.unstarted body (call.taskExecutor i), [], call.taskExecutor i, .task c i⟩
  | .running => ∃ st, strand = some st ∧ st.focus.Live ∧ st.callback = .task c i
  | .finished _ => ∀ st, strand = some st →
      (st.focus = .inCallback ∨ st.focus = .leaving) ∧ st.callback = .task c i
  | _ => ∃ st, strand = some st ∧ st.focus = .inCallback ∧ st.callback = .task c i

/-- What holds of a call of {lit}`collectAll` and the strands of its tasks. -/
structure CallInv (view : View ε α ω ξ) (c : Nat) (call : Call ε α ξ) : Prop where
  pos : 0 < call.n
  inv : CollectAll.Inv (call.target view.goal) call.state
  tasks : ∀ i, TaskAgrees c call i (view.strands (call.input i))
  injective : Function.Injective call.input
  order : ∀ i, view.parent c < call.input i
  outcome : ∀ i, TaskCalled (call.state.task i) →
    call.config.outcome i = (view.goal (call.input i)).result
  results : view.results c = List.ofFn fun i => (view.goal (call.input i)).result
  waiting : call.state.resumes = [] →
    ∃ st rest, view.strands (view.parent c) = some st ∧ st.focus = .collecting c rest

/-- A strand that waits for a call has made it, and it waits exactly until it is resumed. -/
def WaitAgrees (view : View ε α ω ξ) (s : State ε α ω ξ) (root : Handle)
    (st : Strand ε α ω ξ) : Prop :=
  ∀ c rest, st.focus = .collecting c rest ∨ st.focus = .collected c rest →
    view.parent c = root ∧ ∃ call, s.calls.cell c = some call ∧
      (st.focus = .collecting c rest ↔ call.state.resumes = [])

structure Calls (view : View ε α ω ξ) (s : State ε α ω ξ) : Prop where
  calls : ∀ c call, s.calls.cell c = some call → CallInv view c call
  inputs : ∀ c call, s.calls.cell c = some call → ∀ i, call.input i < s.heap.next
  ofTask : ∀ root st c i, view.strands root = some st → st.callback = .task c i →
    ∃ call, s.calls.cell c = some call ∧ call.input? i = some root
  ofWait : ∀ root st, view.strands root = some st → WaitAgrees view s root st

section

variable {view : View ε α ω ξ} {c : Nat} {call : Call ε α ξ} {root : Handle}
variable {st : Strand ε α ω ξ} {new : Option (Strand ε α ω ξ)}

theorem callback_of_taskAgrees {i : Fin call.n} (h : TaskAgrees c call i (some st)) :
    st.callback = .task c i := by
  unfold TaskAgrees at h
  split at h
  case h_1 | h_2 =>
    rcases h with ⟨body, hst⟩
    cases hst
    rfl
  case h_4 => exact (h st rfl).2
  case h_3 | h_5 =>
    rcases h with ⟨t, ht, -, hcallback⟩
    cases ht
    exact hcallback

/-- Only the program point of the task matters, and whether the loop is about to start it. -/
theorem taskAgrees_congr {i : Fin call.n} {config' : CollectAll.Config call.n ε (fun _ => α)}
    {state' : CollectAll.State call.n ε (fun _ => α)} {strand : Option (Strand ε α ω ξ)}
    (htask : state'.task i = call.state.task i)
    (hmain : state'.main = .launch i ↔ call.state.main = .launch i) :
    TaskAgrees c { call with config := config', state := state' } i strand ↔
      TaskAgrees c call i strand := by
  unfold TaskAgrees
  simp only [htask, hmain]
  rfl

theorem taskAgrees_of_called {i : Fin call.n} (hcalled : TaskCalled (call.state.task i))
    (hfocus : st.focus = .inCallback) (hcallback : st.callback = .task c i) :
    TaskAgrees c call i (some st) := by
  unfold TaskAgrees
  split
  case h_1 htask | h_2 htask | h_3 htask =>
    rw [htask] at hcalled
    exact hcalled.elim
  case h_4 =>
    rintro _ ⟨⟩
    exact ⟨.inl hfocus, hcallback⟩
  case h_5 => exact ⟨st, rfl, hfocus, hcallback⟩

theorem called_of_taskAgrees {i : Fin call.n} (h : TaskAgrees c call i (some st))
    (hfocus : st.focus = .inCallback) : TaskCalled (call.state.task i) := by
  rcases st with ⟨focus, stack, executor, callback⟩
  obtain rfl : focus = .inCallback := hfocus
  unfold TaskAgrees at h
  cases htask : call.state.task i <;> rw [htask] at h
  case unstarted | scheduled =>
    rcases h with ⟨body, hst⟩
    cases hst
  case running =>
    rcases h with ⟨_, hst, hlive, -⟩
    cases hst
    exact hlive.elim
  all_goals trivial

theorem running_of_taskAgrees {i : Fin call.n} (h : TaskAgrees c call i (some st))
    (hlive : st.focus.Live) : call.state.task i = .running := by
  rcases st with ⟨focus, stack, executor, callback⟩
  unfold TaskAgrees at h
  split at h
  case h_1 | h_2 =>
    rcases h with ⟨body, hst⟩
    cases hst
    exact hlive.elim
  case h_3 htask => exact htask
  case h_4 =>
    rcases (h _ rfl).1 with hfocus | hfocus <;> simp only at hfocus <;> subst hfocus
    · exact hlive.elim
    · exact hlive.elim
  case h_5 =>
    rcases h with ⟨_, hst, hfocus, -⟩
    cases hst
    simp only at hfocus
    subst hfocus
    exact hlive.elim

/-- A strand that has not started is that of a task that has not been started. -/
theorem unstarted_of_taskAgrees {i : Fin call.n} (h : TaskAgrees c call i (some st))
    {body : Body ε α ω ξ} {bound : Option ξ} (hfocus : st.focus = .unstarted body bound) :
    call.state.task i = .unstarted ∨ call.state.task i = .scheduled := by
  rcases st with ⟨focus, stack, executor, callback⟩
  obtain rfl : focus = .unstarted body bound := hfocus
  unfold TaskAgrees at h
  split at h
  case h_1 htask => exact .inl htask
  case h_2 htask => exact .inr htask
  case h_3 =>
    rcases h with ⟨_, hst, hlive, -⟩
    cases hst
    exact hlive.elim
  case h_4 => rcases (h _ rfl).1 with hfocus | hfocus <;> cases hfocus
  case h_5 =>
    rcases h with ⟨_, hst, hfocus, -⟩
    cases hst
    cases hfocus

/-- A strand that is gone is that of a task that has finished. -/
theorem finished_of_taskAgrees {i : Fin call.n}
    (h : TaskAgrees c call i (none : Option (Strand ε α ω ξ))) :
    ∃ o, call.state.task i = .finished o := by
  unfold TaskAgrees at h
  split at h
  case h_1 | h_2 =>
    rcases h with ⟨_, hst⟩
    cases hst
  case h_3 | h_5 =>
    rcases h with ⟨_, hst, -⟩
    cases hst
  case h_4 o htask => exact ⟨o, htask⟩

/-- A live strand goes on. -/
theorem taskAgrees_live {i : Fin call.n} {t : Strand ε α ω ξ} (h : TaskAgrees c call i (some st))
    (hlive : st.focus.Live) (ht : t.focus.Live) (hcallback : t.callback = st.callback) :
    TaskAgrees c call i (some t) := by
  have htask := running_of_taskAgrees h hlive
  have hsame := hcallback.trans (callback_of_taskAgrees h)
  unfold TaskAgrees
  rw [htask]
  exact ⟨t, rfl, ht, hsame⟩

/-- A strand that leaves is not needed any more. -/
theorem taskAgrees_leaving {i : Fin call.n} (h : TaskAgrees c call i (some st))
    (hleaving : st.focus = .leaving) : TaskAgrees c call i (none : Option (Strand ε α ω ξ)) := by
  rcases st with ⟨focus, stack, executor, callback⟩
  simp only at hleaving
  subst hleaving
  unfold TaskAgrees at h ⊢
  split at h
  case h_1 | h_2 =>
    rcases h with ⟨body, hst⟩
    cases hst
  case h_3 =>
    rcases h with ⟨_, hst, hlive, -⟩
    cases hst
    exact hlive.elim
  case h_4 => rintro _ ⟨⟩
  case h_5 =>
    rcases h with ⟨_, hst, hfocus, -⟩
    cases hst
    cases hfocus

/-- A call whose tasks and whose waiting coroutine are where they were. -/
theorem CallInv.update (h : CallInv view c call) (hst : view.strands root = some st)
    (htask : ∀ i, call.input i = root → TaskAgrees c call i (some st) → TaskAgrees c call i new)
    (hwait : ∀ rest, st.focus = .collecting c rest → call.state.resumes = [] →
      ∃ t rest', new = some t ∧ t.focus = .collecting c rest') :
    CallInv (view.set root new) c call := by
  refine ⟨h.pos, h.inv, fun i => ?_, h.injective, h.order, h.outcome, h.results, fun hnil => ?_⟩
  · have hi := h.tasks i
    by_cases hroot : call.input i = root
    · rw [hroot, hst] at hi
      rw [hroot, View.set_strands_self]
      exact htask i hroot hi
    · rwa [View.set_strands_of_ne hroot]
  · rcases h.waiting hnil with ⟨t, rest, ht, hfocus⟩
    show ∃ st rest, (view.set root new).strands (view.parent c) = some st ∧ _
    by_cases hroot : view.parent c = root
    · rw [hroot, hst] at ht
      cases ht
      rw [hroot, View.set_strands_self]
      exact hwait rest hfocus hnil
    · rw [View.set_strands_of_ne hroot]
      exact ⟨t, rest, ht, hfocus⟩

/-- A live strand goes on as far as the calls are concerned. -/
theorem CallInv.live (h : CallInv view c call) (hst : view.strands root = some st)
    {t : Strand ε α ω ξ} (hlive : st.focus.Live) (ht : t.focus.Live)
    (hcallback : t.callback = st.callback)
    (hwait : ∀ rest, st.focus = .collecting c rest → call.state.resumes ≠ []) :
    CallInv (view.set root (some t)) c call :=
  h.update hst (fun _ _ hi => taskAgrees_live hi hlive ht hcallback)
    fun rest hfocus hnil => absurd hnil (hwait rest hfocus)

/-- A strand that is no task of the call. -/
theorem CallInv.other (h : CallInv view c call) (hst : view.strands root = some st)
    (htask : ∀ i : Nat, st.callback ≠ .task c i) (hnot : ¬ st.focus.Collects) :
    CallInv (view.set root new) c call :=
  h.update hst (fun i _ hi => absurd (callback_of_taskAgrees hi) (htask i))
    fun rest hfocus => absurd hfocus (Focus.ne_collecting hnot c rest)

end

/-- A call moves on, perhaps with the strand of one of its tasks or with the strand that waits. -/
theorem CallInv.move {view : View ε α ω ξ} {c : Nat} {call : Call ε α ξ} (h : CallInv view c call)
    {config' : CollectAll.Config call.n ε (fun _ => α)}
    {state' : CollectAll.State call.n ε (fun _ => α)} {root : Handle}
    {new : Option (Strand ε α ω ξ)}
    (hinv : CollectAll.Inv
      (Call.target { call with config := config', state := state' } view.goal) state')
    (i : Fin call.n)
    (hothers : ∀ j, j ≠ i → state'.task j = call.state.task j ∧
      (state'.main = .launch j ↔ call.state.main = .launch j) ∧
      config'.outcome j = call.config.outcome j ∧ call.input j ≠ root)
    (hself : TaskAgrees c { call with config := config', state := state' } i
      ((view.set root new).strands (call.input i)))
    (houtcome : TaskCalled (state'.task i) →
      config'.outcome i = (view.goal (call.input i)).result)
    (hwaiting : state'.resumes = [] → ∃ st rest,
      (view.set root new).strands (view.parent c) = some st ∧ st.focus = .collecting c rest) :
    CallInv (view.set root new) c { call with config := config', state := state' } := by
  refine ⟨h.pos, hinv, fun j => ?_, h.injective, h.order, fun j hj => ?_, h.results, hwaiting⟩
  · by_cases hji : j = i
    · rw [hji]
      exact hself
    · rcases hothers j hji with ⟨htask, hmain, -, hroot⟩
      show TaskAgrees c _ j ((view.set root new).strands (call.input j))
      rw [View.set_strands_of_ne hroot]
      exact (taskAgrees_congr htask hmain).mpr (h.tasks j)
  · by_cases hji : j = i
    · rw [hji] at hj ⊢
      exact houtcome hj
    · rcases hothers j hji with ⟨htask, -, hsame, -⟩
      exact hsame.trans (h.outcome j (by rw [← htask]; exact hj))

namespace Calls

variable {view : View ε α ω ξ} {s s' : State ε α ω ξ} {root : Handle}
variable {new : Option (Strand ε α ω ξ)}

/-- The step of one strand, and perhaps of one call, as the calls see it. -/
theorem set (h : Calls view s) (hgrows : Grows s.calls s'.calls)
    (hcallback : ∀ t, new = some t → ∃ st, view.strands root = some st ∧ t.callback = st.callback)
    (hcalls : ∀ c call, s'.calls.cell c = some call → CallInv (view.set root new) c call)
    (hinputs : ∀ c call, s'.calls.cell c = some call → ∀ i, call.input i < s'.heap.next)
    (hwait : ∀ t, new = some t → WaitAgrees view s' root t)
    (hothers : ∀ r t, r ≠ root → view.strands r = some t → WaitAgrees view s' r t) :
    Calls (view.set root new) s' where
  calls := hcalls
  inputs := hinputs
  ofTask := by
    intro r t c i ht htask
    have hold : ∃ call, s.calls.cell c = some call ∧ call.input? i = some r := by
      by_cases hr : r = root
      · subst hr
        rw [View.set_strands_self] at ht
        rcases hcallback t ht with ⟨st, hst, hsame⟩
        exact h.ofTask r st c i hst (hsame.symm.trans htask)
      · rw [View.set_strands_of_ne hr] at ht
        exact h.ofTask r t c i ht htask
    rcases hold with ⟨call, hcall, hinput⟩
    rcases hgrows c call hcall with ⟨call', hcall', -, hsame, -⟩
    exact ⟨call', hcall', by rw [hsame, hinput]⟩
  ofWait := by
    intro r t ht
    by_cases hr : r = root
    · subst hr
      rw [View.set_strands_self] at ht
      exact hwait t ht
    · rw [View.set_strands_of_ne hr] at ht
      exact hothers r t hr ht

/-- The calls are where they were. -/
theorem set_of_eq (h : Calls view s) {st : Strand ε α ω ξ} (hst : view.strands root = some st)
    (hsame : s'.calls = s.calls) (hnext : s.heap.next ≤ s'.heap.next)
    (hcallback : ∀ t, new = some t → t.callback = st.callback)
    (hcalls : ∀ c call, s.calls.cell c = some call → CallInv (view.set root new) c call)
    (hwait : ∀ t, new = some t → WaitAgrees view s root t) :
    Calls (view.set root new) s' := by
  refine h.set ?_ (fun t ht => ⟨st, hst, hcallback t ht⟩) ?_ ?_ ?_ ?_
  · rw [hsame]
    exact .refl _
  · rw [hsame]
    exact hcalls
  · rw [hsame]
    exact fun c call hcall i => Nat.lt_of_lt_of_le (h.inputs c call hcall i) hnext
  · simp only [WaitAgrees, hsame]
    exact hwait
  · simp only [WaitAgrees, hsame]
    exact fun r t _ ht => h.ofWait r t ht

section

variable {c : Nat} {call : Call ε α ξ} {config' : CollectAll.Config call.n ε (fun _ => α)}
variable {state' : CollectAll.State call.n ε (fun _ => α)}

/-- A call moves on. -/
theorem grows_set (hcall : s.calls.cell c = some call)
    (hcalls : s'.calls = s.calls.set c { call with config := config', state := state' })
    (hresumes : call.state.resumes ≠ [] → state'.resumes ≠ []) : Grows s.calls s'.calls := by
  intro c' call' hcall'
  rw [hcalls]
  by_cases hc : c' = c
  · subst hc
    rw [hcall] at hcall'
    cases hcall'
    exact ⟨_, Heap.cell_set_self hcall, rfl, rfl, hresumes⟩
  · exact ⟨call', (Heap.cell_set_of_ne hc).trans hcall', rfl, rfl, id⟩

/-- A strand that waits for another call, or for a call that does not resume it now. -/
theorem waitAgrees_set (hcall : s.calls.cell c = some call)
    (hcalls : s'.calls = s.calls.set c { call with config := config', state := state' })
    {st : Strand ε α ω ξ} (h : WaitAgrees view s root st)
    (hresumes : view.parent c = root → (state'.resumes = [] ↔ call.state.resumes = [])) :
    WaitAgrees view s' root st := by
  intro c' rest hfocus
  rcases h c' rest hfocus with ⟨hparent, call', hcall', hwaits⟩
  refine ⟨hparent, ?_⟩
  rw [hcalls]
  by_cases hc : c' = c
  · subst hc
    rw [hcall] at hcall'
    cases hcall'
    exact ⟨_, Heap.cell_set_self hcall, hwaits.trans (hresumes hparent).symm⟩
  · exact ⟨call', (Heap.cell_set_of_ne hc).trans hcall', hwaits⟩

/-- The step of one call, and perhaps of one strand. -/
theorem setCall (h : Calls view s) (hcall : s.calls.cell c = some call)
    (hcalls : s'.calls = s.calls.set c { call with config := config', state := state' })
    (hnext : s.heap.next ≤ s'.heap.next)
    (hresumes : call.state.resumes ≠ [] → state'.resumes ≠ [])
    (hresumes' : root ≠ view.parent c → (state'.resumes = [] ↔ call.state.resumes = []))
    (hcallback : ∀ t, new = some t → ∃ st, view.strands root = some st ∧ t.callback = st.callback)
    (hown : CallInv (view.set root new) c { call with config := config', state := state' })
    (hothers : ∀ c' call', c' ≠ c → s.calls.cell c' = some call' →
      CallInv (view.set root new) c' call')
    (hwait : ∀ t, new = some t → WaitAgrees view s' root t) :
    Calls (view.set root new) s' := by
  have hcell : ∀ c' call', s'.calls.cell c' = some call' →
      (c' = c ∧ call' = { call with config := config', state := state' }) ∨
        (c' ≠ c ∧ s.calls.cell c' = some call') := by
    intro c' call' hcall'
    rw [hcalls] at hcall'
    by_cases hc : c' = c
    · subst hc
      rw [Heap.cell_set_self hcall] at hcall'
      cases hcall'
      exact .inl ⟨rfl, rfl⟩
    · rw [Heap.cell_set_of_ne hc] at hcall'
      exact .inr ⟨hc, hcall'⟩
  refine h.set (grows_set hcall hcalls hresumes) hcallback ?_ ?_ hwait ?_
  · intro c' call' hcall'
    rcases hcell c' call' hcall' with ⟨rfl, rfl⟩ | ⟨hc, hold⟩
    · exact hown
    · exact hothers c' call' hc hold
  · intro c' call' hcall' i
    rcases hcell c' call' hcall' with ⟨rfl, rfl⟩ | ⟨hc, hold⟩
    · exact Nat.lt_of_lt_of_le (h.inputs c' call hcall i) hnext
    · exact Nat.lt_of_lt_of_le (h.inputs c' call' hold i) hnext
  · intro r t hr ht
    exact waitAgrees_set hcall hcalls (h.ofWait r t ht) fun hparent =>
      hresumes' fun hroot => hr (hparent.symm.trans hroot.symm)

end

end Calls

/-! ## The invariant -/

structure Inv (noExecutor : ε) (view : View ε α ω ξ) (s : State ε α ω ξ) : Prop where
  agrees : Agrees s view.strands
  below : ∀ root, s.heap.next ≤ root → view.strands root = none
  meaning : Meaning noExecutor view s
  users : Users noExecutor view s
  calls : Calls view s
  fault : s.fault = false

theorem Inv.initial (noExecutor : ε) :
    Inv noExecutor (View.initial : View ε α ω ξ) State.initial where
  agrees := Agrees.initial
  below := fun _ _ => rfl
  meaning := ⟨fun _ hmem => (List.not_mem_nil hmem).elim, by rintro root st ⟨⟩⟩
  users := {
    starts := fun _ _ _ hmem => (List.not_mem_nil hmem).elim
    startsNodup := List.nodup_nil
    callbacksNodup := List.nodup_nil
    callbacks := fun _ _ hmem => (List.not_mem_nil hmem).elim
    ofUser := by rintro root st ⟨⟩ }
  calls := {
    calls := by rintro c call ⟨⟩
    inputs := by rintro c call ⟨⟩
    ofTask := by rintro root st c i ⟨⟩
    ofWait := by rintro root st ⟨⟩ }
  fault := rfl

theorem Inv.lt_next {noExecutor : ε} {view : View ε α ω ξ} {s : State ε α ω ξ}
    (h : Inv noExecutor view s) {root : Handle} {st : Strand ε α ω ξ}
    (hst : view.strands root = some st) : root < s.heap.next := by
  by_contra hge
  rw [h.below root (Nat.le_of_not_lt hge)] at hst
  cases hst

theorem View.below_set {view : View ε α ω ξ} {n m : Nat}
    (hbelow : ∀ r, n ≤ r → view.strands r = none) (hnm : n ≤ m) {root : Handle} (hroot : root < n)
    (new : Option (Strand ε α ω ξ)) (r : Handle) (hr : m ≤ r) :
    (view.set root new).strands r = none := by
  have hr' : n ≤ r := Nat.le_trans hnm hr
  rw [View.set_strands_of_ne (Nat.ne_of_gt (Nat.lt_of_lt_of_le hroot hr'))]
  exact hbelow r hr'

/-- A live strand goes on, and the calls are where they were. -/
theorem Inv.live {noExecutor : ε} {view : View ε α ω ξ} {s s' : State ε α ω ξ}
    (h : Inv noExecutor view s) {root : Handle} {st st' : Strand ε α ω ξ} {events : List ω}
    (hst : view.strands root = some st) (hlive : st.focus.Live)
    (hlive' : st'.focus.Live) (hcallback : st'.callback = st.callback)
    (hnot : ¬ st.focus.Collects) (hnot' : ¬ st'.focus.Waits)
    (howes : st'.Owes noExecutor view.results (view.goal root) (s.eventsOf root ++ events))
    (hagrees : Agrees s' (Function.update view.strands root (some st')))
    (hevents : s'.events = s.events ++ events.map fun event => (root, event))
    (hcalls : s'.calls = s.calls) (hstarts : s'.starts = s.starts)
    (hcallbacks : s'.callbacks = s.callbacks) (hfault : s'.fault = s.fault)
    (hnext : s.heap.next ≤ s'.heap.next) : Inv noExecutor (view.set root (some st')) s' := by
  have hroot := h.lt_next hst
  refine ⟨hagrees, View.below_set h.below hnext hroot _, ?_, ?_, ?_, hfault.trans h.fault⟩
  · refine h.meaning.set hevents (Nat.lt_of_lt_of_le hroot hnext) hnext ?_
    rintro _ ⟨⟩
    exact howes
  · refine h.users.set hst ?_ hstarts hcallbacks ?_ hnext ?_
    · rintro _ ⟨⟩
      exact hcallback
    · intro r hr
      rw [State.eventsOf_append hevents, if_neg hr]
    · intro hagrees
      exact Users.agrees_live hagrees hst hlive hlive' hcallback hcallbacks
  · refine h.calls.set_of_eq hst hcalls hnext ?_ ?_ ?_
    · rintro _ ⟨⟩
      exact hcallback
    · intro c call hcall
      exact (h.calls.calls c call hcall).live hst hlive hlive' hcallback
        fun rest hfocus => absurd hfocus (Focus.ne_collecting hnot c rest)
    · rintro _ ⟨⟩ c rest hwaits
      exact absurd hwaits (Focus.not_waiting hnot')

/-! ## Steps of a strand on its own -/

section

variable [DecidableEq ξ] {noExecutor : ε} {st st' : Strand ε α ω ξ} {events : List ω}

/-- Only a live strand that does not wait for tasks makes steps on its own, and it stays such a
strand. -/
theorem Strand.live_of_next (h : st.next noExecutor = some (st', events)) :
    st.focus.Live ∧ st'.focus.Live ∧ st'.callback = st.callback ∧
      ¬ st.focus.Waits ∧ ¬ st'.focus.Waits := by
  rcases st with ⟨focus, stack, executor, callback⟩
  cases focus with
  | running body =>
      cases body with
      | coReturn | throw | emit | currentExecutor | await =>
          cases h
          exact ⟨trivial, trivial, rfl, id, id⟩
      | yield rest =>
          cases executor <;> cases h <;>
            exact ⟨trivial, trivial, rfl, id, id⟩
      | dispatch | collectAll =>
          simp only [next] at h
          split at h <;> cases h <;>
            exact ⟨trivial, trivial, rfl, id, id⟩
  | suspended | returned =>
      cases h
      exact ⟨trivial, trivial, rfl, id, id⟩
  | resumed result =>
      cases stack <;> cases h <;>
        exact ⟨trivial, trivial, rfl, id, id⟩
  | unstarted | collecting | collected | calling | inCallback | leaving => cases h

theorem Strand.owes_next {results : Nat → List (Try ε α)} {goal : Outcome ε α ω ξ} {done : List ω}
    (hstep : st.next noExecutor = some (st', events)) (h : st.Owes noExecutor results goal done) :
    st'.Owes noExecutor results goal (done ++ events) := by
  rcases h with ⟨o, hpromises, hevents, hresult⟩
  rcases promises_next hstep hpromises with ⟨o', hpromises', rfl⟩
  exact ⟨o', hpromises', by rw [hevents, Outcome.after_events, List.append_assoc], hresult⟩

theorem Inv.own {view : View ε α ω ξ} {s s' : State ε α ω ξ} (h : Inv noExecutor view s)
    {root : Handle} (hstep : OwnStep noExecutor s s' view.strands root st st' events) :
    Inv noExecutor (view.set root (some st')) s' := by
  rcases Strand.live_of_next hstep.next with ⟨hlive, hlive', hcallback, hnot, hnot'⟩
  exact h.live hstep.strand hlive hlive' hcallback (Focus.not_collects hnot) hnot'
    (Strand.owes_next hstep.next (h.meaning.owes root st hstep.strand)) hstep.agrees hstep.events
    hstep.calls hstep.starts hstep.callbacks hstep.fault hstep.heapNext

end

end Lazy

end AsyncSimple
