import AsyncSimple.Coro.LazyMoves

/-!
# Strands that begin and end

A strand begins when {lit}`start` is called, or when a coroutine awaits {lit}`collectAll` and the
frames of the tasks are there.  It ends when the detached coroutine has called the callback.  In
between a strand may wait for a call of {lit}`collectAll` and be resumed by the last task.

Main results:

- Theorems {lit}`Agrees.allocLazy` and {lit}`Agrees.allocTasks`: new strands that have not started.
- Theorem {lit}`Agrees.startLazy`: {lit}`LazyBase::start` of such a strand.
- Theorems {lit}`Agrees.collecting`, {lit}`Agrees.resumeCall` and {lit}`Agrees.collected`: a strand
  that waits for its tasks.
- Theorems {lit}`Agrees.setLast` and {lit}`Agrees.leave`: the end of a strand.
-/

namespace AsyncSimple

open Transition Storage

namespace Lazy

variable {ε α ω ξ : Type}

/-- The detached coroutine has read the result. -/
def DetachedPoint.IsLast : DetachedPoint ε α → Prop
  | .awaiting _ | .resumed _ => False
  | _ => True

/-- The point of a strand that is started. -/
def Launch.focus (body : Body ε α ω ξ) : Launch ξ → Focus ε α ω ξ
  | .direct _ => .running body
  | .reschedule _ => .suspended body

namespace Agrees

variable {s s' : State ε α ω ξ} {strands : Handle → Option (Strand ε α ω ξ)} {root a : Handle}

/-! ## New strands -/

/-- What a heap knows of a strand that has not started. -/
theorem exists_unstarted (h : Agrees s strands) {body : Body ε α ω ξ} {bound ex : Option ξ}
    {stack : List (Try ε α → Body ε α ω ξ)} {callback : Callback}
    (hst : strands root = some ⟨.unstarted body bound, stack, ex, callback⟩) :
    stack = [] ∧ Represents s root ⟨.unstarted body bound, stack, ex, callback⟩ [root] ∧
      s.heap.cell root = some (.lazy ⟨root, none, bound, .nothing⟩ (.suspended body)) := by
  rcases h.represents root _ hst with ⟨frames, hrep⟩
  cases hrep.shape with
  | unstarted body' bound' hfocus hstack hcell =>
      cases hfocus
      exact ⟨hstack, hrep, hcell⟩
  | atWork b c d below value point hfocus => cases hfocus
  | resumed b c continuation d below result rest stack' hfocus => cases hfocus
  | arrived b d result hfocus => cases hfocus
  | last d point hfocus => cases hfocus

/-- The frame of a {lit}`Lazy` is there. -/
theorem allocLazy (h : Agrees s strands) {body : Body ε α ω ξ} {ex : Option ξ} {callback : Callback}
    (hnone : strands s.heap.next = none)
    (hheap : s'.heap =
      s.heap.alloc (.lazy ⟨s.heap.next, none, ex, .nothing⟩ (.suspended body)))
    (hqueue : s'.scheduled = s.scheduled) (hcalls : Continues s.calls s'.calls) :
    Agrees s' (Function.update strands s.heap.next
      (some ⟨.unstarted body ex, [], ex, callback⟩)) := by
  have hcell : s'.heap.cell s.heap.next =
      some (.lazy ⟨s.heap.next, none, ex, .nothing⟩ (.suspended body)) := by
    rw [hheap, Heap.cell_alloc_next]
  refine h.update ?_ (fun b frame _ _ e => by rw [hqueue]) (by rw [hqueue]; exact h.queuedNodup) ?_
    hcalls ?_ (by rintro ⟨⟩)
  · rw [hheap]
    exact Heap.sameOn_alloc s.heap fun hroot => hroot rfl
  · intro e b hb
    rw [hqueue] at hb
    rcases Option.ne_none_iff_exists'.mp (h.queuedLive e b hb) with ⟨frame, hframe⟩
    rw [hheap, Heap.cell_alloc_of_some hframe]
    exact Option.some_ne_none _
  · rintro _ ⟨⟩
    refine ⟨[s.heap.next], trivial, .unstarted body ex rfl rfl hcell, List.nodup_singleton _, ?_,
      ?_, by rintro _ _ ⟨⟩⟩
    · intro b frame hb hroot
      rw [hheap, Heap.cell_alloc] at hb
      split at hb
      case isTrue hnext => exact List.mem_singleton.mpr hnext
      case isFalse =>
        have hbelongs := h.belongs b frame hb
        rw [hroot, hnone] at hbelongs
        exact absurd rfl hbelongs
    · intro b hb e
      rw [List.mem_singleton.mp hb, hqueue]
      constructor
      · intro hmem
        exact absurd (s.heap.fresh _ le_rfl) (h.queuedLive e _ hmem)
      · rintro ⟨hqueued, -⟩
        cases hqueued

/-- The frames of the tasks are there. -/
theorem allocTasks (h : Agrees s strands) {n : Nat} {body : Fin n → Body ε α ω ξ}
    {bound ex : Fin n → Option ξ} {callback : Fin n → Callback}
    (hnone : ∀ r, s.heap.next ≤ r → strands r = none)
    (hheap : s'.heap = s.heap.allocFamily fun i =>
      .lazy ⟨s.heap.next + i, none, bound i, .nothing⟩ (.suspended (body i)))
    (hqueue : s'.scheduled = s.scheduled) (hcalls : Continues s.calls s'.calls) :
    Agrees s' (Heap.extend strands s.heap.next fun i =>
      ⟨.unstarted (body i) (bound i), [], ex i, callback i⟩) := by
  have hsome : ∀ {b : Handle} {frame : Frame ε α ω ξ}, s.heap.cell b = some frame →
      s'.heap.cell b = some frame := fun hb => by
    rw [hheap]
    exact Heap.cell_allocFamily_of_some hb
  refine ⟨fun r st hst => ?_, fun b frame hb => ?_, by rw [hqueue]; exact h.queuedNodup,
    fun e b hb => ?_⟩
  · rcases Heap.extend_cases strands s.heap.next (fun i : Fin n =>
        (⟨.unstarted (body i) (bound i), [], ex i, callback i⟩ : Strand ε α ω ξ)) r with
      ⟨k, rfl, hk⟩ | ⟨hold, hk⟩
    · rw [hk] at hst
      cases hst
      refine ⟨[s.heap.next + k], trivial, .unstarted (body k) (bound k) rfl rfl ?_,
        List.nodup_singleton _, ?_, ?_, by rintro _ _ ⟨⟩⟩
      · rw [hheap]
        exact Heap.cell_allocFamily_add _ _ k
      · intro b frame hb hroot
        rw [hheap] at hb
        rcases Heap.cell_allocFamily hb with ⟨j, rfl, rfl⟩ | hb
        · exact List.mem_singleton.mpr hroot
        · have hbelongs := h.belongs b frame hb
          rw [hroot, hnone _ (Nat.le_add_right _ _)] at hbelongs
          exact absurd rfl hbelongs
      · intro b hb e
        rw [List.mem_singleton.mp hb, hqueue]
        constructor
        · intro hmem
          exact absurd (s.heap.fresh _ (Nat.le_add_right _ _)) (h.queuedLive e _ hmem)
        · rintro ⟨hqueued, -⟩
          cases hqueued
    · rw [hk] at hst
      rcases h.represents r st hst with ⟨frames, hrep⟩
      refine ⟨frames, hrep.congr ?_ (fun b _ e => by rw [hqueue]) hcalls⟩
      rw [hheap]
      exact Heap.sameOn_allocFamily s.heap fun i hi => hold i hi.symm
  · rw [hheap] at hb
    rcases Heap.cell_allocFamily hb with ⟨j, rfl, rfl⟩ | hb
    · rw [Frame.root, Heap.extend_add]
      exact Option.some_ne_none _
    · have hbelongs := h.belongs b frame hb
      have hlt : frame.root < s.heap.next := by
        by_contra hge
        exact hbelongs (hnone _ (Nat.le_of_not_lt hge))
      rwa [Heap.extend_of_lt _ _ hlt]
  · rw [hqueue] at hb
    rcases Option.ne_none_iff_exists'.mp (h.queuedLive e b hb) with ⟨frame, hframe⟩
    rw [hsome hframe]
    exact Option.some_ne_none _

/-- {lit}`collectAll` gives its executor to a task that has none. -/
theorem inherit (h : Agrees s strands) {body : Body ε α ω ξ} {bound bound' ex : Option ξ}
    {stack : List (Try ε α → Body ε α ω ξ)} {callback : Callback}
    (hst : strands root = some ⟨.unstarted body bound, stack, ex, callback⟩)
    (hheap : s'.heap = s.heap.set root
      (.lazy ⟨root, none, bound', .nothing⟩ (.suspended body)))
    (hqueue : s'.scheduled = s.scheduled) (hcalls : Continues s.calls s'.calls) :
    Agrees s' (Function.update strands root
      (some ⟨.unstarted body bound', stack, ex, callback⟩)) := by
  rcases h.exists_unstarted hst with ⟨rfl, hrep, hcell⟩
  refine h.replace (t := ⟨.unstarted body bound', [], ex, callback⟩) hrep rfl rfl trivial id
    (.unstarted body bound' rfl rfl ?_) hrep.nodup ?_ ?_ hqueue hcalls
  · rw [hheap]
    exact Heap.cell_set_self hcell
  · rw [hheap]
    exact hrep.covers.set List.mem_cons_self _
  · rw [hheap]
    exact Heap.sameOn_set hcell (fun hroot => hroot rfl) fun hroot => hroot rfl

/-- {lit}`LazyBase::start`: the strand runs or is in the queue of its executor, and its last frame
is the new detached coroutine. -/
theorem startLazy (h : Agrees s strands) {body : Body ε α ω ξ} {ex : Option ξ}
    {stack : List (Try ε α → Body ε α ω ξ)} {callback : Callback} {launch : Launch ξ}
    (hst : strands root = some ⟨.unstarted body ex, stack, ex, callback⟩)
    (hlaunch : ∀ e, launch = .reschedule e → ex ≠ none) :
    Agrees (s.startLazy root callback launch)
        (Function.update strands root (some ⟨launch.focus body, stack, ex, callback⟩)) ∧
      (s.startLazy root callback launch).heap.next = s.heap.next + 1 ∧
      (s.startLazy root callback launch).calls = s.calls ∧
      (s.startLazy root callback launch).events = s.events ∧
      (s.startLazy root callback launch).starts = s.starts ∧
      (s.startLazy root callback launch).callbacks = s.callbacks ∧
      (s.startLazy root callback launch).fault = s.fault := by
  rcases h.exists_unstarted hst with ⟨rfl, hrep, hcell⟩
  let detached : Frame ε α ω ξ := .detached root callback (.awaiting root)
  let started : Frame ε α ω ξ := .lazy ⟨root, some s.heap.next, ex, .nothing⟩ (.running body)
  let s₁ : State ε α ω ξ := { s with heap := (s.heap.alloc detached).set root started }
  have hcell' : (s.heap.alloc detached).cell root = _ := Heap.cell_alloc_of_some hcell
  have hne : s.heap.next ≠ root := fun heq => by
    rw [s.heap.fresh root heq.le] at hcell
    cases hcell
  have hstarted : s₁.heap.cell root = some started := Heap.cell_set_self hcell'
  have hdetached : s₁.heap.cell s.heap.next = some detached :=
    (Heap.cell_set_of_ne hne).trans (Heap.cell_alloc_next _ _)
  have hnodup : [root, s.heap.next].Nodup := by simp [Ne.symm hne]
  have hshape : Shape s₁.heap root ⟨.running body, [], ex, callback⟩ [root, s.heap.next] :=
    .atWork root s.heap.next s.heap.next [] .nothing _ rfl hstarted ⟨rfl, hdetached⟩
  have hcovers : Heap.CoveredBy (fun frame => frame.root = root) s₁.heap [root, s.heap.next] :=
    ((hrep.covers.alloc detached).mono (by simp)).set List.mem_cons_self _
  have hagrees : Agrees s₁
      (Function.update strands root (some ⟨.running body, [], ex, callback⟩)) := by
    refine h.replace (t := ⟨.running body, [], ex, callback⟩) hrep rfl rfl trivial id hshape
      hnodup hcovers ?_ rfl (.refl _)
    exact (Heap.sameOn_alloc s.heap fun hroot => hroot rfl).trans
      (Heap.sameOn_set hcell' (fun hroot => hroot rfl) fun hroot => hroot rfl)
  cases launch with
  | direct e =>
      have hstart : s.startLazy root callback (.direct e) = s₁ := by
        simp only [State.startLazy, hcell]
        rfl
      rw [hstart]
      exact ⟨hagrees, rfl, rfl, rfl, rfl, rfl, rfl⟩
  | reschedule e =>
      cases ex with
      | none => exact absurd rfl (hlaunch e rfl)
      | some ex =>
          have hstart : s.startLazy root callback (.reschedule e) =
              (s₁.setPoint root ⟨root, some s.heap.next, some ex, .nothing⟩
                (.suspended body)).schedule ex root := by
            simp only [State.startLazy, hcell, State.setPoint, State.setFrame, s₁, Heap.set_set]
            rfl
          have hst₁ : Function.update strands root (some ⟨.running body, [], some ex, callback⟩)
              root = some ⟨.running body, [], some ex, callback⟩ := Function.update_self _ _ _
          rcases hagrees.represents root _ hst₁ with ⟨frames, hrep₁⟩
          have hrep₁' : Represents s₁ root ⟨.running body, [], some ex, callback⟩
              (root :: ([] ++ [s.heap.next])) := by
            refine ⟨trivial, hshape, hnodup, hcovers, fun b hb e' => ?_, by rintro _ _ ⟨⟩⟩
            constructor
            · intro hmem
              rcases hshape.cell_of_mem hb with ⟨frame, hframe, hroot⟩
              exact absurd hmem (hrep₁.not_queued (hrep₁.covers b frame hframe hroot) rfl e')
            · rintro ⟨hqueued, -⟩
              cases hqueued
          have hunqueued : ∀ e', (e', root) ∉ s.scheduled :=
            hrep.not_queued List.mem_cons_self rfl
          rw [hstart]
          refine ⟨?_, rfl, rfl, rfl, rfl, rfl, rfl⟩
          have hlinked : Linked s₁.heap root (some ex) callback s.heap.next root s.heap.next []
              ([] : List (Try ε α → Body ε α ω ξ)) := ⟨rfl, hdetached⟩
          rw [← Function.update_idem]
          exact hagrees.setTop hrep₁' hstarted hlinked (by rintro ⟨⟩) rfl rfl rfl rfl rfl
            (.push hagrees.queuedNodup hunqueued ex) (.refl _) id

/-! ## Waiting for tasks -/

/-- A coroutine suspends in {lit}`collectAll`; the strands of the tasks are there. -/
theorem collecting (h : Agrees s strands) (hnone : ∀ r, s.heap.next ≤ r → strands r = none)
    {p : Promise ε α ξ} {para : Bool} {n : Nat} {tasks : Fin n → Body ε α ω ξ}
    {launch : Fin n → Launch ξ} {rest : List (Try ε α) → Body ε α ω ξ}
    (hcell : s.heap.cell a = some (.lazy p (.running (.collectAll para n tasks launch rest)))) :
    ∃ root st, strands root = some st ∧ st.focus = .running (.collectAll para n tasks launch rest) ∧
      p.executor = st.executor ∧
      Agrees (suspendInCollectAll s a p para tasks launch rest)
        (Function.update (Heap.extend strands s.heap.next fun i =>
            ⟨.unstarted (tasks i) (launch i).executor, [], (launch i).inherit st.executor,
              .task s.calls.next i⟩) root
          (some { st with focus := .collecting s.calls.next rest })) := by
  rcases h.exists_atWork hcell trivial with
    ⟨root, ⟨focus, stack, executor, callback⟩, c, d, below, value, hst, hrep, hfocus, rfl, hlinked⟩
  obtain ⟨rfl, rfl⟩ :
      focus = .running (.collectAll para n tasks launch rest) ∧ value = .nothing := by
    cases focus <;> cases hfocus
    exact ⟨rfl, rfl⟩
  refine ⟨root, _, hst, rfl, rfl, ?_⟩
  let s' := suspendInCollectAll s a ⟨root, some c, executor, .nothing⟩ para tasks launch rest
  let s₁ : State ε α ω ξ := { s with
    heap := s.heap.allocFamily fun i =>
      .lazy ⟨s.heap.next + i, none, (launch i).executor, .nothing⟩ (.suspended (tasks i))
    calls := s'.calls }
  have hcalls : Continues s.calls s'.calls := fun b call hcall =>
    ⟨call, Heap.cell_alloc_of_some hcall, rfl⟩
  have hagrees : Agrees s₁ (Heap.extend strands s.heap.next fun i =>
      ⟨.unstarted (tasks i) (launch i).executor, [], (launch i).inherit executor,
        .task s.calls.next i⟩) := h.allocTasks hnone rfl rfl hcalls
  have hold : ∀ {b : Handle} {frame : Frame ε α ω ξ}, s.heap.cell b = some frame →
      s₁.heap.cell b = some frame := fun hb => Heap.cell_allocFamily_of_some hb
  have hlt : root < s.heap.next := by
    by_contra hge
    rw [hnone root (Nat.le_of_not_lt hge)] at hst
    cases hst
  have hrep₁ : Represents s₁ root _ _ := hrep.congr
    (Heap.sameOn_allocFamily s.heap fun i hi => by
      have hroot : s.heap.next + (i : Nat) = root := hi
      exact absurd (hroot ▸ hlt) (Nat.not_lt_of_le (Nat.le_add_right _ _)))
    (fun _ _ _ => Iff.rfl) hcalls
  have hlinked₁ : Linked s₁.heap root executor callback d a c below stack := by
    refine hlinked.congr fun b hb => ?_
    rcases hrep.shape.cell_of_mem (List.mem_cons_of_mem _ hb) with ⟨frame, hframe, -⟩
    rw [hframe]
    exact hold hframe
  refine hagrees.moveTop (t := ⟨.collecting s.calls.next rest, stack, executor, callback⟩) hrep₁
    (hold hcell) hlinked₁ trivial rfl rfl rfl rfl rfl
    (.same hagrees.queuedNodup (hrep₁.not_queued List.mem_cons_self rfl)) (.refl _) ?_
  intro b rest' hwait
  cases hwait
  exact ⟨_, Heap.cell_alloc_next _ _, rfl⟩

/-- The last task resumes the coroutine that waits. -/
theorem resumeCall (h : Agrees s strands) {c : Nat} {call : Call ε α ξ}
    (hcall : s.calls.cell c = some call) {st : Strand ε α ω ξ}
    {rest : List (Try ε α) → Body ε α ω ξ} (hst : strands root = some st)
    (hfocus : st.focus = .collecting c rest) :
    ∃ heap, s.resume call.continuation = { s with heap := heap } ∧ heap.next = s.heap.next ∧
      Agrees { s with heap := heap }
        (Function.update strands root (some { st with focus := .collected c rest })) := by
  rcases h.represents root st hst with ⟨frames, hrep⟩
  rcases hrep.waits c rest hfocus with ⟨call', hcall', hhead⟩
  rw [hcall] at hcall'
  cases hcall'
  rcases st with ⟨focus, stack, executor, callback⟩
  obtain rfl : focus = .collecting c rest := hfocus
  have hunqueued := hrep.not_queued (List.mem_of_mem_head? hhead) rfl
  cases hrep.shape with
  | atWork b continuation d below value point hpoint hcell hlinked =>
      cases hhead
      cases hpoint
      refine ⟨s.heap.set call.continuation
        (.lazy ⟨root, some continuation, executor, .nothing⟩ (.collected c rest)), ?_, rfl, ?_⟩
      · simp only [State.resume, hcell, Option.bind_some, Frame.resume]
        rfl
      · refine h.setTop (t := ⟨.collected c rest, stack, executor, callback⟩) hrep hcell
          hlinked trivial rfl rfl rfl rfl ?_ (.same h.queuedNodup hunqueued) (.refl _) id
        rfl
  | unstarted body bound hfocus' => cases hfocus'
  | resumed b c continuation d below result rest' stack' hfocus' => cases hfocus'
  | arrived b d result hfocus' => cases hfocus'
  | last d point hfocus' => cases hfocus'

/-- The coroutine goes on with the results of the tasks. -/
theorem collected (h : Agrees s strands) {p : Promise ε α ξ} {c : Nat}
    {rest : List (Try ε α) → Body ε α ω ξ}
    (hcell : s.heap.cell a = some (.lazy p (.collected c rest))) :
    ∃ root st, strands root = some st ∧ st.focus = .collected c rest ∧
      ∀ results, Agrees (s.setPoint a p (.running (rest results)))
        (Function.update strands root (some { st with focus := .running (rest results) })) := by
  rcases h.exists_atWork hcell trivial with
    ⟨root, ⟨focus, stack, executor, callback⟩, b, d, below, value, hst, hrep, hfocus, rfl, hlinked⟩
  obtain ⟨rfl, rfl⟩ : focus = .collected c rest ∧ value = .nothing := by
    cases focus <;> cases hfocus
    exact ⟨rfl, rfl⟩
  exact ⟨root, _, hst, rfl, fun results => h.setTop hrep hcell hlinked trivial rfl rfl rfl rfl rfl
    (.same h.queuedNodup (hrep.not_queued List.mem_cons_self rfl)) (.refl _) id⟩

/-! ## The end of a strand -/

/-- The strand of a detached coroutine that has read the result. -/
theorem exists_last (h : Agrees s strands) {callback : Callback} {point : DetachedPoint ε α}
    (hcell : s.heap.cell a = some (.detached root callback point))
    (hpoint : point.IsLast) :
    ∃ st, strands root = some st ∧ st.callback = callback ∧ st.stack = [] ∧
      st.focus.detachedPoint = some point ∧ Represents s root st [a] := by
  rcases h.exists_represents hcell with ⟨st, frames, hst, hrep, ha⟩
  rcases hrep.of_detached ha hcell (by rintro b rfl; exact hpoint) with
    ⟨hcallback, hstack, ⟨callee, result, rfl, -⟩ | ⟨rfl, hfocus⟩⟩
  · exact hpoint.elim
  · exact ⟨st, hst, hcallback.symm, hstack, hfocus, hrep⟩

/-- The detached coroutine gets to another point. -/
theorem setLast (h : Agrees s strands) {callback : Callback} {point point' : DetachedPoint ε α}
    (hcell : s.heap.cell a = some (.detached root callback point)) {st t : Strand ε α ω ξ}
    (hrep : Represents s root st [a]) (hst : st.queuedOn = none)
    (ht : t.focus.detachedPoint = some point') (hstack : t.stack = [])
    (hcallback : t.callback = callback)
    (hheap : s'.heap = s.heap.set a (.detached root callback point'))
    (hqueue : s'.scheduled = s.scheduled) (hcalls : Continues s.calls s'.calls) :
    Agrees s' (Function.update strands root (some t)) := by
  have hqueued : t.queuedOn = none ∧ t.WellFormed ∧ ¬ t.focus.Collects := by
    rcases t with ⟨focus, stack, executor, callback'⟩
    cases focus <;> cases ht <;> exact ⟨rfl, trivial, id⟩
  refine h.replace hrep hst hqueued.1 hqueued.2.1 hqueued.2.2 (.last a point' ht hstack ?_)
    hrep.nodup ?_ ?_ hqueue hcalls
  all_goals rw [hheap]
  · rw [hcallback]
    exact Heap.cell_set_self hcell
  · exact hrep.covers.set List.mem_cons_self _
  · exact Heap.sameOn_set hcell (fun hroot => hroot rfl) fun hroot => hroot rfl

/-- The detached coroutine destroys itself. -/
theorem leave (h : Agrees s strands) {callback : Callback}
    (hcell : s.heap.cell a = some (.detached root callback .leaving)) :
    Agrees { s with heap := s.heap.free a } (Function.update strands root none) := by
  rcases h.exists_last hcell trivial with ⟨st, hst, -, -, hfocus, hrep⟩
  have hqueued : st.queuedOn = none := by
    rcases st with ⟨focus, stack, executor, callback'⟩
    cases focus <;> cases hfocus
    rfl
  refine h.update_of_unqueued hrep hqueued ?_ ?_ ?_ ?_ ?_
  · exact Heap.sameOn_free hcell fun hroot => hroot rfl
  · rfl
  · exact .refl _
  · rintro _ ⟨⟩
  · intro _ b frame hb hroot
    have hcovers : Heap.CoveredBy (fun frame => frame.root = root) (s.heap.free a) [] :=
      hrep.covers.free
    exact absurd (hcovers b frame hb hroot) List.not_mem_nil

end Agrees

end Lazy

end AsyncSimple
