import AsyncSimple.Coro.LazyFrames

/-!
# Steps of coroutines as steps of strands

Every step of a coroutine that works on its own chain is the next step of the strand.  An await
puts a frame on top of the chain, the final awaiter and the awaiter that reads the result take it
away again, and {lit}`ChangeLaziessExecutorTo` meets exactly the frames of the chain.

Main results:

- Theorem {lit}`changeLaziessExecutorTo_linked`: the walk sets the executor of all linked frames and
  accesses no other frame.
- Theorems {lit}`Agrees.running`, {lit}`Agrees.returned`, {lit}`Agrees.resumed`,
  {lit}`Agrees.arrived` and {lit}`Agrees.execute`: the steps of a strand on its own.
-/

namespace AsyncSimple

open Transition Storage

namespace Lazy

variable {ε α ω ξ : Type}

/-! ## Steps that keep the queues -/

namespace Represents

variable {s : State ε α ω ξ} {root a : Handle} {st : Strand ε α ω ξ} {frames : List Handle}

theorem not_queued (h : Represents s root st frames) (ha : a ∈ frames) (hst : st.queuedOn = none)
    (ex : ξ) : (ex, a) ∉ s.scheduled := by
  intro hmem
  have hqueued := ((h.queued a ha ex).mp hmem).1
  rw [hst] at hqueued
  cases hqueued

/-- There are no more frames than addresses that have been given out. -/
theorem length_le (h : Represents s root st frames) : frames.length ≤ s.heap.next := by
  have hsub : frames ⊆ List.range s.heap.next := by
    intro b hb
    rcases h.shape.cell_of_mem hb with ⟨frame, hcell, -⟩
    exact List.mem_range.mpr (s.heap.lt_next hcell)
  simpa using (List.subperm_of_subset h.nodup hsub).length_le

end Represents

namespace Agrees

variable {s s' : State ε α ω ξ} {strands : Handle → Option (Strand ε α ω ξ)} {root : Handle}

/-- A strand that is in no queue makes a step and is in no queue afterwards. -/
theorem update_of_unqueued (h : Agrees s strands) {st : Strand ε α ω ξ} {frames : List Handle}
    (hrep : Represents s root st frames) (hst : st.queuedOn = none)
    (hheap : Heap.SameOn (fun frame => frame.root ≠ root) s.heap s'.heap)
    (hqueue : s'.scheduled = s.scheduled) (hcalls : Continues s.calls s'.calls)
    {st' : Option (Strand ε α ω ξ)}
    (hsome : ∀ t, st' = some t → t.queuedOn = none ∧ t.WellFormed ∧
      ¬ t.focus.Collects ∧ ∃ frames',
      Shape s'.heap root t frames' ∧ frames'.Nodup ∧
        Heap.CoveredBy (fun frame => frame.root = root) s'.heap frames')
    (hnone : st' = none → ∀ a frame, s'.heap.cell a = some frame → frame.root ≠ root) :
    Agrees s' (Function.update strands root st') := by
  have hothers : ∀ ex a, (ex, a) ∈ s.scheduled →
      ∃ frame, s'.heap.cell a = some frame ∧ frame.root ≠ root := by
    intro ex a hmem
    rcases Option.ne_none_iff_exists'.mp (h.queuedLive ex a hmem) with ⟨frame, hcell⟩
    have hroot : frame.root ≠ root := fun hroot =>
      hrep.not_queued (hrep.covers a frame hcell hroot) hst ex hmem
    exact ⟨frame, (hheap a frame hroot).mpr hcell, hroot⟩
  refine h.update hheap (fun a frame _ _ ex => by rw [hqueue]) (by rw [hqueue]; exact h.queuedNodup)
    ?_ hcalls ?_ hnone
  · intro ex a hmem
    rw [hqueue] at hmem
    rcases hothers ex a hmem with ⟨frame, hcell, -⟩
    rw [hcell]
    exact Option.some_ne_none _
  · intro t ht
    rcases hsome t ht with ⟨hqueued, hwellFormed, hnot, frames', hshape, hnodup, hcovers⟩
    refine ⟨frames', hwellFormed, hshape, hnodup, hcovers, fun a ha ex => ?_,
      fun c rest hcollecting => absurd hcollecting (Focus.ne_collecting hnot c rest)⟩
    rw [hqueue, hqueued]
    constructor
    · intro hmem
      rcases hothers ex a hmem with ⟨frame, hcell, hroot⟩
      rcases hshape.cell_of_mem ha with ⟨frame', hcell', hroot'⟩
      rw [hcell] at hcell'
      cases hcell'
      exact absurd hroot' hroot
    · rintro ⟨hnone, -⟩
      cases hnone

end Agrees

namespace Agrees

variable {s s' : State ε α ω ξ} {strands : Handle → Option (Strand ε α ω ξ)} {root : Handle}

/-- The strand goes on with other frames. -/
theorem replace (h : Agrees s strands) {st t : Strand ε α ω ξ} {frames frames' : List Handle}
    (hrep : Represents s root st frames) (hst : st.queuedOn = none) (ht : t.queuedOn = none)
    (hwellFormed : t.WellFormed) (hnot : ¬ t.focus.Collects)
    (hshape : Shape s'.heap root t frames') (hnodup : frames'.Nodup)
    (hcovers : Heap.CoveredBy (fun frame => frame.root = root) s'.heap frames')
    (hheap : Heap.SameOn (fun frame => frame.root ≠ root) s.heap s'.heap)
    (hqueue : s'.scheduled = s.scheduled) (hcalls : Continues s.calls s'.calls) :
    Agrees s' (Function.update strands root (some t)) := by
  refine h.update_of_unqueued hrep hst hheap hqueue hcalls ?_ (by rintro ⟨⟩)
  rintro _ ⟨⟩
  exact ⟨ht, hwellFormed, hnot, frames', hshape, hnodup, hcovers⟩

end Agrees

/-! ## Steps of a strand on its own -/

section

variable [DecidableEq ξ] (noExecutor : ε)

/-- The step is the next one of the strand, and nothing else happens. -/
structure OwnStep (s s' : State ε α ω ξ) (strands : Handle → Option (Strand ε α ω ξ))
    (root : Handle) (st st' : Strand ε α ω ξ) (events : List ω) : Prop where
  strand : strands root = some st
  next : st.next noExecutor = some (st', events)
  agrees : Agrees s' (Function.update strands root (some st'))
  events : s'.events = s.events ++ events.map fun event => (root, event)
  calls : s'.calls = s.calls
  starts : s'.starts = s.starts
  callbacks : s'.callbacks = s.callbacks
  fault : s'.fault = s.fault
  heapNext : s.heap.next ≤ s'.heap.next

end

/-! ### Dispatch -/

section

variable {heap : Heap (Frame ε α ω ξ)} {root detached above continuation : Handle}
variable {ex : Option ξ} {callback : Callback} {frames : List Handle}
variable {stack : List (Try ε α → Body ε α ω ξ)}

/-- What the walk does to the heap: the frames of the list may change, but not whom they belong
to. -/
structure Walked (root : Handle) (frames : List Handle) (heap heap' : Heap (Frame ε α ω ξ)) :
    Prop where
  kept : ∀ a, a ∉ frames → heap'.cell a = heap.cell a
  roots : ∀ a, (heap'.cell a).map Frame.root = (heap.cell a).map Frame.root
  same : Heap.SameOn (fun frame => frame.root ≠ root) heap heap'
  next : heap'.next = heap.next

theorem Walked.refl (root : Handle) (frames : List Handle) (heap : Heap (Frame ε α ω ξ)) :
    Walked root frames heap heap :=
  ⟨fun _ _ => rfl, fun _ => rfl, Heap.SameOn.refl _ _, rfl⟩

/-- One frame is written before the walk goes on. -/
theorem Walked.set {heap' : Heap (Frame ε α ω ξ)} {a : Handle} {old new : Frame ε α ω ξ}
    (h : Walked root frames (heap.set a new) heap') (hcell : heap.cell a = some old)
    (hold : old.root = root) (hnew : new.root = root) : Walked root (a :: frames) heap heap' where
  kept := fun b hb => by
    rw [List.mem_cons, not_or] at hb
    rw [h.kept b hb.2, Heap.cell_set_of_ne hb.1]
  roots := fun b => by
    rw [h.roots b]
    by_cases hba : b = a
    · rw [hba, Heap.cell_set_self hcell, hcell, Option.map_some, Option.map_some, hold, hnew]
    · rw [Heap.cell_set_of_ne hba]
  same := (Heap.sameOn_set hcell (fun hroot => hroot hold) fun hroot => hroot hnew).trans h.same
  next := h.next

/-- The walk along linked frames sets the executor of all of them, ends at the detached coroutine
and accesses no other frame. -/
theorem changeLaziessExecutorTo_linked
    (h : Linked heap root ex callback detached above continuation frames stack)
    (hnodup : (frames ++ [detached]).Nodup) {fuel : Nat} (hfuel : frames.length < fuel) (ex' : ξ) :
    ∃ heap', changeLaziessExecutorTo fuel heap continuation ex' = some heap' ∧
      Linked heap' root (some ex') callback detached above continuation frames stack ∧
      Walked root frames heap heap' := by
  induction frames generalizing heap above continuation stack fuel with
  | nil =>
      cases stack with
      | cons rest stack => exact h.elim
      | nil =>
          rcases h with ⟨rfl, hcell⟩
          rcases Nat.exists_eq_succ_of_ne_zero (Nat.ne_of_gt hfuel) with ⟨fuel, rfl⟩
          refine ⟨heap, ?_, ⟨rfl, hcell⟩, .refl _ _ _⟩
          simp only [changeLaziessExecutorTo, hcell]
  | cons a frames ih =>
      cases stack with
      | nil => exact h.elim
      | cons rest stack =>
          rcases h with ⟨rfl, next, hcell, hlinked⟩
          rcases Nat.exists_eq_succ_of_ne_zero (Nat.ne_of_gt (Nat.zero_lt_of_lt hfuel)) with
            ⟨fuel, rfl⟩
          rcases List.nodup_cons.mp hnodup with ⟨hfresh, hnodup⟩
          let frame : Frame ε α ω ξ :=
            .lazy ⟨root, some next, some ex', .nothing⟩ (.awaiting above rest)
          have hlinked₁ : Linked (heap.set continuation frame) root ex callback detached
              continuation next frames stack :=
            hlinked.congr fun b hb => Heap.cell_set_of_ne fun hba => hfresh (hba ▸ hb)
          rcases ih hlinked₁ hnodup (Nat.lt_of_succ_lt_succ hfuel) with
            ⟨heap', hwalk, hlinked', hwalked⟩
          refine ⟨heap', ?_, ⟨rfl, next, ?_, hlinked'⟩, hwalked.set hcell rfl rfl⟩
          · simp only [changeLaziessExecutorTo, hcell]
            exact hwalk
          · rw [hwalked.kept continuation fun hmem => hfresh (List.mem_append_left _ hmem)]
            exact Heap.cell_set_self hcell

end

namespace Agrees

variable {s s' : State ε α ω ξ} {strands : Handle → Option (Strand ε α ω ξ)} {a : Handle}
variable {p : Promise ε α ξ}

/-! ### The coroutine at work -/

/-- The strand of a coroutine at work, whose frame is the first one. -/
theorem exists_atWork (h : Agrees s strands) {point : Point ε α ω ξ}
    (hcell : s.heap.cell a = some (.lazy p point)) (hwork : point.AtWork) :
    ∃ root st continuation detached below value, strands root = some st ∧
      Represents s root st (a :: (below ++ [detached])) ∧
      st.focus.point = some (value, point) ∧
      p = ⟨root, some continuation, st.executor, value⟩ ∧
      Linked s.heap root st.executor st.callback detached a continuation below st.stack := by
  rcases h.exists_represents hcell with ⟨st, frames, hst, hrep, ha⟩
  rcases hrep.of_atWork ha hcell hwork with ⟨c, d, below, value, rfl, hfocus, hp, hlinked⟩
  exact ⟨p.root, st, c, d, below, value, hst, hrep, hfocus, hp, hlinked⟩

/-- The result of a coroutine that has ended can be read, and its frame is destroyed then. -/
theorem awaitResume_eq {callee : Handle}
    (hcell : s.heap.cell callee = some (.lazy p .done)) (hvalue : p.value ≠ .nothing)
    (go : Try ε α → State ε α ω ξ → State ε α ω ξ) :
    s.awaitResume callee go = go p.value { s with heap := s.heap.free callee } := by
  have hresult : s.result? callee = some p.value := by
    rcases p with ⟨root, continuation, executor, value⟩
    cases value with
    | nothing => exact absurd rfl hvalue
    | value v => simp [State.result?, hcell]
    | error e => simp [State.result?, hcell]
  simp only [State.awaitResume, hresult]

/-- {lit}`co_await dispatch(ex)` with another executor than the present one. -/
theorem dispatch (h : Agrees s strands) {root continuation detached : Handle} {ex : ξ}
    {rest : Body ε α ω ξ} {st : Strand ε α ω ξ} {below : List Handle}
    (hrep : Represents s root st (a :: (below ++ [detached])))
    (hfocus : st.focus = .running (.dispatch ex rest))
    (hcell : s.heap.cell a = some (.lazy ⟨root, some continuation, st.executor, .nothing⟩
      (.running (.dispatch ex rest))))
    (hlinked : Linked s.heap root st.executor st.callback detached a continuation below
      st.stack) :
    ∃ heap', changeLaziessExecutorTo (s.heap.next + 1) (s.heap.set a
        (.lazy ⟨root, some continuation, st.executor, .nothing⟩ (.suspended rest))) a ex =
          some heap' ∧
      heap'.next = s.heap.next ∧
      Agrees ({ s with heap := heap' }.schedule ex a) (Function.update strands root
        (some { st with focus := .suspended rest, executor := some ex })) := by
  let first : Frame ε α ω ξ :=
    .lazy ⟨root, some continuation, st.executor, .nothing⟩ (.suspended rest)
  let top : Frame ε α ω ξ :=
    .lazy ⟨root, some continuation, some ex, .nothing⟩ (.suspended rest)
  rcases List.nodup_cons.mp hrep.nodup with ⟨hfresh, hnodup⟩
  have hlength := hrep.length_le
  rw [List.length_cons, List.length_append, List.length_singleton] at hlength
  have hfirst : (s.heap.set a first).cell a = some first := Heap.cell_set_self hcell
  have hlinked₁ : Linked ((s.heap.set a first).set a top) root st.executor st.callback detached a
      continuation below st.stack := by
    refine hlinked.congr fun b hb => ?_
    have hba : b ≠ a := fun hba => hfresh (hba ▸ hb)
    rw [Heap.cell_set_of_ne hba, Heap.cell_set_of_ne hba]
  have hfuel : below.length < s.heap.next := by omega
  rcases changeLaziessExecutorTo_linked hlinked₁ hnodup hfuel ex with
    ⟨heap', hwalk, hlinked', hwalked⟩
  have htop : heap'.cell a = some top := by
    rw [hwalked.kept a fun hmem => hfresh (List.mem_append_left _ hmem)]
    exact Heap.cell_set_self hfirst
  have hwalked' := (hwalked.set hfirst rfl rfl).set hcell rfl rfl
  have hunqueued : ∀ ex', (ex', a) ∉ s.scheduled :=
    hrep.not_queued List.mem_cons_self (by simp only [Strand.queuedOn, hfocus])
  have hqueue : Requeued s.scheduled (s.scheduled ++ [(ex, a)]) a (some ex) :=
    .push h.queuedNodup hunqueued ex
  refine ⟨heap', ?_, hwalked'.next, h.update hwalked'.same ?_ hqueue.nodup ?_
    (.refl _) ?_ (by rintro ⟨⟩)⟩
  · rw [changeLaziessExecutorTo, hfirst]
    exact hwalk
  · intro b frame hb hroot ex'
    refine hqueue.of_ne ?_ ex'
    rintro rfl
    rw [hcell] at hb
    cases hb
    exact hroot rfl
  · intro ex' b hb hnone
    have hroots := hwalked'.roots b
    rw [show heap'.cell b = none from hnone] at hroots
    have hdead : s.heap.cell b = none := Option.map_eq_none_iff.mp hroots.symm
    by_cases hba : b = a
    · subst hba
      rw [hdead] at hcell
      cases hcell
    · exact h.queuedLive ex' b ((hqueue.of_ne hba ex').mp hb) hdead
  · rintro _ ⟨⟩
    refine ⟨_, by rintro ⟨⟩, .atWork a continuation detached below .nothing _ rfl htop hlinked',
      hrep.nodup, ?_, ?_, by rintro _ _ ⟨⟩⟩
    · intro b frame hb hroot
      have hroots := hwalked'.roots b
      rw [show heap'.cell b = some frame from hb] at hroots
      rcases Option.map_eq_some_iff.mp hroots.symm with ⟨frame', hframe', hroot'⟩
      exact hrep.covers b frame' hframe' (hroot'.trans hroot)
    · intro b hb ex'
      by_cases hba : b = a
      · subst hba
        exact (hqueue.self ex').trans (by simp [Strand.queuedOn])
      · refine (hqueue.of_ne hba ex').trans ((hrep.queued b hb ex').trans ?_)
        simp [Ne.symm hba]

/-- {lit}`co_await callee()`: the frame of the callee is a new one on top. -/
theorem await (h : Agrees s strands) {root continuation detached : Handle} {st : Strand ε α ω ξ}
    {callee body : Body ε α ω ξ} {rest : Try ε α → Body ε α ω ξ} {below : List Handle}
    (hst : st.queuedOn = none) (hrep : Represents s root st (a :: (below ++ [detached])))
    (hcell : s.heap.cell a =
      some (.lazy ⟨root, some continuation, st.executor, .nothing⟩ (.running body)))
    (hlinked : Linked s.heap root st.executor st.callback detached a continuation below
      st.stack)
    (hheap : s'.heap =
      (s.heap.alloc (.lazy ⟨root, some a, st.executor, .nothing⟩ (.running callee))).set a
        (.lazy ⟨root, some continuation, st.executor, .nothing⟩ (.awaiting s.heap.next rest)))
    (hqueue : s'.scheduled = s.scheduled) (hcalls : Continues s.calls s'.calls) :
    Agrees s' (Function.update strands root
      (some { st with focus := .running callee, stack := rest :: st.stack })) := by
  let new : Frame ε α ω ξ := .lazy ⟨root, some a, st.executor, .nothing⟩ (.running callee)
  have hcell' : (s.heap.alloc new).cell a = _ := Heap.cell_alloc_of_some hcell
  have hnew : s.heap.next ∉ a :: (below ++ [detached]) := by
    intro hmem
    rcases hrep.shape.cell_of_mem hmem with ⟨frame, hframe, -⟩
    exact absurd (s.heap.lt_next hframe) (Nat.lt_irrefl _)
  have hne : s.heap.next ≠ a := fun heq => hnew (heq ▸ List.mem_cons_self)
  have hold : ∀ b ∈ below ++ [detached], ((s.heap.alloc new).set a (.lazy
      ⟨root, some continuation, st.executor, .nothing⟩ (.awaiting s.heap.next rest))).cell b =
        s.heap.cell b := by
    intro b hb
    have hba : b ≠ a := fun hba => (List.nodup_cons.mp hrep.nodup).1 (hba ▸ hb)
    rw [Heap.cell_set_of_ne hba, Heap.cell_alloc, if_neg]
    exact fun hbn => hnew (hbn ▸ List.mem_cons_of_mem _ hb)
  refine h.replace hrep hst rfl trivial id ?_ (List.nodup_cons.mpr ⟨hnew, hrep.nodup⟩) ?_ ?_
    hqueue hcalls
  all_goals rw [hheap]
  · refine .atWork s.heap.next a detached (a :: below) .nothing _ rfl ?_ ?_
    · exact (Heap.cell_set_of_ne hne).trans (Heap.cell_alloc_next _ _)
    · exact ⟨rfl, continuation, Heap.cell_set_self hcell', hlinked.congr hold⟩
  · exact (hrep.covers.alloc _).set (by simp) _
  · exact (Heap.sameOn_alloc s.heap fun hroot => hroot rfl).trans
      (Heap.sameOn_set hcell' (fun hroot => hroot rfl) fun hroot => hroot rfl)

variable [DecidableEq ξ] {noExecutor : ε}

/-- A coroutine that runs makes the next step of its strand, unless it suspends in
{lit}`collectAll`. -/
theorem running (h : Agrees s strands) {body : Body ε α ω ξ}
    (hcell : s.heap.cell a = some (.lazy p (.running body)))
    (hbody : ∀ para n tasks launch rest, body = .collectAll para n tasks launch rest → n = 0) :
    ∃ root st st' events,
      OwnStep noExecutor s (runBody noExecutor s a p body) strands root st st' events := by
  rcases h.exists_atWork hcell trivial with
    ⟨root, ⟨focus, stack, executor, callback⟩, c, d, below, value, hst, hrep, hfocus, rfl, hlinked⟩
  obtain ⟨rfl, rfl⟩ : focus = .running body ∧ value = .nothing := by
    cases focus <;> cases hfocus
    exact ⟨rfl, rfl⟩
  have hunqueued : ∀ ex, (ex, a) ∉ s.scheduled := hrep.not_queued List.mem_cons_self rfl
  have hsame : Requeued s.scheduled s.scheduled a none := .same h.queuedNodup hunqueued
  have hpush : ∀ ex, Requeued s.scheduled (s.scheduled ++ [(ex, a)]) a (some ex) :=
    .push h.queuedNodup hunqueued
  cases body with
  | coReturn v =>
      exact ⟨root, _, _, [], hst, rfl,
        h.setTop hrep hcell hlinked (by rintro ⟨⟩) rfl rfl rfl rfl rfl hsame (.refl _) id,
        (List.append_nil _).symm, rfl, rfl, rfl, rfl, le_rfl⟩
  | throw e =>
      exact ⟨root, _, _, [], hst, rfl,
        h.setTop hrep hcell hlinked (by rintro ⟨⟩) rfl rfl rfl rfl rfl hsame (.refl _) id,
        (List.append_nil _).symm, rfl, rfl, rfl, rfl, le_rfl⟩
  | emit event rest =>
      exact ⟨root, _, _, [event], hst, rfl,
        h.setTop hrep hcell hlinked trivial rfl rfl rfl rfl rfl hsame (.refl _) id,
        rfl, rfl, rfl, rfl, rfl, le_rfl⟩
  | currentExecutor rest =>
      exact ⟨root, _, _, [], hst, rfl,
        h.setTop hrep hcell hlinked trivial rfl rfl rfl rfl rfl hsame (.refl _) id,
        (List.append_nil _).symm, rfl, rfl, rfl, rfl, le_rfl⟩
  | yield rest =>
      cases executor with
      | none =>
          exact ⟨root, _, _, [], hst, rfl,
            h.setTop hrep hcell hlinked trivial rfl rfl rfl rfl rfl hsame (.refl _) id,
            (List.append_nil _).symm, rfl, rfl, rfl, rfl, le_rfl⟩
      | some ex =>
          exact ⟨root, _, _, [], hst, rfl,
            h.setTop hrep hcell hlinked (by rintro ⟨⟩) rfl rfl rfl rfl rfl (hpush ex) (.refl _) id,
            (List.append_nil _).symm, rfl, rfl, rfl, rfl, le_rfl⟩
  | dispatch ex rest =>
      by_cases hsame' : executor = some ex
      · subst hsame'
        refine ⟨root, _, _, [], hst, if_pos rfl, ?_, ?_, ?_, ?_, ?_, ?_, ?_⟩
        all_goals simp only [runBody, if_true]
        · exact h.setTop hrep hcell hlinked trivial rfl rfl rfl rfl rfl hsame (.refl _) id
        · exact (List.append_nil _).symm
        all_goals rfl
      · rcases h.dispatch hrep rfl hcell hlinked with ⟨heap', hwalk, hnext, hagrees⟩
        refine ⟨root, _, _, [], hst, if_neg hsame', ?_, ?_, ?_, ?_, ?_, ?_, ?_⟩
        all_goals simp only [runBody, if_neg hsame', hwalk]
        · exact hagrees
        · exact (List.append_nil _).symm
        · rfl
        · rfl
        · rfl
        · rfl
        · exact Nat.le_of_eq hnext.symm
  | await callee rest =>
      exact ⟨root, _, _, [], hst, rfl, h.await rfl hrep hcell hlinked rfl rfl (.refl _),
        (List.append_nil _).symm, rfl, rfl, rfl, rfl, Nat.le_succ _⟩
  | collectAll para n tasks launch rest =>
      have hn := hbody para n tasks launch rest rfl
      subst hn
      exact ⟨root, _, _, [], hst, rfl,
        h.setTop hrep hcell hlinked trivial rfl rfl rfl rfl rfl hsame (.refl _) id,
        (List.append_nil _).symm, rfl, rfl, rfl, rfl, le_rfl⟩

/-! ### Handing over the result -/

/-- The final awaiter: the coroutine has ended and the one that awaits it is resumed. -/
theorem returned (h : Agrees s strands) (hcell : s.heap.cell a = some (.lazy p .returned)) :
    ∃ continuation, p.continuation = some continuation ∧ ∃ root st st' events,
      OwnStep noExecutor s ((s.setPoint a p .done).resume continuation) strands root st st'
        events := by
  rcases h.exists_atWork hcell trivial with
    ⟨root, ⟨focus, stack, executor, callback⟩, c, d, below, value, hst, hrep, hfocus, rfl, hlinked⟩
  obtain rfl : focus = .returned value := by
    cases focus <;> cases hfocus
    rfl
  rcases List.nodup_cons.mp hrep.nodup with ⟨hfresh, -⟩
  refine ⟨c, rfl, root, ⟨.returned value, stack, executor, callback⟩,
    ⟨.resumed value, stack, executor, callback⟩, [], ?_⟩
  let ended : Frame ε α ω ξ := .lazy ⟨root, some c, executor, value⟩ .done
  have hended : (s.heap.set a ended).cell a = some ended := Heap.cell_set_self hcell
  have hset : Heap.SameOn (fun frame => frame.root ≠ root) s.heap (s.heap.set a ended) :=
    Heap.sameOn_set hcell (fun hroot => hroot rfl) fun hroot => hroot rfl
  have hold : ∀ b ∈ below ++ [d], (s.heap.set a ended).cell b = s.heap.cell b := fun b hb =>
    Heap.cell_set_of_ne fun hba => hfresh (hba ▸ hb)
  cases below with
  | nil =>
      cases stack with
      | cons rest stack => exact hlinked.elim
      | nil =>
          rcases hlinked with ⟨rfl, hdetached⟩
          let next : Frame ε α ω ξ := .detached root callback (.resumed a)
          have hac : a ≠ c := fun hac => hfresh (by simp [hac])
          have hdetached' : (s.heap.set a ended).cell c =
              some (.detached root callback (.awaiting a)) := (hold c (by simp)).trans hdetached
          have hresume : (s.setPoint a ⟨root, some c, executor, value⟩ .done).resume c =
              (s.setFrame a ended).setFrame c next := by
            simp only [State.resume, State.setPoint, State.setFrame, ended, hdetached',
              Option.bind_some, Frame.resume, next]
          rw [hresume]
          refine ⟨hst, rfl, ?_, (List.append_nil _).symm, rfl, rfl, rfl, rfl, le_rfl⟩
          refine h.replace (t := ⟨.resumed value, [], executor, callback⟩) hrep rfl rfl
            hrep.wellFormed id (.arrived a c value rfl rfl ?_ ?_) hrep.nodup ?_ ?_ ?_ (.refl _)
          · exact (Heap.cell_set_of_ne hac).trans hended
          · exact Heap.cell_set_self hdetached'
          · exact (hrep.covers.set (by simp) _).set (by simp) _
          · exact hset.trans
              (Heap.sameOn_set hdetached' (fun hroot => hroot rfl) fun hroot => hroot rfl)
          · rfl
  | cons e below =>
      cases stack with
      | nil => exact hlinked.elim
      | cons rest stack =>
          rcases hlinked with ⟨rfl, next', hawaiting, hlinked⟩
          let next : Frame ε α ω ξ :=
            .lazy ⟨root, some next', executor, .nothing⟩ (.resumed a rest)
          have hac : a ≠ c := fun hac => hfresh (by simp [hac])
          have hawaiting' : (s.heap.set a ended).cell c =
              some (.lazy ⟨root, some next', executor, .nothing⟩ (.awaiting a rest)) :=
            (hold c (by simp)).trans hawaiting
          have hresume : (s.setPoint a ⟨root, some c, executor, value⟩ .done).resume c =
              (s.setFrame a ended).setFrame c next := by
            simp only [State.resume, State.setPoint, State.setFrame, ended, hawaiting',
              Option.bind_some, Frame.resume, next]
          have hother : ∀ b, b ≠ c → b ≠ a →
              ((s.heap.set a ended).set c next).cell b = s.heap.cell b := fun b hbc hba =>
            (Heap.cell_set_of_ne hbc).trans (Heap.cell_set_of_ne hba)
          have hc : c ∉ below ++ [d] := (List.nodup_cons.mp (List.nodup_cons.mp hrep.nodup).2).1
          rw [hresume]
          refine ⟨hst, rfl, ?_, (List.append_nil _).symm, rfl, rfl, rfl, rfl, le_rfl⟩
          refine h.replace (t := ⟨.resumed value, rest :: stack, executor, callback⟩) hrep rfl rfl
            hrep.wellFormed id (.resumed a c next' d below value rest stack rfl rfl ?_ ?_ ?_)
            hrep.nodup ?_ ?_ ?_ (.refl _)
          · exact (Heap.cell_set_of_ne hac).trans hended
          · exact Heap.cell_set_self hawaiting'
          · exact hlinked.congr fun b hb => hother b (fun hbc => hc (hbc ▸ hb)) fun hba =>
              hfresh (hba ▸ List.mem_cons_of_mem _ hb)
          · exact (hrep.covers.set (by simp) _).set (by simp) _
          · exact hset.trans
              (Heap.sameOn_set hawaiting' (fun hroot => hroot rfl) fun hroot => hroot rfl)
          · rfl

/-- A {lit}`Lazy` reads the result of the one that it has awaited. -/
theorem resumed (h : Agrees s strands) {callee : Handle} {rest : Try ε α → Body ε α ω ξ}
    (hcell : s.heap.cell a = some (.lazy p (.resumed callee rest))) :
    ∃ root st st' events, OwnStep noExecutor s
      (s.awaitResume callee fun result s' => s'.setPoint a p (.running (rest result)))
      strands root st st' events := by
  rcases h.exists_represents hcell with ⟨⟨focus, stack, executor, callback⟩, frames, hst, hrep, ha⟩
  rcases hrep.of_resumed ha hcell with
    ⟨c, d, below, result, stack', rfl, hfocus, hstack, hcallee, hp, hlinked⟩
  obtain rfl : focus = .resumed result := hfocus
  obtain rfl : stack = rest :: stack' := hstack
  rcases List.nodup_cons.mp hrep.nodup with ⟨hcalleeFresh, hnodup⟩
  have hne : a ≠ callee := fun heq => hcalleeFresh (heq ▸ List.mem_cons_self)
  have hcell' : (s.heap.free callee).cell a = some (.lazy p (.resumed callee rest)) :=
    (Heap.cell_free_of_ne hne).trans hcell
  rw [awaitResume_eq hcallee hrep.wellFormed]
  refine ⟨p.root, _, _, [], hst, rfl, ?_, (List.append_nil _).symm, rfl, rfl, rfl, rfl, le_rfl⟩
  refine h.replace (t := ⟨.running (rest result), stack', executor, callback⟩) hrep rfl rfl trivial
    id (.atWork a c d below .nothing _ rfl ?_ ?_) hnodup ?_ ?_ ?_ (.refl _)
  · refine (Heap.cell_set_self hcell').trans ?_
    exact congrArg (fun q => some (Frame.lazy q (.running (rest result)))) hp
  · refine hlinked.congr fun b hb => ?_
    have hba : b ≠ a := fun hba => (List.nodup_cons.mp hnodup).1 (hba ▸ hb)
    have hbc : b ≠ callee := fun hbc => hcalleeFresh (hbc ▸ List.mem_cons_of_mem _ hb)
    exact (Heap.cell_set_of_ne hba).trans (Heap.cell_free_of_ne hbc)
  · exact hrep.covers.free.set List.mem_cons_self _
  · exact (Heap.sameOn_free hcallee fun hroot => hroot rfl).trans
      (Heap.sameOn_set hcell' (fun hroot => hroot rfl) fun hroot => hroot rfl)
  · rfl

/-- The detached coroutine reads the result of the whole chain. -/
theorem arrived (h : Agrees s strands) {root callee : Handle} {callback : Callback}
    (hcell : s.heap.cell a = some (.detached root callback (.resumed callee))) :
    ∃ st st' events, OwnStep noExecutor s
      (s.awaitResume callee fun result s' =>
        s'.setFrame a (.detached root callback (.calling result)))
      strands root st st' events := by
  rcases h.exists_represents hcell with ⟨⟨focus, stack, executor, callback'⟩, frames, hst, hrep, ha⟩
  rcases hrep.of_detached ha hcell (by rintro b ⟨⟩) with
    ⟨hcallback, hstack, ⟨callee', result, hpoint, rfl, hfocus, hcallee⟩ | ⟨-, hfocus⟩⟩
  · obtain rfl : focus = .resumed result := hfocus
    obtain rfl : callback = callback' := hcallback
    obtain rfl : stack = [] := hstack
    cases hpoint
    rcases List.nodup_cons.mp hrep.nodup with ⟨hcalleeFresh, hnodup⟩
    have hne : a ≠ callee := fun heq => hcalleeFresh (heq ▸ List.mem_cons_self)
    have hcell' : (s.heap.free callee).cell a =
        some (.detached root callback (.resumed callee)) := (Heap.cell_free_of_ne hne).trans hcell
    rw [awaitResume_eq hcallee hrep.wellFormed]
    refine ⟨_, _, [], hst, rfl, ?_, (List.append_nil _).symm, rfl, rfl, rfl, rfl, le_rfl⟩
    refine h.replace (t := ⟨.calling result, [], executor, callback⟩) hrep rfl rfl trivial id
      (.last a _ rfl rfl ?_) hnodup ?_ ?_ ?_ (.refl _)
    · exact Heap.cell_set_self hcell'
    · exact hrep.covers.free.set List.mem_cons_self _
    · exact (Heap.sameOn_free hcallee fun hroot => hroot rfl).trans
        (Heap.sameOn_set hcell' (fun hroot => hroot rfl) fun hroot => hroot rfl)
    · rfl
  · cases focus <;> cases hfocus

/-- An executor resumes a coroutine that is in its queue. -/
theorem execute (h : Agrees s strands) {ex : ξ} (hqueue : (ex, a) ∈ s.scheduled) :
    ∃ root st st' events, OwnStep noExecutor s
      ({ s with scheduled := s.scheduled.erase (ex, a) }.resume a) strands root st st' events := by
  rcases Option.ne_none_iff_exists'.mp (h.queuedLive ex a hqueue) with ⟨frame, hframe⟩
  rcases h.exists_represents hframe with ⟨⟨focus, stack, executor, callback⟩, frames, hst, hrep, ha⟩
  rcases hrep.of_queued ha hqueue with ⟨c, d, below, body, rfl, hfocus, hexecutor, hcell, hlinked⟩
  obtain rfl : focus = .suspended body := hfocus
  have honly : ∀ ex', (ex', a) ∈ s.scheduled → ex' = ex := by
    intro ex' hmem
    have hqueued := ((hrep.queued a ha ex').mp hmem).1
    have hexecutor' := ((hrep.queued a ha ex).mp hqueue).1
    rw [hqueued] at hexecutor'
    exact Option.some.inj hexecutor'
  have hresume : ({ s with scheduled := s.scheduled.erase (ex, a) } : State ε α ω ξ).resume a =
      { s with scheduled := s.scheduled.erase (ex, a) }.setFrame a
        (.lazy ⟨frame.root, some c, executor, .nothing⟩ (.running body)) := by
    simp only [State.resume, hcell, Option.bind_some, Frame.resume]
  rw [hresume]
  exact ⟨frame.root, _, _, [], hst, rfl,
    h.setTop hrep hcell hlinked trivial rfl rfl rfl rfl rfl (.erase h.queuedNodup honly) (.refl _)
      id,
    (List.append_nil _).symm, rfl, rfl, rfl, rfl, le_rfl⟩

end Agrees

end Lazy

end AsyncSimple
