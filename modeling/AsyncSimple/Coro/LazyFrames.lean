import AsyncSimple.Coro.LazyMachine

/-!
# Chains of frames as strands

A strand of {lit}`Coro/LazyProgram` is in the heap as a chain of frames that are linked by their
continuations: the coroutine at work, those that await each other, and the detached coroutine.
{lit}`Represents` says so for one chain, and {lit}`Agrees` for the whole heap: every frame belongs
to exactly one strand, and a handle is in a queue exactly when its strand waits for it.

Main results:

- Theorem {lit}`Agrees.update`: a step that works on one chain leaves all others alone.
- Theorem {lit}`Represents.place`: where a frame is in its strand.
-/

namespace AsyncSimple

open Transition Storage

namespace Lazy

variable {ε α ω ξ : Type}

/-! ## Representation -/

/-- What the promise holds and where the coroutine is, when it is the one at work. -/
def Focus.point : Focus ε α ω ξ → Option (Try ε α × Point ε α ω ξ)
  | .suspended body => some (.nothing, .suspended body)
  | .running body => some (.nothing, .running body)
  | .collecting call rest => some (.nothing, .collecting call rest)
  | .collected call rest => some (.nothing, .collected call rest)
  | .returned result => some (result, .returned)
  | .unstarted _ _ | .resumed _ | .calling _ | .inCallback | .leaving => none

/-- The strand is suspended in {lit}`collectAll`. -/
def Focus.Collects : Focus ε α ω ξ → Prop
  | .collecting _ _ => True
  | _ => False

theorem Focus.ne_collecting {focus : Focus ε α ω ξ} (h : ¬ focus.Collects) (c : Nat)
    (rest : List (Try ε α) → Body ε α ω ξ) : focus ≠ .collecting c rest := by
  rintro rfl
  exact h trivial

/-- Where the detached coroutine is when it is the last one. -/
def Focus.detachedPoint : Focus ε α ω ξ → Option (DetachedPoint ε α)
  | .calling result => some (.calling result)
  | .inCallback => some .inCallback
  | .leaving => some .leaving
  | _ => none

namespace Strand

/-- A result is a value or an exception, and only an executor can have the strand in its queue. -/
def WellFormed (st : Strand ε α ω ξ) : Prop :=
  match st.focus with
  | .returned result | .resumed result => result ≠ .nothing
  | .suspended _ => st.executor ≠ none
  | _ => True

/-- The executor that has the strand in its queue. -/
def queuedOn (st : Strand ε α ω ξ) : Option ξ :=
  match st.focus with
  | .suspended _ => st.executor
  | _ => none

end Strand

/-- The frames {lit}`frames` await each other, the first of them {lit}`above`, and the last one is
awaited by the detached coroutine {lit}`detached`.  {lit}`continuation` is the first frame, or the
detached coroutine if there is none. -/
def Linked (heap : Heap (Frame ε α ω ξ)) (root : Handle) (ex : Option ξ) (callback : Callback)
    (detached : Handle) : Handle → Handle → List Handle → List (Try ε α → Body ε α ω ξ) → Prop
  | above, continuation, [], [] =>
      continuation = detached ∧
        heap.cell detached = some (.detached root callback (.awaiting above))
  | above, continuation, a :: frames, rest :: stack =>
      continuation = a ∧ ∃ next,
        heap.cell a = some (.lazy ⟨root, some next, ex, .nothing⟩ (.awaiting above rest)) ∧
        Linked heap root ex callback detached a next frames stack
  | _, _, [], _ :: _ => False
  | _, _, _ :: _, [] => False

/-- The frames of a strand, the one at work first and the detached coroutine last. -/
inductive Shape (heap : Heap (Frame ε α ω ξ)) (root : Handle) (st : Strand ε α ω ξ) :
    List Handle → Prop where
  | unstarted (body : Body ε α ω ξ) (bound : Option ξ) (hfocus : st.focus = .unstarted body bound)
      (hstack : st.stack = [])
      (hcell : heap.cell root =
        some (.lazy ⟨root, none, bound, .nothing⟩ (.suspended body))) :
      Shape heap root st [root]
  | atWork (a continuation detached : Handle) (frames : List Handle) (value : Try ε α)
      (point : Point ε α ω ξ) (hfocus : st.focus.point = some (value, point))
      (hcell : heap.cell a =
        some (.lazy ⟨root, some continuation, st.executor, value⟩ point))
      (hlinked : Linked heap root st.executor st.callback detached a continuation frames
        st.stack) :
      Shape heap root st (a :: (frames ++ [detached]))
  | resumed (a b continuation detached : Handle) (frames : List Handle) (result : Try ε α)
      (rest : Try ε α → Body ε α ω ξ) (stack : List (Try ε α → Body ε α ω ξ))
      (hfocus : st.focus = .resumed result) (hstack : st.stack = rest :: stack)
      (hcell : heap.cell a = some (.lazy ⟨root, some b, st.executor, result⟩ .done))
      (hnext : heap.cell b =
        some (.lazy ⟨root, some continuation, st.executor, .nothing⟩ (.resumed a rest)))
      (hlinked : Linked heap root st.executor st.callback detached b continuation frames stack) :
      Shape heap root st (a :: b :: (frames ++ [detached]))
  | arrived (a detached : Handle) (result : Try ε α) (hfocus : st.focus = .resumed result)
      (hstack : st.stack = [])
      (hcell : heap.cell a = some (.lazy ⟨root, some detached, st.executor, result⟩ .done))
      (hdetached : heap.cell detached = some (.detached root st.callback (.resumed a))) :
      Shape heap root st [a, detached]
  | last (detached : Handle) (point : DetachedPoint ε α)
      (hfocus : st.focus.detachedPoint = some point) (hstack : st.stack = [])
      (hcell : heap.cell detached = some (.detached root st.callback point)) :
      Shape heap root st [detached]

/-- The calls of {lit}`collectAll` stay and will resume the same coroutines. -/
def Continues (calls calls' : Heap (Call ε α ξ)) : Prop :=
  ∀ c call, calls.cell c = some call →
    ∃ call', calls'.cell c = some call' ∧ call'.continuation = call.continuation

theorem Continues.refl (calls : Heap (Call ε α ξ)) : Continues calls calls :=
  fun _ call hcall => ⟨call, hcall, rfl⟩

/-- The frames of the heap that belong to a strand are {lit}`frames`, and the one at work is in the
queue of the executor if the strand is suspended there, or is the one that the call of
{lit}`collectAll` will resume if the strand waits for that. -/
structure Represents (s : State ε α ω ξ) (root : Handle) (st : Strand ε α ω ξ)
    (frames : List Handle) : Prop where
  wellFormed : st.WellFormed
  shape : Shape s.heap root st frames
  nodup : frames.Nodup
  covers : Heap.CoveredBy (fun frame => frame.root = root) s.heap frames
  queued : ∀ a ∈ frames, ∀ ex, (ex, a) ∈ s.scheduled ↔ st.queuedOn = some ex ∧ frames.head? = some a
  waits : ∀ c rest, st.focus = .collecting c rest →
    ∃ call, s.calls.cell c = some call ∧ frames.head? = some call.continuation

/-- The heap and the queues are those of the strands. -/
structure Agrees (s : State ε α ω ξ) (strands : Handle → Option (Strand ε α ω ξ)) : Prop where
  represents : ∀ root st, strands root = some st → ∃ frames, Represents s root st frames
  belongs : ∀ a frame, s.heap.cell a = some frame → strands frame.root ≠ none
  queuedNodup : s.scheduled.Nodup
  queuedLive : ∀ ex a, (ex, a) ∈ s.scheduled → s.heap.cell a ≠ none

/-! ## Linked frames -/

section

variable {heap heap' : Heap (Frame ε α ω ξ)} {root detached above continuation : Handle}
variable {ex : Option ξ} {callback : Callback} {frames : List Handle}
variable {stack : List (Try ε α → Body ε α ω ξ)}

/-- Only the linked frames matter. -/
theorem Linked.congr (h : Linked heap root ex callback detached above continuation frames stack)
    (hsame : ∀ a ∈ frames ++ [detached], heap'.cell a = heap.cell a) :
    Linked heap' root ex callback detached above continuation frames stack := by
  induction frames generalizing above continuation stack with
  | nil =>
      cases stack with
      | nil => exact ⟨h.1, (hsame detached (by simp)).trans h.2⟩
      | cons rest stack => exact h.elim
  | cons a frames ih =>
      cases stack with
      | nil => exact h.elim
      | cons rest stack =>
          rcases h with ⟨rfl, next, hcell, hlinked⟩
          exact ⟨rfl, next, (hsame _ (by simp)).trans hcell,
            ih hlinked fun b hb => hsame b (List.mem_cons_of_mem _ hb)⟩

theorem Linked.detached_cell
    (h : Linked heap root ex callback detached above continuation frames stack) :
    ∃ b, heap.cell detached = some (.detached root callback (.awaiting b)) := by
  induction frames generalizing above continuation stack with
  | nil =>
      cases stack with
      | nil => exact ⟨above, h.2⟩
      | cons rest stack => exact h.elim
  | cons a frames ih =>
      cases stack with
      | nil => exact h.elim
      | cons rest stack =>
          rcases h with ⟨rfl, next, hcell, hlinked⟩
          exact ih hlinked

theorem Linked.cell_of_mem
    (h : Linked heap root ex callback detached above continuation frames stack) {a : Handle}
    (ha : a ∈ frames) :
    ∃ next b rest,
      heap.cell a = some (.lazy ⟨root, some next, ex, .nothing⟩ (.awaiting b rest)) := by
  induction frames generalizing above continuation stack with
  | nil => cases ha
  | cons c frames ih =>
      cases stack with
      | nil => exact h.elim
      | cons rest stack =>
          rcases h with ⟨rfl, next, hcell, hlinked⟩
          rcases List.mem_cons.mp ha with rfl | ha
          · exact ⟨next, above, rest, hcell⟩
          · exact ih hlinked ha

/-- All frames below the one at work wait for another one. -/
theorem Linked.cell_of_mem_append
    (h : Linked heap root ex callback detached above continuation frames stack) {a : Handle}
    (ha : a ∈ frames ++ [detached]) :
    ∃ frame, heap.cell a = some frame ∧ frame.root = root ∧
      ((∃ p b rest, frame = .lazy p (.awaiting b rest)) ∨
        ∃ b, frame = .detached root callback (.awaiting b)) := by
  rcases List.mem_append.mp ha with ha | ha
  · rcases h.cell_of_mem ha with ⟨next, b, rest, hcell⟩
    exact ⟨_, hcell, rfl, .inl ⟨_, _, _, rfl⟩⟩
  · rcases h.detached_cell with ⟨b, hcell⟩
    rw [List.mem_singleton.mp ha]
    exact ⟨_, hcell, rfl, .inr ⟨_, rfl⟩⟩

end

/-! ## One strand -/

section

variable {s s' : State ε α ω ξ} {root : Handle} {st : Strand ε α ω ξ} {frames : List Handle}

/-- The frames of a strand are in the heap and belong to it. -/
theorem Shape.cell_of_mem (h : Shape s.heap root st frames) {a : Handle} (ha : a ∈ frames) :
    ∃ frame, s.heap.cell a = some frame ∧ frame.root = root := by
  cases h with
  | unstarted body bound hfocus hstack hcell =>
      rw [List.mem_singleton.mp ha]
      exact ⟨_, hcell, rfl⟩
  | atWork b c d hs value point hfocus hcell hlinked =>
      rcases List.mem_cons.mp ha with rfl | ha
      · exact ⟨_, hcell, rfl⟩
      · rcases hlinked.cell_of_mem_append ha with ⟨frame, hframe, hroot, -⟩
        exact ⟨frame, hframe, hroot⟩
  | resumed b c continuation d hs result rest stack hfocus hstack hcell hnext hlinked =>
      rcases List.mem_cons.mp ha with rfl | ha
      · exact ⟨_, hcell, rfl⟩
      · rcases List.mem_cons.mp ha with rfl | ha
        · exact ⟨_, hnext, rfl⟩
        · rcases hlinked.cell_of_mem_append ha with ⟨frame, hframe, hroot, -⟩
          exact ⟨frame, hframe, hroot⟩
  | arrived b d result hfocus hstack hcell hdetached =>
      rcases List.mem_cons.mp ha with rfl | ha
      · exact ⟨_, hcell, rfl⟩
      · rw [List.mem_singleton.mp ha]
        exact ⟨_, hdetached, rfl⟩
  | last d point hfocus hstack hcell =>
      rw [List.mem_singleton.mp ha]
      exact ⟨_, hcell, rfl⟩

/-- Only the frames of the strand matter. -/
theorem Shape.congr {heap heap' : Heap (Frame ε α ω ξ)} (h : Shape heap root st frames)
    (hsame : ∀ a ∈ frames, heap'.cell a = heap.cell a) : Shape heap' root st frames := by
  cases h with
  | unstarted body bound hfocus hstack hcell =>
      exact .unstarted body bound hfocus hstack ((hsame root (by simp)).trans hcell)
  | atWork b c d hs value point hfocus hcell hlinked =>
      exact .atWork b c d hs value point hfocus ((hsame b (by simp)).trans hcell)
        (hlinked.congr fun a ha => hsame a (List.mem_cons_of_mem _ ha))
  | resumed b c continuation d hs result rest stack hfocus hstack hcell hnext hlinked =>
      exact .resumed b c continuation d hs result rest stack hfocus hstack
        ((hsame b (by simp)).trans hcell) ((hsame c (by simp)).trans hnext)
        (hlinked.congr fun a ha => hsame a (List.mem_cons_of_mem _ (List.mem_cons_of_mem _ ha)))
  | arrived b d result hfocus hstack hcell hdetached =>
      exact .arrived b d result hfocus hstack ((hsame b (by simp)).trans hcell)
        ((hsame d (by simp)).trans hdetached)
  | last d point hfocus hstack hcell =>
      exact .last d point hfocus hstack ((hsame d (by simp)).trans hcell)

/-- A step that leaves the frames of a strand and their places in the queues alone leaves the strand
alone. -/
theorem Represents.congr (h : Represents s root st frames)
    (hheap : Heap.SameOn (fun frame => frame.root = root) s.heap s'.heap)
    (hqueue : ∀ a ∈ frames, ∀ ex, (ex, a) ∈ s'.scheduled ↔ (ex, a) ∈ s.scheduled)
    (hcalls : Continues s.calls s'.calls) : Represents s' root st frames where
  wellFormed := h.wellFormed
  shape := h.shape.congr fun a ha => by
    rcases h.shape.cell_of_mem ha with ⟨frame, hcell, hroot⟩
    rw [hcell]
    exact (hheap a frame hroot).mpr hcell
  nodup := h.nodup
  covers := fun a frame hcell hroot => h.covers a frame ((hheap a frame hroot).mp hcell) hroot
  queued := fun a ha ex => (hqueue a ha ex).trans (h.queued a ha ex)
  waits := fun c rest hfocus => by
    rcases h.waits c rest hfocus with ⟨call, hcall, hhead⟩
    rcases hcalls c call hcall with ⟨call', hcall', hsame⟩
    exact ⟨call', hcall', by rw [hsame, hhead]⟩

end

/-! ## Finding the strand of a frame -/

/-- The coroutine has not ended and does not wait for another {lit}`Lazy`. -/
def Point.AtWork : Point ε α ω ξ → Prop
  | .running _ | .collecting _ _ | .collected _ _ | .returned => True
  | .suspended _ | .awaiting _ _ | .resumed _ _ | .done => False

/-- Where the frame {lit}`a` is in its strand. -/
inductive Place (heap : Heap (Frame ε α ω ξ)) (root : Handle) (st : Strand ε α ω ξ)
    (frames : List Handle) (a : Handle) : Frame ε α ω ξ → Prop where
  | unstarted (p : Promise ε α ξ) (body : Body ε α ω ξ) :
      Place heap root st frames a (.lazy p (.suspended body))
  | atWork (continuation detached : Handle) (below : List Handle) (value : Try ε α)
      (point : Point ε α ω ξ) (hframes : frames = a :: (below ++ [detached]))
      (hfocus : st.focus.point = some (value, point))
      (hlinked : Linked heap root st.executor st.callback detached a continuation below
        st.stack) :
      Place heap root st frames a (.lazy ⟨root, some continuation, st.executor, value⟩ point)
  | awaiting (p : Promise ε α ξ) (callee : Handle) (rest : Try ε α → Body ε α ω ξ) :
      Place heap root st frames a (.lazy p (.awaiting callee rest))
  | done (p : Promise ε α ξ) : Place heap root st frames a (.lazy p .done)
  | resumed (callee continuation detached : Handle) (below : List Handle) (result : Try ε α)
      (rest : Try ε α → Body ε α ω ξ) (stack : List (Try ε α → Body ε α ω ξ))
      (hframes : frames = callee :: a :: (below ++ [detached]))
      (hfocus : st.focus = .resumed result) (hstack : st.stack = rest :: stack)
      (hcallee : heap.cell callee = some (.lazy ⟨root, some a, st.executor, result⟩ .done))
      (hlinked : Linked heap root st.executor st.callback detached a continuation below stack) :
      Place heap root st frames a
        (.lazy ⟨root, some continuation, st.executor, .nothing⟩ (.resumed callee rest))
  | awaitingResult (callee : Handle) :
      Place heap root st frames a (.detached root st.callback (.awaiting callee))
  | arrived (callee : Handle) (result : Try ε α) (hframes : frames = [callee, a])
      (hfocus : st.focus = .resumed result) (hstack : st.stack = [])
      (hcallee : heap.cell callee = some (.lazy ⟨root, some a, st.executor, result⟩ .done)) :
      Place heap root st frames a (.detached root st.callback (.resumed callee))
  | last (point : DetachedPoint ε α) (hframes : frames = [a])
      (hfocus : st.focus.detachedPoint = some point) (hstack : st.stack = []) :
      Place heap root st frames a (.detached root st.callback point)

/-- Frames below the one at work wait. -/
theorem Linked.place {heap : Heap (Frame ε α ω ξ)} {root detached above continuation a : Handle}
    {st : Strand ε α ω ξ} {frames below : List Handle} {stack : List (Try ε α → Body ε α ω ξ)}
    (h : Linked heap root st.executor st.callback detached above continuation below stack)
    (ha : a ∈ below ++ [detached]) :
    ∃ frame, heap.cell a = some frame ∧ Place heap root st frames a frame := by
  rcases h.cell_of_mem_append ha with ⟨frame, hcell, -, ⟨p, b, rest, rfl⟩ | ⟨b, rfl⟩⟩
  · exact ⟨_, hcell, .awaiting p b rest⟩
  · exact ⟨_, hcell, .awaitingResult b⟩

theorem Shape.place {heap : Heap (Frame ε α ω ξ)} {root a : Handle} {st : Strand ε α ω ξ}
    {frames : List Handle} (h : Shape heap root st frames) (ha : a ∈ frames) :
    ∃ frame, heap.cell a = some frame ∧ Place heap root st frames a frame := by
  cases h with
  | unstarted body bound hfocus hstack hcell =>
      rw [List.mem_singleton.mp ha]
      exact ⟨_, hcell, .unstarted _ body⟩
  | atWork b c d below value point hfocus hcell hlinked =>
      rcases List.mem_cons.mp ha with rfl | ha
      · exact ⟨_, hcell, .atWork c d below value point rfl hfocus hlinked⟩
      · exact hlinked.place ha
  | resumed b c continuation d below result rest stack hfocus hstack hcell hnext hlinked =>
      rcases List.mem_cons.mp ha with rfl | ha
      · exact ⟨_, hcell, .done _⟩
      · rcases List.mem_cons.mp ha with rfl | ha
        · exact ⟨_, hnext, .resumed b continuation d below result rest stack rfl hfocus hstack hcell
            hlinked⟩
        · exact hlinked.place ha
  | arrived b d result hfocus hstack hcell hdetached =>
      rcases List.mem_cons.mp ha with rfl | ha
      · exact ⟨_, hcell, .done _⟩
      · rw [List.mem_singleton.mp ha]
        exact ⟨_, hdetached, .arrived b result rfl hfocus hstack hcell⟩
  | last d point hfocus hstack hcell =>
      rw [List.mem_singleton.mp ha]
      exact ⟨_, hcell, .last point rfl hfocus hstack⟩

namespace Represents

variable {s s' : State ε α ω ξ} {root a : Handle} {st : Strand ε α ω ξ} {frames : List Handle}

theorem place (h : Represents s root st frames) (ha : a ∈ frames) {frame : Frame ε α ω ξ}
    (hcell : s.heap.cell a = some frame) : Place s.heap root st frames a frame := by
  rcases h.shape.place ha with ⟨frame', hcell', hplace⟩
  rw [hcell] at hcell'
  cases hcell'
  exact hplace

/-- A coroutine at work is the first one of its strand. -/
theorem of_atWork (h : Represents s root st frames) (ha : a ∈ frames) {p : Promise ε α ξ}
    {point : Point ε α ω ξ} (hcell : s.heap.cell a = some (.lazy p point)) (hwork : point.AtWork) :
    ∃ continuation detached below value, frames = a :: (below ++ [detached]) ∧
      st.focus.point = some (value, point) ∧
      p = ⟨root, some continuation, st.executor, value⟩ ∧
      Linked s.heap root st.executor st.callback detached a continuation below st.stack := by
  cases h.place ha hcell with
  | atWork c d below value _ hframes hfocus hlinked =>
      exact ⟨c, d, below, value, hframes, hfocus, rfl, hlinked⟩
  | unstarted | awaiting | done | resumed => exact hwork.elim

/-- A suspended coroutine whose handle is in a queue is the first one of its strand. -/
theorem of_queued (h : Represents s root st frames) (ha : a ∈ frames) {ex : ξ}
    (hqueue : (ex, a) ∈ s.scheduled) :
    ∃ continuation detached below body, frames = a :: (below ++ [detached]) ∧
      st.focus = .suspended body ∧ st.executor = some ex ∧
      s.heap.cell a = some (.lazy ⟨root, some continuation, st.executor, .nothing⟩
        (.suspended body)) ∧
      Linked s.heap root st.executor st.callback detached a continuation below st.stack := by
  rcases (h.queued a ha ex).mp hqueue with ⟨hqueued, hhead⟩
  unfold Strand.queuedOn at hqueued
  split at hqueued
  case h_2 => cases hqueued
  case h_1 body hfocus =>
    cases h.shape with
    | atWork b c d below value point hpoint htop hlinked =>
        cases hhead
        rw [hfocus] at hpoint
        cases hpoint
        exact ⟨c, d, below, body, rfl, hfocus, hqueued, htop, hlinked⟩
    | unstarted body' bound hfocus' => rw [hfocus] at hfocus'; cases hfocus'
    | resumed b c continuation d below result rest stack hfocus' =>
        rw [hfocus] at hfocus'; cases hfocus'
    | arrived b d result hfocus' => rw [hfocus] at hfocus'; cases hfocus'
    | last d point' hfocus' => rw [hfocus] at hfocus'; cases hfocus'

/-- A coroutine in {lit}`await_resume` is the second one of its strand, and the first one has
ended. -/
theorem of_resumed (h : Represents s root st frames) (ha : a ∈ frames) {p : Promise ε α ξ}
    {callee : Handle} {rest : Try ε α → Body ε α ω ξ}
    (hcell : s.heap.cell a = some (.lazy p (.resumed callee rest))) :
    ∃ continuation detached below result stack, frames = callee :: a :: (below ++ [detached]) ∧
      st.focus = .resumed result ∧ st.stack = rest :: stack ∧
      s.heap.cell callee = some (.lazy ⟨root, some a, st.executor, result⟩ .done) ∧
      p = ⟨root, some continuation, st.executor, .nothing⟩ ∧
      Linked s.heap root st.executor st.callback detached a continuation below stack := by
  cases h.place ha hcell with
  | resumed _ c d below result _ stack hframes hfocus hstack hcallee hlinked =>
      exact ⟨c, d, below, result, stack, hframes, hfocus, hstack, hcallee, rfl, hlinked⟩
  | atWork c d below value _ hframes hfocus => cases st with
    | mk focus => cases focus <;> cases hfocus

/-- A detached coroutine that is not suspended is the last one of its strand, perhaps with the
{lit}`Lazy` whose result it is going to read. -/
theorem of_detached (h : Represents s root st frames) (ha : a ∈ frames) {callback : Callback}
    {point : DetachedPoint ε α} (hcell : s.heap.cell a = some (.detached root callback point))
    (hpoint : ∀ b, point ≠ .awaiting b) :
    callback = st.callback ∧ st.stack = [] ∧
      ((∃ callee result, point = .resumed callee ∧ frames = [callee, a] ∧
          st.focus = .resumed result ∧
          s.heap.cell callee = some (.lazy ⟨root, some a, st.executor, result⟩ .done)) ∨
        (frames = [a] ∧ st.focus.detachedPoint = some point)) := by
  cases h.place ha hcell with
  | awaitingResult b => exact absurd rfl (hpoint b)
  | arrived b result hframes hfocus hstack hcallee =>
      exact ⟨rfl, hstack, .inl ⟨b, result, rfl, hframes, hfocus, hcallee⟩⟩
  | last _ hframes hfocus hstack => exact ⟨rfl, hstack, .inr ⟨hframes, hfocus⟩⟩

end Represents

/-! ## Queues -/

/-- The handle {lit}`a` is put into the queue of {lit}`ex?` or into none, and nothing else happens
to the queues. -/
structure Requeued (queue queue' : List (ξ × Handle)) (a : Handle) (ex? : Option ξ) : Prop where
  nodup : queue'.Nodup
  self : ∀ ex, (ex, a) ∈ queue' ↔ ex? = some ex
  of_ne : ∀ {b}, b ≠ a → ∀ ex, (ex, b) ∈ queue' ↔ (ex, b) ∈ queue

namespace Requeued

variable {queue : List (ξ × Handle)} {a : Handle}

theorem same (hnodup : queue.Nodup) (ha : ∀ ex, (ex, a) ∉ queue) :
    Requeued queue queue a none :=
  ⟨hnodup, fun ex => ⟨fun hmem => absurd hmem (ha ex), by rintro ⟨⟩⟩, fun _ _ => Iff.rfl⟩

theorem push (hnodup : queue.Nodup) (ha : ∀ ex, (ex, a) ∉ queue) (ex : ξ) :
    Requeued queue (queue ++ [(ex, a)]) a (some ex) := by
  refine ⟨?_, fun ex' => ?_, fun hb ex' => ?_⟩
  · rw [List.nodup_append_comm]
    exact List.nodup_cons.mpr ⟨ha ex, hnodup⟩
  · simp [ha ex', eq_comm]
  · simp [hb]

theorem erase [DecidableEq ξ] (hnodup : queue.Nodup) {ex : ξ}
    (ha : ∀ ex', (ex', a) ∈ queue → ex' = ex) : Requeued queue (queue.erase (ex, a)) a none := by
  refine ⟨hnodup.erase _, fun ex' => ⟨fun hmem => ?_, by rintro ⟨⟩⟩, fun hb ex' => ?_⟩
  · rcases hnodup.mem_erase_iff.mp hmem with ⟨hne, hold⟩
    exact absurd (by rw [ha ex' hold]) hne
  · rw [hnodup.mem_erase_iff]
    simp [hb]

end Requeued

/-! ## The whole heap -/

namespace Agrees

variable {s s' : State ε α ω ξ} {strands : Handle → Option (Strand ε α ω ξ)} {root : Handle}

theorem initial : Agrees (State.initial : State ε α ω ξ) fun _ => none where
  represents := by rintro root st ⟨⟩
  belongs := by rintro a frame ⟨⟩
  queuedNodup := List.nodup_nil
  queuedLive := by rintro ex a ⟨⟩

/-- The strand that a frame belongs to, with its frames. -/
theorem exists_represents (h : Agrees s strands) {a : Handle} {frame : Frame ε α ω ξ}
    (hcell : s.heap.cell a = some frame) :
    ∃ st frames, strands frame.root = some st ∧ Represents s frame.root st frames ∧
      a ∈ frames := by
  rcases Option.ne_none_iff_exists'.mp (h.belongs a frame hcell) with ⟨st, hst⟩
  rcases h.represents _ st hst with ⟨frames, hframes⟩
  exact ⟨st, frames, hst, hframes, hframes.covers a frame hcell rfl⟩

/-- A step that works on the frames of one strand leaves all others alone.  Only frames of this
strand come into the queues or leave them. -/
theorem update (h : Agrees s strands) {st' : Option (Strand ε α ω ξ)}
    (hheap : Heap.SameOn (fun frame => frame.root ≠ root) s.heap s'.heap)
    (hqueue : ∀ a frame, s.heap.cell a = some frame → frame.root ≠ root →
      ∀ ex, (ex, a) ∈ s'.scheduled ↔ (ex, a) ∈ s.scheduled)
    (hnodup : s'.scheduled.Nodup)
    (hlive : ∀ ex a, (ex, a) ∈ s'.scheduled → s'.heap.cell a ≠ none)
    (hcalls : Continues s.calls s'.calls)
    (hsome : ∀ st, st' = some st → ∃ frames, Represents s' root st frames)
    (hnone : st' = none → ∀ a frame, s'.heap.cell a = some frame → frame.root ≠ root) :
    Agrees s' (Function.update strands root st') where
  represents := by
    intro r st hst
    by_cases hr : r = root
    · subst hr
      rw [Function.update_self] at hst
      exact hsome st hst
    · rw [Function.update_of_ne hr] at hst
      rcases h.represents r st hst with ⟨frames, hframes⟩
      refine ⟨frames, hframes.congr (fun a frame hroot => ?_) (fun a ha ex => ?_) hcalls⟩
      · exact hheap a frame (Eq.trans_ne hroot hr)
      · rcases hframes.shape.cell_of_mem ha with ⟨frame, hcell, hroot⟩
        exact hqueue a frame hcell (hroot.trans_ne hr) ex
  belongs := by
    intro a frame hcell
    by_cases hr : frame.root = root
    · rw [hr, Function.update_self]
      intro hst
      exact hnone hst a frame hcell hr
    · rw [Function.update_of_ne hr]
      exact h.belongs a frame ((hheap a frame hr).mp hcell)
  queuedNodup := hnodup
  queuedLive := hlive

/-! ### The coroutine at work -/

/-- Agreement is a matter of the heap, the queues and the coroutines that the calls will resume. -/
theorem congr (h : Agrees s strands) (hheap : s'.heap = s.heap)
    (hqueue : s'.scheduled = s.scheduled) (hcalls : Continues s.calls s'.calls) :
    Agrees s' strands := by
  refine ⟨fun root st hst => ?_, ?_, ?_, ?_⟩
  · rcases h.represents root st hst with ⟨frames, hframes⟩
    refine ⟨frames, hframes.congr ?_ (fun a _ ex => ?_) hcalls⟩
    · rw [hheap]
      exact Heap.SameOn.refl _ _
    · rw [hqueue]
  · rw [hheap]
    exact h.belongs
  · rw [hqueue]
    exact h.queuedNodup
  · rw [hheap, hqueue]
    exact h.queuedLive

/-- The coroutine at work gets to another point and perhaps into a queue or out of it. -/
theorem moveTop (h : Agrees s strands) {st t : Strand ε α ω ξ} {a continuation detached : Handle}
    {frames : List Handle} {value : Try ε α} {point : Point ε α ω ξ}
    (hrep : Represents s root st (a :: (frames ++ [detached])))
    (hcell : s.heap.cell a =
      some (.lazy ⟨root, some continuation, st.executor, value⟩ point))
    (hlinked : Linked s.heap root st.executor st.callback detached a continuation frames st.stack)
    (hwellFormed : t.WellFormed) (hstack : t.stack = st.stack)
    (hexecutor : t.executor = st.executor) (hcallback : t.callback = st.callback)
    {value' : Try ε α} {point' : Point ε α ω ξ} (hfocus : t.focus.point = some (value', point'))
    (hheap : s'.heap =
      s.heap.set a (.lazy ⟨root, some continuation, st.executor, value'⟩ point'))
    (hqueue : Requeued s.scheduled s'.scheduled a t.queuedOn)
    (hcalls : Continues s.calls s'.calls)
    (hwaits : ∀ c rest, t.focus = .collecting c rest →
      ∃ call, s'.calls.cell c = some call ∧ call.continuation = a) :
    Agrees s' (Function.update strands root (some t)) := by
  have ha : a ∉ frames ++ [detached] := (List.nodup_cons.mp hrep.nodup).1
  have hother : ∀ b, b ≠ a → s'.heap.cell b = s.heap.cell b := fun b hb => by
    rw [hheap, Heap.cell_set_of_ne hb]
  have hself : s'.heap.cell a =
      some (.lazy ⟨root, some continuation, st.executor, value'⟩ point') := by
    rw [hheap, Heap.cell_set_self hcell]
  refine h.update ?_ ?_ hqueue.nodup ?_ hcalls ?_ (by rintro ⟨⟩)
  · rw [hheap]
    exact Heap.sameOn_set hcell (fun hroot => hroot rfl) fun hroot => hroot rfl
  · intro b frame hb hroot ex
    refine hqueue.of_ne ?_ ex
    rintro rfl
    rw [hcell] at hb
    cases hb
    exact hroot rfl
  · intro ex b hb
    by_cases hba : b = a
    · rw [hba, hself]
      exact Option.some_ne_none _
    · rw [hother b hba]
      exact h.queuedLive ex b ((hqueue.of_ne hba ex).mp hb)
  · rintro _ ⟨⟩
    refine ⟨a :: (frames ++ [detached]), hwellFormed, ?_, hrep.nodup, ?_, ?_, ?_⟩
    · refine .atWork a continuation detached frames value' point' hfocus ?_ ?_
      · rw [hexecutor]
        exact hself
      · rw [hexecutor, hcallback, hstack]
        exact hlinked.congr fun b hb => hother b fun hba => ha (hba ▸ hb)
    · rw [hheap]
      exact hrep.covers.set List.mem_cons_self _
    · intro b hb ex
      by_cases hba : b = a
      · subst hba
        simp [hqueue.self ex]
      · rw [hqueue.of_ne hba ex, hrep.queued b hb ex]
        simp [Ne.symm hba]
    · intro c rest hcollecting
      rcases hwaits c rest hcollecting with ⟨call, hcall, rfl⟩
      exact ⟨call, hcall, rfl⟩

/-- The coroutine at work does not suspend in {lit}`collectAll`. -/
theorem setTop (h : Agrees s strands) {st t : Strand ε α ω ξ} {a continuation detached : Handle}
    {frames : List Handle} {value : Try ε α} {point : Point ε α ω ξ}
    (hrep : Represents s root st (a :: (frames ++ [detached])))
    (hcell : s.heap.cell a =
      some (.lazy ⟨root, some continuation, st.executor, value⟩ point))
    (hlinked : Linked s.heap root st.executor st.callback detached a continuation frames st.stack)
    (hwellFormed : t.WellFormed) (hstack : t.stack = st.stack)
    (hexecutor : t.executor = st.executor) (hcallback : t.callback = st.callback)
    {value' : Try ε α} {point' : Point ε α ω ξ} (hfocus : t.focus.point = some (value', point'))
    (hheap : s'.heap =
      s.heap.set a (.lazy ⟨root, some continuation, st.executor, value'⟩ point'))
    (hqueue : Requeued s.scheduled s'.scheduled a t.queuedOn)
    (hcalls : Continues s.calls s'.calls)
    (hnot : ¬ t.focus.Collects) : Agrees s' (Function.update strands root (some t)) :=
  h.moveTop hrep hcell hlinked hwellFormed hstack hexecutor hcallback hfocus hheap hqueue hcalls
    fun c rest hcollecting => absurd hcollecting (Focus.ne_collecting hnot c rest)

end Agrees

end Lazy

end AsyncSimple
