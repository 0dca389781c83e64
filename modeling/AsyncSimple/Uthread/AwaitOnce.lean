import AsyncSimple.Uthread.Await

/-!
# A uthread is switched in once

The continuation of the second promise reaches its worker through one queue.  The item is
there once, between the result of the second promise and the moment at which the worker of
that queue takes it.  When this is the worker of the uthread, it has left the uthread by
then.

Main results:

- Theorem {lit}`Inv.step`: where the two continuations are, and which worker calls
  {lit}`switch_in`.
- Theorem {lit}`Home.step`: a uthread that gets its functions back is switched in after it
  has switched out.
- Theorem {lit}`awaitsOnce_iff`: this is the case exactly if the number of the worker is
  below the bit that marks a context.
-/

namespace AsyncSimple

open Transition FutureState SimpleExecutor
open Consumers (Param Fulfilment Outcome value forwarded value_forwarded value_toTry
  forwarded_ne_nothing)

namespace UthreadAwait

variable {ε : Type} {T : Param} {n : Nat}

/-! ## Items in the queues -/

/-- How often the item is in the queues. -/
def State.items (s : State ε T n) (item : Item) : Nat :=
  ∑ q, (s.queue q).items.count item

theorem items_push (s : State ε T n) {id : Nat} (hid : id < n) (x item : Item) :
    (s.push id x).items item = s.items item + if x = item then 1 else 0 := by
  have hsum := sum_update (fun q => q.items.count item) s.queue ⟨id, hid⟩
    ((s.queue ⟨id, hid⟩).push x)
  simp only [Queue.push, List.count_append, List.count_singleton, beq_iff_eq] at hsum
  simp only [State.items, State.push, dif_pos hid]
  simp only [Queue.push]
  omega

theorem mem_push (s : State ε T n) {id : Nat} (hid : id < n) (x item : Item) (q : Fin n)
    (hmem : item ∈ ((s.push id x).queue q).items) :
    item ∈ (s.queue q).items ∨ item = x ∧ q.val = id := by
  simp only [State.push, dif_pos hid] at hmem
  by_cases hq : q = ⟨id, hid⟩
  · subst hq
    simp only [Function.update_self, Queue.push, List.mem_append, List.mem_singleton] at hmem
    rcases hmem with hmem | hmem
    · exact .inl hmem
    · exact .inr ⟨hmem, rfl⟩
  · rw [Function.update_of_ne hq] at hmem
    exact .inl hmem

/-- A push changes the queues and nothing else. -/
theorem push_eq (s : State ε T n) (id : Nat) (x : Item) :
    s.push id x = { s with queue := (s.push id x).queue } := by
  unfold State.push
  split <;> rfl

theorem items_pop (s : State ε T n) {v : Fin n} {x : Item} {queue : Queue Item}
    (hitems : (s.queue v).items = x :: queue.items) (item : Item) :
    s.items item = (∑ q, (Function.update s.queue v queue q).items.count item) +
      if x = item then 1 else 0 := by
  have hsum := sum_update (fun q => q.items.count item) s.queue v queue
  simp only [hitems, List.count_cons, beq_iff_eq] at hsum
  simp only [State.items]
  omega

theorem mem_of_mem_popped {s : State ε T n} {v q : Fin n} {x item : Item} {queue : Queue Item}
    (hitems : (s.queue v).items = x :: queue.items)
    (hmem : item ∈ (Function.update s.queue v queue q).items) : item ∈ (s.queue q).items := by
  by_cases hq : q = v
  · subst hq
    rw [Function.update_self] at hmem
    rw [hitems]
    exact List.mem_cons_of_mem x hmem
  · rwa [Function.update_of_ne hq] at hmem

theorem exists_mem_of_items (s : State ε T n) {item : Item} (h : s.items item ≠ 0) :
    ∃ q, item ∈ (s.queue q).items := by
  by_contra hnone
  refine h (Finset.sum_eq_zero fun q _ => ?_)
  exact List.count_eq_zero.mpr fun hmem => hnone ⟨q, hmem⟩

/-! ## The invariant -/

/-- The uthread has attached its continuation to the second promise. -/
def Pc.attached : Pc ε T → Bool
  | .hasResult | .setContinuation | .done false _ => false
  | _ => true

/-- The call of {lit}`thenTry` has returned. -/
def Pc.passedOn : Pc ε T → Bool
  | .switchOut | .suspended | .check | .done true _ => true
  | _ => false

/-- The uthread is back from {lit}`switch_out`. -/
def Pc.woken : Pc ε T → Bool
  | .check | .done true _ => true
  | _ => false

/-- What the two shared states are and where their continuations wait. -/
structure Shares (t : Try ε T.Inner) (cfg : Config n) (w : Fin n) (s : State ε T n) :
    Prop where
  fut : HandOffInv t () (some 0) cfg.forceSched s.fut
  futContext : s.fut.shared.fs.context =
    cfg.checkedOut.map fun v => (SimpleExecutor.checkout (some v)).toNat
  second : HandOffInv (forwarded T t) () (some 0) true s.second
  secondContext : s.second.shared.fs.context = some (SimpleExecutor.checkout (some w)).toNat
  indirect : s.second.Indirect
  continuations : s.fut.shared.pending = s.items .continuation
  switches : s.second.shared.pending = s.items .switchIn
  pinned : ∀ q, .switchIn ∈ (s.queue q).items → q.val = target w
  switched : s.switchIns.length = s.second.shared.invoked.length
  threads : ∀ e ∈ s.switchIns, ∃ v, e.1 = some v ∧ v.val = target w

/-- How far the uthread and the callback are. -/
structure Inv (t : Try ε T.Inner) (cfg : Config n) (w : Fin n) (s : State ε T n) : Prop where
  shares : Shares t cfg w s
  notRun_iff : s.callback = .notRun ↔ s.fut.shared.invoked = []
  running : ∀ runner t', s.callback = .running runner t' → t' = t
  unset : s.callback = .notRun → s.second.setter () = .check
  ended : s.callback = .ended → s.second.setter () = .returned
  unattached : s.pc.attached = false → s.fut.attacher = .check
  attached : s.pc.attached = true → s.second.attacher = .returned
  passedOn : s.pc.passedOn = true → s.fut.attacher = .returned
  woken : s.pc.woken = true → s.switchIns ≠ []
  outcome : ∀ waited outcome, s.pc = .done waited outcome → outcome = value T t

theorem shares_initial (t : Try ε T.Inner) (cfg : Config n) (w : Fin n) :
    Shares t cfg w (State.initial cfg w) := by
  refine ⟨?_, ?_, ?_, ?_, ⟨rfl, rfl⟩, ?_, ?_, ?_, rfl, ?_⟩
  · cases hout : cfg.checkedOut with
    | none =>
        simp only [State.initial, Config.futureState, hout]
        exact HandOffInv.initial t () (some 0) none cfg.forceSched
    | some v =>
        simp only [State.initial, Config.futureState, hout]
        exact HandOffInv.initial t () (some 0) _ cfg.forceSched
  · cases hout : cfg.checkedOut with
    | none =>
        simp only [State.initial, Config.futureState, hout]
        rfl
    | some v =>
        simp only [State.initial, Config.futureState, hout]
        exact toContext_checkout (some v)
  · exact HandOffInv.initial (forwarded T t) () (some 0) _ true
  · exact toContext_checkout (some w)
  all_goals simp [State.initial, State.items, Queue.empty, System.initial]

theorem Inv.initial (t : Try ε T.Inner) (cfg : Config n) (w : Fin n) :
    Inv t cfg w (State.initial cfg w) := by
  refine ⟨shares_initial t cfg w, ⟨fun _ => rfl, fun _ => rfl⟩, ?_, fun _ => rfl, ?_,
    fun _ => rfl, ?_, ?_, ?_, ?_⟩ <;>
    simp [State.initial, Pc.attached, Pc.passedOn, Pc.woken]

/-! ## Moves of the future -/

section Future

variable {t : Try ε T.Inner} {cfg : Config n} {w : Fin n} {s s' : State ε T n}

/-- The queue that a submission goes to exists. -/
theorem placement_lt (hn : n < 2 ^ 31) {fs : FutureState ε T.Inner Unit}
    {checkedOut : Option (Fin n)}
    (hcontext : fs.context = checkedOut.map fun v => (SimpleExecutor.checkout (some v)).toNat)
    (current : Option (Fin n)) (choice : Fin n) {id : Nat}
    (hplace : placement current choice (route fs) = .queue id) :
    id < n ∧ ∀ v, checkedOut = some v → id = target v := by
  cases checkedOut with
  | none =>
      have hroute : route fs = .schedule := by simp [route, hcontext]
      rw [hroute] at hplace
      cases hplace
      exact ⟨choice.isLt, by simp⟩
  | some v =>
      have hroute : route fs =
          .checkin (SimpleExecutor.checkout (some v)).toNat (!fs.forceSched) := by
        simp [route, hcontext]
      have hid : id = target v := by
        rw [hroute] at hplace
        simp only [placement, SimpleExecutor.checkin, BitVec.ofNat_toNat,
          BitVec.setWidth_eq] at hplace
        split at hplace
        · cases hplace
        · cases hplace
          rfl
      refine ⟨by rw [hid]; exact target_lt v hn, ?_⟩
      rintro u hu
      cases hu
      exact hid

/-- How the future and the callback look after a move. -/
structure FutMove (t : Try ε T.Inner) (cfg : Config n) (s : State ε T n)
    (fut fut' : System Unit ε T.Inner Unit) (callback : CallbackPc ε T n) : Prop where
  handOff : HandOffInv t () (some 0) cfg.forceSched fut'
  context : fut'.shared.fs.context = s.fut.shared.fs.context
  attacher : fut'.attacher = fut.attacher
  rank : fut'.rank ≤ fut.rank
  callback : fut'.shared.invoked = s.fut.shared.invoked ∧ callback = s.callback ∨
    s.fut.shared.invoked = [] ∧ fut'.shared.invoked ≠ [] ∧ ∃ runner, callback = .running runner t

theorem callbackAfter_eq {fut : System Unit ε T.Inner Unit} (runner : Runner n)
    (hinvoked : fut.shared.invoked = s.fut.shared.invoked ∨
      s.fut.shared.invoked = [] ∧ fut.shared.invoked = [(some (), t)]) :
    fut.shared.invoked = s.fut.shared.invoked ∧ callbackAfter s fut runner = s.callback ∨
      s.fut.shared.invoked = [] ∧ fut.shared.invoked ≠ [] ∧
        ∃ runner', callbackAfter s fut runner = .running runner' t := by
  rcases hinvoked with hsame | ⟨hnone, honce⟩
  · exact .inl ⟨hsame, by simp [callbackAfter, hsame]⟩
  · exact .inr ⟨hnone, by simp [honce], runner, by simp [callbackAfter, hnone, honce]⟩

/-- A move of the promise side or of {lit}`thenTry` leaves the queues alone, or puts the
continuation into one of them. -/
theorem Shares.futMoved (h : Shares t cfg w s) (hn : n < 2 ^ 31) {l : FutureState.Label Unit}
    (hl : l.accepts = true) {fut : System Unit ε T.Inner Unit}
    (hstep : FutureState.step (fun _ => t) () s.fut l = some fut) (runner : Runner n)
    (current : Option (Fin n)) (choice : Fin n) :
    (∃ fut' callback, FutMove t cfg s fut fut' callback ∧
        fut'.shared.pending = s.fut.shared.pending ∧
        s.futMoved fut runner current choice = { s with fut := fut', callback := callback }) ∨
      ∃ id, id < n ∧ FutMove t cfg s fut fut s.callback ∧
        fut.shared.pending = s.fut.shared.pending + 1 ∧
        s.futMoved fut runner current choice =
          State.push { s with fut := fut } id .continuation := by
  have hfut := h.fut.step hstep
  have hcontext := step_context hstep
  unfold State.futMoved
  split
  · next hpending =>
      exact .inl ⟨fut, _, ⟨hfut, hcontext, rfl, Nat.le_refl _,
        callbackAfter_eq runner (h.fut.invoked_step hstep)⟩, hpending, rfl⟩
  · next hpending =>
      rcases step_pending hl hstep with hsame | ⟨hgrown, hinvoked⟩
      · exact absurd hsame hpending
      split
      · next id hplace =>
          have hid := placement_lt hn (hcontext.trans h.futContext) current choice hplace
          exact .inr ⟨id, hid.1,
            ⟨hfut, hcontext, rfl, Nat.le_refl _, .inl ⟨hinvoked, rfl⟩⟩, hgrown, rfl⟩
      · split
        · next fut' hrun =>
            have hrun' : FutureState.step (fun _ => t) () fut .runTask = some fut' := hrun
            rcases step_runTask hrun' with ⟨hpending', hsetter, hattacher, hfs, -⟩
            have hstep' := hfut.invoked_step hrun'
            rw [hinvoked] at hstep'
            have hrank : fut'.rank ≤ fut.rank := by
              simp only [System.rank, hsetter, hattacher]
              omega
            exact .inl ⟨fut', _, ⟨hfut.step hrun', by rw [hfs]; exact hcontext, hattacher, hrank,
              callbackAfter_eq runner hstep'⟩, by omega, rfl⟩
        · next hnone =>
            -- the task that has just been accepted can run
            rcases HandOffInv.exists_runTask (v := t) (k := ()) (s := fut) (by omega) with
              ⟨fut', hrun, -⟩
            rw [show FutureState.step (fun _ => .nothing) () fut .runTask = some fut' from hrun]
              at hnone
            cases hnone

/-- The future and its continuation have moved. -/
theorem Inv.setFut (h : Inv t cfg w s) {fut fut' : System Unit ε T.Inner Unit}
    {callback : CallbackPc ε T n} {queue : Fin n → Queue Item}
    (hmove : FutMove t cfg s fut fut' callback)
    (hattacher : fut.attacher = s.fut.attacher ∨ s.pc = .thenTry)
    (hcontinuations : fut'.shared.pending = ∑ q, (queue q).items.count .continuation)
    (hswitches : ∑ q, (queue q).items.count .switchIn = s.items .switchIn)
    (hpinned : ∀ q, .switchIn ∈ (queue q).items → .switchIn ∈ (s.queue q).items) :
    Inv t cfg w { s with queue := queue, fut := fut', callback := callback } := by
  have hkeeps : ∀ pc, s.fut.attacher = pc → s.pc ≠ .thenTry → fut'.attacher = pc := by
    intro pc hpc hne
    rcases hattacher with hsame | hthenTry
    · rw [hmove.attacher, hsame, hpc]
    · exact absurd hthenTry hne
  refine ⟨{ h.shares with
      fut := hmove.handOff
      futContext := hmove.context.trans h.shares.futContext
      continuations := hcontinuations
      switches := h.shares.switches.trans hswitches.symm
      pinned := fun q hq => h.shares.pinned q (hpinned q hq) }, ?_, ?_, ?_, ?_, ?_, h.attached, ?_,
    h.woken, h.outcome⟩
  · rcases hmove.callback with ⟨hinvoked, hcallback⟩ | ⟨-, hinvoked, runner, hcallback⟩
    · simp only [hinvoked, hcallback]
      exact h.notRun_iff
    · simp [hinvoked, hcallback]
  · intro runner t' hrunning
    rcases hmove.callback with ⟨-, hcallback⟩ | ⟨-, -, runner', hcallback⟩
    · exact h.running runner t' (hcallback ▸ hrunning)
    · simp only [hcallback, CallbackPc.running.injEq] at hrunning
      exact hrunning.2.symm
  · intro hnotRun
    rcases hmove.callback with ⟨-, hcallback⟩ | ⟨-, -, runner', hcallback⟩
    · exact h.unset (hcallback ▸ hnotRun)
    · simp [hcallback] at hnotRun
  · intro hended
    rcases hmove.callback with ⟨-, hcallback⟩ | ⟨-, -, runner', hcallback⟩
    · exact h.ended (hcallback ▸ hended)
    · simp [hcallback] at hended
  · intro hattached
    exact hkeeps _ (h.unattached hattached) (by rintro hpc; simp [hpc, Pc.attached] at hattached)
  · intro hpassedOn
    exact hkeeps _ (h.passedOn hpassedOn) (by rintro hpc; simp [hpc, Pc.passedOn] at hpassedOn)

theorem Inv.futMoved (h : Inv t cfg w s) (hn : n < 2 ^ 31) {l : FutureState.Label Unit}
    (hl : l.accepts = true) {fut : System Unit ε T.Inner Unit}
    (hstep : FutureState.step (fun _ => t) () s.fut l = some fut)
    (hattacher : fut.attacher = s.fut.attacher ∨ s.pc = .thenTry) (runner : Runner n)
    (current : Option (Fin n)) (choice : Fin n) :
    Inv t cfg w (s.futMoved fut runner current choice) := by
  rcases h.shares.futMoved hn hl hstep runner current choice with
    ⟨fut', callback, hmove, hpending, heq⟩ | ⟨id, hid, hmove, hpending, heq⟩
  · rw [heq]
    exact h.setFut hmove hattacher (hpending.trans h.shares.continuations) rfl fun _ hq => hq
  · rw [heq, push_eq]
    refine h.setFut hmove hattacher ?_ ?_ ?_
    · have hitems := items_push { s with fut := fut } hid .continuation .continuation
      have hcount := h.shares.continuations
      simp only [if_true] at hitems
      exact hpending.trans (by rw [hcount]; exact hitems.symm)
    · exact items_push { s with fut := fut } hid .continuation .switchIn
    · intro q hq
      rcases mem_push { s with fut := fut } hid .continuation .switchIn q hq with hmem | ⟨hne, -⟩
      · exact hmem
      · cases hne

end Future

/-! ## Moves of the second promise -/

section Second

variable {t : Try ε T.Inner} {cfg : Config n} {w : Fin n} {s s' : State ε T n}

/-- A call on the second state leaves its continuation alone or puts it into the queue of
one worker. -/
theorem Shares.secondMoved (h : Shares t cfg w s) {l : FutureState.Label Unit}
    (hl : l.accepts = true) {second : System Unit ε T.Inner Unit}
    (hstep : FutureState.step (fun _ => forwarded T t) () s.second l = some second)
    (current : Option (Fin n)) (choice : Fin n) :
    second.shared.invoked = s.second.shared.invoked ∧
      (second.shared.pending = s.second.shared.pending ∧
          s.secondMoved second current choice = { s with second := second } ∨
        second.shared.pending = s.second.shared.pending + 1 ∧
          s.secondMoved second current choice =
            State.push { s with second := second } (target w) .switchIn) := by
  have hinvoked := (step_forced hl h.second.2.forceSched_eq h.indirect hstep).2
  refine ⟨hinvoked, ?_⟩
  unfold State.secondMoved
  rw [if_neg (by simp [hinvoked])]
  split
  · next hpending => exact .inl ⟨hpending, rfl⟩
  · next hpending =>
      have hroute : route second.shared.fs =
          .checkin (SimpleExecutor.checkout (some w)).toNat false := by
        simp [route, (step_context hstep).trans h.secondContext,
          (h.second.step hstep).2.forceSched_eq]
      have hplace : placement current choice (route second.shared.fs) = .queue (target w) := by
        simp [hroute, placement, target]
      rcases step_pending hl hstep with hsame | ⟨hgrown, -⟩
      · exact absurd hsame hpending
      · rw [hplace]
        exact .inr ⟨hgrown, rfl⟩

/-- The second shared state has moved. -/
theorem Inv.setSecond (h : Inv t cfg w s) {l : FutureState.Label Unit} (hl : l.accepts = true)
    {second : System Unit ε T.Inner Unit}
    (hstep : FutureState.step (fun _ => forwarded T t) () s.second l = some second)
    {queue : Fin n → Queue Item} (hsetter : s.callback = .notRun → second.setter () = .check)
    (hended : s.callback ≠ .ended ∨ second.setter = s.second.setter)
    (hattacher : s.pc.attached = true → second.attacher = .returned)
    (hcontinuations : ∑ q, (queue q).items.count .continuation = s.items .continuation)
    (hswitches : second.shared.pending = ∑ q, (queue q).items.count .switchIn)
    (hpinned : ∀ q, .switchIn ∈ (queue q).items → q.val = target w) :
    Inv t cfg w { s with queue := queue, second := second } := by
  rcases step_forced hl h.shares.second.2.forceSched_eq h.shares.indirect hstep with
    ⟨hindirect, hinvoked⟩
  refine ⟨{ h.shares with
      second := h.shares.second.step hstep
      secondContext := (step_context hstep).trans h.shares.secondContext
      indirect := hindirect
      continuations := h.shares.continuations.trans hcontinuations.symm
      switches := hswitches
      pinned := hpinned
      switched := by simp only [hinvoked]; exact h.shares.switched }, h.notRun_iff, h.running,
    hsetter, ?_, h.unattached, hattacher, h.passedOn, h.woken, h.outcome⟩
  intro hpc
  rcases hended with hnot | hsame
  · exact absurd hpc hnot
  · simp only [hsame]
    exact h.ended hpc

theorem Inv.secondMoved (h : Inv t cfg w s) (hn : n < 2 ^ 31) {l : FutureState.Label Unit}
    (hl : l.accepts = true) {second : System Unit ε T.Inner Unit}
    (hstep : FutureState.step (fun _ => forwarded T t) () s.second l = some second)
    (hsetter : s.callback = .notRun → second.setter () = .check)
    (hended : s.callback ≠ .ended ∨ second.setter = s.second.setter)
    (hattacher : s.pc.attached = true → second.attacher = .returned)
    (current : Option (Fin n)) (choice : Fin n) :
    Inv t cfg w (s.secondMoved second current choice) := by
  rcases (h.shares.secondMoved hl hstep current choice).2 with
    ⟨hpending, heq⟩ | ⟨hpending, heq⟩
  · rw [heq]
    exact h.setSecond hl hstep hsetter hended hattacher rfl
      (hpending.trans h.shares.switches) h.shares.pinned
  · have hid := target_lt w hn
    rw [heq, push_eq]
    refine h.setSecond hl hstep hsetter hended hattacher ?_ ?_ ?_
    · exact items_push { s with second := second } hid .switchIn .continuation
    · have hitems := items_push { s with second := second } hid .switchIn .switchIn
      have hcount := h.shares.switches
      simp only [if_true] at hitems
      exact hpending.trans (by rw [hcount]; exact hitems.symm)
    · intro q hq
      rcases mem_push { s with second := second } hid .switchIn .switchIn q hq with hmem | ⟨-, hq⟩
      · exact h.shares.pinned q hmem
      · exact hq

end Second

/-! ## Moves of a worker -/

/-- What {lit}`switch_in` makes of the uthread. -/
theorem switchIn_eq (s : State ε T n) (v : Fin n) :
    s.pc = .suspended ∧ s.switchIn (some v) = { s with
        pc := .check
        home := some v
        worker := Function.update s.worker v .uthread
        switchIns := s.switchIns ++ [(some v, true)] } ∨
      s.pc ≠ .suspended ∧
        s.switchIn (some v) = { s with switchIns := s.switchIns ++ [(some v, false)] } := by
  unfold State.switchIn
  split
  · next hpc => exact .inl ⟨hpc, rfl⟩
  · next hpc => exact .inr ⟨hpc, rfl⟩

/-- What a worker can do in one step. -/
inductive WorkerMove (s : State ε T n) (v : Fin n) : State ε T n → Prop where
  | other (queue : Queue Item) (hidle : s.worker v = .idle)
      (hitems : (s.queue v).items = .other :: queue.items) :
      WorkerMove s v { s with
        queue := Function.update s.queue v queue
        worker := Function.update s.worker v .busy }
  | continuation (queue : Queue Item) (fut : System Unit ε T.Inner Unit)
      (hidle : s.worker v = .idle) (hitems : (s.queue v).items = .continuation :: queue.items)
      (hrun : FutureState.step (fun _ => .nothing) () s.fut .runTask = some fut) :
      WorkerMove s v { s with
        queue := Function.update s.queue v queue
        worker := Function.update s.worker v .busy
        fut := fut
        callback := callbackAfter s fut (.worker v) }
  /-- the uthread goes on inside the worker -/
  | wakes (queue : Queue Item) (second : System Unit ε T.Inner Unit)
      (hidle : s.worker v = .idle) (hitems : (s.queue v).items = .switchIn :: queue.items)
      (hrun : FutureState.step (fun _ => .nothing) () s.second .runTask = some second)
      (hpc : s.pc = .suspended) :
      WorkerMove s v { s with
        queue := Function.update s.queue v queue
        worker := Function.update (Function.update s.worker v .busy) v .uthread
        home := some v
        pc := .check
        second := second
        switchIns := s.switchIns ++ [(some v, true)] }
  /-- the uthread is not suspended when it is switched in -/
  | ignored (queue : Queue Item) (second : System Unit ε T.Inner Unit)
      (hidle : s.worker v = .idle) (hitems : (s.queue v).items = .switchIn :: queue.items)
      (hrun : FutureState.step (fun _ => .nothing) () s.second .runTask = some second)
      (hpc : s.pc ≠ .suspended) :
      WorkerMove s v { s with
        queue := Function.update s.queue v queue
        worker := Function.update s.worker v .busy
        second := second
        switchIns := s.switchIns ++ [(some v, false)] }
  | returns (hbusy : s.worker v = .busy) :
      WorkerMove s v { s with worker := Function.update s.worker v .idle }

theorem workerMove_of_workerStep {s s' : State ε T n} {v : Fin n}
    (hstep : workerStep s v = some s') : WorkerMove s v s' := by
  simp only [workerStep] at hstep
  split at hstep
  · next hidle =>
      split at hstep
      · next x queue hpop =>
          have hitems := (Queue.pop_eq_item hpop).1
          cases x with
          | other =>
              cases hstep
              exact .other queue hidle hitems
          | continuation =>
              simp only [State.execute, Option.map_eq_some_iff] at hstep
              rcases hstep with ⟨fut, hrun, rfl⟩
              exact .continuation queue fut hidle hitems hrun
          | switchIn =>
              simp only [State.execute, Option.map_eq_some_iff] at hstep
              rcases hstep with ⟨second, hrun, rfl⟩
              rcases switchIn_eq { s with
                queue := Function.update s.queue v queue
                worker := Function.update s.worker v .busy
                second := second } v with ⟨hpc, heq⟩ | ⟨hpc, heq⟩
              · rw [heq]
                exact .wakes queue second hidle hitems hrun hpc
              · rw [heq]
                exact .ignored queue second hidle hitems hrun hpc
      · cases hstep
  · next hbusy =>
      split at hstep
      · cases hstep
      · cases hstep
        exact .returns hbusy
  · cases hstep

/-! ## Steps of the parties -/

namespace Inv

variable {t : Try ε T.Inner} {cfg : Config n} {w : Fin n} {s s' : State ε T n}

/-- The uthread goes to another program point. -/
theorem setPc (h : Inv t cfg w s) {pc : Pc ε T} {worker : Fin n → Worker}
    (hunattached : pc.attached = false → s.fut.attacher = .check)
    (hattached : pc.attached = true → s.second.attacher = .returned)
    (hpassedOn : pc.passedOn = true → s.fut.attacher = .returned)
    (hwoken : pc.woken = true → s.switchIns ≠ [])
    (houtcome : ∀ waited outcome, pc = .done waited outcome → outcome = value T t) :
    Inv t cfg w { s with pc := pc, worker := worker } :=
  ⟨{ h.shares with }, h.notRun_iff, h.running, h.unset, h.ended, hunattached, hattached,
    hpassedOn, hwoken, houtcome⟩

/-- A result that has been seen is that of the promise. -/
theorem second_hasResult (h : Inv t cfg w s) (hwoken : s.pc.woken = true) :
    s.second.shared.fs.state.hasResult = true := by
  have hinvoked : s.second.shared.invoked ≠ [] := by
    intro hnone
    have hlength := h.shares.switched
    rw [hnone, List.length_nil, List.length_eq_zero_iff] at hlength
    exact h.woken hwoken hlength
  rw [h.shares.second.done_of_invoked hinvoked]
  rfl

theorem main (h : Inv t cfg w s) (hn : n < 2 ^ 31) {choice : Fin n}
    (hstep : mainStep s choice = some s') : Inv t cfg w s' := by
  simp only [mainStep] at hstep
  split at hstep
  · next hpc =>
      have hcheck := h.unattached (by rw [hpc]; rfl)
      split at hstep
      · next hresult =>
          cases hstep
          refine h.setPc (fun _ => hcheck) (by simp [Pc.attached]) (by simp [Pc.passedOn])
            (by simp [Pc.woken]) ?_
          rintro waited outcome hdone
          cases hdone
          rw [h.shares.fut.tryValue_of_hasResult hresult]
      · cases hstep
        exact h.setPc (fun _ => hcheck) (by simp [Pc.attached]) (by simp [Pc.passedOn])
          (by simp [Pc.woken]) (by simp)
  · next hpc =>
      split at hstep
      · next hreturned =>
          cases hstep
          exact h.setPc (by simp [Pc.attached]) (fun _ => hreturned) (by simp [Pc.passedOn])
            (by simp [Pc.woken]) (by simp)
      · rw [Option.map_eq_some_iff] at hstep
        rcases hstep with ⟨second, hmove, rfl⟩
        have hmove' : FutureState.step (fun _ => forwarded T t) () s.second
            (.setContinuation ⟨true, true⟩) = some second := hmove
        have hsetter : second.setter = s.second.setter := by
          simp only [FutureState.step, Option.map_eq_some_iff] at hmove
          rcases hmove with ⟨⟨sh, pc⟩, -, rfl⟩
          rfl
        exact h.secondMoved hn rfl hmove' (fun hnotRun => by rw [hsetter]; exact h.unset hnotRun)
          (.inr hsetter) (by simp [hpc, Pc.attached]) s.home choice
  · next hpc =>
      split at hstep
      · cases hstep
      · split at hstep
        · next hreturned =>
            cases hstep
            exact h.setPc (by simp [Pc.attached]) (fun _ => h.attached (by rw [hpc]; rfl))
              (fun _ => hreturned) (by simp [Pc.woken]) (by simp)
        · rw [Option.map_eq_some_iff] at hstep
          rcases hstep with ⟨fut, hmove, rfl⟩
          exact h.futMoved hn (l := .setContinuation ⟨true, true⟩) rfl hmove (.inr hpc) .attacher
            s.home choice
  · next hpc =>
      cases hstep
      exact h.setPc (by simp [Pc.attached]) (fun _ => h.attached (by rw [hpc]; rfl))
        (fun _ => h.passedOn (by rw [hpc]; rfl)) (by simp [Pc.woken]) (by simp)
  · cases hstep
  · next hpc =>
      have hresult := h.second_hasResult (by rw [hpc]; rfl)
      rw [if_pos hresult] at hstep
      cases hstep
      refine h.setPc (by simp [Pc.attached]) (fun _ => h.attached (by rw [hpc]; rfl))
        (fun _ => h.passedOn (by rw [hpc]; rfl)) (fun _ => h.woken (by rw [hpc]; rfl)) ?_
      rintro waited outcome hdone
      cases hdone
      rw [h.shares.second.tryValue_of_hasResult hresult, value_forwarded]
  · cases hstep

theorem callbackMoves (h : Inv t cfg w s) (hn : n < 2 ^ 31) {choice : Fin n}
    (hstep : callbackStep cfg s choice = some s') : Inv t cfg w s' := by
  simp only [callbackStep] at hstep
  split at hstep
  · cases hstep
  · cases hstep
  · next runner t' hcallback =>
      cases h.running runner t' hcallback
      split at hstep
      · next hreturned =>
          cases hstep
          refine ⟨{ h.shares with }, ?_, by simp, by simp, fun _ => hreturned, h.unattached,
            h.attached, h.passedOn, h.woken, h.outcome⟩
          have hiff := h.notRun_iff
          rw [hcallback] at hiff
          simpa using hiff
      · rw [Option.map_eq_some_iff] at hstep
        rcases hstep with ⟨second, hmove, rfl⟩
        have hattacher : second.attacher = s.second.attacher := by
          rcases step_attacher hmove with hsame | ⟨answer, hl⟩
          · exact hsame
          · cases hl
        exact h.secondMoved hn rfl hmove (by simp [hcallback]) (.inl (by simp [hcallback]))
          (fun hattached => hattacher.trans (h.attached hattached)) _ choice

theorem setterMoves (h : Inv t cfg w s) (hn : n < 2 ^ 31) {choice : Fin n}
    (hstep : setterStep t cfg s choice = some s') : Inv t cfg w s' := by
  simp only [setterStep, Option.map_eq_some_iff] at hstep
  rcases hstep with ⟨fut, hmove, rfl⟩
  have hattacher : fut.attacher = s.fut.attacher := by
    rcases step_attacher hmove with hsame | ⟨answer, hl⟩
    · exact hsame
    · cases hl
  exact h.futMoved hn rfl hmove (.inl hattacher) .setter cfg.setter choice

/-- A worker calls {lit}`switch_in`. -/
theorem switched (h : Inv t cfg w s) {v : Fin n} {queue : Queue Item}
    (hitems : (s.queue v).items = .switchIn :: queue.items) {second : System Unit ε T.Inner Unit}
    (hrun : FutureState.step (fun _ => forwarded T t) () s.second .runTask = some second)
    {worker : Fin n → Worker} {home : Option (Fin n)} {pc : Pc ε T} {suspended : Bool}
    (hpc : pc = s.pc ∨ s.pc = .suspended ∧ pc = .check) :
    Inv t cfg w { s with
      queue := Function.update s.queue v queue
      worker := worker
      home := home
      pc := pc
      second := second
      switchIns := s.switchIns ++ [(some v, suspended)] } := by
  have hv := h.shares.pinned v (by rw [hitems]; exact List.mem_cons_self)
  have hcontinuations := items_pop s hitems .continuation
  have hswitches := items_pop s hitems .switchIn
  simp only [reduceCtorEq, if_false, if_true, Nat.add_zero] at hcontinuations hswitches
  rcases step_runTask hrun with ⟨hpending, hsetter, hattacher, hfs, hinvoked⟩
  refine ⟨{ h.shares with
      second := h.shares.second.step hrun
      secondContext := by rw [hfs]; exact h.shares.secondContext
      indirect := ?_
      continuations := h.shares.continuations.trans hcontinuations
      switches := ?_
      pinned := fun q hq => h.shares.pinned q (mem_of_mem_popped hitems hq)
      switched := ?_
      threads := ?_ }, h.notRun_iff, h.running, ?_, ?_, ?_, ?_, ?_, by simp, ?_⟩
  · exact ⟨by rw [hsetter]; exact h.shares.indirect.1, by rw [hattacher]; exact h.shares.indirect.2⟩
  · have hcount := h.shares.switches
    simp only [State.items] at hcount hswitches ⊢
    omega
  · simp only [hinvoked, List.length_append, List.length_cons, List.length_nil]
    rw [h.shares.switched]
  · intro e he
    rcases List.mem_append.mp he with he | he
    · exact h.shares.threads e he
    · rw [List.mem_singleton.mp he]
      exact ⟨v, rfl, hv⟩
  · rw [hsetter]
    exact h.unset
  · rw [hsetter]
    exact h.ended
  · rcases hpc with rfl | ⟨-, rfl⟩
    · exact h.unattached
    · simp [Pc.attached]
  · simp only [hattacher]
    rcases hpc with rfl | ⟨hsuspended, rfl⟩
    · exact h.attached
    · exact fun _ => h.attached (by rw [hsuspended]; rfl)
  · rcases hpc with rfl | ⟨hsuspended, rfl⟩
    · exact h.passedOn
    · exact fun _ => h.passedOn (by rw [hsuspended]; rfl)
  · rcases hpc with rfl | ⟨-, rfl⟩
    · exact h.outcome
    · simp

theorem worker (h : Inv t cfg w s) {v : Fin n} (hmove : WorkerMove s v s') : Inv t cfg w s' := by
  have hsetWorker : ∀ {s : State ε T n}, Inv t cfg w s → ∀ worker,
      Inv t cfg w { s with worker := worker } := fun h worker =>
    h.setPc h.unattached h.attached h.passedOn h.woken h.outcome
  cases hmove with
  | other queue hidle hitems =>
      have hcount := items_pop s hitems
      have hmove : FutMove t cfg s s.fut s.fut s.callback :=
        ⟨h.shares.fut, rfl, rfl, Nat.le_refl _, .inl ⟨rfl, rfl⟩⟩
      refine hsetWorker (h.setFut hmove (.inl rfl) ?_ ?_ fun _ => mem_of_mem_popped hitems) _
      · exact h.shares.continuations.trans (by simpa using hcount .continuation)
      · simpa using (hcount .switchIn).symm
  | continuation queue fut hidle hitems hrun =>
      have hcount := items_pop s hitems
      have hrun' : FutureState.step (fun _ => t) () s.fut .runTask = some fut := hrun
      rcases step_runTask hrun' with ⟨hpending, -, hattacher, hfs, -⟩
      have hmove : FutMove t cfg s fut fut (callbackAfter s fut (.worker v)) :=
        ⟨h.shares.fut.step hrun', by rw [hfs], rfl, Nat.le_refl _,
          callbackAfter_eq (.worker v) (h.shares.fut.invoked_step hrun')⟩
      refine hsetWorker (h.setFut hmove (.inl hattacher) ?_ ?_ fun _ => mem_of_mem_popped hitems) _
      · have htask := hcount .continuation
        have hcontinuations := h.shares.continuations
        simp only [if_true] at htask
        omega
      · simpa using (hcount .switchIn).symm
  | wakes queue second hidle hitems hrun hpc =>
      have hrun' : FutureState.step (fun _ => forwarded T t) () s.second .runTask = some second :=
        hrun
      exact h.switched hitems hrun' (.inr ⟨hpc, rfl⟩)
  | ignored queue second hidle hitems hrun hpc =>
      have hrun' : FutureState.step (fun _ => forwarded T t) () s.second .runTask = some second :=
        hrun
      exact h.switched hitems hrun' (.inl rfl)
  | returns hbusy => exact hsetWorker h _

theorem schedule (h : Inv t cfg w s) (v : Fin n) : Inv t cfg w (s.push v.val .other) := by
  rw [push_eq]
  have hmove : FutMove t cfg s s.fut s.fut s.callback :=
    ⟨h.shares.fut, rfl, rfl, Nat.le_refl _, .inl ⟨rfl, rfl⟩⟩
  refine h.setFut hmove (.inl rfl) ?_ ?_ ?_
  · exact h.shares.continuations.trans (items_push s v.isLt .other .continuation).symm
  · exact items_push s v.isLt .other .switchIn
  · intro q hq
    rcases mem_push s v.isLt .other .switchIn q hq with hmem | ⟨hne, -⟩
    · exact hmem
    · cases hne

theorem step (h : Inv t cfg w s) (hn : n < 2 ^ 31) {l : Label n}
    (hstep : UthreadAwait.step t cfg s l = some s') : Inv t cfg w s' := by
  cases l with
  | main choice => exact h.main hn hstep
  | callback choice => exact h.callbackMoves hn hstep
  | setter choice =>
      simp only [UthreadAwait.step, Option.ite_none_right_eq_some] at hstep
      exact h.setterMoves hn hstep.2
  | worker v => exact h.worker (workerMove_of_workerStep hstep)
  | schedule v =>
      cases hstep
      exact h.schedule v

end Inv

/-! ## The uthread on its own worker -/

def Pc.isSuspended : Pc ε T → Bool
  | .suspended => true
  | _ => false

/-- The uthread is executed by the worker {lit}`w`, and by nobody else. -/
structure Home (w : Fin n) (s : State ε T n) : Prop where
  home : s.home = some w
  uthread_iff : ∀ v, s.worker v = .uthread ↔ v = w ∧ s.pc.isSuspended = false
  switchIns_eq : s.switchIns = if s.pc.woken then [(some w, true)] else []

namespace Home

variable {t : Try ε T.Inner} {cfg : Config n} {w : Fin n} {s s' : State ε T n}

theorem initial (cfg : Config n) (w : Fin n) : Home w (State.initial cfg w : State ε T n) := by
  refine ⟨rfl, fun v => ?_, rfl⟩
  by_cases hv : v = w
  · subst hv
    simp [State.initial, Pc.isSuspended]
  · simp [State.initial, hv]

theorem congr (h : Home w s) (hhome : s'.home = s.home) (hworker : s'.worker = s.worker)
    (hsuspended : s'.pc.isSuspended = s.pc.isSuspended) (hwoken : s'.pc.woken = s.pc.woken)
    (hswitchIns : s'.switchIns = s.switchIns) : Home w s' :=
  ⟨hhome.trans h.home, by rw [hworker, hsuspended]; exact h.uthread_iff,
    by rw [hswitchIns, hwoken]; exact h.switchIns_eq⟩

/-- A worker that does not execute the uthread does something else. -/
theorem setWorker (h : Home w s) {v : Fin n} {x : Worker} (hv : s.worker v ≠ .uthread)
    (hx : x ≠ .uthread) : Home w { s with worker := Function.update s.worker v x } := by
  refine ⟨h.home, fun u => ?_, h.switchIns_eq⟩
  by_cases hu : u = v
  · subst hu
    have hnot := (not_congr (h.uthread_iff u)).mp hv
    simp only [Function.update_self]
    exact iff_of_false hx hnot
  · simp only [Function.update_of_ne hu]
    exact h.uthread_iff u

theorem push (h : Home w s) (id : Nat) (x : Item) : Home w (s.push id x) := by
  rw [push_eq]
  exact h.congr rfl rfl rfl rfl rfl

theorem futMoved (h : Home w s) (hinv : Inv t cfg w s) (hn : n < 2 ^ 31)
    {l : FutureState.Label Unit} (hl : l.accepts = true) {fut : System Unit ε T.Inner Unit}
    (hstep : FutureState.step (fun _ => t) () s.fut l = some fut) (runner : Runner n)
    (current : Option (Fin n)) (choice : Fin n) :
    Home w (s.futMoved fut runner current choice) := by
  rcases hinv.shares.futMoved hn hl hstep runner current choice with
    ⟨fut', callback, -, -, heq⟩ | ⟨id, -, -, -, heq⟩
  · rw [heq]
    exact h.congr rfl rfl rfl rfl rfl
  · rw [heq]
    exact Home.push (s := { s with fut := fut }) (h.congr rfl rfl rfl rfl rfl) id _

theorem secondMoved (h : Home w s) (hinv : Inv t cfg w s) {l : FutureState.Label Unit}
    (hl : l.accepts = true) {second : System Unit ε T.Inner Unit}
    (hstep : FutureState.step (fun _ => forwarded T t) () s.second l = some second)
    (current : Option (Fin n)) (choice : Fin n) :
    Home w (s.secondMoved second current choice) := by
  rcases (hinv.shares.secondMoved hl hstep current choice).2 with ⟨-, heq⟩ | ⟨-, heq⟩
  · rw [heq]
    exact h.congr rfl rfl rfl rfl rfl
  · rw [heq]
    exact Home.push (s := { s with second := second }) (h.congr rfl rfl rfl rfl rfl) _ _

theorem main (h : Home w s) (hinv : Inv t cfg w s) (hn : n < 2 ^ 31) {choice : Fin n}
    (hstep : mainStep s choice = some s') : Home w s' := by
  simp only [mainStep] at hstep
  split at hstep
  · next hpc =>
      split at hstep <;> cases hstep <;>
        exact h.congr rfl rfl (by rw [hpc]; rfl) (by rw [hpc]; rfl) rfl
  · next hpc =>
      split at hstep
      · cases hstep
        exact h.congr rfl rfl (by rw [hpc]; rfl) (by rw [hpc]; rfl) rfl
      · rw [Option.map_eq_some_iff] at hstep
        rcases hstep with ⟨second, hmove, rfl⟩
        exact h.secondMoved hinv (l := .setContinuation ⟨true, true⟩) rfl hmove s.home choice
  · next hpc =>
      split at hstep
      · cases hstep
      · split at hstep
        · cases hstep
          exact h.congr rfl rfl (by rw [hpc]; rfl) (by rw [hpc]; rfl) rfl
        · rw [Option.map_eq_some_iff] at hstep
          rcases hstep with ⟨fut, hmove, rfl⟩
          exact h.futMoved hinv hn (l := .setContinuation ⟨true, true⟩) rfl hmove .attacher
            s.home choice
  · next hpc =>
      -- `switch_out`
      cases hstep
      simp only [h.home]
      refine ⟨rfl, fun v => ?_, ?_⟩
      · by_cases hv : v = w
        · subst hv
          simp [Pc.isSuspended]
        · have hnot : s.worker v ≠ .uthread := fun hv' => hv ((h.uthread_iff v).mp hv').1
          simp [hnot, hv]
      · have hnone := h.switchIns_eq
        simp only [hpc, Pc.woken] at hnone
        simpa [Pc.woken] using hnone
  · cases hstep
  · next hpc =>
      rw [if_pos (hinv.second_hasResult (by rw [hpc]; rfl))] at hstep
      cases hstep
      exact h.congr rfl rfl (by rw [hpc]; rfl) (by rw [hpc]; rfl) rfl
  · cases hstep

theorem worker (h : Home w s) (hinv : Inv t cfg w s) (htarget : target w = w.val) {v : Fin n}
    (hmove : WorkerMove s v s') : Home w s' := by
  have hbusy : s.worker v = .idle → Home w { s with worker := Function.update s.worker v .busy } :=
    fun hidle => h.setWorker (by rw [hidle]; simp) (by simp)
  cases hmove with
  | other queue hidle hitems => exact (hbusy hidle).congr rfl rfl rfl rfl rfl
  | continuation queue fut hidle hitems hrun => exact (hbusy hidle).congr rfl rfl rfl rfl rfl
  | wakes queue second hidle hitems hrun hpc =>
      have hv : v = w := by
        have hpinned := hinv.shares.pinned v (by rw [hitems]; exact List.mem_cons_self)
        exact Fin.ext (hpinned.trans htarget)
      subst hv
      refine ⟨rfl, fun u => ?_, ?_⟩
      · by_cases hu : u = v
        · subst hu
          simp [Pc.isSuspended]
        · have hnot : s.worker u ≠ .uthread := fun hu' => hu ((h.uthread_iff u).mp hu').1
          simp [hnot, hu]
      · have hnone := h.switchIns_eq
        simp only [hpc, Pc.woken] at hnone
        simp only [Bool.false_eq_true, if_false] at hnone
        simp [hnone, Pc.woken]
  | ignored queue second hidle hitems hrun hpc =>
      have hv : v = w := by
        have hpinned := hinv.shares.pinned v (by rw [hitems]; exact List.mem_cons_self)
        exact Fin.ext (hpinned.trans htarget)
      subst hv
      -- the worker is not inside the uthread, which is therefore suspended
      have hsuspended : s.pc.isSuspended = true := by
        have hnot := (not_congr (h.uthread_iff v)).mp (by rw [hidle]; simp)
        simpa using hnot
      refine absurd ?_ hpc
      cases hs : s.pc <;> simp_all [Pc.isSuspended]
  | returns hbusy => exact h.setWorker (by rw [hbusy]; simp) (by simp)

theorem step (h : Home w s) (hinv : Inv t cfg w s) (hn : n < 2 ^ 31)
    (htarget : target w = w.val) {l : Label n} (hstep : UthreadAwait.step t cfg s l = some s') :
    Home w s' := by
  cases l with
  | main choice => exact h.main hinv hn hstep
  | callback choice =>
      simp only [UthreadAwait.step, callbackStep] at hstep
      split at hstep
      · cases hstep
      · cases hstep
      · next runner t' hcallback =>
          cases hinv.running runner t' hcallback
          split at hstep
          · cases hstep
            exact h.congr rfl rfl rfl rfl rfl
          · rw [Option.map_eq_some_iff] at hstep
            rcases hstep with ⟨second, hmove, rfl⟩
            exact h.secondMoved hinv rfl hmove _ choice
  | setter choice =>
      simp only [UthreadAwait.step, Option.ite_none_right_eq_some, setterStep,
        Option.map_eq_some_iff] at hstep
      rcases hstep with ⟨-, fut, hmove, rfl⟩
      exact h.futMoved hinv hn rfl hmove .setter cfg.setter choice
  | worker v => exact h.worker hinv htarget (workerMove_of_workerStep hstep)
  | schedule v =>
      cases hstep
      exact h.push _ _

end Home

/-! ## Every await comes to its end -/

def Pc.rank : Pc ε T → Nat
  | .hasResult => 12
  | .setContinuation => 10
  | .thenTry => 8
  | .switchOut => 6
  | .suspended => 4
  | .check => 2
  | .done _ _ => 0

def CallbackPc.rank : CallbackPc ε T n → Nat
  | .notRun => 2
  | .running _ _ => 1
  | .ended => 0

def Worker.rank : Worker → Nat
  | .busy => 1
  | .idle | .uthread => 0

/-- Steps that may still be made when no other task is scheduled. -/
def State.rank (s : State ε T n) : Nat :=
  s.pc.rank + s.callback.rank + 4 * s.fut.rank + 4 * s.second.rank +
    2 * ∑ q, (s.queue q).items.length + ∑ v, (s.worker v).rank

theorem length_push (s : State ε T n) {id : Nat} (hid : id < n) (x : Item) :
    ∑ q, ((s.push id x).queue q).items.length = ∑ q, (s.queue q).items.length + 1 := by
  have hsum := sum_update (fun q => q.items.length) s.queue ⟨id, hid⟩
    ((s.queue ⟨id, hid⟩).push x)
  simp only [Queue.push, List.length_append, List.length_singleton] at hsum
  simp only [State.push, dif_pos hid]
  simp only [Queue.push]
  omega

namespace Inv

variable {t : Try ε T.Inner} {cfg : Config n} {w : Fin n} {s s' : State ε T n}

theorem rank_futMoved (h : Inv t cfg w s) (hn : n < 2 ^ 31) {l : FutureState.Label Unit}
    (hl : l.accepts = true) {fut : System Unit ε T.Inner Unit}
    (hstep : FutureState.step (fun _ => t) () s.fut l = some fut)
    (hrank : fut.rank < s.fut.rank) (runner : Runner n) (current : Option (Fin n))
    (choice : Fin n) : (s.futMoved fut runner current choice).rank < s.rank := by
  rcases h.shares.futMoved hn hl hstep runner current choice with
    ⟨fut', callback, hmove, -, heq⟩ | ⟨id, hid, -, -, heq⟩
  · have hle := hmove.rank
    have hcallback : callback.rank ≤ s.callback.rank := by
      rcases hmove.callback with ⟨-, hsame⟩ | ⟨hnone, -, runner', hrunning⟩
      · rw [hsame]
      · rw [hrunning, h.notRun_iff.mpr hnone]
        simp [CallbackPc.rank]
    rw [heq]
    simp only [State.rank]
    omega
  · have hlength := length_push { s with fut := fut } hid .continuation
    rw [heq, push_eq]
    simp only [State.rank]
    simp only at hlength
    omega

theorem rank_secondMoved (h : Inv t cfg w s) (hn : n < 2 ^ 31) {l : FutureState.Label Unit}
    (hl : l.accepts = true) {second : System Unit ε T.Inner Unit}
    (hstep : FutureState.step (fun _ => forwarded T t) () s.second l = some second)
    (hrank : second.rank < s.second.rank) (current : Option (Fin n)) (choice : Fin n) :
    (s.secondMoved second current choice).rank < s.rank := by
  rcases (h.shares.secondMoved hl hstep current choice).2 with ⟨-, heq⟩ | ⟨-, heq⟩
  · rw [heq]
    simp only [State.rank]
    omega
  · have hlength := length_push { s with second := second } (target_lt w hn) .switchIn
    rw [heq, push_eq]
    simp only [State.rank]
    simp only at hlength
    omega

/-- The callback goes on. -/
theorem exists_step_of_callback (h : Inv t cfg w s) (hn : n < 2 ^ 31) {runner : Runner n}
    {t' : Try ε T.Inner} (hcallback : s.callback = .running runner t') :
    ∃ l s', UthreadAwait.step t cfg s l = some s' ∧ s'.rank < s.rank := by
  cases h.running runner t' hcallback
  refine ⟨.callback w, ?_⟩
  simp only [UthreadAwait.step, callbackStep, hcallback]
  by_cases hreturned : s.second.setter () = .returned
  · rw [if_pos hreturned]
    refine ⟨_, rfl, ?_⟩
    simp only [State.rank, hcallback, CallbackPc.rank]
    omega
  · rw [if_neg hreturned]
    rcases h.shares.second.exists_setResult (by simp) hreturned
      ⟨(s.threadOf cfg runner).isSome, true⟩ with ⟨second, hmove, hlt⟩
    rw [hmove]
    exact ⟨_, rfl, h.rank_secondMoved hn rfl hmove hlt _ w⟩

/-- A worker has taken an item from its queue. -/
theorem rank_popped {v : Fin n} {x : Item} {queue : Queue Item} (hidle : s.worker v = .idle)
    (hitems : (s.queue v).items = x :: queue.items) :
    State.rank { s with
      queue := Function.update s.queue v queue
      worker := Function.update s.worker v .busy } < s.rank := by
  have hworkers := sum_update Worker.rank s.worker v .busy
  have hlength := sum_update (fun q => q.items.length) s.queue v queue
  have hbusy : Worker.busy.rank = 1 := rfl
  have hzero : Worker.idle.rank = 0 := rfl
  rw [hidle, hbusy, hzero] at hworkers
  simp only [hitems, List.length_cons] at hlength
  simp only [State.rank]
  omega

/-- The uthread is switched in, or not. -/
theorem rank_switchIn (s : State ε T n) (v : Fin n) : (s.switchIn (some v)).rank ≤ s.rank := by
  rcases switchIn_eq s v with ⟨hpc, heq⟩ | ⟨-, heq⟩
  · have hworkers := sum_update Worker.rank s.worker v .uthread
    have hzero : Worker.uthread.rank = 0 := rfl
    rw [hzero] at hworkers
    rw [heq]
    simp only [State.rank, hpc, Pc.rank]
    omega
  · rw [heq]
    exact Nat.le_refl _

/-- The item can be executed. -/
theorem exists_execute (h : Inv t cfg w s) {x : Item} (hx : s.items x ≠ 0)
    (queue : Fin n → Queue Item) (worker : Fin n → Worker) (v : Fin n) :
    ∃ s', State.execute { s with queue := queue, worker := worker } v x = some s' ∧
      s'.rank ≤ State.rank { s with queue := queue, worker := worker } := by
  cases x with
  | other => exact ⟨_, rfl, Nat.le_refl _⟩
  | continuation =>
      rcases HandOffInv.exists_runTask (v := t) (k := ())
        (by rw [h.shares.continuations]; exact hx) with ⟨fut, hrun, hlt⟩
      have hcallback : (callbackAfter s fut (.worker v)).rank ≤ s.callback.rank := by
        rcases callbackAfter_eq (s := s) (.worker v) (h.shares.fut.invoked_step hrun) with
          ⟨-, hsame⟩ | ⟨hnone, -, runner, hrunning⟩
        · rw [hsame]
        · rw [hrunning, h.notRun_iff.mpr hnone]
          simp [CallbackPc.rank]
      have hrun' : FutureState.step (fun _ => .nothing) () s.fut .runTask = some fut := hrun
      refine ⟨{ s with
        queue := queue
        worker := worker
        fut := fut
        callback := callbackAfter s fut (.worker v) }, ?_, ?_⟩
      · simp only [State.execute, hrun']
        rfl
      · simp only [State.rank]
        omega
  | switchIn =>
      rcases HandOffInv.exists_runTask (v := forwarded T t) (k := ())
        (by rw [h.shares.switches]; exact hx) with ⟨second, hrun, hlt⟩
      have hrun' : FutureState.step (fun _ => .nothing) () s.second .runTask = some second := hrun
      refine ⟨State.switchIn { s with
        queue := queue
        worker := worker
        second := second } (some v), ?_, ?_⟩
      · simp only [State.execute, hrun']
        rfl
      · refine Nat.le_trans (rank_switchIn _ v) ?_
        simp only [State.rank]
        omega

/-- A worker that has something in its queue goes on. -/
theorem exists_step_of_worker (h : Inv t cfg w s) {v : Fin n}
    (hcallback : ∀ runner t', s.callback ≠ .running runner t')
    (hworker : s.worker v ≠ .uthread) (hqueue : (s.queue v).items ≠ []) :
    ∃ l s', UthreadAwait.step t cfg s l = some s' ∧ s'.rank < s.rank := by
  refine ⟨.worker v, ?_⟩
  simp only [UthreadAwait.step, workerStep]
  cases hv : s.worker v with
  | uthread => exact absurd hv hworker
  | busy =>
      have hnot : s.callback.inWorker v = false := by
        cases hs : s.callback with
        | notRun | ended => rfl
        | running runner t' => exact absurd hs (hcallback runner t')
      refine ⟨{ s with worker := Function.update s.worker v .idle }, by simp [hnot], ?_⟩
      have hworkers := sum_update_lt (r := Worker.rank) (f := s.worker) (i := v) (a := .idle)
        (by rw [hv]; exact Nat.zero_lt_one)
      simp only [State.rank]
      omega
  | idle =>
      rcases Queue.exists_pop hqueue with ⟨x, queue, hpop⟩
      have hitems := (Queue.pop_eq_item hpop).1
      have hx : s.items x ≠ 0 := by
        have hcount := items_pop s hitems x
        rw [if_pos rfl] at hcount
        omega
      rcases h.exists_execute hx (Function.update s.queue v queue)
        (Function.update s.worker v .busy) v with ⟨s', hexecute, hle⟩
      rw [hpop]
      exact ⟨s', hexecute, Nat.lt_of_le_of_lt hle (rank_popped hv hitems)⟩

/-- The uthread itself can go on while it is not suspended. -/
theorem exists_step_of_main (h : Inv t cfg w s) (hhome : s.home = some w) (hn : n < 2 ^ 31)
    (hdone : ∀ waited outcome, s.pc ≠ .done waited outcome) (hsuspended : s.pc ≠ .suspended)
    (hcallback : ∀ runner t', s.callback ≠ .running runner t') :
    ∃ l s', UthreadAwait.step t cfg s l = some s' ∧ s'.rank < s.rank := by
  refine ⟨.main w, ?_⟩
  simp only [UthreadAwait.step, mainStep]
  cases hpc : s.pc with
  | hasResult =>
      simp only
      split
      all_goals
        refine ⟨_, rfl, ?_⟩
        simp only [State.rank, hpc, Pc.rank]
        omega
  | setContinuation =>
      by_cases hreturned : s.second.attacher = .returned
      · refine ⟨_, if_pos hreturned, ?_⟩
        simp only [State.rank, hpc, Pc.rank]
        omega
      · rcases h.shares.second.exists_setContinuation (by simp) hreturned ⟨true, true⟩ with
          ⟨second, hmove, hlt⟩
        have hmove' : FutureState.step (fun _ => .nothing) () s.second
            (.setContinuation ⟨true, true⟩) = some second := hmove
        refine ⟨s.secondMoved second s.home w, by simp [hreturned, hmove'], ?_⟩
        exact h.rank_secondMoved hn rfl hmove hlt s.home w
  | thenTry =>
      have hnot : s.callback.inAttacher = false := by
        cases hs : s.callback with
        | notRun | ended => rfl
        | running runner t' => exact absurd hs (hcallback runner t')
      by_cases hreturned : s.fut.attacher = .returned
      · refine ⟨{ s with pc := .switchOut }, by simp [hnot, hreturned], ?_⟩
        simp only [State.rank, hpc, Pc.rank]
        omega
      · rcases h.shares.fut.exists_setContinuation (by simp) hreturned ⟨true, true⟩ with
          ⟨fut, hmove, hlt⟩
        have hmove' : FutureState.step (fun _ => .nothing) () s.fut
            (.setContinuation ⟨true, true⟩) = some fut := hmove
        refine ⟨s.futMoved fut .attacher s.home w, by simp [hnot, hreturned, hmove'], ?_⟩
        exact h.rank_futMoved hn rfl hmove hlt .attacher s.home w
  | switchOut =>
      refine ⟨_, rfl, ?_⟩
      have hworkers := sum_update Worker.rank s.worker w .busy
      have hbusy : Worker.busy.rank = 1 := rfl
      rw [hbusy] at hworkers
      simp only [State.rank, hpc, hhome, Pc.rank]
      omega
  | suspended => exact absurd hpc hsuspended
  | check =>
      refine ⟨_, if_pos (h.second_hasResult (by rw [hpc]; rfl)), ?_⟩
      simp only [State.rank, hpc, Pc.rank]
      omega
  | done waited outcome => exact absurd hpc (hdone waited outcome)

/-- Somebody can go on while the uthread is suspended. -/
theorem exists_step_of_suspended (h : Inv t cfg w s) (hhome : Home w s) (hn : n < 2 ^ 31)
    (hpc : s.pc = .suspended) (hcallback : ∀ runner t', s.callback ≠ .running runner t') :
    ∃ l s', UthreadAwait.step t cfg s l = some s' ∧ s'.rank < s.rank := by
  have hfree : ∀ v, s.worker v ≠ .uthread := by
    intro v hv
    have hnot := ((hhome.uthread_iff v).mp hv).2
    rw [hpc] at hnot
    cases hnot
  have hworker : ∀ item, s.items item ≠ 0 →
      ∃ l s', UthreadAwait.step t cfg s l = some s' ∧ s'.rank < s.rank := by
    intro item hitem
    rcases exists_mem_of_items s hitem with ⟨q, hq⟩
    exact h.exists_step_of_worker hcallback (hfree q) (List.ne_nil_of_mem hq)
  by_cases hsetter : s.fut.setter () = .returned
  swap
  · -- the promise is fulfilled
    rcases h.shares.fut.exists_setResult (by simp) hsetter ⟨cfg.setter.isSome, true⟩ with
      ⟨fut, hmove, hlt⟩
    have hallowed : s.setterFree cfg = true := by
      unfold State.setterFree
      split
      · next v _ => exact decide_eq_true (hfree v)
      · rfl
    refine ⟨.setter w, s.futMoved fut .setter cfg.setter w, ?_,
      h.rank_futMoved hn rfl hmove hlt .setter cfg.setter w⟩
    simp [UthreadAwait.step, hallowed, setterStep, hmove]
  by_cases hfut : s.fut.shared.pending = 0
  swap
  · exact hworker .continuation (by rw [← h.shares.continuations]; exact hfut)
  have hinvoked := h.shares.fut.invoked_of_completed
    ⟨hsetter, h.passedOn (by rw [hpc]; rfl), hfut⟩
  have hended : s.callback = .ended := by
    cases hs : s.callback with
    | notRun =>
        rw [h.notRun_iff.mp hs] at hinvoked
        cases hinvoked
    | running runner t' => exact absurd hs (hcallback runner t')
    | ended => rfl
  by_cases hsecond : s.second.shared.pending = 0
  swap
  · exact hworker .switchIn (by rw [← h.shares.switches]; exact hsecond)
  -- otherwise the uthread would have been switched in
  have hdone := h.shares.second.invoked_of_completed
    ⟨h.ended hended, h.attached (by rw [hpc]; rfl), hsecond⟩
  have hlength := h.shares.switched
  rw [hdone, hhome.switchIns_eq, hpc] at hlength
  cases hlength

theorem exists_step (h : Inv t cfg w s) (hhome : Home w s) (hn : n < 2 ^ 31)
    (hdone : ∀ waited outcome, s.pc ≠ .done waited outcome) :
    ∃ l s', UthreadAwait.step t cfg s l = some s' ∧ s'.rank < s.rank := by
  by_cases hcallback : ∃ runner t', s.callback = .running runner t'
  · rcases hcallback with ⟨runner, t', hcallback⟩
    exact h.exists_step_of_callback hn hcallback
  have hidle : ∀ runner t', s.callback ≠ .running runner t' := fun runner t' hs =>
    hcallback ⟨runner, t', hs⟩
  by_cases hpc : s.pc.isSuspended = true
  · refine h.exists_step_of_suspended hhome hn ?_ hidle
    cases hs : s.pc <;> simp_all [Pc.isSuspended]
  · refine h.exists_step_of_main hhome.home hn hdone ?_ hidle
    rintro hs
    rw [hs] at hpc
    exact hpc rfl

/-- A uthread that waits goes on waiting until it is done. -/
theorem waits_step (h : Inv t cfg w s) (hn : n < 2 ^ 31) {l : Label n}
    (hstep : UthreadAwait.step t cfg s l = some s') (hwaits : s.pc.waits = true) :
    s'.pc.waits = true := by
  have hpush : ∀ (s : State ε T n) id x, (s.push id x).pc = s.pc := by
    intro s id x
    rw [push_eq]
  have hfut : ∀ {l : FutureState.Label Unit}, l.accepts = true → ∀ {fut},
      FutureState.step (fun _ => t) () s.fut l = some fut → ∀ runner current choice,
      (s.futMoved fut runner current choice).pc = s.pc := by
    intro l hl fut hmove runner current choice
    rcases h.shares.futMoved hn hl hmove runner current choice with
      ⟨fut', callback, -, -, heq⟩ | ⟨id, -, -, -, heq⟩
    · rw [heq]
    · rw [heq, hpush]
  have hsecond : ∀ {l : FutureState.Label Unit}, l.accepts = true → ∀ {second},
      FutureState.step (fun _ => forwarded T t) () s.second l = some second →
      ∀ current choice, (s.secondMoved second current choice).pc = s.pc := by
    intro l hl second hmove current choice
    rcases (h.shares.secondMoved hl hmove current choice).2 with ⟨-, heq⟩ | ⟨-, heq⟩
    · rw [heq]
    · rw [heq, hpush]
  cases l with
  | main choice =>
      simp only [UthreadAwait.step, mainStep] at hstep
      split at hstep
      · next hpc =>
          rw [hpc] at hwaits
          cases hwaits
      · split at hstep
        · cases hstep
          rfl
        · rw [Option.map_eq_some_iff] at hstep
          rcases hstep with ⟨second, hmove, rfl⟩
          rw [hsecond (l := .setContinuation ⟨true, true⟩) rfl hmove]
          exact hwaits
      · split at hstep
        · cases hstep
        · split at hstep
          · cases hstep
            rfl
          · rw [Option.map_eq_some_iff] at hstep
            rcases hstep with ⟨fut, hmove, rfl⟩
            rw [hfut (l := .setContinuation ⟨true, true⟩) rfl hmove]
            exact hwaits
      · cases hstep
        rfl
      · cases hstep
      · split at hstep <;> cases hstep <;> rfl
      · cases hstep
  | callback choice =>
      simp only [UthreadAwait.step, callbackStep] at hstep
      split at hstep
      · cases hstep
      · cases hstep
      · next runner t' hcallback =>
          cases h.running runner t' hcallback
          split at hstep
          · cases hstep
            exact hwaits
          · rw [Option.map_eq_some_iff] at hstep
            rcases hstep with ⟨second, hmove, rfl⟩
            rw [hsecond rfl hmove]
            exact hwaits
  | setter choice =>
      simp only [UthreadAwait.step, Option.ite_none_right_eq_some, setterStep,
        Option.map_eq_some_iff] at hstep
      rcases hstep with ⟨-, fut, hmove, rfl⟩
      rw [hfut rfl hmove]
      exact hwaits
  | worker v =>
      cases workerMove_of_workerStep hstep with
      | other queue hidle hitems => exact hwaits
      | continuation queue fut hidle hitems hrun => exact hwaits
      | wakes queue second hidle hitems hrun hpc => rfl
      | ignored queue second hidle hitems hrun hpc => exact hwaits
      | returns hbusy => exact hwaits
  | schedule v =>
      cases hstep
      rw [hpush]
      exact hwaits

end Inv

/-! ## Awaiting once -/

theorem run_inv {t : Try ε T.Inner} {cfg : Config n} {w : Fin n} (hn : n < 2 ^ 31)
    {ls : List (Label n)} {s : State ε T n}
    (hrun : (machine t cfg).run (State.initial cfg w) ls = some s) : Inv t cfg w s :=
  (machine t cfg).run_invariant (fun _ _ _ h hstep => h.step hn hstep) (Inv.initial t cfg w) hrun

/-- A uthread whose worker gets its functions back awaits once. -/
theorem awaitsOnce_of_target (pool : Pool) {w : Fin pool.threadNum} (htarget : target w = w.val) :
    AwaitsOnce pool w := by
  intro ε T broken f cfg ls s hrun
  have hkeeps : ∀ s l s', Inv (f.toTry broken) cfg w s ∧ Home w s →
      (machine (f.toTry broken) cfg).step s l = some s' →
      Inv (f.toTry broken) cfg w s' ∧ Home w s' := by
    rintro s l s' ⟨hinv, hhome⟩ hstep
    exact ⟨hinv.step pool.fits hstep, hhome.step hinv pool.fits htarget hstep⟩
  have h := (machine (f.toTry broken) cfg).run_invariant hkeeps
    ⟨Inv.initial _ cfg w, Home.initial cfg w⟩ hrun
  refine ⟨?_, ?_, ?_⟩
  · rw [h.2.switchIns_eq]
    split
    · exact .inr rfl
    · exact .inl rfl
  · intro waited outcome hpc
    refine ⟨(h.1.outcome waited outcome hpc).trans (value_toTry broken f), ?_⟩
    rw [h.2.switchIns_eq, hpc]
    cases waited <;> rfl
  · have hprogress : ∀ r : State ε T pool.threadNum,
        ((Inv (f.toTry broken) cfg w r ∧ Home w r) ∧
          (s.pc.waits = true → r.pc.waits = true)) →
        ¬ (∃ waited outcome, r.pc = .done waited outcome) →
        ∃ l r', True ∧ (machine (f.toTry broken) cfg).step r l = some r' ∧
          ((Inv (f.toTry broken) cfg w r' ∧ Home w r') ∧
            (s.pc.waits = true → r'.pc.waits = true)) ∧ r'.rank < r.rank := by
      rintro r ⟨⟨hinv, hhome⟩, hwaits⟩ hdone
      rcases hinv.exists_step hhome pool.fits (fun waited outcome hpc =>
        hdone ⟨waited, outcome, hpc⟩) with ⟨l, r', hstep, hlt⟩
      exact ⟨l, r', trivial, hstep, ⟨hkeeps r l r' ⟨hinv, hhome⟩ hstep, fun hs =>
        hinv.waits_step pool.fits hstep (hwaits hs)⟩, hlt⟩
    rcases (machine (f.toTry broken) cfg).exists_run_of_measure (fun _ => True) State.rank
      hprogress ⟨h, id⟩ with ⟨ks, s', -, hlater, ⟨⟨hinv, -⟩, hwaits⟩, waited, outcome, hpc⟩
    refine ⟨ks, s', waited, hlater, ?_, ?_⟩
    · rw [hpc, hinv.outcome waited outcome hpc, value_toTry]
    · intro hs
      have hwaited := hwaits hs
      rw [hpc] at hwaited
      exact hwaited

/-- A future without executor context, fulfilled from outside the pool. -/
def outside (n : Nat) : Config n where
  checkedOut := none
  forceSched := false
  setter := none

/-- The only thread that calls {lit}`switch_in` is the one whose queue is used. -/
theorem target_of_awaitsOnce {pool : Pool} {w : Fin pool.threadNum} (h : AwaitsOnce pool w) :
    target w = w.val := by
  let f : Fulfilment Unit (.type Unit) := .value ()
  have hstart : (machine (f.toTry ()) (outside pool.threadNum)).run
      (State.initial (outside pool.threadNum) w) [.main w] =
        some { State.initial (outside pool.threadNum) w with pc := .setContinuation } := by
    simp [Machine.run, machine, step, mainStep, State.initial, System.initial, outside,
      Config.futureState, setForceSched, setExecutor, create]
  rcases (h Unit (.type Unit) () f (outside pool.threadNum) _ _ hstart).2.2 with
    ⟨ks, s, waited, hrun, hpc, hwaited⟩
  have hwhole : (machine (f.toTry ()) (outside pool.threadNum)).run
      (State.initial (outside pool.threadNum) w) ([.main w] ++ ks) = some s := by
    rw [Machine.run_append_of_run _ hstart]
    exact hrun
  have hswitchIns := ((h Unit (.type Unit) () f (outside pool.threadNum) _ _ hwhole).2.1 waited _
    hpc).2
  rw [if_pos (hwaited rfl)] at hswitchIns
  rcases (run_inv pool.fits hwhole).shares.threads (some w, true) (by simp [hswitchIns]) with
    ⟨v, hv, hvalue⟩
  cases hv
  exact hvalue.symm

/-- The smallest pool with a worker whose number uses the bit. -/
def largePool : Pool where
  threadNum := 2 ^ 30 + 1
  fits := by decide

/-- The future gets its result before {lit}`thenTry`, which passes it on; the worker
{lit}`v` looks into its queue at once. -/
def passedOnEarly (w v : Fin n) : List (Label n) :=
  List.replicate 6 (.main w) ++ List.replicate 4 (.setter w) ++ List.replicate 7 (.main w) ++
    List.replicate 7 (.callback w) ++ [.worker v]

end UthreadAwait

end AsyncSimple
