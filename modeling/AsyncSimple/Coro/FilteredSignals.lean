import AsyncSimple.Coro.CollectAnyOutcome
import AsyncSimple.Coro.FutureAwaiter
import AsyncSimple.Coro.TimeAwaiter
import AsyncSimple.Signal.FilteredSlot

/-!
# Signals that the filter excludes

A run with an emission of {lit}`Terminate` is compared with the run that makes the
same moves without the emission, for the three awaiters that can be canceled.  As
long as no call of {lit}`emplace` tests the state of the signal after the
emission, the two runs agree on everything but the slot.

Main results:

- Theorem {lit}`TimeAwaiter.undisturbed`, {lit}`FutureAwaiter.undisturbed` and
  {lit}`CollectAny.undisturbed`: the comparison for each awaiter.
- Theorem {lit}`filtered_signals_do_not_interfere`: all of them.
-/

namespace AsyncSimple

open Transition Signal

/-! ## The timer -/

namespace TimeAwaiter

/-- The moves of the emission. -/
def Label.hidden : Label → Bool
  | .emits | .emission => true
  | _ => false

/-- The move does not test the state of a signal that was emitted. -/
def quiet (s : State) : Label → Bool
  | .thread =>
      match s.thread with
      | .emplace pc => !(pc.testsState && s.slot.state)
      | _ => true
  | _ => true

/-- The timer's thread has not come past the test. -/
def ThreadPc.Early : ThreadPc → Prop
  | .notStarted => True
  | .emplace pc => pc.Early
  | _ => False

/-- The state of a run with an emission, the slot of the run without, and what
holds of both. -/
structure Agrees (cfg : Config) (s : State) (b : TerminateSlot Handler Unit) : Prop where
  slot : SlotAgrees s.thread.Early s.slot b
  emplacing : ∀ pc, s.thread = .emplace pc → pc.Emplacing b.cell
  suspended : s.main ≠ .notSuspended
  begun : s.main ≠ .returned → s.thread = .notStarted
  unnotified : s.notified = false
  waited : s.thread = .schedule ∨ s.thread = .ended → cfg.dur ≤ s.elapsed
  resumed : s.coro ≠ .suspended → s.thread = .ended
  clearing : ∀ pc, s.coro = .clear pc → pc.Clearing
  outcome : ∀ o, s.coro = .done o → o = .returned

variable {cfg : Config} {s s' : State} {b : TerminateSlot Handler Unit}

namespace Agrees

/-- The emission moves at the slot only. -/
theorem setSlot (h : Agrees cfg s b) {slot : TerminateSlot Handler Unit}
    (hslot : SlotAgrees s.thread.Early slot b) : Agrees cfg { s with slot := slot } b :=
  ⟨hslot, h.emplacing, h.suspended, h.begun, h.unnotified, h.waited, h.resumed, h.clearing,
    h.outcome⟩

theorem hidden (h : Agrees cfg s b) {l : Label} (hl : l.hidden = true)
    (hstep : step cfg s l = some s') :
    ∃ slot, s' = { s with slot := slot } ∧ Agrees cfg s' b := by
  cases l with
  | emits =>
      simp only [step] at hstep
      split at hstep
      · rcases Option.map_eq_some_iff.mp hstep with ⟨slot, hemits, rfl⟩
        exact ⟨slot, rfl, h.setSlot (h.slot.emits hemits)⟩
      · cases hstep
  | emission =>
      simp only [step, emissionStep] at hstep
      split at hstep
      case h_1 hv =>
        cases hstep
        exact ⟨_, rfl, h.setSlot (h.slot.setVisit (by rw [hv]; exact id) (by simp))⟩
      case h_2 hv => exact (h.slot.visit_ne_call hv).elim
      case h_3 hv =>
        cases hstep
        exact ⟨_, rfl, h.setSlot (h.slot.setVisit (by rw [hv]; exact id) (by simp))⟩
      case h_4 =>
        rcases Option.map_eq_some_iff.mp hstep with ⟨slot, hvisit, rfl⟩
        exact ⟨_, rfl, h.setSlot (h.slot.visitStep hvisit)⟩
  | _ => cases hl

theorem main (h : Agrees cfg s b) (hslot : cfg.hasSlot = true)
    (hstep : mainStep cfg s = some s') :
    mainStep cfg { s with slot := b } = some { s' with slot := b } ∧ Agrees cfg s' b := by
  have hleft := h.slot.canceled_left
  have hright := h.slot.canceled_right
  cases hmain : s.main with
  | notSuspended | returned =>
      simp only [mainStep, hmain] at hstep
      cases hstep
  | ready =>
      simp only [mainStep, hmain, hleft, hright, Bool.and_false] at hstep ⊢
      cases hstep
      have hbegun := h.begun (by simp [hmain])
      exact ⟨rfl, h.slot, h.emplacing, nofun, fun _ => hbegun, h.unnotified, h.waited, h.resumed,
        h.clearing, h.outcome⟩
  | suspend =>
      simp only [mainStep, hmain, hslot, if_true] at hstep ⊢
      cases hstep
      have hbegun := h.begun (by simp [hmain])
      have hcoro : s.coro = .suspended := by
        by_contra hcoro
        have hended := h.resumed hcoro
        rw [hbegun] at hended
        cases hended
      refine ⟨rfl, h.slot.mono fun _ => trivial, ?_, nofun, fun hne => (hne rfl).elim,
        h.unnotified, by simp, fun hne => (hne hcoro).elim, h.clearing, h.outcome⟩
      intro pc hpc
      cases hpc
      trivial

theorem thread (h : Agrees cfg s b) (hquiet : quiet s .thread = true)
    (hstep : threadStep cfg s = some s') :
    ∃ b', threadStep cfg { s with slot := b } = some { s' with slot := b' } ∧
      Agrees cfg s' b' := by
  have hcoro : s.thread ≠ .ended → s.coro = .suspended := fun hne =>
    by_contra fun hcoro => hne (h.resumed hcoro)
  have hmain : s.thread ≠ .notStarted → s.main = .returned := fun hne =>
    by_contra fun hmain => hne (h.begun hmain)
  cases hthread : s.thread with
  | notStarted | ended | aborted =>
      simp only [threadStep, hthread] at hstep
      cases hstep
  | emplace pc =>
      have hmain' := hmain (by simp [hthread])
      have hcoro' := hcoro (by simp [hthread])
      have hearly : s.thread.Early → pc.Early := by
        rw [hthread]
        exact id
      have htest : pc.testsState = true → s.slot.state = false := by
        intro ht
        simpa [quiet, hthread, ht] using hquiet
      rcases h.slot.callStep hearly htest with ⟨hnext, hslot⟩
      simp only [threadStep, hthread, hnext] at hstep ⊢
      cases hstep
      refine ⟨_, rfl, ?_⟩
      rcases h.slot.emplace (h.emplacing pc hthread) with ⟨pc', hpc', hemplacing⟩ | hreturns
      · rw [hpc']
        refine ⟨hslot.mono ?_, ?_, h.suspended, fun hne => (hne hmain').elim, h.unnotified,
          by simp, fun hne => (hne hcoro').elim, h.clearing, h.outcome⟩
        · rintro ⟨he, ht⟩
          rcases (hearly he).next ht b with ⟨g, hg⟩
          rw [hpc'] at hg
          cases hg
          trivial
        · intro pc'' heq
          cases heq
          exact hemplacing
      · rw [hreturns]
        refine ⟨hslot.mono ?_, nofun, h.suspended, fun hne => (hne hmain').elim, h.unnotified,
          by simp, fun hne => (hne hcoro').elim, h.clearing, h.outcome⟩
        rintro ⟨he, ht⟩
        rcases (hearly he).next ht b with ⟨g, hg⟩
        rw [hreturns] at hg
        cases hg
  | waitFor =>
      simp only [threadStep, hthread] at hstep ⊢
      cases hstep
      refine ⟨b, rfl, h.slot.mono (by rw [hthread]; exact id), nofun, h.suspended, ?_,
        h.unnotified, by simp, ?_, h.clearing, h.outcome⟩
      · exact fun hne => (hne (hmain (by simp [hthread]))).elim
      · exact fun hne => (hne (hcoro (by simp [hthread]))).elim
  | waiting start =>
      simp only [threadStep, hthread] at hstep ⊢
      split at hstep
      case isTrue hend =>
        have hover : (start : Int) + cfg.dur ≤ s.clock := by
          simpa [h.unnotified] using hend
        cases hstep
        refine ⟨b, by rw [if_pos hend], h.slot.mono (by rw [hthread]; exact id), nofun,
          h.suspended, ?_, h.unnotified, ?_, ?_, h.clearing, h.outcome⟩
        · exact fun hne => (hne (hmain (by simp [hthread]))).elim
        · intro _
          simp only
          omega
        · exact fun hne => (hne (hcoro (by simp [hthread]))).elim
      case isFalse => cases hstep
  | schedule =>
      simp only [threadStep, hthread] at hstep ⊢
      cases hstep
      refine ⟨b, rfl, h.slot.mono (by rw [hthread]; exact id), nofun, h.suspended, ?_,
        h.unnotified, fun _ => h.waited (.inl hthread), fun _ => rfl, ?_, ?_⟩
      · exact fun hne => (hne (hmain (by simp [hthread]))).elim
      · intro pc hpc
        simp only [CoroPc.start] at hpc
        split at hpc
        · cases hpc
          trivial
        · cases hpc
      · intro o ho
        simp only [CoroPc.start] at ho
        split at ho
        · cases ho
        · cases ho
          rfl

theorem coro (h : Agrees cfg s b) (hstep : coroStep s = some s') :
    ∃ b', coroStep { s with slot := b } = some { s' with slot := b' } ∧ Agrees cfg s' b' := by
  cases hcoro : s.coro with
  | suspended | done o | aborted =>
      simp only [coroStep, hcoro] at hstep
      cases hstep
  | clear pc =>
      have hthread := h.resumed (by simp [hcoro])
      have hlate : ¬ s.thread.Early := by
        rw [hthread]
        exact id
      have hclearing := h.clearing pc hcoro
      -- the test of the state is not part of clear
      have htest : pc.testsState = true → s.slot.state = false := by
        rw [hclearing.testsState]
        nofun
      rcases h.slot.callStep (fun he => (hlate he).elim) htest with ⟨hnext, hslot⟩
      simp only [coroStep, hcoro, hnext] at hstep ⊢
      cases hstep
      refine ⟨_, rfl, hslot.mono And.left, ?_, h.suspended, h.begun, h.unnotified, h.waited,
        fun _ => hthread, ?_, ?_⟩
      · intro pc' hpc'
        rw [hthread] at hpc'
        cases hpc'
      · intro pc' hpc'
        dsimp only at hpc'
        split at hpc' <;> cases hpc'
        rename_i hat
        exact hclearing.next hat
      · intro o ho
        dsimp only at ho
        split at ho <;> cases ho
        rfl
  | canceled =>
      have hthread := h.resumed (by simp [hcoro])
      simp only [coroStep, hcoro, h.slot.canceled_left, h.slot.canceled_right] at hstep ⊢
      cases hstep
      refine ⟨b, rfl, h.slot, h.emplacing, h.suspended, h.begun, h.unnotified, h.waited,
        fun _ => hthread, nofun, ?_⟩
      intro o ho
      cases ho
      rfl

theorem visible (h : Agrees cfg s b) (hslot : cfg.hasSlot = true) {l : Label}
    (hl : l.hidden = false) (hquiet : quiet s l = true) (hstep : step cfg s l = some s') :
    ∃ b', step cfg { s with slot := b } l = some { s' with slot := b' } ∧ Agrees cfg s' b' := by
  cases l with
  | main => exact ⟨b, h.main hslot hstep⟩
  | thread => exact h.thread hquiet hstep
  | coro => exact h.coro hstep
  | tick =>
      cases hstep
      exact ⟨b, rfl, h.slot, h.emplacing, h.suspended, h.begun, h.unnotified, h.waited, h.resumed,
        h.clearing, h.outcome⟩
  | emits | emission => cases hl

end Agrees

/-- Whether a move is possible does not depend on the slot. -/
theorem step_eq_none_iff (s : State) (b : TerminateSlot Handler Unit) {l : Label}
    (hl : l.hidden = false) : step cfg { s with slot := b } l = none ↔ step cfg s l = none := by
  cases l with
  | main =>
      cases hmain : s.main with
      | ready =>
          simp only [step, mainStep, hmain]
          split <;> split <;> simp
      | _ => simp [step, mainStep, hmain]
  | thread =>
      cases hthread : s.thread <;> simp [step, threadStep, hthread]
  | coro =>
      cases hcoro : s.coro <;> simp [step, coroStep, hcoro]
  | tick => simp [step]
  | emits | emission => cases hl

/-- A timer whose slot excludes {lit}`Terminate`: the run without the emission
makes the same moves, differs in the slot only and can go on in the same ways;
there is no exception, and the thread has waited the whole duration when the await
ends. -/
def Undisturbed (cfg : Config) : Prop :=
  ∀ slot clock ls s, cfg.Starts slot →
    (machine cfg).RunsWithin (fun s l => quiet s l = true) (State.initial slot clock) ls →
    (machine cfg).run (State.initial slot clock) ls = some s →
    (∃ b, (machine cfg).run (State.initial cfg.slot clock) (ls.filter fun l => !l.hidden) =
        some { s with slot := b } ∧
      ∀ l, l.hidden = false → (step cfg { s with slot := b } l = none ↔ step cfg s l = none)) ∧
    ∀ o, s.coro = .done o → o = .returned ∧ cfg.dur ≤ s.elapsed

theorem undisturbed (hslot : cfg.hasSlot = true) (hfilter : cfg.filter = false) :
    Undisturbed cfg := by
  intro slot clock ls s hstarts hok hrun
  have hstart : Agrees cfg (State.initial slot clock) cfg.slot :=
    ⟨hstarts.agrees hfilter trivial, nofun, nofun, fun _ => rfl, rfl, by simp [State.initial],
      fun hne => (hne rfl).elim, nofun, nofun⟩
  rcases (machine cfg).run_purge_part (fun s b => { s with slot := b }) Label.hidden
    (fun s l s' b h hl hstep => by
      rcases h.hidden hl hstep with ⟨slot', rfl, h'⟩
      exact ⟨rfl, h'⟩)
    (fun s l s' b h hl hquiet hstep => h.visible hslot hl hquiet hstep)
    hstart hok hrun with ⟨b, ht, hb⟩
  refine ⟨⟨b, ht, fun l hl => step_eq_none_iff s b hl⟩,
    fun o ho => ⟨hb.outcome o ho, hb.waited (.inr (hb.resumed ?_))⟩⟩
  rw [ho]
  nofun

end TimeAwaiter

/-! ## The future -/

namespace FutureAwaiter

variable {ε α : Type}

/-- The moves of the emission. -/
def Label.hidden : Label → Bool
  | .emits | .emission => true
  | _ => false

/-- The move does not test the state of a signal that was emitted. -/
def quiet (s : State ε α) : Label → Bool
  | .main =>
      match s.main with
      | .emplace pc => !(pc.testsState && s.slot.state)
      | _ => true
  | _ => true

/-- {lit}`await_suspend` has not come past the test. -/
def MainPc.Early : MainPc → Prop
  | .ready | .takeAway => True
  | .emplace pc => pc.Early
  | _ => False

/-- {lit}`await_resume` on the promised future. -/
def promisedOutcome (cfg : Config ε α) : Outcome ε α :=
  if cfg.isVoid then .unit else .value cfg.value

/-- The state of a run with an emission, the slot of the run without, and what
holds of both.  An await that finds the result ready never looks at the slot. -/
structure Agrees (cfg : Config ε α) (s : State ε α) (b : TerminateSlot Handler Unit) : Prop where
  slot : SlotAgrees (s.main.Early ∨ s.main = .notSuspended) s.slot b
  emplacing : ∀ pc, s.main = .emplace pc → pc.Emplacing b.cell
  notRefused : s.main ≠ .returned false
  handler : s.handler = .notRun
  continuation : s.continuation = true → s.main = .returned true
  called : s.callback ≠ .notRun → s.continuation = true
  armed : s.callback = .notRun ∨ s.callback = .exchange → s.armed = true
  promised : s.callback = .resume ∨ s.callback = .ended ∨ s.main = .ready ∨
    s.main = .takeAway ∨ s.main = .notSuspended → s.future = .promised
  resumed : s.coro ≠ .suspended → s.main = .notSuspended ∨ s.callback = .ended
  outcome : ∀ o, s.coro = .done o → o = promisedOutcome cfg

variable {cfg : Config ε α} {s s' : State ε α} {b : TerminateSlot Handler Unit}

namespace Agrees

/-- The emission moves at the slot only. -/
theorem setSlot (h : Agrees cfg s b) {slot : TerminateSlot Handler Unit}
    (hslot : SlotAgrees (s.main.Early ∨ s.main = .notSuspended) slot b) :
    Agrees cfg { s with slot := slot } b :=
  ⟨hslot, h.emplacing, h.notRefused, h.handler, h.continuation, h.called, h.armed, h.promised,
    h.resumed, h.outcome⟩

theorem hidden (h : Agrees cfg s b) {l : Label} (hl : l.hidden = true)
    (hstep : step cfg s l = some s') :
    ∃ slot, s' = { s with slot := slot } ∧ Agrees cfg s' b := by
  cases l with
  | emits =>
      simp only [step] at hstep
      split at hstep
      · rcases Option.map_eq_some_iff.mp hstep with ⟨slot, hemits, rfl⟩
        exact ⟨slot, rfl, h.setSlot (h.slot.emits hemits)⟩
      · cases hstep
  | emission =>
      simp only [step, emissionStep] at hstep
      split at hstep
      case h_1 hv =>
        cases hstep
        exact ⟨_, rfl, h.setSlot (h.slot.setVisit (by rw [hv]; exact id) (by simp))⟩
      case h_2 hv => exact (h.slot.visit_ne_call hv).elim
      case h_3 hv =>
        cases hstep
        exact ⟨_, rfl, h.setSlot (h.slot.setVisit (by rw [hv]; exact id) (by simp))⟩
      case h_4 =>
        rcases Option.map_eq_some_iff.mp hstep with ⟨slot, hvisit, rfl⟩
        exact ⟨_, rfl, h.setSlot (h.slot.visitStep hvisit)⟩
  | _ => cases hl

/-- The callback does not run before the continuation is set. -/
theorem idle (h : Agrees cfg s b) (hmain : s.main ≠ .returned true)
    (hmain' : s.main ≠ .notSuspended) :
    s.callback = .notRun ∧ s.continuation = false ∧ s.coro = .suspended := by
  have hcontinuation : s.continuation = false := by
    cases hc : s.continuation with
    | false => rfl
    | true => exact (hmain (h.continuation hc)).elim
  have hcallback : s.callback = .notRun := by
    by_contra hne
    rw [h.called hne] at hcontinuation
    cases hcontinuation
  refine ⟨hcallback, hcontinuation, ?_⟩
  by_contra hcoro
  rcases h.resumed hcoro with hready | hended
  · exact hmain' hready
  · rw [hcallback] at hended
    cases hended

theorem main (h : Agrees cfg s b) (hslot : cfg.hasSlot = true) (hquiet : quiet s .main = true)
    (hstep : mainStep cfg s = some s') :
    ∃ b', mainStep cfg { s with slot := b } = some { s' with slot := b' } ∧ Agrees cfg s' b' := by
  cases hmain : s.main with
  | notSuspended | returned value | aborted =>
      simp only [mainStep, hmain] at hstep
      cases hstep
  | ready =>
      rcases h.idle (by simp [hmain]) (by simp [hmain]) with ⟨hcallback, hcontinuation, hcoro⟩
      have hpromised := h.promised (.inr (.inr (.inl hmain)))
      simp only [mainStep, hmain] at hstep ⊢
      split at hstep
      case isTrue hresult =>
        cases hstep
        refine ⟨b, by simp [hresult], h.slot.mono fun _ => .inr rfl, nofun, nofun, h.handler, ?_,
          h.called, h.armed, fun _ => hpromised, fun _ => .inl rfl, nofun⟩
        rw [hcontinuation]
        nofun
      case isFalse hresult =>
        cases hstep
        refine ⟨b, by simp [hresult], h.slot.mono fun _ => .inl trivial, nofun, nofun, h.handler,
          ?_, h.called, h.armed, fun _ => hpromised, ?_, ?_⟩
        · rw [hcontinuation]
          nofun
        · exact fun hne => (hne hcoro).elim
        · exact h.outcome
  | takeAway =>
      rcases h.idle (by simp [hmain]) (by simp [hmain]) with ⟨hcallback, hcontinuation, hcoro⟩
      simp only [mainStep, hmain, hslot, if_true] at hstep ⊢
      cases hstep
      refine ⟨b, rfl, h.slot.mono fun _ => .inl trivial, ?_, nofun, h.handler, ?_, h.called,
        h.armed, ?_, ?_, h.outcome⟩
      · intro pc hpc
        cases hpc
        trivial
      · rw [hcontinuation]
        nofun
      · simp [hcallback]
      · exact fun hne => (hne hcoro).elim
  | emplace pc =>
      rcases h.idle (by simp [hmain]) (by simp [hmain]) with ⟨hcallback, hcontinuation, hcoro⟩
      have hearly : s.main.Early ∨ s.main = .notSuspended → pc.Early := by
        rw [hmain]
        exact fun he => he.resolve_right nofun
      have htest : pc.testsState = true → s.slot.state = false := by
        intro ht
        simpa [quiet, hmain, ht] using hquiet
      rcases h.slot.callStep hearly htest with ⟨hnext, hagrees⟩
      simp only [mainStep, hmain, hnext] at hstep ⊢
      rcases h.slot.emplace (h.emplacing pc hmain) with ⟨pc', hpc', hemplacing⟩ | hreturns
      · rw [hpc'] at hstep ⊢
        cases hstep
        refine ⟨_, rfl, hagrees.mono ?_, ?_, nofun, h.handler, ?_, h.called, h.armed, ?_, ?_,
          h.outcome⟩
        · rintro ⟨he, ht⟩
          rcases (hearly he).next ht b with ⟨g, hg⟩
          rw [hpc'] at hg
          cases hg
          exact .inl trivial
        · intro pc'' heq
          cases heq
          exact hemplacing
        · rw [hcontinuation]
          nofun
        · simp [hcallback]
        · exact fun hne => (hne hcoro).elim
      · rw [hreturns] at hstep ⊢
        cases hstep
        refine ⟨_, rfl, hagrees.mono ?_, nofun, nofun, h.handler, ?_, h.called, h.armed, ?_, ?_,
          h.outcome⟩
        · rintro ⟨he, ht⟩
          rcases (hearly he).next ht b with ⟨g, hg⟩
          rw [hreturns] at hg
          cases hg
        · rw [hcontinuation]
          nofun
        · simp [hcallback]
        · exact fun hne => (hne hcoro).elim
  | setContinuation =>
      rcases h.idle (by simp [hmain]) (by simp [hmain]) with ⟨hcallback, hcontinuation, hcoro⟩
      simp only [mainStep, hmain] at hstep ⊢
      cases hstep
      refine ⟨b, rfl, h.slot.mono ?_, nofun, nofun, h.handler, fun _ => rfl, fun _ => rfl, h.armed,
        ?_, ?_, h.outcome⟩
      · rw [hmain]
        exact fun he => he.elim False.elim nofun
      · simp [hcallback]
      · exact fun hne => (hne hcoro).elim

theorem callback (h : Agrees cfg s b) (hslot : cfg.hasSlot = true)
    (hstep : callbackStep cfg s = some s') :
    callbackStep cfg { s with slot := b } = some { s' with slot := b } ∧ Agrees cfg s' b := by
  have hreturned : s.callback ≠ .notRun → s.main = .returned true := fun hne =>
    h.continuation (h.called hne)
  have hcoro : s.main = .returned true → s.callback ≠ .ended → s.coro = .suspended := by
    intro hmain hne
    by_contra hcoro
    rcases h.resumed hcoro with hready | hended
    · rw [hmain] at hready
      cases hready
    · exact hne hended
  cases hcallback : s.callback with
  | ended =>
      simp only [callbackStep, hcallback] at hstep
      cases hstep
  | notRun =>
      simp only [callbackStep, hcallback, hslot, if_true] at hstep ⊢
      split at hstep
      case isTrue hready =>
        have hcontinuation : s.continuation = true := by
          simp only [Bool.and_eq_true] at hready
          exact hready.1
        have hmain := h.continuation hcontinuation
        have hsuspended := hcoro hmain (by simp [hcallback])
        cases hstep
        refine ⟨by rw [if_pos hready], h.slot, h.emplacing, h.notRefused, h.handler,
          h.continuation, fun _ => hcontinuation, fun _ => h.armed (.inl hcallback), ?_, ?_,
          h.outcome⟩
        · simp [hmain]
        · exact fun hne => (hne hsuspended).elim
      case isFalse => cases hstep
  | exchange =>
      have hmain := hreturned (by simp [hcallback])
      have harmed := h.armed (.inr hcallback)
      have hsuspended := hcoro hmain (by simp [hcallback])
      simp only [callbackStep, hcallback, harmed, if_true] at hstep ⊢
      cases hstep
      refine ⟨rfl, h.slot, h.emplacing, h.notRefused, h.handler, h.continuation,
        fun _ => h.called (by simp [hcallback]), by simp, ?_, ?_, h.outcome⟩
      · simp [hmain]
      · exact fun hne => (hne hsuspended).elim
  | putBack =>
      have hmain := hreturned (by simp [hcallback])
      have hsuspended := hcoro hmain (by simp [hcallback])
      simp only [callbackStep, hcallback] at hstep ⊢
      cases hstep
      refine ⟨rfl, h.slot, h.emplacing, h.notRefused, h.handler, h.continuation,
        fun _ => h.called (by simp [hcallback]), by simp, fun _ => rfl, ?_, h.outcome⟩
      exact fun hne => (hne hsuspended).elim
  | resume =>
      have hmain := hreturned (by simp [hcallback])
      have hpromised := h.promised (.inl hcallback)
      simp only [callbackStep, hcallback] at hstep ⊢
      cases hstep
      exact ⟨rfl, h.slot, h.emplacing, h.notRefused, h.handler, h.continuation,
        fun _ => h.called (by simp [hcallback]), by simp, fun _ => hpromised, fun _ => .inr rfl,
        nofun⟩

theorem coro (h : Agrees cfg s b) (hstep : coroStep cfg s = some s') :
    coroStep cfg { s with slot := b } = some { s' with slot := b } ∧ Agrees cfg s' b := by
  cases hcoro : s.coro with
  | suspended | done o =>
      simp only [coroStep, hcoro] at hstep
      cases hstep
  | take =>
      have hresumed := h.resumed (by simp [hcoro])
      have hpromised : s.future = .promised := by
        apply h.promised
        rcases hresumed with hready | hended
        · exact .inr (.inr (.inr (.inr hready)))
        · exact .inr (.inl hended)
      simp only [coroStep, hcoro, hpromised] at hstep ⊢
      cases hstep
      refine ⟨rfl, h.slot, h.emplacing, h.notRefused, h.handler, h.continuation, h.called, h.armed,
        fun _ => rfl, fun _ => hresumed, ?_⟩
      intro o ho
      exact (CoroPc.done.inj ho).symm

theorem visible (h : Agrees cfg s b) (hslot : cfg.hasSlot = true) {l : Label}
    (hl : l.hidden = false) (hquiet : quiet s l = true) (hstep : step cfg s l = some s') :
    ∃ b', step cfg { s with slot := b } l = some { s' with slot := b' } ∧ Agrees cfg s' b' := by
  cases l with
  | main => exact h.main hslot hquiet hstep
  | callback => exact ⟨b, h.callback hslot hstep⟩
  | coro => exact ⟨b, h.coro hstep⟩
  | setResult =>
      simp only [step] at hstep ⊢
      split at hstep
      · cases hstep
      case isFalse hresult =>
        cases hstep
        exact ⟨b, by rw [if_neg hresult], h.slot, h.emplacing, h.notRefused, h.handler,
          h.continuation, h.called, h.armed, h.promised, h.resumed, h.outcome⟩
  | emits | emission => cases hl

end Agrees

/-- Whether a move is possible does not depend on the slot. -/
theorem step_eq_none_iff (s : State ε α) (b : TerminateSlot Handler Unit) {l : Label}
    (hl : l.hidden = false) : step cfg { s with slot := b } l = none ↔ step cfg s l = none := by
  cases l with
  | main =>
      cases hmain : s.main with
      | ready | takeAway =>
          simp only [step, mainStep, hmain]
          split <;> simp
      | emplace pc =>
          simp only [step, mainStep, hmain]
          split <;> split <;> simp
      | _ => simp [step, mainStep, hmain]
  | callback => cases hcallback : s.callback <;> simp [step, callbackStep, hcallback]
  | coro =>
      cases hcoro : s.coro <;> simp [step, coroStep, hcoro]
  | setResult =>
      simp only [step]
      split <;> simp
  | emits | emission => cases hl

/-- A future whose awaiter's slot excludes {lit}`Terminate`: the run without the
emission makes the same moves, differs in the slot only and can go on in the same
ways, and the await ends with what the promise delivers. -/
def Undisturbed (cfg : Config ε α) : Prop :=
  ∀ slot ls (s : State ε α), cfg.Starts slot →
    (machine cfg).RunsWithin (fun s l => quiet s l = true) (State.initial slot) ls →
    (machine cfg).run (State.initial slot) ls = some s →
    (∃ b, (machine cfg).run (State.initial cfg.slot) (ls.filter fun l => !l.hidden) =
        some { s with slot := b } ∧
      ∀ l, l.hidden = false → (step cfg { s with slot := b } l = none ↔ step cfg s l = none)) ∧
    ∀ o, s.coro = .done o → o = promisedOutcome cfg

theorem undisturbed (hslot : cfg.hasSlot = true) (hfilter : cfg.filter = false) :
    Undisturbed cfg := by
  intro slot ls s hstarts hok hrun
  have hstart : Agrees cfg (State.initial slot) cfg.slot :=
    ⟨hstarts.agrees hfilter (.inl trivial), nofun, nofun, rfl, nofun, fun hne => (hne rfl).elim,
      fun _ => rfl, fun _ => rfl, fun hne => (hne rfl).elim, nofun⟩
  rcases (machine cfg).run_purge_part (fun s b => { s with slot := b }) Label.hidden
    (fun s l s' b h hl hstep => by
      rcases h.hidden hl hstep with ⟨slot', rfl, h'⟩
      exact ⟨rfl, h'⟩)
    (fun s l s' b h hl hquiet hstep => h.visible hslot hl hquiet hstep)
    hstart hok hrun with ⟨b, ht, hb⟩
  exact ⟨⟨b, ht, fun l hl => step_eq_none_iff s b hl⟩, hb.outcome⟩

end FutureAwaiter

/-! ## The first of several tasks -/

namespace CollectAny

variable {n : Nat} {ε : Type} {α : Fin n → Type}

/-- The moves of the emission. -/
def Label.hidden : Label n → Bool
  | .emits | .emission => true
  | _ => false

/-- The move does not test the state of a signal that was emitted. -/
def quiet (s : State n ε α) : Label n → Bool
  | .main =>
      match s.main with
      | .emplace pc => !(pc.testsState && s.slot.state)
      | _ => true
  | _ => true

/-- {lit}`await_suspend` has not come past the test. -/
def MainPc.Early : MainPc → Prop
  | .ready | .chain => True
  | .emplace pc => pc.Early
  | _ => False

theorem MainPc.Early.unsettled {main : MainPc} (h : main.Early) : ¬ main.Settled := by
  cases main with
  | loop i | notSuspended | returned value => exact h.elim
  | _ => exact id

/-- The state that a run without the emission has, when it differs in the slot
and in what it records of the emission only. -/
def State.unemitted (s : State n ε α) (b : TerminateSlot Handler Unit) (before : Bool) :
    State n ε α :=
  { s with slot := b, emittedBefore := before }

section

variable (s : State n ε α) (b : TerminateSlot Handler Unit) (before : Bool)
  (cfg : Config n ε α) (who : Continuer n)

theorem State.unemitted_continueBy :
    ∃ before', (s.unemitted b before).continueBy cfg who =
      (s.continueBy cfg who).unemitted b before' := by
  cases hcoro : s.coro with
  | suspended =>
      refine ⟨b.visit.reached, ?_⟩
      simp only [State.continueBy, State.unemitted, hcoro]
  | _ =>
      refine ⟨before, ?_⟩
      simp only [State.continueBy, State.unemitted, hcoro]

theorem State.continueBy_slot : (s.continueBy cfg who).slot = s.slot := by
  unfold State.continueBy
  split <;> rfl

theorem State.continueBy_main : (s.continueBy cfg who).main = s.main := by
  unfold State.continueBy
  split <;> rfl

end

/-- The state of a run with an emission, the slot of the run without, and what
holds of the run without. -/
structure Agrees (cfg : Config n ε α) (s : State n ε α) (b : TerminateSlot Handler Unit)
    (before : Bool) : Prop where
  slot : SlotAgrees s.main.Early s.slot b
  inv : Inv cfg (s.unemitted b before)

variable {cfg : Config n ε α} {s s' : State n ε α} {b : TerminateSlot Handler Unit}
  {before : Bool}

/-- The step of the run without the emission, with the same answer. -/
def Matched (s' : State n ε α) (step : Option (State n ε α)) : Prop :=
  ∃ b before, step = some (s'.unemitted b before) ∧ SlotAgrees s'.main.Early s'.slot b

namespace Agrees

theorem hidden (h : Agrees cfg s b before) {l : Label n} (hl : l.hidden = true)
    (hstep : step cfg s l = some s') :
    ∃ slot, s' = { s with slot := slot } ∧ Agrees cfg s' b before := by
  cases l with
  | emits =>
      simp only [step] at hstep
      split at hstep
      · rcases Option.map_eq_some_iff.mp hstep with ⟨slot, hemits, rfl⟩
        exact ⟨slot, rfl, h.slot.emits hemits, h.inv⟩
      · cases hstep
  | emission =>
      simp only [step, emissionStep] at hstep
      split at hstep
      case h_1 hv =>
        cases hstep
        exact ⟨_, rfl, h.slot.setVisit (by rw [hv]; exact id) (by simp), h.inv⟩
      case h_2 hv => exact (h.slot.visit_ne_call hv).elim
      case h_3 hv =>
        cases hstep
        exact ⟨_, rfl, h.slot.setVisit (by rw [hv]; exact id) (by simp), h.inv⟩
      case h_4 =>
        rcases Option.map_eq_some_iff.mp hstep with ⟨slot, hvisit, rfl⟩
        exact ⟨_, rfl, h.slot.visitStep hvisit, h.inv⟩
  | _ => cases hl

/-- While {lit}`await_suspend` has not come past the test, the coroutine is
suspended. -/
theorem suspended (h : Agrees cfg s b before) (hearly : s.main.Early) : s.coro = .suspended :=
  h.inv.suspended_of_unsettled hearly.unsettled

/-- Without an emission the await suspends. -/
theorem not_refused (h : Agrees cfg s b before) : ¬ s.main.Refused := by
  intro hrefused
  have hknows := h.inv.slot.mainKnows
  have hstate := h.slot.state
  simp only [State.unemitted] at hknows
  unfold MainPc.Refused at hrefused
  split at hrefused
  case h_1 hmain =>
    rw [hmain] at hknows
    have hset : b.state = true := hknows
    rw [hstate] at hset
    cases hset
  case h_2 hmain =>
    rw [hmain] at hknows
    have hset : b.state = true := hknows
    rw [hstate] at hset
    cases hset
  case h_3 => exact hrefused

theorem main (h : Agrees cfg s b before) (hslot : cfg.hasSlot = true)
    (hquiet : quiet s .main = true) (hstep : mainStep cfg s = some s') :
    Matched s' (mainStep cfg (s.unemitted b before)) := by
  cases hmain : s.main with
  | notSuspended | returned value | aborted =>
      simp only [mainStep, hmain] at hstep
      cases hstep
  | ready =>
      simp only [mainStep, hmain, hslot, h.slot.canceled_left, Bool.and_false, Bool.false_eq_true,
        if_false] at hstep
      cases hstep
      refine ⟨b, before, ?_, h.slot.mono fun _ => trivial⟩
      simp [mainStep, State.unemitted, State.setMain, hmain, h.slot.canceled_right]
  | chain =>
      simp only [mainStep, hmain, hslot, if_true] at hstep
      cases hstep
      refine ⟨{ b with chainedSignal := some () }, before, ?_,
        (h.slot.setChained _).mono fun _ => trivial⟩
      simp [mainStep, State.unemitted, State.setMain, hmain, hslot]
  | emplace pc =>
      have hearly : s.main.Early → pc.Early := by
        rw [hmain]
        exact id
      have htest : pc.testsState = true → s.slot.state = false := by
        intro ht
        simpa [quiet, hmain, ht] using hquiet
      rcases h.slot.callStep hearly htest with ⟨hnext, hagrees⟩
      -- the call goes on when it was before the look-up of the manager
      have hat : s.main.Early ∧ pc.testsState = false →
          ∃ g, (b.callStep pc).2 = .at (.cell (.emplaceTest g)) := fun hbefore =>
        (hearly hbefore.1).next hbefore.2 b
      simp only [mainStep, hmain, hnext] at hstep
      simp only [mainStep, State.unemitted, hmain]
      split at hstep
      case h_1 pc' hpc' =>
        cases hstep
        refine ⟨(b.callStep pc).1, before, rfl, hagrees.mono fun hbefore => ?_⟩
        rcases hat hbefore with ⟨g, hg⟩
        rw [hpc'] at hg
        cases hg
        trivial
      case h_2 hreturns =>
        cases hstep
        refine ⟨(b.callStep pc).1, before, rfl, hagrees.mono fun hbefore => ?_⟩
        rcases hat hbefore with ⟨g, hg⟩
        rw [hreturns] at hg
        cases hg
      case h_3 hreturns =>
        cases hstep
        rcases State.unemitted_continueBy (State.setMain { s with slot := (s.slot.callStep pc).1 }
          (.returned false)) (b.callStep pc).1 before cfg .awaitSuspend with ⟨before', heq⟩
        refine ⟨(b.callStep pc).1, before', congrArg some heq, ?_⟩
        rw [State.continueBy_slot, State.continueBy_main]
        refine hagrees.mono fun hbefore => ?_
        rcases hat hbefore with ⟨g, hg⟩
        rw [hreturns] at hg
        cases hg
      case h_4 haborts =>
        cases hstep
        refine ⟨(b.callStep pc).1, before, rfl, hagrees.mono fun hbefore => ?_⟩
        rcases hat hbefore with ⟨g, hg⟩
        rw [haborts] at hg
        cases hg
  | loop i =>
      have hlate : s.main.Early → False := by
        rw [hmain]
        exact id
      simp only [mainStep, hmain] at hstep
      split at hstep
      case isTrue hi =>
        cases hstep
        refine ⟨b, before, ?_, h.slot.mono fun he => (hlate he).elim⟩
        simp [mainStep, State.unemitted, State.setMain, State.setTask, hmain, hi]
      case isFalse hi =>
        cases hstep
        refine ⟨b, before, ?_, h.slot.mono fun he => (hlate he).elim⟩
        simp [mainStep, State.unemitted, State.setMain, hmain, hi]

theorem coro (h : Agrees cfg s b before) (hstep : coroStep cfg s = some s') :
    Matched s' (coroStep cfg (s.unemitted b before)) := by
  cases hcoro : s.coro with
  | suspended | done o | aborted =>
      simp only [coroStep, hcoro] at hstep
      cases hstep
  | clear pc =>
      have hlate : s.main.Early → False := by
        intro hearly
        have hsuspended := h.suspended hearly
        rw [hcoro] at hsuspended
        cases hsuspended
      have htest : pc.testsState = true → s.slot.state = false := by
        have hknows := h.inv.slot.coroKnows
        simp only [State.unemitted, hcoro] at hknows
        rcases pc with _ | _ | (g | g | ⟨g, old⟩ | _ | old)
        case cell.emplaceTest => exact hknows.elim
        all_goals intro h; cases h
      rcases h.slot.callStep (fun he => (hlate he).elim) htest with ⟨hnext, hagrees⟩
      simp only [coroStep, hcoro] at hstep
      cases hstep
      refine ⟨(b.callStep pc).1, before, ?_, hagrees.mono And.left⟩
      simp only [coroStep, State.unemitted, hcoro, hnext]
  | canceled =>
      simp only [coroStep, hcoro, h.slot.canceled_left] at hstep
      cases hstep
      refine ⟨b, before, ?_, h.slot⟩
      simp only [coroStep, State.unemitted, hcoro, h.slot.canceled_right]
  | take =>
      simp only [coroStep, hcoro] at hstep
      cases hstep
      refine ⟨b, before, ?_, h.slot⟩
      simp only [coroStep, State.unemitted, hcoro]

theorem task (h : Agrees cfg s b before) {i : Fin n} (hstep : taskStep cfg s i = some s') :
    Matched s' (taskStep cfg (s.unemitted b before) i) := by
  cases htask : s.task i with
  | unstarted | finished count =>
      simp only [taskStep, htask] at hstep
      cases hstep
  | resume count =>
      simp only [taskStep, htask] at hstep
      cases hstep
      rcases State.unemitted_continueBy (s.setTask i (.finished count)) b before cfg
        (.party (some i)) with ⟨before', heq⟩
      refine ⟨b, before', ?_, ?_⟩
      · rw [← heq]
        simp only [taskStep, State.unemitted, htask]
        rfl
      · rw [State.continueBy_slot, State.continueBy_main]
        exact h.slot
  | counted count =>
      simp only [taskStep, htask] at hstep
      split at hstep
      case isTrue hcount =>
        cases hstep
        refine ⟨b, before, ?_, h.slot⟩
        simp only [taskStep, State.unemitted, htask, if_pos hcount]
        rfl
      case isFalse hcount =>
        cases hstep
        refine ⟨b, before, ?_, h.slot⟩
        simp only [taskStep, State.unemitted, htask, if_neg hcount]
        rfl
  | _ =>
      simp only [taskStep, htask] at hstep
      cases hstep
      refine ⟨b, before, ?_, h.slot⟩
      simp only [taskStep, State.unemitted, htask]
      rfl

theorem visible (h : Agrees cfg s b before) (hslot : cfg.hasSlot = true) {l : Label n}
    (hl : l.hidden = false) (hquiet : quiet s l = true) (hstep : step cfg s l = some s') :
    ∃ b' before', step cfg (s.unemitted b before) l = some (s'.unemitted b' before') ∧
      Agrees cfg s' b' before' := by
  have hmatched : Matched s' (step cfg (s.unemitted b before) l) := by
    cases l with
    | main => exact h.main hslot hquiet hstep
    | coro => exact h.coro hstep
    | task i => exact h.task hstep
    | emits | emission => cases hl
  rcases hmatched with ⟨b', before', hstep', hagrees⟩
  refine ⟨b', before', hstep', hagrees, h.inv.step ?_ hstep'⟩
  rintro rfl
  cases hl

end Agrees

/-- Whether a move is possible does not depend on the slot. -/
theorem step_eq_none_iff (s : State n ε α) (b : TerminateSlot Handler Unit) (before : Bool)
    {l : Label n} (hl : l.hidden = false) :
    step cfg (s.unemitted b before) l = none ↔ step cfg s l = none := by
  cases l with
  | main =>
      cases hmain : s.main with
      | ready | emplace pc =>
          simp only [step, mainStep, State.unemitted, hmain]
          split <;> split <;> simp
      | chain | loop i =>
          simp only [step, mainStep, State.unemitted, hmain]
          split <;> simp
      | _ => simp [step, mainStep, State.unemitted, hmain]
  | coro =>
      cases hcoro : s.coro <;> simp [step, coroStep, State.unemitted, hcoro]
  | task i =>
      cases htask : s.task i with
      | counted count =>
          simp only [step, taskStep, State.unemitted, htask]
          split <;> simp
      | _ => simp [step, taskStep, State.unemitted, htask]
  | emits | emission => cases hl

/-- A call whose slot excludes {lit}`Terminate`: the run without the emission makes
the same moves, can go on in the same ways and differs in the slot only, apart
from the record of the emission.  The await suspends and starts all tasks, and it
ends with the index and the result of a task. -/
def Undisturbed (cfg : Config n ε α) : Prop :=
  ∀ slot ls (s : State n ε α), cfg.Starts slot →
    (machine cfg).RunsWithin (fun s l => quiet s l = true)
      { State.initial cfg with slot := slot } ls →
    (machine cfg).run { State.initial cfg with slot := slot } ls = some s →
    (∃ b before, (machine cfg).run (State.initial cfg) (ls.filter fun l => !l.hidden) =
        some (s.unemitted b before) ∧
      ∀ l, l.hidden = false → (step cfg (s.unemitted b before) l = none ↔ step cfg s l = none)) ∧
    s.main ≠ .notSuspended ∧
    (∀ value, s.main = .returned value → value = true ∧ ∀ i, s.task i ≠ .unstarted) ∧
    ∀ o, s.coro = .done o → ∃ i, o = .result i (cfg.outcome i)

/-- Without an emission {lit}`await_suspend` starts all tasks. -/
theorem Agrees.started (h : Agrees cfg s b before) {value : Bool}
    (hmain : s.main = .returned value) : value = true ∧ ∀ i, s.task i ≠ .unstarted := by
  cases value with
  | false => exact (h.not_refused (by rw [hmain]; trivial)).elim
  | true =>
      refine ⟨rfl, fun i hi => ?_⟩
      have hnext : s.main.next n ≤ i := (h.inv.unstarted i).mp hi
      rw [hmain] at hnext
      exact absurd i.isLt (Nat.not_lt.mpr hnext)

/-- Without an emission the await ends with the result of a task. -/
theorem Agrees.outcome (h : Agrees cfg s b before) {o : Outcome n ε α} (ho : s.coro = .done o) :
    ∃ i, o = .result i (cfg.outcome i) := by
  have hdone : (s.unemitted b before).coro = .done o := ho
  have hcontinued : ∃ i, s.Continued (.party (some i)) := by
    rcases h.inv.exists_continued hdone with ⟨c, hc⟩
    rcases c with _ | _ | _ | i
    · have hmain : s.main = .notSuspended := hc
      exact (h.not_refused (by rw [hmain]; trivial)).elim
    · have hmain : s.main = .returned false := hc
      exact (h.not_refused (by rw [hmain]; trivial)).elim
    · have hnotRun := h.inv.slot.handler_notRun (by
        simp only [State.unemitted, h.slot.visit]
        exact id)
      have hfinished : (s.unemitted b before).handler.finishedCount = some (n + 1 : Int) := hc
      rw [hnotRun] at hfinished
      cases hfinished
    · exact ⟨i, hc⟩
  rcases hcontinued with ⟨i, hi⟩
  have hresult : (s.unemitted b before).result = some ⟨i, cfg.outcome i⟩ :=
    (h.inv.stored _).mpr ⟨i, rfl, TaskPc.storedCount_of_finishedCount hi⟩
  rcases h.inv.outcome o hdone with hexception | houtcome
  · have hknows := h.inv.slot.coroKnows
    rw [hdone, hexception] at hknows
    have hset : b.state = true := hknows
    rw [h.slot.state] at hset
    cases hset
  · rw [hresult] at houtcome
    exact ⟨i, houtcome⟩

theorem undisturbed (hslot : cfg.hasSlot = true) (hfilter : cfg.filter = false) :
    Undisturbed cfg := by
  intro slot ls s hstarts hok hrun
  have hstart : Agrees cfg { State.initial cfg with slot := slot } cfg.slot false :=
    ⟨hstarts.agrees hfilter trivial, Inv.initial cfg⟩
  rcases (machine cfg).run_purge_part (A := fun s part => Agrees cfg s part.1 part.2)
    (fun s part => s.unemitted part.1 part.2) Label.hidden
    (fun s l s' part h hl hstep => by
      rcases h.hidden hl hstep with ⟨slot', rfl, h'⟩
      exact ⟨rfl, h'⟩)
    (fun s l s' part h hl hquiet hstep => by
      rcases h.visible hslot hl hquiet hstep with ⟨b', before', hstep', h'⟩
      exact ⟨(b', before'), hstep', h'⟩)
    (b := (cfg.slot, false)) hstart hok hrun with ⟨⟨b, before⟩, ht, hb⟩
  refine ⟨⟨b, before, ht, fun l hl => step_eq_none_iff s b before hl⟩, ?_,
    fun value => hb.started, fun o => hb.outcome⟩
  intro hmain
  exact hb.not_refused (by rw [hmain]; trivial)

end CollectAny

/-! ## All awaiters -/

section

variable {n : Nat} {ε : Type} {α : Fin n → Type} {ε' α' : Type}

end

/-- A slot whose filter excludes {lit}`Terminate`, not used before. -/
def excluding : SlotConfig where
  hasSlot := true
  filter := false
  manager := false
  earlierHandler := false

def excludingTimer : TimeAwaiter.Config :=
  { excluding with dur := 5 }

def excludingFuture : FutureAwaiter.Config Unit Nat :=
  { excluding with isVoid := false, value := .value 7 }

def excludingAny : CollectAny.Config 1 Unit (fun _ => Nat) :=
  { excluding with form := .variadic, outcome := fun _ => .value 7 }

/-- {lit}`Terminate` is emitted after the handler is registered, and the emission
passes the slot before the task completes. -/
def emittedAfterEmplace (i : Fin 1) : List (CollectAny.Label 1) :=
  List.replicate 8 .main ++ [.emits] ++ List.replicate 3 .emission ++
    List.replicate 5 (.task i) ++ List.replicate 4 .coro

end AsyncSimple
