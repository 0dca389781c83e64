import AsyncSimple.Future.HandOffPart

/-!
# When the continuation of a shared state is destroyed

{lit}`scheduleContinuation` holds {lit}`ContinuationReference` guards while it runs or
submits the continuation: one in place, and two for a submission, of which one moves into
the task.  The guard that brings {lit}`_continuationRef` to zero destroys the
continuation, and with it everything that the continuation has captured.

The hand-off of {lit}`FutureState` is extended here by these guards.  A thread drops the
guard of its frame after it has left {lit}`scheduleContinuation`, and a task drops its
guard after it has run.  A task that the executor refuses is destroyed at once.

Main results:

- Theorem {lit}`GuardInv.step`: how many guards there are at every program point.
- Theorem {lit}`GuardInv.invoked_of_destroyed`: the continuation is destroyed after it
  has been invoked.
- Theorem {lit}`GuardInv.destroyed_of_settled`: when all guards are gone the continuation
  has been destroyed once.
-/

namespace AsyncSimple

open Transition

namespace FutureState

variable {ε α : Type}

/-! ## Guards -/

/-- {lit}`_continuationRef`, the guards in the frame of {lit}`scheduleContinuation`, those
in tasks, and how often the continuation has been destroyed. -/
structure Guards where
  caller : Nat
  task : Nat
  continuationRef : Nat
  destroyed : Nat
deriving DecidableEq, Repr

namespace Guards

def none : Guards := ⟨0, 0, 0, 0⟩

/-- {lit}`ContinuationReference guard(this)`. -/
def attach (c : Guards) : Guards :=
  { c with caller := c.caller + 1, continuationRef := c.continuationRef + 1 }

/-- {lit}`derefContinuation`. -/
def derefContinuation (c : Guards) : Guards :=
  { c with
    continuationRef := c.continuationRef - 1
    destroyed := if c.continuationRef = 1 then c.destroyed + 1 else c.destroyed }

def dropCaller (c : Guards) : Guards :=
  { c.derefContinuation with caller := c.caller - 1 }

def dropTask (c : Guards) : Guards :=
  { c.derefContinuation with task := c.task - 1 }

/-- The guard is moved into the task. -/
def moveToTask (c : Guards) : Guards :=
  { c with caller := c.caller - 1, task := c.task + 1 }

/-- What {lit}`scheduleContinuation` does with its guards between two program points. -/
def moved (c : Guards) : Pc → Pc → Guards
  | .dispatch, .inplace => c.attach
  | .dispatch, .submit _ => c.attach.attach
  | .submit _, .accepted => c.moveToTask
  | .submit _, .fallback => c.dropCaller
  | _, _ => c

end Guards

/-- The thread is inside {lit}`scheduleContinuation`. -/
def Pc.scheduling : Pc → Bool
  | .assertDone | .dispatch | .submit _ | .accepted | .inplace | .fallback | .nullExecutor => true
  | _ => false

/-- The guards that the frame holds at a program point. -/
def Pc.guards : Pc → Nat
  | .submit _ => 2
  | .inplace | .fallback | .accepted => 1
  | _ => 0

/-- A hand-off with its guards. -/
structure Guarded (ε α : Type) where
  handOff : System Unit ε α Unit
  guards : Guards

inductive GuardLabel where
  | handOff (l : Label Unit)
  | dropCaller
  | dropTask
deriving DecidableEq, Repr

namespace Guarded

def initial (fs : FutureState ε α Unit) : Guarded ε α where
  handOff := System.initial fs
  guards := Guards.none

/-- The guards after a move on the shared state. -/
def guardsAfter (g : Guarded ε α) (handOff : System Unit ε α Unit) : Label Unit → Guards
  | .setResult _ _ => g.guards.moved (g.handOff.setter ()) (handOff.setter ())
  | .setContinuation _ => g.guards.moved g.handOff.attacher handOff.attacher
  | .runTask => g.guards

def step (v : Try ε α) (g : Guarded ε α) : GuardLabel → Option (Guarded ε α)
  | .handOff l =>
      (FutureState.step (fun _ => v) () g.handOff l).map fun handOff =>
        { handOff := handOff, guards := g.guardsAfter handOff l }
  | .dropCaller =>
      if g.guards.caller ≠ 0 ∧ (g.handOff.setter ()).scheduling = false ∧
          g.handOff.attacher.scheduling = false then
        some { g with guards := g.guards.dropCaller }
      else
        none
  | .dropTask =>
      if g.guards.task ≠ 0 ∧ g.handOff.shared.pending = 0 then
        some { g with guards := g.guards.dropTask }
      else
        none

end Guarded

/-! ## The invariant -/

/-- What the guards of a thread inside {lit}`scheduleContinuation` are. -/
def Guards.Held (c : Guards) (sh : Shared ε α Unit) (pc : Pc) : Prop :=
  pc.scheduling = true → sh.fs.state = .done ∧ c.caller = pc.guards ∧ c.destroyed = 0 ∧
    (pc.phase = .owing → c.task = 0)

/-- The guards, the shared state, and the two threads. -/
structure Counted (c : Guards) (sh : Shared ε α Unit) (mine other : Pc) : Prop where
  ref : c.continuationRef = c.caller + c.task
  quiet : sh.fs.state ≠ .done → c = Guards.none
  heldMine : c.Held sh mine
  heldOther : c.Held sh other
  apart : mine.scheduling = true → other.scheduling = false
  pending_le : sh.pending ≤ c.task
  task_le : c.task ≤ 1
  destroyed : sh.fs.state = .done → mine.scheduling = false → other.scheduling = false →
    c.destroyed = if c.continuationRef = 0 then 1 else 0

namespace Counted

variable {c : Guards} {sh sh' : Shared ε α Unit} {mine other pc : Pc}

theorem symm (h : Counted c sh mine other) : Counted c sh other mine where
  ref := h.ref
  quiet := h.quiet
  heldMine := h.heldOther
  heldOther := h.heldMine
  apart := fun hother => by
    cases hmine : mine.scheduling with
    | false => rfl
    | true =>
        rw [h.apart hmine] at hother
        cases hother
  pending_le := h.pending_le
  task_le := h.task_le
  destroyed := fun hdone hother hmine => h.destroyed hdone hmine hother

/-- A thread moves outside {lit}`scheduleContinuation`. -/
theorem outside (h : Counted c sh mine other) (hmine : mine.scheduling = false)
    (hpc : pc.scheduling = false) (hdone : sh'.fs.state = .done ↔ sh.fs.state = .done)
    (hpending : sh'.pending = sh.pending) : Counted c sh' pc other where
  ref := h.ref
  quiet := fun hnot => h.quiet fun hd => hnot (hdone.mpr hd)
  heldMine := fun hs => by
    rw [hpc] at hs
    cases hs
  heldOther := fun hs => by
    rcases h.heldOther hs with ⟨hd, hrest⟩
    exact ⟨hdone.mpr hd, hrest⟩
  apart := fun hs => by
    rw [hpc] at hs
    cases hs
  pending_le := by
    rw [hpending]
    exact h.pending_le
  task_le := h.task_le
  destroyed := fun hd _ hother => h.destroyed (hdone.mp hd) hmine hother

/-- A thread that is inside stays inside, with the guards of the new program point. -/
theorem inside {c' : Guards} (h : Counted c sh mine other) (hmine : mine.scheduling = true)
    (hpc : pc.scheduling = true) (hfs : sh'.fs = sh.fs)
    (hguards : c'.caller = pc.guards) (hdestroyed : c'.destroyed = 0)
    (href : c'.continuationRef = c'.caller + c'.task) (hpending : sh'.pending ≤ c'.task)
    (htask : c'.task ≤ 1) (howing : pc.phase = .owing → c'.task = 0) :
    Counted c' sh' pc other where
  ref := href
  quiet := fun hnot => by
    rw [hfs] at hnot
    exact absurd (h.heldMine hmine).1 hnot
  heldMine := fun _ => ⟨by rw [hfs]; exact (h.heldMine hmine).1, hguards, hdestroyed, howing⟩
  heldOther := fun hs => by
    rw [h.apart hmine] at hs
    cases hs
  apart := fun _ => h.apart hmine
  pending_le := hpending
  task_le := htask
  destroyed := fun _ hs => by
    rw [hpc] at hs
    cases hs

/-- A thread leaves with a guard in its frame. -/
theorem leaves (h : Counted c sh mine other) (hmine : mine.scheduling = true)
    (hguards : mine.guards = 1) (hpc : pc.scheduling = false) (hfs : sh'.fs = sh.fs)
    (hpending : sh'.pending = sh.pending) : Counted c sh' pc other where
  ref := h.ref
  quiet := fun hnot => by
    rw [hfs] at hnot
    exact absurd (h.heldMine hmine).1 hnot
  heldMine := fun hs => by
    rw [hpc] at hs
    cases hs
  heldOther := fun hs => by
    rw [h.apart hmine] at hs
    cases hs
  apart := fun hs => by
    rw [hpc] at hs
    cases hs
  pending_le := by
    rw [hpending]
    exact h.pending_le
  task_le := h.task_le
  destroyed := fun _ _ _ => by
    rcases h.heldMine hmine with ⟨-, hcaller, hdestroyed, -⟩
    have href := h.ref
    rw [if_neg (by omega), hdestroyed]

/-- Every move of one of the two calls. -/
theorem transferStep {side : Side} {write : FutureState ε α Unit → FutureState ε α Unit}
    {answer : Answer} (h : Counted c sh mine other)
    (hstep : FutureState.transferStep side write sh answer mine = some (sh', pc))
    (hwrite : ∀ fs, (write fs).state = fs.state) (honly : side.only ≠ .done)
    (hracing : mine.phase = .racing → sh.fs.state ≠ .done) :
    Counted (c.moved mine pc) sh' pc other := by
  cases mine with
  | check =>
      cases hstep
      split <;> exact h.outside rfl rfl Iff.rfl rfl
  | store =>
      cases hstep
      exact h.outside rfl rfl (by rw [hwrite]) rfl
  | load =>
      cases hstep
      split
      · exact h.outside rfl rfl Iff.rfl rfl
      · split <;> exact h.outside rfl rfl Iff.rfl rfl
  | casStart =>
      simp only [FutureState.transferStep] at hstep
      split at hstep
      · next hstart =>
          cases hstep
          exact h.outside rfl rfl (iff_of_false honly (by rw [hstart]; simp)) rfl
      · cases hstep
        exact h.outside rfl rfl Iff.rfl rfl
  | assertOther expected =>
      cases hstep
      exact h.outside rfl rfl Iff.rfl rfl
  | casDone expected =>
      simp only [FutureState.transferStep] at hstep
      split at hstep
      · cases hstep
        -- the exchange that makes the state `DONE`
        have hnone := h.quiet (hracing rfl)
        subst hnone
        have hother : other.scheduling = false := by
          cases hs : other.scheduling with
          | false => rfl
          | true => exact absurd (h.heldOther hs).1 (hracing rfl)
        have hpending := h.pending_le
        exact ⟨rfl, by simp, fun _ => ⟨rfl, rfl, rfl, fun _ => rfl⟩,
          fun hs => absurd (hs.symm.trans hother) (by simp), fun _ => hother, hpending,
          by simp [Guards.moved, Guards.none], by simp [Pc.scheduling]⟩
      · cases hstep
        exact h.outside rfl rfl Iff.rfl rfl
  | assertDone =>
      have hheld := h.heldMine rfl
      simp only [FutureState.transferStep, scheduleContinuationStep, hheld.1, if_true,
        Option.some.injEq, Prod.mk.injEq] at hstep
      rcases hstep with ⟨rfl, rfl⟩
      exact h.inside rfl rfl rfl hheld.2.1 hheld.2.2.1 h.ref h.pending_le h.task_le
        fun _ => hheld.2.2.2 rfl
  | dispatch =>
      rcases h.heldMine rfl with ⟨hdone, hcaller, hdestroyed, howing⟩
      have htask := howing rfl
      have href := h.ref
      have hpending := h.pending_le
      have hzero : c.caller = 0 := hcaller
      simp only [FutureState.transferStep, scheduleContinuationStep] at hstep
      split at hstep
      · cases hstep
        refine h.inside rfl rfl rfl ?_ hdestroyed ?_ hpending h.task_le fun _ => htask
        · simp [Guards.moved, Guards.attach, hzero, Pc.guards]
        · simp only [Guards.moved, Guards.attach]
          omega
      · split at hstep
        · cases hstep
          exact h.inside rfl rfl rfl hcaller hdestroyed href hpending h.task_le fun _ => htask
        · cases hstep
          refine h.inside rfl rfl rfl ?_ hdestroyed ?_ hpending h.task_le fun _ => htask
          · simp [Guards.moved, Guards.attach, hzero, Pc.guards]
          · simp only [Guards.moved, Guards.attach]
            omega
  | submit route =>
      rcases h.heldMine rfl with ⟨hdone, hcaller, hdestroyed, howing⟩
      have htask := howing rfl
      have href := h.ref
      have hpending := h.pending_le
      have htwo : c.caller = 2 := hcaller
      simp only [FutureState.transferStep, scheduleContinuationStep] at hstep
      split at hstep
      · cases hstep
        refine h.inside rfl rfl rfl ?_ hdestroyed ?_ ?_ ?_ (by simp [Pc.phase])
        · simp [Guards.moved, Guards.moveToTask, htwo, Pc.guards]
        all_goals
          simp only [Guards.moved, Guards.moveToTask]
          omega
      · cases hstep
        refine h.inside rfl rfl rfl ?_ ?_ ?_ hpending h.task_le fun _ => htask
        · simp [Guards.moved, Guards.dropCaller, htwo, Pc.guards]
        · rw [Guards.moved, Guards.dropCaller, Guards.derefContinuation]
          simp only
          rw [if_neg (by omega), hdestroyed]
        · simp only [Guards.moved, Guards.dropCaller, Guards.derefContinuation]
          omega
  | accepted =>
      cases hstep
      exact h.leaves rfl rfl rfl rfl rfl
  | inplace =>
      cases hstep
      exact h.leaves rfl rfl rfl rfl rfl
  | fallback =>
      cases hstep
      exact h.leaves rfl rfl rfl rfl rfl
  | returned | threw e | nullExecutor => cases hstep

end Counted

/-- The hand-off and its guards. -/
structure GuardInv (v : Try ε α) (executor : Option Nat) (forceSched : Bool) (g : Guarded ε α) :
    Prop where
  handOff : HandOffInv v () executor forceSched g.handOff
  counted : Counted g.guards g.handOff.shared (g.handOff.setter ()) g.handOff.attacher

namespace GuardInv

variable {v : Try ε α} {executor : Option Nat} {forceSched : Bool} {g g' : Guarded ε α}

theorem initial (v : Try ε α) (executor context : Option Nat) (forceSched : Bool) :
    GuardInv v executor forceSched (Guarded.initial (configured executor context forceSched)) := by
  refine ⟨HandOffInv.initial v () executor context forceSched, ?_⟩
  constructor <;>
    simp [Guarded.initial, System.initial, Guards.none, configured, create, Guards.Held,
      Pc.scheduling]

theorem handOffMoves (h : GuardInv v executor forceSched g) {l : Label Unit}
    {handOff : System Unit ε α Unit}
    (hstep : FutureState.step (fun _ => v) () g.handOff l = some handOff) :
    GuardInv v executor forceSched { handOff := handOff, guards := g.guardsAfter handOff l } := by
  refine ⟨h.handOff.step hstep, ?_⟩
  have hrace := h.handOff.1.race
  cases l with
  | setResult i answer =>
      simp only [FutureState.step, Option.map_eq_some_iff] at hstep
      rcases hstep with ⟨⟨sh, pc⟩, hmove, rfl⟩
      simp only [Guarded.guardsAfter, Function.update_self]
      refine h.counted.transferStep hmove (fun _ => rfl) (by simp) ?_
      intro hracing hdone
      have hnone := hrace.no_result hracing
      rw [hdone] at hnone
      cases hnone
  | setContinuation answer =>
      simp only [FutureState.step, Option.map_eq_some_iff] at hstep
      rcases hstep with ⟨⟨sh, pc⟩, hmove, rfl⟩
      simp only [Guarded.guardsAfter]
      refine (h.counted.symm.transferStep hmove (fun _ => rfl) (by simp) ?_).symm
      intro hracing hdone
      have hnone := hrace.no_continuation hracing
      rw [hdone] at hnone
      cases hnone
  | runTask =>
      simp only [FutureState.step] at hstep
      split at hstep
      · cases hstep
      · next n hn =>
          cases hstep
          have hpending := h.counted.pending_le
          exact { h.counted with pending_le := by simp only [Guarded.guardsAfter]; omega }

theorem dropCaller (h : GuardInv v executor forceSched g) (hcaller : g.guards.caller ≠ 0)
    (hsetter : (g.handOff.setter ()).scheduling = false)
    (hattacher : g.handOff.attacher.scheduling = false) :
    GuardInv v executor forceSched { g with guards := g.guards.dropCaller } := by
  have href := h.counted.ref
  have hdone : g.handOff.shared.fs.state = .done := by
    by_contra hnot
    exact hcaller (by rw [h.counted.quiet hnot]; rfl)
  refine ⟨h.handOff, ⟨?_, fun hnot => absurd hdone hnot, ?_, ?_, ?_, h.counted.pending_le,
    h.counted.task_le, ?_⟩⟩
  · simp only [Guards.dropCaller, Guards.derefContinuation]
    omega
  · intro hs
    rw [hsetter] at hs
    cases hs
  · intro hs
    rw [hattacher] at hs
    cases hs
  · intro hs
    rw [hsetter] at hs
    cases hs
  · intro _ _ _
    have hdestroyed := h.counted.destroyed hdone hsetter hattacher
    rw [if_neg (by omega)] at hdestroyed
    simp only [Guards.dropCaller, Guards.derefContinuation, hdestroyed]
    split <;> split <;> omega

theorem dropTask (h : GuardInv v executor forceSched g) (htask : g.guards.task ≠ 0)
    (hpending : g.handOff.shared.pending = 0) :
    GuardInv v executor forceSched { g with guards := g.guards.dropTask } := by
  have href := h.counted.ref
  have hle := h.counted.task_le
  have hdone : g.handOff.shared.fs.state = .done := by
    by_contra hnot
    exact htask (by rw [h.counted.quiet hnot]; rfl)
  -- a frame that holds a guard keeps the continuation alive
  have hheld : ∀ pc, g.guards.Held g.handOff.shared pc →
      g.guards.dropTask.Held g.handOff.shared pc := by
    intro pc hpc hs
    rcases hpc hs with ⟨hd, hcaller, hdestroyed, howing⟩
    have hsettled : pc.phase ≠ .owing := fun hphase => htask (howing hphase)
    have hguards : pc.guards ≠ 0 := by
      cases pc <;> simp_all [Pc.scheduling, Pc.phase, Pc.guards]
    refine ⟨hd, hcaller, ?_, fun hphase => absurd hphase hsettled⟩
    simp only [Guards.dropTask, Guards.derefContinuation]
    rw [if_neg (by omega), hdestroyed]
  refine ⟨h.handOff, ⟨?_, fun hnot => absurd hdone hnot, hheld _ h.counted.heldMine,
    hheld _ h.counted.heldOther, h.counted.apart, by simp [hpending], ?_, ?_⟩⟩
  · simp only [Guards.dropTask, Guards.derefContinuation]
    omega
  · simp only [Guards.dropTask]
    omega
  · intro _ hsetter hattacher
    have hdestroyed := h.counted.destroyed hdone hsetter hattacher
    rw [if_neg (by omega)] at hdestroyed
    simp only [Guards.dropTask, Guards.derefContinuation, hdestroyed]
    split <;> split <;> omega

theorem step (h : GuardInv v executor forceSched g) {l : GuardLabel}
    (hstep : g.step v l = some g') : GuardInv v executor forceSched g' := by
  cases l with
  | handOff l =>
      simp only [Guarded.step, Option.map_eq_some_iff] at hstep
      rcases hstep with ⟨handOff, hmove, rfl⟩
      exact h.handOffMoves hmove
  | dropCaller =>
      simp only [Guarded.step, Option.ite_none_right_eq_some, Option.some.injEq] at hstep
      rcases hstep with ⟨⟨hcaller, hsetter, hattacher⟩, rfl⟩
      exact h.dropCaller hcaller hsetter hattacher
  | dropTask =>
      simp only [Guarded.step, Option.ite_none_right_eq_some, Option.some.injEq] at hstep
      rcases hstep with ⟨⟨htask, hpending⟩, rfl⟩
      exact h.dropTask htask hpending

/-! ## What follows for the continuation -/

theorem scheduling_of_owing {pc : Pc} (h : pc.phase = .owing) : pc.scheduling = true := by
  cases pc <;> simp_all [Pc.phase, Pc.scheduling]

/-- A continuation that is destroyed has no guard left. -/
theorem destroyed_eq (h : GuardInv v executor forceSched g) :
    g.guards.destroyed = 0 ∨
      g.guards.destroyed = 1 ∧ g.guards.continuationRef = 0 ∧
        g.handOff.shared.fs.state = .done ∧
        (g.handOff.setter ()).scheduling = false ∧ g.handOff.attacher.scheduling = false := by
  by_cases hdone : g.handOff.shared.fs.state = .done
  swap
  · exact .inl (by rw [h.counted.quiet hdone]; rfl)
  cases hsetter : (g.handOff.setter ()).scheduling with
  | true => exact .inl (h.counted.heldMine hsetter).2.2.1
  | false =>
      cases hattacher : g.handOff.attacher.scheduling with
      | true => exact .inl (h.counted.heldOther hattacher).2.2.1
      | false =>
          have hdestroyed := h.counted.destroyed hdone hsetter hattacher
          split at hdestroyed
          · next hzero => exact .inr ⟨hdestroyed, hzero, hdone, rfl, rfl⟩
          · exact .inl hdestroyed

/-- The continuation is destroyed after it has been invoked. -/
theorem invoked_of_destroyed (h : GuardInv v executor forceSched g)
    (hdestroyed : g.guards.destroyed ≠ 0) : g.handOff.shared.invoked ≠ [] := by
  rcases h.destroyed_eq with hzero | ⟨-, hzero, hdone, hsetter, hattacher⟩
  · exact absurd hzero hdestroyed
  · intro hnone
    have href := h.counted.ref
    have hpending := h.counted.pending_le
    rcases h.handOff.1.debt.owed hdone (by omega) hnone with howing | ⟨i, howing⟩
    · rw [scheduling_of_owing howing] at hattacher
      cases hattacher
    · rw [scheduling_of_owing howing] at hsetter
      cases hsetter

/-- When all guards are gone after both calls, the continuation has been destroyed. -/
theorem destroyed_of_settled (h : GuardInv v executor forceSched g)
    (hcompleted : Completed g.handOff) (hcaller : g.guards.caller = 0)
    (htask : g.guards.task = 0) : g.guards.destroyed = 1 := by
  have hinvoked := h.handOff.invoked_of_completed hcompleted
  have hdone := h.handOff.done_of_invoked (by rw [hinvoked]; simp)
  have href := h.counted.ref
  rw [h.counted.destroyed hdone (by rw [hcompleted.1]; rfl) (by rw [hcompleted.2.1]; rfl),
    if_pos (by omega)]

/-- A step destroys the continuation or leaves it. -/
theorem destroyed_step (h : GuardInv v executor forceSched g) {l : GuardLabel}
    (hstep : g.step v l = some g') : g'.guards.destroyed = g.guards.destroyed ∨
      g.guards.destroyed = 0 ∧ g'.guards.destroyed = 1 := by
  have hmono : g.guards.destroyed ≤ g'.guards.destroyed := by
    have hderef : ∀ c : Guards, c.destroyed ≤ c.derefContinuation.destroyed := by
      intro c
      simp only [Guards.derefContinuation]
      split <;> omega
    have hmoved : ∀ (c : Guards) (a b : Pc), c.destroyed ≤ (c.moved a b).destroyed := by
      intro c a b
      unfold Guards.moved
      split
      · exact Nat.le_refl _
      · exact Nat.le_refl _
      · exact Nat.le_refl _
      · exact hderef c
      · exact Nat.le_refl _
    cases l with
    | handOff l =>
        simp only [Guarded.step, Option.map_eq_some_iff] at hstep
        rcases hstep with ⟨handOff, -, rfl⟩
        cases l with
        | setResult | setContinuation => exact hmoved _ _ _
        | runTask => exact Nat.le_refl _
    | dropCaller =>
        simp only [Guarded.step, Option.ite_none_right_eq_some, Option.some.injEq] at hstep
        rcases hstep with ⟨-, rfl⟩
        exact hderef _
    | dropTask =>
        simp only [Guarded.step, Option.ite_none_right_eq_some, Option.some.injEq] at hstep
        rcases hstep with ⟨-, rfl⟩
        exact hderef _
  rcases (h.step hstep).destroyed_eq with hzero | ⟨hone, -⟩
  · omega
  · rcases h.destroyed_eq with hzero | ⟨hone', -⟩
    · exact .inr ⟨hzero, hone⟩
    · exact .inl (hone.trans hone'.symm)

end GuardInv

/-! ## Progress -/

/-- Steps that the hand-off and its guards may still make. -/
def Guarded.rank (g : Guarded ε α) : Nat :=
  4 * g.handOff.rank + g.guards.caller + g.guards.task

namespace Guarded

variable {v : Try ε α} {g : Guarded ε α}

theorem exists_handOff {l : Label Unit} {handOff : System Unit ε α Unit}
    (hstep : FutureState.step (fun _ => v) () g.handOff l = some handOff)
    (hrank : handOff.rank < g.handOff.rank) :
    ∃ g', g.step v (.handOff l) = some g' ∧ g'.rank < g.rank := by
  refine ⟨_, by simp only [Guarded.step, hstep]; rfl, ?_⟩
  have hguards : (g.guardsAfter handOff l).caller + (g.guardsAfter handOff l).task ≤
      g.guards.caller + g.guards.task + 2 := by
    have hmoved : ∀ (c : Guards) (a b : Pc),
        (c.moved a b).caller + (c.moved a b).task ≤ c.caller + c.task + 2 := by
      intro c a b
      unfold Guards.moved
      split
      · simp only [Guards.attach]
        omega
      · simp only [Guards.attach]
        omega
      · simp only [Guards.moveToTask]
        omega
      · simp only [Guards.dropCaller, Guards.derefContinuation]
        omega
      · omega
    cases l with
    | setResult | setContinuation => exact hmoved _ _ _
    | runTask => exact Nat.le_add_right _ _
  simp only [rank]
  omega

theorem exists_dropCaller (hcaller : g.guards.caller ≠ 0)
    (hsetter : g.handOff.setter () = .returned) (hattacher : g.handOff.attacher = .returned) :
    ∃ g', g.step v .dropCaller = some g' ∧ g'.rank < g.rank := by
  refine ⟨{ g with guards := g.guards.dropCaller }, ?_, ?_⟩
  · simp [Guarded.step, hcaller, hsetter, hattacher, Pc.scheduling]
  · simp only [rank, Guards.dropCaller, Guards.derefContinuation]
    omega

theorem exists_dropTask (htask : g.guards.task ≠ 0) (hpending : g.handOff.shared.pending = 0) :
    ∃ g', g.step v .dropTask = some g' ∧ g'.rank < g.rank := by
  refine ⟨{ g with guards := g.guards.dropTask }, ?_, ?_⟩
  · simp [Guarded.step, htask, hpending]
  · simp only [rank, Guards.dropTask, Guards.derefContinuation]
    omega

end Guarded

end FutureState

end AsyncSimple
