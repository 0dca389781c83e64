import AsyncSimple.Coro.CollectAnyOnce
import AsyncSimple.Signal.Emission

/-!
# The losers of {lit}`collectAny`

Every task of a {lit}`collectAny` call gets a lazy local with a slot of the child
signal of the call.  The callback of the first completion looks for the child
signal through that slot.  The frames of the task may have given the slot away by
then: {lit}`ForbidSignal` destroys it, and a wrapper of {lit}`setLazyLocal` moves
it to its own local, which dies with the wrapper.

The machine of a call is extended here by the locals of the tasks and by the calls
of {lit}`emits` on the child signal.  Emissions by somebody else, such as the one
that comes through the chained slot of the parent, may happen at any time.

Main results:

- Theorem {lit}`Inv.step`: what the locals and the emissions keep.
- Theorem {lit}`emitted_before_resume_iff`: when a task resumes the coroutine, the
  signal type has been emitted exactly if the task has kept its slot or somebody
  else has emitted it.
-/

namespace AsyncSimple

open Transition Signal

/-! ## Lazy locals -/

/-- The signal that a slot is bound to: the child signal of the call, or another
one. -/
inductive BoundTo where
  | child
  | other
deriving DecidableEq, Repr

/-- {lit}`LazyLocalBase`: whether the type tag is not null, and the slot. -/
structure LazyLocal where
  typeTag : Bool
  slot : Option BoundTo
deriving DecidableEq, Repr

namespace LazyLocal

/-- {lit}`LazyLocalBase(Signal*)`. -/
def create (signal : BoundTo) : LazyLocal where
  typeTag := false
  slot := some signal

def forbidSignal (l : LazyLocal) : LazyLocal :=
  { l with slot := none }

/-- {lit}`moveSlotFromContinuation`: the two locals after it, or {lit}`none` when
the assertion fails and throws. -/
def moveSlotFromContinuation (nowLocal : LazyLocal) :
    Option LazyLocal → Option (LazyLocal × Option LazyLocal)
  | none => some (nowLocal, none)
  | some preLocal =>
      if preLocal.typeTag = false ∧ preLocal.slot.isSome ∧ nowLocal.slot.isNone then
        some ({ nowLocal with slot := preLocal.slot }, some { preLocal with slot := none })
      else
        none

end LazyLocal

namespace CollectAny

variable {n : Nat} {ε : Type} {α : Fin n → Type}

/-- The locals of a task: the one it was given, and those of the wrappers that
have not ended, the innermost first. -/
structure TaskLocals where
  given : LazyLocal
  inner : List LazyLocal
deriving DecidableEq, Repr

/-- What the frames of a task do to their locals. -/
inductive Action where
  /-- {lit}`co_await ForbidSignal` -/
  | forbidSignal
  /-- a wrapper of {lit}`setLazyLocal` with this local is awaited -/
  | setLazyLocal (nowLocal : LazyLocal)
  /-- the innermost wrapper ends, and its frame is destroyed -/
  | leave
deriving DecidableEq, Repr

namespace TaskLocals

/-- {lit}`_lazy_local` of the innermost frame. -/
def current (t : TaskLocals) : LazyLocal :=
  t.inner.headD t.given

def setCurrent (t : TaskLocals) (l : LazyLocal) : TaskLocals :=
  match t.inner with
  | [] => { t with given := l }
  | _ :: rest => { t with inner := l :: rest }

/-- One action of the innermost frame. -/
def act (t : TaskLocals) : Action → Option TaskLocals
  | .forbidSignal => some (t.setCurrent t.current.forbidSignal)
  | .setLazyLocal nowLocal =>
      match nowLocal.moveSlotFromContinuation (some t.current) with
      | some (now, some pre) =>
          let moved := t.setCurrent pre
          some { moved with inner := now :: moved.inner }
      -- the wrapper ends with the exception of the assertion
      | _ => some t
  | .leave =>
      match t.inner with
      | [] => none
      | _ :: rest => some { t with inner := rest }

/-- The action gives away the slot of the local that the task was given: it is
done in a frame that uses that local, and a wrapper brings no slot of its own. -/
def abandons (t : TaskLocals) : Action → Bool
  | .forbidSignal => t.inner.isEmpty
  | .setLazyLocal nowLocal => t.inner.isEmpty && nowLocal.slot.isNone
  | .leave => false

end TaskLocals

namespace Losers

/-- A call of {lit}`emits` on the child signal: the task whose callback makes it,
or {lit}`none` for somebody else, and the type. -/
abbrev EmitsCall (n : Nat) := Option (Fin n) × SignalType

/-- The call with the locals of its tasks.  {lit}`abandoned` says which tasks have
given away the slot of their local, {lit}`resumedWith` what had been emitted on the
child signal when a task resumed the coroutine. -/
structure State (n : Nat) (ε : Type) (α : Fin n → Type) where
  call : CollectAny.State n ε α
  locals : Fin n → TaskLocals
  abandoned : Fin n → Bool
  emits : List (EmitsCall n)
  resumedWith : Fin n → Option (List (EmitsCall n))

def State.initial (cfg : Config n ε α) : State n ε α where
  call := CollectAny.State.initial cfg
  locals := fun _ => ⟨LazyLocal.create .child, []⟩
  abandoned := fun _ => false
  emits := []
  resumedWith := fun _ => none

/-- Who moves. -/
inductive Label (n : Nat) where
  | call (l : CollectAny.Label n)
  /-- a frame of the task -/
  | act (i : Fin n) (a : Action)
  /-- somebody else emits on the child signal -/
  | emits (type : SignalType)
deriving DecidableEq, Repr

namespace State

/-- A task does not come to its callback before its wrappers have ended. -/
def busy (s : State n ε α) : CollectAny.Label n → Bool
  | .task i => s.call.task i = .running && !(s.locals i).inner.isEmpty
  | _ => false

/-- What the callback of a task does besides its work on the counter: it emits
through the slot of its local, and it resumes the coroutine. -/
def callback (signalType : SignalType) (s : State n ε α) : CollectAny.Label n → State n ε α
  | .task i =>
      match s.call.task i with
      | .emit _ =>
          if (s.locals i).given.slot = some .child then
            { s with emits := s.emits ++ [(some i, signalType)] }
          else
            s
      | .resume _ => { s with resumedWith := Function.update s.resumedWith i (some s.emits) }
      | _ => s
  | _ => s

/-- A frame of a task acts. -/
def act (s : State n ε α) (i : Fin n) (a : Action) : Option (State n ε α) :=
  match s.call.task i with
  | .running =>
      ((s.locals i).act a).map fun t =>
        { s with
          locals := Function.update s.locals i t
          abandoned :=
            Function.update s.abandoned i (s.abandoned i || (s.locals i).abandons a) }
  | _ => none

end State

/-- {lit}`await_suspend` has created the child signal. -/
def created : MainPc → Bool
  | .ready | .chain | .notSuspended => false
  | _ => true

def step (cfg : Config n ε α) (signalType : SignalType) (s : State n ε α) :
    Label n → Option (State n ε α)
  | .call l =>
      if s.busy l then none
      else (CollectAny.step cfg s.call l).map fun call =>
        { s.callback signalType l with call := call }
  | .act i a => s.act i a
  | .emits type =>
      if created s.call.main then some { s with emits := s.emits ++ [(none, type)] } else none

/-- One call of {lit}`collectAny` with the frames of its tasks and the emissions
on its child signal. -/
def machine (cfg : Config n ε α) (signalType : SignalType) :
    Machine (State n ε α) (Label n) where
  step := step cfg signalType

/-! ## Steps of the call -/

variable {cfg : Config n ε α} {signalType : SignalType}

/-- A task only moves forward. -/
inductive Advances (n : Nat) : TaskPc → TaskPc → Prop where
  | complete : Advances n .running .down
  | count (count : Int) : Advances n .down (.counted count)
  | first : Advances n (.counted (n + 1)) (.emit (n + 1))
  | late (count : Int) : Advances n (.counted count) (.finished count)
  | inform (count : Int) : Advances n (.emit count) (.resume count)
  | resume (count : Int) : Advances n (.resume count) (.finished count)

theorem continueBy_task (c : CollectAny.State n ε α) (who : Continuer n) :
    (c.continueBy cfg who).task = c.task := by
  unfold CollectAny.State.continueBy
  split <;> rfl

theorem continueBy_main (c : CollectAny.State n ε α) (who : Continuer n) :
    (c.continueBy cfg who).main = c.main := by
  unfold CollectAny.State.continueBy
  split <;> rfl

/-- What a step of a task does to the program points. -/
theorem task_of_taskStep {c c' : CollectAny.State n ε α} {i : Fin n}
    (hstep : taskStep cfg c i = some c') :
    c'.main = c.main ∧ ∃ pc, c'.task = Function.update c.task i pc ∧ Advances n (c.task i) pc := by
  unfold taskStep at hstep
  split at hstep
  case h_1 | h_2 => cases hstep
  case h_3 hi =>
    cases hstep
    exact ⟨rfl, _, rfl, hi ▸ .complete⟩
  case h_4 hi =>
    cases hstep
    exact ⟨rfl, _, rfl, hi ▸ .count _⟩
  case h_5 count hi =>
    split at hstep
    case isTrue hcount =>
      cases hstep
      subst hcount
      exact ⟨rfl, _, rfl, hi ▸ .first⟩
    case isFalse =>
      cases hstep
      exact ⟨rfl, _, rfl, hi ▸ .late count⟩
  case h_6 count hi =>
    cases hstep
    exact ⟨rfl, _, rfl, hi ▸ .inform count⟩
  case h_7 count hi =>
    cases hstep
    rw [continueBy_task, continueBy_main]
    exact ⟨rfl, _, rfl, hi ▸ .resume count⟩

/-- What a step of {lit}`await_suspend` does to the tasks: it starts the next one or
none. -/
theorem task_of_mainStep {c c' : CollectAny.State n ε α} (hstep : mainStep cfg c = some c') :
    (c'.task = c.task ∧ (c.main.next n ≤ c'.main.next n ∨ c'.main = .returned true)) ∨
      ∃ i : Fin n, c.main = .loop i ∧ c'.main = .loop (i + 1) ∧
        c'.task = Function.update c.task i .running := by
  unfold mainStep at hstep
  split at hstep
  case h_1 | h_2 | h_3 => cases hstep
  case h_4 hmain =>
    left
    split at hstep <;> cases hstep
    · rw [continueBy_task, continueBy_main, hmain]
      exact ⟨rfl, .inl (Nat.zero_le _)⟩
    · rw [hmain]
      exact ⟨rfl, .inl (Nat.zero_le _)⟩
  case h_5 hmain =>
    left
    rw [hmain]
    split at hstep <;> cases hstep <;> exact ⟨rfl, .inl (Nat.zero_le _)⟩
  case h_6 pc hmain =>
    left
    rw [hmain]
    dsimp only at hstep
    split at hstep <;> cases hstep
    case h_3 =>
      rw [continueBy_task, continueBy_main]
      exact ⟨rfl, .inl (Nat.zero_le _)⟩
    all_goals exact ⟨rfl, .inl (Nat.zero_le _)⟩
  case h_7 k hmain =>
    split at hstep
    case isTrue hk =>
      cases hstep
      exact .inr ⟨⟨k, hk⟩, hmain, rfl, rfl⟩
    case isFalse =>
      cases hstep
      exact .inl ⟨rfl, .inr rfl⟩

/-- The coroutine and the emission do not move the tasks. -/
theorem task_of_other {c c' : CollectAny.State n ε α} {l : CollectAny.Label n}
    (hmain : l ≠ .main) (htask : ∀ i, l ≠ .task i) (hstep : CollectAny.step cfg c l = some c') :
    c'.task = c.task ∧ c'.main = c.main := by
  cases l with
  | main => exact (hmain rfl).elim
  | task i => exact (htask i rfl).elim
  | coro =>
      simp only [CollectAny.step, coroStep] at hstep
      split at hstep <;> cases hstep <;> exact ⟨rfl, rfl⟩
  | emits =>
      simp only [CollectAny.step] at hstep
      split at hstep
      · rcases Option.map_eq_some_iff.mp hstep with ⟨slot, -, rfl⟩
        exact ⟨rfl, rfl⟩
      · cases hstep
  | emission =>
      simp only [CollectAny.step, emissionStep] at hstep
      split at hstep
      case h_1 =>
        cases hstep
        exact ⟨rfl, rfl⟩
      case h_2 =>
        split at hstep <;> cases hstep
        · exact ⟨rfl, rfl⟩
        · split
          · rw [continueBy_task, continueBy_main]
            exact ⟨rfl, rfl⟩
          · exact ⟨rfl, rfl⟩
      case h_3 =>
        cases hstep
        exact ⟨rfl, rfl⟩
      case h_4 =>
        rcases Option.map_eq_some_iff.mp hstep with ⟨slot, -, rfl⟩
        exact ⟨rfl, rfl⟩

/-! ## The invariant -/

/-- The local that a task was given, after what its frames have done to it. -/
def givenLocal (abandoned : Bool) : LazyLocal where
  typeTag := false
  slot := if abandoned then none else some .child

theorem given_of_act {t t' : TaskLocals} {a : Action} {abandoned : Bool}
    (hgiven : t.given = givenLocal abandoned) (hact : t.act a = some t') :
    t'.given = givenLocal (abandoned || t.abandons a) := by
  rcases t with ⟨given, inner⟩
  subst hgiven
  cases a with
  | forbidSignal =>
      cases hact
      cases inner with
      | nil => simp [TaskLocals.setCurrent, TaskLocals.current, TaskLocals.abandons,
          LazyLocal.forbidSignal, givenLocal]
      | cons l rest => simp [TaskLocals.setCurrent, TaskLocals.abandons]
  | setLazyLocal nowLocal =>
      cases inner with
      | nil =>
          -- the assertion fails when the slot is already gone or a second one comes
          cases abandoned <;> cases hslot : nowLocal.slot <;>
            simp [TaskLocals.act, TaskLocals.current, LazyLocal.moveSlotFromContinuation,
              givenLocal, TaskLocals.setCurrent, hslot] at hact <;>
            simp [← hact, TaskLocals.abandons, givenLocal, hslot]
      | cons l rest =>
          simp only [TaskLocals.act, TaskLocals.current, List.headD_cons] at hact
          split at hact <;> cases hact <;> simp [TaskLocals.setCurrent, TaskLocals.abandons]
  | leave =>
      simp only [TaskLocals.act] at hact
      cases inner with
      | nil => cases hact
      | cons l rest =>
          cases hact
          simp [TaskLocals.abandons]

/-- The callback of the task is past its emission, if it makes one. -/
def Informed : TaskPc → Prop
  | .resume _ | .finished _ => True
  | _ => False

/-- The locals of the tasks and what their callbacks have emitted. -/
structure Inv (signalType : SignalType) (s : State n ε α) : Prop where
  unstarted : ∀ i : Fin n, s.call.main.next n ≤ i → s.call.task i = .unstarted
  given : ∀ i, (s.locals i).given = givenLocal (s.abandoned i)
  own : ∀ i type, (some i, type) ∈ s.emits →
    s.abandoned i = false ∧ Informed (s.call.task i)
  informed : ∀ i count, s.call.task i = .resume count → s.abandoned i = false →
    (some i, signalType) ∈ s.emits
  resumed : ∀ i calls, s.resumedWith i = some calls →
    Informed (s.call.task i) ∧ (s.abandoned i = false → (some i, signalType) ∈ calls) ∧
      ∀ type, (some i, type) ∈ calls → s.abandoned i = false

namespace Inv

variable {s s' : State n ε α}

theorem initial (cfg : Config n ε α) : Inv signalType (State.initial cfg) where
  unstarted := fun _ _ => rfl
  given := fun _ => rfl
  own := by simp [State.initial]
  informed := nofun
  resumed := nofun

/-- The call moves, and its callbacks do nothing to the child signal. -/
theorem setCall (h : Inv signalType s) {call : CollectAny.State n ε α}
    (hunstarted : ∀ i : Fin n, call.main.next n ≤ i → call.task i = .unstarted)
    (hinformed : ∀ i, Informed (s.call.task i) → Informed (call.task i))
    (hresume : ∀ i count, call.task i = .resume count → s.abandoned i = false →
      (some i, signalType) ∈ s.emits) : Inv signalType { s with call := call } := by
  refine ⟨hunstarted, h.given, ?_, hresume, ?_⟩
  · intro i type hcall
    rcases h.own i type hcall with ⟨hkept, hpast⟩
    exact ⟨hkept, hinformed i hpast⟩
  · intro i calls hcalls
    rcases h.resumed i calls hcalls with ⟨hpast, hrest⟩
    exact ⟨hinformed i hpast, hrest⟩

/-- One task of the call moves. -/
theorem setTask (h : Inv signalType s) {call : CollectAny.State n ε α} {i : Fin n} {pc : TaskPc}
    (hmain : call.main = s.call.main) (htask : call.task = Function.update s.call.task i pc)
    (hstarted : s.call.task i ≠ .unstarted)
    (hinformed : Informed (s.call.task i) → Informed pc)
    (hresume : ∀ count, pc = .resume count → s.abandoned i = false →
      (some i, signalType) ∈ s.emits) : Inv signalType { s with call := call } := by
  refine h.setCall ?_ ?_ ?_
  · intro j hj
    rw [hmain] at hj
    have hne : j ≠ i := by
      rintro rfl
      exact hstarted (h.unstarted j hj)
    rw [htask, Function.update_of_ne hne]
    exact h.unstarted j hj
  · intro j hj
    rw [htask]
    by_cases hji : j = i
    · subst hji
      rw [Function.update_self]
      exact hinformed hj
    · rwa [Function.update_of_ne hji]
  · intro j count hj hkept
    rw [htask] at hj
    by_cases hji : j = i
    · subst hji
      rw [Function.update_self] at hj
      exact hresume count hj hkept
    · rw [Function.update_of_ne hji] at hj
      exact h.informed j count hj hkept

/-- Somebody else emits on the child signal. -/
theorem emits (h : Inv signalType s) (type : SignalType) :
    Inv signalType { s with emits := s.emits ++ [(none, type)] } := by
  refine ⟨h.unstarted, h.given, ?_, ?_, h.resumed⟩
  · intro i type' hcall
    simp only [List.mem_append, List.mem_singleton, Prod.mk.injEq, reduceCtorEq, false_and,
      or_false] at hcall
    exact h.own i type' hcall
  · intro i count hi hkept
    exact List.mem_append_left _ (h.informed i count hi hkept)

/-- The first completion goes through its slot to the child signal. -/
theorem inform (h : Inv signalType s) {call : CollectAny.State n ε α} {i : Fin n} {count : Int}
    (hi : s.call.task i = .emit count) (hmain : call.main = s.call.main)
    (htask : call.task = Function.update s.call.task i (.resume count))
    (hkept : s.abandoned i = false) :
    Inv signalType { s with call := call, emits := s.emits ++ [(some i, signalType)] } := by
  have hmoved : ∀ j, Informed (s.call.task j) → Informed (call.task j) := by
    intro j hj
    have hne : j ≠ i := by
      rintro rfl
      rw [hi] at hj
      exact hj
    rwa [htask, Function.update_of_ne hne]
  refine ⟨?_, h.given, ?_, ?_, ?_⟩
  · intro j hj
    have hunstarted := h.unstarted j (by rwa [← hmain])
    have hne : j ≠ i := by
      rintro rfl
      rw [hi] at hunstarted
      cases hunstarted
    show call.task j = .unstarted
    rw [htask, Function.update_of_ne hne, hunstarted]
  · intro j type hcall
    rcases List.mem_append.mp hcall with hold | hnew
    · rcases h.own j type hold with ⟨hj, hpast⟩
      exact ⟨hj, hmoved j hpast⟩
    · rw [List.mem_singleton, Prod.mk.injEq, Option.some.injEq] at hnew
      rcases hnew with ⟨rfl, rfl⟩
      refine ⟨hkept, ?_⟩
      show Informed (call.task j)
      rw [htask, Function.update_self]
      trivial
  · intro j count' hj hkept'
    by_cases hji : j = i
    · subst hji
      exact List.mem_append_right _ (List.mem_singleton.mpr rfl)
    · have hold : s.call.task j = .resume count' := by
        rw [← hj]
        show s.call.task j = call.task j
        rw [htask, Function.update_of_ne hji]
      exact List.mem_append_left _ (h.informed j count' hold hkept')
  · intro j calls hcalls
    rcases h.resumed j calls hcalls with ⟨hpast, hrest⟩
    exact ⟨hmoved j hpast, hrest⟩

/-- The first completion resumes the coroutine. -/
theorem resume (h : Inv signalType s) {i : Fin n} {count : Int}
    (hi : s.call.task i = .resume count) :
    Inv signalType { s with resumedWith := Function.update s.resumedWith i (some s.emits) } := by
  refine ⟨h.unstarted, h.given, h.own, h.informed, ?_⟩
  intro j calls hcalls
  by_cases hji : j = i
  · subst hji
    simp only [Function.update_self, Option.some.injEq] at hcalls
    subst hcalls
    refine ⟨?_, h.informed j count hi, fun type hcall => (h.own j type hcall).1⟩
    show Informed (s.call.task j)
    rw [hi]
    trivial
  · simp only [Function.update_of_ne hji] at hcalls
    exact h.resumed j calls hcalls

theorem step_task (h : Inv signalType s) {i : Fin n} {call : CollectAny.State n ε α}
    (hstep : taskStep cfg s.call i = some call) :
    Inv signalType { s.callback signalType (.task i) with call := call } := by
  rcases task_of_taskStep hstep with ⟨hmain, pc, htask, hadvances⟩
  generalize hi : s.call.task i = old at hadvances
  cases hadvances with
  | complete | count | late | first =>
      simp only [State.callback, hi]
      exact h.setTask hmain htask (by simp [hi]) (by simp [hi, Informed]) nofun
  | inform count =>
      simp only [State.callback, hi, h.given i, givenLocal]
      cases hkept : s.abandoned i with
      | false =>
          simp only [Bool.false_eq_true, if_false, if_true]
          exact h.inform hi hmain htask hkept
      | true =>
          simp only [if_true, reduceCtorEq, if_false]
          refine h.setTask hmain htask (by simp [hi]) (by simp [hi, Informed]) ?_
          intro count' _ hkept'
          rw [hkept] at hkept'
          cases hkept'
  | resume count =>
      simp only [State.callback, hi]
      exact (h.resume hi).setTask hmain htask (by simp [hi]) (by simp [Informed]) nofun

theorem step_call (h : Inv signalType s) {l : CollectAny.Label n}
    {call : CollectAny.State n ε α} (hstep : CollectAny.step cfg s.call l = some call) :
    Inv signalType { s.callback signalType l with call := call } := by
  cases l with
  | task i => exact h.step_task hstep
  | main =>
      rcases task_of_mainStep hstep with ⟨htask, hnext⟩ | ⟨i, hloop, hmain, htask⟩
      · refine h.setCall ?_ ?_ ?_
        · intro j hj
          rw [htask]
          rcases hnext with hnext | hmain
          · exact h.unstarted j (hnext.trans hj)
          · rw [hmain] at hj
            exact absurd hj (Nat.not_le.mpr j.isLt)
        · intro j hj
          rwa [htask]
        · intro j count hj
          rw [htask] at hj
          exact h.informed j count hj
      · have hunstarted : s.call.task i = .unstarted := by
          refine h.unstarted i ?_
          rw [hloop]
          exact le_rfl
        refine h.setCall ?_ ?_ ?_
        · intro j hj
          rw [hmain] at hj
          have hlater : i.val + 1 ≤ j.val := hj
          have hne : j ≠ i := by
            rintro rfl
            omega
          rw [htask, Function.update_of_ne hne]
          refine h.unstarted j ?_
          rw [hloop]
          exact Nat.le_of_succ_le hlater
        · intro j hj
          have hne : j ≠ i := by
            rintro rfl
            rw [hunstarted] at hj
            exact hj
          rwa [htask, Function.update_of_ne hne]
        · intro j count hj hkept
          have hne : j ≠ i := by
            rintro rfl
            rw [htask, Function.update_self] at hj
            cases hj
          rw [htask, Function.update_of_ne hne] at hj
          exact h.informed j count hj hkept
  | coro | emits | emission =>
      rcases task_of_other (by simp) (by simp) hstep with ⟨htask, hmain⟩
      refine h.setCall ?_ ?_ ?_
      · intro j hj
        rw [hmain] at hj
        rw [htask]
        exact h.unstarted j hj
      · intro j hj
        rwa [htask]
      · intro j count hj
        rw [htask] at hj
        exact h.informed j count hj

/-- A frame of a task that has not completed acts. -/
theorem step_act (h : Inv signalType s) {i : Fin n} {a : Action} (hstep : s.act i a = some s') :
    Inv signalType s' := by
  unfold State.act at hstep
  split at hstep
  case h_2 => cases hstep
  case h_1 hi =>
    rcases Option.map_eq_some_iff.mp hstep with ⟨t, hact, rfl⟩
    have hrunning : ¬ Informed (s.call.task i) := by simp [hi, Informed]
    refine ⟨h.unstarted, ?_, ?_, ?_, ?_⟩
    · intro j
      by_cases hji : j = i
      · subst hji
        simp only [Function.update_self]
        exact given_of_act (h.given j) hact
      · simp only [Function.update_of_ne hji]
        exact h.given j
    · intro j type hcall
      rcases h.own j type hcall with ⟨hkept, hpast⟩
      have hne : j ≠ i := by
        rintro rfl
        exact hrunning hpast
      simp only [Function.update_of_ne hne]
      exact ⟨hkept, hpast⟩
    · intro j count hj hkept
      have hresume : s.call.task j = .resume count := hj
      have hne : j ≠ i := by
        rintro rfl
        rw [hi] at hresume
        cases hresume
      simp only [Function.update_of_ne hne] at hkept
      exact h.informed j count hresume hkept
    · intro j calls hcalls
      rcases h.resumed j calls hcalls with ⟨hpast, hrest⟩
      have hne : j ≠ i := by
        rintro rfl
        exact hrunning hpast
      simp only [Function.update_of_ne hne]
      exact ⟨hpast, hrest⟩

/-- Every step keeps the invariant. -/
theorem step (h : Inv signalType s) {l : Label n}
    (hstep : (machine cfg signalType).step s l = some s') : Inv signalType s' := by
  cases l with
  | call l =>
      simp only [machine, Losers.step] at hstep
      split at hstep
      · cases hstep
      · rcases Option.map_eq_some_iff.mp hstep with ⟨call, hcall, rfl⟩
        exact h.step_call hcall
  | act i a => exact h.step_act hstep
  | emits type =>
      simp only [machine, Losers.step] at hstep
      split at hstep
      · cases hstep
        exact h.emits type
      · cases hstep

end Inv

/-! ## What the losers are told -/

/-- Every type of the set has been emitted by one of the calls. -/
def Emitted (signalType : SignalType) (calls : List (EmitsCall n)) : Prop :=
  ∀ b : Index, signalType.has b = true → ∃ call ∈ calls, call.2.has b = true

instance (signalType : SignalType) (calls : List (EmitsCall n)) :
    Decidable (Emitted signalType calls) :=
  inferInstanceAs (Decidable (∀ _ : Index, _ → _))

/-- The calls that are not made by the callback of the task. -/
def byOthers (i : Fin n) (calls : List (EmitsCall n)) : List (EmitsCall n) :=
  calls.filter fun call => call.1 ≠ some i

/-- When a task has resumed the coroutine as the first completion, the signal type
had been emitted on the child signal before exactly if no frame of the task gave
away the slot, or somebody else had emitted the type. -/
theorem emitted_before_resume_iff (cfg : Config n ε α) (signalType : SignalType)
    {ls : List (Label n)} {t : State n ε α}
    (hrun : (machine cfg signalType).run (State.initial cfg) ls = some t)
    {i : Fin n} {calls : List (EmitsCall n)} (hresumed : t.resumedWith i = some calls) :
    Emitted signalType calls ↔
      t.abandoned i = false ∨ Emitted signalType (byOthers i calls) := by
  have hinv : Inv signalType t :=
    (machine cfg signalType).run_invariant (fun _ _ _ h hstep => h.step hstep) (Inv.initial cfg)
      hrun
  rcases hinv.resumed i calls hresumed with ⟨-, hkept, hown⟩
  constructor
  · intro hemitted
    cases habandoned : t.abandoned i with
    | false => exact .inl rfl
    | true =>
        right
        intro b hb
        rcases hemitted b hb with ⟨⟨p, type⟩, hcall, hhas⟩
        refine ⟨(p, type), List.mem_filter.mpr ⟨hcall, decide_eq_true ?_⟩, hhas⟩
        rintro rfl
        have hfalse := hown type hcall
        rw [habandoned] at hfalse
        cases hfalse
  · rintro (habandoned | hothers) b hb
    · exact ⟨_, hkept habandoned, hb⟩
    · rcases hothers b hb with ⟨call, hcall, hhas⟩
      exact ⟨call, (List.mem_filter.mp hcall).1, hhas⟩

/-- Two tasks and no slot of the parent. -/
def twoTasks : Config 2 Unit (fun _ => Nat) where
  form := .vector
  hasSlot := false
  filter := false
  manager := false
  earlierHandler := false
  outcome := fun _ => .value 7

/-- Both tasks are started, the frames of one of them act, and one of the tasks
completes and resumes the coroutine. -/
def winnerRun (acts : List Action) (actor winner : Fin 2) : List (Label 2) :=
  List.replicate 5 (.call .main) ++ acts.map (.act actor) ++
    List.replicate 5 (.call (.task winner))

/-- The first task gives its slot away and loses. -/
theorem emitted_before_resume_iff_kept :
    ∃ t, (machine twoTasks (Index.signal 0)).run (State.initial twoTasks)
        (winnerRun [.forbidSignal] 0 1) = some t ∧
      t.resumedWith 1 = some [(some 1, Index.signal 0)] ∧
      (Emitted (Index.signal 0) [((some 1 : Option (Fin 2)), Index.signal 0)] ↔
        t.abandoned 1 = false ∨
          Emitted (Index.signal 0) (byOthers (1 : Fin 2) [(some 1, Index.signal 0)])) := by
  rcases (machine twoTasks (Index.signal 0)).exists_run_of_any (State.initial twoTasks)
    (winnerRun [.forbidSignal] 0 1)
    (fun t => t.resumedWith 1 = some [(some 1, Index.signal 0)]) (by decide +kernel) with
    ⟨t, hrun, hresumed⟩
  exact ⟨t, hrun, hresumed, emitted_before_resume_iff twoTasks (Index.signal 0) hrun hresumed⟩

/-- The coroutine is resumed by the winner, the type has not been emitted on the child
signal, and the other task runs on. -/
def LoserNotTold (type : SignalType) (winner loser : Fin 2) (t : State 2 Unit (fun _ => Nat)) :
    Prop :=
  t.call.continues = [.party (some winner)] ∧ t.call.task loser = .running ∧
    ∃ calls, t.resumedWith winner = some calls ∧ ¬ Emitted type calls

theorem loserNotTold_of_nil {t : State 2 Unit (fun _ => Nat)}
    (hcontinues : t.call.continues = [.party (some 0)]) (hother : t.call.task 1 = .running)
    (hresumed : t.resumedWith 0 = some []) : LoserNotTold (Index.signal 0) 0 1 t := by
  refine ⟨hcontinues, hother, [], hresumed, ?_⟩
  intro h
  rcases h 0 (by decide) with ⟨call, hcall, -⟩
  cases hcall

/-- The first task wins after {lit}`ForbidSignal`, or after a wrapper with a local of
the user's type. -/
theorem winner_without_slot_emits_nothing :
    (∃ t, (machine twoTasks (Index.signal 0)).run (State.initial twoTasks)
        (winnerRun [.forbidSignal] 0 0) = some t ∧
      LoserNotTold (Index.signal 0) 0 1 t) ∧
    ∃ t, (machine twoTasks (Index.signal 0)).run (State.initial twoTasks)
        (winnerRun [.setLazyLocal ⟨true, none⟩, .leave] 0 0) = some t ∧
      LoserNotTold (Index.signal 0) 0 1 t := by
  constructor
  · rcases (machine twoTasks (Index.signal 0)).exists_run_of_any (State.initial twoTasks)
      (winnerRun [.forbidSignal] 0 0)
      (fun t => t.call.continues = [.party (some 0)] ∧ t.call.task 1 = .running ∧
        t.resumedWith 0 = some [])
      (by decide +kernel) with ⟨t, hrun, hcontinues, hother, hresumed⟩
    exact ⟨t, hrun, loserNotTold_of_nil hcontinues hother hresumed⟩
  · rcases (machine twoTasks (Index.signal 0)).exists_run_of_any (State.initial twoTasks)
      (winnerRun [.setLazyLocal ⟨true, none⟩, .leave] 0 0)
      (fun t => t.call.continues = [.party (some 0)] ∧ t.call.task 1 = .running ∧
        t.resumedWith 0 = some [])
      (by decide +kernel) with ⟨t, hrun, hcontinues, hother, hresumed⟩
    exact ⟨t, hrun, loserNotTold_of_nil hcontinues hother hresumed⟩

end Losers

end CollectAny

end AsyncSimple
