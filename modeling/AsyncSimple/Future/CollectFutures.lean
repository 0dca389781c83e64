import AsyncSimple.Future.GuardedHandOff

/-!
# Collecting the results of many futures

{lit}`collectAll` in {lit}`async_simple/Collect.h` turns a list of futures into one future
of the vector of their results.  When all of them are ready it reads the results at once.
Otherwise it makes a {lit}`Context` that is shared by the call and by one continuation for
every future that is not ready; each continuation stores its result there, and the
destructor of the {lit}`Context` fulfils the promise.  The destructor runs when the last
reference is gone: that of the call, or that of a continuation which is destroyed.

A future may become ready at any moment, also between {lit}`hasResult` and
{lit}`setContinuation`, and its executor may refuse the continuation.

Main results:

- Theorem {lit}`Inv.step`: the references to the context are those of the call and of the
  continuations that are not destroyed.
- Theorem {lit}`Inv.exists_settled`: every run can be brought to its end.
- Theorem {lit}`collectAll_result`: the returned future gets the vector of all results,
  once, after all of them are there.
-/

namespace AsyncSimple

open Transition FutureState

namespace CollectFutures

variable {ε α : Type} {n : Nat}

/-! ## The call and its inputs -/

/-- A future of the range: it holds its result itself, or it shares a state with a
promise. -/
inductive Kind where
  | localState
  | sharedState (executor context : Option Nat) (forceSched : Bool)
deriving DecidableEq, Repr

/-- The shared state as its owner has set it up. -/
def Kind.configured : Kind → FutureState ε α Unit
  | .localState => create
  | .sharedState executor context forceSched =>
      { create with executor := executor, context := context }.setForceSched forceSched

/-- A future and whether its continuation holds a reference to the context. -/
structure Input (ε α : Type) where
  guarded : Guarded ε α
  holdsContext : Bool

/-- The two ways through {lit}`collectAll`. -/
inductive Path where
  | allReady
  | context
deriving DecidableEq, Repr

/-- Program points of {lit}`collectAll`. -/
inductive Pc (n : Nat) where
  /-- the loop that sets {lit}`allReady` -/
  | scan (i : Nat)
  /-- the loop of the all-ready path -/
  | collect (i : Nat)
  | makeContext
  /-- the loop over the futures with the context -/
  | loop (i : Nat)
  /-- inside {lit}`setContinuation` -/
  | setContinuation (i : Fin n)
  /-- {lit}`ctx` goes out of scope -/
  | leave
  | returned (path : Path)
deriving DecidableEq, Repr

structure State (ε α : Type) (n : Nat) where
  pc : Pc n
  input : Fin n → Input ε α
  /-- the vector of the all-ready path -/
  collected : List (Try ε α)
  /-- {lit}`ctx->results` -/
  results : Fin n → Try ε α
  /-- {lit}`ctx.use_count()` -/
  useCount : Nat
  /-- the results that the returned future has been given -/
  output : List (List (Try ε α))

def State.initial (kind : Fin n → Kind) : State ε α n where
  pc := .scan 0
  input := fun i => ⟨Guarded.initial (kind i).configured, false⟩
  collected := []
  results := fun _ => .nothing
  useCount := 0
  output := []

/-- {lit}`Future<T>::hasResult`. -/
def Input.hasResult (kind : Kind) (x : Input ε α) : Bool :=
  match kind with
  | .localState => true
  | .sharedState _ _ _ => x.guarded.handOff.shared.fs.state.hasResult

/-- {lit}`Future<T>::result`; {lit}`v` is what a future with a local state holds. -/
def Input.result (kind : Kind) (v : Try ε α) (x : Input ε α) : Try ε α :=
  match kind with
  | .localState => v
  | .sharedState _ _ _ => x.guarded.handOff.shared.fs.tryValue

/-- A reference to the context is dropped; {lit}`~Context` runs with the last one. -/
def State.release (s : State ε α n) : State ε α n :=
  { s with
    useCount := s.useCount - 1
    output := if s.useCount = 1 then s.output ++ [List.ofFn s.results] else s.output }

/-- One step of {lit}`collectAll`. -/
def callerStep (kind : Fin n → Kind) (t : Fin n → Try ε α) (s : State ε α n) :
    Option (State ε α n) :=
  match s.pc with
  | .scan i =>
      if h : i < n then
        if (s.input ⟨i, h⟩).hasResult (kind ⟨i, h⟩) then
          some { s with pc := .scan (i + 1) }
        else
          some { s with pc := .makeContext }
      else
        some { s with pc := .collect 0 }
  | .collect i =>
      if h : i < n then
        some { s with
          collected := s.collected ++ [(s.input ⟨i, h⟩).result (kind ⟨i, h⟩) (t ⟨i, h⟩)]
          pc := .collect (i + 1) }
      else
        some { s with output := s.output ++ [s.collected], pc := .returned .allReady }
  | .makeContext => some { s with useCount := 1, pc := .loop 0 }
  | .loop i =>
      if h : i < n then
        if (s.input ⟨i, h⟩).hasResult (kind ⟨i, h⟩) then
          some { s with
            results := Function.update s.results ⟨i, h⟩
              ((s.input ⟨i, h⟩).result (kind ⟨i, h⟩) (t ⟨i, h⟩))
            pc := .loop (i + 1) }
        else
          -- the lambda captures `ctx`
          some { s with
            input := Function.update s.input ⟨i, h⟩
              { s.input ⟨i, h⟩ with holdsContext := true }
            useCount := s.useCount + 1
            pc := .setContinuation ⟨i, h⟩ }
      else
        some { s with pc := .leave }
  | .setContinuation i =>
      if (s.input i).guarded.handOff.attacher = .returned then
        some { s with pc := .loop (i + 1) }
      else
        none
  | .leave => some { s.release with pc := .returned .context }
  | .returned _ => none

/-- {lit}`ctx->results[i] = std::move(t)`, when a move has invoked the continuation. -/
def Input.resultAfter (x : Input ε α) (g : Guarded ε α) (result : Try ε α) : Try ε α :=
  if g.handOff.shared.invoked.length = x.guarded.handOff.shared.invoked.length then
    result
  else
    match g.handOff.shared.invoked with
    | [] => result
    | (_, v) :: _ => v

/-- A continuation that is destroyed has no reference. -/
def Input.moved (x : Input ε α) (g : Guarded ε α) : Input ε α where
  guarded := g
  holdsContext := x.holdsContext && g.guards.destroyed == x.guarded.guards.destroyed

/-- A move on the state of an input. -/
def State.moved (s : State ε α n) (i : Fin n) (g : Guarded ε α) : State ε α n :=
  { s with
    input := Function.update s.input i ((s.input i).moved g)
    results := Function.update s.results i ((s.input i).resultAfter g (s.results i)) }

/-- The same, with the reference that a destroyed continuation drops. -/
def State.afterMove (s : State ε α n) (i : Fin n) (g : Guarded ε α) : State ε α n :=
  if g.guards.destroyed = (s.input i).guarded.guards.destroyed then
    s.moved i g
  else
    (s.moved i g).release

/-- Whether the move can be made now: there is a promise, and {lit}`collectAll` calls
{lit}`setContinuation` at one place. -/
def State.allows (kind : Fin n → Kind) (s : State ε α n) (i : Fin n) : GuardLabel → Bool
  | .handOff (.setContinuation _) => s.pc = .setContinuation i
  | _ => kind i ≠ .localState

inductive Label (n : Nat) where
  | caller
  | input (i : Fin n) (l : GuardLabel)
deriving DecidableEq, Repr

def step (kind : Fin n → Kind) (t : Fin n → Try ε α) (s : State ε α n) :
    Label n → Option (State ε α n)
  | .caller => callerStep kind t s
  | .input i l =>
      if s.allows kind i l then
        ((s.input i).guarded.step (t i) l).map (s.afterMove i)
      else
        none

/-- One call of {lit}`collectAll` and the promise sides of its inputs. -/
def machine (kind : Fin n → Kind) (t : Fin n → Try ε α) : Machine (State ε α n) (Label n) where
  step := step kind t

/-- The call has returned, every promise has been fulfilled, and no task and no guard of a
continuation is left. -/
def Settled (kind : Fin n → Kind) (s : State ε α n) : Prop :=
  (∃ path, s.pc = .returned path) ∧ ∀ i, kind i ≠ .localState →
    (s.input i).guarded.handOff.setter () = .returned ∧
      (s.input i).guarded.handOff.shared.pending = 0 ∧
      (s.input i).guarded.guards.caller = 0 ∧ (s.input i).guarded.guards.task = 0

/-! ## One input -/

def Kind.executor : Kind → Option Nat
  | .localState => none
  | .sharedState executor _ _ => executor

/-- {lit}`setForceSched` has no effect without an executor. -/
def Kind.forced : Kind → Bool
  | .localState => false
  | .sharedState executor _ forceSched => executor.isSome && forceSched

theorem Kind.executor_ne_none_of_forced {kind : Kind} (h : kind.forced = true) :
    kind.executor ≠ none := by
  cases kind with
  | localState => cases h
  | sharedState executor context forceSched =>
      cases executor with
      | none => cases h
      | some e => simp [Kind.executor]

/-- How far the loop has come with an input. -/
inductive Stage where
  | untouched
  | attaching
  | passed
deriving DecidableEq, Repr

/-- What the loop and the continuation have done with an input. -/
def Staged (kind : Kind) (v result : Try ε α) (x : Input ε α) : Stage → Prop
  | .untouched => x.guarded.handOff.attacher = .check ∧ x.holdsContext = false
  | .attaching =>
      kind ≠ .localState ∧ x.holdsContext = decide (x.guarded.guards.destroyed = 0)
  | .passed =>
      (x.guarded.handOff.attacher = .check ∧ x.holdsContext = false ∧
        x.hasResult kind = true ∧ result = v) ∨
      (kind ≠ .localState ∧ x.guarded.handOff.attacher = .returned ∧
        x.holdsContext = decide (x.guarded.guards.destroyed = 0))

structure InputInv (kind : Kind) (v result : Try ε α) (stage : Stage) (x : Input ε α) : Prop where
  guarded : GuardInv v kind.executor kind.forced x.guarded
  stored : x.guarded.handOff.shared.invoked ≠ [] → result = v
  staged : Staged kind v result x stage

namespace InputInv

variable {kind : Kind} {v result : Try ε α} {stage : Stage} {x : Input ε α}

theorem initial (kind : Kind) (v : Try ε α) :
    InputInv kind v .nothing .untouched ⟨Guarded.initial kind.configured, false⟩ := by
  refine ⟨?_, fun hinvoked => absurd rfl hinvoked, rfl, rfl⟩
  cases kind with
  | localState => exact GuardInv.initial v none none false
  | sharedState executor context forceSched =>
      cases executor with
      | none =>
          cases forceSched
          · exact GuardInv.initial v none context false
          · exact GuardInv.initial v none context false
      | some e => exact GuardInv.initial v (some e) context forceSched

/-- A future with a result holds that of its promise. -/
theorem result_eq (h : InputInv kind v result stage x) (hresult : x.hasResult kind = true) :
    x.result kind v = v := by
  cases kind with
  | localState => rfl
  | sharedState => exact h.guarded.handOff.tryValue_of_hasResult hresult

theorem hasResult_of_invoked (h : InputInv kind v result stage x)
    (hinvoked : x.guarded.handOff.shared.invoked ≠ []) : x.hasResult kind = true := by
  have hdone := h.guarded.handOff.done_of_invoked hinvoked
  cases kind with
  | localState => rfl
  | sharedState => simp [Input.hasResult, hdone]

/-- Before {lit}`setContinuation` there is nothing to destroy. -/
theorem guards_of_check {g : Guarded ε α} {executor : Option Nat} {forced : Bool}
    (h : GuardInv v executor forced g) (hcheck : g.handOff.attacher = .check) :
    g.guards = Guards.none :=
  h.counted.quiet (h.handOff.not_done (by rw [hcheck]; rfl))

/-- An input that holds no reference any more has given its result. -/
theorem of_released (h : InputInv kind v result .passed x) (hreleased : x.holdsContext = false) :
    x.hasResult kind = true ∧ result = v := by
  rcases h.staged with ⟨-, -, hresult⟩ | ⟨-, -, hholds⟩
  · exact hresult
  · rw [hreleased] at hholds
    have hinvoked := h.guarded.invoked_of_destroyed (of_decide_eq_false hholds.symm)
    exact ⟨h.hasResult_of_invoked hinvoked, h.stored hinvoked⟩

/-- A settled input holds no reference. -/
theorem released_of_settled (h : InputInv kind v result .passed x)
    (hsettled : kind ≠ .localState → x.guarded.handOff.setter () = .returned ∧
      x.guarded.handOff.shared.pending = 0 ∧ x.guarded.guards.caller = 0 ∧
      x.guarded.guards.task = 0) : x.holdsContext = false := by
  rcases h.staged with ⟨-, hholds, -⟩ | ⟨hshared, hattacher, hholds⟩
  · exact hholds
  · rcases hsettled hshared with ⟨hsetter, hpending, hcaller, htask⟩
    have hdestroyed :=
      h.guarded.destroyed_of_settled ⟨hsetter, hattacher, hpending⟩ hcaller htask
    rw [hholds, hdestroyed]
    rfl

/-! ### Moves on the state of an input -/

section Moves

variable {l : GuardLabel} {g : Guarded ε α}

theorem step_attacher_eq (hstep : x.guarded.step v l = some g)
    (hnot : ∀ answer, l ≠ .handOff (.setContinuation answer)) :
    g.handOff.attacher = x.guarded.handOff.attacher := by
  cases l with
  | handOff l =>
      simp only [Guarded.step, Option.map_eq_some_iff] at hstep
      rcases hstep with ⟨handOff, hmove, rfl⟩
      rcases step_attacher hmove with hsame | ⟨answer, rfl⟩
      · exact hsame
      · exact absurd rfl (hnot answer)
  | dropCaller | dropTask =>
      simp only [Guarded.step, Option.ite_none_right_eq_some, Option.some.injEq] at hstep
      rcases hstep with ⟨-, rfl⟩
      rfl

theorem hasResult_step (hstep : x.guarded.step v l = some g) (hresult : x.hasResult kind = true) :
    (x.moved g).hasResult kind = true := by
  cases kind with
  | localState => rfl
  | sharedState =>
      cases l with
      | handOff l =>
          simp only [Guarded.step, Option.map_eq_some_iff] at hstep
          rcases hstep with ⟨handOff, hmove, rfl⟩
          exact step_hasResult hmove hresult
      | dropCaller | dropTask =>
          simp only [Guarded.step, Option.ite_none_right_eq_some, Option.some.injEq] at hstep
          rcases hstep with ⟨-, rfl⟩
          exact hresult

/-- A move stores the result of the promise, or nothing. -/
theorem resultAfter_eq (h : InputInv kind v result stage x) (hstep : x.guarded.step v l = some g) :
    g.handOff.shared.invoked = x.guarded.handOff.shared.invoked ∧
        x.resultAfter g result = result ∨
      x.resultAfter g result = v := by
  cases l with
  | handOff l =>
      simp only [Guarded.step, Option.map_eq_some_iff] at hstep
      rcases hstep with ⟨handOff, hmove, rfl⟩
      rcases h.guarded.handOff.invoked_step hmove with hsame | ⟨hnone, honce⟩
      · exact .inl ⟨hsame, by simp [Input.resultAfter, hsame]⟩
      · exact .inr (by simp [Input.resultAfter, hnone, honce])
  | dropCaller | dropTask =>
      simp only [Guarded.step, Option.ite_none_right_eq_some, Option.some.injEq] at hstep
      rcases hstep with ⟨-, rfl⟩
      exact .inl ⟨rfl, by simp [Input.resultAfter]⟩

/-- The reference goes with the continuation. -/
theorem holdsContext_step (h : InputInv kind v result stage x)
    (hstep : x.guarded.step v l = some g)
    (hholds : x.holdsContext = decide (x.guarded.guards.destroyed = 0)) :
    (x.moved g).holdsContext = decide (g.guards.destroyed = 0) := by
  rcases h.guarded.destroyed_step hstep with hsame | ⟨hzero, hone⟩
  · simp [Input.moved, hsame, hholds]
  · simp [Input.moved, hzero, hone]

theorem step (h : InputInv kind v result stage x) (hstep : x.guarded.step v l = some g)
    (hallows : ∀ answer, l = .handOff (.setContinuation answer) → stage = .attaching) :
    InputInv kind v (x.resultAfter g result) stage (x.moved g) := by
  refine ⟨h.guarded.step hstep, ?_, ?_⟩
  · intro hinvoked
    rcases h.resultAfter_eq hstep with ⟨hsame, heq⟩ | heq
    · rw [heq]
      exact h.stored (hsame ▸ hinvoked)
    · exact heq
  · have hattacher : stage ≠ .attaching →
        g.handOff.attacher = x.guarded.handOff.attacher := by
      intro hne
      exact step_attacher_eq hstep fun answer hl => hne (hallows answer hl)
    cases stage with
    | untouched =>
        rcases h.staged with ⟨hcheck, hholds⟩
        exact ⟨(hattacher (by simp)).trans hcheck, by simp [Input.moved, hholds]⟩
    | attaching => exact ⟨h.staged.1, h.holdsContext_step hstep h.staged.2⟩
    | passed =>
        rcases h.staged with ⟨hcheck, hholds, hresult, hstored⟩ | ⟨hshared, hreturned, hholds⟩
        · refine .inl ⟨(hattacher (by simp)).trans hcheck, by simp [Input.moved, hholds],
            hasResult_step hstep hresult, ?_⟩
          rcases h.resultAfter_eq hstep with ⟨-, heq⟩ | heq
          · exact heq.trans hstored
          · exact heq
        · exact .inr ⟨hshared, (hattacher (by simp)).trans hreturned,
            h.holdsContext_step hstep hholds⟩

/-- Only the continuation of an input that the loop has reached is destroyed. -/
theorem of_destroyed (h : InputInv kind v result stage x) (hstep : x.guarded.step v l = some g)
    (hallows : ∀ answer, l = .handOff (.setContinuation answer) → stage = .attaching)
    (hdestroyed : g.guards.destroyed ≠ x.guarded.guards.destroyed) :
    stage ≠ .untouched ∧ x.holdsContext = true := by
  have hzero : x.guarded.guards.destroyed = 0 := by
    rcases h.guarded.destroyed_step hstep with hsame | ⟨hzero, -⟩
    · exact absurd hsame hdestroyed
    · exact hzero
  have hcheck : x.guarded.handOff.attacher = .check → stage = .attaching := by
    intro hcheck
    by_contra hne
    have hattacher := step_attacher_eq hstep fun answer hl => hne (hallows answer hl)
    have hguards := guards_of_check (h.guarded.step hstep) (hattacher.trans hcheck)
    exact hdestroyed (by rw [hguards, hzero]; rfl)
  cases stage with
  | untouched => cases hcheck h.staged.1
  | attaching => exact ⟨by simp, by rw [h.staged.2, hzero]; rfl⟩
  | passed =>
      rcases h.staged with ⟨hattacher, -⟩ | ⟨-, -, hholds⟩
      · cases hcheck hattacher
      · exact ⟨by simp, by rw [hholds, hzero]; rfl⟩

end Moves

end InputInv

/-! ## The invariant -/

/-- How far the call has come with an input. -/
def Pc.stage : Pc n → Fin n → Stage
  | .scan _, _ | .collect _, _ | .makeContext, _ | .returned .allReady, _ => .untouched
  | .loop i, j => if j.val < i then .passed else .untouched
  | .setContinuation i, j =>
      if j = i then .attaching else if j.val < i.val then .passed else .untouched
  | .leave, _ | .returned .context, _ => .passed

/-- The call holds a reference to the context. -/
def Pc.holdsContext : Pc n → Bool
  | .loop _ | .setContinuation _ | .leave => true
  | _ => false

/-- What the loops before the context have found. -/
def Ready (kind : Fin n → Kind) (t : Fin n → Try ε α) (s : State ε α n) : Pc n → Prop
  | .scan i => s.collected = [] ∧ ∀ j : Fin n, j.val < i → (s.input j).hasResult (kind j) = true
  | .collect i =>
      s.collected = (List.ofFn t).take i ∧ ∀ j, (s.input j).hasResult (kind j) = true
  | .returned .allReady => ∀ j, (s.input j).hasResult (kind j) = true
  | _ => True

/-- The returned future has its result. -/
def State.Finished (s : State ε α n) : Prop :=
  s.pc = .returned .allReady ∨ s.pc = .returned .context ∧ s.useCount = 0

instance (s : State ε α n) : Decidable s.Finished :=
  inferInstanceAs (Decidable (_ ∨ _ ∧ _))

structure Inv (kind : Fin n → Kind) (t : Fin n → Try ε α) (s : State ε α n) : Prop where
  input : ∀ i, InputInv (kind i) (t i) (s.results i) (s.pc.stage i) (s.input i)
  useCount : s.useCount =
    (if s.pc.holdsContext then 1 else 0) + tally Input.holdsContext s.input
  output : s.output = if s.Finished then [List.ofFn t] else []
  ready : Ready kind t s s.pc

namespace Inv

variable {kind : Fin n → Kind} {t : Fin n → Try ε α} {s s' : State ε α n}

theorem initial (kind : Fin n → Kind) (t : Fin n → Try ε α) :
    Inv kind t (State.initial kind) := by
  refine ⟨fun i => InputInv.initial (kind i) (t i), ?_, rfl, rfl, ?_⟩
  · rw [tally_eq_zero (f := (State.initial kind).input) fun i => rfl]
    rfl
  · intro j hj
    exact absurd hj (Nat.not_lt_zero _)

/-- No input holds a reference while all of them are untouched. -/
theorem useCount_of_untouched (h : Inv kind t s) (hstage : ∀ i, s.pc.stage i = .untouched)
    (hholds : s.pc.holdsContext = false) : s.useCount = 0 := by
  rw [h.useCount, hholds, tally_eq_zero]
  · rfl
  · intro i
    have hinput := (h.input i).staged
    rw [hstage i] at hinput
    exact hinput.2

/-- The references to the context are gone after the call has returned. -/
theorem all_released (h : Inv kind t s) (hzero : s.useCount = 0) (i : Fin n) :
    (s.input i).holdsContext = false := by
  by_contra hholds
  have hpos : 0 < tally Input.holdsContext s.input := tally_pos (by simpa using hholds)
  have hcount := h.useCount
  omega

/-- The context holds all results when the last reference goes. -/
theorem results_eq (hinput : ∀ i, InputInv (kind i) (t i) (s.results i) .passed (s.input i))
    (hreleased : tally Input.holdsContext s.input = 0) : s.results = t := by
  funext i
  have hholds : (s.input i).holdsContext = false := by
    by_contra hholds
    have hpos : 0 < tally Input.holdsContext s.input := tally_pos (by simpa using hholds)
    omega
  exact ((hinput i).of_released hholds).2

/-- The call goes on to another program point. -/
theorem setPc (h : Inv kind t s) {pc : Pc n}
    (hinput : ∀ i, InputInv (kind i) (t i) (s.results i) (pc.stage i) (s.input i))
    (hholds : pc.holdsContext = s.pc.holdsContext) (hbefore : ¬ s.Finished)
    (hafter : ¬ State.Finished { s with pc := pc }) (hready : Ready kind t s pc) :
    Inv kind t { s with pc := pc } := by
  refine ⟨hinput, ?_, ?_, ?_⟩
  · simp only [hholds]
    exact h.useCount
  · rw [if_neg hafter]
    exact h.output.trans (if_neg hbefore)
  · cases pc with
    | returned path => cases path <;> exact hready
    | _ => exact hready

/-- Steps of the loops that come before the context. -/
theorem early (h : Inv kind t s) {pc : Pc n} (hstage : ∀ i, s.pc.stage i = .untouched)
    (hstage' : ∀ i, pc.stage i = .untouched) (hholds : s.pc.holdsContext = false)
    (hholds' : pc.holdsContext = false) (hbefore : ¬ s.Finished)
    (hafter : ¬ State.Finished { s with pc := pc }) (hready : Ready kind t s pc) :
    Inv kind t { s with pc := pc } := by
  refine h.setPc (fun i => ?_) (hholds'.trans hholds.symm) hbefore hafter hready
  have hinput := h.input i
  rw [hstage i] at hinput
  rw [hstage' i]
  exact hinput

theorem scan (h : Inv kind t s) {i : Nat} (hpc : s.pc = .scan i)
    (hstep : callerStep kind t s = some s') : Inv kind t s' := by
  have hready := h.ready
  simp only [hpc, Ready] at hready
  have hbefore : ¬ s.Finished := by simp [State.Finished, hpc]
  simp only [callerStep, hpc] at hstep
  split at hstep
  · next hi =>
      split at hstep
      · next hresult =>
          cases hstep
          refine h.early (by simp [hpc, Pc.stage]) (by simp [Pc.stage]) (by rw [hpc]; rfl) rfl
            hbefore (by simp [State.Finished]) ⟨hready.1, fun j hj => ?_⟩
          rcases Nat.lt_succ_iff_lt_or_eq.mp hj with hlt | rfl
          · exact hready.2 j hlt
          · exact hresult
      · cases hstep
        exact h.early (by simp [hpc, Pc.stage]) (by simp [Pc.stage]) (by rw [hpc]; rfl) rfl
          hbefore (by simp [State.Finished]) trivial
  · next hi =>
      cases hstep
      refine h.early (by simp [hpc, Pc.stage]) (by simp [Pc.stage]) (by rw [hpc]; rfl) rfl
        hbefore (by simp [State.Finished]) ⟨by simpa using hready.1, fun j => ?_⟩
      exact hready.2 j (by omega)

theorem collect (h : Inv kind t s) {i : Nat} (hpc : s.pc = .collect i)
    (hstep : callerStep kind t s = some s') : Inv kind t s' := by
  have hready := h.ready
  simp only [hpc, Ready] at hready
  have hbefore : ¬ s.Finished := by simp [State.Finished, hpc]
  have houtput : s.output = [] := h.output.trans (if_neg hbefore)
  have hstage : ∀ j, s.pc.stage j = .untouched := by simp [hpc, Pc.stage]
  have hinput : ∀ j, InputInv (kind j) (t j) (s.results j) .untouched (s.input j) := fun j =>
    hstage j ▸ h.input j
  have hcount := h.useCount
  simp only [hpc, Pc.holdsContext] at hcount
  simp only [callerStep, hpc] at hstep
  split at hstep
  · next hi =>
      cases hstep
      refine ⟨hinput, hcount, ?_, ?_, hready.2⟩
      · rw [houtput, if_neg (by simp [State.Finished])]
      · rw [(h.input ⟨i, hi⟩).result_eq (hready.2 ⟨i, hi⟩), hready.1]
        simp [List.take_add_one, hi]
  · next hi =>
      cases hstep
      refine ⟨hinput, hcount, ?_, hready.2⟩
      rw [houtput, if_pos (.inl rfl), hready.1, List.take_of_length_le (by simp; omega)]
      rfl

theorem makeContext (h : Inv kind t s) (hpc : s.pc = .makeContext) :
    Inv kind t { s with useCount := 1, pc := .loop 0 } := by
  have hbefore : ¬ s.Finished := by simp [State.Finished, hpc]
  have hstage : ∀ i, s.pc.stage i = .untouched := by simp [hpc, Pc.stage]
  have hzero := h.useCount_of_untouched hstage (by rw [hpc]; rfl)
  have hcount := h.useCount
  simp only [hpc, Pc.holdsContext, hzero] at hcount
  refine ⟨fun i => ?_, ?_, ?_, trivial⟩
  · have hinput := h.input i
    rw [hstage i] at hinput
    simpa [Pc.stage] using hinput
  · simp only [Pc.holdsContext, if_true]
    simp only [Bool.false_eq_true, if_false] at hcount
    omega
  · rw [if_neg (by simp [State.Finished])]
    exact h.output.trans (if_neg hbefore)

/-- The loop is done with the input {lit}`i`. -/
theorem Pc_stage_loop_succ {i : Nat} (hi : i < n) (j : Fin n) :
    (Pc.loop (i + 1)).stage j =
      if j = ⟨i, hi⟩ then .passed else (Pc.loop (n := n) i).stage j := by
  by_cases hj : j = ⟨i, hi⟩
  · subst hj
    simp [Pc.stage]
  · have hne : j.val ≠ i := fun hval => hj (Fin.ext hval)
    have hiff : j.val < i + 1 ↔ j.val < i := by omega
    simp [Pc.stage, hj, hiff]

theorem loop (h : Inv kind t s) {i : Nat} (hpc : s.pc = .loop i)
    (hstep : callerStep kind t s = some s') : Inv kind t s' := by
  have hbefore : ¬ s.Finished := by simp [State.Finished, hpc]
  have houtput : s.output = [] := h.output.trans (if_neg hbefore)
  have hcount := h.useCount
  simp only [hpc, Pc.holdsContext, if_true] at hcount
  have hinput : ∀ j, InputInv (kind j) (t j) (s.results j) ((Pc.loop i).stage j) (s.input j) :=
    fun j => hpc ▸ h.input j
  simp only [callerStep, hpc] at hstep
  split at hstep
  · next hi =>
      have huntouched : (Pc.loop i).stage (⟨i, hi⟩ : Fin n) = .untouched := by simp [Pc.stage]
      have hthis := hinput ⟨i, hi⟩
      rw [huntouched] at hthis
      split at hstep
      · next hresult =>
          -- the input is ready
          cases hstep
          refine ⟨fun j => ?_, hcount, ?_, trivial⟩
          · simp only [Pc_stage_loop_succ hi]
            by_cases hj : j = ⟨i, hi⟩
            · subst hj
              rw [if_pos rfl, Function.update_self, hthis.result_eq hresult]
              exact ⟨hthis.guarded, fun _ => rfl,
                .inl ⟨hthis.staged.1, hthis.staged.2, hresult, rfl⟩⟩
            · rw [if_neg hj, Function.update_of_ne hj]
              exact hinput j
          · rw [houtput, if_neg (by simp [State.Finished])]
      · next hresult =>
          -- the continuation will hold a reference
          cases hstep
          have htally := tally_update Input.holdsContext s.input ⟨i, hi⟩
            { s.input ⟨i, hi⟩ with holdsContext := true }
          simp only [hthis.staged.2, Bool.false_eq_true, if_false, if_true] at htally
          refine ⟨fun j => ?_, ?_, ?_, trivial⟩
          · by_cases hj : j = ⟨i, hi⟩
            · subst hj
              simp only [Pc.stage, if_true, Function.update_self]
              have hguards := InputInv.guards_of_check hthis.guarded hthis.staged.1
              refine ⟨hthis.guarded, hthis.stored, ?_, by rw [hguards]; rfl⟩
              rintro hlocal
              rw [hlocal] at hresult
              exact hresult rfl
            · simp only [Pc.stage, if_neg hj, Function.update_of_ne hj]
              exact hinput j
          · simp only [Pc.holdsContext, if_true]
            omega
          · rw [houtput, if_neg (by simp [State.Finished])]
  · next hi =>
      cases hstep
      refine h.setPc (fun j => ?_) (by rw [hpc]; rfl) hbefore (by simp [State.Finished]) trivial
      have hj := hinput j
      simp only [Pc.stage, if_pos (show j.val < i by omega)] at hj
      exact hj

theorem setContinuation (h : Inv kind t s) {i : Fin n} (hpc : s.pc = .setContinuation i)
    (hreturned : (s.input i).guarded.handOff.attacher = .returned) :
    Inv kind t { s with pc := .loop (i + 1) } := by
  refine h.setPc (fun j => ?_) (by rw [hpc]; rfl) (by simp [State.Finished, hpc])
    (by simp [State.Finished]) trivial
  have hinput := h.input j
  rw [hpc] at hinput
  rw [Pc_stage_loop_succ i.isLt]
  by_cases hj : j = i
  · subst hj
    simp only [Pc.stage, if_true] at hinput ⊢
    exact ⟨hinput.guarded, hinput.stored, .inr ⟨hinput.staged.1, hreturned, hinput.staged.2⟩⟩
  · rw [if_neg hj]
    simp only [Pc.stage, if_neg hj] at hinput
    exact hinput

/-- A reference is dropped, by the call or by a continuation. -/
theorem release_output (houtput : s.output = []) (hpos : s.useCount ≠ 0)
    (hlast : s.useCount = 1 → s.results = t) :
    s.release.output = if s.useCount - 1 = 0 then [List.ofFn t] else [] := by
  simp only [State.release, houtput]
  by_cases hone : s.useCount = 1
  · rw [if_pos hone, if_pos (by omega), hlast hone]
    rfl
  · rw [if_neg hone, if_neg (by omega)]

theorem leave (h : Inv kind t s) (hpc : s.pc = .leave) :
    Inv kind t { s.release with pc := .returned .context } := by
  have hcount := h.useCount
  simp only [hpc, Pc.holdsContext, if_true] at hcount
  have houtput : s.output = [] := h.output.trans (if_neg (by simp [State.Finished, hpc]))
  have hinput : ∀ i, InputInv (kind i) (t i) (s.results i) .passed (s.input i) := by
    intro i
    have hinput := h.input i
    rw [hpc] at hinput
    exact hinput
  refine ⟨hinput, ?_, ?_, trivial⟩
  · simp only [State.release, Pc.holdsContext]
    simp only [Bool.false_eq_true, if_false]
    omega
  · have hreleased := release_output houtput (by omega) fun hone =>
      results_eq hinput (by omega)
    exact hreleased.trans (by simp [State.Finished, State.release])

theorem caller (h : Inv kind t s) (hstep : callerStep kind t s = some s') : Inv kind t s' := by
  cases hpc : s.pc with
  | scan i => exact h.scan hpc hstep
  | collect i => exact h.collect hpc hstep
  | makeContext =>
      simp only [callerStep, hpc, Option.some.injEq] at hstep
      exact hstep ▸ h.makeContext hpc
  | loop i => exact h.loop hpc hstep
  | setContinuation i =>
      simp only [callerStep, hpc, Option.ite_none_right_eq_some, Option.some.injEq] at hstep
      rcases hstep with ⟨hreturned, rfl⟩
      exact h.setContinuation hpc hreturned
  | leave =>
      simp only [callerStep, hpc, Option.some.injEq] at hstep
      exact hstep ▸ h.leave hpc
  | returned path =>
      simp only [callerStep, hpc] at hstep
      cases hstep

/-! ### Moves on the inputs -/

theorem stage_of_allows {i : Fin n} {l : GuardLabel} (hallows : s.allows kind i l = true)
    (answer : Answer) (hl : l = .handOff (.setContinuation answer)) :
    s.pc.stage i = .attaching := by
  subst hl
  have hpc : s.pc = .setContinuation i := of_decide_eq_true hallows
  simp [hpc, Pc.stage]

theorem ready_moved (h : Inv kind t s) {i : Fin n} {l : GuardLabel} {g : Guarded ε α}
    (hstep : (s.input i).guarded.step (t i) l = some g) : Ready kind t (s.moved i g) s.pc := by
  have hresult : ∀ j, (s.input j).hasResult (kind j) = true →
      ((s.moved i g).input j).hasResult (kind j) = true := by
    intro j hj
    by_cases hij : j = i
    · subst hij
      simp only [State.moved, Function.update_self]
      exact InputInv.hasResult_step hstep hj
    · simpa only [State.moved, Function.update_of_ne hij] using hj
  have hready := h.ready
  cases hpc : s.pc with
  | scan k =>
      simp only [hpc, Ready] at hready
      exact ⟨hready.1, fun j hj => hresult j (hready.2 j hj)⟩
  | collect k =>
      simp only [hpc, Ready] at hready
      exact ⟨hready.1, fun j => hresult j (hready.2 j)⟩
  | returned path =>
      cases path with
      | allReady =>
          simp only [hpc, Ready] at hready
          exact fun j => hresult j (hready j)
      | context => trivial
  | makeContext | loop k | setContinuation k | leave => trivial

theorem input_moved (h : Inv kind t s) {i : Fin n} {l : GuardLabel} {g : Guarded ε α}
    (hallows : s.allows kind i l = true) (hstep : (s.input i).guarded.step (t i) l = some g)
    (j : Fin n) : InputInv (kind j) (t j) ((s.moved i g).results j) (s.pc.stage j)
      ((s.moved i g).input j) := by
  by_cases hij : j = i
  · subst hij
    simp only [State.moved, Function.update_self]
    exact (h.input j).step hstep (stage_of_allows hallows)
  · simp only [State.moved, Function.update_of_ne hij]
    exact h.input j

/-- A move that destroys no continuation. -/
theorem keeps (h : Inv kind t s) {i : Fin n} {l : GuardLabel} {g : Guarded ε α}
    (hallows : s.allows kind i l = true) (hstep : (s.input i).guarded.step (t i) l = some g)
    (hsame : g.guards.destroyed = (s.input i).guarded.guards.destroyed) :
    Inv kind t (s.moved i g) := by
  refine ⟨h.input_moved hallows hstep, ?_, h.output, h.ready_moved hstep⟩
  have htally : tally Input.holdsContext (s.moved i g).input =
      tally Input.holdsContext s.input :=
    tally_update_of_eq (by simp [Input.moved, hsame])
  rw [htally]
  exact h.useCount

/-- A move that destroys a continuation. -/
theorem destroys (h : Inv kind t s) {i : Fin n} {l : GuardLabel} {g : Guarded ε α}
    (hallows : s.allows kind i l = true) (hstep : (s.input i).guarded.step (t i) l = some g)
    (hdestroyed : g.guards.destroyed ≠ (s.input i).guarded.guards.destroyed) :
    Inv kind t (s.moved i g).release := by
  rcases (h.input i).of_destroyed hstep (stage_of_allows hallows) hdestroyed with
    ⟨hstage, hholds⟩
  have hinput := h.input_moved hallows hstep
  have htally : tally Input.holdsContext (s.moved i g).input + 1 =
      tally Input.holdsContext s.input := by
    have hupdate := tally_update Input.holdsContext s.input i ((s.input i).moved g)
    have hgone : ((s.input i).moved g).holdsContext = false := by
      simp [Input.moved, hdestroyed]
    rwa [hholds, hgone] at hupdate
  have hcount := h.useCount
  by_cases hpc : s.pc = .returned .context
  · -- the call has returned, and this may be the last reference
    simp only [hpc, Pc.holdsContext, Bool.false_eq_true, if_false, Nat.zero_add] at hcount
    have houtput : s.output = [] :=
      h.output.trans (if_neg (by simp [State.Finished, hpc]; omega))
    refine ⟨hinput, ?_, ?_, h.ready_moved hstep⟩
    · simp only [State.release, State.moved, hpc, Pc.holdsContext, Bool.false_eq_true, if_false,
        Nat.zero_add]
      exact (show s.useCount - 1 = tally Input.holdsContext (s.moved i g).input by omega)
    · have hpassed : ∀ j, InputInv (kind j) (t j) ((s.moved i g).results j) .passed
          ((s.moved i g).input j) := by
        intro j
        have hj := hinput j
        rw [hpc] at hj
        exact hj
      have hlast : s.useCount = 1 → (s.moved i g).results = t := fun hone =>
        results_eq hpassed (by omega)
      have hpos : s.useCount ≠ 0 := by omega
      have hreleased := release_output (s := s.moved i g) houtput hpos hlast
      exact hreleased.trans (by simp [State.Finished, State.release, State.moved, hpc])
  · -- the call itself holds a reference
    have hcaller : s.pc.holdsContext = true := by
      cases hs : s.pc with
      | returned path => cases path <;> simp_all [Pc.stage]
      | _ => simp_all [Pc.stage, Pc.holdsContext]
    rw [hcaller, if_pos rfl] at hcount
    have hbefore : ¬ s.Finished := by
      rintro (hfinished | ⟨hfinished, -⟩)
      · rw [hfinished] at hcaller
        cases hcaller
      · exact hpc hfinished
    refine ⟨hinput, ?_, ?_, h.ready_moved hstep⟩
    · simp only [State.release, State.moved, hcaller, if_true]
      exact (show s.useCount - 1 = 1 + tally Input.holdsContext (s.moved i g).input by omega)
    · have hmore : (s.moved i g).useCount ≠ 1 := by
        change s.useCount ≠ 1
        omega
      have hafter : ¬ (s.moved i g).release.Finished := by
        rintro (hfinished | ⟨hfinished, -⟩)
        · exact hbefore (.inl hfinished)
        · exact hpc hfinished
      rw [if_neg hafter]
      simp only [State.release, if_neg hmore]
      exact h.output.trans (if_neg hbefore)

theorem step (h : Inv kind t s) {l : Label n} (hstep : CollectFutures.step kind t s l = some s') :
    Inv kind t s' := by
  cases l with
  | caller => exact h.caller hstep
  | input i l =>
      simp only [CollectFutures.step, Option.ite_none_right_eq_some,
        Option.map_eq_some_iff] at hstep
      rcases hstep with ⟨hallows, g, hmove, rfl⟩
      unfold State.afterMove
      split
      · next hsame => exact h.keeps hallows hmove hsame
      · next hdestroyed => exact h.destroys hallows hmove hdestroyed

/-! ## What the returned future gets -/

theorem output_eq (h : Inv kind t s) : s.output = [] ∨ s.output = [List.ofFn t] := by
  rw [h.output]
  split
  · exact .inr rfl
  · exact .inl rfl

/-- The result does not come before those of the inputs. -/
theorem all_hasResult (h : Inv kind t s) (houtput : s.output ≠ []) (i : Fin n) :
    (s.input i).hasResult (kind i) = true := by
  have hfinished : s.Finished := by
    by_contra hnot
    exact houtput (h.output.trans (if_neg hnot))
  rcases hfinished with hpc | ⟨hpc, hzero⟩
  · have hready := h.ready
    simp only [hpc, Ready] at hready
    exact hready i
  · have hinput := h.input i
    rw [hpc] at hinput
    exact (hinput.of_released (h.all_released hzero i)).1

theorem output_of_settled (h : Inv kind t s) (hsettled : Settled kind s) :
    s.output = [List.ofFn t] := by
  rw [h.output]
  rcases hsettled with ⟨⟨path, hpc⟩, hinputs⟩
  refine if_pos ?_
  cases path with
  | allReady => exact .inl hpc
  | context =>
      refine .inr ⟨hpc, ?_⟩
      have hcount := h.useCount
      rw [hpc, tally_eq_zero] at hcount
      · exact hcount
      · intro i
        have hinput := h.input i
        rw [hpc] at hinput
        exact hinput.released_of_settled (hinputs i)

end Inv

/-! ## Every run can be brought to its end -/

/-- Steps that the call may still make. -/
def Pc.rank : Pc n → Nat
  | .scan i => (n - i) + 2 * n + 4
  | .collect i => n - i + 1
  | .makeContext => 2 * n + 3
  | .loop i => 2 * (n - i) + 2
  | .setContinuation i => 2 * (n - i) + 1
  | .leave => 1
  | .returned _ => 0

def State.rank (s : State ε α n) : Nat :=
  s.pc.rank + ∑ i, (s.input i).guarded.rank

namespace Inv

variable {kind : Fin n → Kind} {t : Fin n → Try ε α} {s s' : State ε α n}

/-- A move on one input that brings it closer to its end. -/
theorem exists_step_of_input {i : Fin n} {l : GuardLabel} {g : Guarded ε α}
    (hstep : (s.input i).guarded.step (t i) l = some g)
    (hrank : g.rank < (s.input i).guarded.rank) (hallows : s.allows kind i l = true) :
    ∃ l s', CollectFutures.step kind t s l = some s' ∧ s'.rank < s.rank := by
  refine ⟨.input i l, s.afterMove i g, by simp [CollectFutures.step, hallows, hstep], ?_⟩
  have hsum := sum_update_lt (f := s.input) (i := i) (a := (s.input i).moved g)
    (r := fun x => x.guarded.rank) hrank
  have hmoved : (s.afterMove i g).rank =
      s.pc.rank + ∑ j, (Function.update s.input i ((s.input i).moved g) j).guarded.rank := by
    unfold State.afterMove
    split <;> rfl
  rw [hmoved]
  exact Nat.add_lt_add_left hsum _

/-- The call itself can move, except inside {lit}`setContinuation`. -/
theorem exists_step_of_caller (hpc : ∀ path, s.pc ≠ .returned path)
    (hinside : ∀ i, s.pc = .setContinuation i →
      (s.input i).guarded.handOff.attacher = .returned) :
    ∃ l s', CollectFutures.step kind t s l = some s' ∧ s'.rank < s.rank := by
  refine ⟨.caller, ?_⟩
  simp only [CollectFutures.step, callerStep]
  cases hs : s.pc with
  | scan i =>
      simp only
      split
      · split
        all_goals
          refine ⟨_, rfl, ?_⟩
          simp only [State.rank, hs, Pc.rank]
          omega
      · refine ⟨_, rfl, ?_⟩
        simp only [State.rank, hs, Pc.rank]
        omega
  | collect i =>
      simp only
      split
      all_goals
        refine ⟨_, rfl, ?_⟩
        simp only [State.rank, hs, Pc.rank]
        omega
  | makeContext =>
      refine ⟨_, rfl, ?_⟩
      simp only [State.rank, hs, Pc.rank]
      omega
  | loop i =>
      simp only
      split
      · next hi =>
          split
          · refine ⟨_, rfl, ?_⟩
            simp only [State.rank, hs, Pc.rank]
            omega
          · refine ⟨_, rfl, ?_⟩
            have hguarded : ∀ j, (Function.update s.input ⟨i, hi⟩
                { s.input ⟨i, hi⟩ with holdsContext := true } j).guarded =
                  (s.input j).guarded :=
              apply_update_of_eq (f := Input.guarded) rfl
            simp only [State.rank, hs, Pc.rank, hguarded]
            omega
      · refine ⟨_, rfl, ?_⟩
        simp only [State.rank, hs, Pc.rank]
        omega
  | setContinuation i =>
      refine ⟨_, if_pos (hinside i hs), ?_⟩
      simp only [State.rank, hs, Pc.rank]
      omega
  | leave =>
      refine ⟨_, rfl, ?_⟩
      simp only [State.rank, hs, Pc.rank, State.release]
      omega
  | returned path => exact absurd hs (hpc path)

/-- An input with a promise that is not settled can move. -/
theorem exists_step_of_unsettled (h : Inv kind t s) {i : Fin n} (hkind : kind i ≠ .localState)
    (hstage : s.pc.stage i ≠ .attaching)
    (hunsettled : ¬ ((s.input i).guarded.handOff.setter () = .returned ∧
      (s.input i).guarded.handOff.shared.pending = 0 ∧
      (s.input i).guarded.guards.caller = 0 ∧ (s.input i).guarded.guards.task = 0)) :
    ∃ l s', CollectFutures.step kind t s l = some s' ∧ s'.rank < s.rank := by
  have hguarded := (h.input i).guarded
  have hallows : decide (kind i ≠ .localState) = true := decide_eq_true hkind
  rcases hguarded.handOff.settled_or_exists_step Kind.executor_ne_none_of_forced with
    ⟨hsetter, hpending⟩ | ⟨l, handOff, hl, hmove, hlt⟩
  swap
  · rcases Guarded.exists_handOff hmove hlt with ⟨g, hstep, hrank⟩
    exact exists_step_of_input hstep hrank (by rcases hl with rfl | rfl <;> exact hallows)
  by_cases htask : (s.input i).guarded.guards.task = 0
  swap
  · rcases Guarded.exists_dropTask htask hpending with ⟨g, hstep, hrank⟩
    exact exists_step_of_input hstep hrank hallows
  have hcaller : (s.input i).guarded.guards.caller ≠ 0 := fun hcaller =>
    hunsettled ⟨hsetter, hpending, hcaller, htask⟩
  have hattacher : (s.input i).guarded.handOff.attacher = .returned := by
    have hcheck : (s.input i).guarded.handOff.attacher ≠ .check := by
      intro hcheck
      rw [InputInv.guards_of_check hguarded hcheck] at hcaller
      exact hcaller rfl
    have hstaged := (h.input i).staged
    cases hs : s.pc.stage i with
    | untouched =>
        rw [hs] at hstaged
        exact absurd hstaged.1 hcheck
    | attaching => exact absurd hs hstage
    | passed =>
        rw [hs] at hstaged
        rcases hstaged with ⟨hattacher, -⟩ | ⟨-, hattacher, -⟩
        · exact absurd hattacher hcheck
        · exact hattacher
  rcases Guarded.exists_dropCaller hcaller hsetter hattacher with ⟨g, hstep, hrank⟩
  exact exists_step_of_input hstep hrank hallows

theorem exists_step (h : Inv kind t s) (hsettled : ¬ Settled kind s) :
    ∃ l s', CollectFutures.step kind t s l = some s' ∧ s'.rank < s.rank := by
  by_cases hpc : ∃ path, s.pc = .returned path
  · rcases hpc with ⟨path, hpc⟩
    simp only [Settled, not_and, not_forall] at hsettled
    rcases hsettled ⟨path, hpc⟩ with ⟨i, hkind, hunsettled⟩
    refine h.exists_step_of_unsettled hkind ?_ (by simpa using hunsettled)
    cases path <;> simp [hpc, Pc.stage]
  · by_cases hinside : ∀ i, s.pc = .setContinuation i →
        (s.input i).guarded.handOff.attacher = .returned
    · exact exists_step_of_caller (fun path hs => hpc ⟨path, hs⟩) hinside
    · simp only [not_forall] at hinside
      rcases hinside with ⟨i, hs, hattacher⟩
      rcases (h.input i).guarded.handOff.exists_setContinuation Kind.executor_ne_none_of_forced
        hattacher ⟨false, false⟩ with ⟨handOff, hmove, hlt⟩
      rcases Guarded.exists_handOff hmove hlt with ⟨g, hstep, hrank⟩
      exact exists_step_of_input hstep hrank (decide_eq_true hs)

theorem exists_settled (h : Inv kind t s) :
    ∃ ks s', (machine kind t).run s ks = some s' ∧ Settled kind s' := by
  have hprogress : ∀ s, Inv kind t s → ¬ Settled kind s →
      ∃ l s', True ∧ (machine kind t).step s l = some s' ∧ Inv kind t s' ∧ s'.rank < s.rank := by
    intro s h hsettled
    rcases h.exists_step hsettled with ⟨l, s', hstep, hlt⟩
    exact ⟨l, s', trivial, hstep, h.step hstep, hlt⟩
  rcases (machine kind t).exists_run_of_measure (fun _ => True) State.rank hprogress h with
    ⟨ks, s', -, hrun, -, hsettled⟩
  exact ⟨ks, s', hrun, hsettled⟩

end Inv

/-! ## The result of the call -/

/-- The returned future gets the vector of the results of all inputs, once, when all of
them have a result; this holds on both paths through the call, for every order in which
the promises are fulfilled and whatever the executors answer. -/
theorem collectAll_result (kind : Fin n → Kind) (t : Fin n → Try ε α) {ls : List (Label n)}
    {s : State ε α n} (hrun : (machine kind t).run (State.initial kind) ls = some s) :
    (s.output = [] ∨ s.output = [List.ofFn t]) ∧
      (s.output ≠ [] → ∀ i, (s.input i).hasResult (kind i) = true) ∧
      (s.pc = .returned .allReady → s.output = [List.ofFn t]) ∧
      (Settled kind s → s.output = [List.ofFn t]) ∧
      ∃ ks s', (machine kind t).run s ks = some s' ∧ Settled kind s' := by
  have h : Inv kind t s :=
    (machine kind t).run_invariant (fun _ _ _ h hstep => h.step hstep) (Inv.initial kind t) hrun
  exact ⟨h.output_eq, h.all_hasResult, fun hpc => h.output.trans (if_pos (.inl hpc)),
    h.output_of_settled, h.exists_settled⟩

/-- Two inputs: a future that is ready, and one with an executor and forced scheduling. -/
def readyAndPending (i : Fin 2) : Kind :=
  if i.val = 0 then .localState else .sharedState (some 0) none true

/-- The second future becomes ready between {lit}`hasResult` and {lit}`setContinuation`, and
its executor refuses the continuation. -/
def lateResult (i : Fin n) : List (Label n) :=
  List.replicate 5 .caller ++
    List.replicate 4 (.input i (.handOff (.setResult () ⟨false, false⟩))) ++
    List.replicate 8 (.input i (.handOff (.setContinuation ⟨false, false⟩))) ++
    [.caller, .caller, .caller, .input i .dropCaller]

theorem collectAll_result_lateResult :
    ∃ s, (machine readyAndPending fun i => if i.val = 0 then .value 7 else .error 3).run
        (State.initial readyAndPending) (lateResult 1) = some s ∧
      (s.pc = .returned .context ∧ s.useCount = 0) ∧
      s.output = [[(.value 7 : Try Nat Nat), .error 3]] := by
  rcases Machine.exists_run_of_any
    (machine readyAndPending fun i => if i.val = 0 then (.value 7 : Try Nat Nat) else .error 3)
    (State.initial readyAndPending) (lateResult 1)
    (fun s => (s.pc = .returned .context ∧ s.useCount = 0) ∧ s.output ≠ [])
    (by decide +kernel) with ⟨s, hrun, hstate, houtput⟩
  refine ⟨s, hrun, hstate, ?_⟩
  rcases (collectAll_result _ _ hrun).1 with hnone | hall
  · exact absurd hnone houtput
  · exact hall

end CollectFutures

end AsyncSimple
