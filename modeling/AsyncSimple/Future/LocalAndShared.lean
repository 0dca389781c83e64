import AsyncSimple.Future.Chaining
import AsyncSimple.Future.Consumers

/-!
# Chaining on a local and on a shared state

{lit}`Future::thenImpl` calls the callback at once when the future holds its result itself.
When the state is shared with a promise, it makes a second promise and attaches a
continuation, which calls the callback later; a future that the callback returns gets a
continuation of its own, which fulfils the second promise.  Exceptions are caught at different
places of the two paths, and only one of them converts between {lit}`Try<Unit>` and
{lit}`Try<void>`.

The shared states move in the single steps of {lit}`FutureState.Cell.Step`, to which the
hand-off of {lit}`FutureState` reduces.

Main results:

- Theorem {lit}`Inv.step`: what the second promise will get is fixed by the callback.
- Theorem {lit}`local_and_shared_agree`: both paths end with the same result and call the
  callback with the same arguments.
- Theorem {lit}`executor_of_then`: which executor the new future has on both paths.
-/

namespace AsyncSimple

open Transition

namespace ThenImpl

open Consumers (Param TryVoid toVoid forwarded)
open Chaining (toTry)
open FutureState (Cell)

variable {ε : Type} {T T₂ : Param}

/-! ## Results as a callback sees them -/

/-- {lit}`Try<T>` for a template parameter. -/
def TryOf (ε : Type) : Param → Type
  | .void => TryVoid ε
  | .type α => Try ε α

/-- The {lit}`Try` of a state as the parameter {lit}`Try<T>&&` of a function. -/
def seen : (T : Param) → Try ε T.Inner → TryOf ε T
  | .void, t => toVoid t
  | .type _, t => t

/-- A {lit}`Try<T>` as the argument of {lit}`Promise<T>::setValue` or of the constructor of
{lit}`Future<T>`. -/
def stored : (T : Param) → TryOf ε T → Try ε T.Inner
  | .void, t => t.toUnit
  | .type _, t => t

/-- {lit}`t.value()`; an empty {lit}`Try` throws a {lit}`std::logic_error`. -/
def valueOf (emptyTry : ε) : (T : Param) → TryOf ε T → Except ε T.Inner
  | .void, t =>
      match t.error with
      | some e => .error e
      | none => .ok ()
  | .type _, .value v => .ok v
  | .type _, .error e => .error e
  | .type _, .nothing => .error emptyTry

/-- {lit}`makeTryCall`, for a call that returns or throws. -/
def makeTryCall : (T : Param) → Except ε T.Inner → TryOf ε T
  | .void, .ok _ => ⟨none⟩
  | .void, .error e => ⟨some e⟩
  | .type _, .ok v => .value v
  | .type _, .error e => .error e

/-! ## Callbacks and futures -/

/-- Where a future has its result: in itself, or in a state that it shares with a promise. -/
inductive Backing where
  | localState
  /-- the promise has been fulfilled, or will be -/
  | sharedState (fulfilled : Bool)
deriving DecidableEq, Repr

/-- {lit}`Future<T>`, with the result that it has or will have. -/
structure Fut (ε : Type) (T : Param) where
  state : Backing
  result : Try ε T.Inner
  executor : Option Nat

/-- A callback of {lit}`thenTry` or {lit}`thenValue`; it returns something or throws. -/
inductive Callback (ε : Type) (T : Param) (ρ : Type) where
  | thenTry (f : TryOf ε T → Except ε ρ)
  | thenValue (f : T.Inner → Except ε ρ)

/-- An argument that a callback was called with. -/
inductive Argument (ε : Type) (T : Param) where
  | tryOf (t : TryOf ε T)
  | value (v : T.Inner)

/-- {lit}`R::ReturnsFuture::value` tells the two kinds of callbacks apart. -/
inductive Func (ε : Type) (T T₂ : Param) where
  | plain (cb : Callback ε T T₂.Inner)
  | returnsFuture (cb : Callback ε T (Fut ε T₂))

/-- The function that {lit}`thenImpl` gets: the callback of {lit}`thenTry` itself, or the lambda
of {lit}`thenValue`. -/
def Callback.call {ρ : Type} (emptyTry : ε) (cb : Callback ε T ρ) (t : TryOf ε T) :
    Except ε ρ × List (Argument ε T) :=
  match cb with
  | .thenTry f => (f t, [.tryOf t])
  | .thenValue f =>
      match valueOf emptyTry T t with
      | .ok v => (f v, [.value v])
      | .error e => (.error e, [])

/-! ## The local path -/

/-- {lit}`thenImpl` on a future with a local state. -/
def thenLocal (emptyTry : ε) (func : Func ε T T₂) (t : Try ε T.Inner) (executor : Option Nat) :
    Fut ε T₂ × List (Argument ε T) :=
  match func with
  | .returnsFuture cb =>
      match cb.call emptyTry (seen T t) with
      | (.ok fut, calls) =>
          ({ fut with executor := if fut.executor = none then executor else fut.executor }, calls)
      | (.error e, calls) => (⟨.localState, .error e, none⟩, calls)
  | .plain cb =>
      match cb.call emptyTry (seen T t) with
      | (r, calls) => (⟨.localState, stored T₂ (makeTryCall T₂ r), executor⟩, calls)

/-! ## The shared path -/

/-- The states of the source and of the future that the callback has returned, the second
promise and the future of it: its executor once the call of {lit}`thenImpl` has returned, and
its result. -/
structure State (ε : Type) (T T₂ : Param) where
  source : Cell ε T.Inner Unit
  executor : Option (Option Nat)
  /-- with the result that the environment will set -/
  returned : Option (Cell ε T₂.Inner Unit × Try ε T₂.Inner)
  result : Option (Try ε T₂.Inner)
  calls : List (Argument ε T)

def State.initial : State ε T T₂ where
  source := ⟨none, none, []⟩
  executor := none
  returned := none
  result := none
  calls := []

/-- The continuation that {lit}`thenImpl` attaches.  {lit}`R::isTry` holds for both kinds of
callbacks, since {lit}`thenValue` passes its lambda on. -/
def continuation (emptyTry : ε) (func : Func ε T T₂) (t : TryOf ε T) (s : State ε T T₂) :
    State ε T T₂ :=
  match func with
  | .returnsFuture cb =>
      match cb.call emptyTry t with
      | (.ok fut, calls) =>
          match fut.state with
          -- the continuation of a local state is executed at once
          | .localState =>
              { s with result := some (forwarded T₂ fut.result), calls := s.calls ++ calls }
          | .sharedState fulfilled =>
              { s with
                returned := some
                  (⟨if fulfilled then some fut.result else none, some (), []⟩, fut.result)
                calls := s.calls ++ calls }
      | (.error e, calls) => { s with result := some (.error e), calls := s.calls ++ calls }
  | .plain cb =>
      match cb.call emptyTry t with
      | (r, calls) =>
          { s with result := some (stored T₂ (makeTryCall T₂ r)), calls := s.calls ++ calls }

inductive Label where
  /-- the promise of the source is fulfilled -/
  | setSource
  | thenImpl
  | invoke
  /-- the promise of the returned future is fulfilled -/
  | setReturned
  | forward
deriving DecidableEq, Repr

def step (emptyTry : ε) (func : Func ε T T₂) (t : Try ε T.Inner) (executor : Option Nat)
    (s : State ε T T₂) : Label → Option (State ε T T₂)
  | .setSource =>
      match s.source.result with
      | none => some { s with source := { s.source with result := some t } }
      | some _ => none
  | .thenImpl =>
      match s.source.continuation with
      | none =>
          some { s with
            source := { s.source with continuation := some () }
            executor := some executor }
      | some _ => none
  | .invoke =>
      match s.source.result, s.source.continuation, s.source.invoked with
      | some t, some (), [] =>
          some (continuation emptyTry func (seen T t)
            { s with source := { s.source with invoked := [((), t)] } })
      | _, _, _ => none
  | .setReturned =>
      match s.returned with
      | some (⟨none, continuation, invoked⟩, t₂) =>
          some { s with returned := some (⟨some t₂, continuation, invoked⟩, t₂) }
      | _ => none
  | .forward =>
      match s.returned with
      | some (⟨some t, some (), []⟩, t₂) =>
          some { s with
            returned := some (⟨some t, some (), [((), t)]⟩, t₂)
            result := some (forwarded T₂ t) }
      | _ => none

/-- A promise-backed future on which {lit}`thenImpl` is called. -/
def machine (emptyTry : ε) (func : Func ε T T₂) (t : Try ε T.Inner) (executor : Option Nat) :
    Machine (State ε T T₂) Label where
  step := step emptyTry func t executor

/-! ## What both paths should do -/

/-- The calls of the callback: one, or none for {lit}`thenValue` on an exception. -/
def Callback.arguments {ρ : Type} : Callback ε T ρ → Except ε T.Inner → List (Argument ε T)
  | .thenTry _, t => [.tryOf (seen T (toTry t))]
  | .thenValue _, .ok v => [.value v]
  | .thenValue _, .error _ => []

def Func.arguments : Func ε T T₂ → Except ε T.Inner → List (Argument ε T)
  | .plain cb, t => cb.arguments t
  | .returnsFuture cb, t => cb.arguments t

/-- A promise-backed future in the state {lit}`s`, and the future {lit}`fut` that the local path
has returned after the calls {lit}`calls`: what has been done so far is the same, and when
nothing can be done any more, the result is the same. -/
structure Agrees (M : Machine (State ε T T₂) Label) (fut : Fut ε T₂)
    (calls : List (Argument ε T)) (s : State ε T T₂) : Prop where
  result : ∀ r, s.result = some r → seen T₂ r = seen T₂ fut.result ∧ s.calls = calls
  calls : s.calls = [] ∨ s.calls = calls
  ends : M.Stuck (fun _ => True) s → s.result.isSome
  exists_end : ∃ ls s', M.run s ls = some s' ∧ M.Stuck (fun _ => True) s'

/-! ## Conversions -/

theorem seen_stored (t : TryOf ε T) : seen T (stored T t) = t := by
  cases T with
  | void =>
      rcases t with ⟨_ | e⟩ <;> rfl
  | type α => rfl

theorem forwarded_eq (t : Try ε T.Inner) : forwarded T t = stored T (seen T t) := by
  cases T <;> rfl

theorem seen_forwarded (t : Try ε T.Inner) : seen T (forwarded T t) = seen T t := by
  rw [forwarded_eq, seen_stored]

theorem valueOf_seen (emptyTry : ε) (t : Except ε T.Inner) :
    valueOf emptyTry T (seen T (toTry t)) = t := by
  cases T <;> cases t <;> rfl

theorem Callback.call_arguments {ρ : Type} (emptyTry : ε) (cb : Callback ε T ρ)
    (t : Except ε T.Inner) : (cb.call emptyTry (seen T (toTry t))).2 = cb.arguments t := by
  cases cb with
  | thenTry f => rfl
  | thenValue f =>
      simp only [Callback.call, valueOf_seen]
      cases t <;> rfl

/-- The local path calls the callback once, or not at all. -/
theorem thenLocal_calls (emptyTry : ε) (func : Func ε T T₂) (t : Except ε T.Inner)
    (executor : Option Nat) :
    (thenLocal emptyTry func (toTry t) executor).2 = func.arguments t := by
  cases func with
  | plain cb => exact cb.call_arguments emptyTry t
  | returnsFuture cb =>
      have hcalls := cb.call_arguments emptyTry t
      simp only [thenLocal, Func.arguments]
      rw [← hcalls]
      split <;> simp_all

/-! ## The invariant -/

/-- How far the shared path has come, compared with the future and the calls of the local
path. -/
inductive Stage (t : Try ε T.Inner) (fut : Fut ε T₂) (calls : List (Argument ε T)) :
    State ε T T₂ → Prop where
  | waiting (s : State ε T T₂) (hsource : s.source.result = none ∨ s.source.result = some t)
      (hinvoked : s.source.invoked = []) (hreturned : s.returned = none)
      (hresult : s.result = none) (hcalls : s.calls = []) : Stage t fut calls s
  | forwarding (s : State ε T T₂) (r : Option (Try ε T₂.Inner))
      (hr : r = none ∨ r = some fut.result) (hinvoked : s.source.invoked ≠ [])
      (hreturned : s.returned = some (⟨r, some (), []⟩, fut.result)) (hresult : s.result = none)
      (hcalls : s.calls = calls) : Stage t fut calls s
  | ended (s : State ε T T₂) (r : Try ε T₂.Inner) (hr : seen T₂ r = seen T₂ fut.result)
      (hinvoked : s.source.invoked ≠ [])
      (hreturned : ∀ c ∈ s.returned, c.1.result ≠ none ∧ c.1.invoked ≠ [])
      (hresult : s.result = some r) (hcalls : s.calls = calls) : Stage t fut calls s

/-- What is left to be done with the future that the callback has returned. -/
def returnedRank : Option (Cell ε T₂.Inner Unit × Try ε T₂.Inner) → Nat
  | none => 0
  | some (c, _) => (if c.result.isNone then 1 else 0) + if c.invoked.isEmpty then 1 else 0

theorem returnedRank_le (returned : Option (Cell ε T₂.Inner Unit × Try ε T₂.Inner)) :
    returnedRank returned ≤ 2 := by
  unfold returnedRank
  split
  · exact Nat.zero_le 2
  · split <;> split <;> simp

/-- What is left to be done. -/
def State.rank (s : State ε T T₂) : Nat :=
  (if s.source.result.isNone then 1 else 0) + (if s.source.continuation.isNone then 1 else 0) +
    (if s.source.invoked.isEmpty then 3 else 0) + returnedRank s.returned

theorem State.rank_lt_of_invoked {s s' : State ε T T₂}
    (hresult : s'.source.result = s.source.result)
    (hcontinuation : s'.source.continuation = s.source.continuation)
    (hbefore : s.source.invoked = []) (hafter : s'.source.invoked ≠ []) : s'.rank < s.rank := by
  have hle := returnedRank_le s'.returned
  have hempty : s'.source.invoked.isEmpty = false := by simpa using hafter
  rw [State.rank, State.rank, hresult, hcontinuation, hbefore, hempty, List.isEmpty_nil, if_pos rfl]
  simp only [Bool.false_eq_true, if_false]
  omega

section

variable {emptyTry : ε} {func : Func ε T T₂} {t : Try ε T.Inner} {executor : Option Nat}
  {s s' : State ε T T₂}

/-- The source is fulfilled, or gets its continuation. -/
theorem Stage.setSource {fut : Fut ε T₂} {calls : List (Argument ε T)} (h : Stage t fut calls s)
    {source : Cell ε T.Inner Unit} (executor : Option (Option Nat))
    (hinvoked : source.invoked = s.source.invoked)
    (hsource : source.result = s.source.result ∨ source.result = some t) :
    Stage t fut calls { s with source := source, executor := executor } := by
  cases h with
  | waiting hbefore hnone hreturned hresult hcalls =>
      refine .waiting _ ?_ (hinvoked.trans hnone) hreturned hresult hcalls
      rcases hsource with hsame | hset
      · rwa [hsame]
      · exact .inr hset
  | forwarding r hr hsome hreturned hresult hcalls =>
      exact .forwarding _ r hr (hinvoked ▸ hsome) hreturned hresult hcalls
  | ended r hr hsome hreturned hresult hcalls =>
      exact .ended _ r hr (hinvoked ▸ hsome) hreturned hresult hcalls

/-- The continuation only fulfils the second promise, or leaves that to the returned future. -/
theorem continuation_frame (arg : TryOf ε T) :
    (continuation emptyTry func arg s).source = s.source ∧
      (continuation emptyTry func arg s).executor = s.executor := by
  cases func with
  | plain cb => exact ⟨rfl, rfl⟩
  | returnsFuture cb =>
      simp only [continuation]
      rcases cb.call emptyTry arg with ⟨e | ⟨_ | fulfilled, r, executor⟩, args⟩ <;> exact ⟨rfl, rfl⟩

/-- The continuation does what the local path does. -/
theorem continuation_stage (hinvoked : s.source.invoked ≠ []) (hreturned : s.returned = none)
    (hresult : s.result = none) (hcalls : s.calls = []) :
    Stage t (thenLocal emptyTry func t executor).1 (thenLocal emptyTry func t executor).2
      (continuation emptyTry func (seen T t) s) := by
  have hargs : ∀ args, s.calls ++ args = args := by simp [hcalls]
  cases func with
  | plain cb =>
      refine .ended _ _ rfl hinvoked ?_ rfl (hargs _)
      simp [continuation, hreturned]
  | returnsFuture cb =>
      simp only [continuation, thenLocal]
      rcases cb.call emptyTry (seen T t) with ⟨e | ⟨_ | fulfilled, r, executor'⟩, args⟩
      · exact .ended _ (.error e) rfl hinvoked (by simp [hreturned]) rfl (hargs args)
      · exact .ended _ _ (seen_forwarded r) hinvoked (by simp [hreturned]) rfl (hargs args)
      · refine .forwarding _ _ ?_ hinvoked rfl hresult (hargs args)
        cases fulfilled <;> simp

/-- What a step of the shared path can do. -/
inductive Move (emptyTry : ε) (func : Func ε T T₂) (t : Try ε T.Inner) (executor : Option Nat)
    (s : State ε T T₂) : State ε T T₂ → Prop where
  | setSource (hnone : s.source.result = none) :
      Move emptyTry func t executor s { s with source := { s.source with result := some t } }
  | thenImpl (hnone : s.source.continuation = none) :
      Move emptyTry func t executor s { s with
        source := { s.source with continuation := some () }
        executor := some executor }
  | invoke (t' : Try ε T.Inner) (hresult : s.source.result = some t')
      (hcontinuation : s.source.continuation = some ()) (hnone : s.source.invoked = []) :
      Move emptyTry func t executor s (continuation emptyTry func (seen T t')
        { s with source := { s.source with invoked := [((), t')] } })
  | setReturned (k : Option Unit) (invoked : List (Unit × Try ε T₂.Inner)) (t₂ : Try ε T₂.Inner)
      (hcell : s.returned = some (⟨none, k, invoked⟩, t₂)) :
      Move emptyTry func t executor s { s with returned := some (⟨some t₂, k, invoked⟩, t₂) }
  | forward (t₂' t₂ : Try ε T₂.Inner) (hcell : s.returned = some (⟨some t₂', some (), []⟩, t₂)) :
      Move emptyTry func t executor s { s with
        returned := some (⟨some t₂', some (), [((), t₂')]⟩, t₂)
        result := some (forwarded T₂ t₂') }

theorem move_of_step {l : Label} (hstep : step emptyTry func t executor s l = some s') :
    Move emptyTry func t executor s s' := by
  cases l with
  | setSource =>
      simp only [step] at hstep
      split at hstep
      case h_1 hnone =>
        cases hstep
        exact .setSource hnone
      case h_2 => cases hstep
  | thenImpl =>
      simp only [step] at hstep
      split at hstep
      case h_1 hnone =>
        cases hstep
        exact .thenImpl hnone
      case h_2 => cases hstep
  | invoke =>
      simp only [step] at hstep
      split at hstep
      case h_1 t' hresult hcontinuation hnone =>
        cases hstep
        exact .invoke t' hresult hcontinuation hnone
      case h_2 => cases hstep
  | setReturned =>
      simp only [step] at hstep
      split at hstep
      case h_1 k invoked t₂ hcell =>
        cases hstep
        exact .setReturned k invoked t₂ hcell
      case h_2 => cases hstep
  | forward =>
      simp only [step] at hstep
      split at hstep
      case h_1 t₂' t₂ hcell =>
        cases hstep
        exact .forward t₂' t₂ hcell
      case h_2 => cases hstep

/-- Before the continuation has run, the callback has not been called, and the source has no
result but {lit}`t`. -/
theorem Stage.waiting_of_invoked {fut : Fut ε T₂} {calls : List (Argument ε T)}
    (h : Stage t fut calls s) (hnone : s.source.invoked = []) :
    (∀ t' ∈ s.source.result, t' = t) ∧ s.returned = none ∧ s.result = none ∧ s.calls = [] := by
  cases h with
  | waiting hsource hinvoked hreturned hresult hcalls =>
      refine ⟨fun t' ht' => ?_, hreturned, hresult, hcalls⟩
      rcases hsource with hsource | hsource
      · rw [hsource] at ht'
        cases ht'
      · rw [hsource] at ht'
        cases ht'
        rfl
  | forwarding r hr hinvoked hreturned hresult hcalls => exact absurd hnone hinvoked
  | ended r hr hinvoked hreturned hresult hcalls => exact absurd hnone hinvoked

/-- Before the returned future is through, its promise is that of the local path. -/
theorem Stage.forwarding_of_returned {fut : Fut ε T₂} {calls : List (Argument ε T)}
    (h : Stage t fut calls s) {c : Cell ε T₂.Inner Unit} {t₂ : Try ε T₂.Inner}
    (hcell : s.returned = some (c, t₂)) (hopen : c.result = none ∨ c.invoked = []) :
    t₂ = fut.result ∧ c.continuation = some () ∧ c.invoked = [] ∧
      (∀ r ∈ c.result, r = fut.result) ∧ s.source.invoked ≠ [] ∧ s.result = none ∧
      s.calls = calls := by
  cases h with
  | waiting hsource hinvoked hreturned hresult hcalls =>
      rw [hreturned] at hcell
      cases hcell
  | forwarding r hr hinvoked hreturned hresult hcalls =>
      rw [hreturned] at hcell
      cases hcell
      refine ⟨rfl, rfl, rfl, fun r' hr' => ?_, hinvoked, hresult, hcalls⟩
      rcases hr with rfl | rfl
      · cases hr'
      · cases hr'
        rfl
  | ended r hr hinvoked hreturned hresult hcalls =>
      rcases hreturned _ hcell with ⟨hsome, hcalled⟩
      rcases hopen with hopen | hopen
      · exact absurd hopen hsome
      · exact absurd hopen hcalled

/-- A step of the shared path keeps to what the local path does, and leaves less to do. -/
theorem Stage.step {l : Label}
    (h : Stage t (thenLocal emptyTry func t executor).1 (thenLocal emptyTry func t executor).2 s)
    (hstep : step emptyTry func t executor s l = some s') :
    Stage t (thenLocal emptyTry func t executor).1 (thenLocal emptyTry func t executor).2 s' ∧
      s'.rank < s.rank := by
  cases move_of_step hstep with
  | setSource hnone =>
      exact ⟨h.setSource s.executor rfl (.inr rfl), by simp [State.rank, hnone]⟩
  | thenImpl hnone =>
      exact ⟨h.setSource (some executor) rfl (.inl rfl), by simp [State.rank, hnone]⟩
  | invoke t' hresult' hcontinuation hnone =>
      rcases h.waiting_of_invoked hnone with ⟨hsource, hreturned, hresult, hcalls⟩
      have ht : t' = t := hsource t' hresult'
      subst ht
      refine ⟨continuation_stage (by simp) hreturned hresult hcalls, ?_⟩
      apply State.rank_lt_of_invoked <;> simp [continuation_frame, hnone]
  | setReturned k invoked t₂ hcell =>
      refine ⟨?_, by simp [State.rank, returnedRank, hcell]⟩
      rcases h.forwarding_of_returned hcell (.inl rfl) with
        ⟨rfl, rfl, rfl, -, hinvoked, hresult, hcalls⟩
      exact .forwarding _ _ (.inr rfl) hinvoked rfl hresult hcalls
  | forward t₂' t₂ hcell =>
      refine ⟨?_, by simp [State.rank, returnedRank, hcell]⟩
      rcases h.forwarding_of_returned hcell (.inr rfl) with
        ⟨-, -, -, hr, hinvoked, hresult, hcalls⟩
      refine .ended _ _ ?_ hinvoked (by simp) rfl hcalls
      rw [hr t₂' rfl]
      exact seen_forwarded _

/-- The shared states move as {lit}`FutureState` does, seen from outside. -/
theorem Stage.cells {l : Label}
    (h : Stage t (thenLocal emptyTry func t executor).1 (thenLocal emptyTry func t executor).2 s)
    (hstep : ThenImpl.step emptyTry func t executor s l = some s') :
    (s'.source = s.source ∨ Cell.Step t () s.source s'.source) ∧
      ∀ c ∈ s.returned, ∃ c' ∈ s'.returned, c'.2 = c.2 ∧
        (c'.1 = c.1 ∨ Cell.Step c.2 () c.1 c'.1) := by
  have hsame : ∀ c ∈ s.returned, ∃ c' ∈ s.returned, c'.2 = c.2 ∧
      (c'.1 = c.1 ∨ Cell.Step c.2 () c.1 c'.1) := fun c hc => ⟨c, hc, rfl, .inl rfl⟩
  cases move_of_step hstep with
  | setSource hnone => exact ⟨.inr (.setResult _ hnone), hsame⟩
  | thenImpl hnone => exact ⟨.inr (.setContinuation _ hnone), hsame⟩
  | invoke t' hresult' hcontinuation hnone =>
      rcases h.waiting_of_invoked hnone with ⟨hsource, hreturned, -⟩
      have ht : t' = t := hsource t' hresult'
      subst ht
      rw [(continuation_frame _).1]
      exact ⟨.inr (.invoke _ hresult' hcontinuation hnone), by simp [hreturned]⟩
  | setReturned k invoked t₂ hcell =>
      refine ⟨.inl rfl, ?_⟩
      intro c hc
      rw [hcell] at hc
      cases hc
      exact ⟨_, rfl, rfl, .inr (.setResult _ rfl)⟩
  | forward t₂' t₂ hcell =>
      rcases h.forwarding_of_returned hcell (.inr rfl) with ⟨ht, -, -, hr, -⟩
      have ht' : t₂' = t₂ := (hr t₂' rfl).trans ht.symm
      subst ht'
      refine ⟨.inl rfl, ?_⟩
      intro c hc
      rw [hcell] at hc
      cases hc
      exact ⟨_, rfl, rfl, .inr (.invoke _ rfl rfl rfl)⟩

/-- While the second promise has no result, something can be done. -/
theorem Stage.ended_of_stuck
    (h : Stage t (thenLocal emptyTry func t executor).1 (thenLocal emptyTry func t executor).2 s)
    (hstuck : (machine emptyTry func t executor).Stuck (fun _ => True) s) : s.result.isSome := by
  cases h with
  | waiting hsource hinvoked hreturned hresult hcalls =>
      have hset := hstuck .setSource trivial
      have hthen := hstuck .thenImpl trivial
      have hinvoke := hstuck .invoke trivial
      simp only [machine, ThenImpl.step] at hset hthen hinvoke
      rcases hsource with hsource | hsource
      · simp [hsource] at hset
      · cases hcontinuation : s.source.continuation with
        | none => simp [hcontinuation] at hthen
        | some k => simp [hsource, hcontinuation, hinvoked] at hinvoke
  | forwarding r hr hinvoked hreturned hresult hcalls =>
      have hset := hstuck .setReturned trivial
      have hforward := hstuck .forward trivial
      simp only [machine, ThenImpl.step] at hset hforward
      rcases hr with rfl | rfl
      · simp [hreturned] at hset
      · simp [hreturned] at hforward
  | ended r hr hinvoked hreturned hresult hcalls => simp [hresult]

/-- In every state of the shared path the two paths agree. -/
theorem Stage.agrees
    (h : Stage t (thenLocal emptyTry func t executor).1 (thenLocal emptyTry func t executor).2 s) :
    Agrees (machine emptyTry func t executor) (thenLocal emptyTry func t executor).1
      (thenLocal emptyTry func t executor).2 s where
  result := by
    intro r hr
    cases h with
    | waiting hsource hinvoked hreturned hresult hcalls =>
        rw [hresult] at hr
        cases hr
    | forwarding r' hr' hinvoked hreturned hresult hcalls =>
        rw [hresult] at hr
        cases hr
    | ended r' hr' hinvoked hreturned hresult hcalls =>
        rw [hresult] at hr
        cases hr
        exact ⟨hr', hcalls⟩
  calls := by
    cases h with
    | waiting hsource hinvoked hreturned hresult hcalls => exact .inl hcalls
    | forwarding r hr hinvoked hreturned hresult hcalls => exact .inr hcalls
    | ended r hr hinvoked hreturned hresult hcalls => exact .inr hcalls
  ends := h.ended_of_stuck
  exists_end := by
    rcases (machine emptyTry func t executor).exists_run_stuck (fun _ => True) State.rank
      (fun _ _ _ hs hstep => Stage.step hs hstep) h with ⟨ls, s', -, hrun, -, hstuck⟩
    exact ⟨ls, s', hrun, hstuck⟩

end

/-! ## Results -/

/-- For every result, exception or not, and every callback, whenever the promise is fulfilled:
the future that is chained on a promise-backed one gets the result that is chained on a local
one, and the callback is called once with the same argument, or not at all. -/
theorem local_and_shared_agree (emptyTry : ε) (func : Func ε T T₂) (t : Except ε T.Inner)
    (executor : Option Nat) (ls : List Label) (s : State ε T T₂)
    (hrun : (machine emptyTry func (toTry t) executor).run State.initial ls = some s) :
    (thenLocal emptyTry func (toTry t) executor).2 = func.arguments t ∧
      Agrees (machine emptyTry func (toTry t) executor)
        (thenLocal emptyTry func (toTry t) executor).1 (func.arguments t) s := by
  have hcalls := thenLocal_calls emptyTry func t executor
  have hstage : Stage (toTry t) (thenLocal emptyTry func (toTry t) executor).1
      (thenLocal emptyTry func (toTry t) executor).2 s :=
    (machine emptyTry func (toTry t) executor).run_invariant
      (fun _ _ _ hs hstep => (Stage.step hs hstep).1) (.waiting _ (.inl rfl) rfl rfl rfl rfl) hrun
  refine ⟨hcalls, ?_⟩
  rw [← hcalls]
  exact hstage.agrees

/-- A {lit}`thenTry` on a {lit}`Future<void>`, whose callback returns a future that fails later;
the promise is fulfilled after the call. -/
def failsLater : Func Nat .void .void :=
  .returnsFuture (.thenTry fun _ => .ok ⟨.sharedState false, .error 7, none⟩)

theorem local_and_shared_agree_failsLater :
    ∃ s, (machine 0 failsLater (toTry (.ok ())) none).run State.initial
        [.thenImpl, .setSource, .invoke, .setReturned, .forward] = some s ∧
      s.result = some (.error 7) ∧
      (thenLocal 0 failsLater (toTry (.ok ())) none).2 = failsLater.arguments (.ok ()) ∧
      Agrees (machine 0 failsLater (toTry (.ok ())) none)
        (thenLocal 0 failsLater (toTry (.ok ())) none).1 (failsLater.arguments (.ok ())) s :=
  ⟨_, rfl, rfl, local_and_shared_agree 0 failsLater (.ok ()) none
    [.thenImpl, .setSource, .invoke, .setReturned, .forward] _ rfl⟩

/-! ## Executors -/

/-- The executor of the future that the callback returns. -/
def Func.ownExecutor (emptyTry : ε) (func : Func ε T T₂) (t : TryOf ε T) : Option Nat :=
  match func with
  | .plain _ => none
  | .returnsFuture cb =>
      match (cb.call emptyTry t).1 with
      | .ok fut => fut.executor
      | .error _ => none

/-- The callback returns the future that its type promises. -/
def Func.Returns (emptyTry : ε) (func : Func ε T T₂) (t : TryOf ε T) : Prop :=
  match func with
  | .plain _ => True
  | .returnsFuture cb => ∃ fut, (cb.call emptyTry t).1 = .ok fut

theorem thenLocal_executor (emptyTry : ε) (func : Func ε T T₂) (t : Try ε T.Inner)
    (executor : Option Nat) (hreturns : func.Returns emptyTry (seen T t)) :
    (thenLocal emptyTry func t executor).1.executor =
      (func.ownExecutor emptyTry (seen T t)).or executor := by
  cases func with
  | plain cb => rfl
  | returnsFuture cb =>
      rcases hreturns with ⟨fut, hfut⟩
      simp only [thenLocal, Func.ownExecutor]
      rcases hcall : cb.call emptyTry (seen T t) with ⟨r, args⟩
      rw [hcall] at hfut
      subst hfut
      cases hexecutor : fut.executor <;> simp [hexecutor]

/-- The new future of the shared path has the executor of the source. -/
theorem executor_of_run {emptyTry : ε} {func : Func ε T T₂} {t : Try ε T.Inner}
    {executor : Option Nat} {ls : List Label} {s : State ε T T₂}
    (hrun : (machine emptyTry func t executor).run State.initial ls = some s) :
    s.executor = none ∨ s.executor = some executor := by
  refine (machine emptyTry func t executor).run_invariant
    (P := fun s => s.executor = none ∨ s.executor = some executor) ?_ (.inl rfl) hrun
  intro s l s' hs hstep
  cases move_of_step hstep with
  | thenImpl hnone => exact .inr rfl
  | invoke t' hresult hcontinuation hnone => rwa [(continuation_frame _).2]
  | setSource hnone => exact hs
  | setReturned k invoked t₂ hcell => exact hs
  | forward t₂' t₂ hcell => exact hs

/-- The executor of the new future: on a promise-backed future it is that of the source; on a
local one, a future that the callback returns keeps an executor of its own.  They are the same
for callbacks that return values, and for those whose future has no executor or that of the
source. -/
theorem executor_of_then (emptyTry : ε) (func : Func ε T T₂) (t : Except ε T.Inner)
    (executor : Option Nat) (hreturns : func.Returns emptyTry (seen T (toTry t)))
    (ls : List Label) (s : State ε T T₂)
    (hrun : (machine emptyTry func (toTry t) executor).run State.initial ls = some s)
    (ex : Option Nat) (hthen : s.executor = some ex) :
    ex = executor ∧
      (thenLocal emptyTry func (toTry t) executor).1.executor =
        (func.ownExecutor emptyTry (seen T (toTry t))).or executor ∧
      (func.ownExecutor emptyTry (seen T (toTry t)) = none ∨
        func.ownExecutor emptyTry (seen T (toTry t)) = executor →
          (thenLocal emptyTry func (toTry t) executor).1.executor = ex) := by
  have hlocal := thenLocal_executor emptyTry func (toTry t) executor hreturns
  have hex : ex = executor := by
    rcases executor_of_run hrun with hnone | hsome
    · rw [hnone] at hthen
      cases hthen
    · rw [hsome] at hthen
      exact (Option.some.inj hthen).symm
  refine ⟨hex, hlocal, fun hown => ?_⟩
  rw [hlocal, hex]
  rcases hown with hown | hown
  · rw [hown]
    rfl
  · rw [hown]
    cases executor <;> rfl

/-- A callback of {lit}`thenValue` that returns nothing. -/
def returnsVoid : Func Nat .void .void :=
  .plain (.thenValue fun _ => .ok ())

theorem executor_of_then_void :
    ∃ s, (machine 0 returnsVoid (toTry (.ok ())) (some 1)).run State.initial
        [.setSource, .thenImpl, .invoke] = some s ∧ s.executor = some (some 1) ∧
      (thenLocal 0 returnsVoid (toTry (.ok ())) (some 1)).1.executor = some 1 :=
  ⟨_, rfl, rfl, (executor_of_then 0 returnsVoid (.ok ()) (some 1) trivial
    [.setSource, .thenImpl, .invoke] _ rfl (some 1) rfl).2.2 (.inl rfl)⟩

/-- A callback that returns a ready future with the executor 2. -/
def ownFuture : Func Nat .void .void :=
  .returnsFuture (.thenTry fun _ => .ok ⟨.localState, .value (), some 2⟩)

/-- The source has the executor 1: chained on a local future, the new one has the executor 2,
and chained on a promise-backed one, the executor 1. -/
theorem executors_differ :
    (thenLocal 0 ownFuture (toTry (.ok ())) (some 1)).1.executor = some 2 ∧
      ∃ s, (machine 0 ownFuture (toTry (.ok ())) (some 1)).run State.initial
        [.setSource, .thenImpl] = some s ∧ s.executor = some (some 1) :=
  ⟨rfl, _, rfl, rfl⟩

end ThenImpl

end AsyncSimple
