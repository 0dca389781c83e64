import AsyncSimple.Future.HandOffPart

/-!
# Chains of futures

{lit}`thenValue` hands a callback to {lit}`thenImpl`, which has four paths: the future holds
its result itself, or it shares a state with a promise; and the callback returns a future,
or a value.  With a shared state, {lit}`thenImpl` makes a new promise, moves it into the
continuation of that state, and when the callback returns a future, the continuation moves
the promise once more, into the continuation of this one.

Every shared state has one promise and one consumer, so the states of a chain form a list:
each one is the environment's to fulfil, or it is fulfilled by the continuation that has
been attached to the state before it.  {lit}`Node` is this list.  The environment fulfils
its promises and the continuations are invoked at any moment between the calls of
{lit}`thenValue`.

Main results:

- Theorem {lit}`handOff_refines`: a shared state behaves as a cell that is fulfilled,
  gets its continuation and invokes it, in single steps.
- Theorem {lit}`step_conserves`: a step changes neither the result that the chain will
  have nor the callbacks that will have been called.
- Theorem {lit}`thenValue_laws`: the laws of a monad, up to the final result.
-/

namespace AsyncSimple

open Transition

/-! ## A shared state in single steps -/

namespace FutureState

variable {ε α K : Type}

/-- What the two sides see of a shared state. -/
structure Cell (ε α K : Type) where
  result : Option (Try ε α)
  continuation : Option K
  invoked : List (K × Try ε α)

/-- {lit}`setResult`, {lit}`setContinuation` and the invocation as single steps. -/
inductive Cell.Step (v : Try ε α) (k : K) : Cell ε α K → Cell ε α K → Prop where
  | setResult (c : Cell ε α K) (h : c.result = none) :
      Cell.Step v k c { c with result := some v }
  | setContinuation (c : Cell ε α K) (h : c.continuation = none) :
      Cell.Step v k c { c with continuation := some k }
  | invoke (c : Cell ε α K) (hresult : c.result = some v) (hcontinuation : c.continuation = some k)
      (hinvoked : c.invoked = []) : Cell.Step v k c { c with invoked := [(k, v)] }

/-- The cell of a hand-off. -/
def System.cell (v : Try ε α) (k : K) (s : System Unit ε α K) : Cell ε α K where
  result := if s.shared.fs.state.hasResult then some v else none
  continuation := if s.shared.fs.state.hasContinuation then some k else none
  invoked := if s.shared.invoked = [] then [] else [(k, v)]

theorem System.cell_eq {v : Try ε α} {k : K} {s s' : System Unit ε α K}
    (h : s'.shared.fs.state = s.shared.fs.state) (hinvoked : s'.shared.invoked = s.shared.invoked) :
    s'.cell v k = s.cell v k := by
  simp only [System.cell, h, hinvoked]

/-- A move of one of the two calls, seen from outside. -/
theorem Move.outside {side : Side} {write : FutureState ε α K → FutureState ε α K}
    {sh sh' : Shared ε α K} {pc pc' : Pc} (hwrite : ∀ fs, (write fs).state = fs.state)
    (hmove : Move side write sh pc sh' pc') :
    sh'.fs.state = sh.fs.state ∧ sh'.invoked = sh.invoked ∨
      (sh.fs.state = .start ∧ sh'.fs.state = side.only ∨
        sh.fs.state = side.other ∧ sh'.fs.state = .done) ∧ sh'.invoked = sh.invoked ∨
      pc.phase = .owing ∧ sh'.fs.state = sh.fs.state ∧ ∃ x, sh'.invoked = x :: sh.invoked := by
  cases hmove with
  | stay _ _ hfs _ hinvoked => exact .inl ⟨by rw [hfs], hinvoked⟩
  | store _ => exact .inl ⟨hwrite sh.fs, rfl⟩
  | publish _ hstate => exact .inr (.inl ⟨.inl ⟨hstate, rfl⟩, rfl⟩)
  | finish _ hstate => exact .inr (.inl ⟨.inr ⟨hstate, rfl⟩, rfl⟩)
  | invoke hphase => exact .inr (.inr ⟨hphase, rfl, _, rfl⟩)
  | _ => exact .inl ⟨rfl, rfl⟩

section Refinement

variable {v : Try ε α} {k : K} {executor : Option Nat} {forceSched : Bool}
  {s s' : System Unit ε α K}

/-- The continuation is invoked when the parts have met. -/
theorem invoke_cell (hdone : s.shared.fs.state = .done) (hinvoked : s.shared.invoked = [])
    (hstate : s'.shared.fs.state = s.shared.fs.state) (hcalled : s'.shared.invoked ≠ []) :
    Cell.Step v k (s.cell v k) (s'.cell v k) := by
  have hcell : s'.cell v k = { s.cell v k with invoked := [(k, v)] } := by
    simp only [System.cell, hstate, if_neg hcalled]
  rw [hcell]
  exact .invoke _ (by simp [System.cell, hdone]) (by simp [System.cell, hdone])
    (by simp [System.cell, hinvoked])

/-- The result becomes visible. -/
theorem setResult_cell (hstate : s.shared.fs.state = .start ∧
      s'.shared.fs.state = resultSide.only ∨
      s.shared.fs.state = resultSide.other ∧ s'.shared.fs.state = .done)
    (hinvoked : s'.shared.invoked = s.shared.invoked) :
    Cell.Step v k (s.cell v k) (s'.cell v k) := by
  have hcell : s'.cell v k = { s.cell v k with result := some v } := by
    rcases hstate with ⟨hbefore, hafter⟩ | ⟨hbefore, hafter⟩ <;>
      simp [System.cell, hbefore, hafter, hinvoked]
  rw [hcell]
  refine .setResult _ ?_
  rcases hstate with ⟨hbefore, -⟩ | ⟨hbefore, -⟩ <;> simp [System.cell, hbefore]

/-- The continuation becomes visible. -/
theorem setContinuation_cell (hstate : s.shared.fs.state = .start ∧
      s'.shared.fs.state = continuationSide.only ∨
      s.shared.fs.state = continuationSide.other ∧ s'.shared.fs.state = .done)
    (hinvoked : s'.shared.invoked = s.shared.invoked) :
    Cell.Step v k (s.cell v k) (s'.cell v k) := by
  have hcell : s'.cell v k = { s.cell v k with continuation := some k } := by
    rcases hstate with ⟨hbefore, hafter⟩ | ⟨hbefore, hafter⟩ <;>
      simp [System.cell, hbefore, hafter, hinvoked]
  rw [hcell]
  refine .setContinuation _ ?_
  rcases hstate with ⟨hbefore, -⟩ | ⟨hbefore, -⟩ <;> simp [System.cell, hbefore]

/-- Every move of a hand-off is one step of its cell, or none. -/
theorem handOff_refines {l : Label Unit} (h : HandOffInv v k executor forceSched s)
    (hstep : step (fun _ => v) k s l = some s') :
    s'.cell v k = s.cell v k ∨ Cell.Step v k (s.cell v k) (s'.cell v k) := by
  cases l with
  | setResult i answer =>
      simp only [step, Option.map_eq_some_iff] at hstep
      rcases hstep with ⟨⟨sh, pc⟩, hmove, rfl⟩
      have hview := (transferStep_move (fun _ => State.start_or_onlyContinuation)
        h.1.race.no_result (fun hi => h.1.debt.done_of_owing (.inl ⟨i, hi⟩))
        (h.1.race.setter_believes i) hmove).1
      rcases hview.outside (by simp) with ⟨hstate, hinvoked⟩ | ⟨hstate, hinvoked⟩ |
        ⟨howing, hstate, x, hinvoked⟩
      · exact .inl (System.cell_eq hstate hinvoked)
      · exact .inr (setResult_cell hstate hinvoked)
      · exact .inr (invoke_cell (h.1.debt.done_of_owing (.inl ⟨i, howing⟩))
          (h.1.debt.setter_owing i howing).2.1 hstate (by simp [hinvoked]))
  | setContinuation answer =>
      simp only [step, Option.map_eq_some_iff] at hstep
      rcases hstep with ⟨⟨sh, pc⟩, hmove, rfl⟩
      have hview := (transferStep_move (fun _ => State.start_or_onlyResult)
        h.1.race.no_continuation (fun hi => h.1.debt.done_of_owing (.inr hi))
        h.1.race.attacher_believes hmove).1
      rcases hview.outside (by simp) with ⟨hstate, hinvoked⟩ | ⟨hstate, hinvoked⟩ |
        ⟨howing, hstate, x, hinvoked⟩
      · exact .inl (System.cell_eq hstate hinvoked)
      · exact .inr (setContinuation_cell hstate hinvoked)
      · exact .inr (invoke_cell (h.1.debt.done_of_owing (.inr howing))
          (h.1.debt.attacher_owing howing).2 hstate (by simp [hinvoked]))
  | runTask =>
      rcases step_runTask hstep with ⟨hpending, -, -, hfs, hinvoked⟩
      have hdone := h.done_of_pending (by omega)
      have hnone : s.shared.invoked = [] := by
        rcases h.1.debt.pending_le with hzero | ⟨-, hnone⟩
        · omega
        · exact hnone
      exact .inr (invoke_cell hdone hnone (by rw [hfs]) (by simp [hinvoked]))

end Refinement

end FutureState

namespace Chaining

/-! ## Callbacks and futures -/

/-- What a callback with a future as its result does: it throws, it returns a future that
holds its result, or one whose promise has been fulfilled or will be, with {lit}`t`. -/
inductive Reply (ε β : Type) where
  | throws (e : ε)
  | ready (r : Except ε β)
  | shared (fulfilled : Bool) (t : Try ε β)

/-- The callbacks of {lit}`thenValue`.  The flag is {lit}`R::ReturnsFuture::value`. -/
inductive Callback (ε : Type) : Bool → Type → Type → Type 1 where
  | user {α β : Type} (name : Nat) (f : α → Reply ε β) : Callback ε true α β
  /-- a callback that returns a value, or throws -/
  | plain {α β : Type} (name : Nat) (f : α → Except ε β) : Callback ε false α β
  /-- {lit}`[](T x) { return makeReadyFuture(x); }` -/
  | makeReadyFuture {α : Type} : Callback ε true α α
  /-- {lit}`[](T x) { return f(x).thenValue(g); }` -/
  | andThen {α β γ : Type} {b : Bool} (f : Callback ε true α β) (g : Callback ε b β γ) :
      Callback ε true α γ

/-- A shared state, with what will fulfil it. -/
inductive Node (ε : Type) : Type → Type 1 where
  /-- the environment will fulfil the promise -/
  | promise {α : Type} (t : Try ε α) : Node ε α
  | fulfilled {α : Type} (t : Try ε α) : Node ε α
  /-- the promise is in the continuation that {lit}`thenImpl` has attached to the state
  {lit}`src` -/
  | thenImpl {α β : Type} {b : Bool} (src : Node ε α) (cb : Callback ε b α β) : Node ε β
  /-- the promise is in the continuation of the future that the callback has returned -/
  | forward {α : Type} (src : Node ε α) : Node ε α

/-- {lit}`Future<T>`: a future with a local state has a result. -/
inductive Fut (ε α : Type) where
  | localState (r : Except ε α)
  | sharedState (node : Node ε α)

variable {ε α β γ : Type} {b : Bool}

/-- A {lit}`Try` that holds a value or an exception. -/
def toTry : Except ε α → Try ε α
  | .ok x => .value x
  | .error e => .error e

/-- The future that a callback returns, or the exception that it throws, and the
callbacks called so far. -/
abbrev Called (ε β : Type) :=
  Except ε (Fut ε β) × List Nat

/-- {lit}`thenImpl` on a future; {lit}`func` calls the callback, {lit}`attach` makes the
state of the new promise. -/
def thenImplWith (func : α → Called ε β) (attach : Node ε α → Node ε β) :
    Fut ε α → Fut ε β × List Nat
  | .localState (.ok x) =>
      match func x with
      | (.ok fut, calls) => (fut, calls)
      | (.error e, calls) => (.localState (.error e), calls)
  -- `t.value()` in the lambda of `thenValue` throws
  | .localState (.error e) => (.localState (.error e), [])
  | .sharedState node => (.sharedState (attach node), [])

/-- A call of the callback. -/
def Callback.call : {b : Bool} → {α β : Type} → Callback ε b α β → α → Called ε β
  | _, _, _, .user name f, x =>
      match f x with
      | .throws e => (.error e, [name])
      | .ready r => (.ok (.localState r), [name])
      | .shared true t => (.ok (.sharedState (.fulfilled t)), [name])
      | .shared false t => (.ok (.sharedState (.promise t)), [name])
  -- `makeTryCall`
  | _, _, _, .plain name f, x => (.ok (.localState (f x)), [name])
  | _, _, _, .makeReadyFuture, x => (.ok (.localState (.ok x)), [])
  | _, _, _, .andThen f g, x =>
      match f.call x with
      | (.error e, calls) => (.error e, calls)
      | (.ok fut, calls) =>
          let next := thenImplWith g.call (fun node => .thenImpl node g) fut
          (.ok next.1, calls ++ next.2)

/-- {lit}`fut.thenValue(cb)`. -/
def thenValue (fut : Fut ε α) (cb : Callback ε b α β) : Fut ε β × List Nat :=
  thenImplWith cb.call (fun node => .thenImpl node cb) fut

/-- The continuation that {lit}`thenImpl` attaches, invoked with {lit}`t`. -/
def continuation (emptyTry : ε) (cb : Callback ε b α β) : Try ε α → Node ε β × List Nat
  | .value x =>
      match cb.call x with
      | (.error e, calls) => (.fulfilled (.error e), calls)
      -- the continuation of a local state is executed at once
      | (.ok (.localState r), calls) => (.fulfilled (toTry r), calls)
      | (.ok (.sharedState node), calls) => (.forward node, calls)
  | .error e => (.fulfilled (.error e), [])
  | .nothing => (.fulfilled (.error emptyTry), [])

/-- The next step of the states of a chain: the first one is fulfilled, or its continuation
is invoked. -/
def Node.step (emptyTry : ε) : {α : Type} → Node ε α → Option (Node ε α × List Nat)
  | _, .promise t => some (.fulfilled t, [])
  | _, .fulfilled _ => none
  | _, .thenImpl (.fulfilled t) cb => some (continuation emptyTry cb t)
  | _, .thenImpl src cb => (src.step emptyTry).map fun next => (.thenImpl next.1 cb, next.2)
  | _, .forward (.fulfilled t) => some (.fulfilled t, [])
  | _, .forward src => (src.step emptyTry).map fun next => (.forward next.1, next.2)

/-! ## Programs -/

/-- The calls of {lit}`thenValue` that a program makes one after the other. -/
inductive Chain (ε : Type) : Type → Type → Type 1 where
  | nil {α : Type} : Chain ε α α
  | cons {α β γ : Type} {b : Bool} (cb : Callback ε b α β) (rest : Chain ε β γ) : Chain ε α γ

/-- The present future, the calls that are still to be made and the callbacks that have
been called. -/
structure State (ε γ : Type) where
  {Inner : Type}
  fut : Fut ε Inner
  rest : Chain ε Inner γ
  calls : List Nat

def State.start (fut : Fut ε α) (rest : Chain ε α γ) : State ε γ where
  fut := fut
  rest := rest
  calls := []

inductive Label where
  /-- the program calls {lit}`thenValue` -/
  | thenValue
  /-- a promise is fulfilled, or a continuation is invoked -/
  | state
deriving DecidableEq, Repr

def step (emptyTry : ε) : State ε γ → Label → Option (State ε γ)
  | ⟨_, .nil, _⟩, .thenValue => none
  | ⟨fut, .cons cb rest, calls⟩, .thenValue =>
      some ⟨(thenValue fut cb).1, rest, calls ++ (thenValue fut cb).2⟩
  | ⟨.localState _, _, _⟩, .state => none
  | ⟨.sharedState node, rest, calls⟩, .state =>
      (node.step emptyTry).map fun next => ⟨.sharedState next.1, rest, calls ++ next.2⟩

def machine (emptyTry : ε) : Machine (State ε γ) Label where
  step := step emptyTry

/-- The result of the last future, when the program has made all its calls. -/
def State.outcome : State ε γ → Option (Try ε γ)
  | ⟨.localState r, .nil, _⟩ => some (toTry r)
  | ⟨.sharedState (.fulfilled t), .nil, _⟩ => some t
  | _ => none

/-- Every run ends with this result and these calls, has made no others before, and can be
brought to its end. -/
def Ends (emptyTry : ε) (start : State ε γ) (result : Try ε γ) (calls : List Nat) : Prop :=
  ∀ ls s, (machine emptyTry).run start ls = some s →
    s.calls <+: calls ∧
    (∀ t, s.outcome = some t → t = result ∧ s.calls = calls) ∧
    ∃ ks s', (machine emptyTry).run s ks = some s' ∧ s'.outcome = some result

/-! ## What will have happened in the end -/

/-- {lit}`thenValue` on results: a value is passed on, an exception is kept, and
{lit}`checkHasTry` throws for a {lit}`Try` that holds nothing. -/
def bindTry (emptyTry : ε) : Try ε α → (α → Try ε β) → Try ε β
  | .value x, next => next x
  | .error e, _ => .error e
  | .nothing, _ => .error emptyTry

/-- The calls that a value leads to. -/
def callsAfter : Try ε α → (α → List Nat) → List Nat
  | .value x, next => next x
  | _, _ => []

def Reply.result : Reply ε β → Try ε β
  | .throws e => .error e
  | .ready r => toTry r
  | .shared _ t => t

/-- The result of the future that the callback returns. -/
def Callback.result (emptyTry : ε) : {b : Bool} → {α β : Type} → Callback ε b α β → α → Try ε β
  | _, _, _, .user _ f, x => (f x).result
  | _, _, _, .plain _ f, x => toTry (f x)
  | _, _, _, .makeReadyFuture, x => .value x
  | _, _, _, .andThen f g, x => bindTry emptyTry (f.result emptyTry x) (g.result emptyTry)

/-- The calls until that future has its result. -/
def Callback.calls (emptyTry : ε) : {b : Bool} → {α β : Type} → Callback ε b α β → α → List Nat
  | _, _, _, .user name _, _ => [name]
  | _, _, _, .plain name _, _ => [name]
  | _, _, _, .makeReadyFuture, _ => []
  | _, _, _, .andThen f g, x =>
      f.calls emptyTry x ++ callsAfter (f.result emptyTry x) (g.calls emptyTry)

/-- A bound on the steps of the future that the callback returns. -/
def Callback.size : {b : Bool} → {α β : Type} → Callback ε b α β → Nat
  | _, _, _, .user _ _ => 2
  | _, _, _, .plain _ _ => 1
  | _, _, _, .makeReadyFuture => 1
  | _, _, _, .andThen f g => f.size + g.size + 1

def Node.result (emptyTry : ε) : {α : Type} → Node ε α → Try ε α
  | _, .promise t => t
  | _, .fulfilled t => t
  | _, .thenImpl src cb => bindTry emptyTry (src.result emptyTry) (cb.result emptyTry)
  | _, .forward src => src.result emptyTry

def Node.calls (emptyTry : ε) : {α : Type} → Node ε α → List Nat
  | _, .promise _ => []
  | _, .fulfilled _ => []
  | _, .thenImpl src cb =>
      src.calls emptyTry ++ callsAfter (src.result emptyTry) (cb.calls emptyTry)
  | _, .forward src => src.calls emptyTry

def Node.size : {α : Type} → Node ε α → Nat
  | _, .promise _ => 1
  | _, .fulfilled _ => 0
  | _, .thenImpl src cb => src.size + cb.size + 1
  | _, .forward src => src.size + 1

def Fut.result (emptyTry : ε) : Fut ε α → Try ε α
  | .localState r => toTry r
  | .sharedState node => node.result emptyTry

def Fut.calls (emptyTry : ε) : Fut ε α → List Nat
  | .localState _ => []
  | .sharedState node => node.calls emptyTry

def Fut.size : Fut ε α → Nat
  | .localState _ => 0
  | .sharedState node => node.size

def Chain.result (emptyTry : ε) : {α γ : Type} → Chain ε α γ → Try ε α → Try ε γ
  | _, _, .nil, t => t
  | _, _, .cons cb rest, t => rest.result emptyTry (bindTry emptyTry t (cb.result emptyTry))

def Chain.calls (emptyTry : ε) : {α γ : Type} → Chain ε α γ → Try ε α → List Nat
  | _, _, .nil, _ => []
  | _, _, .cons cb rest, t =>
      callsAfter t (cb.calls emptyTry) ++
        rest.calls emptyTry (bindTry emptyTry t (cb.result emptyTry))

def Chain.size : {α γ : Type} → Chain ε α γ → Nat
  | _, _, .nil => 0
  | _, _, .cons cb rest => cb.size + 2 + rest.size

def State.result (emptyTry : ε) (s : State ε γ) : Try ε γ :=
  s.rest.result emptyTry (s.fut.result emptyTry)

/-- The calls so far and those still to come. -/
def State.allCalls (emptyTry : ε) (s : State ε γ) : List Nat :=
  s.calls ++ (s.fut.calls emptyTry ++ s.rest.calls emptyTry (s.fut.result emptyTry))

def State.size (s : State ε γ) : Nat :=
  s.fut.size + s.rest.size

/-! ## Calls of a callback -/

/-- What a call comes to in the end: the result, the calls, and a bound on the steps. -/
def Called.result (emptyTry : ε) : Called ε β → Try ε β
  | (.error e, _) => .error e
  | (.ok fut, _) => fut.result emptyTry

def Called.calls (emptyTry : ε) : Called ε β → List Nat
  | (.error _, calls) => calls
  | (.ok fut, calls) => calls ++ fut.calls emptyTry

def Called.size : Called ε β → Nat
  | (.error _, _) => 0
  | (.ok fut, _) => fut.size

variable {emptyTry : ε}

theorem thenImplWith_result {func : α → Called ε β} {attach : Node ε α → Node ε β}
    {result : α → Try ε β} (hfunc : ∀ x, (func x).result emptyTry = result x)
    (hattach : ∀ node, (attach node).result emptyTry =
      bindTry emptyTry (node.result emptyTry) result) (fut : Fut ε α) :
    (thenImplWith func attach fut).1.result emptyTry =
      bindTry emptyTry (fut.result emptyTry) result := by
  match fut with
  | .sharedState node => exact hattach node
  | .localState (.error e) => rfl
  | .localState (.ok x) =>
      change _ = result x
      rw [← hfunc x]
      rcases hcall : func x with ⟨e | fut, calls⟩ <;> simp only [thenImplWith, hcall] <;> rfl

theorem thenImplWith_calls {func : α → Called ε β} {attach : Node ε α → Node ε β}
    {calls : α → List Nat} (hfunc : ∀ x, (func x).calls emptyTry = calls x)
    (hattach : ∀ node, (attach node).calls emptyTry =
      node.calls emptyTry ++ callsAfter (node.result emptyTry) calls) (fut : Fut ε α) :
    (thenImplWith func attach fut).2 ++ (thenImplWith func attach fut).1.calls emptyTry =
      fut.calls emptyTry ++ callsAfter (fut.result emptyTry) calls := by
  match fut with
  | .sharedState node => exact hattach node
  | .localState (.error e) => rfl
  | .localState (.ok x) =>
      change _ = calls x
      rw [← hfunc x]
      rcases hcall : func x with ⟨e | fut, calls⟩
      · simp only [thenImplWith, hcall]
        exact List.append_nil calls
      · simp only [thenImplWith, hcall]
        rfl

theorem thenImplWith_size {func : α → Called ε β} {attach : Node ε α → Node ε β} {bound : Nat}
    (hfunc : ∀ x, (func x).size < bound)
    (hattach : ∀ node, (attach node).size = node.size + bound + 1) (fut : Fut ε α) :
    (thenImplWith func attach fut).1.size ≤ fut.size + bound + 1 := by
  match fut with
  | .sharedState node => exact (hattach node).le
  | .localState (.error e) => exact Nat.zero_le _
  | .localState (.ok x) =>
      have hlt := hfunc x
      rcases hcall : func x with ⟨e | fut, calls⟩
      · simp only [thenImplWith, hcall]
        exact Nat.zero_le _
      · simp only [thenImplWith, hcall]
        rw [hcall] at hlt
        change fut.size < bound at hlt
        omega

theorem Callback.call_user (name : Nat) (f : α → Reply ε β) (x : α) :
    (Callback.user name f).call x =
      match f x with
      | .throws e => (.error e, [name])
      | .ready r => (.ok (.localState r), [name])
      | .shared true t => (.ok (.sharedState (.fulfilled t)), [name])
      | .shared false t => (.ok (.sharedState (.promise t)), [name]) :=
  rfl

theorem Callback.call_andThen (f : Callback ε true α β) (g : Callback ε b β γ) (x : α) :
    (Callback.andThen f g).call x =
      match f.call x with
      | (.error e, calls) => (.error e, calls)
      | (.ok fut, calls) =>
          (.ok (thenImplWith g.call (fun node => .thenImpl node g) fut).1,
            calls ++ (thenImplWith g.call (fun node => .thenImpl node g) fut).2) :=
  rfl

/-- A callback does what its result and its calls say. -/
theorem Callback.call_spec {α β : Type} (cb : Callback ε b α β) (x : α) :
    (cb.call x).result emptyTry = cb.result emptyTry x ∧
      (cb.call x).calls emptyTry = cb.calls emptyTry x := by
  induction cb with
  | user name f =>
      change _ = (f x).result ∧ _ = [name]
      rw [Callback.call_user]
      split <;> next hreply =>
        rw [hreply]
        exact ⟨rfl, rfl⟩
  | plain name f => exact ⟨rfl, rfl⟩
  | makeReadyFuture => exact ⟨rfl, rfl⟩
  | andThen f g ihf ihg =>
      rcases ihf x with ⟨hresult, hcalls⟩
      change _ = bindTry emptyTry (f.result emptyTry x) (g.result emptyTry) ∧
        _ = f.calls emptyTry x ++ callsAfter (f.result emptyTry x) (g.calls emptyTry)
      rw [Callback.call_andThen, ← hresult, ← hcalls]
      rcases hcall : f.call x with ⟨e | fut, calls⟩
      · exact ⟨rfl, (List.append_nil calls).symm⟩
      · refine ⟨thenImplWith_result (fun y => (ihg y).1) (fun _ => rfl) fut, ?_⟩
        simp only [Called.calls, Called.result, List.append_assoc]
        rw [thenImplWith_calls (fun y => (ihg y).2) (fun _ => rfl) fut]

theorem Callback.call_size {α β : Type} (cb : Callback ε b α β) (x : α) :
    (cb.call x).size < cb.size := by
  induction cb with
  | user name f =>
      rw [Callback.call_user]
      split
      · exact Nat.two_pos
      · exact Nat.two_pos
      · exact Nat.two_pos
      · exact Nat.one_lt_two
  | plain name f => exact Nat.one_pos
  | makeReadyFuture => exact Nat.one_pos
  | andThen f g ihf ihg =>
      have hsize := ihf x
      change _ < f.size + g.size + 1
      rw [Callback.call_andThen]
      rcases hcall : f.call x with ⟨e | fut, calls⟩
      · exact Nat.succ_pos _
      · have hle : (thenImplWith g.call (fun node => .thenImpl node g) fut).1.size ≤ _ :=
          thenImplWith_size ihg (fun _ => rfl) fut
        rw [hcall] at hsize
        change fut.size < f.size at hsize
        simp only [Called.size]
        omega

section Spec

variable (fut : Fut ε α) (cb : Callback ε b α β)

theorem thenValue_result : (thenValue fut cb).1.result emptyTry =
    bindTry emptyTry (fut.result emptyTry) (cb.result emptyTry) :=
  thenImplWith_result (fun x => (cb.call_spec x).1) (fun _ => rfl) fut

theorem thenValue_calls :
    (thenValue fut cb).2 ++ (thenValue fut cb).1.calls emptyTry =
      fut.calls emptyTry ++ callsAfter (fut.result emptyTry) (cb.calls emptyTry) :=
  thenImplWith_calls (fun x => (cb.call_spec x).2) (fun _ => rfl) fut

theorem thenValue_size : (thenValue fut cb).1.size < fut.size + (cb.size + 2) :=
  Nat.lt_succ_of_le (thenImplWith_size cb.call_size (fun _ => rfl) fut)

/-- The continuation of {lit}`thenImpl` does what {lit}`bindTry` says. -/
theorem continuation_spec (t : Try ε α) :
    (continuation emptyTry cb t).1.result emptyTry = bindTry emptyTry t (cb.result emptyTry) ∧
      (continuation emptyTry cb t).2 ++ (continuation emptyTry cb t).1.calls emptyTry =
        callsAfter t (cb.calls emptyTry) ∧
      (continuation emptyTry cb t).1.size ≤ cb.size := by
  match t with
  | .nothing => exact ⟨rfl, rfl, Nat.zero_le _⟩
  | .error e => exact ⟨rfl, rfl, Nat.zero_le _⟩
  | .value x =>
      have hsize := cb.call_size x
      simp only [bindTry, callsAfter]
      rw [← (cb.call_spec x).1, ← (cb.call_spec x).2]
      match hcall : cb.call x with
      | (.error e, calls) =>
          simp only [continuation, hcall]
          exact ⟨rfl, List.append_nil calls, Nat.zero_le _⟩
      | (.ok (.localState r), calls) =>
          simp only [continuation, hcall]
          exact ⟨rfl, rfl, Nat.zero_le _⟩
      | (.ok (.sharedState node), calls) =>
          simp only [continuation, hcall]
          rw [hcall] at hsize
          exact ⟨rfl, rfl, hsize⟩

end Spec

/-! ## Steps -/

theorem Node.step_thenImpl {src : Node ε α} (cb : Callback ε b α β)
    (hsrc : ∀ t, src ≠ .fulfilled t) : (Node.thenImpl src cb).step emptyTry =
      (src.step emptyTry).map fun next => (.thenImpl next.1 cb, next.2) := by
  cases src with
  | fulfilled t => exact absurd rfl (hsrc t)
  | _ => rfl

theorem Node.step_forward {src : Node ε α} (hsrc : ∀ t, src ≠ .fulfilled t) :
    (Node.forward src).step emptyTry =
      (src.step emptyTry).map fun next => (.forward next.1, next.2) := by
  cases src with
  | fulfilled t => exact absurd rfl (hsrc t)
  | _ => rfl

variable (emptyTry) in
/-- A state without a result can move, and keeps what will have happened. -/
theorem Node.step_spec {α : Type} (node : Node ε α) (hnode : ∀ t, node ≠ .fulfilled t) :
    ∃ next, node.step emptyTry = some next ∧
      next.1.result emptyTry = node.result emptyTry ∧
      next.2 ++ next.1.calls emptyTry = node.calls emptyTry ∧ next.1.size < node.size := by
  induction node with
  | promise t => exact ⟨_, rfl, rfl, rfl, Nat.one_pos⟩
  | fulfilled t => exact absurd rfl (hnode t)
  | thenImpl src cb ih =>
      by_cases hsrc : ∃ t, src = .fulfilled t
      · rcases hsrc with ⟨t, rfl⟩
        rcases continuation_spec cb t with ⟨hresult, hcalls, hsize⟩
        refine ⟨_, rfl, hresult, hcalls, ?_⟩
        simp only [Node.size]
        omega
      · rw [not_exists] at hsrc
        rcases ih hsrc with ⟨next, hstep, hresult, hcalls, hsize⟩
        refine ⟨(.thenImpl next.1 cb, next.2), by rw [Node.step_thenImpl cb hsrc, hstep]; rfl,
          ?_, ?_, ?_⟩
        · simp only [Node.result, hresult]
        · simp only [Node.calls, hresult, ← hcalls, List.append_assoc]
        · simp only [Node.size]
          omega
  | forward src ih =>
      by_cases hsrc : ∃ t, src = .fulfilled t
      · rcases hsrc with ⟨t, rfl⟩
        exact ⟨_, rfl, rfl, rfl, Nat.one_pos⟩
      · rw [not_exists] at hsrc
        rcases ih hsrc with ⟨next, hstep, hresult, hcalls, hsize⟩
        refine ⟨(.forward next.1, next.2), by rw [Node.step_forward hsrc, hstep]; rfl,
          hresult, hcalls, ?_⟩
        simp only [Node.size]
        omega

/-- A step changes neither the result that the chain will have nor the calls that will
have been made, and brings it nearer to its end. -/
theorem step_conserves {s s' : State ε γ} {l : Label} (hstep : step emptyTry s l = some s') :
    s'.result emptyTry = s.result emptyTry ∧ s'.allCalls emptyTry = s.allCalls emptyTry ∧
      s'.size < s.size := by
  rcases s with ⟨fut, rest, calls⟩
  cases l with
  | thenValue =>
      cases rest with
      | nil => cases hstep
      | cons cb rest =>
          cases hstep
          refine ⟨?_, ?_, ?_⟩
          · simp only [State.result, Chain.result, thenValue_result]
          · simp only [State.allCalls, Chain.calls, thenValue_result, List.append_assoc]
            rw [← List.append_assoc (thenValue fut cb).2, thenValue_calls, List.append_assoc]
          · have hlt := thenValue_size fut cb
            simp only [State.size, Chain.size]
            omega
  | state =>
      cases fut with
      | localState r => simp [step] at hstep
      | sharedState node =>
          by_cases hnode : ∃ t, node = .fulfilled t
          · rcases hnode with ⟨t, rfl⟩
            simp [step, Node.step] at hstep
          · rw [not_exists] at hnode
            rcases node.step_spec emptyTry hnode with
              ⟨next, hnext, hresult, hcalls, hsize⟩
            simp only [step, hnext, Option.map_some, Option.some.injEq] at hstep
            subst hstep
            refine ⟨?_, ?_, ?_⟩
            · simp only [State.result, Fut.result, hresult]
            · simp only [State.allCalls, Fut.calls, Fut.result, hresult, ← hcalls,
                List.append_assoc]
            · simp only [State.size, Fut.size]
              omega

variable (emptyTry) in
/-- A state without an outcome can move. -/
theorem exists_step {s : State ε γ} (hs : s.outcome = none) :
    ∃ l s', step emptyTry s l = some s' := by
  rcases s with ⟨fut, rest, calls⟩
  cases rest with
  | cons cb rest => exact ⟨.thenValue, _, rfl⟩
  | nil =>
      cases fut with
      | localState r => cases hs
      | sharedState node =>
          have hnode : ∀ t, node ≠ .fulfilled t := by
            rintro t rfl
            cases hs
          rcases node.step_spec emptyTry hnode with ⟨next, hnext, -⟩
          exact ⟨.state, _, by simp only [step, hnext]; rfl⟩

variable (emptyTry) in
/-- At the end the result and the calls are there. -/
theorem outcome_spec {s : State ε γ} {t : Try ε γ} (hs : s.outcome = some t) :
    s.result emptyTry = t ∧ s.allCalls emptyTry = s.calls := by
  rcases s with ⟨fut, rest, calls⟩
  cases rest with
  | cons cb rest => simp [State.outcome] at hs
  | nil =>
      cases fut with
      | localState r =>
          cases hs
          exact ⟨rfl, List.append_nil calls⟩
      | sharedState node =>
          cases node with
          | fulfilled t =>
              cases hs
              exact ⟨rfl, List.append_nil calls⟩
          | _ => cases hs

variable (emptyTry) in
/-- Every run comes to the same end. -/
theorem ends (start : State ε γ) :
    Ends emptyTry start (start.result emptyTry) (start.allCalls emptyTry) := by
  intro ls s hrun
  have hkept : s.result emptyTry = start.result emptyTry ∧
      s.allCalls emptyTry = start.allCalls emptyTry := by
    refine (machine emptyTry).run_invariant (P := fun s => s.result emptyTry =
      start.result emptyTry ∧ s.allCalls emptyTry = start.allCalls emptyTry) ?_ ⟨rfl, rfl⟩ hrun
    intro s l s' hs hstep
    rcases step_conserves hstep with ⟨hresult, hcalls, -⟩
    exact ⟨hresult.trans hs.1, hcalls.trans hs.2⟩
  refine ⟨?_, ?_, ?_⟩
  · rw [← hkept.2]
    exact List.prefix_append _ _
  · intro t ht
    rcases outcome_spec emptyTry ht with ⟨hresult, hcalls⟩
    exact ⟨hresult.symm.trans hkept.1, hcalls.symm.trans hkept.2⟩
  · have hprogress : ∀ u : State ε γ, u.result emptyTry = start.result emptyTry →
        ¬ u.outcome = some (start.result emptyTry) →
        ∃ l u', True ∧ (machine emptyTry).step u l = some u' ∧
          u'.result emptyTry = start.result emptyTry ∧ u'.size < u.size := by
      intro u hu hgoal
      have hnone : u.outcome = none := by
        cases hout : u.outcome with
        | none => rfl
        | some t =>
            rw [← hu, (outcome_spec emptyTry hout).1] at hgoal
            exact absurd hout hgoal
      rcases exists_step emptyTry hnone with ⟨l, u', hstep⟩
      rcases step_conserves hstep with ⟨hresult, -, hsize⟩
      exact ⟨l, u', trivial, hstep, hresult.trans hu, hsize⟩
    rcases (machine emptyTry).exists_run_of_measure (fun _ => True) State.size hprogress
      hkept.1 with ⟨ks, t, -, hks, -, hgoal⟩
    exact ⟨ks, t, hks, hgoal⟩

/-! ## The laws -/

/-- The exception of {lit}`checkHasTry` in the place of nothing. -/
def checkHasTry (emptyTry : ε) : Try ε α → Try ε α
  | .nothing => .error emptyTry
  | .value x => .value x
  | .error e => .error e

theorem bindTry_value (t : Try ε α) : bindTry emptyTry t .value = checkHasTry emptyTry t := by
  cases t <;> rfl

theorem callsAfter_nil (t : Try ε α) : callsAfter t (fun _ => []) = [] := by
  cases t <;> rfl

theorem bindTry_assoc (t : Try ε α) (f : α → Try ε β) (g : β → Try ε γ) :
    bindTry emptyTry (bindTry emptyTry t f) g =
      bindTry emptyTry t fun x => bindTry emptyTry (f x) g := by
  cases t <;> rfl

theorem callsAfter_assoc (t : Try ε α) (f : α → Try ε β) (calls : α → List Nat)
    (next : β → List Nat) :
    callsAfter t calls ++ callsAfter (bindTry emptyTry t f) next =
      callsAfter t fun x => calls x ++ callsAfter (f x) next := by
  cases t <;> rfl

/-- A program that makes no call ends with the future that it has. -/
theorem ends_nil (fut : Fut ε α) :
    Ends emptyTry (.start fut .nil) (fut.result emptyTry) (fut.calls emptyTry) := by
  have hends := ends emptyTry (State.start fut .nil)
  have hcalls : (State.start fut .nil).allCalls emptyTry = fut.calls emptyTry :=
    List.append_nil _
  rwa [hcalls] at hends

/-- Two calls, one after the other. -/
theorem ends_two (fut : Fut ε α) (f : Callback ε true α β) (g : Callback ε b β γ) :
    Ends emptyTry (.start fut (.cons f (.cons g .nil)))
      (bindTry emptyTry (fut.result emptyTry) fun x =>
        bindTry emptyTry (f.result emptyTry x) (g.result emptyTry))
      (fut.calls emptyTry ++ callsAfter (fut.result emptyTry) fun x =>
        f.calls emptyTry x ++ callsAfter (f.result emptyTry x) (g.calls emptyTry)) := by
  have hends := ends emptyTry (State.start fut (.cons f (.cons g .nil)))
  simp only [State.result, State.allCalls, State.start, Chain.result, Chain.calls, List.nil_append,
    List.append_nil, bindTry_assoc, callsAfter_assoc] at hends
  exact hends

/-- The monad laws of {lit}`thenValue`, whatever the order in which promises are fulfilled,
continuations are invoked and the calls of {lit}`thenValue` are made.  A ready future with
{lit}`v` gives what {lit}`f(v)` gives; {lit}`makeReadyFuture` as a callback changes nothing
but the {lit}`Try` that holds nothing, for which {lit}`checkHasTry` throws; two calls one
after the other come to the same end as one call with both callbacks.  {lit}`f` and
{lit}`g`, named 0 and 1, are called at most once each, and {lit}`g` is called if and only if
the future of {lit}`f` has a value. -/
theorem thenValue_laws (emptyTry : ε) :
    (∀ (v : α) (f : α → Reply ε β),
      Ends emptyTry (.start (.localState (.ok v)) (.cons (.user 0 f) .nil)) (f v).result [0]) ∧
    (∀ fut : Fut ε α, ∃ t calls, Ends emptyTry (.start fut .nil) t calls ∧
      Ends emptyTry (.start fut (.cons .makeReadyFuture .nil)) (checkHasTry emptyTry t) calls) ∧
    (∀ (fut : Fut ε α) (f : Callback ε true α β) (g : Callback ε b β γ), ∃ t calls,
      Ends emptyTry (.start fut (.cons f (.cons g .nil))) t calls ∧
      Ends emptyTry (.start fut (.cons (.andThen f g) .nil)) t calls) ∧
    ∀ (fut : Fut ε α) (f : α → Reply ε β) (g : β → Reply ε γ), ∃ t before result calls,
      Ends emptyTry (.start fut .nil) t before ∧
      Ends emptyTry (.start fut (.cons (.user 0 f) (.cons (.user 1 g) .nil))) result
        (before ++ calls) ∧
      calls.count 0 ≤ 1 ∧ calls.count 1 ≤ 1 ∧
      (1 ∈ calls ↔ ∃ x y, t = .value x ∧ (f x).result = .value y) := by
  refine ⟨?_, ?_, ?_, ?_⟩
  · intro v f
    exact ends emptyTry (State.start (.localState (.ok v)) (.cons (.user 0 f) .nil))
  · intro fut
    refine ⟨_, _, ends_nil fut, ?_⟩
    have hends := ends emptyTry (State.start fut (.cons .makeReadyFuture .nil))
    simp only [State.result, State.allCalls, State.start, Chain.result, Chain.calls,
      Callback.result, Callback.calls, bindTry_value, callsAfter_nil, List.append_nil,
      List.nil_append] at hends
    exact hends
  · intro fut f g
    refine ⟨_, _, ends_two fut f g, ?_⟩
    have hends := ends emptyTry (State.start fut (.cons (.andThen f g) .nil))
    simp only [State.result, State.allCalls, State.start, Chain.result, Chain.calls,
      Callback.result, Callback.calls, List.append_nil, List.nil_append] at hends
    exact hends
  · intro fut f g
    refine ⟨_, _, _, _, ends_nil fut, ends_two fut (.user 0 f) (.user 1 g), ?_⟩
    cases hfut : fut.result emptyTry with
    | nothing | error e => simp [callsAfter]
    | value x => cases hreply : (f x).result <;> simp [callsAfter, Callback.calls,
        Callback.result, hreply]

/-- A promise that is given an empty {lit}`Try`. -/
def emptyPromise : Fut Nat Nat :=
  .sharedState (.promise .nothing)

/-- The future has this result itself, but not after {lit}`makeReadyFuture`. -/
theorem makeReadyFuture_emptyPromise :
    Ends 0 (.start emptyPromise .nil) .nothing [] ∧
      ¬ ∃ calls, Ends 0 (.start emptyPromise (.cons .makeReadyFuture .nil)) .nothing calls := by
  refine ⟨ends_nil emptyPromise, ?_⟩
  rintro ⟨calls, hends⟩
  rcases (hends [] _ rfl).2.2 with ⟨ks, s, hrun, hs⟩
  have herror := ((ends 0 (State.start emptyPromise (.cons .makeReadyFuture .nil))) ks s hrun).2.1
    .nothing hs
  cases herror.1

end Chaining

end AsyncSimple
