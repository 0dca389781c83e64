import AsyncSimple.Library.Machine
import AsyncSimple.Library.LinkedList

/-!
# Generators

This module embeds {lit}`Generator`: the awaiters of {lit}`gen_promise_base`, the promise
and the iterator.  A body is a tree of statements.  Besides {lit}`co_yield` of a value, of
another generator and of a range it has the loop that iterates another generator and yields
its elements again, so that both ways of nesting run on the same machine.

A nested generator is entered by a symmetric transfer and left by one to its parent, while
{lit}`begin` and {lit}`++` of an iterator are calls of {lit}`resume()`.  The stack of the
machine holds the bodies that are inside such a call; below them is the consumer, which
reads the element at each stop and goes on to the next.

Main definitions:

- Definition {lit}`Body.flatten`: the elements of a body in order, and the exception that
  leaves it.
- Definition {lit}`Body.reYield`: the body with loops in the place of
  {lit}`co_yield elements_of`.
- Definition {lit}`step`: the generators, their iterators and the consumer.
-/

namespace AsyncSimple

open Transition

namespace Generator

/-! ## Bodies -/

/-- The statements of a generator's body. -/
inductive Body (ε ν : Type) where
  | skip
  | coYield (v : ν)
  /-- {lit}`co_yield elements_of(gen)` -/
  | elementsOf (gen : Body ε ν)
  /-- {lit}`co_yield elements_of(range)` -/
  | elementsOfRange (range : List ν)
  /-- {lit}`for (auto&& x : gen) co_yield x;` -/
  | forEach (gen : Body ε ν)
  | throw (e : ε)
  | seq (first second : Body ε ν)
  /-- no {lit}`co_yield` can be in a handler: {lit}`handler` is what follows once the
  exception has been caught -/
  | tryCatch (body : Body ε ν) (handler : ε → Body ε ν)

variable {ε ν : Type}

/-- The elements and the exception that ends them, if there is one. -/
abbrev Trace (ε ν : Type) :=
  List ν × Option ε

/-- Go on with what follows from the end of a trace. -/
def Trace.andThen (t : Trace ε ν) (next : Option ε → Trace ε ν) : Trace ε ν :=
  (t.1 ++ (next t.2).1, (next t.2).2)

/-- The elements of a body in order. -/
def Body.flatten : Body ε ν → Trace ε ν
  | .skip => ([], none)
  | .coYield v => ([v], none)
  | .elementsOf gen => gen.flatten
  | .elementsOfRange range => (range, none)
  | .forEach gen => gen.flatten
  | .throw e => ([], some e)
  | .seq first second => Trace.andThen first.flatten fun
      | none => second.flatten
      | some e => ([], some e)
  | .tryCatch body handler => Trace.andThen body.flatten fun
      | none => ([], none)
      | some e => (handler e).flatten

/-- The loop over a range, in the lambda of {lit}`yield_value`. -/
def yieldAll : List ν → Body ε ν
  | [] => .skip
  | v :: range => .seq (.coYield v) (yieldAll range)

/-- Loops in the place of {lit}`co_yield elements_of`. -/
def Body.reYield : Body ε ν → Body ε ν
  | .elementsOf gen => .forEach gen.reYield
  | .elementsOfRange range => yieldAll range
  | .forEach gen => .forEach gen.reYield
  | .seq first second => .seq first.reYield second.reYield
  | .tryCatch body handler => .tryCatch body.reYield fun e => (handler e).reYield
  | .skip => .skip
  | .coYield v => .coYield v
  | .throw e => .throw e

/-! ## Coroutine frames -/

/-- {lit}`std::coroutine_handle`. -/
abbrev Handle :=
  Nat

/-- {lit}`NestInfo`. -/
structure NestInfo (ε : Type) where
  except : Option ε
  parent : Handle
  root : Handle

/-- Where a coroutine is. -/
inductive Point (ε : Type) where
  /-- not started, running, or at a {lit}`co_yield` of a value -/
  | ready
  /-- at {lit}`co_yield elements_of(gen)`; the awaiter holds the {lit}`NestInfo` -/
  | nested (gen : Handle) (info : NestInfo ε)
  /-- in the loop over the generator {lit}`gen` -/
  | loop (gen : Handle)
  /-- at its final suspend point -/
  | done

def Point.isDone : Point ε → Bool
  | .done => true
  | _ => false

def Point.nestInfo : Point ε → Option (NestInfo ε)
  | .nested _ info => some info
  | _ => none

/-- What is left of a body: statements, and the ends of the {lit}`try` blocks around them. -/
inductive Item (ε ν : Type) where
  | stmt (body : Body ε ν)
  | endTry (handler : ε → Body ε ν)

inductive Control (ε : Type) where
  /-- the coroutine is resumed, by a call or by a transfer -/
  | resume (h : Handle)
  | running (h : Handle)
  /-- an exception is on its way in the body -/
  | raising (h : Handle) (e : ε)
  /-- the call of {lit}`resume()` returns, or throws -/
  | returning (result : Option ε)
  /-- the consumer has an element -/
  | suspended
  /-- the consumer has reached the end, or an exception -/
  | finished (result : Option ε)

/-- The members of the promises and the frames, the coroutines that are inside
{lit}`resume()` of another generator, and the consumer. -/
structure State (ε ν : Type) where
  /-- {lit}`value_` -/
  value : Handle → Option ν
  /-- {lit}`top_` -/
  top : Handle → Handle
  /-- {lit}`info_`: the coroutine whose awaiter holds the {lit}`NestInfo` -/
  info : Handle → Option Handle
  point : Handle → Point ε
  items : Handle → List (Item ε ν)
  next : Handle
  control : Control ε
  stack : List Handle
  /-- the generator that the consumer iterates -/
  it : Handle
  out : List ν

/-! ## Steps -/

section Steps

variable (s : State ε ν)

/-- A new coroutine, suspended at its start. -/
def create (body : Body ε ν) : State ε ν :=
  { s with
    value := Function.update s.value s.next none
    top := Function.update s.top s.next s.next
    info := Function.update s.info s.next none
    point := Function.update s.point s.next .ready
    items := Function.update s.items s.next [.stmt body]
    next := s.next + 1 }

/-- Leave the statement behind and go on with these. -/
def goOn (h : Handle) (items : List (Item ε ν)) (control : Control ε) : State ε ν :=
  { s with
    items := Function.update s.items h items
    point := Function.update s.point h .ready
    control := control }

/-- The root of the generator that is about to enter another one. -/
def rootOf (h : Handle) : Option Handle :=
  match s.info h with
  | none => some h
  | some parent => (s.point parent).nestInfo.map NestInfo.root

/-- {lit}`NestedAwaiter::await_suspend`, with the nested generator {lit}`target`. -/
def nestedAwaitSuspend (h target : Handle) : Option (State ε ν) :=
  (rootOf s h).map fun root =>
    { s with
      point := Function.update s.point h (.nested target ⟨none, h, root⟩)
      top := Function.update s.top root target
      info := Function.update s.info target (some h)
      control := .resume target }

/-- {lit}`FinalAwaiter::await_suspend`. -/
def finalSuspend (h : Handle) : Option (State ε ν) :=
  match s.info h with
  | none => some { s with point := Function.update s.point h .done, control := .returning none }
  | some i => (s.point i).nestInfo.map fun info =>
      { s with
        point := Function.update s.point h .done
        top := Function.update s.top info.root info.parent
        info := Function.update s.info h none
        control := .resume info.parent }

/-- {lit}`unhandled_exception`, and what follows it. -/
def unhandledException (h : Handle) (e : ε) : Option (State ε ν) :=
  match s.info h with
  -- the coroutine counts as finished when the exception leaves it
  | none => some { s with
      point := Function.update s.point h .done
      control := .returning (some e) }
  | some i =>
      match s.point i with
      | .nested gen info =>
          finalSuspend { s with
            point := Function.update s.point i (.nested gen { info with except := some e }) } h
      | _ => none

/-- {lit}`begin()` in a loop. -/
def beginLoop (h gen : Handle) : State ε ν :=
  { s with
    point := Function.update s.point h (.loop gen)
    stack := h :: s.stack
    control := .resume gen }

/-- The next statement of a body. -/
def exec (h : Handle) (rest : List (Item ε ν)) : Body ε ν → Option (State ε ν)
  | .skip => some (goOn s h rest (.running h))
  | .coYield v => some { goOn s h rest (.returning none) with
      value := Function.update s.value h (some v) }
  | .elementsOf gen => nestedAwaitSuspend (create (goOn s h rest (.running h)) gen) h s.next
  | .elementsOfRange range =>
      nestedAwaitSuspend (create (goOn s h rest (.running h)) (yieldAll range)) h s.next
  | .forEach gen => some (beginLoop (create (goOn s h rest (.running h)) gen) h s.next)
  | .throw e => some (goOn s h rest (.raising h e))
  | .seq first second => some (goOn s h (.stmt first :: .stmt second :: rest) (.running h))
  | .tryCatch body handler => some (goOn s h (.stmt body :: .endTry handler :: rest) (.running h))

/-- {lit}`resume()` has come back to a loop over {lit}`gen`: the loop is left by an
exception or at the end, or yields the element. -/
def loopStep (h : Handle) (stack : List Handle) (gen : Handle) :
    Option ε → Option (State ε ν)
  | some e => some { goOn s h (s.items h) (.raising h e) with stack := stack }
  | none =>
      if (s.point gen).isDone then
        some { goOn s h (s.items h) (.running h) with stack := stack }
      else
        (s.value (s.top gen)).map fun v =>
          { s with value := Function.update s.value h (some v), stack := stack }

/-- The consumer: {lit}`begin()` or {lit}`++` has come back. -/
def consume : Option ε → State ε ν
  | some e => { s with control := .finished (some e) }
  | none =>
      if (s.point s.it).isDone then { s with control := .finished none }
      else { s with control := .suspended }

def step : Option (State ε ν) :=
  match s.control with
  | .resume h =>
      match s.point h with
      | .ready => some { s with control := .running h }
      -- `NestedAwaiter::await_resume`
      | .nested _ info =>
          match info.except with
          | none => some (goOn s h (s.items h) (.running h))
          | some e => some (goOn s h (s.items h) (.raising h e))
      -- `operator++` of the loop's iterator
      | .loop gen => some { s with stack := h :: s.stack, control := .resume (s.top gen) }
      | .done => none
  | .running h =>
      match s.items h with
      | [] => finalSuspend s h
      | .stmt body :: rest => exec s h rest body
      | .endTry _ :: rest => some (goOn s h rest (.running h))
  | .raising h e =>
      match s.items h with
      | [] => unhandledException s h e
      | .stmt _ :: rest => some (goOn s h rest (.raising h e))
      | .endTry handler :: rest => some (goOn s h (.stmt (handler e) :: rest) (.running h))
  | .returning result =>
      match s.stack with
      | [] => some (consume s result)
      | h :: stack =>
          match s.point h with
          | .loop gen => loopStep s h stack gen result
          | _ => none
  -- `operator*` and `operator++` of the consumer's iterator
  | .suspended => (s.value (s.top s.it)).map fun v =>
      { s with out := s.out ++ [v], control := .resume (s.top s.it) }
  | .finished _ => none

end Steps

def machine : Machine (State ε ν) Unit where
  step s _ := step s

/-- The consumer calls {lit}`begin()` on a generator. -/
def start (body : Body ε ν) : State ε ν where
  value := fun _ => none
  top := id
  info := fun _ => none
  point := fun _ => .ready
  items := Function.update (fun _ => []) 0 [.stmt body]
  next := 1
  control := .resume 0
  stack := []
  it := 0
  out := []

/-- However far the consumer has come, it has read a part of these elements; it can always
come to the end, and there it has read them all and meets this exception or none. -/
def Iterates (body : Body ε ν) (values : List ν) (ending : Option ε) : Prop :=
  ∀ ls s, machine.run (start body) ls = some s →
    s.out <+: values ∧
    (∀ result, s.control = .finished result → s.out = values ∧ result = ending) ∧
    ∃ ks s', machine.run s ks = some s' ∧ s'.control = .finished ending

/-! ## Active generators -/

/-- The generator that a suspended one waits for. -/
def State.awaited (s : State ε ν) (h : Handle) : Option Handle :=
  match s.point h with
  | .nested gen _ => some gen
  | _ => none

/-- {lit}`info_->parent_`. -/
def State.parent (s : State ε ν) (h : Handle) : Option Handle :=
  (s.info h).bind fun i => (s.point i).nestInfo.map NestInfo.parent

/-- The active generators are those that the root waits for, directly or through others;
{lit}`top_` of the root is the innermost one and {lit}`parent_` leads from it back to the
root through all of them. -/
def State.TopIsInnermost (s : State ε ν) : Prop :=
  ∃ active, PointerList.Chain s.awaited (some s.it) active ∧
    active.getLast? = some (s.top s.it) ∧
    PointerList.Chain s.parent (some (s.top s.it)) active.reverse

end Generator

end AsyncSimple
