import AsyncSimple.Future.HandOff

/-!
# The promises of one shared state

Copies of a {lit}`Promise` may be used and destroyed in different threads.  The
destructor decides in {lit}`detachPromise` whether the promise is broken: it
decrements {lit}`_promiseRef`, loads {lit}`_state` and perhaps calls
{lit}`setResult`, each a step of its own.  This module follows the promise
objects of one shared state through their special member functions, together
with one call of {lit}`setValue` or {lit}`setException`, one continuation and
the references of futures and guards.

An object is used by one thread at a time, and a promise that is copied is not
changed meanwhile, so that a copy is one step: its source keeps the shared state
alive between the two increments.
-/

namespace AsyncSimple

open Transition

namespace PromiseCopies

variable {π ε α K : Type}

/-- {lit}`_sharedState`: null, the shared state in question, or another one. -/
inductive Pointer where
  | null
  | here
  | elsewhere
deriving DecidableEq, Repr

/-- Where a call of {lit}`detachPromise` comes from. -/
inductive Next (π : Type) where
  | destroyed
  | assign (source : π)
deriving DecidableEq, Repr

/-- A promise object and the call it is in. -/
inductive Object (π : Type) where
  | absent
  | idle (pointer : Pointer)
  /-- inside {lit}`setValue` -/
  | setting
  /-- {lit}`detachPromise` before {lit}`hasResult()` -/
  | checking (old : Nat) (next : Next π)
  /-- {lit}`detachPromise` inside {lit}`setResult` -/
  | breaking (next : Next π)
  /-- {lit}`detachPromise` before {lit}`detachOne` -/
  | leaving (next : Next π)
  /-- {lit}`operator=` behind the explicit call of the destructor -/
  | assigning (source : π)
deriving DecidableEq, Repr

/-- The pointer of a promise that may be read by another thread. -/
def Object.source : Object π → Option Pointer
  | .idle pointer => some pointer
  | .setting => some .here
  | _ => none

/-- The object behind the destructor call. -/
def Next.object : Next π → Object π
  | .destroyed => .absent
  | .assign source => .assigning source

/-- The shared state with its promise objects.  The setter {lit}`none` is the
call of {lit}`setValue`, the setter {lit}`some p` the one that reports the
broken promise in the destructor of {lit}`p`.  {lit}`others` are the references
of futures and guards; {lit}`fault` records the use of a null pointer or of the
deleted state, a failed assertion and an exception that leaves a destructor. -/
structure System (π ε α K : Type) where
  base : FutureState.System (Option π) ε α K
  object : π → Object π
  promiseRef : Nat
  attached : Nat
  others : Nat
  deleted : Bool
  calledBy : Option π
  fault : Bool

/-- The moves of the promise objects, of the other references, of the
continuation and of the executor. -/
inductive Label (π : Type) where
  | newPromise (p : π)
  | copy (p q : π)
  | assign (p q : π)
  | copyPointer (p : π)
  | move (p q : π)
  | moveAssign (p q : π)
  | destroy (p : π)
  /-- the next step of {lit}`detachPromise` -/
  | detach (p : π) (answer : FutureState.Answer)
  | setValue (p : π)
  | setValueStep (p : π) (answer : FutureState.Answer)
  | attachOther
  | detachOther
  | setContinuation (answer : FutureState.Answer)
  | runTask
deriving DecidableEq, Repr

/-- Neither {lit}`setContinuation` nor a submitted task is under way. -/
def System.unused (s : System π ε α K) : Bool :=
  (decide (s.base.attacher = .check) || decide (s.base.attacher = .returned)) &&
    decide (s.base.shared.pending = 0)

section

variable [DecidableEq π]

/-- A new promise with a new shared state. -/
def System.initial (fs : FutureState ε α K) (p₀ : π) : System π ε α K where
  base := FutureState.System.initial fs
  object := fun p => if p = p₀ then .idle .here else .absent
  promiseRef := 1
  attached := 1
  others := 0
  deleted := false
  calledBy := none
  fault := false

namespace System

def setObject (s : System π ε α K) (p : π) (object : Object π) : System π ε α K :=
  { s with object := Function.update s.object p object }

/-- Use the shared state. -/
def access (s : System π ε α K) (next : Option (System π ε α K)) : Option (System π ε α K) :=
  if s.deleted then some { s with fault := true } else next

/-- {lit}`detachOne`. -/
def detachOne (s : System π ε α K) : System π ε α K :=
  if s.attached = 0 then
    { s with fault := true }
  else
    { s with attached := s.attached - 1, deleted := decide (s.attached = 1) }

/-- The pointer of a promise is copied into {lit}`p` and attached; there is no
test for the null pointer. -/
def attachCopy (s : System π ε α K) (p : π) : Pointer → Option (System π ε α K)
  | .null => some { s with fault := true }
  | .elsewhere => some (s.setObject p (.idle .elsewhere))
  | .here => s.access (some { s.setObject p (.idle .here) with
      promiseRef := (s.promiseRef + 1) % 2 ^ 64
      attached := (s.attached + 1) % 2 ^ 8 })

/-- {lit}`~Promise`, with the first step of {lit}`detachPromise`. -/
def destroy (s : System π ε α K) (p : π) (next : Next π) : Pointer → Option (System π ε α K)
  | .here => s.access (some (
      if s.promiseRef = 0 then { s with fault := true }
      else { s.setObject p (.checking s.promiseRef next) with promiseRef := s.promiseRef - 1 }))
  | _ => some (s.setObject p next.object)

end System

/-- A step on the shared state; a task that the executor accepts owns a guard. -/
def baseStep (value : Option π → Try ε α) (func : K) (s : System π ε α K)
    (l : FutureState.Label (Option π)) : Option (System π ε α K) :=
  (FutureState.step value func s.base l).bind fun base =>
    s.access (some { s with
      base := base
      others := s.others + (base.shared.pending - s.base.shared.pending)
      attached := (s.attached + (base.shared.pending - s.base.shared.pending)) % 2 ^ 8 })

/-- The steps of {lit}`detachPromise` behind the first one. -/
def detachStep (value : Option π → Try ε α) (func : K) (s : System π ε α K) (p : π)
    (answer : FutureState.Answer) : Option (System π ε α K) :=
  match s.object p with
  | .checking old next =>
      s.access (some (s.setObject p
        (if !s.base.shared.fs.state.hasResult && old = 1 then .breaking next else .leaving next)))
  | .breaking next =>
      match s.base.setter (some p) with
      | .returned => some (s.setObject p (.leaving next))
      -- no exception may leave the destructor
      | .threw _ => some { s with fault := true }
      | _ => baseStep value func s (.setResult (some p) answer)
  | .leaving next => s.access (some (s.setObject p next.object).detachOne)
  | _ => none

/-- One step; {lit}`none` when the object is not there or busy. -/
def step (value : Option π → Try ε α) (func : K) (s : System π ε α K) :
    Label π → Option (System π ε α K)
  | .newPromise p => if s.object p = .absent then some (s.setObject p (.idle .elsewhere)) else none
  | .copy p q =>
      match s.object p, (s.object q).source with
      | .absent, some pointer => s.attachCopy p pointer
      | _, _ => none
  | .assign p q =>
      match s.object p, (s.object q).source with
      | .idle pointer, some _ => if p = q then some s else s.destroy p (.assign q) pointer
      | _, _ => none
  | .copyPointer p =>
      match s.object p with
      | .assigning q => (s.object q).source.bind (s.attachCopy p)
      | _ => none
  | .move p q =>
      match s.object p, s.object q with
      | .absent, .idle pointer =>
          some ((s.setObject p (.idle pointer)).setObject q (.idle .null))
      | _, _ => none
  | .moveAssign p q =>
      match s.object p, s.object q with
      | .idle pointer, .idle pointer' =>
          some ((s.setObject p (.idle pointer')).setObject q (.idle pointer))
      | _, _ => none
  | .destroy p =>
      match s.object p with
      | .idle pointer => s.destroy p .destroyed pointer
      | _ => none
  | .detach p answer => detachStep value func s p answer
  | .setValue p =>
      if s.object p = .idle .here ∧ s.calledBy = none then
        some { s.setObject p .setting with calledBy := some p }
      else
        none
  | .setValueStep p answer =>
      if s.object p = .setting then
        match s.base.setter none with
        | .returned | .threw _ => some (s.setObject p (.idle .here))
        | _ => baseStep value func s (.setResult none answer)
      else
        none
  | .attachOther =>
      -- through a promise, a future or a guard
      if 0 < s.promiseRef ∨ 0 < s.others then
        s.access (some { s with others := s.others + 1, attached := (s.attached + 1) % 2 ^ 8 })
      else
        none
  | .detachOther =>
      -- whoever uses the shared state keeps a reference
      if 1 < s.others ∨ 0 < s.others ∧ s.unused = true then
        s.access (some { s.detachOne with others := s.others - 1 })
      else
        none
  | .setContinuation answer =>
      if s.base.attacher = .check → 0 < s.others then
        baseStep value func s (.setContinuation answer)
      else
        none
  | .runTask => baseStep value func s .runTask

/-- A program that runs into a fault does not go on. -/
def machine (value : Option π → Try ε α) (func : K) :
    Machine (System π ε α K) (Label π) where
  step s l := if s.fault then none else step value func s l

end

end PromiseCopies

end AsyncSimple
