import AsyncSimple.Future.SharedState

/-!
# The handles of shared states

{lit}`Promise`, {lit}`Future` and {lit}`ContinuationReference` objects hold
counted references to a {lit}`FutureState`.  This module embeds their special
member functions and the counters behind them: {lit}`_attached` and
{lit}`_continuationRef` are eight bits wide, {lit}`_promiseRef` is a
{lit}`size_t`.  Any number of objects and of shared states may exist at once.

{lit}`detachPromise` and {lit}`operator=` can run a continuation before they
return, and a continuation may work on other handles.  They are therefore cut
where {lit}`scheduleContinuation` is called and before {lit}`detachOne`, and
everything else may happen in between.
-/

namespace AsyncSimple

open Transition

namespace Handles

/-- What must never happen. -/
inductive Fault where
  | nullDereference
  | deletedDereference
  /-- {lit}`assert(old >= 1)` -/
  | assertion
deriving DecidableEq, Repr

/-- The counters of a {lit}`FutureState`, its {lit}`_state`, how often it was
deleted, and what became of the stored continuation. -/
structure Counters where
  attached : Nat
  continuationRef : Nat
  promiseRef : Nat
  state : FutureState.State
  deleted : Nat
  /-- {lit}`scheduleContinuation` was entered -/
  scheduled : Bool
  ran : Nat
  /-- calls of {lit}`_continuation.~Continuation()` -/
  destroyed : Nat
deriving DecidableEq, Repr

namespace Counters

/-- The constructor of {lit}`FutureState`. -/
def create : Counters where
  attached := 0
  continuationRef := 0
  promiseRef := 0
  state := .start
  deleted := 0
  scheduled := false
  ran := 0
  destroyed := 0

/-- {lit}`attachOne`. -/
def attachOne (c : Counters) : Counters :=
  { c with attached := (c.attached + 1) % 2 ^ 8 }

/-- {lit}`detachOne`. -/
def detachOne (c : Counters) : Except Fault Counters :=
  if c.attached = 0 then
    .error .assertion
  else
    .ok { c with
      attached := c.attached - 1
      deleted := if c.attached = 1 then c.deleted + 1 else c.deleted }

/-- {lit}`attachPromise`. -/
def attachPromise (c : Counters) : Counters :=
  attachOne { c with promiseRef := (c.promiseRef + 1) % 2 ^ 64 }

/-- {lit}`detachPromise` up to the call of {lit}`detachOne`, without the
continuation that the broken promise may have to run. -/
def detachPromise (c : Counters) : Except Fault Counters :=
  if c.promiseRef = 0 then
    .error .assertion
  else
    .ok { c with
      promiseRef := c.promiseRef - 1
      state :=
        if !c.state.hasResult && c.promiseRef = 1 then
          if c.state = .start then .onlyResult else .done
        else
          c.state }

/-- {lit}`ContinuationReference::attach`. -/
def attachGuard (c : Counters) : Counters :=
  let c := c.attachOne
  { c with continuationRef := (c.continuationRef + 1) % 2 ^ 8 }

/-- {lit}`derefContinuation`. -/
def derefContinuation (c : Counters) : Except Fault Counters :=
  if c.continuationRef = 0 then
    .error .assertion
  else
    .ok { c with
      continuationRef := c.continuationRef - 1
      destroyed := if c.continuationRef = 1 then c.destroyed + 1 else c.destroyed }

/-- {lit}`ContinuationReference::detach`. -/
def detachGuard (c : Counters) : Except Fault Counters :=
  c.derefContinuation.bind detachOne

/-- {lit}`setResult` up to {lit}`scheduleContinuation`; the call throws when
there is a result already. -/
def setResult (c : Counters) : Counters :=
  if c.state.hasResult then c
  else { c with state := if c.state = .start then .onlyResult else .done }

/-- {lit}`setContinuation` up to {lit}`scheduleContinuation`; the call throws
when there is a continuation already. -/
def setContinuation (c : Counters) : Counters :=
  if c.state.hasContinuation then c
  else { c with state := if c.state = .start then .onlyContinuation else .done }

/-- A call that brings the state to {lit}`DONE` schedules the continuation. -/
def becomesDone (c c' : Counters) : Bool :=
  decide (c.state ≠ .done) && decide (c'.state = .done)

/-- The guards that {lit}`scheduleContinuation` constructs: one to run the
continuation in place, two to submit it. -/
def schedule (c : Counters) (submits : Bool) : Counters :=
  let c := { c with scheduled := true }
  if submits then c.attachGuard.attachGuard else c.attachGuard

end Counters

variable {η : Type}

/-- Where a call of {lit}`detachPromise` comes from: the destructor or
{lit}`operator=`. -/
inductive Next (η : Type) where
  | destroyed
  | assign (source : η)
deriving DecidableEq, Repr

/-- An object and the call it is in.  {lit}`none` stands for the null pointer of
a moved-from object. -/
inductive Object (η : Type) where
  | promise (fs : Option Nat) (hasFuture : Bool)
  | future (fs : Option Nat)
  /-- a {lit}`ContinuationReference` -/
  | guard (fs : Option Nat)
  /-- {lit}`setResult` before {lit}`scheduleContinuation` -/
  | setting (fs : Nat) (hasFuture : Bool)
  /-- {lit}`setContinuation` before {lit}`scheduleContinuation` -/
  | attaching (fs : Nat)
  /-- the broken promise before {lit}`scheduleContinuation` -/
  | breaking (fs : Nat) (next : Next η)
  /-- {lit}`detachPromise` before {lit}`detachOne` -/
  | leaving (fs : Nat) (next : Next η)
  /-- {lit}`operator=` behind the explicit call of the destructor -/
  | assigning (source : η)
deriving DecidableEq, Repr

/-- All objects and shared states; {lit}`created` is the next address. -/
structure System (η : Type) where
  object : η → Option (Object η)
  shared : Nat → Counters
  created : Nat
  fault : Option Fault

/-- Nothing exists yet. -/
def System.initial : System η where
  object := fun _ => none
  shared := fun _ => .create
  created := 0
  fault := none

/-- The operations.  A label names the objects it is about; the last ones go on
with a call that is under way. -/
inductive Label (η : Type) where
  | newPromise (p : η)
  | copyPromise (p q : η)
  | assignPromise (p q : η)
  | movePromise (p q : η)
  | moveAssignPromise (p q : η)
  | destroyPromise (p : η)
  | setResult (p : η)
  | getFuture (f p : η)
  | moveFuture (f g : η)
  | moveAssignFuture (f g : η)
  | destroyFuture (f : η)
  | setContinuation (f : η)
  | copyGuard (g h : η)
  | moveGuard (g h : η)
  | destroyGuard (g : η)
  | runContinuation (g : η)
  /-- {lit}`scheduleContinuation` constructs one guard -/
  | runInplace (o g : η)
  /-- {lit}`scheduleContinuation` constructs two guards -/
  | submit (o g h : η)
  | detachOne (p : η)
  | copyPointer (p : η)
deriving DecidableEq, Repr

section

variable [DecidableEq η]

namespace System

def setObject (s : System η) (o : η) (object : Option (Object η)) : System η :=
  { s with object := Function.update s.object o object }

def setShared (s : System η) (fs : Nat) (c : Counters) : System η :=
  { s with shared := Function.update s.shared fs c }

/-- Use a shared state through a pointer. -/
def access (s : System η) (fs : Nat) (f : Counters → Except Fault Counters)
    (next : Counters → System η → System η) : System η :=
  if 0 < (s.shared fs).deleted then
    { s with fault := some .deletedDereference }
  else
    match f (s.shared fs) with
    | .error fault => { s with fault := some fault }
    | .ok c => next c (s.setShared fs c)

/-- Copy the pointer of {lit}`q` into the promise {lit}`p` and attach it; there
is no test for the null pointer. -/
def attachCopy (s : System η) (p : η) (fs : Option Nat) (hasFuture : Bool) : System η :=
  match fs with
  | none => { s with fault := some .nullDereference }
  | some fs => s.access fs (fun c => .ok c.attachPromise) fun _ s =>
      s.setObject p (some (.promise (some fs) hasFuture))

/-- {lit}`~Promise`. -/
def destroyPromise (s : System η) (p : η) (fs : Option Nat) (next : Next η) : System η :=
  match fs with
  | none => s.setObject p (match next with
      | .destroyed => none
      | .assign source => some (.assigning source))
  | some fs => s.access fs Counters.detachPromise fun c s' =>
      s'.setObject p (some (if (s.shared fs).becomesDone c then .breaking fs next
        else .leaving fs next))

end System

/-- The pointer of a promise that may be read. -/
def Object.source : Object η → Option (Option Nat × Bool)
  | .promise fs hasFuture => some (fs, hasFuture)
  | .setting fs hasFuture => some (some fs, hasFuture)
  | _ => none

/-- Where an object goes on behind {lit}`scheduleContinuation`, and its shared
state. -/
def Object.scheduled : Object η → Option (Nat × Object η)
  | .setting fs hasFuture => some (fs, .promise (some fs) hasFuture)
  | .attaching fs => some (fs, .future (some fs))
  | .breaking fs next => some (fs, .leaving fs next)
  | _ => none

/-- One operation; {lit}`none` when its objects are not there or busy. -/
def exec (s : System η) : Label η → Option (System η)
  | .newPromise p =>
      match s.object p with
      | none => some { (s.setObject p (some (.promise (some s.created) false))).setShared s.created
            Counters.create.attachPromise with created := s.created + 1 }
      | some _ => none
  | .copyPromise p q =>
      match s.object p, (s.object q).bind Object.source with
      | none, some (fs, hasFuture) => some (s.attachCopy p fs hasFuture)
      | _, _ => none
  | .assignPromise p q =>
      match s.object p, (s.object q).bind Object.source with
      | some (.promise fs _), some _ =>
          some (if p = q then s else s.destroyPromise p fs (.assign q))
      | _, _ => none
  | .movePromise p q =>
      match s.object p, s.object q with
      | none, some (.promise fs hasFuture) =>
          some ((s.setObject p (some (.promise fs hasFuture))).setObject q
            (some (.promise none false)))
      | _, _ => none
  | .moveAssignPromise p q =>
      match s.object p, s.object q with
      | some (.promise fs hasFuture), some (.promise fs' hasFuture') =>
          some ((s.setObject p (some (.promise fs' hasFuture'))).setObject q
            (some (.promise fs hasFuture)))
      | _, _ => none
  | .destroyPromise p =>
      match s.object p with
      | some (.promise fs _) => some (s.destroyPromise p fs .destroyed)
      | _ => none
  | .setResult p =>
      match s.object p with
      | some (.promise (some fs) hasFuture) =>
          some (s.access fs (fun c => .ok c.setResult) fun c s' =>
            if (s.shared fs).becomesDone c then s'.setObject p (some (.setting fs hasFuture))
            else s')
      -- the assertion "Promise is broken" throws
      | some (.promise none _) => some s
      | _ => none
  | .getFuture f p =>
      match s.object f, s.object p with
      | none, some (.promise (some fs) false) =>
          some (s.access fs (fun c => .ok c.attachOne) fun _ s =>
            (s.setObject p (some (.promise (some fs) true))).setObject f (some (.future (some fs))))
      -- without a state or with a future already the call throws
      | none, some (.promise _ _) => some s
      | _, _ => none
  | .moveFuture f g =>
      match s.object f, s.object g with
      | none, some (.future fs) =>
          some ((s.setObject f (some (.future fs))).setObject g (some (.future none)))
      | _, _ => none
  | .moveAssignFuture f g =>
      match s.object f, s.object g with
      | some (.future fs), some (.future fs') =>
          some ((s.setObject f (some (.future fs'))).setObject g (some (.future fs)))
      | _, _ => none
  | .destroyFuture f =>
      match s.object f with
      | some (.future none) => some (s.setObject f none)
      | some (.future (some fs)) =>
          some (s.access fs Counters.detachOne fun _ s => s.setObject f none)
      | _ => none
  | .setContinuation f =>
      match s.object f with
      | some (.future (some fs)) =>
          some (s.access fs (fun c => .ok c.setContinuation) fun c s' =>
            if (s.shared fs).becomesDone c then s'.setObject f (some (.attaching fs)) else s')
      -- the assertion "Future is broken" throws
      | some (.future none) => some s
      | _ => none
  | .copyGuard g h =>
      match s.object g, s.object h with
      | none, some (.guard none) => some (s.setObject g (some (.guard none)))
      | none, some (.guard (some fs)) =>
          some (s.access fs (fun c => .ok c.attachGuard) fun _ s =>
            s.setObject g (some (.guard (some fs))))
      | _, _ => none
  | .moveGuard g h =>
      match s.object g, s.object h with
      | none, some (.guard fs) =>
          some ((s.setObject g (some (.guard fs))).setObject h (some (.guard none)))
      | _, _ => none
  | .destroyGuard g =>
      match s.object g with
      | some (.guard none) => some (s.setObject g none)
      | some (.guard (some fs)) =>
          some (s.access fs Counters.detachGuard fun _ s => s.setObject g none)
      | _ => none
  | .runContinuation g =>
      match s.object g with
      | some (.guard (some fs)) => some (s.access fs (fun c =>
          if 0 < c.destroyed then .error .deletedDereference
          else .ok { c with ran := c.ran + 1 }) fun _ s => s)
      | _ => none
  | .runInplace o g =>
      match (s.object o).bind Object.scheduled, s.object g with
      | some (fs, object), none =>
          some (s.access fs (fun c => .ok (c.schedule false)) fun _ s =>
            (s.setObject o (some object)).setObject g (some (.guard (some fs))))
      | _, _ => none
  | .submit o g h =>
      match (s.object o).bind Object.scheduled, s.object g, s.object h with
      | some (fs, object), none, none =>
          if g = h then none
          else some (s.access fs (fun c => .ok (c.schedule true)) fun _ s =>
            ((s.setObject o (some object)).setObject g (some (.guard (some fs)))).setObject h
              (some (.guard (some fs))))
      | _, _, _ => none
  | .detachOne p =>
      match s.object p with
      | some (.leaving fs next) =>
          some (s.access fs Counters.detachOne fun _ s => s.setObject p (match next with
            | .destroyed => none
            | .assign source => some (.assigning source)))
      | _ => none
  | .copyPointer p =>
      match s.object p with
      | some (.assigning source) =>
          match (s.object source).bind Object.source with
          | some (fs, hasFuture) => some (s.attachCopy p fs hasFuture)
          | none => none
      | _ => none

/-- A program that runs into a fault does not go on. -/
def machine : Machine (System η) (Label η) where
  step s l := if s.fault = none then exec s l else none

end

end Handles

end AsyncSimple
