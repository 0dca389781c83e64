import AsyncSimple.Library.Machine

/-!
# Spin locks and condition variables under coroutines

{lit}`CountingSemaphore`, {lit}`Latch` and {lit}`SharedMutex` are monitors: a
value is protected by a {lit}`SpinLock`, and a coroutine that has to wait gives
the lock up through a {lit}`ConditionVariable` and takes it again when it is
resumed.  Each of their operations is a sequence of sections run under the lock.
This module gives the steps of such an operation once, for any primitive.

The exchanges, loads and stores of the spin lock are single steps, and so are
the push of an awaiter, the removal of awaiters by a notification and the work
of one section on the protected value.  A coroutine resumed by a notification is
modelled as running on its own; running in the notifier's thread is one of the
interleavings.

The lock is owned by the coroutine whose exchange has taken it.  Ownership is
not known to the code; it is kept here to say who releases the lock.
-/

namespace AsyncSimple

open Transition

namespace Monitor

/-! ## Primitives -/

/-- A request to the condition variable {lit}`gate`: {lit}`notifyAll`, or
{lit}`notifyOne`. -/
structure Notification (γ : Type) where
  gate : γ
  all : Bool
deriving DecidableEq, Repr

section Notification

variable {γ ι : Type}

/-- The awaiters a notification unlinks: all of them, or the latest one. -/
def Notification.popped (n : Notification γ) (awaiters : List ι) : List ι :=
  if n.all then awaiters else awaiters.take 1

/-- The awaiters a notification leaves on the list. -/
def Notification.left (n : Notification γ) (awaiters : List ι) : List ι :=
  if n.all then [] else awaiters.drop 1

theorem Notification.mem_of_mem_popped (n : Notification γ) {awaiters : List ι} {i : ι}
    (h : i ∈ n.popped awaiters) : i ∈ awaiters := by
  unfold popped at h
  split at h
  · exact h
  · exact List.mem_of_mem_take h

theorem Notification.mem_of_mem_left (n : Notification γ) {awaiters : List ι} {i : ι}
    (h : i ∈ n.left awaiters) : i ∈ awaiters := by
  unfold left at h
  split at h
  · cases h
  · exact List.mem_of_mem_drop h

theorem Notification.left_nodup (n : Notification γ) {awaiters : List ι} (h : awaiters.Nodup) :
    (n.left awaiters).Nodup := by
  unfold left
  split
  · exact List.nodup_nil
  · exact h.sublist (List.drop_sublist 1 awaiters)

theorem Notification.not_mem_popped_of_mem_left (n : Notification γ) {awaiters : List ι} {i : ι}
    (hnodup : awaiters.Nodup) (h : i ∈ n.left awaiters) : i ∉ n.popped awaiters := by
  unfold left at h
  unfold popped
  split at h
  · cases h
  · next hone =>
      rw [if_neg hone]
      cases awaiters with
      | nil => simp
      | cons a l =>
          have ha := (List.nodup_cons.mp hnodup).1
          have hi : i ∈ l := by simpa using h
          simp only [List.take_succ_cons, List.take_zero, List.mem_singleton]
          rintro rfl
          exact ha hi

theorem Notification.mem_left_of_not_mem_popped (n : Notification γ) {awaiters : List ι} {i : ι}
    (h : i ∈ awaiters) (hpopped : i ∉ n.popped awaiters) : i ∈ n.left awaiters := by
  unfold popped at hpopped
  unfold left
  split
  case isTrue hall =>
    rw [if_pos hall] at hpopped
    exact absurd h hpopped
  case isFalse hone =>
    rw [if_neg hone] at hpopped
    rw [← List.take_append_drop 1 awaiters] at h
    exact (List.mem_append.mp h).resolve_left hpopped

/-- A notification that leaves awaiters behind has popped exactly one. -/
theorem Notification.popped_of_left_ne_nil (n : Notification γ) {awaiters : List ι}
    (h : n.left awaiters ≠ []) :
    n.all = false ∧ ∃ w, n.popped awaiters = [w] ∧ awaiters ≠ [] := by
  unfold left at h
  unfold popped
  split at h
  · exact absurd rfl h
  · next hone =>
      cases awaiters with
      | nil => simp at h
      | cons w l => exact ⟨by simpa using hone, w, by simp [hone], by simp⟩

end Notification

/-- The effect of a section on the protected value. -/
structure Effect (σ γ ρ : Type) where
  value : σ
  notify : Option (Notification γ)
  result : ρ

/-- One section of an operation: wait on {lit}`gate` until {lit}`ready`, check
the assertion, change the value. -/
structure Section (σ γ ρ : Type) where
  gate : γ
  ready : σ → Bool
  asserts : σ → Bool
  body : σ → Effect σ γ ρ

/-- A primitive built from a spin lock and condition variables.  An operation
that is not {lit}`blocking` tries the lock once and gives up. -/
structure Primitive (σ γ ω ρ : Type) where
  entryAsserts : ω → Bool
  blocking : ω → Bool
  sections : ω → List (Section σ γ ρ)

/-- What {lit}`co_await Yield` can throw. -/
inductive YieldError where
  | signalException
  | logicError
deriving DecidableEq, Repr

/-- The texts of the two exceptions. -/
def YieldError.what : YieldError → String
  | .signalException => "async_simple::Yield/SpinLock is canceled!"
  | .logicError => "Yielding is only meaningful with an executor!"

/-! ## Program points -/

/-- Which call of {lit}`coLock` a coroutine is in: the one of
{lit}`coScopedLock`, or the one after the wait on a condition variable. -/
inductive Phase where
  | first
  | again
deriving DecidableEq, Repr

/-- Program points of a coroutine in an operation; the number is that of the
section it is in. -/
inductive Pc (γ ω : Type) where
  | idle
  /-- before the exchange of {lit}`SpinLock::tryLock` -/
  | exchange (phase : Phase) (op : ω) (k : Nat) (counter : Int)
  /-- before the load of the inner loop of {lit}`coLock` -/
  | spin (phase : Phase) (op : ω) (k : Nat) (counter : Int)
  /-- at {lit}`co_await Yield` -/
  | yield (phase : Phase) (op : ω) (k : Nat)
  /-- queued in the executor by {lit}`Yield` -/
  | yielded (phase : Phase) (op : ω) (k : Nat)
  /-- holding the lock, at the head of a section or behind the last one -/
  | inside (op : ω) (k : Nat)
  /-- {lit}`ConditionVariableAwaiter::await_suspend` before the push -/
  | push (op : ω) (k : Nat)
  /-- the same after the push; the awaiter may have been popped meanwhile -/
  | leave (op : ω) (k : Nat) (popped : Bool)
  | waiting (op : ω) (k : Nat)
  /-- popped, not yet running again -/
  | woken (op : ω) (k : Nat)
  /-- holding the lock, before a notification -/
  | notifying (op : ω) (k : Nat) (n : Notification γ)
  /-- the exception runs the destructor of the {lit}`unique_lock` -/
  | unwind
  /-- an assertion has failed -/
  | aborted
deriving DecidableEq, Repr

/-- The coroutine is in a section protected by the lock. -/
def Pc.Inside {γ ω : Type} : Pc γ ω → Prop
  | .inside _ _ | .push _ _ | .leave _ _ _ | .notifying _ _ _ => True
  | _ => False

instance {γ ω : Type} (pc : Pc γ ω) : Decidable pc.Inside := by
  cases pc <;> simp only [Pc.Inside] <;> infer_instance

/-- The coroutine has been popped and has not taken the lock again. -/
def Pc.InFlight {γ ω : Type} : Pc γ ω → Bool
  | .woken _ _ | .exchange .again _ _ _ | .spin .again _ _ _ | .yield .again _ _
  | .yielded .again _ _ => true
  | _ => false

/-- The lock, the value and the condition variables (latest awaiter first),
and for each coroutine its program point, whether {lit}`hasCanceled` holds of
its slot and whether it has an executor.  {lit}`releases` lists the stores that
released the lock with the owner at that moment, {lit}`log` the results. -/
structure System (σ γ ω ρ ι : Type) where
  locked : Bool
  owner : Option ι
  value : σ
  awaiters : γ → List ι
  pc : ι → Pc γ ω
  canceled : ι → Bool
  executor : ι → Bool
  releases : List (ι × Option ι)
  log : List (ι × ω × Except YieldError ρ)

variable {σ γ ω ρ ι : Type}

def System.initial (value : σ) (executor : ι → Bool) : System σ γ ω ρ ι where
  locked := false
  owner := none
  value := value
  awaiters := fun _ => []
  pc := fun _ => .idle
  canceled := fun _ => false
  executor := executor
  releases := []
  log := []

variable [DecidableEq ι]

namespace System

def goto (s : System σ γ ω ρ ι) (i : ι) (pc : Pc γ ω) : System σ γ ω ρ ι :=
  { s with pc := Function.update s.pc i pc }

/-- The exchange of {lit}`true` for {lit}`false` has succeeded. -/
def take (s : System σ γ ω ρ ι) (i : ι) : System σ γ ω ρ ι :=
  { s with locked := true, owner := some i }

/-- {lit}`SpinLock::unlock`, which asserts that the lock is taken. -/
def unlock (s : System σ γ ω ρ ι) (i : ι) (pc : Pc γ ω) : System σ γ ω ρ ι :=
  if s.locked = true then
    { s with
      locked := false
      owner := none
      pc := Function.update s.pc i pc
      releases := s.releases ++ [(i, s.owner)] }
  else
    s.goto i .aborted

/-- {lit}`co_await Yield` throws.  In the first call of {lit}`coLock` the caller
has no {lit}`unique_lock` yet; later its destructor unlocks. -/
def throw (s : System σ γ ω ρ ι) (i : ι) (phase : Phase) (op : ω) (e : YieldError) :
    System σ γ ω ρ ι :=
  let pc := match phase with
    | .first => .idle
    | .again => .unwind
  { s.goto i pc with log := s.log ++ [(i, op, .error e)] }

end System

/-- A popped awaiter: its coroutine can run once it is suspended. -/
def Pc.wake : Pc γ ω → Pc γ ω
  | .waiting op k => .woken op k
  | .leave op k _ => .leave op k true
  | pc => pc

variable [DecidableEq γ]

/-- {lit}`notifyOne` and {lit}`notifyAll`: unlink awaiters and resume what was
unlinked. -/
def System.notify (s : System σ γ ω ρ ι) (n : Notification γ) : System σ γ ω ρ ι :=
  { s with
    awaiters := Function.update s.awaiters n.gate (n.left (s.awaiters n.gate))
    pc := fun j => if j ∈ n.popped (s.awaiters n.gate) then (s.pc j).wake else s.pc j }

/-! ## Steps -/

variable (P : Primitive σ γ ω ρ) (spinCount : Int)

/-- The work under the lock: the section's wait, its assertion and its effect;
behind the last section the {lit}`unique_lock` is destroyed. -/
def insideStep (s : System σ γ ω ρ ι) (i : ι) (op : ω) (k : Nat) : System σ γ ω ρ ι :=
  match (P.sections op)[k]? with
  | none => s.unlock i .idle
  | some sec =>
      if sec.ready s.value = false then
        s.goto i (.push op k)
      else if sec.asserts s.value = false then
        s.goto i .aborted
      else
        let effect := sec.body s.value
        let pc := match effect.notify with
          | none => .inside op (k + 1)
          | some n => .notifying op k n
        { s.goto i pc with
          value := effect.value
          log := s.log ++ [(i, op, .ok effect.result)] }

/-- One step of a coroutine. -/
def coroutineStep (s : System σ γ ω ρ ι) (i : ι) : Option (System σ γ ω ρ ι) :=
  match s.pc i with
  | .idle | .waiting _ _ | .aborted => none
  | .exchange phase op k counter =>
      if s.locked = false then
        some ((s.take i).goto i (.inside op k))
      else if P.blocking op then
        some (s.goto i (.spin phase op k counter))
      else
        some (s.goto i .idle)
  | .spin phase op k counter =>
      if s.locked = true then
        if counter ≤ 0 then
          some (s.goto i (.yield phase op k))
        else
          some (s.goto i (.spin phase op k (counter - 1)))
      else
        some (s.goto i (.exchange phase op k counter))
  | .yield phase op k =>
      if s.canceled i then
        some (s.throw i phase op .signalException)
      else if s.executor i then
        some (s.goto i (.yielded phase op k))
      else
        some (s.throw i phase op .logicError)
  | .yielded phase op k =>
      if s.canceled i then
        some (s.throw i phase op .signalException)
      else
        some (s.goto i (.spin phase op k spinCount))
  | .inside op k => some (insideStep P s i op k)
  | .push op k =>
      match (P.sections op)[k]? with
      | none => none
      | some sec =>
          some { s.goto i (.leave op k false) with
            awaiters := Function.update s.awaiters sec.gate (i :: s.awaiters sec.gate) }
  | .leave op k popped => some (s.unlock i (if popped then .woken op k else .waiting op k))
  | .woken op k => some (s.goto i (.exchange .again op k spinCount))
  | .notifying op k n => some ((s.goto i (.inside op (k + 1))).notify n)
  | .unwind => some (s.unlock i .idle)

/-- The moves: a coroutine calls an operation, or goes on, or its slot receives
{lit}`Terminate`. -/
inductive Label (ω ι : Type) where
  | call (i : ι) (op : ω)
  | go (i : ι)
  | terminate (i : ι)
deriving DecidableEq, Repr

/-- One step of the system. -/
def step (s : System σ γ ω ρ ι) : Label ω ι → Option (System σ γ ω ρ ι)
  | .call i op =>
      match s.pc i with
      | .idle =>
          if P.entryAsserts op then
            some (s.goto i (.exchange .first op 0 spinCount))
          else
            some (s.goto i .aborted)
      | _ => none
  | .go i => coroutineStep P spinCount s i
  | .terminate i => some { s with canceled := Function.update s.canceled i true }

/-- A primitive with all the coroutines that use it. -/
def machine : Machine (System σ γ ω ρ ι) (Label ω ι) where
  step := step P spinCount

end Monitor

end AsyncSimple
