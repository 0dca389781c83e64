import AsyncSimple.Library.Counting

/-!
# The count-down event of the collect functions

{lit}`CountEvent` is an atomic counter with a plain coroutine handle.  Every
completion decrements the counter once; {lit}`down` also hands out the handle to
the decrement that finds one.  The counter is an integer here, so that a
decrement below zero would be seen.
-/

namespace AsyncSimple

open Transition

/-- The two families of collect functions. -/
inductive CollectKind where
  | all
  | any
deriving DecidableEq, Repr

/-- The members of {lit}`CountEvent`; {lit}`awaitingCoro` says that the handle
is not null. -/
structure CountEvent where
  count : Int
  awaitingCoro : Bool
deriving DecidableEq, Repr

namespace CountEvent

/-- {lit}`CountEvent(size_t count)`. -/
def create (count : Nat) : CountEvent where
  count := count
  awaitingCoro := false

def setAwaitingCoro (event : CountEvent) : CountEvent :=
  { event with awaitingCoro := true }

/-- {lit}`downCount`, which is also the atomic part of {lit}`down`: the value
found and the event after it. -/
def downCount (event : CountEvent) : Int × CountEvent :=
  (event.count, { event with count := event.count - 1 })

/-- The rest of {lit}`down`: only the decrement that found one touches the
handle, which it takes. -/
def takeAwaitingCoro (event : CountEvent) (oldCount : Int) : Bool × CountEvent :=
  if oldCount = 1 then (event.awaitingCoro, { event with awaitingCoro := false })
  else (false, event)

@[simp]
theorem create_count (n : Nat) : (create n).count = n :=
  rfl

@[simp]
theorem setAwaitingCoro_count (event : CountEvent) : event.setAwaitingCoro.count = event.count :=
  rfl

@[simp]
theorem setAwaitingCoro_awaitingCoro (event : CountEvent) :
    event.setAwaitingCoro.awaitingCoro = true :=
  rfl

@[simp]
theorem downCount_fst (event : CountEvent) : event.downCount.1 = event.count :=
  rfl

@[simp]
theorem downCount_count (event : CountEvent) : event.downCount.2.count = event.count - 1 :=
  rfl

@[simp]
theorem downCount_awaitingCoro (event : CountEvent) :
    event.downCount.2.awaitingCoro = event.awaitingCoro :=
  rfl

@[simp]
theorem takeAwaitingCoro_count (event : CountEvent) (oldCount : Int) :
    (event.takeAwaitingCoro oldCount).2.count = event.count := by
  unfold takeAwaitingCoro
  split <;> rfl

theorem takeAwaitingCoro_one (event : CountEvent) :
    event.takeAwaitingCoro 1 = (event.awaitingCoro, { event with awaitingCoro := false }) :=
  rfl

theorem takeAwaitingCoro_of_ne {oldCount : Int} (event : CountEvent) (h : oldCount ≠ 1) :
    event.takeAwaitingCoro oldCount = (false, event) :=
  if_neg h

end CountEvent

end AsyncSimple
