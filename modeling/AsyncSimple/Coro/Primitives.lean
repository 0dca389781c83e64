import AsyncSimple.Coro.Monitor

/-!
# Semaphore, latch and shared mutex

The operations of {lit}`CountingSemaphore`, {lit}`Latch` and {lit}`SharedMutex`
as sections of a monitor.  Counters keep the width of the source, so that they
wrap where the source's do.
-/

namespace AsyncSimple

open Monitor

/-- A section without a wait; its gate is never used. -/
def Monitor.Section.immediate {σ γ ρ : Type} (gate : γ) (asserts : σ → Bool)
    (body : σ → Effect σ γ ρ) : Section σ γ ρ where
  gate := gate
  ready := fun _ => true
  asserts := asserts
  body := body

/-! ## {lit}`CountingSemaphore` -/

namespace CountingSemaphore

/-- The operations of the semaphore. -/
inductive Op where
  | acquire
  | release (update : UInt64)
  | tryAcquire
deriving DecidableEq, Repr

/-- {lit}`count_ > 0`, then {lit}`--count_`. -/
def acquire : Section UInt64 Unit Bool where
  gate := ()
  ready := fun count => 0 < count
  asserts := fun _ => true
  body := fun count => ⟨count - 1, none, true⟩

/-- An update greater than one wakes up all waiting coroutines. -/
def release (leastMaxValue update : UInt64) : Section UInt64 Unit Bool :=
  .immediate () (fun count => count ≤ leastMaxValue - update)
    fun count => ⟨count + update, some ⟨(), decide (1 < update)⟩, true⟩

def tryAcquire : Section UInt64 Unit Bool :=
  .immediate () (fun _ => true) fun count =>
    if count ≠ 0 then ⟨count - 1, none, true⟩ else ⟨count, none, false⟩

/-- {lit}`CountingSemaphore<LeastMaxValue>`. -/
def primitive (leastMaxValue : UInt64) : Primitive UInt64 Unit Op Bool where
  entryAsserts
    | .release update => decide (update ≤ leastMaxValue) && decide (update ≠ 0)
    | _ => true
  blocking := fun _ => true
  sections
    | .acquire => [acquire]
    | .release update => [release leastMaxValue update]
    | .tryAcquire => [tryAcquire]

/-- {lit}`_spinCount` of a default constructed {lit}`SpinLock`. -/
def spinCount : Int := 1024

end CountingSemaphore

/-! ## {lit}`Latch` -/

namespace Latch

/-- The operations of the latch; {lit}`arrive_and_wait` is a
{lit}`count_down` followed by a {lit}`wait`. -/
inductive Op where
  | countDown (update : UInt64)
  | tryWait
  | wait
deriving DecidableEq, Repr

def countDown (update : UInt64) : Section UInt64 Unit Bool :=
  .immediate () (fun count => update ≤ count) fun count =>
    ⟨count - update, if count - update = 0 then some ⟨(), true⟩ else none, true⟩

def tryWait : Section UInt64 Unit Bool :=
  .immediate () (fun _ => true) fun count => ⟨count, none, decide (count = 0)⟩

def wait : Section UInt64 Unit Bool where
  gate := ()
  ready := fun count => count = 0
  asserts := fun _ => true
  body := fun count => ⟨count, none, true⟩

def primitive : Primitive UInt64 Unit Op Bool where
  entryAsserts := fun _ => true
  blocking := fun _ => true
  sections
    | .countDown update => [countDown update]
    | .tryWait => [tryWait]
    | .wait => [wait]

end Latch

/-! ## {lit}`SharedMutex` -/

namespace SharedMutex

inductive Gate where
  | gate1
  | gate2
deriving DecidableEq, Repr

inductive Op where
  | coLock
  | tryLock
  | unlock
  | coLockShared
  | tryLockShared
  | unlockShared
deriving DecidableEq, Repr

def writeEnteredFlag : UInt32 := (1 : UInt32) <<< 31

def maxReaders : UInt32 := ~~~writeEnteredFlag

def writeEntered (state : UInt32) : Bool := state &&& writeEnteredFlag ≠ 0

def readers (state : UInt32) : UInt32 := state &&& maxReaders

/-- The first half of {lit}`coLock`: set the write-entered flag. -/
def enterWrite : Section UInt32 Gate Bool where
  gate := .gate1
  ready := fun state => !writeEntered state
  asserts := fun _ => true
  body := fun state => ⟨state ||| writeEnteredFlag, none, true⟩

/-- The second half of {lit}`coLock`: wait until there are no more readers. -/
def awaitReaders : Section UInt32 Gate Bool where
  gate := .gate2
  ready := fun state => readers state = 0
  asserts := fun _ => true
  body := fun state => ⟨state, none, true⟩

def tryLock : Section UInt32 Gate Bool :=
  .immediate .gate1 (fun _ => true) fun state =>
    if state = 0 then ⟨writeEnteredFlag, none, true⟩ else ⟨state, none, false⟩

def unlock : Section UInt32 Gate Bool :=
  .immediate .gate1 writeEntered fun _ => ⟨0, some ⟨.gate1, true⟩, true⟩

def coLockShared : Section UInt32 Gate Bool where
  gate := .gate1
  ready := fun state => state < maxReaders
  asserts := fun _ => true
  body := fun state => ⟨state + 1, none, true⟩

def tryLockShared : Section UInt32 Gate Bool :=
  .immediate .gate1 (fun _ => true) fun state =>
    if state < maxReaders then ⟨state + 1, none, true⟩ else ⟨state, none, false⟩

/-- Who is woken up by a reader that leaves: the queued writer after the last
reader, or a reader that was blocked on reader overflow. -/
def unlockShared : Section UInt32 Gate Bool :=
  .immediate .gate1 (fun state => 0 < readers state) fun prev =>
    let state := prev - 1
    let notify :=
      if writeEntered state then
        if readers state = 0 then some ⟨.gate2, false⟩ else none
      else
        if prev = maxReaders then some ⟨.gate1, false⟩ else none
    ⟨state, notify, true⟩

def primitive : Primitive UInt32 Gate Op Bool where
  entryAsserts := fun _ => true
  blocking
    | .tryLock | .tryLockShared => false
    | _ => true
  sections
    | .coLock => [enterWrite, awaitReaders]
    | .tryLock => [tryLock]
    | .unlock => [unlock]
    | .coLockShared => [coLockShared]
    | .tryLockShared => [tryLockShared]
    | .unlockShared => [unlockShared]

end SharedMutex

end AsyncSimple
