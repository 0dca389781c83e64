import AsyncSimple.Library.Machine
import AsyncSimple.Library.Heap
import AsyncSimple.Library.Coroutines
import AsyncSimple.Library.Memory
import AsyncSimple.Library.LinkedList
import AsyncSimple.Library.OwnedLists
import AsyncSimple.Library.Counting
import AsyncSimple.Executor.ThreadPool
import AsyncSimple.Executor.TaskConservation
import AsyncSimple.Executor.PinnedTasks
import AsyncSimple.Executor.MoveOnly
import AsyncSimple.Executor.SimpleExecutor
import AsyncSimple.Executor.ContextRoundTrip
import AsyncSimple.Future.SharedState
import AsyncSimple.Future.HandOff
import AsyncSimple.Future.HandOffPart
import AsyncSimple.Future.ScheduleContinuation
import AsyncSimple.Future.Consumers
import AsyncSimple.Future.Wait
import AsyncSimple.Future.GuardedHandOff
import AsyncSimple.Future.CollectFutures
import AsyncSimple.Future.Chaining
import AsyncSimple.Future.LocalAndShared
import AsyncSimple.Uthread.Await
import AsyncSimple.Uthread.AwaitOnce
import AsyncSimple.Uthread.Lifetime
import AsyncSimple.Uthread.JoinedLifetime
import AsyncSimple.Uthread.CollectAll
import AsyncSimple.Uthread.LatchRelease
import AsyncSimple.Uthread.AwaitLazy
import AsyncSimple.Uthread.Async
import AsyncSimple.Uthread.ContextSwitch
import AsyncSimple.Uthread.ContextStacks
import AsyncSimple.Uthread.ContextRuns
import AsyncSimple.Uthread.Workers
import AsyncSimple.Future.ConcurrentSetters
import AsyncSimple.Future.TwoBuilds
import AsyncSimple.Signal.HandlerCell
import AsyncSimple.Signal.Emission
import AsyncSimple.Signal.Moves
import AsyncSimple.Signal.Carrier
import AsyncSimple.Signal.Mark
import AsyncSimple.Signal.Handlers
import AsyncSimple.Signal.Delivery
import AsyncSimple.Signal.FilterScopes
import AsyncSimple.Signal.Revocation
import AsyncSimple.Signal.DestroyedSlot
import AsyncSimple.Signal.HandlerArguments
import AsyncSimple.Coro.Mutex
import AsyncSimple.Coro.MutexExclusion
import AsyncSimple.Coro.Monitor
import AsyncSimple.Coro.Primitives
import AsyncSimple.Coro.PromiseAllocator
import AsyncSimple.Coro.LockOwnership
import AsyncSimple.Coro.MonitorMoves
import AsyncSimple.Coro.SharedMutexExclusion
import AsyncSimple.Coro.SharedMutexGates
import AsyncSimple.Coro.SemaphoreConservation
import AsyncSimple.Coro.LatchWaiters
import AsyncSimple.Coro.CountEvent
import AsyncSimple.Coro.CollectAll
import AsyncSimple.Coro.CollectAllResume
import AsyncSimple.Coro.CollectWindowed
import AsyncSimple.Coro.CollectWindowedOrder
import AsyncSimple.Coro.WindowedStarts
import AsyncSimple.Signal.TerminateSlot
import AsyncSimple.Coro.CollectAny
import AsyncSimple.Coro.CollectAnyCancel
import AsyncSimple.Coro.CollectAnyOnce
import AsyncSimple.Coro.CollectAnyOutcome
import AsyncSimple.Signal.FilteredSlot
import AsyncSimple.Coro.TimeAwaiter
import AsyncSimple.Coro.RejectingExecutor
import AsyncSimple.Coro.SuspendedHandles
import AsyncSimple.Coro.NoneStranded
import AsyncSimple.Coro.FutureAwaiter
import AsyncSimple.Coro.CheckoutBalance
import AsyncSimple.Coro.FilteredSignals
import AsyncSimple.Coro.ConditionVariable
import AsyncSimple.Coro.ConditionVariableNotify
import AsyncSimple.Coro.Notifier
import AsyncSimple.Coro.NotifierDelivery
import AsyncSimple.Signal.UpdateState
import AsyncSimple.Signal.ChainReach
import AsyncSimple.Future.HandleCounting
import AsyncSimple.Future.BrokenPromise
import AsyncSimple.Future.OneFuture
import AsyncSimple.Coro.CollectAnyLosers
import AsyncSimple.Coro.CollectForwarding
import AsyncSimple.Coro.ExecutorAffinity
import AsyncSimple.Coro.SlotBinding
import AsyncSimple.Coro.EmplaceRace
import AsyncSimple.Coro.CancellableAwait
import AsyncSimple.Coro.Generator
import AsyncSimple.Coro.GeneratorTower
import AsyncSimple.Coro.GeneratorFlatten
import AsyncSimple.Coro.Dispatch
import AsyncSimple.Coro.LazyProgram
import AsyncSimple.Coro.LazyMachine
import AsyncSimple.Coro.LazyFrames
import AsyncSimple.Coro.LazyMoves
import AsyncSimple.Coro.LazyCalls
import AsyncSimple.Coro.LazyInvariant
import AsyncSimple.Coro.LazySteps
import AsyncSimple.Coro.LazyStarts
import AsyncSimple.Coro.LazyRuns
