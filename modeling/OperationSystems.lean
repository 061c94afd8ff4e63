import OperationSystems.Foundation.Transition
import OperationSystems.Foundation.LinkedCells
import OperationSystems.Foundation.Disposal
import OperationSystems.Foundation.Tally
import OperationSystems.Foundation.SharedRegistry
import OperationSystems.Foundation.LockedWord
import OperationSystems.Foundation.Dispatch
import OperationSystems.Foundation.Ledger
import OperationSystems.Foundation.HandOverHand
import OperationSystems.Foundation.Inversions
import OperationSystems.Foundation.CStrings
import OperationSystems.Foundation.CArrays
import OperationSystems.Cache.Entry
import OperationSystems.Cache.Append
import OperationSystems.Cache.Growth
import OperationSystems.Cache.Table
import OperationSystems.Cache.Operations
import OperationSystems.Cache.FiniteMap
import OperationSystems.Cache.Destroy
import OperationSystems.Proxy.Socket
import OperationSystems.Proxy.Request
import OperationSystems.Proxy.Parse
import OperationSystems.Proxy.CacheKey
import OperationSystems.Proxy.Buffers
import OperationSystems.Proxy.Bounds
import OperationSystems.Proxy.HostHeader
import OperationSystems.Proxy.Segments
import OperationSystems.Proxy.Verdict
import OperationSystems.Proxy.Forwarding
import OperationSystems.Proxy.Stream
import OperationSystems.Proxy.Handler
import OperationSystems.Proxy.Relay
import OperationSystems.Proxy.SendAll
import OperationSystems.Proxy.Locks
import OperationSystems.Proxy.Registry
import OperationSystems.Proxy.Interference
import OperationSystems.Proxy.References
import OperationSystems.Proxy.SingleFlight
import OperationSystems.Proxy.Progress
import OperationSystems.Proxy.EmptyAnswers
import OperationSystems.Proxy.Traffic
import OperationSystems.Proxy.Transparency
import OperationSystems.Proxy.Isolation
import OperationSystems.Proxy.Fetches
import OperationSystems.ThreadPool.Pool
import OperationSystems.ThreadPool.Queue
import OperationSystems.ThreadPool.Phases
import OperationSystems.ThreadPool.Steps
import OperationSystems.ThreadPool.Turns
import OperationSystems.ThreadPool.Drain
import OperationSystems.ThreadPool.Idle
import OperationSystems.ThreadPool.Creation
import OperationSystems.ThreadPool.Accounts
import OperationSystems.Proxy.Run
import OperationSystems.Proxy.Ownership
import OperationSystems.Proxy.Process
import OperationSystems.Proxy.Quiescence
import OperationSystems.Proxy.Shutdown
import OperationSystems.Proxy.Teardown
import OperationSystems.NodeList.Storage
import OperationSystems.NodeList.Builders
import OperationSystems.NodeList.Threads
import OperationSystems.NodeList.Places
import OperationSystems.NodeList.Walk
import OperationSystems.NodeList.Chains
import OperationSystems.NodeList.Linearizable
import OperationSystems.NodeList.Traversal
import OperationSystems.NodeList.Counters
import OperationSystems.NodeList.Deadlock
import OperationSystems.NodeList.SwapCounters
import OperationSystems.NodeList.Snapshots
import OperationSystems.NodeList.Lifetime
import OperationSystems.NodeList.Rest
import OperationSystems.NodeList.Sorting
import OperationSystems.Sync.Worker
import OperationSystems.Sync.Mutex
import OperationSystems.Sync.Spinlock
import OperationSystems.Sync.Exclusion
import OperationSystems.Sync.Sleepers
import OperationSystems.Sync.Race
import OperationSystems.Sync.Progress
import OperationSystems.Mythread.Thread
import OperationSystems.Mythread.Stack
import OperationSystems.Mythread.Joiners
import OperationSystems.Mythread.Program
import OperationSystems.UserThread.Machine
import OperationSystems.UserThread.Queue
import OperationSystems.UserThread.Linked
import OperationSystems.UserThread.MainContext
import OperationSystems.UserThread.Yielding
import OperationSystems.UserThread.Roster
import OperationSystems.UserThread.Completion
import OperationSystems.UserThread.Stacks
import OperationSystems.UserThread.Serial
