import ManyTasks.Lib.Except
import ManyTasks.Lib.Machine
import ManyTasks.Lib.Power
import ManyTasks.Lib.Decimal
import ManyTasks.Lib.Transition
import ManyTasks.Lib.Loop
import ManyTasks.Lib.Stream
import ManyTasks.Matrix3.Tokenizer
import ManyTasks.Matrix3.Expression
import ManyTasks.Matrix3.Matrix
import ManyTasks.Matrix3.Interpreter
import ManyTasks.Matrix3.Direct
import ManyTasks.Matrix3.Meaning
import ManyTasks.Redis.Storage
import ManyTasks.Redis.Counters
import ManyTasks.Redis.Resp
import ManyTasks.Redis.Codec
import ManyTasks.Redis.Server
import ManyTasks.Redis.Connections
import ManyTasks.Redis.Client
import ManyTasks.Redis.Session
import ManyTasks.Executor.Machine
import ManyTasks.Executor.Memory
import ManyTasks.Executor.Invariant
import ManyTasks.Executor.Flow
import ManyTasks.Executor.Start
import ManyTasks.Executor.Schedule
import ManyTasks.Executor.Handshake
import ManyTasks.Executor.Final
import ManyTasks.Executor.Cancel
import ManyTasks.Executor.Shutdown
import ManyTasks.Executor.Drain
import ManyTasks.Executor.Order
import ManyTasks.Executor.Timer
import ManyTasks.Executor.Combinators
import ManyTasks.Executor.Construction
import ManyTasks.Executor.Body
import ManyTasks.Executor.Outcome
import ManyTasks.Executor.WhenAll
import ManyTasks.Executor.WhenFirst
import ManyTasks.Cactus.Scheduler
import ManyTasks.Cactus.Timeouts
import ManyTasks.Cactus.Changes
import ManyTasks.Cactus.Queues
import ManyTasks.Cactus.Notifications
import ManyTasks.Cactus.Mutex
import ManyTasks.Cactus.Ties
import ManyTasks.Cactus.Join
import ManyTasks.Cactus.Drain
import ManyTasks.Cactus.Descriptors
import ManyTasks.HashTable.Map
import ManyTasks.HashTable.Buckets
import ManyTasks.HashTable.Refinement
import ManyTasks.Lib.Atomic
import ManyTasks.SyncMap.Insertion
import ManyTasks.SyncMap.Refinement
import ManyTasks.Futex.Mutex
import ManyTasks.RwLock.Invariant
import ManyTasks.Semaphore.Order
import ManyTasks.Semaphore.Wakeup
import ManyTasks.BufferedChannel.Channel
import ManyTasks.BufferedChannel.Delivery
import ManyTasks.BufferedChannel.Close
import ManyTasks.UnbufferedChannel.Channel
import ManyTasks.UnbufferedChannel.Rendezvous
import ManyTasks.FastQueue.Queue
import ManyTasks.FastQueue.Tickets
import ManyTasks.FastQueue.Steps
import ManyTasks.FastQueue.Exactness
import ManyTasks.Lib.Chain
import ManyTasks.LockFreeStack.Refinement
import ManyTasks.LockFreeStack.Accounting
import ManyTasks.MpscQueue.Delivery
import ManyTasks.HazardPtr.Pointers
import ManyTasks.HazardPtr.Safety
import ManyTasks.HazardPtr.Reclamation
import ManyTasks.SubsetSum.FindSubsets
import ManyTasks.SubsetSum.Groups
import ManyTasks.SubsetSum.Operations
import ManyTasks.SubsetSum.Sums
import ManyTasks.SubsetSum.Check
import ManyTasks.SubsetSum.Search
import ManyTasks.SubsetSum.Solution
import ManyTasks.Lib.Paren
import ManyTasks.Matrix2.Matrix
import ManyTasks.Matrix2.Product
import ManyTasks.Matrix2.Order
import ManyTasks.Io.Reader
import ManyTasks.Io.Chunks
import ManyTasks.Io.Writer
import ManyTasks.Io.Contents
import ManyTasks.Lib.Interaction
import ManyTasks.Lib.Duplex
import ManyTasks.Lib.Endian
import ManyTasks.Io.Connection
import ManyTasks.Rpc.Transport
import ManyTasks.Rpc.Exchange
import ManyTasks.Lib.Wire
import ManyTasks.Rpc.Wire
import ManyTasks.Rpc.RoundTrip
import ManyTasks.Rpc.Errors
import ManyTasks.Rpc.Serve
import ManyTasks.Socks.Protocol
import ManyTasks.Socks.Agreement
import ManyTasks.Socks.Chain
import ManyTasks.Socks.Replies
import ManyTasks.Balancer.Balancer
import ManyTasks.Rpc.Replies
import ManyTasks.Balancer.Routing
import ManyTasks.Balancer.Distribution
import ManyTasks.Redis.Lines
import ManyTasks.Redis.Numbers
import ManyTasks.Matrix3.Lexing
import ManyTasks.Matrix3.Nesting
import ManyTasks.Matrix3.BlankLines
import ManyTasks.Lib.Arith
import ManyTasks.Matrix3.Grammar
import ManyTasks.Matrix3.Assignment
import ManyTasks.Matrix3.Language
import ManyTasks.Matrix3.Trees
import ManyTasks.Matrix3.Linear
import ManyTasks.Matrix3.Counts
import ManyTasks.Matrix3.Delay
import ManyTasks.TimerQueue.Waiting
import ManyTasks.Coroutine.Order
import ManyTasks.RwSpinlock.Lock
import ManyTasks.IsPrime.Divisors
import ManyTasks.Reduce.Fold
import ManyTasks.SubsetSum.Overflow
import ManyTasks.SubsetSum.Magnitudes
import ManyTasks.ConstexprMap.Sort
import ManyTasks.ClangFun.Spelling
import ManyTasks.ClangFun.Names
import ManyTasks.Ranges.Stride
import ManyTasks.CompileEval.Constant
import ManyTasks.CompileEval.Determinant
import ManyTasks.CompileEval.Sqrt
import ManyTasks.CompileEval.NextPrime
import ManyTasks.Cactus.Positions
import ManyTasks.Lib.Ring
import ManyTasks.Cactus.IntrusiveList
import ManyTasks.Matrix3.Overflow
import ManyTasks.Redis.Bounds
import ManyTasks.Lib.Composition
import ManyTasks.HazardPtr.Clients
import ManyTasks.LockFreeStack.HazardPointers
import ManyTasks.Lib.Pipeline
import ManyTasks.Redis.Cluster
import ManyTasks.Socks.Tunnel
import ManyTasks.FastQueue.Linearizability
import ManyTasks.Lib.Guarded
import ManyTasks.SpinLock.Lock
import ManyTasks.RwSpinlock.Guarded
import ManyTasks.Futex.Guarded
import ManyTasks.RwLock.Guarded
import ManyTasks.SyncMap.HazardPointers
import ManyTasks.HashTable.Locks
import ManyTasks.HashTable.Linearizability
import ManyTasks.Cactus.WaitGroup
import ManyTasks.Cactus.Fairness
import ManyTasks.Lib.Hindsight
import ManyTasks.RwCounter.Counter
import ManyTasks.Lib.Determinacy
import ManyTasks.Fanout.Fanout
import ManyTasks.Fanout.Delivery
import ManyTasks.Lib.Families
import ManyTasks.Rpc.Cluster
