import CExercises.Core.BinaryTree
import CExercises.Core.Bits
import CExercises.Core.Memory
import CExercises.Core.Block
import CExercises.Core.CInt
import CExercises.Core.CString
import CExercises.Core.Chain
import CExercises.Core.Strtol
import CExercises.Core.Decimal
import CExercises.Core.Transition
import CExercises.Core.Delivery
import CExercises.Core.Double
import CExercises.Core.Dyck
import CExercises.Core.Ere
import CExercises.Core.Live
import CExercises.Core.Refinement
import CExercises.Core.Handle
import CExercises.Core.Lifo
import CExercises.Core.Locks
import CExercises.Core.Newton
import CExercises.Core.Pipe
import CExercises.Core.Realloc
import CExercises.Core.TreeStore
import CExercises.IntNode
import CExercises.DynamicArray.GenVecDef
import CExercises.DynamicArray.IntVecDef
import CExercises.DynamicArray.GenVec
import CExercises.DynamicArray.IntVec
import CExercises.LinkedList.Def
import CExercises.LinkedList.Refinement
import CExercises.LinkedList.Indices
import CExercises.LinkedList.Lifecycle
import CExercises.LinkedList.Reversal
import CExercises.BinarySearchTree.Def
import CExercises.BinarySearchTree.HeapDef
import CExercises.BinarySearchTree.HeapRefinement
import CExercises.BinarySearchTree.Refinement
import CExercises.BinarySearchTree.Shape
import CExercises.BinarySearchTree.Print
import CExercises.StackQueue.QueueDef
import CExercises.StackQueue.BfsDef
import CExercises.StackQueue.StackDef
import CExercises.StackQueue.QueueRefinement
import CExercises.StackQueue.Bfs
import CExercises.StackQueue.Brackets
import CExercises.StackQueue.StackRefinement
import CExercises.Sorting.Def
import CExercises.Sorting.Merge
import CExercises.Sorting.Quadratic
import CExercises.Sorting.Quick
import CExercises.Sorting.Agreement
import CExercises.Sorting.Comparators
import CExercises.Sorting.Partition
import CExercises.Sorting.Stability
import CExercises.HashTable.Def
import CExercises.HashTable.HeapDef
import CExercises.HashTable.Chains
import CExercises.HashTable.Invariant
import CExercises.HashTable.Refinement
import CExercises.HashTable.Capacity
import CExercises.HashTable.Free
import CExercises.HashTable.HeapRefinement
import CExercises.HashTable.Split
import CExercises.HashTable.WordCount
import CExercises.ErrorHandling.Def
import CExercises.ErrorHandling.Parse
import CExercises.ErrorHandling.SquareRoot
import CExercises.Variadic.Def
import CExercises.Variadic.Join
import CExercises.Bits.Def
import CExercises.Bits.Powers
import CExercises.Stats.Def
import CExercises.Stats.Calls
import CExercises.Regex.Def
import CExercises.Regex.Ipv4
import CExercises.Regex.Patterns
import CExercises.Regex.Scan
import CExercises.Regex.Words
import CExercises.StateMachine.Def
import CExercises.StateMachine.Traces
import CExercises.Signals.Def
import CExercises.Signals.HandlersDef
import CExercises.Signals.WriteInt
import CExercises.Signals.Counting
import CExercises.Signals.Handlers
import CExercises.BoundedQueue.Def
import CExercises.BoundedQueue.Safety
import CExercises.BoundedQueue.Progress
import CExercises.Threads.Def
import CExercises.Threads.Guarded
import CExercises.Threads.Race
import CExercises.Semaphores.Def
import CExercises.Semaphores.Pool
import CExercises.Spinlock.Def
import CExercises.Spinlock.NoLostUpdate
import CExercises.CasMax.Def
import CExercises.CasMax.Maximum
import CExercises.TreiberStack.Def
import CExercises.TreiberStack.Linearizable
import CExercises.Framing.Def
import CExercises.Framing.SessionDef
import CExercises.Framing.RoundTrip
import CExercises.Framing.BrokenStream
import CExercises.Framing.Session
import CExercises.Framing.Sync
import CExercises.IoMux.EchoDef
import CExercises.IoMux.EchoClientsDef
import CExercises.IoMux.ReadersDef
import CExercises.IoMux.Closing
import CExercises.IoMux.EchoServer
import CExercises.IoMux.EchoClients
import CExercises.IoMux.Readers
import CExercises.Processes.Def
import CExercises.Processes.TwoWay
