import BareMetal.Bitwise.SmarthFan
import BareMetal.ClangFeatures.FileIo
import BareMetal.ClangFeatures.VoidPointers
import BareMetal.DataStructures.BinaryTree.Teardown
import BareMetal.DataStructures.BubbleSort
import BareMetal.DataStructures.DoublyLinkedList
import BareMetal.DataStructures.HashIndex
import BareMetal.DataStructures.InsertionSort
import BareMetal.DataStructures.LinkedList
import BareMetal.DataStructures.MissingKey
import BareMetal.DataStructures.PrinterQueue
import BareMetal.DataStructures.TableMemory
import BareMetal.DataStructures.UserStack
import BareMetal.Graphs.AdjacentList
import BareMetal.Graphs.DagRepresentation
import BareMetal.Graphs.Dijkstra.Limits
import BareMetal.Graphs.MatrixTraversal
import BareMetal.Graphs.Traversal.DepthFirst
import BareMetal.GraphsBootcamp.MicroMake.Clusters
import BareMetal.GraphsBootcamp.MicroMake.Cycles
import BareMetal.GraphsBootcamp.MicroMake.Guard
import BareMetal.GraphsBootcamp.MicroMake.OutOfRange
import BareMetal.Memory.Arena
import BareMetal.Memory.Realloc
import BareMetal.Memory.StreamQueue
import BareMetal.MemoryPhysics.PhysicsOfDp
import BareMetal.Multithreading.Accounts.Check
import BareMetal.Multithreading.BalanceRace
import BareMetal.Multithreading.Banking.Deposits
import BareMetal.Multithreading.BoundedBuffer.Progress
import BareMetal.Multithreading.Cas
import BareMetal.Multithreading.ConcurrentSum.Partition
import BareMetal.Multithreading.Pthreads
import BareMetal.PointerProblems.Alternate
import BareMetal.PointerProblems.Anchor
import BareMetal.PointerProblems.FastSlow
import BareMetal.Problems.Cargo.Departure
import BareMetal.Problems.Cargo.Memory
import BareMetal.Problems.Cargo.Rejection
import BareMetal.Problems.CourseManager
import BareMetal.Problems.DllRewiring
import BareMetal.Problems.F1Engine.Analytics
import BareMetal.Problems.Fcw.BlackBox
import BareMetal.Problems.Fcw.Departure
import BareMetal.Problems.Fcw.Dialogue
import BareMetal.Problems.Fcw.EngineOff
import BareMetal.Problems.Fcw.Phases
import BareMetal.Problems.FindSum.Passes
import BareMetal.Problems.FindSumOptimised
import BareMetal.Problems.GreedyLogic
import BareMetal.Problems.Palindrome
import BareMetal.Problems.PhraseFlipper
import BareMetal.Problems.RemArrayDuplicates
import BareMetal.Problems.ReverseList
import BareMetal.Problems.RpgInventory.Kinds
import BareMetal.Problems.SpaceCompressor
import BareMetal.Problems.StripVowels
import BareMetal.Problems.SubstringLoc
import BareMetal.Problems.Trim
import BareMetal.Problems.VendingMachine.Printing
import BareMetal.Problems.ZeroGravity
import BareMetal.Pthread.Aggregator
import BareMetal.Pthread.CondTimedWait
import BareMetal.Pthread.ContionalVar.Progress
import BareMetal.Pthread.Mutex
import BareMetal.Pthread.ProdCons.Progress
import BareMetal.Pthread.Reconciliation.Handover
import BareMetal.Pthread.ResourceCounter
import BareMetal.Pthread.RingBuffer.Progress
import BareMetal.Pthread.Scanner
import BareMetal.Pthread.ThreadPool.Shutdown
import BareMetal.Pthread.WatchmanEventLoop
import BareMetal.Pthread.WaterPump
import BareMetal.Recap.CustomArena.Printing
import BareMetal.Recap.CustomArena.Progress
import BareMetal.Recap.RingBuffer
import BareMetal.Recap.Swap
import BareMetal.Sockets.MTServer
import BareMetal.Strings.BuildSentence
import BareMetal.Strings.StringOptions
import BareMetal.SystemDesignBootcamp.ArenaAlloc
import BareMetal.SystemDesignBootcamp.BitPacking
import BareMetal.SystemDesignBootcamp.SetString
import BareMetal.SystemEng.LinkedList
import BareMetal.Unions.Pos
