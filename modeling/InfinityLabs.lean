import InfinityLabs.Lib.Runs
import InfinityLabs.Lib.ListParts
import InfinityLabs.Lib.SnapshotStore
import InfinityLabs.Lib.Bookkeeping
import InfinityLabs.Server.JsString
import InfinityLabs.Server.User
import InfinityLabs.Server.Transfer
import InfinityLabs.Server.TransferRuns
import InfinityLabs.Server.TransferLedger
import InfinityLabs.Lib.Documents
import InfinityLabs.Server.UserService
import InfinityLabs.Server.Auth
import InfinityLabs.Server.SecondFactor
import InfinityLabs.Server.OtpBounds
import InfinityLabs.Server.Chat
import InfinityLabs.Server.ChatFlag
import InfinityLabs.Server.ChatSocket
import InfinityLabs.Dhcp.Trie
import InfinityLabs.Dhcp.TrieShape
import InfinityLabs.Dhcp.TrieInsert
import InfinityLabs.Dhcp.Dhcp
import InfinityLabs.Dhcp.Allocation
import InfinityLabs.Dhcp.Leases
import InfinityLabs.Dhcp.DhcpRuns
import InfinityLabs.Dhcp.TrieAnswers
import InfinityLabs.Dhcp.Foreign
import InfinityLabs.Dhcp.TrieRuns
import InfinityLabs.Ds.Avl
import InfinityLabs.Ds.AvlSet
import InfinityLabs.Ds.AvlBalance
import InfinityLabs.Lib.BinaryHeap
import InfinityLabs.Ds.Heap
import InfinityLabs.Ds.HeapRuns
import InfinityLabs.Ds.Pq
import InfinityLabs.Ds.Uid
import InfinityLabs.Sched.Sched
import InfinityLabs.Sched.Remove
import InfinityLabs.Sched.Faithful
import InfinityLabs.Lib.Links
import InfinityLabs.Alloc.Words
import InfinityLabs.Alloc.Fsa
import InfinityLabs.Lib.BlockChain
import InfinityLabs.Lib.FreeRuns
import InfinityLabs.Alloc.Vsa
import InfinityLabs.Lib.Comparator
import InfinityLabs.Alloc.VsaBlocks
import InfinityLabs.Alloc.VsaRuns
import InfinityLabs.Alloc.VsaCoalesce
import InfinityLabs.Wd.Process
import InfinityLabs.Wd.Population
import InfinityLabs.Wd.System
import InfinityLabs.Wd.Lasting
import InfinityLabs.Wd.Stop
import InfinityLabs.Ds.Stack
import InfinityLabs.Lib.Precedence
import InfinityLabs.Calc.Calculator
import InfinityLabs.Calc.Tokens
import InfinityLabs.Calc.Reductions
import InfinityLabs.Calc.Refinement
import InfinityLabs.Calc.Grammar
import InfinityLabs.Calc.Evaluation
import InfinityLabs.Calc.Printing
import InfinityLabs.Calc.Signs
import InfinityLabs.Framework.ThreadPool
import InfinityLabs.Framework.PoolAccounting
import InfinityLabs.Framework.PoolPause
import InfinityLabs.Framework.PoolDrain
import InfinityLabs.Framework.Scheduler
import InfinityLabs.Framework.SchedulerTimer
import InfinityLabs.Framework.SchedulerTasks
import InfinityLabs.Framework.AsyncInjection
import InfinityLabs.Framework.AsyncLifeCycle
import InfinityLabs.Framework.SchedulerProgress
import InfinityLabs.Framework.AsyncCalls
import InfinityLabs.Framework.Handleton
import InfinityLabs.Framework.Dispatcher
import InfinityLabs.Ds.Sll
import InfinityLabs.Ds.SllRuns
import InfinityLabs.Ds.SllAppend
import InfinityLabs.Ds.Queue
import InfinityLabs.Ds.Vector
import InfinityLabs.Ds.HeapGrowth
import InfinityLabs.Ds.Bst
import InfinityLabs.Ds.BstShape
import InfinityLabs.Lib.ParentTree
import InfinityLabs.Ds.BstRuns
import InfinityLabs.Ds.HashTable
import InfinityLabs.Ds.Dll
import InfinityLabs.Ds.DllShape
import InfinityLabs.Ds.SortedL
import InfinityLabs.Ds.CBuff
import InfinityLabs.Lib.Ring
import InfinityLabs.Ds.Fsq
import InfinityLabs.Ds.FsqRuns
import InfinityLabs.Cpp.BitArray
import InfinityLabs.Lib.BitFields
import InfinityLabs.Cpp.BitArrayBits
import InfinityLabs.Cpp.BitArrayRuns
import InfinityLabs.Cpp.RcString
import InfinityLabs.Cpp.RcStringCounts
import InfinityLabs.Cpp.RcStringWrites
import InfinityLabs.Sorting.BinarySearch
import InfinityLabs.Cpp.SharedPtr
import InfinityLabs.Cpp.SharedPtrRelease
import InfinityLabs.Cpp.SharedPtrHandles
import InfinityLabs.Lib.Ranks
import InfinityLabs.Cpp.SharedPtrRuns
import InfinityLabs.Lib.Cells
import InfinityLabs.Lib.MergeRuns
import InfinityLabs.Sorting.QuickSort
import InfinityLabs.Lib.Chunks
import InfinityLabs.Sorting.MtQuickSort
import InfinityLabs.Lib.Histogram
import InfinityLabs.Sorting.MtCountingSort
import InfinityLabs.Ds.BitArr
import InfinityLabs.Ds.BitArrTables
import InfinityLabs.Knight.KnightTour
import InfinityLabs.Knight.KnightTourPath
import InfinityLabs.Knight.KnightTourSearch
import InfinityLabs.Alloc.VsaRequests
import InfinityLabs.Alloc.FsaInit
import InfinityLabs.Framework.Reactor
import InfinityLabs.Ds.BstIteration
import InfinityLabs.Ds.BstDestroy
import InfinityLabs.Ds.HashTableForEach
import InfinityLabs.Lib.Threads
import InfinityLabs.Ds.DllSplice
import InfinityLabs.Lib.Buckets
import InfinityLabs.Lib.CInts
import InfinityLabs.Sorting.LinearSorting
import InfinityLabs.Sorting.CountingSort
import InfinityLabs.Sorting.RadixSort
import InfinityLabs.Sorting.CmpSorting
import InfinityLabs.Sorting.MergeSort
import InfinityLabs.Dhcp.TrieNext
import InfinityLabs.Lib.JsonText
import InfinityLabs.Server.BalancedJson
import InfinityLabs.Server.PayloadSearch
import InfinityLabs.Lib.FixedWindows
import InfinityLabs.Server.RateLimiter
import InfinityLabs.Lib.SlotSet
import InfinityLabs.Server.SocketRegistry
import InfinityLabs.Lib.Calendar
import InfinityLabs.Lib.DateValue
import InfinityLabs.Server.MonthWindow
import InfinityLabs.Lib.OrderedMap
import InfinityLabs.Lib.DecimalText
import InfinityLabs.Client.MonthlyChart
import InfinityLabs.Client.SpendingAnalytics
import InfinityLabs.Lib.Enclosed
import InfinityLabs.Server.Sanitize
import InfinityLabs.Server.VideoRoom
import InfinityLabs.Recursion.SortedStack
import InfinityLabs.Lib.Occurrences
import InfinityLabs.Recursion.SubstringSearch
import InfinityLabs.Sorting.ListMergeSort
import InfinityLabs.Lib.Separated
import InfinityLabs.Sorting.WordPointers
import InfinityLabs.Lib.ByteFields
import InfinityLabs.Ds.FsqPeek
import InfinityLabs.Sys.Ext2
import InfinityLabs.Sys.Ext2Directory
import InfinityLabs.Sys.Ext2Read
import InfinityLabs.Lib.Orbits
import InfinityLabs.Ds.HasLoop
import InfinityLabs.Lib.Numerals
import InfinityLabs.Exercises.AtoiBase
import InfinityLabs.Exercises.DecimalRoundTrip
import InfinityLabs.Lib.ByteMemory
import InfinityLabs.Exercises.MemUtils
import InfinityLabs.Exercises.StrTok
import InfinityLabs.Lib.Circle
import InfinityLabs.Exercises.Josephus
import InfinityLabs.Lib.LeastNumeral
import InfinityLabs.Quizzes.SmallestNum
import InfinityLabs.Lib.Palindromes
import InfinityLabs.Quizzes.LongestPalindrome
import InfinityLabs.Lib.Sections
import InfinityLabs.Quizzes.RepeatedSequences
import InfinityLabs.Quizzes.ContainPerm
import InfinityLabs.Lib.Crew
import InfinityLabs.Sys.ProducerConsumer
import InfinityLabs.Sys.BoundedBuffer
import InfinityLabs.Quizzes.Barrier
import InfinityLabs.Sys.Ext2Path
import InfinityLabs.Server.Activation
import InfinityLabs.Ds.AvlHeight
import InfinityLabs.Sys.Broadcast
import InfinityLabs.Framework.Logger
import InfinityLabs.Ds.Flip
import InfinityLabs.Lib.Pages
import InfinityLabs.Server.TransactionPages
import InfinityLabs.Client.TransactionList
import InfinityLabs.Framework.DirMonitor
import InfinityLabs.Sys.Divisors
import InfinityLabs.Sys.PingPong
import InfinityLabs.Sys.PingPongSignals
