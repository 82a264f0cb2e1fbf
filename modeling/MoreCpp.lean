import MoreCpp.Concurrency.Queue
import MoreCpp.Concurrency.LockFreeStack.Safety
import MoreCpp.Concurrency.LockFreeStack.Progress
import MoreCpp.Concurrency.TwoLockQueue.Wakeup
import MoreCpp.Concurrency.ClosableQueue.Delivery
import MoreCpp.Concurrency.ClosableQueue.Wakeup
import MoreCpp.Concurrency.LookupTable.Refinement
import MoreCpp.Concurrency.ParallelAccumulate
import MoreCpp.Concurrency.ThreadSafeStack.Refinement
import MoreCpp.Concurrency.Dns.Resolution
import MoreCpp.Containers.Vector.Lifetime
import MoreCpp.Containers.Vector.StrongGuarantee
import MoreCpp.Containers.Vector.SelfAppend
import MoreCpp.Containers.Vector.Growth
import MoreCpp.Containers.DsList.Refinement
import MoreCpp.Containers.DsList.Failure
import MoreCpp.Containers.ConflatingQueue.Refinement
import MoreCpp.Containers.ConflatingQueue.Failure
import MoreCpp.Containers.CircularBuffer.Refinement
import MoreCpp.Containers.DoublyLinkedList.Refinement
import MoreCpp.Pointers.SimpleUniquePtr
import MoreCpp.Strings.CompactString.Compare
import MoreCpp.Strings.SssString.Content
import MoreCpp.Strings.WordCount
import MoreCpp.Algorithms.TaskManager
import MoreCpp.Algorithms.Rmq
import MoreCpp.Algorithms.Heapsort
import MoreCpp.Algorithms.DetectCycle
import MoreCpp.Algorithms.SearchForPat
import MoreCpp.Algorithms.IsMatch
import MoreCpp.Algorithms.RemoveInvalidParentheses
import MoreCpp.Algorithms.RemoveKChars
import MoreCpp.Algorithms.IsInterleave
import MoreCpp.Algorithms.CommonSubsequence
import MoreCpp.Algorithms.LongestPalSubs
import MoreCpp.Algorithms.LongestSubstring
import MoreCpp.Algorithms.CountDistinctSubseq
import MoreCpp.Algorithms.StringHashing
import MoreCpp.Algorithms.CountAllPaths
import MoreCpp.Algorithms.SumOfDistances
import MoreCpp.Algorithms.TreeHeight
import MoreCpp.Algorithms.ConnectNodes
import MoreCpp.Algorithms.Lca
import MoreCpp.Algorithms.MaxPathSumTwoNodes
import MoreCpp.Algorithms.Toposort
import MoreCpp.Algorithms.Fill
import MoreCpp.Algorithms.MinObstacles
import MoreCpp.Algorithms.TrapRainWater
import MoreCpp.Algorithms.FindShorteseEdges
import MoreCpp.Algorithms.CountPath
import MoreCpp.Algorithms.NumOfGoodPaths
import MoreCpp.Algorithms.MinMalwareSpread
import MoreCpp.Algorithms.Dsu
import MoreCpp.Algorithms.GraphIsBipartite
import MoreCpp.Algorithms.CountPaths
import MoreCpp.Algorithms.Threesum
import MoreCpp.Algorithms.FindKthLargest
import MoreCpp.Algorithms.CountSmaller
import MoreCpp.Algorithms.SolveSudoku
import MoreCpp.Algorithms.MinCostTime
import MoreCpp.Algorithms.MinNumOfSemesters
import MoreCpp.Algorithms.InsertInterval
import MoreCpp.Algorithms.SmallestDistPair
import MoreCpp.Algorithms.MakeArrayIncreasing
import MoreCpp.Algorithms.Knapsack
import MoreCpp.Algorithms.NumberBlast
import MoreCpp.Algorithms.MinSquare
import MoreCpp.Algorithms.JobScheduling
import MoreCpp.Algorithms.MaxTaxiEarnings
import MoreCpp.Algorithms.MaxEvents2
import MoreCpp.Algorithms.MinFallingPathSum
import MoreCpp.Algorithms.MinArraySum
import MoreCpp.Algorithms.PartitionSet
import MoreCpp.Algorithms.MinOperationsReachK
import MoreCpp.Algorithms.LongestUniqueSubstring
import MoreCpp.Algorithms.TreeToDll.Traversal
import MoreCpp.Algorithms.ItemTreap.HistoryIndependence
import MoreCpp.Algorithms.ItemTreap.Erase
import MoreCpp.Tensor.Fft
import MoreCpp.Tensor.Elimination
import MoreCpp.Atorus.Inout
import MoreCpp.Chat.Server.Framing
import MoreCpp.Chat.Server.Notice
import MoreCpp.Chat.Server.Flow
import MoreCpp.Chat.Server.Order
import MoreCpp.Chat.Client.Writing
import MoreCpp.Chat.Client.EndOfInput
import MoreCpp.Chat.Client.Stream
import MoreCpp.Chat.Server.Speech
import MoreCpp.Chat.Network
import MoreCpp.Algorithms.MinimumLines
import MoreCpp.Cthreads.Badcnt
import MoreCpp.Pearls.Anagrams
import MoreCpp.Pearls.SortFiles
import MoreCpp.SampleBoost.Timer
