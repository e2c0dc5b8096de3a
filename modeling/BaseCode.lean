import BaseCode.Foundation.Runs
import BaseCode.Foundation.Buckets
import BaseCode.Foundation.Arena
import BaseCode.Foundation.Directory
import BaseCode.Foundation.Ledger
import BaseCode.Foundation.CStrings
import BaseCode.Foundation.Chains
import BaseCode.Foundation.Ints
import BaseCode.Foundation.Comparators
import BaseCode.Foundation.Machines
import BaseCode.CycleQueue.Model
import BaseCode.CycleQueue.Counters
import BaseCode.CycleQueue.Stream
import BaseCode.CycleQueue.Bounds
import BaseCode.Ipc.MessageQueue
import BaseCode.SelectServer.Model
import BaseCode.SelectServer.Clients
import BaseCode.Backtrace.Model
import BaseCode.Backtrace.Safety
import BaseCode.Comm.HashTable
import BaseCode.Comm.HashTableSpec
import BaseCode.Comm.LinkedList
import BaseCode.Comm.AvlTreeRuns
import BaseCode.Comm.ListIter
import BaseCode.Epoll.Kernel
import BaseCode.Epoll.Registry
import BaseCode.Epoll.Frames
import BaseCode.Epoll.Pointers
import BaseCode.Epoll.Thread
import BaseCode.Epoll.Matching
import BaseCode.Epoll.KeyCells
import BaseCode.Epoll.Ctl
import BaseCode.Epoll.Timer
import BaseCode.Epoll.TimerStart
import BaseCode.Epoll.TimerDelay
import BaseCode.Epoll.Ownership
import BaseCode.Epoll.Callers
import BaseCode.Epoll.Creation
import BaseCode.Epoll.Races
import BaseCode.Epoll.StaleDispatch
import BaseCode.Pthread.Cond
import BaseCode.Comm.TrieRuns
import BaseCode.Comm.BinomialHeapRuns
import BaseCode.Comm.Compare
import BaseCode.Comm.SetTable
import BaseCode.Foundation.HeapOrder
import BaseCode.Comm.BinaryHeap
import BaseCode.Comm.Queue
import BaseCode.Foundation.BitArrays
import BaseCode.Comm.BloomFilter
import BaseCode.Foundation.BlockModes
import BaseCode.Encrypt.Evp
import BaseCode.Comm.ArrayList
