import LearningNotes.Db.Delete
import LearningNotes.Db.Append
import LearningNotes.Db.Free
import LearningNotes.Db.Store
import LearningNotes.Db.Scan
import LearningNotes.Db.Calls
import LearningNotes.Db.Alone
import LearningNotes.Db.Formed
import LearningNotes.Db.Reopen
import LearningNotes.Db.Crash
import LearningNotes.Lib.Dlist
import LearningNotes.Printd.Daemon
import LearningNotes.Printd.Queue
import LearningNotes.Printd.Files
import LearningNotes.Printd.Acts
import LearningNotes.Printd.Counter
import LearningNotes.Printd.Spool
import LearningNotes.Printd.Restart
import LearningNotes.Printd.Submit
import LearningNotes.Opend.Client
import LearningNotes.Opend.LoopSelect
import LearningNotes.Printd.Workers
import LearningNotes.Opend.LoopPoll
import LearningNotes.Lib.Words
import LearningNotes.Opend.PassFd
import LearningNotes.Opend.Request
import LearningNotes.Opend.Open
import LearningNotes.Lib.CInt
import LearningNotes.Stream.Fmemopen
import LearningNotes.Stream.BoundedFile
import LearningNotes.Ipc.Tellwait
import LearningNotes.Ipc.Turns
import LearningNotes.Ipc.SemCount
import LearningNotes.Lib.Slist
import LearningNotes.Threads.Foo
import LearningNotes.Threads.FooTable
import LearningNotes.Threads.Mutex2
import LearningNotes.Threads.TwoLocks
import LearningNotes.Advio.Blocks
import LearningNotes.Lib.PHeap
import LearningNotes.Trees.Links
import LearningNotes.Lib.Bst
import LearningNotes.Trees.Search
import LearningNotes.Trees.Bst
import LearningNotes.Trees.Balance
import LearningNotes.Trees.Rotate
import LearningNotes.Trees.Fixup
import LearningNotes.Trees.Insert
import LearningNotes.Trees.Delete
import LearningNotes.Printd.Status
import LearningNotes.Printd.StatusEnds
import LearningNotes.Lib.Pen
import LearningNotes.Printd.Headers
import LearningNotes.Printd.Attributes
import LearningNotes.Db.Runs
import LearningNotes.Printd.Talk
import LearningNotes.Db.Reuse
import LearningNotes.Db.Create
import LearningNotes.Db.Pairs
import LearningNotes.Db.Deadlock
import LearningNotes.Db.Linear
import LearningNotes.Db.Cursor
import LearningNotes.Db.Accepted
import LearningNotes.Printd.TextFlag
import LearningNotes.Printd.Answer
import LearningNotes.Printd.Stale
import LearningNotes.Printd.Checked
import LearningNotes.Printd.Bounds
import LearningNotes.Algorithm.HeapSort
import LearningNotes.Algorithm.Kmp
import LearningNotes.Algorithm.MergeSort
import LearningNotes.Algorithm.QuickSort
import LearningNotes.Filedir.Ftw8
import LearningNotes.Filedir.Ftw8Calls
import LearningNotes.Ipc.Popen
import LearningNotes.Opend.PollPacked
import LearningNotes.Threads.Barrier
import LearningNotes.Threads.BarrierSort
import LearningNotes.Threads.Rwlock
import LearningNotes.Trees.Next
import LearningNotes.Trees.Traverse
import LearningNotes.Algorithm.ActivitySelector
import LearningNotes.Algorithm.CutRod
import LearningNotes.Fdio.Readn
import LearningNotes.Lists.LinkQueue
import LearningNotes.Lists.StaticList
import LearningNotes.Lib.Walks
import LearningNotes.Graph.Bfs
import LearningNotes.Lib.Forest
import LearningNotes.Graph.Dfs
import LearningNotes.Lib.Spanning
import LearningNotes.Graph.Prim
import LearningNotes.Graph.Kruskal
import LearningNotes.Stl.TreeIterator
import LearningNotes.Lib.Tally
import LearningNotes.Threads.Condvar
import LearningNotes.Ipc.TellwaitPipe
import LearningNotes.Lib.Parcels
import LearningNotes.Stl.Alloc
import LearningNotes.Stl.DequeIterator
import LearningNotes.Lib.Ring
import LearningNotes.Stl.ListRing
import LearningNotes.Stl.Lists
import LearningNotes.Daemons.Single
import LearningNotes.Stl.Deque
import LearningNotes.Termios.Ttymodes
import LearningNotes.Lib.Objects
import LearningNotes.Stl.Vector
import LearningNotes.Algorithm.InsertionSort
import LearningNotes.Stl.Introsort
import LearningNotes.Trees.Build
import LearningNotes.Lists.SqQueue
import LearningNotes.Lib.Signals
import LearningNotes.Signals.Sleep
import LearningNotes.Signals.Abort
import LearningNotes.Lists.HeadList
import LearningNotes.Lists.HeadNodes
import LearningNotes.Printd.Config
import LearningNotes.Signals.Command
