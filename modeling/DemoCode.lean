import DemoCode.Lib.Loop
import DemoCode.Lib.Decoder
import DemoCode.Lib.Endian
import DemoCode.WebSocket.Frame
import DemoCode.WebSocket.Proto
import DemoCode.WebSocket.Codec
import DemoCode.WebSocket.Segmentation
import DemoCode.WebSocket.RoundTrip
import DemoCode.WebSocket.Fragments
import DemoCode.FeedProxy.Json
import DemoCode.FeedProxy.Messages
import DemoCode.FeedProxy.CommonHdr
import DemoCode.FeedProxy.ConvertUtils
import DemoCode.FeedProxy.ConvertService
import DemoCode.FeedProxy.FrameReader
import DemoCode.FeedProxy.Streams
import DemoCode.FeedProxy.Runs
import DemoCode.FeedProxy.Subscriptions
import DemoCode.FeedProxy.FanOut
import DemoCode.FeedProxy.Upstream
import DemoCode.FeedProxy.Replies
import DemoCode.FeedProxy.LevService
import DemoCode.FeedProxy.Sessions
import DemoCode.Lib.Search
import DemoCode.WebSocket.Client
import DemoCode.FeedProxy.EvLoop
import DemoCode.Lib.Countdown
import DemoCode.WebSocket.TimingWheel
import DemoCode.WebSocket.Heartbeat
import DemoCode.WebSocket.Shutdowns
import DemoCode.FeedProxy.CricularBuffer
import DemoCode.FeedProxy.IdleMonitor
import DemoCode.FeedProxy.Instruments
import DemoCode.FeedProxy.UwsClient
import DemoCode.FeedProxy.Reconnects
import DemoCode.FeedProxy.QueryWs
import DemoCode.FeedProxy.Pending
import DemoCode.ZooKeeper.Election
import DemoCode.Lib.Links
import DemoCode.LockFreeQueue.Queue
import DemoCode.LockFreeQueue.Chains
import DemoCode.LockFreeQueue.Interleavings
import DemoCode.LockFreeQueue.Sequential
import DemoCode.FileCrop.ColTask
import DemoCode.FileCrop.SeparateFile
import DemoCode.FileCrop.TaskDispatcher
import DemoCode.NanoLog.LogLine
import DemoCode.NanoLog.Decode
import DemoCode.Lib.Trees
import DemoCode.Lib.RedBlack
import DemoCode.RBTree.RbTree
import DemoCode.RBTree.Shape
import DemoCode.RBTree.Seek
import DemoCode.RBTree.AddNode
import DemoCode.RBTree.AddColors
import DemoCode.RBTree.DelFixUp
import DemoCode.RBTree.DelNode
import DemoCode.RBTree.DelSafe
import DemoCode.RBTree.DelColors
import DemoCode.FeedProxy.Paging
import DemoCode.FeedProxy.Allocation
import DemoCode.FeedProxy.Rejections
import DemoCode.ClassicProblem.MaximumSubarray
import DemoCode.ClassicProblem.LongestPalindrome
import DemoCode.Lib.Heaps
import DemoCode.MaxHeap.Heap
import DemoCode.MaxHeap.Insert
import DemoCode.Lib.Avl
import DemoCode.MaxHeap.Delete
import DemoCode.Lib.AvlErase
import DemoCode.AVLTree.AvlTree
import DemoCode.AVLTree.Adjust
import DemoCode.AVLTree.AddNode
import DemoCode.AVLTree.DelNode
import DemoCode.FeedProxy.TradingTimes
import DemoCode.Lib.Calendar
import DemoCode.FeedProxy.TimeStrings
import DemoCode.FeedProxy.RequestIds
import DemoCode.FeedProxy.Pushes
import DemoCode.FeedProxy.QuoteMerge
import DemoCode.FileCrop.Table
import DemoCode.FileCrop.Columns
import DemoCode.FileCrop.CropBound
import DemoCode.FileCrop.CodeTask
import DemoCode.FeedProxy.BoundedQueue
import DemoCode.FeedProxy.Resize
import DemoCode.NanoLog.LogWriter
import DemoCode.NanoLog.Routing
import DemoCode.NanoLog.Rolling
import DemoCode.LockFreeQueue.Spurious
import DemoCode.NanoLog.NanoLogger
import DemoCode.NanoLog.Shutdown
import DemoCode.NanoLog.Wakeups
import DemoCode.ZeroMq.ZmqWrapper
import DemoCode.ZeroMq.Multipart
import DemoCode.ZooKeeper.PathCreation
import DemoCode.Oiwst.TimerCallback
import DemoCode.Oiwst.Orders
import DemoCode.AVLTree.Removal
import DemoCode.Lib.AvlTies
import DemoCode.AVLTree.Duplicates
import DemoCode.PbRpc.Transport
import DemoCode.WebSocket.ParseUri
import DemoCode.WebSocket.UriShape
import DemoCode.Lib.StableSort
import DemoCode.SortAbout.Counters
import DemoCode.SortAbout.CountingSort
import DemoCode.SortAbout.RadixSort
import DemoCode.SortAbout.MergeSort
import DemoCode.SortAbout.QuickSort
import DemoCode.SortAbout.HeapSort
import DemoCode.ClassicProblem.CentreExpansion
import DemoCode.WebSocket.Progress
import DemoCode.Lib.Tally
import DemoCode.LockFreeQueue.FreeList
import DemoCode.LockFreeQueue.FreeListOwners
import DemoCode.LockFreeQueue.FreeListRuns
import DemoCode.Lib.Utf8
import DemoCode.LockFreeQueue.FreeListProgress
import DemoCode.Uws.Utf8
import DemoCode.Lib.Masking
import DemoCode.Uws.Unmask
import DemoCode.Uws.WebSocket
import DemoCode.Uws.Protocol
import DemoCode.Uws.Fragments
import DemoCode.Uws.Frames
import DemoCode.Uws.Stream
import DemoCode.Uws.Reads
import DemoCode.Uws.ReadRuns
import DemoCode.Uws.Sending
