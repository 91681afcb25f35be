import RtThread.Lib.Transition
import RtThread.Lib.Word
import RtThread.Lib.Ring
import RtThread.Lib.Chain
import RtThread.Lib.Crc
import RtThread.Lib.Pool
import RtThread.Lib.SkipList
import RtThread.Lib.Bytes
import RtThread.Lib.Tiling
import RtThread.Lib.Runs
import RtThread.Lib.Rings
import RtThread.Lib.Rotation
import RtThread.Lib.Sorted
import RtThread.Lib.Flags
import RtThread.Lib.Stateful
import RtThread.Lib.Counting
import RtThread.Ipc.Base
import RtThread.Ipc.Calls
import RtThread.Ipc.Semaphore
import RtThread.Ipc.Mutex
import RtThread.Ipc.MutexRuns
import RtThread.Ipc.MutexPriority
import RtThread.Ipc.MutexOwner
import RtThread.Ipc.MutexSignals
import RtThread.Ipc.Counters
import RtThread.Ipc.Mailbox
import RtThread.Ipc.MailboxRuns
import RtThread.Ipc.MessageQueue
import RtThread.Ipc.MessageQueueRuns
import RtThread.Ipc.MessageQueueSlots
import RtThread.Ipc.MessageQueueDeque
import RtThread.Ipc.Event
import RtThread.Ipc.EventRuns
import RtThread.Ipc.EventOrder
import RtThread.Sched.Bitmap
import RtThread.Sched.Scheduler
import RtThread.Sched.SchedulerRuns
import RtThread.Sched.Dispatch
import RtThread.Sched.TimeSlice
import RtThread.Sched.WaitLists
import RtThread.Sched.ReleaseInversion
import RtThread.Sched.WaitOrder
import RtThread.Sched.WaitOrderRuns
import RtThread.Sched.SmpReady
import RtThread.Clock.Timer
import RtThread.Clock.TimerRuns
import RtThread.Clock.TimerLinks
import RtThread.Clock.TimerCheck
import RtThread.Clock.TimerDrain
import RtThread.Clock.TimerCallbacks
import RtThread.Clock.SoftTimer
import RtThread.Memory.SmallMem
import RtThread.Memory.SmallMemChain
import RtThread.Memory.SmallMemBlocks
import RtThread.Memory.SmallMemOps
import RtThread.Memory.SmallMemRuns
import RtThread.Memory.SmallMemSearch
import RtThread.Memory.SmallMemLowest
import RtThread.Memory.SmallMemSizes
import RtThread.Memory.SmallMemContent
import RtThread.Memory.MemPool
import RtThread.Memory.MemPoolRuns
import RtThread.Memory.MemPoolFormat
import RtThread.Ipc.SignalMask
import RtThread.Memory.Pages
import RtThread.Memory.Slab
import RtThread.Memory.SlabZones
import RtThread.Memory.SlabLists
import RtThread.Memory.SlabOps
import RtThread.Memory.SlabRuns
import RtThread.Memory.SlabBytes
import RtThread.Memory.SlabContent
import RtThread.Memory.SlabCalls
import RtThread.Memory.SlabRealloc
import RtThread.Memory.MemHeap
import RtThread.Memory.MemHeapItems
import RtThread.Memory.MemHeapBlocks
import RtThread.Memory.MemHeapOps
import RtThread.Memory.MemHeapCalls
import RtThread.Memory.MemHeapRuns
import RtThread.Memory.MemHeapBytes
import RtThread.Memory.MemHeapContent
import RtThread.Memory.AllocFails
import RtThread.Memory.AllocSizes
import RtThread.Memory.ReallocKeeps
import RtThread.Memory.ReallocShrinks
import RtThread.Dfs.FdTable
import RtThread.Dfs.NormalizePath
import RtThread.Dfs.NormalizeInPlace
import RtThread.Dfs.Mount
import RtThread.Dfs.Lookup
import RtThread.Dfs.NormalizeResolves
import RtThread.Drivers.RingBuffer
import RtThread.Drivers.RingBufferForce
import RtThread.Drivers.DataQueue
import RtThread.Drivers.DataQueueRuns
import RtThread.Drivers.RingBlkBuf
import RtThread.Drivers.RingBlkBufRuns
import RtThread.Drivers.RingBlkQueue
import RtThread.Lib.Fitting
import RtThread.Drivers.RingBlkCalls
import RtThread.Drivers.RingBlkInside
import RtThread.Drivers.Device
import RtThread.Drivers.SerialOpen
import RtThread.Drivers.SerialRx
import RtThread.Drivers.SerialDmaRx
import RtThread.Drivers.SerialDmaTx
import RtThread.Drivers.WorkItems
import RtThread.Drivers.WorkCancel
import RtThread.Drivers.WorkQueue
import RtThread.Drivers.Pipe
import RtThread.Drivers.Completion
import RtThread.Drivers.WaitQueue
import RtThread.Drivers.PipeWait
import RtThread.Drivers.PipeDevice
import RtThread.Drivers.DataQueueWaits
import RtThread.Pthreads.Barrier
import RtThread.Pthreads.Rwlock
import RtThread.Pthreads.RwlockReaders
import RtThread.Pthreads.RwlockDestroy
import RtThread.Pthreads.Cond
import RtThread.Vbus.PrioQueue
import RtThread.Vbus.PrioQueueRuns
import RtThread.Net.AtClient
import RtThread.Net.AtResponses
import RtThread.Finsh.Node
import RtThread.Finsh.Parser
import RtThread.Finsh.Parentheses
import RtThread.Finsh.Vm
import RtThread.Finsh.Compiler
import RtThread.Finsh.Expr
import RtThread.Finsh.ParserGrammar
import RtThread.Finsh.Codegen
import RtThread.Finsh.VmRuns
import RtThread.Finsh.Correct
import RtThread.Finsh.Widths
import RtThread.Finsh.Instructions
import RtThread.Finsh.Increments
import RtThread.Finsh.StaleStack
import RtThread.Finsh.StaleLines
import RtThread.Finsh.Lookup
import RtThread.Finsh.CodeSize
import RtThread.Finsh.Token
import RtThread.Finsh.TokenScan
import RtThread.Finsh.Literals
import RtThread.Finsh.LineEnd
import RtThread.Finsh.Heap
import RtThread.Finsh.HeapBlocks
import RtThread.Finsh.HeapTiles
import RtThread.Finsh.HeapOps
import RtThread.Finsh.HeapTake
import RtThread.Finsh.HeapCollect
import RtThread.Finsh.HeapRuns
import RtThread.Finsh.HeapStrings
import RtThread.Shell.Strings
import RtThread.Shell.Auth
import RtThread.Shell.MshSplit
import RtThread.Shell.LineEditor
import RtThread.Shell.LineBuffer
import RtThread.Shell.History
import RtThread.Shell.Editor
import RtThread.Shell.EditorRuns
import RtThread.Kservice.Vsnprintf
import RtThread.Kservice.Verbatim
import RtThread.Kservice.Truncation
import RtThread.Kservice.Compare
import RtThread.Kservice.Memory
import RtThread.Kservice.Integers
import RtThread.Nb101.Connect
import RtThread.Nb101.Uart
import RtThread.Nb101.LineBuffer
import RtThread.Nb101.Console
import RtThread.Utilities.Ymodem
import RtThread.Utilities.YmodemDevice
import RtThread.Utilities.YmodemFraming
import RtThread.Utilities.YmodemCrc
import RtThread.Lib.Overlay
import RtThread.Lib.Framing
import RtThread.Memory.MemHeapStore
import RtThread.Dfs.Ramfs
import RtThread.Dfs.RamfsFiles
import RtThread.Dfs.RamfsBlocks
import RtThread.Dfs.RamfsRuns
import RtThread.Dfs.RamfsLost
import RtThread.Dfs.Poll
import RtThread.Dfs.PollRuns
import RtThread.Net.AtReceive
import RtThread.Sched.Defunct
import RtThread.Sched.Idle
import RtThread.Lib.CommonPrefix
import RtThread.Shell.Complete
