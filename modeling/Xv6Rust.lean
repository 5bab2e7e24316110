import Xv6Rust.Runs
import Xv6Rust.LogMemory
import Xv6Rust.LogReservation
import Xv6Rust.PipeRing
import Xv6Rust.ProcTable
import Xv6Rust.ReadyQueue
import Xv6Rust.PidUnique
import Xv6Rust.SchedIntena
import Xv6Rust.Bytes
import Xv6Rust.LogDisk
import Xv6Rust.LogCrash
import Xv6Rust.DyadicBlocks
import Xv6Rust.IntrusiveList
import Xv6Rust.Kalloc
import Xv6Rust.BuddyShape
import Xv6Rust.BuddyCalls
import Xv6Rust.BuddyInit
import Xv6Rust.BuddyHeap
import Xv6Rust.VirtioDisk
import Xv6Rust.RadixTable
import Xv6Rust.Results
import Xv6Rust.Paging
import Xv6Rust.UserUnmap
import Xv6Rust.UserCopy
import Xv6Rust.DiskLayout
import Xv6Rust.InodeLayer
import Xv6Rust.BufferCache
import Xv6Rust.BufferCoherence
import Xv6Rust.Commands
import Xv6Rust.FsTransactions
import Xv6Rust.InodeRelease
import Xv6Rust.LogPins
import Xv6Rust.BlockOwnership
import Xv6Rust.ChildLedger
import Xv6Rust.FileContents
import Xv6Rust.FsRuns
import Xv6Rust.PageEffects
import Xv6Rust.PageMap
import Xv6Rust.UserBounds
import Xv6Rust.UserIsolation
import Xv6Rust.BlocksPassed
import Xv6Rust.ConsoleLine
import Xv6Rust.FileOffset
import Xv6Rust.KernelStacks
import Xv6Rust.LogSpans
import Xv6Rust.Monitors
import Xv6Rust.PipeWakeups
import Xv6Rust.ProcessPages
import Xv6Rust.ProcessTasks
import Xv6Rust.SleepLocks
import Xv6Rust.TaskRuntime
import Xv6Rust.CopyString
import Xv6Rust.CopyUser
import Xv6Rust.DirEntries
import Xv6Rust.DirMap
import Xv6Rust.ElfLoad
import Xv6Rust.SbrkLimits
import Xv6Rust.UserMutex
import Xv6Rust.BuddyRegions
import Xv6Rust.Mkfs
import Xv6Rust.MkfsAccepted
import Xv6Rust.MkfsNames
import Xv6Rust.ElfImage
import Xv6Rust.ExecFrames
import Xv6Rust.FileWrite
import Xv6Rust.ForkFailure
import Xv6Rust.LinkRevert
import Xv6Rust.NamexModes
import Xv6Rust.PipeEnds
import Xv6Rust.WaitPid
import Xv6Rust.BlockBitmap
import Xv6Rust.FixedPages
import Xv6Rust.LruList
import Xv6Rust.VirtioCounters
import Xv6Rust.UserStacks
import Xv6Rust.TreeChanges
import Xv6Rust.TreeLinks
import Xv6Rust.FsCrash
import Xv6Rust.ClockSleep
import Xv6Rust.Grep
import Xv6Rust.Malloc
import Xv6Rust.MonitorPhases
import Xv6Rust.ShellParse
import Xv6Rust.ShellRun
import Xv6Rust.SpinLocks
import Xv6Rust.UartOutput
