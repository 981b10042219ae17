import OsKernel.Lib.Bytes
import OsKernel.Lib.Runs
import OsKernel.Lib.Writes
import OsKernel.Common.Sem
import OsKernel.Fs.Defines
import OsKernel.Fs.Cache
import OsKernel.Fs.Commit
import OsKernel.Fs.Crash
import OsKernel.Fs.LogSys
import OsKernel.Fs.LogSpace
import OsKernel.Fs.LogArea
import OsKernel.Fs.GroupCommit
import OsKernel.Fs.CacheSys
import OsKernel.Fs.OneHolder
import OsKernel.Fs.StaleReload
import OsKernel.Fs.CacheList
import OsKernel.Fs.BlockStore
import OsKernel.Kernel.Mem
import OsKernel.Kernel.Slab
import OsKernel.Kernel.SlabRuns
import OsKernel.Fs.Pipe
import OsKernel.Kernel.Console
import OsKernel.Fs.FileTable
import OsKernel.Fs.FileWrite
import OsKernel.Kernel.Exit
import OsKernel.Fs.Inode
import OsKernel.Lib.Owner
import OsKernel.Fs.FileBlocks
import OsKernel.Fs.InodeView
import OsKernel.Fs.InodeClear
import OsKernel.Fs.InodeContent
import OsKernel.Fs.Bitmap
import OsKernel.Fs.BlockOwner
import OsKernel.Lib.SlotMap
import OsKernel.Common.CString
import OsKernel.Fs.DirEntry
import OsKernel.Fs.Directory
import OsKernel.Kernel.Namex
import OsKernel.Common.SemTokens
import OsKernel.Kernel.PipeEnds
import OsKernel.User.Mkfs
import OsKernel.Lib.Fallible
import OsKernel.User.MkfsImage
import OsKernel.User.MkfsMount
import OsKernel.Kernel.Sched
import OsKernel.Kernel.RunQueue
import OsKernel.Common.Pid
import OsKernel.Kernel.ProcTree
import OsKernel.Lib.Forest
import OsKernel.Kernel.WaitExit
import OsKernel.Lib.Radix
import OsKernel.Lib.Words
import OsKernel.Kernel.PageTable
import OsKernel.Kernel.AddressSpace
import OsKernel.Kernel.PageFault
import OsKernel.Kernel.ForkFiles
import OsKernel.Kernel.ForkReturn
import OsKernel.Kernel.PageMap
import OsKernel.Kernel.DeepSleep
import OsKernel.Driver.Virtqueue
import OsKernel.Kernel.Exec
import OsKernel.Kernel.ExecLoad
import OsKernel.Kernel.AccessMode
import OsKernel.Fs.InodeRefs
import OsKernel.Lib.NameTree
import OsKernel.Kernel.PathWalk
import OsKernel.Kernel.UserRange
import OsKernel.Lib.Links
import OsKernel.Kernel.PageSharing
import OsKernel.Kernel.Sbrk
import OsKernel.Kernel.AddressLock
import OsKernel.Kernel.UserMemory
import OsKernel.Kernel.Copyout
import OsKernel.Kernel.ExecData
import OsKernel.Kernel.ExecStack
import OsKernel.Fs.BlockAlloc
import OsKernel.Kernel.Kill
