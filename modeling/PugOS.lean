import PugOS.Transition
import PugOS.Ring
import PugOS.Pipe
import PugOS.MemRange
import PugOS.MemRangeSet
import PugOS.KAlloc
import PugOS.KAllocInv
import PugOS.ExitWait
import PugOS.ExitWaitInv
import PugOS.JournalRotate
import PugOS.ChkFSWrite
import PugOS.VfsRefs
import PugOS.JournalTid
import PugOS.JournalShare
import PugOS.JournalBounds
import PugOS.JournalCrash
import PugOS.ShiftRegister
import PugOS.Crc32c
import PugOS.BufCacheBusy
import PugOS.ChkFSRefs
import PugOS.FsckSound
import PugOS.Keyboard
import PugOS.InodeLock
import PugOS.ProcTree
import PugOS.ExitRelease
import PugOS.WaitOnce
import PugOS.WaitQueue
import PugOS.Ahci
import PugOS.KAllocTile
import PugOS.KAllocMerge
import PugOS.SharedOffset
import PugOS.UserMemory
import PugOS.PtIter
import PugOS.PageWalk
import PugOS.ForkCopy
import PugOS.ElfLoad
import PugOS.Execv
import PugOS.ExecChecks
import PugOS.ExecArgs
import PugOS.ExecFail
import PugOS.ChkFSFrame
import PugOS.ChkFSNext
import PugOS.ChkFSFailWrite
import PugOS.BufCacheRefs
import PugOS.BufCacheLoaded
import PugOS.BlockAlloc
import PugOS.OpenFail
import PugOS.Directory
import PugOS.Namespace
import PugOS.VfsFork
import PugOS.VnodeRead
import PugOS.NumText
import PugOS.Console
import PugOS.Shell
import PugOS.Symtab
import PugOS.KList
import PugOS.Spinlock
import PugOS.MkfsShuffle
import PugOS.MkfsRead
