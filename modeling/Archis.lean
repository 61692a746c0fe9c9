import Archis.Mem.Heap
import Archis.Mem.MapUndo
import Archis.Paging.Exact
import Archis.Disk.Race
import Archis.Disk.Rescan
import Archis.Fat32.Format
import Archis.Fat32.Copies
import Archis.Fat32.Concurrent
import Archis.Fat32.Reopen
import Archis.Fat32.Walks
import Archis.Sync.Guard
import Archis.Sched.IssueSignal
import Archis.Sched.ProcessGroups
import Archis.Sched.UserArgs
import Archis.Libc.MallocSize
import Archis.Libc.Str
import Archis.Libc.PrintfInt
import Archis.Libc.Strtol
import Archis.Libc.Stream
import Archis.Libc.Cond
import Archis.Libc.Threads
import Archis.Sh.Safe
import Archis.Fs.MemFile
import Archis.Fs.ModuleFile
import Archis.Fs.Mount
import Archis.Fs.Stop
import Archis.Pipe.Eof
import Archis.Io.Irp
import Archis.Io.VirtBlk
import Archis.Io.Keyboard
import Archis.Io.TtyReads
import Archis.Io.Completion
import Archis.Io.Pci
import Archis.Sched.Cleanup
import Archis.Sync.RemoveLock
