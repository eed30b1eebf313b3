import Xv6Rework.Data.Balance
import Xv6Rework.Drivers.Console
import Xv6Rework.Drivers.IdeProtocol
import Xv6Rework.Drivers.Mp
import Xv6Rework.Fs.Bcache
import Xv6Rework.Fs.GroupCommit
import Xv6Rework.Fs.MountState
import Xv6Rework.Fs.RefCount
import Xv6Rework.Ipc.Pipe
import Xv6Rework.Kernel.ExecResult
import Xv6Rework.Kernel.Syscall
import Xv6Rework.Kernel.Tree
import Xv6Rework.Lock.Semaphore
import Xv6Rework.Lock.Spinlock
import Xv6Rework.Mem.Memmove
import Xv6Rework.Sched.Accounting
import Xv6Rework.Sched.Claim
import Xv6Rework.Sched.Disposition
import Xv6Rework.Sched.Pid
import Xv6Rework.Sched.Slots
import Xv6Rework.Sched.WakeAll
import Xv6Rework.User.Grep
import Xv6Rework.User.Login
import Xv6Rework.User.MallocSize
import Xv6Rework.User.MkfsGeometry
import Xv6Rework.User.ShGrammar
