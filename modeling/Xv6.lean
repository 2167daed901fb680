import Xv6.Bio.Refine
import Xv6.Console.Input
import Xv6.Disk.Failed
import Xv6.Disk.Files
import Xv6.Disk.Logged
import Xv6.File.Exact
import Xv6.FileWrite.Proofs
import Xv6.Grep.Lines
import Xv6.Ide.Queue
import Xv6.Kalloc.Refine
import Xv6.Kalloc.Runs
import Xv6.Killed.Proofs
import Xv6.KmemLock.Proofs
import Xv6.Log.Room
import Xv6.LogWait.Proofs
import Xv6.Mp.Mpinit
import Xv6.Pipe.Wakeup
import Xv6.Ptable.Kill
import Xv6.Ptable.Reap
import Xv6.Sh.Proofs
import Xv6.Sleep.Cpus
import Xv6.Smp.Race
import Xv6.Spinlock.Nest
import Xv6.Sys.Confine
import Xv6.Sys.Count
import Xv6.Sys.ExecArgs
import Xv6.Sys.Growproc
import Xv6.Sys.Isolation
import Xv6.Sys.Pgflt
import Xv6.Sys.Refine
import Xv6.Syscall.Args
import Xv6.Ulib.Memmove
import Xv6.Umalloc.Proofs
import Xv6.Vm.Dealloc
