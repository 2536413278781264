import Xv6.Bcache.Dry
import Xv6.Console.Delivery
import Xv6.Cpus.Exclusion
import Xv6.Cpus.Interrupts
import Xv6.Disk.Crash
import Xv6.Fs.Bitmap
import Xv6.Fs.Chunks
import Xv6.Fs.Coherence
import Xv6.Fs.Consistency
import Xv6.Fs.CrashConsistency
import Xv6.Fs.Paths
import Xv6.Fs.SharedWrites
import Xv6.Grep.Lines
import Xv6.GroupCommit.Reservation
import Xv6.Library.Memmove
import Xv6.Library.Printf
import Xv6.Malloc.Contract
import Xv6.Memory.Copies
import Xv6.Namespace.Directories
import Xv6.Namespace.Orphans
import Xv6.Pipes.Fifo
import Xv6.Procs.Kills
import Xv6.Procs.Pids
import Xv6.Procs.Reaping
import Xv6.Sched.Wakeup
import Xv6.Sleeplock.Safety
import Xv6.Ticks.Sleep
import Xv6.Uart.Output
import Xv6.Virtio.Bookkeeping
