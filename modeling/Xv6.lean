import Xv6.Bio.Capacity
import Xv6.Console.Discipline
import Xv6.Fs.Paths
import Xv6.Fs.Shared
import Xv6.Grep.Lines
import Xv6.Intr.Nesting
import Xv6.Libc.Memmove
import Xv6.Libc.Printf
import Xv6.Log.Crash
import Xv6.Log.Reservation
import Xv6.Mkfs.Agree
import Xv6.Pipes.Bytes
import Xv6.Pipes.Wakeup
import Xv6.Procs.Agree
import Xv6.Procs.LostKill
import Xv6.Sh.Parser
import Xv6.Umalloc.Runs
import Xv6.Virtio.Protocol
import Xv6.Vm.ArgStack
import Xv6.Vm.Fork
import Xv6.Vm.Strings
