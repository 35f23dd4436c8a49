import GnuOS.Pmm.Coalescing
import GnuOS.Vmm.HeapRuns
import GnuOS.Vmm.Rollback
import GnuOS.Sched.Fairness
import GnuOS.Sched.Resources
import GnuOS.Ipc.Behaviour
import GnuOS.Ipc.Completion
import GnuOS.Boot.RoundTrip
import GnuOS.Workqueue.Wakeup
import GnuOS.Rcu.GracePeriod
import GnuOS.Rwlock.Progress
import GnuOS.Ipc.Identifiers
import GnuOS.Libc.Offsets
import GnuOS.Libc.Semaphore
import GnuOS.Acpi.Rsdp
import GnuOS.Boot.BlobSymbols
import GnuOS.Ldso.Relocation
import GnuOS.Ldso.Protocol
import GnuOS.Ldso.Image
import GnuOS.Syscall.Dispatch
import GnuOS.Syscall.Returns
import GnuOS.Sched.Selection
import GnuOS.Sched.Waking
import GnuOS.Vmm.LargePages
import GnuOS.Acpi.Subtables
import GnuOS.Console.Screen
import GnuOS.Console.Rendering
