import CustomKernel.Policy.Failure
import CustomKernel.Policy.Exclusion
import CustomKernel.Policy.Yield
import CustomKernel.Sched.Preempt
import CustomKernel.Sched.Bonus
import CustomKernel.Sched.Slices
import CustomKernel.Sched.Completion
import CustomKernel.Proc.ChildTimes
import CustomKernel.Proc.Family
import CustomKernel.Fs.Flock
import CustomKernel.Fs.PipeFifo
import CustomKernel.Fs.CopyFiles
import CustomKernel.Time.WallClock
import CustomKernel.Time.Itimer
import CustomKernel.Ipc.MsgRuns
import CustomKernel.Net.FilterSafety
import CustomKernel.Net.Fragment
import CustomKernel.Locking.RwsemWake
import CustomKernel.Locking.SemaphoreInv
import CustomKernel.Jbd.Replay
import CustomKernel.Ioport.Allocate
import CustomKernel.Mm.Coalesce
import CustomKernel.Mm.BootmemRuns
import CustomKernel.Ipc.SemRuns
import CustomKernel.Fs.Deadlock
import CustomKernel.Fs.Ranges
import CustomKernel.Proc.Privilege
import CustomKernel.Ipc.MsgText
import CustomKernel.Mm.Vmalloc
import CustomKernel.Locking.RwsemSpinlock
