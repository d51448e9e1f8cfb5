import Xv6.Mutex.Wakeup
import Xv6.Boot.Mp
import Xv6.Vm.UnmapRange
import Xv6.User.Grep
import Xv6.User.Memmove
import Xv6.Vm.Walk
import Xv6.Kernel.ZombieProcess
import Xv6.Kernel.DeadThread
import Xv6.Kernel.KernelStack
import Xv6.Kernel.Join
import Xv6.Fssp.Termination
import Xv6.Log.Reservation
import Xv6.Kernel.SleepWakeup
import Xv6.Pipe.Stranded
import Xv6.Kernel.ExecAlone
import Xv6.File.Pinned
import Xv6.File.Cwd
import Xv6.Vm.UserPointer
import Xv6.Vm.SystemStore
import Xv6.Vm.ThreadFaults
import Xv6.Vm.FailedShare
import Xv6.Vm.ConcurrentSbrk
import Xv6.Exec.ArgBlock
import Xv6.Fssp.EveryLength
import Xv6.Mutex.InvalidId
import Xv6.Kernel.BornKilled
import Xv6.Kernel.Kill
import Xv6.Kernel.KthreadExit
import Xv6.Kernel.CpuVariables
import Xv6.Fs.Path
import Xv6.Fs.SharedOffset
import Xv6.Vm.FailedFork
