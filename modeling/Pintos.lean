import Pintos.Lib.OrderedList
import Pintos.Lib.StableQueue
import Pintos.Lib.Execution
import Pintos.Lib.Arrivals
import Pintos.Project1.SleepTimes
import Pintos.Project1.AwakeWalk
import Pintos.Project2.Semaphores
import Pintos.Project2.Donation
import Pintos.Project2.Preemption
import Pintos.Project2.ReadyQueue
import Pintos.Project2.Recipients
import Pintos.Project2.WakeUp
import Pintos.Project2.CondOrder
import Pintos.Project2.DonationWalk
import Pintos.Project2.SafeAcquire
import Pintos.Project2.RemoveWalk
import Pintos.Project3.ExecWait
import Pintos.Project3.FileTable
import Pintos.Project3.Syscall
import Pintos.Project4.DemandLoading
import Pintos.Project4.FileLifetime
import Pintos.Project4.PageTable
import Pintos.Project4.FileTable
import Pintos.Project4.Handler
import Pintos.Project4.ExitStatus
import Pintos.Project4.Stranded
import Pintos.Project4.LoadResult
import Pintos.Project4.PageFault
import Pintos.Project4.Buffers
import Pintos.Project4.Descriptors
import Pintos.Project4.ReadResult
import Pintos.Project4.InitialStack
import Pintos.Project4.ExecCleanup
import Pintos.Project2.NoFault
import Pintos.Project2.Inversion
import Pintos.Project1.RoundRobin
import Pintos.Project1.Calibration
import Pintos.Project4.LoadSafety
import Pintos.Project4.Isolation
import Pintos.Project3.UserMemory
import Pintos.Project4.StartProcess
import Pintos.Project1.NoFault
import Pintos.Project2.SelfTest
import Pintos.Project2.AlarmClock
