import Pintos.Devices.Intq.Waiting
import Pintos.Devices.Partition.Chains
import Pintos.Filesys.Cache.Evict
import Pintos.Filesys.Directory.Map
import Pintos.Filesys.FreeMap
import Pintos.Filesys.Fsutil.Archive
import Pintos.Filesys.Inode.Locks
import Pintos.LibC.Arithmetic
import Pintos.LibC.Stdlib
import Pintos.LibKernel.Bitmap.Packed
import Pintos.LibKernel.Hash.Refinement
import Pintos.LibKernel.LinkedList.Theorems
import Pintos.Threads.Alarm.OnTime
import Pintos.Threads.Condition.Priority
import Pintos.Threads.Condition.Theorems
import Pintos.Threads.Donation.Theorems
import Pintos.Threads.Donation.Safety
import Pintos.Threads.Interleaved.Exclusion
import Pintos.Threads.Malloc.Accounting
import Pintos.Threads.Mlfqs.Drift
import Pintos.Threads.Mlfqs.Reported
import Pintos.Threads.RoundRobin
import Pintos.Threads.Semaphore
import Pintos.Threads.SharedLock.Wakeup
import Pintos.Userprog.CommandLine.InitialStack
import Pintos.Userprog.Descriptors.Exit
import Pintos.Userprog.Descriptors.Open
import Pintos.Userprog.Load.Demand
import Pintos.Userprog.Pagedir.Destroy
import Pintos.Userprog.Process.Lifetime
import Pintos.Userprog.Process.Wait
import Pintos.Userprog.Tasks.Exits
import Pintos.Vm.Capacity
import Pintos.Vm.Paging.Contents
import Pintos.Vm.Paging.Frames
import Pintos.Vm.Paging.Swap
import Pintos.Vm.Paging.Table
import Pintos.Vm.Swap
