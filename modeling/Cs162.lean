import Cs162.Devices.Partition
import Cs162.Filesys.Archive
import Cs162.Filesys.CacheDeadlock
import Cs162.Filesys.CacheRefines
import Cs162.Filesys.CacheUnique
import Cs162.Filesys.DirMap
import Cs162.Filesys.OpenFiles
import Cs162.Filesys.OwnershipRuns
import Cs162.Filesys.Release
import Cs162.Filesys.SharedMonitor
import Cs162.Kernel.Division
import Cs162.Kernel.HashTable
import Cs162.Kernel.HeapSort
import Cs162.Kernel.ListSort
import Cs162.Kvstore.Dump
import Cs162.Kvstore.Failover
import Cs162.Kvstore.FullCondition
import Cs162.Kvstore.LogFlush
import Cs162.Kvstore.Promise
import Cs162.Kvstore.ReferenceBits
import Cs162.Kvstore.Replication
import Cs162.Kvstore.SetLocks
import Cs162.Kvstore.ThreadPool
import Cs162.Threads.LockList
import Cs162.Threads.MallocSound
import Cs162.Threads.MlfqsRange
import Cs162.Threads.Semaphore
import Cs162.Threads.SetNice
import Cs162.Threads.SleepTime
import Cs162.Threads.StrictPriority
import Cs162.Userprog.ArgumentFrame
import Cs162.Userprog.Descriptors
import Cs162.Userprog.ExecResult
import Cs162.Userprog.NameBuffers
import Cs162.Userprog.NoPanic
import Cs162.Userprog.Overlaps
import Cs162.Userprog.WaitResult
import Cs162.Vm.ClockVictim
import Cs162.Vm.MappingHistory
import Cs162.Vm.Preservation
import Cs162.Vm.SwapSlots
