import ChaosKernel.Fs.BatchLock
import ChaosKernel.Fs.Eviction
import ChaosKernel.Fs.Invalidation
import ChaosKernel.Fs.Journal
import ChaosKernel.Fs.MountPoints
import ChaosKernel.Fs.Naming
import ChaosKernel.Fs.Resolve
import ChaosKernel.Fs.Sweep
import ChaosKernel.Ipc.EndOfStream
import ChaosKernel.Ipc.PipeEnds
import ChaosKernel.Ipc.SemReady
import ChaosKernel.Ipc.SemUndo
import ChaosKernel.Ipc.WakeUps
import ChaosKernel.Memory.BuddyCoalesce
import ChaosKernel.Memory.Contiguous
import ChaosKernel.Memory.CowCounts
import ChaosKernel.Memory.CowRace
import ChaosKernel.Memory.ForkMap
import ChaosKernel.Memory.Ownership
import ChaosKernel.Memory.PageLru
import ChaosKernel.Memory.PagePromises
import ChaosKernel.Memory.RangeCalls
import ChaosKernel.Memory.RangeTests
import ChaosKernel.Memory.RegionParts
import ChaosKernel.Memory.RingWrap
import ChaosKernel.Memory.Slab
import ChaosKernel.Memory.Zones
import ChaosKernel.Net.Ipv4
import ChaosKernel.Objects.Graph
import ChaosKernel.Proc.Capabilities
import ChaosKernel.Proc.Elf
import ChaosKernel.Proc.HandleRuns
import ChaosKernel.Proc.Inherit
import ChaosKernel.Proc.UserCopy
import ChaosKernel.Proc.Waits
import ChaosKernel.Rcore.Exec
import ChaosKernel.Rcore.PipePoll
import ChaosKernel.Rcore.SignalFrames
import ChaosKernel.Rcore.Wait4
import ChaosKernel.RcoreMemory.CowExt
import ChaosKernel.RcoreMemory.FreeArea
import ChaosKernel.RcoreMemory.UserChecks
import ChaosKernel.Sched.Yielding
import ChaosKernel.Sync.FutexCounts
import ChaosKernel.Sync.FutexWaits
import ChaosKernel.Sync.KernLockSafety
import ChaosKernel.Sync.Signals
import ChaosKernel.Sync.WaitQueue
import ChaosKernel.Sys.AccessModes
import ChaosKernel.Sys.Break
import ChaosKernel.Sys.CloseOnExec
import ChaosKernel.Sys.DupCalls
import ChaosKernel.Sys.ExecStack
import ChaosKernel.Sys.ForkCall
import ChaosKernel.Sys.InitSpared
import ChaosKernel.Sys.Mappings
import ChaosKernel.Sys.SigSet
import ChaosKernel.Sys.SignalMask
import ChaosKernel.Sys.Traps
import ChaosKernel.Sys.TwoWaits
import ChaosKernel.Time.OnTime
import ChaosKernel.Utils.Rotation
