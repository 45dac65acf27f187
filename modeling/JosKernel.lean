import JosKernel.LinkedList
import JosKernel.LabelledRun
import JosKernel.Outcome
import JosKernel.Machine
import JosKernel.FrameAlloc
import JosKernel.FrameAllocList
import JosKernel.FrameAllocInv
import JosKernel.FrameAllocFree
import JosKernel.FrameAllocRun
import JosKernel.Env
import JosKernel.EnvIds
import JosKernel.Sched
import JosKernel.SchedInv
import JosKernel.SchedStep
import JosKernel.SchedRun
import JosKernel.Destruction
import JosKernel.Effects
import JosKernel.Wakeups
import JosKernel.Waiting
import JosKernel.TaskOwners
import JosKernel.TaskQueue
import JosKernel.Swap
import JosKernel.SwapTrip
import JosKernel.SwapSlots
import JosKernel.Lru
import JosKernel.LruLists
import JosKernel.PageTable
import JosKernel.FrameUse
import JosKernel.PageTree
import JosKernel.PageMap
import JosKernel.Vma
import JosKernel.VmaLists
import JosKernel.AddressSpace
import JosKernel.Fault
import JosKernel.Areas
import JosKernel.Spaces
import JosKernel.Directories
import JosKernel.SpaceLife
import JosKernel.SpaceFork
import JosKernel.PageViews
import JosKernel.SpaceFault
import JosKernel.PageDedup
import JosKernel.UserMem
import JosKernel.Printfmt
import JosKernel.DiskProtocol
import JosKernel.SwapEntry
import JosKernel.SlotLeaks
import JosKernel.SyscallLocks
import JosKernel.ForkCopy
import JosKernel.PageAccounts
import JosKernel.TlbInsert
import JosKernel.SortedAreas
import JosKernel.AreaSplit
import JosKernel.AreaMerge
import JosKernel.SyscallMemory
import JosKernel.CreateSpot
import JosKernel.RangeChecks
import JosKernel.RangePages
import JosKernel.Unmap
import JosKernel.Protect
import JosKernel.PagesReturn
import JosKernel.RangeSplit
import JosKernel.Descriptors
import JosKernel.Sharing
import JosKernel.ForkFailure
import JosKernel.LoadIcode
import JosKernel.PageOut
import JosKernel.Populate
import JosKernel.HugeInsert
import JosKernel.PageFill
import JosKernel.RegionFill
import JosKernel.BinaryLoad
import JosKernel.DemandPage
import JosKernel.FaultLocal
import JosKernel.OldBytes
import JosKernel.SwapFault
import JosKernel.HugeFault
import JosKernel.Exhaustion
import JosKernel.EnvLookup
import JosKernel.Yielding
import JosKernel.LruBalance
import JosKernel.OomKill
import JosKernel.VmaCopy
import JosKernel.ReverseMap
import JosKernel.Reclaim
import JosKernel.BlockRefs
import JosKernel.EnvFree
import JosKernel.StrayPages
import JosKernel.PageIn
import JosKernel.BootFrames
import JosKernel.BootMap
import JosKernel.KernelRegions
import JosKernel.BootAlloc
import JosKernel.FrameRequests
import JosKernel.AddressMaps
import JosKernel.MmioMap
import JosKernel.Unmapped
import JosKernel.DebugInfo
import JosKernel.FormatScan
import JosKernel.StabContract
import JosKernel.BlockCopy
import JosKernel.Memmove
import JosKernel.PrintNum
import JosKernel.HugeOrigins
import JosKernel.KernelFrames
import JosKernel.EagerFork
import JosKernel.CString
import JosKernel.ConsoleInput
import JosKernel.EntryFlags
import JosKernel.Monitor
import JosKernel.BootLoad
import JosKernel.PrintBuffers
import JosKernel.Spinlock
import JosKernel.Strtol
