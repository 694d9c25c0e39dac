import AcoOs.PageFrame
import AcoOs.Tiling
import AcoOs.Machine
import AcoOs.BuddyAllocator
import AcoOs.BuddyInvariant
import AcoOs.BuddySequential
import AcoOs.BuddyRun
import AcoOs.BuddyBoot
import AcoOs.BuddyPools
import AcoOs.BuddyQuiescence
import AcoOs.BuddyConcurrent
import AcoOs.BuddyLinear
import AcoOs.WaitCycle
import AcoOs.BuddyLocking
import AcoOs.IndexQueue
import AcoOs.PageAllocator
import AcoOs.SlabAllocator
import AcoOs.SlabInvariant
import AcoOs.SlabRun
import AcoOs.SlabLayout
import AcoOs.SlabCalls
import AcoOs.SlabAssert
import AcoOs.SlabSetup
import AcoOs.PageCheck
import AcoOs.PageBoot
import AcoOs.RwLock
import AcoOs.RadixTable
import AcoOs.Sv39
import AcoOs.PageTable
import AcoOs.PageTableStep
import AcoOs.PageTableWalk
import AcoOs.PageTableUnmap
import AcoOs.PageTableRun
import AcoOs.PageTableFree
import AcoOs.PageTableRoom
import AcoOs.PageTableCalls
import AcoOs.RadixSweep
import AcoOs.PageTableHoles
import AcoOs.EarlyVm
import AcoOs.EarlyTable
import AcoOs.EarlyWalk
import AcoOs.AddressSpaces
import AcoOs.SearchTree
import AcoOs.VmaArea
import AcoOs.VirtualMemory
import AcoOs.VmInvariant
import AcoOs.VmMap
import AcoOs.VmUnmap
import AcoOs.VmFree
import AcoOs.VmMmap
import AcoOs.VmDup
import AcoOs.VmBoot
import AcoOs.VmRun
import AcoOs.VmOrder
import AcoOs.VmMachine
import AcoOs.VmCalls
import AcoOs.VmCopy
import AcoOs.VmContents
import AcoOs.VmReferences
import AcoOs.VmTidy
import AcoOs.VmTranslation
import AcoOs.VmCollide
import AcoOs.LockTrace
import AcoOs.LockSections
import AcoOs.VmCaches
import AcoOs.SlabMachine
import AcoOs.PageTableLocks
import AcoOs.VmLocks
import AcoOs.VmaObjects
import AcoOs.WalkAgreement
import AcoOs.EarlyPages
import AcoOs.EarlyExhaustion
import AcoOs.EarlyKernel
import AcoOs.BlockOrder
import AcoOs.StringCopy
import AcoOs.StringHash
import AcoOs.Printf
import AcoOs.StaleMemory
import AcoOs.CpuCritical
import AcoOs.LinkedRing
import AcoOs.Memblock
import AcoOs.MemblockRun
import AcoOs.DeviceTree
import AcoOs.DeviceTokens
import AcoOs.MemoryNode
import AcoOs.VmIntervals
import AcoOs.Satp
import AcoOs.PageAddress
import AcoOs.VmExposure
import AcoOs.TreePath
import AcoOs.LinkedTree
import AcoOs.AvlBalance
import AcoOs.AvlNode
import AcoOs.AvlErase
import AcoOs.AvlWalks
import AcoOs.AvlRuns
import AcoOs.LinkedCycle
import AcoOs.ListHead
import AcoOs.VmaNodes
import AcoOs.Vsnprintf
import AcoOs.VsnprintfText
import AcoOs.VsnprintfNumbers
import AcoOs.VsnprintfScan
