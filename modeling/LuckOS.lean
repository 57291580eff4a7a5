import LuckOS.Runs
import LuckOS.RunCosts
import LuckOS.Outcome
import LuckOS.AtaDevice
import LuckOS.Bitmap
import LuckOS.CopyOnWrite
import LuckOS.Paging
import LuckOS.PagingStore
import LuckOS.PagingKernel
import LuckOS.PagingUser
import LuckOS.PagingRelease
import LuckOS.PagingClone
import LuckOS.PagingBoot
import LuckOS.FrameReservation
import LuckOS.UserSpaces
import LuckOS.ForkRefinement
import LuckOS.KernelStores
import LuckOS.StackArguments
import LuckOS.ThreadNames
import LuckOS.SystemRuns
import LuckOS.ProcessFrames
import LuckOS.SharedBuffers
import LuckOS.PagingLocality
import LuckOS.CowInterleaving
import LuckOS.UninterruptedFaults
import LuckOS.CowSettled
import LuckOS.CowHandler
import LuckOS.CowProcessSteps
import LuckOS.CowIsolation
import LuckOS.CopyWindow
import LuckOS.Traced
import LuckOS.ByteMemory
import LuckOS.HardDisk
import LuckOS.Tiling
import LuckOS.OrderedArray
import LuckOS.Kheap
import LuckOS.KheapBlocks
import LuckOS.KheapAlloc
import LuckOS.KheapFree
import LuckOS.KheapInvariant
import LuckOS.KheapEnds
import LuckOS.KheapExpansions
import LuckOS.KheapBestFit
import LuckOS.KheapSizes
import LuckOS.KheapRoom
import LuckOS.KheapCapacity
import LuckOS.KheapFragments
import LuckOS.LinkedList
import LuckOS.LinkedListRuns
import LuckOS.Scheduler
import LuckOS.KernelThreads
import LuckOS.ThreadCode
import LuckOS.BlockingQueues
import LuckOS.BlockingLocks
import LuckOS.TaskQueues
import LuckOS.TaskInvariant
import LuckOS.TaskRuns
import LuckOS.TimeSlices
import LuckOS.HashTable
import LuckOS.IdPool
import LuckOS.Processes
import LuckOS.ProcessInvariant
import LuckOS.ProcessForks
import LuckOS.ProcessWaits
import LuckOS.ProcessExits
import LuckOS.ProcessRuns
import LuckOS.ProcessChildren
import LuckOS.ProcessPending
import LuckOS.ProcessWakeups
import LuckOS.ExecThreads
import LuckOS.ExecTables
import LuckOS.ExecExits
import LuckOS.ExecSteps
import LuckOS.ExecRuns
import LuckOS.CloneFrames
import LuckOS.ClonePages
import LuckOS.SharedIdPool
import LuckOS.UninterruptedIds
import LuckOS.ChainedTable
import LuckOS.IdPoolHistory
import LuckOS.Formatters
import LuckOS.FormatScan
import LuckOS.Monitor
import LuckOS.MonitorScreen
import LuckOS.Mutexes
import LuckOS.RingBuffer
import LuckOS.KeyboardInput
import LuckOS.KeyboardWakeups
import LuckOS.FileSystem
import LuckOS.FileReads
import LuckOS.DiskSectors
import LuckOS.ReadDisk
import LuckOS.LoadElf
import LuckOS.LoadElfRuns
import LuckOS.UserStacks
import LuckOS.UserStackRuns
import LuckOS.ProcessPointers
import LuckOS.LoadedDirectory
import LuckOS.BlockLedger
import LuckOS.HeapLedger
import LuckOS.FreedProcesses
import LuckOS.HeapLedgerTables
import LuckOS.HeapHoldings
import LuckOS.HeapLedgerSteps
import LuckOS.HeapLedgerLives
import LuckOS.HeapLedgerInvariant
import LuckOS.HeapLedgerRuns
import LuckOS.HashTableIterator
import LuckOS.ReleasePages
import LuckOS.Shell
import LuckOS.ShellRuns
import LuckOS.ShellWords
import LuckOS.ShellEcho
import LuckOS.DeadResources
import LuckOS.DeadResourceLists
import LuckOS.DeadResourceProducers
import LuckOS.DeadResourceCleaner
import LuckOS.DeadResourceRuns
import LuckOS.BitmapSets
import LuckOS.OrderedArrayLoops
import LuckOS.X86
import LuckOS.Unwinding
import LuckOS.TrapCode
import LuckOS.TrapMachine
import LuckOS.ThreadContexts
import LuckOS.TrapInvariant
import LuckOS.TrapEntry
import LuckOS.TrapExit
import LuckOS.TrapSwitch
import LuckOS.TrapStart
import LuckOS.TrapRefinement
import LuckOS.Syscalls
import LuckOS.Keyhelp
import LuckOS.KeyEvents
import LuckOS.KeyDecoding
import LuckOS.KeyboardCharacters
import LuckOS.PageWalk
import LuckOS.BootPaging
import LuckOS.BootKernel
import LuckOS.FrameContents
import LuckOS.FreeFrames
import LuckOS.PhysicalPaging
import LuckOS.PhysicalRelease
import LuckOS.PhysicalTables
import LuckOS.PhysicalAccess
import LuckOS.PhysicalDirectory
import LuckOS.PhysicalUserRelease
import LuckOS.PhysicalFaults
import LuckOS.PhysicalHeapFaults
import LuckOS.PhysicalLending
import LuckOS.PhysicalClone
import LuckOS.PhysicalCloned
import LuckOS.PhysicalBoot
import LuckOS.PhysicalEntries
import LuckOS.PhysicalOps
import LuckOS.PhysicalSpares
import LuckOS.PhysicalOverwrites
import LuckOS.PhysicalRuns
import LuckOS.PhysicalAccounts
