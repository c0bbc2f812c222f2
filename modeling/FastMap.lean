import FastMap.Lib.BinHeap
import FastMap.Lib.CacheLine
import FastMap.Lib.InsertionSort
import FastMap.Lib.KeyMap
import FastMap.Lib.LockTable
import FastMap.Lib.Loop
import FastMap.Lib.Rotation
import FastMap.Lib.Run
import FastMap.Lib.SearchTree
import FastMap.State
import FastMap.Queues
import FastMap.PageMap
import FastMap.Mappings
import FastMap.WriteBack
import FastMap.Faults
import FastMap.Files
import FastMap.Placement
import FastMap.Effects
import FastMap.Batches
import FastMap.Sync
import FastMap.Teardown
import FastMap.Resolve
import FastMap.System
import FastMap.Accounting
import FastMap.Unlink
import FastMap.Tables
import FastMap.Coherence
import FastMap.Descriptors
import FastMap.Threads
import FastMap.Locks
import FastMap.Stages
import FastMap.Interleave
import FastMap.FaultSteps
import FastMap.WriterSteps
import FastMap.Charts
import FastMap.Schedules
import FastMap.Writers
import FastMap.Entries
import FastMap.AreaRuns
import FastMap.Backing
import FastMap.InodeCache
import FastMap.Custody
import FastMap.Closing
import FastMap.Requests
import FastMap.Outcomes
import FastMap.Unmapping
import FastMap.Openers
import FastMap.ReadWrite
import FastMap.Contents
import FastMap.Isolation
import FastMap.MergedWrites
import FastMap.FreeLists
import FastMap.NumaDistances
import FastMap.PageIo
import FastMap.TlbBatches
import FastMap.Linkage
import FastMap.KWayMerge
import FastMap.Lifecycle
import FastMap.AllocRatios
import FastMap.Races
import FastMap.Durability
import FastMap.Initialisation
import FastMap.RequestWords
import FastMap.Remap
import FastMap.Purge
import FastMap.Collection
import FastMap.RawRelease
import FastMap.Capacity
import FastMap.Overruns
import FastMap.SlotRuns
import FastMap.HeapBounds
import FastMap.SyncSchedules
import FastMap.Truncation
import FastMap.RbTrees
import FastMap.HeapArray
import FastMap.RmapWords
import FastMap.BitmapIoctls
import FastMap.Binding
import FastMap.Priorities
import FastMap.CacheClear
import FastMap.Unload
import FastMap.ResetFields
import FastMap.Lib.Fallible
import FastMap.Lib.Holdings
import FastMap.LowerFs
import FastMap.Stacking
import FastMap.StackCalls
import FastMap.StackRuns
import FastMap.StackRefs
import FastMap.StackEffects
import FastMap.StackLedger
import FastMap.StackSession
import FastMap.StackCoherence
import FastMap.StackProgress
import FastMap.StackReturns
import FastMap.OpenViews
import FastMap.PageWaits
import FastMap.Failures
import FastMap.Lib.LockOrder
import FastMap.SpinLocks
import FastMap.Images
import FastMap.Permissions
import FastMap.LockSections
import FastMap.LockTraces
import FastMap.BlockSteps
import FastMap.SharedMemory
