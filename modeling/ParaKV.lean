import ParaKV.Lib.TracedProgram
import ParaKV.Lib.LogMap
import ParaKV.Lib.HashOrder
import ParaKV.Lib.LittleEndian
import ParaKV.Lib.StepRun
import ParaKV.Lib.Transducer
import ParaKV.Lib.Fairness
import ParaKV.Lib.Interleaving
import ParaKV.Lib.OwnedSlots
import ParaKV.Lib.SlotProtocol
import ParaKV.Lib.VersionStack
import ParaKV.Lib.ByteStore
import ParaKV.Lib.ReflectedCrc
import ParaKV.Core.State
import ParaKV.Segment.Base
import ParaKV.Segment.File
import ParaKV.Segment.FileSpec
import ParaKV.Segment.Manager
import ParaKV.Segment.ManagerSpec
import ParaKV.Segment.CompactionRules
import ParaKV.Segment.Classification
import ParaKV.Segment.Accounting
import ParaKV.Segment.SavedState
import ParaKV.Segment.StateFile
import ParaKV.Segment.Bytes
import ParaKV.Segment.BytesSpec
import ParaKV.Segment.Media
import ParaKV.Segment.ByteLog
import ParaKV.Segment.HotCold
import ParaKV.Segment.Interchange
import ParaKV.Segment.ByteCounters
import ParaKV.Segment.Batches
import ParaKV.Index.Key
import ParaKV.Index.Wal
import ParaKV.Index.WalCodec
import ParaKV.Index.Operations
import ParaKV.Index.Durability
import ParaKV.Index.Ownership
import ParaKV.Index.CrashSafety
import ParaKV.Index.Recovery
import ParaKV.Index.Faults
import ParaKV.Index.Compaction
import ParaKV.Index.CompactionSafety
import ParaKV.Index.Runs
import ParaKV.Index.LogWriter
import ParaKV.Index.TornTail
import ParaKV.Index.FailedOpen
import ParaKV.Index.FailedCheckpoint
import ParaKV.Index.Sessions
import ParaKV.Index.CompactionRuns
import ParaKV.Index.CrashLeaks
import ParaKV.Index.Bookkeeping
import ParaKV.Index.Reclaiming
import ParaKV.Index.Leaks
import ParaKV.Concurrent.Machine
import ParaKV.Concurrent.Slots
import ParaKV.Concurrent.SlotRuns
import ParaKV.Concurrent.Reading
import ParaKV.Concurrent.Logging
import ParaKV.Concurrent.LogRuns
import ParaKV.Concurrent.WriteAhead
import ParaKV.Concurrent.ReadRuns
import ParaKV.Storage.Backend
import ParaKV.Storage.Simulation
import ParaKV.Storage.Restart
import ParaKV.Storage.Geometry
import ParaKV.Storage.Lifetimes
import ParaKV.Storage.Namespaces
import ParaKV.Storage.Directories
import ParaKV.Service.Batch
import ParaKV.Concurrent.Rollback
import ParaKV.Index.Histories
import ParaKV.Index.OutOfSpace
import ParaKV.Concurrent.Sections
import ParaKV.Concurrent.FullOrder
import ParaKV.Segment.Faults
import ParaKV.Index.FailedCalls
import ParaKV.Index.FailedRuns
import ParaKV.Lib.Containers
import ParaKV.Cache.Lfuda
import ParaKV.Cache.Representation
import ParaKV.Cache.AgeQueue
import ParaKV.Cache.Aging
import ParaKV.Cache.Runs
import ParaKV.Cache.Eviction
import ParaKV.Storage.Rebuild
import ParaKV.Storage.Tracking
import ParaKV.Storage.RebuildRuns
import ParaKV.Concurrent.Backend
import ParaKV.Concurrent.InsertIfAbsent
import ParaKV.Segment.Regions
import ParaKV.Segment.RegionRuns
import ParaKV.Concurrent.Threads
import ParaKV.Concurrent.Solo
import ParaKV.Concurrent.Serial
import ParaKV.Concurrent.Progress
import ParaKV.Storage.Persistence
import ParaKV.Service.Calls
import ParaKV.Service.Machine
import ParaKV.Service.Refinement
import ParaKV.Service.Restarts
import ParaKV.Storage.Evicting
