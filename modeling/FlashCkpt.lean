import FlashCkpt.Library.Transition
import FlashCkpt.Library.ByteImage
import FlashCkpt.Library.SizeCut
import FlashCkpt.Library.Intervals
import FlashCkpt.Crypto.Pages
import FlashCkpt.Crypto.Channel
import FlashCkpt.Image.Format
import FlashCkpt.Image.Captured
import FlashCkpt.Image.Transfers
import FlashCkpt.Image.IncDelta
import FlashCkpt.Image.Fused
import FlashCkpt.Image.Coalesced
import FlashCkpt.Baseline.Dispatch
import FlashCkpt.Baseline.Run
import FlashCkpt.Baseline.IvReservation
import FlashCkpt.Gate.Protocol
import FlashCkpt.Gate.Release
import FlashCkpt.Gate.Quiescence
import FlashCkpt.Gate.Requests
import FlashCkpt.Core.Options
import FlashCkpt.Core.K3Counter
import FlashCkpt.Core.Batch
import FlashCkpt.Core.CpuSections
import FlashCkpt.Core.Main
import FlashCkpt.Restore.InApp
import FlashCkpt.Restore.RoundTrip
import FlashCkpt.Restore.V3
import FlashCkpt.Restore.ResidencyMap
import FlashCkpt.Restore.DeltaFormats
import FlashCkpt.Restore.Sections
import FlashCkpt.Restore.FromFiles
import FlashCkpt.Restore.FusedDelta
import FlashCkpt.Driver.Precopy
import FlashCkpt.Driver.Split
import FlashCkpt.Restore.DeltaOracle
import FlashCkpt.Restore.AllocIndex
import FlashCkpt.Restore.StaticImage
import FlashCkpt.Restore.FailClosed
import FlashCkpt.Agent.Classifier
import FlashCkpt.Agent.Rounds
import FlashCkpt.Uvm.Mappings
import FlashCkpt.Uvm.Service
import FlashCkpt.Uvm.Migration
import FlashCkpt.Uvm.DirtyTracking
import FlashCkpt.Uvm.ReadDuplication
import FlashCkpt.Uvm.Coherence
import FlashCkpt.Agent.Learning
import FlashCkpt.Static.AllocTable
import FlashCkpt.Library.Nesting
import FlashCkpt.Uvm.Queries
import FlashCkpt.Static.RangeFilter
import FlashCkpt.Core.DirtyTable
import FlashCkpt.Uvm.PrepareAll
import FlashCkpt.Uvm.Locks
import FlashCkpt.Gate.Layout
import FlashCkpt.Static.Coverage
import FlashCkpt.Library.WorkerPool
import FlashCkpt.Core.Streaming
import FlashCkpt.Library.OrderedDict
import FlashCkpt.Engine.State
import FlashCkpt.Engine.PrefixCache
import FlashCkpt.Engine.PoolInvariant
import FlashCkpt.Emul.AllocTable
import FlashCkpt.Library.RangeSet
import FlashCkpt.Library.NextFit
import FlashCkpt.Emul.GcrChunks
import FlashCkpt.Emul.DirtyRanges
import FlashCkpt.Emul.PhosCounters
import FlashCkpt.Library.CriticalSection
import FlashCkpt.Emul.Machine
import FlashCkpt.Emul.Rounds
import FlashCkpt.Emul.Deadlock
import FlashCkpt.Emul.FreeHooks
import FlashCkpt.Emul.Recopy
import FlashCkpt.Library.PingPong
import FlashCkpt.Emul.CopyPipeline
import FlashCkpt.Emul.GcrCopy
import FlashCkpt.Emul.PhosCopy
import FlashCkpt.Emul.FailedCopies
import FlashCkpt.Library.Shares
import FlashCkpt.Core.ParallelWriters
import FlashCkpt.Image.DenseSlicer
import FlashCkpt.Image.SparseSlicer
import FlashCkpt.Driver.Capture
import FlashCkpt.Driver.Straddle
import FlashCkpt.Core.DeltaWriters
import FlashCkpt.Restore.SparseRoundTrip
import FlashCkpt.Library.Blocks
import FlashCkpt.Core.K3Batch
import FlashCkpt.Restore.K3RoundTrip
import FlashCkpt.Restore.RegionPages
import FlashCkpt.Restore.MixedDelta
import FlashCkpt.Restore.CpuPages
import FlashCkpt.Library.Components
import FlashCkpt.Driver.Workers
import FlashCkpt.Driver.WorkerRuns
import FlashCkpt.Driver.MtCapture
import FlashCkpt.Driver.BufferBounds
import FlashCkpt.Driver.SequentialCapture
import FlashCkpt.Driver.PassOne
import FlashCkpt.Driver.PackedView
import FlashCkpt.Driver.DecryptPages
import FlashCkpt.Uvm.StaleMasks
import FlashCkpt.Library.TicketRing
import FlashCkpt.Restore.Ring
import FlashCkpt.Restore.RingInvariant
import FlashCkpt.Restore.RingSteps
import FlashCkpt.Restore.RingRuns
import FlashCkpt.Core.CoalescedWriter
import FlashCkpt.Restore.RingControl
import FlashCkpt.Restore.RingProgress
import FlashCkpt.Restore.Replay
import FlashCkpt.Restore.Starvation
import FlashCkpt.Restore.ChunkFit
import FlashCkpt.Restore.RingSerial
import FlashCkpt.Restore.RingAgrees
import FlashCkpt.Restore.Selective
import FlashCkpt.Agent.DynamicRanges
import FlashCkpt.Library.Crew
import FlashCkpt.Crypto.PageWorkers
import FlashCkpt.Crypto.ThreadCount
import FlashCkpt.Static.WeightFiles
import FlashCkpt.Static.WeightCapture
import FlashCkpt.Library.OrderedSet
import FlashCkpt.Emul.DirtySet
import FlashCkpt.Emul.GcrArrays
import FlashCkpt.Emul.GcrPacking
import FlashCkpt.Emul.Pipelines
import FlashCkpt.Emul.KernelScan
import FlashCkpt.Emul.ParamCounts
import FlashCkpt.Emul.StagedBuffers
import FlashCkpt.Library.Greedy
import FlashCkpt.Driver.RunBuilder
import FlashCkpt.Gate.Recording
import FlashCkpt.Restore.SelectiveEncrypted
import FlashCkpt.Library.BoundedQueue
import FlashCkpt.Library.SlotPipeline
import FlashCkpt.Library.SlotPipelineEnds
import FlashCkpt.Core.SlotPool
import FlashCkpt.Core.SlotStreaming
import FlashCkpt.Restore.RangeGroups
import FlashCkpt.Library.GetPutRing
import FlashCkpt.Library.Tally
import FlashCkpt.CopyEngine.Gpfifo
import FlashCkpt.CopyEngine.GpfifoSteps
import FlashCkpt.CopyEngine.CslSession
import FlashCkpt.CopyEngine.SemaphorePayload
import FlashCkpt.CopyEngine.Pool
import FlashCkpt.CopyEngine.PoolSteps
import FlashCkpt.CopyEngine.PoolInvariant
import FlashCkpt.CopyEngine.PoolSecurity
import FlashCkpt.CopyEngine.PoolRuns
import FlashCkpt.CopyEngine.IvBudget
import FlashCkpt.CopyEngine.PoolProgress
import FlashCkpt.CopyEngine.PoolCompletion
import FlashCkpt.Faults.Fetch
import FlashCkpt.Faults.Coalescing
import FlashCkpt.Faults.Preprocess
import FlashCkpt.Faults.Scan
import FlashCkpt.Faults.Judgement
import FlashCkpt.Faults.Service
import FlashCkpt.Faults.BlockRuns
import FlashCkpt.Faults.BatchRuns
import FlashCkpt.Faults.WriteFaults
