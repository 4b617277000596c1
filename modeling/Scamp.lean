import Scamp.Lib.Loop
import Scamp.Lib.Window
import Scamp.Common.Profile
import Scamp.Common.Args
import Scamp.Core.Exclusion
import Scamp.Core.Kernel
import Scamp.Core.Correctness.Cells
import Scamp.Core.Correctness.AlignedCells
import Scamp.Core.Correctness.Stats
import Scamp.Core.Operation
import Scamp.Core.Correctness.Absorption
import Scamp.Core.Correctness.KernelRun
import Scamp.Core.Correctness.Visits
import Scamp.Core.Correctness.Covariance
import Scamp.Core.Correctness.TileRun
import Scamp.Core.Correctness.Workers
import Scamp.Core.Correctness.Merging
import Scamp.Core.Correctness.NearestNeighbor
import Scamp.Core.Correctness.KeepRows
import Scamp.Core.Correctness.SumThreshold
import Scamp.Core.Correctness.SummaryRun
import Scamp.Gpu.Correctness.Launch
import Scamp.Gpu.Neighbors
import Scamp.Lib.TopK
import Scamp.Gpu.Correctness.MatchQueues
import Scamp.Gpu.Correctness.Neighbors
import Scamp.Core.Correctness.Interleaving
import Scamp.Core.Correctness.AbJoin
import Scamp.Distributed.Job
import Scamp.Distributed.Scheduler
import Scamp.Distributed.Correctness.JobRun
import Scamp.Distributed.Correctness.Create
import Scamp.Distributed.Correctness.Lifecycle
import Scamp.Distributed.Correctness.HasWork
import Scamp.Distributed.Correctness.Convert
import Scamp.Distributed.Correctness.Merges
import Scamp.Distributed.Correctness.Tiling
import Scamp.Distributed.Correctness.Timeouts
import Scamp.Distributed.Correctness.Requests
import Scamp.Distributed.Correctness.Results
import Scamp.Distributed.Correctness.TileJoins
import Scamp.Distributed.Correctness.DistributedAb
import Scamp.Core.Correctness.OffsetCells
import Scamp.Distributed.Correctness.DistributedSelf
import Scamp.Gpu.Workers
import Scamp.Gpu.Correctness.Reports
import Scamp.Gpu.Correctness.Uniqueness
import Scamp.Lib.Checked
import Scamp.Lib.Doubles
import Scamp.Core.CheckedStats
import Scamp.Core.Correctness.CheckedStats
import Scamp.Core.Correctness.TileMemory
import Scamp.Core.Correctness.SummaryBounds
import Scamp.Gpu.Correctness.Retries
import Scamp.Gpu.Atomics
import Scamp.Gpu.SlidingWindow
import Scamp.Core.Correctness.NanNorms
import Scamp.Distributed.Correctness.RoundRobin
import Scamp.Gpu.Correctness.Registers
import Scamp.Common.ScampUtils
import Scamp.Common.Correctness.ReadFile
import Scamp.Common.Correctness.WrittenIndex
import Scamp.Gpu.AutotuneCache
import Scamp.Gpu.Correctness.AutotuneFormat
import Scamp.Gpu.Correctness.AutotuneRoundTrip
import Scamp.Gpu.Autotune
import Scamp.Gpu.Correctness.AutotuneLookup
import Scamp.Gpu.Correctness.AutotuneSweep
import Scamp.Gpu.Correctness.AutotuneTuned
import Scamp.Gpu.Correctness.QtKernels
import Scamp.Gpu.Correctness.ShuffleRows
import Scamp.Gpu.Correctness.Iteration
import Scamp.Gpu.Correctness.IterationAgrees
import Scamp.Core.Correctness.RowReduction
import Scamp.Gpu.AtomicBits
import Scamp.Gpu.Correctness.FloatMax
import Scamp.Gpu.Correctness.MpAtomicMax
import Scamp.Distributed.Correctness.RunList
import Scamp.Distributed.Correctness.JobLocks
import Scamp.Distributed.Correctness.DistributedResult
import Scamp.Gpu.Correctness.LaunchResult
