import SimpleParallel.Lib.LTS
import SimpleParallel.Lib.Channel
import SimpleParallel.Lib.TaggedChannel
import SimpleParallel.Lib.CircularBuffer
import SimpleParallel.Lib.Assignment
import SimpleParallel.Lib.Bytes
import SimpleParallel.Lib.Loops
import SimpleParallel.Lib.Stacked
import SimpleParallel.Lib.Strides
import SimpleParallel.Lib.Grid
import SimpleParallel.Lib.Tally
import SimpleParallel.Lib.Elementwise
import SimpleParallel.Lib.Collective
import SimpleParallel.Lib.Spans
import SimpleParallel.Lib.Checked
import SimpleParallel.Lib.Generator
import SimpleParallel.Lib.RoundRobin
import SimpleParallel.Lib.ByteList
import SimpleParallel.Lib.IntervalSet
import SimpleParallel.Lib.Accumulate
import SimpleParallel.Lib.Lockstep
import SimpleParallel.Lib.RequestWindow
import SimpleParallel.Lib.Pattern
import SimpleParallel.Schedule.ExactlyOnce
import SimpleParallel.Schedule.Drive
import SimpleParallel.Schedule.Discipline
import SimpleParallel.Schedule.SendBuffer
import SimpleParallel.Schedule.Blocking
import SimpleParallel.Schedule.Silence
import SimpleParallel.Schedule.Sessions
import SimpleParallel.Schedule.Gss
import SimpleParallel.Schedule.GssTiling
import SimpleParallel.Schedule.GssFortran
import SimpleParallel.Schedule.Collapse
import SimpleParallel.Schedule.Triangle
import SimpleParallel.Schedule.CollapseTasks
import SimpleParallel.Schedule.ParallelFor
import SimpleParallel.Schedule.FirstRound
import SimpleParallel.Schedule.Teardown
import SimpleParallel.Schedule.TeardownRuns
import SimpleParallel.Sync.Pagemap
import SimpleParallel.Sync.PageRounding
import SimpleParallel.Sync.MemOps
import SimpleParallel.Sync.Bigmpi
import SimpleParallel.Sync.Window
import SimpleParallel.Sync.FortranWindow
import SimpleParallel.Sync.Scan
import SimpleParallel.Sync.ShortReads
import SimpleParallel.Sync.Classification
import SimpleParallel.Sync.Heap
import SimpleParallel.Sync.Entry
import SimpleParallel.Sync.Section
import SimpleParallel.Sync.Agreement
import SimpleParallel.Sync.LeaderWrites
import SimpleParallel.Sync.Untouched
import SimpleParallel.Sync.Isolation
import SimpleParallel.Sync.ProxyMmap
import SimpleParallel.Sync.FortranGlobals
import SimpleParallel.Sync.FortranNames
import SimpleParallel.Sync.GnuHash
import SimpleParallel.Reduce.Area
import SimpleParallel.Reduce.Law
import SimpleParallel.Reduce.Identity
import SimpleParallel.Reduce.FortranArray
import SimpleParallel.Reduce.Collectives
import SimpleParallel.Context.ParCtx
import SimpleParallel.Context.Program
import SimpleParallel.Context.Atomicity
import SimpleParallel.Context.Switch
import SimpleParallel.Context.Regular
import SimpleParallel.Context.Unanimous
import SimpleParallel.Context.Nested
import SimpleParallel.Context.Termination
import SimpleParallel.Context.Communicator
import SimpleParallel.Context.Protocol
import SimpleParallel.Context.Matching
import SimpleParallel.Lib.Simulation
import SimpleParallel.Lib.SharedLoop
import SimpleParallel.Reduce.LoopBody
import SimpleParallel.Reduce.Serial
import SimpleParallel.Schedule.Counted
import SimpleParallel.Schedule.CollapseFor
import SimpleParallel.Schedule.FortranBlock
import SimpleParallel.Context.FortranParCtx
import SimpleParallel.Context.FortranVerify
import SimpleParallel.Context.Startup
import SimpleParallel.Schedule.GssCount
import SimpleParallel.Sync.Copying
import SimpleParallel.Sync.ArrayLookup
import SimpleParallel.Schedule.SharedLoops
