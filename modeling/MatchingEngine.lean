import MatchingEngine.Model.OrderBook
import MatchingEngine.Model.ClobMemory
import MatchingEngine.Model.InputParser
import MatchingEngine.Model.OutputFormatter
import MatchingEngine.Model.StreamPipeline
import MatchingEngine.Model.SpscQueue
import MatchingEngine.Model.OrderGenerator
import MatchingEngine.Model.Statistics
import MatchingEngine.Model.Benchmark
import MatchingEngine.Model.RingPipeline
import MatchingEngine.Model.RingBenchmark
import MatchingEngine.Model.AgentSystem
import MatchingEngine.Model.Program
import MatchingEngine.Model.SignalHandler
import MatchingEngine.Lib.Sampling
import MatchingEngine.Lib.ReservoirSampling
import MatchingEngine.Lib.Welford
import MatchingEngine.Lib.Interpolation
import MatchingEngine.Lib.Fairness
import MatchingEngine.Book.Priority
import MatchingEngine.Book.Represents
import MatchingEngine.Book.MatchLevel
import MatchingEngine.Book.MatchAgainst
import MatchingEngine.Book.View
import MatchingEngine.Book.Ladder
import MatchingEngine.Book.Refinement
import MatchingEngine.Book.Run
import MatchingEngine.Book.Probe
import MatchingEngine.Book.ReferenceBook
import MatchingEngine.Book.WellFormed
import MatchingEngine.Book.EventShape
import MatchingEngine.Book.Rejection
import MatchingEngine.Book.Ledger
import MatchingEngine.Book.LevelTotals
import MatchingEngine.Book.Finality
import MatchingEngine.Book.Relabel
import MatchingEngine.Book.Mirror
import MatchingEngine.Book.FillOrKill
import MatchingEngine.Book.Duplicate
import MatchingEngine.Book.ImmediateOrCancel
import MatchingEngine.Book.Withdraw
import MatchingEngine.Book.Visits
import MatchingEngine.Book.ArenaSize
import MatchingEngine.Book.RestingArena
import MatchingEngine.Book.Snapshot
import MatchingEngine.Book.Recode
import MatchingEngine.Book.OutputSize
import MatchingEngine.Book.Provenance
import MatchingEngine.Book.Batch
import MatchingEngine.Book.Untouched
import MatchingEngine.Book.Undo
import MatchingEngine.Text.Grammar
import MatchingEngine.Text.Layout
import MatchingEngine.Text.Encoding
import MatchingEngine.Text.Decoding
import MatchingEngine.Text.RoundTrip
import MatchingEngine.Runtime.SpscQueue
import MatchingEngine.Runtime.Pipeline
import MatchingEngine.Runtime.Progress
import MatchingEngine.Runtime.Abort
import MatchingEngine.Runtime.RingQueue
import MatchingEngine.Runtime.RingPipeline
import MatchingEngine.Runtime.Termination
import MatchingEngine.Runtime.AgentSystem
import MatchingEngine.Runtime.Program
import MatchingEngine.Runtime.QueueSize
import MatchingEngine.Runtime.SignalHandler
import MatchingEngine.Benchmark.OrderStream
import MatchingEngine.Benchmark.OrderGenerator
import MatchingEngine.Benchmark.Harness
import MatchingEngine.Benchmark.Rings
import MatchingEngine.Benchmark.Reservoir
import MatchingEngine.Benchmark.Statistics
import MatchingEngine.Benchmark.Termination
import MatchingEngine.Benchmark.Tracking
import MatchingEngine.Benchmark.Invariance
import MatchingEngine.Benchmark.Program
