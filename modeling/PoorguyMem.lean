import PoorguyMem.Lib.Runs
import PoorguyMem.Lib.Throwing
import PoorguyMem.Lib.JsonText
import PoorguyMem.Lib.JsonValue
import PoorguyMem.Lib.JsonReader
import PoorguyMem.Lib.MapTotal
import PoorguyMem.Lib.SortedPages
import PoorguyMem.Lib.LastWriter
import PoorguyMem.Lib.DerivedRows
import PoorguyMem.Lib.TopK
import PoorguyMem.Lib.TwoPhase
import PoorguyMem.Lib.Budget
import PoorguyMem.Lib.PairedRuns
import PoorguyMem.Lib.Utf8
import PoorguyMem.Lib.Tickets
import PoorguyMem.Lib.Progress
import PoorguyMem.Lib.Histogram
import PoorguyMem.Types
import PoorguyMem.Text
import PoorguyMem.Keys
import PoorguyMem.Codec
import PoorguyMem.Contract
import PoorguyMem.Retriever
import PoorguyMem.Store
import PoorguyMem.Engine
import PoorguyMem.Persistence
import PoorguyMem.Operations
import PoorguyMem.Recovery
import PoorguyMem.World
import PoorguyMem.Reference
import PoorguyMem.Lossless
import PoorguyMem.Log
import PoorguyMem.Requests
import PoorguyMem.Outcomes
import PoorguyMem.Provenance
import PoorguyMem.Mirror
import PoorguyMem.Accounting
import PoorguyMem.Isolation
import PoorguyMem.Durable
import PoorguyMem.Agreement
import PoorguyMem.Documents
import PoorguyMem.PinQuota
import PoorguyMem.Intake
import PoorguyMem.Dedup
import PoorguyMem.Suppression
import PoorguyMem.KeyUniqueness
import PoorguyMem.Answers
import PoorguyMem.EloqStore
import PoorguyMem.Startup
import PoorguyMem.PartitionedBatch
import PoorguyMem.InMemoryStore
import PoorguyMem.Backends
import PoorguyMem.Usage
import PoorguyMem.Layout
import PoorguyMem.Repartition
import PoorguyMem.Relayout
import PoorguyMem.Batches
import PoorguyMem.Stamps
import PoorguyMem.EventLog
import PoorguyMem.Replay
import PoorguyMem.Checkpoints
import PoorguyMem.IndexRows
import PoorguyMem.Postings
import PoorguyMem.Vectors
import PoorguyMem.Statistics
import PoorguyMem.Ranking
import PoorguyMem.Lexical
import PoorguyMem.Recall
import PoorguyMem.TokenBudget
import PoorguyMem.Reports
import PoorguyMem.SequenceNumbers
import PoorguyMem.Residue
import PoorguyMem.Domination
import PoorguyMem.ResidentCounter
import PoorguyMem.Victims
import PoorguyMem.Merge
import PoorguyMem.WideQueries
import PoorguyMem.Pinning
import PoorguyMem.Loading
import PoorguyMem.ReadYourWrites
import PoorguyMem.PinRatio
import PoorguyMem.InFlight
import PoorguyMem.StaleReads
import PoorguyMem.CommitOrder
import PoorguyMem.Expiry
import PoorguyMem.KeyDecoding
import PoorguyMem.Tokenizer
import PoorguyMem.Routing
import PoorguyMem.VectorPairing
import PoorguyMem.Holders
import PoorguyMem.Reclamation
import PoorguyMem.Dispatcher
import PoorguyMem.Gateway
import PoorguyMem.Conformance
import PoorguyMem.Responses
import PoorguyMem.ToolCalls
import PoorguyMem.HttpFraming
import PoorguyMem.RequestIds
import PoorguyMem.Quoting
import PoorguyMem.Copies
import PoorguyMem.Fidelity
import PoorguyMem.Fusion
import PoorguyMem.TermDictionary
import PoorguyMem.Lifecycle
import PoorguyMem.ConcurrentLog
import PoorguyMem.Collector
import PoorguyMem.StoreCompaction
import PoorguyMem.HttpResponses
import PoorguyMem.LayoutFile
import PoorguyMem.StoreUsage
import PoorguyMem.Metrics
import PoorguyMem.IndexReport
import PoorguyMem.Summary
import PoorguyMem.Launch
import PoorguyMem.Daemon
import PoorguyMem.Attribution
