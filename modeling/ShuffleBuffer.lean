import ShuffleBuffer.Block
import ShuffleBuffer.Config.Document
import ShuffleBuffer.Decimal.Numeral
import ShuffleBuffer.Decimal.Shortest
import ShuffleBuffer.Edge
import ShuffleBuffer.Element
import ShuffleBuffer.Estimate.Tracker
import ShuffleBuffer.Executor
import ShuffleBuffer.Frame
import ShuffleBuffer.Metrics
import ShuffleBuffer.Partition
import ShuffleBuffer.Pool
import ShuffleBuffer.Session
import ShuffleBuffer.Proofs.Alignment
import ShuffleBuffer.Proofs.Layouts
import ShuffleBuffer.Proofs.Marks
import ShuffleBuffer.Proofs.Visit
import ShuffleBuffer.Proofs.Walk
import ShuffleBuffer.Proofs.Footprint
import ShuffleBuffer.Proofs.Balance
import ShuffleBuffer.Proofs.Clients
import ShuffleBuffer.Proofs.Steps
import ShuffleBuffer.Proofs.Frames
import ShuffleBuffer.Proofs.Run
import ShuffleBuffer.Proofs.Files
import ShuffleBuffer.Proofs.Partitions
import ShuffleBuffer.Proofs.Records
import ShuffleBuffer.Proofs.Detection
import ShuffleBuffer.Proofs.Blocks
import ShuffleBuffer.Proofs.Handles
import ShuffleBuffer.Proofs.Closing
import ShuffleBuffer.Proofs.Writing
import ShuffleBuffer.Proofs.Settlement
import ShuffleBuffer.Proofs.Others
import ShuffleBuffer.Proofs.Sessions
import ShuffleBuffer.Proofs.Carriers
import ShuffleBuffer.Proofs.Foreign
import ShuffleBuffer.Proofs.ReadBack
import ShuffleBuffer.Proofs.Retries
import ShuffleBuffer.Proofs.Ledger
import ShuffleBuffer.Proofs.Failures
import ShuffleBuffer.Proofs.Evictions
import ShuffleBuffer.Proofs.Placement
import ShuffleBuffer.Proofs.Prefixes
import ShuffleBuffer.Proofs.Extrapolation
import ShuffleBuffer.Proofs.Admissions
import ShuffleBuffer.Proofs.Checkpoints
import ShuffleBuffer.Proofs.Convergence
import ShuffleBuffer.Proofs.Accounts
import ShuffleBuffer.Proofs.Lifecycle
import ShuffleBuffer.Proofs.Callers
import ShuffleBuffer.Proofs.Counters
import ShuffleBuffer.Proofs.Trails
import ShuffleBuffer.Proofs.Views
import ShuffleBuffer.Proofs.Interleavings
import ShuffleBuffer.Proofs.Neighbours
import ShuffleBuffer.Proofs.Caching
import ShuffleBuffer.Proofs.Headroom
import ShuffleBuffer.Proofs.Leftovers
import ShuffleBuffer.Proofs.Bystanders
import ShuffleBuffer.Proofs.Duplicates
import ShuffleBuffer.Proofs.Truncation
import ShuffleBuffer.Proofs.Coherence
import ShuffleBuffer.Proofs.Unions
import ShuffleBuffer.Proofs.Draws
import ShuffleBuffer.Proofs.Samples
import ShuffleBuffer.Proofs.Restarts
import ShuffleBuffer.Proofs.Schedule
import ShuffleBuffer.Proofs.Intervals
import ShuffleBuffer.Proofs.Refusals
import ShuffleBuffer.Proofs.RoundTrips
import ShuffleBuffer.Proofs.Removals
import ShuffleBuffer.Proofs.Prices
import ShuffleBuffer.Proofs.Multiples
import ShuffleBuffer.Proofs.Zones
import ShuffleBuffer.Proofs.Reorderings
import ShuffleBuffer.Proofs.Rounding
import ShuffleBuffer.Proofs.Dues
import ShuffleBuffer.Proofs.Stranded
import ShuffleBuffer.Proofs.Freshness
