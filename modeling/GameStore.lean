import GameStore.Lib.Program
import GameStore.Lib.Calls
import GameStore.Lib.Interleaving
import GameStore.Lib.BigEndian
import GameStore.Lib.PrefixScan
import GameStore.Lib.Assoc
import GameStore.Encoding
import GameStore.Engine
import GameStore.KeyFormat
import GameStore.Store
import GameStore.Operation
import GameStore.Lifecycle
import GameStore.Conduct
import GameStore.Session
import GameStore.Course
import GameStore.Garbage
import GameStore.Failure
import GameStore.Opening
import GameStore.Versions
import GameStore.Shadow
import GameStore.Compaction
import GameStore.Loading
import GameStore.Creation
import GameStore.Readback
import GameStore.Reuse
import GameStore.HashCount
import GameStore.Content
import GameStore.Removal
import GameStore.Queries
import GameStore.Ranges
import GameStore.Crash
import GameStore.Isolation
import GameStore.Expiry
import GameStore.Lib.Delimited
import GameStore.Lib.Stream
import GameStore.Lib.Checked
import GameStore.Text
import GameStore.Frame
import GameStore.Decode
import GameStore.RoundTrip
import GameStore.Fragment
import GameStore.Request
import GameStore.DecodeLimits
import GameStore.Agreement
import GameStore.Quoting
import GameStore.Splitting
import GameStore.Bounds
import GameStore.Lossy
import GameStore.Commands
import GameStore.Server
import GameStore.Errors
import GameStore.OneReply
import GameStore.Sequential
import GameStore.Sets
import GameStore.HashRemoval
import GameStore.Lists
import GameStore.SortedSets
import GameStore.ScoreOrder
import GameStore.Counters
import GameStore.Lib.BinaryFloat
import GameStore.ScoreValue
import GameStore.ScoreText
import GameStore.Corruption
import GameStore.Negotiation
import GameStore.Refusal
import GameStore.Deadlines
import GameStore.Sharing
import GameStore.Tracking
import GameStore.Sweeping
import GameStore.Lib.Table
import GameStore.Keyspace
import GameStore.Representation
import GameStore.Refinement
import GameStore.Lib.Linearize
import GameStore.Concurrency
import GameStore.Observation
import GameStore.Conversation
import GameStore.Lib.Messages
import GameStore.Wire
import GameStore.Lib.Transition
import GameStore.Serving
import GameStore.Reclaim
