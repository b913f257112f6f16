import Zuihitsu.Library.Script
import Zuihitsu.Library.Table
import Zuihitsu.Library.UnionFind
import Zuihitsu.Library.Trace
import Zuihitsu.Library.Grouping
import Zuihitsu.Graph.Resume
import Zuihitsu.Graph.Genesis
import Zuihitsu.Block.Reads
import Zuihitsu.Block.Excludees
import Zuihitsu.Block.Partition
import Zuihitsu.Consolidation.Audience
import Zuihitsu.Describe.Pass
import Zuihitsu.Visibility.Guard
import Zuihitsu.Block.Liveness
import Zuihitsu.Describe.Audience
import Zuihitsu.Visibility.Links
import Zuihitsu.Search.Lexical
import Zuihitsu.Block.Interleaving
import Zuihitsu.Visibility.Widening
import Zuihitsu.Block.ReadYourWrites
import Zuihitsu.Block.Corrections
import Zuihitsu.Consolidation.Overtaken
import Zuihitsu.Graph.Applicable
import Zuihitsu.Block.Poisoning
import Zuihitsu.Turn.Burst
import Zuihitsu.Graph.Relabelling
import Zuihitsu.Turn.Replay
import Zuihitsu.Schedule.Wakeups
import Zuihitsu.Session.Watermark
import Zuihitsu.Block.Confidences
import Zuihitsu.Block.Reach
import Zuihitsu.Block.FreeMerge
import Zuihitsu.Block.Identities
import Zuihitsu.Search.CatchUp
import Zuihitsu.Store.Revert
import Zuihitsu.Inference.Rows
import Zuihitsu.Inference.Vocabulary
import Zuihitsu.Inference.Folding
import Zuihitsu.Brief.Hidden
import Zuihitsu.Brief.Traced
import Zuihitsu.Block.StatedDates
import Zuihitsu.Consolidation.Dates
import Zuihitsu.Search.Primaries
import Zuihitsu.Block.Calendar
import Zuihitsu.Search.Hidden
import Zuihitsu.Turn.Execute
import Zuihitsu.Turn.Persistence
import Zuihitsu.Block.Locking
import Zuihitsu.Block.Withheld
import Zuihitsu.Turn.Resolve
import Zuihitsu.Block.Reattest
import Zuihitsu.Block.Renames
import Zuihitsu.Graph.Fingerprint
import Zuihitsu.Canonicalize.Preserved
import Zuihitsu.Block.Taint
import Zuihitsu.Console.Replica
import Zuihitsu.Console.Stream
import Zuihitsu.Console.Tail
import Zuihitsu.Platform.Requests
import Zuihitsu.Platform.Contacts
import Zuihitsu.Platform.Confined
import Zuihitsu.Core.MessageRefs
import Zuihitsu.Library.Edits
import Zuihitsu.Library.Gregorian
import Zuihitsu.Model.Response
import Zuihitsu.Model.Retry
import Zuihitsu.Schedule.Least
import Zuihitsu.Schedule.Safety
import Zuihitsu.Block.Suggestions
import Zuihitsu.Connector.Debounce
import Zuihitsu.Connector.Mentions
import Zuihitsu.Connector.MessageStream
import Zuihitsu.Connector.Process
import Zuihitsu.Control.Events
import Zuihitsu.Eval.Sidecar
import Zuihitsu.Graph.Disputes
import Zuihitsu.Block.DateCalls
import Zuihitsu.Describe.Occurrences
import Zuihitsu.Control.Designation
import Zuihitsu.Genesis.Rollout
import Zuihitsu.Genesis.Prompts
import Zuihitsu.Eval.Restored
import Zuihitsu.Consolidation.Dendrogram
