import Sillage.Foundation.Buckets
import Sillage.Foundation.Decimal
import Sillage.Foundation.LittleEndian
import Sillage.Foundation.Clauses
import Sillage.Foundation.Directory
import Sillage.Foundation.KWayMerge
import Sillage.Foundation.Lru
import Sillage.Foundation.Interpolation
import Sillage.Foundation.Rounding
import Sillage.Foundation.Slices
import Sillage.Foundation.Traced
import Sillage.Foundation.Recency
import Sillage.Foundation.SharedCache
import Sillage.Foundation.Behaviour
import Sillage.Foundation.Channel
import Sillage.Foundation.Pages
import Sillage.Foundation.Promises
import Sillage.Common.Update
import Sillage.Common.Chunk
import Sillage.Common.Names
import Sillage.Common.Idx
import Sillage.Common.Codecs
import Sillage.Foundation.Tables
import Sillage.Foundation.Wire
import Sillage.Common.PlainCodecs
import Sillage.Writer.IndexBuilder
import Sillage.Reader.ChunkIndex
import Sillage.Reader.IndexBounds
import Sillage.Reader.Filter
import Sillage.Reader.Lookups
import Sillage.Writer.Chunker
import Sillage.Writer.Ledger
import Sillage.Writer.Refinement
import Sillage.Writer.Recovery
import Sillage.Writer.Runs
import Sillage.Writer.Trio
import Sillage.Writer.Trace
import Sillage.Writer.WriteOnce
import Sillage.Settings
import Sillage.Writer.Totality
import Sillage.Writer.Eviction
import Sillage.Writer.Tolerance
import Sillage.Writer.InOrder
import Sillage.Writer.Restart
import Sillage.Writer.Frame
import Sillage.Writer.Interruption
import Sillage.Writer.Lane
import Sillage.Writer.Delivery
import Sillage.Writer.Process
import Sillage.Writer.Uploader
import Sillage.Writer.Expiry
import Sillage.Writer.Archival.Invariant
import Sillage.Writer.Archival.Lanes
import Sillage.Writer.Archival.Uploads
import Sillage.Writer.Archival
import Sillage.Writer.Hosting
import Sillage.Writer.Immutability
import Sillage.Writer.Provenance
import Sillage.Writer.Durability
import Sillage.Writer.Passes
import Sillage.Writer.PassEnd
import Sillage.Reader.Catalog
import Sillage.Reader.Completeness
import Sillage.Reader.Sync
import Sillage.Reader.Listing
import Sillage.Reader.Presence
import Sillage.Reader.Publication
import Sillage.Reader.Syncer
import Sillage.Reader.DecodedChunk
import Sillage.Reader.Plan
import Sillage.Reader.SharedCaches
import Sillage.Reader.Floor
import Sillage.Reader.Head
import Sillage.Reader.Corruption
import Sillage.Reader.Pacing
import Sillage.Reader.Replay
import Sillage.Reader.Cursor
import Sillage.Reader.Merge
import Sillage.Reader.Lag
import Sillage.Reader.Serving
import Sillage.Reader.Uninterrupted
import Sillage.Reader.Pairing
import Sillage.Reader.Isolation
import Sillage.Reader.Collection
import Sillage.Reader.Follow
import Sillage.Reader.Accounting
import Sillage.Reader.Expectations
import Sillage.Reader.Stepwise
import Sillage.Reader.Settling
import Sillage.Reader.Admission
import Sillage.Reader.Connection
import Sillage.Reader.Realization
import Sillage.Reader.PassCatalogs
import Sillage.Reader.Conversation
import Sillage.Reader.Departure
import Sillage.EndToEnd.Recorded
import Sillage.EndToEnd.Fidelity
import Sillage.EndToEnd.Naming
import Sillage.EndToEnd.Copies
import Sillage.EndToEnd.Churn
import Sillage.EndToEnd.Served
import Sillage.EndToEnd.Mirror
import Sillage.EndToEnd.Convergence
import Sillage.EndToEnd.CycleEnd
import Sillage.EndToEnd.Passage
import Sillage.EndToEnd.Session
import Sillage.EndToEnd.Timestamps
import Sillage.EndToEnd.Retention
