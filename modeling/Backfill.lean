import Backfill.Archive.Basic
import Backfill.Archive.Directory
import Backfill.Archive.File
import Backfill.Command.Basic
import Backfill.Command.Listener
import Backfill.Command.Queue
import Backfill.Coordinator.Basic
import Backfill.Coordinator.Chunk
import Backfill.Coordinator.Command
import Backfill.Coordinator.Flush
import Backfill.Coordinator.Stream
import Backfill.Failure
import Backfill.Json.Format
import Backfill.Json.Number
import Backfill.Json.Printer
import Backfill.Json.Reader
import Backfill.Json.Token
import Backfill.Json.Tree
import Backfill.Number.Binary64
import Backfill.Number.Shortest
import Backfill.Position.Basic
import Backfill.Position.Format
import Backfill.Position.IdRange
import Backfill.Position.IdSet
import Backfill.Position.Listing
import Backfill.Position.RangeList
import Backfill.Position.Set
import Backfill.Proofs.Account
import Backfill.Proofs.Accumulation
import Backfill.Proofs.Admission
import Backfill.Proofs.Ambiguity
import Backfill.Proofs.Archive
import Backfill.Proofs.Attempts
import Backfill.Proofs.Attendance
import Backfill.Proofs.BadFiles
import Backfill.Proofs.Balance
import Backfill.Proofs.Buffer
import Backfill.Proofs.Canonical
import Backfill.Proofs.ChunkCount
import Backfill.Proofs.Classification
import Backfill.Proofs.CommandOrder
import Backfill.Proofs.Consistency
import Backfill.Proofs.Course
import Backfill.Proofs.Drafts
import Backfill.Proofs.Draining
import Backfill.Proofs.Failing
import Backfill.Proofs.Filters
import Backfill.Proofs.FlushedRows
import Backfill.Proofs.Forms
import Backfill.Proofs.FreshWindow
import Backfill.Proofs.Grammar
import Backfill.Proofs.Handover
import Backfill.Proofs.InsertionOrder
import Backfill.Proofs.Journal
import Backfill.Proofs.KeyOrder
import Backfill.Proofs.Layout
import Backfill.Proofs.Listener
import Backfill.Proofs.Listing
import Backfill.Proofs.LiveStream
import Backfill.Proofs.Opening
import Backfill.Proofs.Ownership
import Backfill.Proofs.Persistence
import Backfill.Proofs.Position
import Backfill.Proofs.PositionOnly
import Backfill.Proofs.Procedure
import Backfill.Proofs.Progress
import Backfill.Proofs.Provenance
import Backfill.Proofs.Queue
import Backfill.Proofs.ReadOnce
import Backfill.Proofs.Reading
import Backfill.Proofs.Reconstruction
import Backfill.Proofs.Recording
import Backfill.Proofs.Regular
import Backfill.Proofs.Remainder
import Backfill.Proofs.Request
import Backfill.Proofs.Rereading
import Backfill.Proofs.Restart
import Backfill.Proofs.Resumption
import Backfill.Proofs.Returning
import Backfill.Proofs.RowForms
import Backfill.Proofs.Selection
import Backfill.Proofs.Served
import Backfill.Proofs.Source
import Backfill.Proofs.Stage
import Backfill.Proofs.Stopping
import Backfill.Proofs.Tally
import Backfill.Proofs.Termination
import Backfill.Proofs.TrackedRequests
import Backfill.Proofs.Tracking
import Backfill.Proofs.Traversal
import Backfill.Proofs.Upkeep
import Backfill.Proofs.Visit
import Backfill.Proofs.Waiting
import Backfill.Rehearsal.Steps
import Backfill.Rehearsal.World
import Backfill.Row.Basic
import Backfill.Row.Key
import Backfill.Row.Table
import Backfill.Run.Basic
import Backfill.Run.Format
import Backfill.Server.Version
import Backfill.Settings
import Backfill.Statistics
import Backfill.Stream.Event
import Backfill.Text.Blank
import Backfill.Text.Map
import Backfill.Text.Numeral
import Backfill.Text.Pieces
import Backfill.Window.Buffer
import Backfill.Window.Watermarks
