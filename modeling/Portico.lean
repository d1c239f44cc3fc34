import Portico.Lib.Base64
import Portico.Lib.Batches
import Portico.Lib.BlockPositions
import Portico.Lib.Bridge
import Portico.Lib.Bytes
import Portico.Lib.Checked
import Portico.Lib.CountedBlocks
import Portico.Lib.CycleWalk
import Portico.Lib.Gaps
import Portico.Lib.Json
import Portico.Lib.Ledger
import Portico.Lib.ListMove
import Portico.Lib.Machine
import Portico.Lib.Number
import Portico.Lib.OrderedMap
import Portico.Lib.Outcome
import Portico.Lib.Pages
import Portico.Lib.RevisionQueue
import Portico.Lib.Rotor
import Portico.Lib.Rounding
import Portico.Lib.Runs
import Portico.Lib.ScopedBlocks
import Portico.Lib.Search
import Portico.Lib.Shelf
import Portico.Lib.Sweep
import Portico.Lib.Table
import Portico.Lib.Tiling
import Portico.Lib.Utf
import Portico.Lib.Zone
import Portico.Queue.Advance
import Portico.Queue.BaseOrder
import Portico.Queue.Build
import Portico.Queue.Chunks
import Portico.Queue.Commands
import Portico.Queue.Compaction
import Portico.Queue.Entries
import Portico.Queue.Layout
import Portico.Queue.ListEdits
import Portico.Queue.Numbering
import Portico.Queue.Passes
import Portico.Queue.Place
import Portico.Queue.PlayOrder
import Portico.Queue.Radio
import Portico.Queue.Shuffle
import Portico.Queue.ShufflePermutation
import Portico.Queue.ShuffledEdits
import Portico.Queue.SonicWindow
import Portico.Queue.SortKey
import Portico.Queue.SpanEdit
import Portico.Queue.SpanMoves
import Portico.Queue.Spans
import Portico.Queue.Unshuffled
import Portico.WriterGate.Arrivals
import Portico.WriterGate.Callers
import Portico.WriterGate.Gate
import Portico.WriterGate.Grants
import Portico.WriterGate.Order
import Portico.WriterGate.Queues
import Portico.WriterGate.Recovery
import Portico.WriterGate.Room
import Portico.WriterGate.Safety
import Portico.WriterGate.System
import Portico.WriterGate.Ticket
import Portico.WriterGate.Turns
import Portico.WriterGate.Victim
import Portico.WriterGate.Wakeup
import Portico.LiveBuffer.Buffer
import Portico.LiveBuffer.Ends
import Portico.LiveBuffer.Numbering
import Portico.LiveBuffer.PresentationTimes
import Portico.LiveBuffer.Publisher
import Portico.LiveBuffer.Readers
import Portico.LiveBuffer.Safety
import Portico.LiveBuffer.TransportStream
import Portico.LiveBuffer.Window
import Portico.WatchTogether.Agreement
import Portico.WatchTogether.Capacity
import Portico.WatchTogether.Clock
import Portico.WatchTogether.Commands
import Portico.WatchTogether.Continuity
import Portico.WatchTogether.Fences
import Portico.WatchTogether.HostClaim
import Portico.WatchTogether.Members
import Portico.WatchTogether.Moves
import Portico.WatchTogether.Positions
import Portico.WatchTogether.Receipts
import Portico.WatchTogether.Record
import Portico.WatchTogether.Requests
import Portico.WatchTogether.Room
import Portico.WatchTogether.SharedQueue
import Portico.WatchTogether.Timeline
import Portico.WatchTogether.WritePath
import Portico.EventFeed.Cursor
import Portico.EventFeed.Delivery
import Portico.EventFeed.Feed
import Portico.EventFeed.Pages
import Portico.AuthorityGate.Gate
import Portico.Browse.BlockRuns
import Portico.Browse.BlockTriggers
import Portico.Browse.CheckBlocks
import Portico.Browse.ForYou
import Portico.Browse.PersonalOrder
import Portico.Browse.Positions
import Portico.Browse.Rows
import Portico.Browse.SeededOrder
import Portico.Cast.Devices
import Portico.Cast.Rotation
import Portico.CursorSigning.Keyring
import Portico.CursorSigning.Rotation
import Portico.DbWork.Statement
import Portico.DbWork.StatementCache
import Portico.Derive.Batches
import Portico.Derive.Catalog
import Portico.Derive.Rebuilds
import Portico.Derive.Worker
import Portico.EntityIds.Titles
import Portico.Guide.Consistency
import Portico.Guide.Entries
import Portico.Guide.Events
import Portico.Guide.Failures
import Portico.Guide.Layout
import Portico.Guide.Retry
import Portico.Guide.Rows
import Portico.Guide.Store
import Portico.Guide.Time
import Portico.Idempotency.Replay
import Portico.Idempotency.Store
import Portico.LibraryChannels.Cycles
import Portico.LibraryChannels.Generator
import Portico.LibraryChannels.LocalTime
import Portico.LibraryChannels.Schedule
import Portico.LibraryChannels.Selection
import Portico.LibraryChannels.Slots
import Portico.LibraryChannels.Winner
import Portico.LiveChannels.Allocator
import Portico.LiveChannels.Boundary
import Portico.LiveChannels.Conflicts
import Portico.LiveChannels.Losing
import Portico.LiveChannels.Tuners
import Portico.Mp4.Bounds
import Portico.Mp4.Boxes
import Portico.Network.Addr
import Portico.Network.Policy
import Portico.Network.Safety
import Portico.Network.Url
import Portico.Operations.Jobs
import Portico.Operations.Scheduler
import Portico.Operations.Schedules
import Portico.Operations.States
import Portico.Playback.CopyTimeline
import Portico.Receivers.Consent
import Portico.Receivers.Effects
import Portico.Receivers.Record
import Portico.Receivers.Requests
import Portico.Receivers.Safety
import Portico.Receivers.Settlement
import Portico.Receivers.System
import Portico.Recordings.CapturePass
import Portico.Recordings.Claim
import Portico.Recordings.Events
import Portico.Recordings.Expiry
import Portico.Recordings.Intents
import Portico.Recordings.Progress
import Portico.Recordings.Reconciliation
import Portico.Recordings.Record
import Portico.Recordings.ReservationRuns
import Portico.Recordings.Reservations
import Portico.RemoteSources.DiskGrowth
import Portico.ReportWindow.Interval
import Portico.ReportWindow.Windows
import Portico.ScanEvents.Episodes
import Portico.ScanEvents.Publisher
import Portico.SegmentDetect.Bounds
import Portico.SegmentDetect.Consensus
import Portico.SegmentDetect.Match
import Portico.Sonic.SmoothWindow
import Portico.Subtitles.Asset
import Portico.Subtitles.Charset
import Portico.UserMutation.AtMostOnce
import Portico.UserMutation.Binding
import Portico.UserMutation.Store
import Portico.WorkPolicy.Windows
