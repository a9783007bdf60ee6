import Marotte.Bridge.Frames
import Marotte.Buffer.Index
import Marotte.Buffer.Lines
import Marotte.Buffer.Tracker
import Marotte.ChatList.Converges
import Marotte.Command.Retries
import Marotte.Command.Watched
import Marotte.Diff.Counted
import Marotte.Diff.Delta
import Marotte.Diff.Hunks
import Marotte.Diff.Script
import Marotte.Diff.Valid
import Marotte.Diff.Words
import Marotte.Drafts.Kept
import Marotte.Entry.Bounds
import Marotte.Entry.Codec
import Marotte.Entry.Output
import Marotte.Entry.Parse
import Marotte.Entry.Rebound
import Marotte.Entry.Record
import Marotte.EntryLog.Beside
import Marotte.EntryLog.Files
import Marotte.EntryLog.Lossless
import Marotte.EntryLog.Operations
import Marotte.EntryLog.Paging
import Marotte.EntryLog.Ranges
import Marotte.EntryLog.Recovery
import Marotte.EntryLog.Reopened
import Marotte.EntryLog.Resolve
import Marotte.EntryLog.Reverts
import Marotte.EntryLog.Rewind
import Marotte.EntryLog.Rewrite
import Marotte.EntryLog.Soundness
import Marotte.EntryLog.Unlaunched
import Marotte.EntryLog.Unseen
import Marotte.EntryLog.Views
import Marotte.Git.Porcelain
import Marotte.Git.Printed
import Marotte.Idempotency.Cache
import Marotte.Idempotency.Retried
import Marotte.Library.Along
import Marotte.Library.BinaryHeap
import Marotte.Library.Calendar
import Marotte.Library.Frame
import Marotte.Library.Keyed
import Marotte.Library.Lines
import Marotte.Library.Matching
import Marotte.Library.Occurrences
import Marotte.Library.Overwrites
import Marotte.Library.Reach
import Marotte.Library.Recent
import Marotte.Library.Replay
import Marotte.Library.RuneBounds
import Marotte.Library.Subsequence
import Marotte.Library.Weave
import Marotte.Library.Window
import Marotte.LiveRuns.Converges
import Marotte.Merge.Entries
import Marotte.Merge.Keeps
import Marotte.Merge.Settled
import Marotte.ModelSwitch.Applied
import Marotte.Pending.Snapshot
import Marotte.Pending.Stores
import Marotte.Policy.Edits
import Marotte.Projection.Account
import Marotte.Projection.Acks
import Marotte.Projection.Calls
import Marotte.Projection.Model
import Marotte.Projection.Says
import Marotte.Projection.Settled
import Marotte.Projection.WellFormed
import Marotte.Rail.Agrees
import Marotte.Rail.Cut
import Marotte.Rail.Reverts
import Marotte.Rereads.Causes
import Marotte.Rereads.Fresh
import Marotte.Rereads.Guard
import Marotte.Rereads.Rungs
import Marotte.Residency.Cuts
import Marotte.Residency.Grown
import Marotte.Residency.Window
import Marotte.Resume.Adopted
import Marotte.Route.Number
import Marotte.Route.Path
import Marotte.Route.Percent
import Marotte.Route.Reload
import Marotte.Route.Survives
import Marotte.RunLog.Ahead
import Marotte.RunLog.Answers
import Marotte.RunLog.Converges
import Marotte.RunLog.Held
import Marotte.RunLog.Store
import Marotte.RunTree.Addresses
import Marotte.RunTree.Converges
import Marotte.RunTree.Moved
import Marotte.RunTree.Shared
import Marotte.RunTree.Tree
import Marotte.Runs.Bounds
import Marotte.Runs.Claims
import Marotte.Runs.Enforced
import Marotte.Runs.Executing
import Marotte.Runs.Interleave
import Marotte.Schedule.Fires
import Marotte.Schedule.Next
import Marotte.Schedule.Runner
import Marotte.Schedule.Spec
import Marotte.Schedule.Sweep
import Marotte.Spec.Cut
import Marotte.Spec.Forest
import Marotte.Spec.Kept
import Marotte.Spec.Nodes
import Marotte.Spec.Numbers
import Marotte.Spec.Walk
import Marotte.Stamps.Certified
import Marotte.Stamps.Listing
import Marotte.Stamps.Vouched
import Marotte.Status.Waiting
import Marotte.Steers.Cells
import Marotte.Steers.Chunks
import Marotte.Steers.Listing
import Marotte.Steers.Marker
import Marotte.Steers.Owed
import Marotte.Steers.Record
import Marotte.Steers.Records
import Marotte.Tabs.Integrity
import Marotte.Tabs.Settle
import Marotte.Tabs.Sync
import Marotte.Terminal.Addressed
import Marotte.Terminal.Ansi
import Marotte.Terminal.Pump
import Marotte.Terminal.Ring
import Marotte.TextSearch.Codes
import Marotte.TextSearch.Positions
import Marotte.ToolCards.Call
import Marotte.ToolCards.Card
import Marotte.ToolCards.Follows
import Marotte.Transcript.Admitted
import Marotte.Transcript.Effects
import Marotte.Transcript.Faithful
import Marotte.Transcript.Held
import Marotte.Transcript.Load
import Marotte.Transcript.Ordinals
import Marotte.Transcript.Reverted
import Marotte.Transcript.Spoken
import Marotte.TurnLog.Closed
import Marotte.TurnLog.Conserved
import Marotte.TurnLog.Held
import Marotte.TurnLog.Ids
import Marotte.TurnLog.Naming
import Marotte.TurnLog.Seals
import Marotte.TurnLog.Unique
import Marotte.Turns.Brackets
import Marotte.Turns.Position
import Marotte.Turns.Registry
import Marotte.Turns.Source
