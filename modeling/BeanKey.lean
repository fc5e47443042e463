import BeanKey.Input.Boundary
import BeanKey.Input.Editing
import BeanKey.Input.Run
import BeanKey.Lattice.Entry
import BeanKey.Lattice.Index
import BeanKey.Lattice.Search
import BeanKey.Lattice.Position
import BeanKey.Library.Loop
import BeanKey.Lattice.Bounds
import BeanKey.Lattice.Mismatch
import BeanKey.Lattice.Exact
import BeanKey.Dictionary.Binary
import BeanKey.Library.Crash
import BeanKey.Dictionary.Louds
import BeanKey.Learning.Record
import BeanKey.Learning.Trie
import BeanKey.Learning.Files
import BeanKey.Learning.Decodes
import BeanKey.Learning.Directory
import BeanKey.Learning.Save
import BeanKey.Learning.Atomic
import BeanKey.Learning.Reset
import BeanKey.Session.Candidate
import BeanKey.Session.Conversion
import BeanKey.Engine.Protocol
import BeanKey.Engine.KeyEvent
import BeanKey.Engine.State
import BeanKey.Engine.Request
import BeanKey.Engine.Keys
import BeanKey.Engine.Handle
import BeanKey.Engine.Answered
import BeanKey.Engine.Effect
import BeanKey.Engine.Outcome
import BeanKey.Engine.Presentation
import BeanKey.Engine.Selection
import BeanKey.Engine.Absorbed
import BeanKey.Daemon.Frame
import BeanKey.Engine.Isolation
import BeanKey.Lattice.Allowed
import BeanKey.Llama.Context
import BeanKey.Lattice.Candidate
import BeanKey.Lattice.Constrained
import BeanKey.Lattice.Satisfying
import BeanKey.Lattice.Sound
import BeanKey.Lattice.Conserved
import BeanKey.Dictionary.LoudsSearch
import BeanKey.Learning.TrieSearch
import BeanKey.Learning.Index
import BeanKey.Dictionary.Utf8
import BeanKey.Learning.Contents
import BeanKey.Learning.Layers
import BeanKey.Learning.Consistent
import BeanKey.Learning.Durable
import BeanKey.Learning.History
import BeanKey.Learning.Shape
import BeanKey.Learning.Essence
import BeanKey.Learning.Trip
import BeanKey.Learning.Commit
import BeanKey.Library.Lru
import BeanKey.Zenz.Model
import BeanKey.Zenz.Evaluator
import BeanKey.Zenz.Transparent
import BeanKey.Engine.Marked
import BeanKey.Input.Complete
import BeanKey.Input.Batch
import BeanKey.Learning.Lookup
import BeanKey.Lattice.Scores
import BeanKey.Input.Custom
import BeanKey.Input.CustomCheck
import BeanKey.Input.CustomExport
import BeanKey.Lattice.Columns
import BeanKey.Lattice.Seeds
import BeanKey.Input.Landing
import BeanKey.Lattice.Follow
import BeanKey.Session.Request
import BeanKey.Session.Segment
import BeanKey.Library.Asking
import BeanKey.Zenz.Conversion
import BeanKey.Zenz.Accepted
import BeanKey.Zenz.Reported
import BeanKey.Dictionary.LoudsBounds
import BeanKey.Learning.Refresh
import BeanKey.Zenz.Bounded
import BeanKey.Learning.Indexed
import BeanKey.Learning.Counted
import BeanKey.Learning.Forgotten
import BeanKey.Learning.Retried
import BeanKey.Learning.Restored
import BeanKey.Session.Displayed
import BeanKey.Zenz.Completed
import BeanKey.Zenz.Fixed
import BeanKey.Client.TextInput
import BeanKey.Client.Framing
import BeanKey.Zenz.NGram
import BeanKey.Session.PostPrediction
import BeanKey.Lattice.Scripts
import BeanKey.Library.Backoff
import BeanKey.Library.Caching
import BeanKey.LmTypo.Consume
import BeanKey.LmTypo.Scorer
import BeanKey.LmTypo.Scored
import BeanKey.LmTypo.Search
import BeanKey.LmTypo.Booked
import BeanKey.Zenz.Generation
import BeanKey.Session.NextInput
import BeanKey.Session.NextJoined
import BeanKey.Engine.Suggested
import BeanKey.Engine.Corrected
import BeanKey.Input.Rule
import BeanKey.Library.Recency
import BeanKey.Zenz.Recent
import BeanKey.Lattice.Order
import BeanKey.Llama.Capacity
import BeanKey.Input.Romaji
import BeanKey.LmTypo.Identity
import BeanKey.LmTypo.Uncorrected
import BeanKey.Daemon.Serve
import BeanKey.Engine.Shown
import BeanKey.Library.Window
import BeanKey.Library.Lease
import BeanKey.Engine.Welcome
import BeanKey.Fcitx.Engine
import BeanKey.Fcitx.Rows
import BeanKey.Fcitx.Sessions
import BeanKey.Fcitx.Operations
import BeanKey.Fcitx.Runs
import BeanKey.Fcitx.Commits
import BeanKey.Fcitx.Delivered
import BeanKey.Library.Interleaving
import BeanKey.Daemon.Endpoint
import BeanKey.Daemon.Workers
import BeanKey.Client.Request
import BeanKey.Fcitx.Requests
import BeanKey.Library.Memo
import BeanKey.Dictionary.Store
import BeanKey.Dictionary.Matches
import BeanKey.Dictionary.Shards
import BeanKey.Dictionary.Prefixes
import BeanKey.Engine.Offsets
import BeanKey.Macos.Session
import BeanKey.Macos.Panel
import BeanKey.Macos.Sound
import BeanKey.Macos.Operations
import BeanKey.Macos.Runs
import BeanKey.Macos.Chosen
import BeanKey.Session.Predictions
import BeanKey.Session.Stable
import BeanKey.Library.Beginning
import BeanKey.Session.Offered
import BeanKey.Dictionary.Spelled
import BeanKey.Library.Scanning
import BeanKey.Session.Expanded
