import ObSink.Lib.Probe
import ObSink.Lib.Text
import ObSink.Lib.TreeMap
import ObSink.Lib.Critical
import ObSink.Types
import ObSink.Manifest
import ObSink.Server.Envelope
import ObSink.Server.Blobs
import ObSink.Server.Files
import ObSink.Server.Rollback
import ObSink.Server.Serial
import ObSink.Server.Race
import ObSink.Server.Ledger
import ObSink.Lib.Prog
import ObSink.Core.Crypto
import ObSink.Core.Ignore
import ObSink.Core.Rules
import ObSink.Core.Diff
import ObSink.Engine.Effect
import ObSink.Engine.Cycle
import ObSink.Engine.Honest
import ObSink.Engine.Rounds
import ObSink.Server.Resend
import ObSink.Server.History
import ObSink.Web.Scan
import ObSink.Web.Vaults
import ObSink.Web.Checkpoints
import ObSink.Engine.Converge
import ObSink.Engine.Fetch
import ObSink.Engine.QuietCycle
import ObSink.Engine.Leftover
import ObSink.Engine.Resume
import ObSink.Desktop.Daemons
import ObSink.Desktop.InFlight
import ObSink.Engine.Form
import ObSink.Lib.Lockstep
import ObSink.Ios.Changes
import ObSink.Ios.Mirror
import ObSink.Server.Invites
import ObSink.Server.Codes
import ObSink.Server.Approvals
import ObSink.Cli.AccountKey
import ObSink.Server.Cleanup
import ObSink.Server.Limits
import ObSink.Engine.Patterns
import ObSink.Lib.Transcript
import ObSink.Engine.Uploads
import ObSink.Lib.StableSort
import ObSink.Server.Retention
import ObSink.Lib.JsObject
import ObSink.Web.Objects
import ObSink.Engine.Walks
import ObSink.Lib.Posix
import ObSink.Lib.Lossy
import ObSink.Engine.Names
import ObSink.Engine.Edits
import ObSink.Engine.Sealed
import ObSink.Engine.Overwrites
import ObSink.Engine.Refusals
import ObSink.Lib.Writes
import ObSink.Engine.Aftermath
import ObSink.Engine.Copies
import ObSink.Lib.Replies
import ObSink.Engine.Confined
import ObSink.Core.Chunks
import ObSink.Engine.Debouncer
import ObSink.Engine.Overtaken
import ObSink.Engine.Agreement
import ObSink.Core.CopyNames
import ObSink.Lib.Ends
import ObSink.Core.ServerUrl
import ObSink.Server.Devices
import ObSink.Server.Places
import ObSink.Core.Handover
import ObSink.Lib.Like
import ObSink.Ios.Subtree
import ObSink.Server.Mails
import ObSink.Web.Driver
import ObSink.Web.Polls
import ObSink.Core.Pacing
import ObSink.Engine.RunDaemon
import ObSink.Engine.Watching
import ObSink.Engine.Polling
import ObSink.Lib.Select
import ObSink.Server.Tenancy
import ObSink.Server.Tokens
import ObSink.Lib.Together
import ObSink.Web.Sealed
import ObSink.Web.Agree
import ObSink.Server.Deletions
