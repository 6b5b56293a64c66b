import Rinit.Parser
import Rinit.Schedule
import Rinit.Plan
import Rinit.Start
import Rinit.Control
import Rinit.Supervise
import Rinit.Timer
import Rinit.Stops
import Rinit.Retry
import Rinit.Cache
import Rinit.ReloadOrder
import Rinit.Tracked
import Rinit.Resurrect
import Rinit.BatchOrder
import Rinit.Post
import Rinit.Flows
import Rinit.Orders
import Rinit.Soft
import Rinit.Requires
import Rinit.Accepted
import Rinit.Queued
import Rinit.Targets
import Rinit.Stranded
import Rinit.Exclusive
import Rinit.Books
import Rinit.StopCommands
import Rinit.Owners
import Rinit.Serving
import Rinit.Directory
import Rinit.Tended
import Rinit.Sockets
import Rinit.Teardown
import Rinit.Listeners
import Rinit.Drain
import Rinit.Notify
import Rinit.Readiness
import Rinit.Cycles
import Rinit.Activation
import Rinit.Merge
import Rinit.Codec
import Rinit.Protocol
import Rinit.Continuations
import Rinit.Quoting
import Rinit.WellFormed
import Rinit.Breaker
import Rinit.Delays
import Rinit.Cascades
import Rinit.Resolved
import Rinit.Conflicts
import Rinit.Probes
import Rinit.Observed
import Rinit.Holes
import Rinit.Templates
import Rinit.Instances
import Rinit.Json
import Rinit.Render
import Rinit.Fitting
import Rinit.Logger
import Rinit.LogReply
import Rinit.LogQueue
import Rinit.Lines
import Rinit.Rotation
import Rinit.LogFile
import Rinit.Lossy
import Rinit.Capture
import Rinit.RateLimit
import Rinit.Environment
import Rinit.Mounts
import Rinit.Digest
import Rinit.Sextets
import Rinit.Crypt
import Rinit.Passwords
import Rinit.Waits
import Rinit.FileLog
import Rinit.Streaming
import Rinit.NameLaws
import Rinit.Levels
import Rinit.Ledger
import Rinit.Identity
import Rinit.Progress
import Rinit.Connection
import Rinit.CommandLine
import Rinit.Fstab
import Rinit.Mounting
