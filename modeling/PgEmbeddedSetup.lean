import PgEmbeddedSetup.Base.Outcome
import PgEmbeddedSetup.Base.UndoLog
import PgEmbeddedSetup.Env.State
import PgEmbeddedSetup.Env.Spec
import PgEmbeddedSetup.Env.Ledger
import PgEmbeddedSetup.Env.Runs
import PgEmbeddedSetup.Env.Scoped
import PgEmbeddedSetup.Env.Threads
import PgEmbeddedSetup.Base.Program
import PgEmbeddedSetup.Base.Transition
import PgEmbeddedSetup.Base.Crash
import PgEmbeddedSetup.Base.Halting
import PgEmbeddedSetup.Base.Place
import PgEmbeddedSetup.Base.Mirror
import PgEmbeddedSetup.Base.Deadlock
import PgEmbeddedSetup.Base.LockTable
import PgEmbeddedSetup.Cluster.Database
import PgEmbeddedSetup.Cluster.Postgres
import PgEmbeddedSetup.Cluster.Installation
import PgEmbeddedSetup.Cluster.Jobs
import PgEmbeddedSetup.Cluster.Licensed
import PgEmbeddedSetup.Cluster.Kept
import PgEmbeddedSetup.Cluster.Removals
import PgEmbeddedSetup.Base.FileSystem
import PgEmbeddedSetup.Base.Interleave
import PgEmbeddedSetup.Cluster.Template
import PgEmbeddedSetup.Cluster.TemplateWaits
import PgEmbeddedSetup.Cluster.Ensured
import PgEmbeddedSetup.Base.Path
import PgEmbeddedSetup.Base.Resolve
import PgEmbeddedSetup.Base.PathText
import PgEmbeddedSetup.Base.Way
import PgEmbeddedSetup.Fs.Ambient
import PgEmbeddedSetup.Cache.Syscalls
import PgEmbeddedSetup.Cache.Permissions
import PgEmbeddedSetup.Cache.Copy
import PgEmbeddedSetup.Cache.Lock
import PgEmbeddedSetup.Cache.Calls
import PgEmbeddedSetup.Cache.CopyTree
import PgEmbeddedSetup.Cache.Repair
import PgEmbeddedSetup.Cache.FreshCopy
import PgEmbeddedSetup.Cache.Entries
import PgEmbeddedSetup.Cache.Territory
import PgEmbeddedSetup.Worker.Setup
import PgEmbeddedSetup.Worker.Recovery
import PgEmbeddedSetup.Worker.Request
import PgEmbeddedSetup.Worker.Exchange
import PgEmbeddedSetup.Worker.Parties
import PgEmbeddedSetup.Worker.ParentMoves
import PgEmbeddedSetup.Worker.Requests
import PgEmbeddedSetup.Worker.Payload
import PgEmbeddedSetup.Privileges.Ownership
import PgEmbeddedSetup.Privileges.Walk
import PgEmbeddedSetup.Privileges.Frame
import PgEmbeddedSetup.Base.Utf8
import PgEmbeddedSetup.TestSupport.SharedSingleton
import PgEmbeddedSetup.TestSupport.SharedWaits
import PgEmbeddedSetup.TestSupport.Hash
import PgEmbeddedSetup.TestSupport.Collisions
import PgEmbeddedSetup.Base.SortedJoin
import PgEmbeddedSetup.TestSupport.Reordering
import PgEmbeddedSetup.Base.Overlay
import PgEmbeddedSetup.TestSupport.Staging
import PgEmbeddedSetup.Base.Highest
import PgEmbeddedSetup.Base.Text
import PgEmbeddedSetup.Base.Lines
import PgEmbeddedSetup.Base.Sql
import PgEmbeddedSetup.Cluster.Statements
import PgEmbeddedSetup.Cluster.Cleanup
import PgEmbeddedSetup.Cluster.CleanupPaths
import PgEmbeddedSetup.Worker.Cleanup
import PgEmbeddedSetup.Worker.CleanupSafety
import PgEmbeddedSetup.Worker.CleanupAgreement
import PgEmbeddedSetup.Worker.CleanupRoot
import PgEmbeddedSetup.Worker.Process
import PgEmbeddedSetup.Cluster.Shutdown
import PgEmbeddedSetup.Cluster.PidFile
import PgEmbeddedSetup.Cluster.Observed
import PgEmbeddedSetup.Cluster.Succession
import PgEmbeddedSetup.Cluster.StopOnce
import PgEmbeddedSetup.Cluster.Signals
import PgEmbeddedSetup.Cluster.Startup
import PgEmbeddedSetup.Cluster.CacheIntegration
import PgEmbeddedSetup.Cluster.CachePopulation
import PgEmbeddedSetup.Cluster.Lookup
import PgEmbeddedSetup.Cluster.CacheSharing
import PgEmbeddedSetup.Cluster.CacheRuns
import PgEmbeddedSetup.Cache.Barring
import PgEmbeddedSetup.Cluster.HalfCopies
import PgEmbeddedSetup.Cluster.CacheProtocol
import PgEmbeddedSetup.Cache.LockNames
import PgEmbeddedSetup.Worker.Discovery
import PgEmbeddedSetup.Cache.Endings
import PgEmbeddedSetup.Cache.Obstacles
import PgEmbeddedSetup.Cache.Overlap
import PgEmbeddedSetup.Bootstrap.Order
import PgEmbeddedSetup.Bootstrap.Prepared
