import PgEmbeddedSetup.Base.Path
import PgEmbeddedSetup.Base.Program

/-!
# Removing directories after a stop

The instructions of the shutdown code, and the cleanup that all of its paths end with. A directory is
removed by one `removeDirAll`, after the checks on its path, or by the worker on request.
-/

namespace PgEmbeddedSetup.Cluster

open Program Lexical

abbrev OsString := List UInt8

abbrev FilePath := Path OsString

inductive CleanupMode where
  | dataOnly
  | full
  | none
  deriving DecidableEq, Repr

structure Settings where
  dataDir : FilePath
  installationDir : FilePath
  passwordFile : FilePath
  deriving DecidableEq

/-- What shutdown reads of the bootstrap settings. The timeout is in milliseconds. -/
structure TestBootstrapSettings where
  settings : Settings
  cleanupMode : CleanupMode
  shutdownTimeout : Nat
  deriving DecidableEq

inductive WorkerOperation where
  | setup
  | start
  | stop
  | cleanup
  | cleanupFull
  deriving DecidableEq, Repr

/-! ### Instructions -/

/-- The tasks that a dropped guard spawns on the current runtime. -/
inductive Task where
  | workerStop (bootstrap : TestBootstrapSettings)
  | asyncCleanup (bootstrap : TestBootstrapSettings)
  deriving DecidableEq

inductive Signal where
  | probe
  | sigterm
  | sigkill
  deriving DecidableEq, Repr

/-- `spawnBlocking` runs `stop_via_worker_sync` on a thread of its own, and `join` awaits that.
`stopPostgres` is `PostgreSQL::stop` under a timeout. `elapsed` reads the clock: its answer is the
time since the reading before, without the time that was slept. -/
inductive Instr where
  | buildRuntime
  | tryCurrent
  | spawn (task : Task)
  | spawnBlocking (bootstrap : TestBootstrapSettings)
  | join
  | invokeAsRoot (operation : WorkerOperation)
  | stopPostgres (timeout : Nat)
  | removeDirAll (path : FilePath)
  | tryLockState
  | readPidFile (dataDir : FilePath)
  | kill (pid : Int) (signal : Signal)
  | elapsed
  | sleep (duration : Nat)
  deriving DecidableEq

/-- How an awaited stop ends. It is interrupted when the future is dropped before it is ready, or when
the runtime cannot block. -/
inductive StopAnswer where
  | stopped
  | failed (err : String)
  | timedOut
  | interrupted
  deriving DecidableEq, Repr

inductive JoinAnswer where
  | finished (result : Except String Unit)
  | panicked (err : String)
  | interrupted

inductive RemoveAnswer where
  | removed
  | notFound
  | failed (err : String)
  deriving DecidableEq, Repr

inductive PidFileAnswer where
  | contents (text : List Char)
  | notFound
  | failed (err : String)
  deriving DecidableEq, Repr

inductive KillAnswer where
  | ok
  | esrch
  | eperm
  | other
  deriving DecidableEq, Repr

@[reducible] def Instr.Answer : Instr → Type
  | .buildRuntime => Except String Unit
  | .tryCurrent => Bool
  | .join => JoinAnswer
  | .invokeAsRoot _ => Except String Unit
  | .stopPostgres _ => StopAnswer
  | .removeDirAll _ => RemoveAnswer
  | .tryLockState => Bool
  | .readPidFile _ => PidFileAnswer
  | .kill _ _ => KillAnswer
  | .elapsed => Nat
  | .spawn _ | .spawnBlocking _ | .sleep _ => Unit

abbrev Code := Prog Instr Instr.Answer

/-! ### Removing one directory -/

inductive RemovalOutcome where
  | removed
  | missing
  deriving DecidableEq, Repr

def isEmptyOrRoot (path : FilePath) : Bool :=
  match path.components with
  | [] => true
  | .curDir :: rest | .rootDir :: rest => rest.isEmpty
  | _ => false

/-- `guard_removal_path` lets the path pass. -/
def guardRemovalPath (path : FilePath) : Bool :=
  !(isEmptyOrRoot path || path.hasParentDir)

def tryRemoveDirAll (path : FilePath) : Code (Except String RemovalOutcome) :=
  if guardRemovalPath path then
    .exec (.removeDirAll path) fun
      | .removed => pure (.ok .removed)
      | .notFound => pure (.ok .missing)
      | .failed err => pure (.error err)
  else
    pure (.error "refuse to remove unsafe path")

def isDangerousCleanupPath (path : FilePath) : Bool :=
  path.isEmpty || (path.isAbsolute && path.parent.isNone)

/-- Failures are logged. -/
def removeDirAllIfExists (path : FilePath) : Code Unit :=
  if isDangerousCleanupPath path then pure ()
  else do
    let _ ← tryRemoveDirAll path
    pure ()

/-! ### Cleanup in the process -/

def shouldRemoveData : CleanupMode → Bool
  | .dataOnly | .full => true
  | .none => false

def shouldRemoveInstall : CleanupMode → Bool
  | .full => true
  | _ => false

def shouldRemoveInstallRoot (parent : FilePath) (settings : Settings) : Bool :=
  parent != settings.installationDir && !parent.hasParentDir &&
    parent.startsWith settings.installationDir

def cleanupDataDir (mode : CleanupMode) (settings : Settings) : Code Unit :=
  if shouldRemoveData mode then removeDirAllIfExists settings.dataDir else pure ()

def cleanupInstallDir (mode : CleanupMode) (settings : Settings) : Code Unit :=
  if shouldRemoveInstall mode then do
    removeDirAllIfExists settings.installationDir
    match settings.passwordFile.parent with
    | none => pure ()
    | some parent =>
      if shouldRemoveInstallRoot parent settings then removeDirAllIfExists parent else pure ()
  else pure ()

def cleanupInProcess (mode : CleanupMode) (settings : Settings) : Code Unit :=
  if mode = .none then pure ()
  else do
    cleanupDataDir mode settings
    cleanupInstallDir mode settings

/-! ### Cleanup by the worker -/

def invokeAsRoot (operation : WorkerOperation) : Code (Except String Unit) :=
  Prog.call (Instr.invokeAsRoot operation)

def cleanupOperation : CleanupMode → Option WorkerOperation
  | .dataOnly => some .cleanup
  | .full => some .cleanupFull
  | .none => none

def cleanupWorkerManagedWithRuntime (bootstrap : TestBootstrapSettings) : Code Unit :=
  match cleanupOperation bootstrap.cleanupMode with
  | none => pure ()
  | some operation => do
    let _ ← invokeAsRoot operation
    pure ()

end PgEmbeddedSetup.Cluster
