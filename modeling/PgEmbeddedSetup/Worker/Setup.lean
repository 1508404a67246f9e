import PgEmbeddedSetup.Fs.Ambient

/-!
# The setup and start operations of the worker

The worker prepares the data directory in up to three steps: it returns at once where it takes the
setup to be complete, it resets a directory that an interrupted `initdb` has left, and it lets
`postgresql_embedded` set the server up. The two parts of the decision look at different things:
`is_setup_complete` at `PG_VERSION` and the status of the installation, and
`recover_invalid_data_dir` at the marker that `initdb` writes.

Each call on the file system may fail, and each is made once in an operation at most, so an operation
is given the failures by call site. The `postgresql_embedded` crate is given by what its operations do
to the file system.
-/

namespace PgEmbeddedSetup.Worker

open Env Fs Lexical Posix

/-- `postgresql_embedded::Status`. -/
inductive Status where
  | notInstalled
  | installed
  | stopped
  | started
  deriving DecidableEq

/-- The error of a helper, with the text that it is displayed as or the cause. -/
inductive BoxError where
  | io (e : Errno)
  | message (text : String)

/-- `postgresql_embedded::Error`, of which the worker tells two cases apart. -/
inductive PgError where
  | databaseStopError (message : String)
  | ioError (message : String)
  | other (message : String)

/-- The errors of the setup, start and stop operations. A recovery error is displayed as
`data dir recovery: {step}: {cause}`, and a failed server operation as
`postgres operation failed: {operation} failed: {cause}`. -/
inductive WorkerError where
  | postgresOperation (operation : String) (cause : PgError)
  | dataDirRecovery (step : String) (cause : BoxError)

/-- A program of the worker: it changes the file system, and ends with a value or an error. -/
abbrev Run (ε α : Type) := EStateM ε (FileSystem OsString) α

/-- What `PostgreSQL` does. A failed operation may have changed the file system too. -/
structure PostgreSQL where
  setup : Run PgError Unit
  start : Run PgError Unit
  stop : Run PgError Unit

/-- What a worker process meets: its working directory, the calls that fail, and what `pg.status()`
reports when it is asked for the setup and for the start. -/
structure Conditions where
  cwd : Location OsString
  isDir : Option Fault
  version : Option Fault
  existsCheck : Option Fault
  openForValidation : Option Fault
  marker : Option Fault
  openForEmptyCheck : Option Fault
  list : Option Fault
  /-- The first entry of the listing cannot be read. -/
  firstEntry : Option Fault
  openForReset : Option Fault
  /-- The removal stops, and leaves these. -/
  remove : Option (Fault × (Location OsString → Bool))
  setupStatus : Status
  startStatus : Status

/-- `PG_FILENODE_MAP_MARKER`. -/
def pgFilenodeMapMarker : Utf8Path :=
  (Path.ofName (osString "global")).join (Path.ofName (osString "pg_filenode.map"))

def isSetupComplete (fs : FileSystem OsString) (c : Conditions) (dataDir : Utf8Path) : Bool :=
  pathIsDir fs c.cwd c.isDir dataDir
    && pathExists fs c.cwd c.version (dataDir.join (Path.ofName (osString "PG_VERSION")))
    && c.setupStatus != .notInstalled

/-- Every failure of the lookup of the marker counts as absence. -/
def hasValidDataDir (fs : FileSystem OsString) (c : Conditions) (dataDir : Utf8Path) :
    Except Errno Bool := do
  let (dir, rel) ← ambientDirAndPath fs c.cwd c.openForValidation dataDir
  return dirExists fs dir c.marker (rel.join pgFilenodeMapMarker)

/-- An entry that cannot be read is an entry. -/
def isDirEmpty (fs : FileSystem OsString) (c : Conditions) (dataDir : Utf8Path) :
    Except Errno Bool := do
  let (dir, rel) ← ambientDirAndPath fs c.cwd c.openForEmptyCheck dataDir
  let entries ← dirReadDir fs dir c.list rel
  return c.firstEntry.isNone && entries.isEmpty

def resetDataDir (c : Conditions) (dataDir : Utf8Path) : Run BoxError Unit := fun fs =>
  match ambientDirAndPath fs c.cwd c.openForReset dataDir with
  | .error e => .error (.io e) fs
  | .ok (dir, rel) =>
    if rel.isEmpty then .error (.message "cannot reset root directory") fs
    else
      match dirRemoveDirAll fs dir c.remove rel with
      | (.ok (), fs') => .ok () fs'
      | (.error .notFound, fs') => .ok () fs'
      | (.error e, fs') => .error (.io e) fs'

def performDataDirReset (c : Conditions) (dataDir : Utf8Path) : Run WorkerError Unit :=
  (resetDataDir c dataDir).adaptExcept (.dataDirRecovery "reset")

def recoverInvalidDataDir (c : Conditions) (dataDir : Utf8Path) :
    Run WorkerError Unit := fun fs =>
  if pathExists fs c.cwd c.existsCheck dataDir then
    match hasValidDataDir fs c dataDir with
    | .error e => .error (.dataDirRecovery "validation" (.io e)) fs
    | .ok isValid =>
      match isDirEmpty fs c dataDir with
      | .error e => .error (.dataDirRecovery "empty check" (.io e)) fs
      | .ok isEmpty =>
        if !isValid && !isEmpty then performDataDirReset c dataDir fs
        else .ok () fs
  else .ok () fs

def runSetup (pg : PostgreSQL) : Run WorkerError Unit :=
  pg.setup.adaptExcept (.postgresOperation "setup")

def runPostgresSetup (pg : PostgreSQL) (c : Conditions) (dataDir : Utf8Path) :
    Run WorkerError Unit := do
  if isSetupComplete (← get) c dataDir then
    return
  recoverInvalidDataDir c dataDir
  runSetup pg

def startIfNotStarted (pg : PostgreSQL) (c : Conditions) :
    Run WorkerError Unit :=
  if c.startStatus = .started then pure ()
  else pg.start.adaptExcept (.postgresOperation "start")

def ensurePostgresStarted (pg : PostgreSQL) (c : Conditions) (dataDir : Utf8Path) :
    Run WorkerError Unit := do
  runPostgresSetup pg c dataDir
  startIfNotStarted pg c

def executeSetup (pg : PostgreSQL) (c : Conditions) (dataDir : Utf8Path) :
    Run WorkerError Unit :=
  runPostgresSetup pg c dataDir

def executeStart (pg : PostgreSQL) (c : Conditions) (dataDir : Utf8Path) :
    Run WorkerError Unit :=
  ensurePostgresStarted pg c dataDir

def contains (message part : String) : Bool := decide (part.toList <:+: message.toList)

/-- There is nothing to stop if there is no `postmaster.pid`. -/
def stopMissingPidIsOk : PgError → Bool
  | .databaseStopError m | .ioError m =>
    contains m "postmaster.pid" && contains m "does not exist"
  | .other _ => false

def executeStop (pg : PostgreSQL) : Run WorkerError Unit := fun fs =>
  match pg.stop fs with
  | .ok () fs' => .ok () fs'
  | .error e fs' =>
    if stopMissingPidIsOk e then .ok () fs'
    else .error (.postgresOperation "stop" e) fs'

end PgEmbeddedSetup.Worker
