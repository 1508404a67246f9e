import PgEmbeddedSetup.Base.Text
import PgEmbeddedSetup.Cluster.Cleanup

/-!
# Shutdown paths

`stop_async`, the drop of a `ClusterGuard` in its synchronous and asynchronous form, the background
tasks of both, and the exit hook, as programs over the instructions of `Cluster.Cleanup`.
-/

namespace PgEmbeddedSetup.Cluster

open Program Lexical Text

/-! ### Stopping -/

def stopWorkerManagedWithRuntime (bootstrap : TestBootstrapSettings) :
    Code (Except String Unit) := do
  match ← invokeAsRoot .stop with
  | .error err => pure (.error err)
  | .ok () => do
    cleanupWorkerManagedWithRuntime bootstrap
    cleanupInProcess bootstrap.cleanupMode bootstrap.settings
    pure (.ok ())

def buildRuntime : Code (Except String Unit) := Prog.call Instr.buildRuntime

def stopViaWorkerSync (bootstrap : TestBootstrapSettings) : Code (Except String Unit) := do
  match ← buildRuntime with
  | .error err => pure (.error err)
  | .ok () => stopWorkerManagedWithRuntime bootstrap

def workerStopSync (bootstrap : TestBootstrapSettings) : Code Unit := do
  match ← buildRuntime with
  | .error _ => pure ()
  | .ok () => do
    let _ ← stopWorkerManagedWithRuntime bootstrap
    pure ()

/-- The body of the task that `spawn_async_cleanup` starts. An interrupted task is gone. -/
def asyncCleanupTask (bootstrap : TestBootstrapSettings) : Code Unit :=
  .exec (.stopPostgres bootstrap.shutdownTimeout) fun
    | .stopped => cleanupInProcess bootstrap.cleanupMode bootstrap.settings
    | .failed _ | .timedOut | .interrupted => pure ()

def Task.run : Task → Code Unit
  | .workerStop bootstrap => workerStopSync bootstrap
  | .asyncCleanup bootstrap => asyncCleanupTask bootstrap

/-! ### Dropping the guard -/

/-- `postgres` says whether the guard still has the handle of the server. -/
structure ClusterGuard where
  isAsync : Bool
  postgres : Bool
  bootstrap : TestBootstrapSettings
  isManagedViaWorker : Bool
  deriving DecidableEq

namespace ClusterGuard

def shouldSkipShutdown (guard : ClusterGuard) : Bool :=
  !guard.postgres && !guard.isManagedViaWorker

def dropSyncCluster (guard : ClusterGuard) : Code Unit :=
  if guard.isManagedViaWorker then do
    let _ ← stopWorkerManagedWithRuntime guard.bootstrap
    pure ()
  else if guard.postgres then
    .exec (.stopPostgres guard.bootstrap.shutdownTimeout) fun
      | .stopped => cleanupInProcess guard.bootstrap.cleanupMode guard.bootstrap.settings
      | .failed _ | .timedOut | .interrupted => pure ()
  else pure ()

/-- Without a current runtime nothing is done. -/
def spawnOnCurrent (task : Task) : Code Unit :=
  .exec .tryCurrent fun
    | false => pure ()
    | true => .exec (.spawn task) pure

def dropAsyncCluster (guard : ClusterGuard) : Code Unit :=
  if guard.isManagedViaWorker then spawnOnCurrent (.workerStop guard.bootstrap)
  else if guard.postgres then spawnOnCurrent (.asyncCleanup guard.bootstrap)
  else pure ()

def performShutdown (guard : ClusterGuard) : Code Unit :=
  if guard.isAsync then guard.dropAsyncCluster else guard.dropSyncCluster

def drop (guard : ClusterGuard) : Code Unit :=
  if guard.shouldSkipShutdown then pure () else guard.performShutdown

end ClusterGuard

/-! ### `stop_async` -/

inductive StopAsyncPath where
  | workerManaged
  | inProcess
  | noop
  deriving DecidableEq, Repr

/-- The path, and the guard without the handle that the path has taken. -/
def stopAsyncPath (guard : ClusterGuard) : StopAsyncPath × ClusterGuard :=
  if guard.isManagedViaWorker then (.workerManaged, guard)
  else if guard.postgres then (.inProcess, { guard with postgres := false })
  else (.noop, guard)

/-- None when the future is dropped before the worker has stopped; the worker goes on. -/
def stopWorkerManagedAsync (bootstrap : TestBootstrapSettings) :
    Code (Option (Except String Unit)) :=
  .exec (.spawnBlocking bootstrap) fun _ =>
    .exec .join fun
      | .finished result => pure (some result)
      | .panicked err => pure (some (.error ("worker stop task panicked: " ++ err)))
      | .interrupted => pure none

def stopInProcessAsync (bootstrap : TestBootstrapSettings) : Code (Option (Except String Unit)) :=
  .exec (.stopPostgres bootstrap.shutdownTimeout) fun
    | .stopped => do
      cleanupInProcess bootstrap.cleanupMode bootstrap.settings
      pure (some (.ok ()))
    | .failed err => pure (some (.error ("failed to stop postgres: " ++ err)))
    | .timedOut => pure (some (.error
        ("stop timed out after " ++ toString (bootstrap.shutdownTimeout / 1000) ++ "s")))
    | .interrupted => pure none

/-- `stop_async` owns the cluster, so the guard is dropped before it returns, and also when its future
is dropped. -/
def stopAsync (guard : ClusterGuard) : Code (Option (Except String Unit)) := do
  let result ←
    match (stopAsyncPath guard).1 with
    | .workerManaged => stopWorkerManagedAsync guard.bootstrap
    | .inProcess => stopInProcessAsync guard.bootstrap
    | .noop => pure (some (.ok ()))
  (stopAsyncPath guard).2.drop
  pure result

/-! ### The exit hook -/

structure ShutdownState where
  settings : Settings
  shutdownTimeout : Nat
  cleanupMode : CleanupMode
  deriving DecidableEq

/-- `POLL_INTERVAL`. -/
def pollInterval : Nat := 50

/-- `POST_SIGKILL_GRACE`. -/
def postSigkillGrace : Nat := 100

/-- The pid in the contents of `postmaster.pid`. -/
def parsePostmasterPid (contents : List Char) : Option Int := do
  let line ← firstLine contents
  let pid ← parseInt 32 (trim line)
  if 0 < pid then some pid else none

def readPostmasterPid (dataDir : FilePath) : Code (Option Int) :=
  .exec (.readPidFile dataDir) fun
    | .contents text => pure (parsePostmasterPid text)
    | .notFound | .failed _ => pure none

def processIsRunning (pid : Int) : Code Bool :=
  if pid ≤ 0 then pure false
  else .exec (.kill pid .probe) fun
    | .esrch => pure false
    | .ok | .eperm | .other => pure true

/-- Polls until the process is gone or the rest of the timeout has passed. -/
def waitForExit (pid : Int) (remaining : Nat) : Code Bool := do
  if ← processIsRunning pid then
    .exec .elapsed fun (passed : Nat) =>
      if _ : remaining ≤ passed then pure false
      else .exec (.sleep pollInterval) fun _ =>
        waitForExit pid (remaining - passed - pollInterval)
  else pure true
termination_by remaining
decreasing_by
  have : 0 < pollInterval := by decide
  omega

def stopPostmaster (pid : Int) (state : ShutdownState) : Code Unit :=
  .exec (.kill pid .sigterm) fun _ => do
    if ← waitForExit pid state.shutdownTimeout then pure ()
    else .exec (.kill pid .sigkill) fun _ => .exec (.sleep postSigkillGrace) pure

def bestEffortCleanup (state : ShutdownState) : Code Unit :=
  cleanupInProcess state.cleanupMode state.settings

/-- The state is none while no hook is registered. -/
def shutdownCallback (state : Option ShutdownState) : Code Unit :=
  .exec .tryLockState fun
    | false => pure ()
    | true =>
      match state with
      | none => pure ()
      | some state => do
        match ← readPostmasterPid state.settings.dataDir with
        | none => bestEffortCleanup state
        | some pid => do
          if ← processIsRunning pid then
            stopPostmaster pid state
            bestEffortCleanup state
          else bestEffortCleanup state

end PgEmbeddedSetup.Cluster
