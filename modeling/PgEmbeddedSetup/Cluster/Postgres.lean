import PgEmbeddedSetup.Cluster.Shutdown
import PgEmbeddedSetup.Fs.Ambient
import PgEmbeddedSetup.Worker.Cleanup

/-!
# The value of the server and who drops it

Bootstrap, setup, start and shutdown, followed for the `PostgreSQL` values that they own. A dropped
value may remove its data directory and its password file: that depends on the `temporary` flag of
its settings, of which `postgresql_embedded` has a default. A value is modelled by its settings, and
dropping it is an instruction, which stands where the value goes out of scope.

The shutdown paths are those of `Cluster.Shutdown` with the drops added (`erase_drop`,
`erase_stopAsync`, `erase_task`).
-/

namespace PgEmbeddedSetup.Postgres

open Program Lexical Worker
open Cluster (CleanupMode CleanupMode.none FilePath JoinAnswer OsString RemoveAnswer ShutdownState
  StopAnswer StopAsyncPath WorkerOperation)

/-- `postgresql_embedded::Settings`. -/
structure Settings extends Cluster.Settings where
  temporary : Bool
  deriving DecidableEq

/-- The `postgresql_embedded` crate: its default settings, and what is removed when a `PostgreSQL`
with these settings is dropped. -/
structure Embedded where
  defaultSettings : Settings
  removedOnDrop : Settings → List FilePath

structure Embedded.Documented (crate : Embedded) : Prop where
  temporary_default : crate.defaultSettings.temporary = true
  removed_temporary : ∀ s : Settings, s.temporary = true →
    crate.removedOnDrop s = [s.dataDir, s.passwordFile]
  removed_kept : ∀ s : Settings, s.temporary = false → crate.removedOnDrop s = []

inductive ExecutionPrivileges where
  | root
  | unprivileged
  deriving DecidableEq, Repr

/-- What the programs read of the bootstrap settings. -/
structure TestBootstrapSettings where
  privileges : ExecutionPrivileges
  settings : Settings
  cleanupMode : CleanupMode
  shutdownTimeout : Nat
  deriving DecidableEq

/-! ### Bootstrap -/

abbrev Utf8PathBuf := { path : FilePath // isUtf8Path path = true }

structure PgEnvCfg where
  runtimeDir : Option Utf8PathBuf
  dataDir : Option Utf8PathBuf

/-- The process: its user, the id of `nobody`, its configuration and the shutdown timeout. -/
structure Host where
  euid : Nat
  nobody : Nat
  cfg : PgEnvCfg
  shutdownTimeout : Nat

def detectExecutionPrivileges (euid : Nat) : ExecutionPrivileges :=
  if euid = 0 then .root else .unprivileged

def defaultPathsFor (uid : Nat) : FilePath × FilePath :=
  let base := Path.absolute [Fs.osString "var", Fs.osString "tmp",
    Fs.osString ("pg-embed-" ++ toString uid)]
  (base.join (Path.ofName (Fs.osString "install")), base.join (Path.ofName (Fs.osString "data")))

/-- Version, connection and locale are left out, and so are the limits for tests. -/
def toSettingsWithContext (crate : Embedded) (cfg : PgEnvCfg) : Settings :=
  let s := crate.defaultSettings
  { s with
    dataDir := cfg.dataDir.elim s.dataDir Subtype.val
    installationDir := cfg.runtimeDir.elim s.installationDir Subtype.val }

def settingsPathsFromSettings (settings : Settings) : Except String Settings :=
  if !isUtf8Path settings.installationDir then .error "installation_dir must be valid UTF-8"
  else if !isUtf8Path settings.dataDir then .error "data_dir must be valid UTF-8"
  else .ok { settings with
    passwordFile := settings.installationDir.join (Path.ofName (Fs.osString ".pgpass")) }

def resolveSettingsPathsForUid (settings : Settings) (cfg : PgEnvCfg) (uid : Nat) :
    Except String Settings :=
  let settings := { settings with
    installationDir :=
      if cfg.runtimeDir.isNone then (defaultPathsFor uid).1 else settings.installationDir
    dataDir := if cfg.dataDir.isNone then (defaultPathsFor uid).2 else settings.dataDir }
  settingsPathsFromSettings settings

/-- Worker subprocesses drop after each operation, so the data directory is kept. -/
def bootstrapWithRoot (settings : Settings) (cfg : PgEnvCfg) (nobody : Nat) :
    Except String Settings :=
  let settings := { settings with temporary := false }
  resolveSettingsPathsForUid settings cfg nobody

def bootstrapUnprivileged (settings : Settings) (cfg : PgEnvCfg) (euid : Nat) :
    Except String Settings :=
  resolveSettingsPathsForUid settings cfg euid

def prepareBootstrap (privileges : ExecutionPrivileges) (settings : Settings) (host : Host) :
    Except String Settings :=
  match privileges with
  | .root => bootstrapWithRoot settings host.cfg host.nobody
  | .unprivileged => bootstrapUnprivileged settings host.cfg host.euid

/-- The part of the bootstrap that decides the settings. The directories that it creates are
prepared by an instruction, which may fail. -/
def orchestrateBootstrap (crate : Embedded) (host : Host) :
    Except String TestBootstrapSettings := do
  let privileges := detectExecutionPrivileges host.euid
  let settings ← prepareBootstrap privileges (toSettingsWithContext crate host.cfg) host
  return ⟨privileges, settings, .dataOnly, host.shutdownTimeout⟩

/-! ### Instructions -/

/-- What a worker process does. `needsReset` is the question of the recovery: there is a data
directory that is not empty and has no marker of `initdb`. A stop without a `postmaster.pid` counts
as done. -/
inductive WorkerInstr where
  | load
  | isSetupComplete
  | needsReset
  | resetDataDir (dataDir : FilePath)
  | setup
  | isStarted
  | start
  | stop
  | cleanup (i : Cluster.Instr)
  | dropPostgres (postgres : Settings)
  deriving DecidableEq

@[reducible] def WorkerInstr.Answer : WorkerInstr → Type
  | .isSetupComplete | .isStarted => Bool
  | .needsReset => Except String Bool
  | .load | .resetDataDir _ | .setup | .start | .stop => Except String Unit
  | .cleanup i => i.Answer
  | .dropPostgres _ => Unit

abbrev WorkerCode := Prog WorkerInstr WorkerInstr.Answer

/-- The tasks of a dropped guard. That of a server in the process owns the server. -/
inductive Task where
  | workerStop (bootstrap : TestBootstrapSettings)
  | asyncCleanup (postgres : Settings) (bootstrap : TestBootstrapSettings)
  deriving DecidableEq

/-- `setup` answers with the installation directory that the value has afterwards. A step of a
worker is answered by none where the worker is killed in it. -/
inductive Instr where
  | cluster (i : Cluster.Instr)
  | prepare
  | useBinaryCache
  | populateBinaryCache
  | resolveInstalledDir
  | readPort
  | setup (postgres : Settings)
  | start (postgres : Settings)
  | dropPostgres (postgres : Settings)
  | spawn (task : Task)
  | spawnBlocking (bootstrap : TestBootstrapSettings)
  | invokeAsRoot (operation : WorkerOperation) (settings : Settings)
  | worker (i : WorkerInstr)
  deriving DecidableEq

@[reducible] def Instr.Answer : Instr → Type
  | .cluster i => i.Answer
  | .useBinaryCache => Option OsString
  | .resolveInstalledDir => Option FilePath
  | .setup _ => Except String FilePath
  | .prepare | .readPort | .start _ | .invokeAsRoot _ _ => Except String Unit
  | .populateBinaryCache | .dropPostgres _ | .spawn _ | .spawnBlocking _ => Unit
  | .worker i => Option i.Answer

abbrev Code := Prog Instr Instr.Answer

def call (i : Instr) : Code i.Answer := Prog.call i

/-- A program of `Cluster.Shutdown` that owns no server. -/
def lift {α : Type} (p : Cluster.Code α) : Code α := p.interp fun i => call (.cluster i)

/-! ### The worker -/

namespace Operation

def call (i : WorkerInstr) : WorkerCode i.Answer := Prog.call i

def runPostgresSetup (settings : Settings) : WorkerCode (Except String Unit) := do
  if ← call .isSetupComplete then pure (.ok ())
  else
    match ← call .needsReset with
    | .error err => pure (.error err)
    | .ok false => call .setup
    | .ok true => do
      match ← call (.resetDataDir settings.dataDir) with
      | .error err => pure (.error err)
      | .ok () => call .setup

def ensurePostgresStarted (settings : Settings) : WorkerCode (Except String Unit) := do
  match ← runPostgresSetup settings with
  | .error err => pure (.error err)
  | .ok () => do
    if ← call .isStarted then pure (.ok ()) else call .start

def runSetupOp (settings : Settings) : WorkerCode (Except String Unit) := do
  let result ← runPostgresSetup settings
  call (.dropPostgres settings)
  pure result

/-- The value of a started server is forgotten. -/
def runStartOp (settings : Settings) : WorkerCode (Except String Unit) := do
  match ← ensurePostgresStarted settings with
  | .error err => do
    call (.dropPostgres settings)
    pure (.error err)
  | .ok () => pure (.ok ())

def runStopOp (settings : Settings) : WorkerCode (Except String Unit) := do
  let result ← call .stop
  call (.dropPostgres settings)
  pure result

def runCleanupOp (full : Bool) (settings : Settings) : WorkerCode (Except String Unit) := do
  match ← (runWorkerCleanup full settings.toSettings).interp fun i => call (.cleanup i) with
  | .error _ => pure (.error "cleanup failed")
  | .ok () => pure (.ok ())

def runWorker (operation : WorkerOperation) (settings : Settings) :
    WorkerCode (Except String Unit) := do
  match ← call .load with
  | .error err => pure (.error err)
  | .ok () =>
    match operation with
    | .setup => runSetupOp settings
    | .start => runStartOp settings
    | .stop => runStopOp settings
    | .cleanup => runCleanupOp false settings
    | .cleanupFull => runCleanupOp true settings

end Operation

/-- A worker that is killed, by its timeout or otherwise, is an error for the caller. -/
def watch : WorkerCode (Except String Unit) → Code (Except String Unit)
  | .ret result => .ret result
  | .exec i k => .exec (.worker i) fun answer =>
      answer.elim (.ret (.error "worker killed")) fun answer => watch (k answer)

/-- The program of the worker in place of the request to it. -/
def expand : (i : Instr) → Code i.Answer
  | .invokeAsRoot operation settings => watch (Operation.runWorker operation settings)
  | i => call i

/-! ### Setup and start -/

/-- A cached version is copied below the installation directory. -/
def tryUseBinaryCache (bootstrap : TestBootstrapSettings) :
    Code (Bool × TestBootstrapSettings) := do
  match ← call .useBinaryCache with
  | none => pure (false, bootstrap)
  | some version => pure (true, { bootstrap with
      settings := { bootstrap.settings with
        installationDir := bootstrap.settings.installationDir.join (Path.ofName version) } })

def populateCacheOnMiss (cacheHit : Bool) : Code Unit :=
  if cacheHit then pure () else call .populateBinaryCache

def refreshWorkerInstallationDir (bootstrap : TestBootstrapSettings) :
    Code TestBootstrapSettings := do
  if bootstrap.privileges ≠ .root then pure bootstrap
  else
    match ← call .resolveInstalledDir with
    | none => pure bootstrap
    | some installedDir => pure { bootstrap with
        settings := { bootstrap.settings with installationDir := installedDir } }

def refreshWorkerPort (bootstrap : TestBootstrapSettings) : Code (Except String Unit) :=
  if bootstrap.privileges ≠ .root then pure (.ok ()) else call .readPort

def invokeAsRoot (operation : WorkerOperation) (bootstrap : TestBootstrapSettings) :
    Code (Except String Unit) :=
  call (.invokeAsRoot operation bootstrap.settings)

def invokeLifecycleRoot (bootstrap : TestBootstrapSettings) :
    Code (Except String TestBootstrapSettings) := do
  match ← invokeAsRoot .setup bootstrap with
  | .error err => pure (.error err)
  | .ok () => do
    let bootstrap ← refreshWorkerInstallationDir bootstrap
    match ← invokeAsRoot .start bootstrap with
    | .error err => pure (.error err)
    | .ok () => do
      match ← refreshWorkerPort bootstrap with
      | .error err => pure (.error err)
      | .ok () => pure (.ok bootstrap)

/-- The value, as the setup leaves it, and the result. -/
def setupEmbedded (embedded : Settings) : Code (Settings × Except String Unit) := do
  match ← call (.setup embedded) with
  | .error err => pure (embedded, .error err)
  | .ok installationDir => pure ({ embedded with installationDir }, .ok ())

def invokeLifecycle (bootstrap : TestBootstrapSettings) (embedded : Settings) :
    Code (Settings × Except String Unit) := do
  match ← setupEmbedded embedded with
  | (embedded, .error err) => pure (embedded, .error err)
  | (embedded, .ok ()) => do
    let bootstrap ← refreshWorkerInstallationDir bootstrap
    match ← call (.start embedded) with
    | .error err => pure (embedded, .error err)
    | .ok () => do
      let result ← refreshWorkerPort bootstrap
      pure (embedded, result)

structure StartupOutcome where
  bootstrap : TestBootstrapSettings
  postgres : Option Settings
  isManagedViaWorker : Bool

/-- The value goes to the caller, or it is dropped with the error. -/
def handlePrivilegeLifecycle (bootstrap : TestBootstrapSettings) :
    Code (Except String StartupOutcome) := do
  if bootstrap.privileges = .root then
    match ← invokeLifecycleRoot bootstrap with
    | .error err => pure (.error err)
    | .ok bootstrap => pure (.ok ⟨bootstrap, none, true⟩)
  else
    match ← invokeLifecycle bootstrap bootstrap.settings with
    | (embedded, .error err) => do
      call (.dropPostgres embedded)
      pure (.error err)
    | (embedded, .ok ()) =>
      pure (.ok ⟨{ bootstrap with settings := embedded }, some embedded, false⟩)

/-- `start_postgres` and `start_postgres_async`, which differ in what waits for the operations. -/
def startPostgres (bootstrap : TestBootstrapSettings) : Code (Except String StartupOutcome) := do
  let (cacheHit, bootstrap) ← tryUseBinaryCache bootstrap
  match ← handlePrivilegeLifecycle bootstrap with
  | .error err => pure (.error err)
  | .ok outcome => do
    populateCacheOnMiss cacheHit
    pure (.ok outcome)

/-- The value of an unprivileged setup goes out of scope here, with either result. -/
def setupWithPrivileges (bootstrap : TestBootstrapSettings) : Code (Except String Unit) := do
  if bootstrap.privileges = .root then invokeAsRoot .setup bootstrap
  else
    let (embedded, result) ← setupEmbedded bootstrap.settings
    call (.dropPostgres embedded)
    pure result

def setupLifecycle (bootstrap : TestBootstrapSettings) :
    Code (Except String TestBootstrapSettings) := do
  let (cacheHit, bootstrap) ← tryUseBinaryCache bootstrap
  match ← setupWithPrivileges bootstrap with
  | .error err => pure (.error err)
  | .ok () => do
    let bootstrap ← refreshWorkerInstallationDir bootstrap
    populateCacheOnMiss cacheHit
    pure (.ok bootstrap)

def buildRuntime : Code (Except String Unit) := call (.cluster .buildRuntime)

def setupPostgresOnly (bootstrap : TestBootstrapSettings) :
    Code (Except String TestBootstrapSettings) := do
  match ← buildRuntime with
  | .error err => pure (.error err)
  | .ok () => setupLifecycle bootstrap

/-! ### Shutdown -/

def cleanupInProcess (bootstrap : TestBootstrapSettings) : Code Unit :=
  lift (Cluster.cleanupInProcess bootstrap.cleanupMode bootstrap.settings.toSettings)

def cleanupWorkerManagedWithRuntime (bootstrap : TestBootstrapSettings) : Code Unit :=
  match Cluster.cleanupOperation bootstrap.cleanupMode with
  | none => pure ()
  | some operation => do
    let _ ← invokeAsRoot operation bootstrap
    pure ()

def stopWorkerManagedWithRuntime (bootstrap : TestBootstrapSettings) :
    Code (Except String Unit) := do
  match ← invokeAsRoot .stop bootstrap with
  | .error err => pure (.error err)
  | .ok () => do
    cleanupWorkerManagedWithRuntime bootstrap
    cleanupInProcess bootstrap
    pure (.ok ())

def stopViaWorkerSync (bootstrap : TestBootstrapSettings) : Code (Except String Unit) := do
  match ← buildRuntime with
  | .error err => pure (.error err)
  | .ok () => stopWorkerManagedWithRuntime bootstrap

def workerStopSync (bootstrap : TestBootstrapSettings) : Code Unit := do
  match ← buildRuntime with
  | .error _ => pure ()
  | .ok () => do
    let _ ← stopWorkerManagedWithRuntime bootstrap
    pure ()

def stopPostgres (bootstrap : TestBootstrapSettings) : Code StopAnswer :=
  call (.cluster (.stopPostgres bootstrap.shutdownTimeout))

/-- The task owns the server until it ends. -/
def asyncCleanupTask (postgres : Settings) (bootstrap : TestBootstrapSettings) : Code Unit := do
  match ← stopPostgres bootstrap with
  | .stopped => do
    cleanupInProcess bootstrap
    call (.dropPostgres postgres)
  | .failed _ | .timedOut | .interrupted => call (.dropPostgres postgres)

def Task.run : Task → Code Unit
  | .workerStop bootstrap => workerStopSync bootstrap
  | .asyncCleanup postgres bootstrap => asyncCleanupTask postgres bootstrap

structure ClusterGuard where
  isAsync : Bool
  postgres : Option Settings
  bootstrap : TestBootstrapSettings
  isManagedViaWorker : Bool
  deriving DecidableEq

namespace ClusterGuard

def withCleanupMode (guard : ClusterGuard) (cleanupMode : CleanupMode) : ClusterGuard :=
  { guard with bootstrap := { guard.bootstrap with cleanupMode } }

def shouldSkipShutdown (guard : ClusterGuard) : Bool :=
  guard.postgres.isNone && !guard.isManagedViaWorker

/-- The server that was stopped is dropped before the cleanup, whatever the stop has answered. -/
def dropSyncCluster (guard : ClusterGuard) : Code Unit := do
  if guard.isManagedViaWorker then
    let _ ← stopWorkerManagedWithRuntime guard.bootstrap
    pure ()
  else
    match guard.postgres with
    | none => pure ()
    | some postgres => do
      let outcome ← stopPostgres guard.bootstrap
      call (.dropPostgres postgres)
      if outcome = .stopped then cleanupInProcess guard.bootstrap else pure ()

def dropAsyncWorkerManaged (bootstrap : TestBootstrapSettings) : Code Unit := do
  if ← call (.cluster .tryCurrent) then call (.spawn (.workerStop bootstrap)) else pure ()

/-- Without a runtime the server goes out of scope. -/
def dropAsyncInProcess (postgres : Settings) (bootstrap : TestBootstrapSettings) : Code Unit := do
  if ← call (.cluster .tryCurrent) then call (.spawn (.asyncCleanup postgres bootstrap))
  else call (.dropPostgres postgres)

def dropAsyncCluster (guard : ClusterGuard) : Code Unit :=
  if guard.isManagedViaWorker then dropAsyncWorkerManaged guard.bootstrap
  else
    match guard.postgres with
    | none => pure ()
    | some postgres => dropAsyncInProcess postgres guard.bootstrap

def performShutdown (guard : ClusterGuard) : Code Unit :=
  if guard.isAsync then guard.dropAsyncCluster else guard.dropSyncCluster

def drop (guard : ClusterGuard) : Code Unit :=
  if guard.shouldSkipShutdown then pure () else guard.performShutdown

end ClusterGuard

structure ClusterHandle where
  bootstrap : TestBootstrapSettings
  deriving DecidableEq

structure TestCluster where
  handle : ClusterHandle
  guard : ClusterGuard
  deriving DecidableEq

/-- Unlike that of the guard alone, this one makes a new handle too. -/
def TestCluster.withCleanupMode (cluster : TestCluster) (cleanupMode : CleanupMode) : TestCluster :=
  let guard := cluster.guard.withCleanupMode cleanupMode
  ⟨⟨guard.bootstrap⟩, guard⟩

/-- The path with the server that it takes, and the guard that is left. -/
def stopAsyncPath (guard : ClusterGuard) : StopAsyncPath × Option Settings × ClusterGuard :=
  if guard.isManagedViaWorker then (.workerManaged, none, guard)
  else
    match guard.postgres with
    | some postgres => (.inProcess, some postgres, { guard with postgres := none })
    | none => (.noop, none, guard)

def stopWorkerManagedAsync (bootstrap : TestBootstrapSettings) :
    Code (Option (Except String Unit)) := do
  call (.spawnBlocking bootstrap)
  match ← call (.cluster .join) with
  | .finished result => pure (some result)
  | .panicked err => pure (some (.error ("worker stop task panicked: " ++ err)))
  | .interrupted => pure none

/-- The server is an argument, so it is dropped when the function returns, and with its future. -/
def stopInProcessAsync (postgres : Settings) (bootstrap : TestBootstrapSettings) :
    Code (Option (Except String Unit)) := do
  match ← stopPostgres bootstrap with
  | .stopped => do
    cleanupInProcess bootstrap
    call (.dropPostgres postgres)
    pure (some (.ok ()))
  | .failed err => do
    call (.dropPostgres postgres)
    pure (some (.error ("failed to stop postgres: " ++ err)))
  | .timedOut => do
    call (.dropPostgres postgres)
    pure (some (.error
      ("stop timed out after " ++ toString (bootstrap.shutdownTimeout / 1000) ++ "s")))
  | .interrupted => do
    call (.dropPostgres postgres)
    pure none

def stopAsync (guard : ClusterGuard) : Code (Option (Except String Unit)) := do
  let result ←
    match stopAsyncPath guard with
    | (.workerManaged, _, _) => stopWorkerManagedAsync guard.bootstrap
    | (.inProcess, some postgres, _) => stopInProcessAsync postgres guard.bootstrap
    | _ => pure (some (.ok ()))
  (stopAsyncPath guard).2.2.drop
  pure result

def TestBootstrapSettings.shutdownState (bootstrap : TestBootstrapSettings) : ShutdownState :=
  ⟨bootstrap.settings.toSettings, bootstrap.shutdownTimeout, bootstrap.cleanupMode⟩

def shutdownCallback (bootstrap : TestBootstrapSettings) : Code Unit :=
  lift (Cluster.shutdownCallback (some bootstrap.shutdownState))

/-! ### The shutdown paths without the drops -/

def TestBootstrapSettings.erase (bootstrap : TestBootstrapSettings) :
    Cluster.TestBootstrapSettings :=
  ⟨bootstrap.settings.toSettings, bootstrap.cleanupMode, bootstrap.shutdownTimeout⟩

def Task.erase : Task → Cluster.Task
  | .workerStop bootstrap => .workerStop bootstrap.erase
  | .asyncCleanup _ bootstrap => .asyncCleanup bootstrap.erase

def ClusterGuard.erase (guard : ClusterGuard) : Cluster.ClusterGuard :=
  ⟨guard.isAsync, guard.postgres.isSome, guard.bootstrap.erase, guard.isManagedViaWorker⟩

/-- A drop is silent. The instructions of bootstrap, setup and start are not part of a shutdown. -/
def erase : (i : Instr) → Cluster.Code i.Answer
  | .cluster i => Prog.call i
  | .spawn task => Prog.call (Cluster.Instr.spawn task.erase)
  | .spawnBlocking bootstrap => Prog.call (Cluster.Instr.spawnBlocking bootstrap.erase)
  | .invokeAsRoot operation _ => Prog.call (Cluster.Instr.invokeAsRoot operation)
  | .dropPostgres _ | .populateBinaryCache => pure ()
  | .useBinaryCache | .resolveInstalledDir => pure none
  | .setup _ | .prepare | .readPort | .start _ => pure (.error "")
  | .worker _ => pure none

theorem erase_lift {α : Type} (p : Cluster.Code α) : (lift p).interp erase = p := by
  induction p with
  | ret a => rfl
  | exec i k ih =>
    show Prog.exec i (fun r => (lift (k r)).interp erase) = _
    congr 1
    funext r
    exact ih r

theorem erase_cleanupInProcess (bootstrap : TestBootstrapSettings) :
    (cleanupInProcess bootstrap).interp erase =
      Cluster.cleanupInProcess bootstrap.cleanupMode bootstrap.settings.toSettings :=
  erase_lift _

theorem erase_cleanupWorkerManaged (bootstrap : TestBootstrapSettings) :
    (cleanupWorkerManagedWithRuntime bootstrap).interp erase =
      Cluster.cleanupWorkerManagedWithRuntime bootstrap.erase := by
  unfold cleanupWorkerManagedWithRuntime Cluster.cleanupWorkerManagedWithRuntime
  cases h : Cluster.cleanupOperation bootstrap.cleanupMode with
  | none => simp only [TestBootstrapSettings.erase, h]; rfl
  | some operation => simp only [TestBootstrapSettings.erase, h]; rfl

theorem erase_stopWorkerManaged (bootstrap : TestBootstrapSettings) :
    (stopWorkerManagedWithRuntime bootstrap).interp erase =
      Cluster.stopWorkerManagedWithRuntime bootstrap.erase := by
  show Prog.exec _ _ = Prog.exec _ _
  congr 1
  funext answer
  cases answer with
  | error err => rfl
  | ok u =>
    show Prog.interp erase (cleanupWorkerManagedWithRuntime bootstrap >>= _) = _
    rw [Prog.interp_bind, erase_cleanupWorkerManaged]
    congr 1
    funext _
    rw [Prog.interp_bind, erase_cleanupInProcess]
    rfl

theorem erase_stopViaWorkerSync (bootstrap : TestBootstrapSettings) :
    (stopViaWorkerSync bootstrap).interp erase = Cluster.stopViaWorkerSync bootstrap.erase := by
  show Prog.exec _ _ = Prog.exec _ _
  congr 1
  funext answer
  cases answer with
  | error err => rfl
  | ok u => exact erase_stopWorkerManaged bootstrap

theorem erase_task (task : Task) : task.run.interp erase = task.erase.run := by
  show _ = Cluster.Task.run _
  cases task with
  | workerStop bootstrap =>
    show Prog.exec _ _ = Prog.exec _ _
    congr 1
    funext answer
    cases answer with
    | error err => rfl
    | ok u =>
      show Prog.interp erase (stopWorkerManagedWithRuntime bootstrap >>= _) = _
      rw [Prog.interp_bind, erase_stopWorkerManaged]
      rfl
  | asyncCleanup postgres bootstrap =>
    show Prog.exec _ _ = Prog.exec _ _
    congr 1
    funext answer
    cases answer with
    | stopped =>
      show Prog.interp erase (cleanupInProcess bootstrap >>= _) = _
      rw [Prog.interp_bind, erase_cleanupInProcess]
      exact Prog.bind_ret _
    | failed err => rfl
    | timedOut => rfl
    | interrupted => rfl

/-- **Dropping a guard is what `Cluster.Shutdown` says, with the server dropped on the way.** -/
theorem erase_drop (guard : ClusterGuard) : guard.drop.interp erase = guard.erase.drop := by
  obtain ⟨isAsync, postgres, bootstrap, isManagedViaWorker⟩ := guard
  unfold ClusterGuard.drop Cluster.ClusterGuard.drop ClusterGuard.performShutdown
    Cluster.ClusterGuard.performShutdown
  cases isManagedViaWorker with
  | true =>
    cases isAsync with
    | true =>
      cases postgres <;>
      · show Prog.exec _ _ = Prog.exec _ _
        congr 1
        funext answer
        cases answer <;> rfl
    | false =>
      cases postgres <;>
      · show Prog.interp erase (stopWorkerManagedWithRuntime bootstrap >>= _) = _
        rw [Prog.interp_bind, erase_stopWorkerManaged]
        rfl
  | false =>
    cases postgres with
    | none => rfl
    | some postgres =>
      cases isAsync with
      | true =>
        show Prog.exec _ _ = Prog.exec _ _
        congr 1
        funext answer
        cases answer <;> rfl
      | false =>
        show Prog.exec _ _ = Prog.exec _ _
        congr 1
        funext answer
        cases answer with
        | stopped => exact erase_cleanupInProcess bootstrap
        | failed err => rfl
        | timedOut => rfl
        | interrupted => rfl

theorem erase_stopInProcessAsync (postgres : Settings) (bootstrap : TestBootstrapSettings) :
    (stopInProcessAsync postgres bootstrap).interp erase =
      Cluster.stopInProcessAsync bootstrap.erase := by
  show Prog.exec _ _ = Prog.exec _ _
  congr 1
  funext answer
  cases answer with
  | stopped =>
    show Prog.interp erase (cleanupInProcess bootstrap >>= _) = _
    rw [Prog.interp_bind, erase_cleanupInProcess]
    rfl
  | failed err => rfl
  | timedOut => rfl
  | interrupted => rfl

theorem erase_stopWorkerManagedAsync (bootstrap : TestBootstrapSettings) :
    (stopWorkerManagedAsync bootstrap).interp erase =
      Cluster.stopWorkerManagedAsync bootstrap.erase := by
  show Prog.exec _ _ = Prog.exec _ _
  congr 1
  funext _
  show Prog.exec _ _ = Prog.exec _ _
  congr 1
  funext answer
  cases answer <;> rfl

theorem erase_stopAsync (guard : ClusterGuard) :
    (stopAsync guard).interp erase = Cluster.stopAsync guard.erase := by
  obtain ⟨isAsync, postgres, bootstrap, isManagedViaWorker⟩ := guard
  unfold stopAsync Cluster.stopAsync
  cases isManagedViaWorker with
  | true =>
    show Prog.interp erase (stopWorkerManagedAsync bootstrap >>= _) =
      Cluster.stopWorkerManagedAsync bootstrap.erase >>= _
    rw [Prog.interp_bind, erase_stopWorkerManagedAsync]
    congr 1
    funext result
    rw [Prog.interp_bind, erase_drop]
    rfl
  | false =>
    cases postgres with
    | none => rfl
    | some postgres =>
      show Prog.interp erase (stopInProcessAsync postgres bootstrap >>= _) =
        Cluster.stopInProcessAsync bootstrap.erase >>= _
      rw [Prog.interp_bind, erase_stopInProcessAsync]
      rfl

end PgEmbeddedSetup.Postgres
