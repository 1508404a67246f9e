import PgEmbeddedSetup.Base.Transition
import PgEmbeddedSetup.Cluster.Postgres

/-!
# The jobs of the library

The operations of the library are interleaved in any way: setups, starts, shutdowns, the tasks and
threads these leave behind, and the exit hook. Each is a job, with the cluster and the bootstrap settings
that it works for and the paths that it has removed so far. The client may set another cleanup mode
on a guard that it holds, and it may keep any handle and register the exit hook with it. `Kept` says of
the jobs that the data directory and the password file go only when the cleanup mode of the guard of the
cluster says so.
-/

namespace PgEmbeddedSetup.Postgres

open Program Transition Lexical Worker
open Cluster (CleanupMode FilePath OsString ShutdownState WorkerOperation)

/-! ### Jobs -/

/-- What a job returns to the client: the settings of a setup, or a cluster, as a handle and a guard or
in one piece. -/
inductive Outcome where
  | nothing
  | setup (bootstrap : TestBootstrapSettings)
  | split (handle : ClusterHandle) (guard : ClusterGuard)
  | whole (cluster : TestCluster)

namespace Outcome

def guard? : Outcome → Option ClusterGuard
  | .split _ guard => some guard
  | .whole cluster => some cluster.guard
  | _ => none

def handle? : Outcome → Option ClusterHandle
  | .split handle _ => some handle
  | .whole cluster => some cluster.handle
  | _ => none

/-- `with_cleanup_mode` of the guard or of the whole cluster. -/
def withCleanupMode (cleanupMode : CleanupMode) : Outcome → Outcome
  | .split handle guard => .split handle (guard.withCleanupMode cleanupMode)
  | .whole cluster => .whole (cluster.withCleanupMode cleanupMode)
  | outcome => outcome

end Outcome

/-- What a client does with a guard. -/
inductive Consumption where
  | stopAsync
  | drop
  deriving DecidableEq, Repr

def Consumption.run : Consumption → ClusterGuard → Code Outcome
  | .stopAsync, guard => do
    let _ ← Postgres.stopAsync guard
    pure .nothing
  | .drop, guard => do
    guard.drop
    pure .nothing

/-- `run`, after the settings are there. -/
def runSetupOnlyLifecycle (bootstrap : TestBootstrapSettings) : Code Outcome := do
  match ← call .prepare with
  | .error _ => pure .nothing
  | .ok () => do
    match ← setupPostgresOnly bootstrap with
    | .error _ => pure .nothing
    | .ok bootstrap => pure (.setup bootstrap)

/-- `new_split` and `start_async_split`, after the settings are there. The second builds no runtime. -/
def newSplit (isAsync : Bool) (bootstrap : TestBootstrapSettings) : Code Outcome := do
  match ← call .prepare with
  | .error _ => pure .nothing
  | .ok () => do
    match ← (if isAsync then pure (.ok ()) else buildRuntime : Code (Except String Unit)) with
    | .error _ => pure .nothing
    | .ok () => do
      match ← startPostgres bootstrap with
      | .error _ => pure .nothing
      | .ok outcome =>
        pure (.split ⟨outcome.bootstrap⟩
          ⟨isAsync, outcome.postgres, outcome.bootstrap, outcome.isManagedViaWorker⟩)

/-- `new` and `start_async`. -/
def new (isAsync : Bool) (bootstrap : TestBootstrapSettings) : Code Outcome := do
  match ← newSplit isAsync bootstrap with
  | .split handle guard => pure (.whole ⟨handle, guard⟩)
  | outcome => pure outcome

def Task.code (task : Task) : Code Outcome := do
  task.run
  pure .nothing

def blockingCode (bootstrap : TestBootstrapSettings) : Code Outcome := do
  let _ ← stopViaWorkerSync bootstrap
  pure .nothing

def hookCode (bootstrap : TestBootstrapSettings) : Code Outcome := do
  shutdownCallback bootstrap
  pure .nothing

/-- A job. The cluster that it works for is known by the number of the job that starts it. The guard that
it has returned is consumed once. -/
structure Job where
  cluster : Nat
  bootstrap : TestBootstrapSettings
  code : Code Outcome
  removed : List FilePath
  consumed : Bool

/-- Requests to a worker are replaced by what the worker does. -/
def Job.new (cluster : Nat) (bootstrap : TestBootstrapSettings) (code : Code Outcome) : Job :=
  ⟨cluster, bootstrap, code.interp expand, [], false⟩

/-- A handle of a cluster, which the client or the exit hook has. -/
structure Held where
  cluster : Nat
  handle : ClusterHandle

structure State where
  jobs : List Job
  handles : List Held
  hook : Option Held

def State.init : State := ⟨[], [], none⟩

inductive Action where
  | run
  | newSplit (isAsync : Bool)
  | new (isAsync : Bool)
  | advance (job : Nat) (answers : (i : Instr) → i.Answer)
  | withCleanupMode (job : Nat) (cleanupMode : CleanupMode)
  | consume (job : Nat) (how : Consumption)
  | forget (job : Nat)
  | cloneHandle (job : Nat)
  | registerShutdownOnExit (handle : Nat)
  | exit

/-- What an instruction removes, if it does what it is asked for. -/
def removes (crate : Embedded) : Instr → List FilePath
  | .cluster (.removeDirAll path) => [path]
  | .worker (.cleanup (.removeDirAll path)) => [path]
  | .worker (.resetDataDir path) => [path]
  | .dropPostgres postgres | .worker (.dropPostgres postgres) => crate.removedOnDrop postgres
  | _ => []

/-- The jobs that an instruction starts. -/
def spawned (cluster : Nat) (bootstrap : TestBootstrapSettings) : Instr → List Job
  | .spawn task => [Job.new cluster bootstrap task.code]
  | .spawnBlocking bootstrap => [Job.new cluster bootstrap (blockingCode bootstrap)]
  | _ => []

variable (crate : Embedded) (host : Host)

def State.start (s : State) (code : TestBootstrapSettings → Code Outcome) : State :=
  match orchestrateBootstrap crate host with
  | .error _ => s
  | .ok bootstrap => { s with jobs := s.jobs ++ [Job.new s.jobs.length bootstrap (code bootstrap)] }

/-- The hook keeps the handle that it is first registered with. -/
def step (s : State) : Action → Option State
  | .run => some (s.start crate host runSetupOnlyLifecycle)
  | .newSplit isAsync => some (s.start crate host (newSplit isAsync))
  | .new isAsync => some (s.start crate host (new isAsync))
  | .advance n answers =>
    match s.jobs[n]? with
    | some ⟨cluster, bootstrap, .exec i k, removed, consumed⟩ =>
      some { s with
        jobs :=
          s.jobs.set n ⟨cluster, bootstrap, k (answers i), removed ++ removes crate i, consumed⟩ ++
            spawned cluster bootstrap i }
    | _ => none
  | .withCleanupMode n cleanupMode =>
    match s.jobs[n]? with
    | some ⟨cluster, bootstrap, .ret outcome, removed, false⟩ =>
      some { s with
        jobs := s.jobs.set n
          ⟨cluster, bootstrap, .ret (outcome.withCleanupMode cleanupMode), removed, false⟩ }
    | _ => none
  | .consume n how =>
    match s.jobs[n]? with
    | some ⟨cluster, bootstrap, .ret outcome, removed, false⟩ =>
      outcome.guard?.map fun guard => { s with
        jobs := s.jobs.set n ⟨cluster, bootstrap, .ret outcome, removed, true⟩ ++
          [Job.new cluster guard.bootstrap (how.run guard)] }
    | _ => none
  | .forget n =>
    match s.jobs[n]? with
    | some ⟨cluster, bootstrap, .ret outcome, removed, false⟩ =>
      some { s with jobs := s.jobs.set n ⟨cluster, bootstrap, .ret outcome, removed, true⟩ }
    | _ => none
  | .cloneHandle n =>
    match s.jobs[n]? with
    | some ⟨cluster, _, .ret outcome, _, _⟩ =>
      outcome.handle?.map fun handle => { s with handles := s.handles ++ [⟨cluster, handle⟩] }
    | _ => none
  | .registerShutdownOnExit n =>
    match s.handles[n]? with
    | some held => some (if s.hook.isNone then { s with hook := some held } else s)
    | none => none
  | .exit =>
    match s.hook with
    | none => some s
    | some ⟨cluster, handle⟩ =>
      some { s with
        jobs := s.jobs ++ [Job.new cluster handle.bootstrap (hookCode handle.bootstrap)] }

/-! ### What the cleanup mode says -/

/-- The cleanup mode says that what is at the path goes: `DataOnly` the data directory, `Full` the
installation directory too. -/
def Says (bootstrap : TestBootstrapSettings) (path : FilePath) : Prop :=
  Cluster.shouldRemoveData bootstrap.cleanupMode = true ∧
      path.startsWith bootstrap.settings.dataDir = true ∨
    Cluster.shouldRemoveInstall bootstrap.cleanupMode = true ∧
      path.startsWith bootstrap.settings.installationDir = true

/-- With this path neither the data directory nor the password file is removed, unless the cleanup mode
says so. -/
def Licensed (bootstrap : TestBootstrapSettings) (path : FilePath) : Prop :=
  ∀ file, file = bootstrap.settings.dataDir ∨ file = bootstrap.settings.passwordFile →
    file.startsWith path = true → Says bootstrap file

def Job.guard? (job : Job) : Option ClusterGuard :=
  match job.code with
  | .ret outcome => outcome.guard?
  | .exec .. => none

def guardIn (jobs : List Job) (cluster : Nat) : Option ClusterGuard :=
  jobs[cluster]?.bind Job.guard?

/-- The guard of a cluster. -/
def State.guardOf (s : State) (cluster : Nat) : Option ClusterGuard := guardIn s.jobs cluster

/-- The settings of a job with the cleanup mode that the guard of its cluster has. -/
def State.configured (s : State) (job : Job) : TestBootstrapSettings :=
  match s.guardOf job.cluster with
  | some guard => { job.bootstrap with cleanupMode := guard.bootstrap.cleanupMode }
  | none => job.bootstrap

/-- The data directory and the password file are removed only when the cleanup mode that is set on the
cluster says so, and a setup that has returned `Ok` has left the data directory in place. -/
structure Kept (s : State) : Prop where
  licensed : ∀ job ∈ s.jobs, ∀ path ∈ job.removed, Licensed (s.configured job) path
  setup : ∀ job ∈ s.jobs, ∀ bootstrap, job.code = .ret (.setup bootstrap) →
    ∀ path ∈ job.removed, job.bootstrap.settings.dataDir.startsWith path = false

/-! ### The condition -/

/-- The next instruction is the reset of a data directory by a worker. -/
def Job.resets (job : Job) : Bool :=
  match job.code with
  | .exec (.worker (.resetDataDir _)) _ => true
  | _ => false

/-- The first mode removes no more than the second. -/
def NoMore (cleanupMode other : CleanupMode) : Prop :=
  (Cluster.shouldRemoveData cleanupMode = true → Cluster.shouldRemoveData other = true) ∧
    (Cluster.shouldRemoveInstall cleanupMode = true → Cluster.shouldRemoveInstall other = true)

/-- The step is no reset. When the exit hook starts, the mode that it has kept removes no more than that
of the guard, and while it runs no mode that removes less is set on the guard. -/
def Orderly (s : State) : Action → Prop
  | .advance n _ => (s.jobs[n]?).any Job.resets = false
  | .withCleanupMode n cleanupMode => ∀ (k : Nat) (job : Job), s.jobs[k]? = some job → k ≠ n →
    job.cluster = n → NoMore job.bootstrap.cleanupMode cleanupMode
  | .exit => ∀ held, s.hook = some held → ∀ guard, s.guardOf held.cluster = some guard →
    NoMore held.handle.bootstrap.cleanupMode guard.bootstrap.cleanupMode
  | _ => True

end PgEmbeddedSetup.Postgres
