import PgEmbeddedSetup.Cluster.Jobs
import PgEmbeddedSetup.Cluster.Observed

/-!
# What the operations remove as root

Each program is followed once. Where the settings are not temporary, a setup or a start removes
nothing (`meets_runSetupOnlyLifecycle`, `meets_new`), and a shutdown removes what the cleanup
mode says at most (`expands_drop`, `expands_stopAsync`, `expands_hook`). The reset of a data directory
by a worker is set apart.
-/

namespace PgEmbeddedSetup.Postgres

open Program Transition Lexical Worker
open Cluster (CleanupMode FilePath OsString ShutdownState WorkerOperation)

variable {crate : Embedded}

/-! ### The workers -/

def IsReset (i : Instr) : Prop := ∃ dataDir, i = .worker (.resetDataDir dataDir)

/-- The instruction removes nothing and starts nothing, or it is a reset. -/
def Quiet (crate : Embedded) (i : Instr) : Prop :=
  IsReset i ∨ removes crate i = [] ∧ ∀ cluster bootstrap, spawned cluster bootstrap i = []

/-- The instruction removes what the cleanup mode says at most, or it is a reset. -/
def Within (crate : Embedded) (bootstrap : TestBootstrapSettings) (i : Instr) : Prop :=
  IsReset i ∨ (∀ path ∈ removes crate i, Licensed bootstrap path) ∧
    ∀ cluster b, spawned cluster b i = []

theorem Quiet.within {i : Instr} (h : Quiet crate i) (bootstrap : TestBootstrapSettings) :
    Within crate bootstrap i :=
  h.imp_right fun h => ⟨fun _ hpath => absurd (h.1 ▸ hpath) List.not_mem_nil, h.2⟩

theorem all_watch {P : Instr → Prop} {p : WorkerCode (Except String Unit)}
    (h : p.All fun i => P (.worker i)) : (watch p).All P := by
  induction p with
  | ret result => trivial
  | exec i k ih =>
    rw [watch]
    refine ⟨h.1, fun answer => ?_⟩
    cases answer with
    | none => trivial
    | some answer => exact ih answer (h.2 answer)

section Workers

variable {P : WorkerInstr → Prop} {settings : Settings}

theorem all_runPostgresSetup (hsetup : P .isSetupComplete ∧ P .needsReset ∧ P .setup)
    (hreset : P (.resetDataDir settings.dataDir)) :
    (Operation.runPostgresSetup settings).All P := by
  refine ⟨hsetup.1, fun complete => ?_⟩
  cases complete with
  | true => trivial
  | false =>
    refine ⟨hsetup.2.1, fun answer => ?_⟩
    match answer with
    | .error err => trivial
    | .ok false => exact ⟨hsetup.2.2, fun _ => trivial⟩
    | .ok true =>
      refine ⟨hreset, fun answer => ?_⟩
      cases answer with
      | error err => trivial
      | ok u => exact ⟨hsetup.2.2, fun _ => trivial⟩

theorem all_runWorker {operation : WorkerOperation} (hop : operation ≠ .cleanup)
    (hopFull : operation ≠ .cleanupFull) (hplain : ∀ i, (∀ c, i ≠ .cleanup c) →
      (∀ s, i ≠ .dropPostgres s) → (∀ d, i ≠ .resetDataDir d) → P i)
    (hreset : P (.resetDataDir settings.dataDir)) (hdrop : P (.dropPostgres settings)) :
    (Operation.runWorker operation settings).All P := by
  have hsetup : (Operation.runPostgresSetup settings).All P :=
    all_runPostgresSetup ⟨hplain .isSetupComplete nofun nofun nofun,
      hplain .needsReset nofun nofun nofun, hplain .setup nofun nofun nofun⟩ hreset
  refine ⟨hplain .load nofun nofun nofun, fun answer => ?_⟩
  cases answer with
  | error err => trivial
  | ok u =>
    cases operation with
    | cleanup => exact absurd rfl hop
    | cleanupFull => exact absurd rfl hopFull
    | setup => exact hsetup.bind fun result => ⟨hdrop, fun _ => trivial⟩
    | stop =>
      exact ⟨hplain .stop nofun nofun nofun, fun result => ⟨hdrop, fun _ => trivial⟩⟩
    | start =>
      have hstart : (Operation.ensurePostgresStarted settings).All P := by
        refine hsetup.bind fun result => ?_
        cases result with
        | error err => trivial
        | ok u =>
          refine ⟨hplain .isStarted nofun nofun nofun, fun started => ?_⟩
          cases started with
          | true => trivial
          | false => exact ⟨hplain .start nofun nofun nofun, fun _ => trivial⟩
      refine hstart.bind fun result => ?_
      cases result with
      | error err => exact ⟨hdrop, fun _ => trivial⟩
      | ok u => trivial

end Workers

theorem quiet_invokeAsRoot (hcrate : crate.Documented) {settings : Settings}
    (hsettings : settings.temporary = false) {operation : WorkerOperation}
    (hop : operation ≠ .cleanup) (hopFull : operation ≠ .cleanupFull) :
    (expand (.invokeAsRoot operation settings)).All (Quiet crate) := by
  refine all_watch (all_runWorker hop hopFull (fun i hcleanup hdrop hreset => ?_)
    (Or.inl ⟨_, rfl⟩) (Or.inr ⟨hcrate.removed_kept settings hsettings, fun _ _ => rfl⟩))
  refine Or.inr ⟨?_, fun _ _ => rfl⟩
  cases i with
  | cleanup c => exact absurd rfl (hcleanup c)
  | dropPostgres s => exact absurd rfl (hdrop s)
  | resetDataDir d => exact absurd rfl (hreset d)
  | _ => rfl

/-! ### The cleanups -/

section Cleanups

variable {P : Cluster.Instr → Prop} {settings : Cluster.Settings}

theorem all_tryRemoveDirAll {path : FilePath} (h : P (.removeDirAll path)) :
    (Cluster.tryRemoveDirAll path).All P := by
  unfold Cluster.tryRemoveDirAll
  split
  · refine ⟨h, fun answer => ?_⟩
    cases answer <;> trivial
  · trivial

theorem all_removeDirAllIfExists {path : FilePath} (h : P (.removeDirAll path)) :
    (Cluster.removeDirAllIfExists path).All P := by
  unfold Cluster.removeDirAllIfExists
  split
  · trivial
  · exact (all_tryRemoveDirAll h).bind fun _ => trivial

theorem all_cleanupInProcess {mode : CleanupMode}
    (hdata : Cluster.shouldRemoveData mode = true → P (.removeDirAll settings.dataDir))
    (hinstall : Cluster.shouldRemoveInstall mode = true → ∀ path : FilePath,
      path.startsWith settings.installationDir = true → P (.removeDirAll path)) :
    (Cluster.cleanupInProcess mode settings).All P := by
  unfold Cluster.cleanupInProcess
  split
  · trivial
  refine Prog.All.bind ?_ fun _ => ?_
  · unfold Cluster.cleanupDataDir
    split
    next h => exact all_removeDirAllIfExists (hdata h)
    next => trivial
  · unfold Cluster.cleanupInstallDir
    split
    next h =>
      refine (all_removeDirAllIfExists (hinstall h _ (Path.startsWith_self _))).bind fun _ => ?_
      split
      · trivial
      split
      next hroot =>
        rw [Cluster.shouldRemoveInstallRoot, Bool.and_eq_true] at hroot
        exact all_removeDirAllIfExists (hinstall h _ hroot.2)
      next => trivial
    next => trivial

theorem startsWith_of_extractInstallRoot {installDir path : FilePath}
    (h : extractInstallRoot settings installDir = .ok (some path)) :
    path.startsWith installDir = true := by
  unfold extractInstallRoot at h
  obtain ⟨pgpass, -, h⟩ := Outcome.except_bind_eq_ok.mp h
  split at h
  next => cases h
  next parent _ =>
    split at h
    · cases h
    split at h
    · cases h
    split at h
    · cases h
    split at h
    · cases h
    next hstarts =>
      obtain rfl : parent = path := Option.some.inj (Except.ok.inj h)
      simpa using hstarts

theorem all_collectRemovalError {failures : List RemovalFailure} {path : FilePath} {label : String}
    (h : P (.removeDirAll path)) : (collectRemovalError failures path label).All P := by
  refine (all_tryRemoveDirAll h).bind fun result => ?_
  cases result <;> trivial

theorem all_collectIfGiven {failures : List RemovalFailure} {path : Option FilePath} {label : String}
    (h : ∀ p, path = some p → P (.removeDirAll p)) : (collectIfGiven failures path label).All P := by
  cases path with
  | none => trivial
  | some path => exact all_collectRemovalError (h path rfl)

theorem all_runWorkerCleanup {full : Bool} (hdata : P (.removeDirAll settings.dataDir))
    (hinstall : full = true → ∀ path : FilePath,
      path.startsWith settings.installationDir = true → P (.removeDirAll path)) :
    (runWorkerCleanup full settings).All P := by
  have hexecute : ∀ installDir installRoot, (∀ p, installDir = some p → P (.removeDirAll p)) →
      (∀ p, installRoot = some p → P (.removeDirAll p)) →
      (executeCleanup settings.dataDir installDir installRoot).All P := by
    intro installDir installRoot hdir hroot
    refine (all_collectRemovalError hdata).bind fun _ => ?_
    refine (all_collectIfGiven hdir).bind fun _ => ?_
    refine (all_collectIfGiven fun p hp => hroot p ?_).bind fun _ => trivial
    exact (Option.filter_eq_some_iff.mp hp).1
  unfold runWorkerCleanup extractDataDir extractInstallDir extractPath
  split
  next => trivial
  next dataDir hdir =>
    obtain rfl : settings.dataDir = dataDir := by
      split at hdir
      · exact Except.ok.inj hdir
      · cases hdir
    cases full with
    | false => exact hexecute none none nofun nofun
    | true =>
      simp only [if_true]
      split
      next => trivial
      next installDir hinst =>
        obtain rfl : settings.installationDir = installDir := by
          split at hinst
          · exact Except.ok.inj hinst
          · cases hinst
        split
        next => trivial
        next installRoot hroot =>
          refine hexecute _ _ (fun p hp => ?_) fun p hp => ?_
          · exact Option.some.inj hp ▸ hinstall rfl _ (Path.startsWith_self _)
          · exact hinstall rfl p (startsWith_of_extractInstallRoot (hp ▸ hroot))

end Cleanups

/-! ### The shutdown paths -/

section Shutdown

variable {bootstrap : TestBootstrapSettings}

theorem licensed_dataDir (h : Cluster.shouldRemoveData bootstrap.cleanupMode = true) :
    Licensed bootstrap bootstrap.settings.dataDir :=
  fun _ _ hstarts => Or.inl ⟨h, hstarts⟩

theorem licensed_installation (h : Cluster.shouldRemoveInstall bootstrap.cleanupMode = true)
    {path : FilePath} (hpath : path.startsWith bootstrap.settings.installationDir = true) :
    Licensed bootstrap path :=
  fun _ _ hstarts => Or.inr ⟨h, Path.startsWith_trans hstarts hpath⟩

theorem within_of_licensed {i : Cluster.Instr} {j : Instr}
    (hj : j = .cluster i ∨ j = .worker (.cleanup i))
    (h : ∀ path, i = .removeDirAll path → Licensed bootstrap path) : Within crate bootstrap j := by
  have hremoves : ∀ path ∈ removes crate j, Licensed bootstrap path := by
    intro path hpath
    cases i with
    | removeDirAll dir =>
      have hmem : path ∈ [dir] := by rcases hj with rfl | rfl <;> exact hpath
      exact List.mem_singleton.mp hmem ▸ h dir rfl
    | _ => rcases hj with rfl | rfl <;> exact absurd hpath List.not_mem_nil
  refine Or.inr ⟨hremoves, fun _ b => ?_⟩
  rcases hj with rfl | rfl <;> rfl

/-- An instruction of a shutdown: it removes what the cleanup mode says at most, or it starts a
program that stops the worker-managed cluster. -/
def Proper (crate : Embedded) (bootstrap : TestBootstrapSettings) (i : Instr) : Prop :=
  Within crate bootstrap i ∨ i = .spawn (.workerStop bootstrap) ∨ i = .spawnBlocking bootstrap

/-- What the instruction is expanded to is proper. -/
def Expands (crate : Embedded) (bootstrap : TestBootstrapSettings) (i : Instr) : Prop :=
  (expand i).All (Proper crate bootstrap)

theorem expands_cluster {i : Cluster.Instr}
    (h : ∀ path, i = .removeDirAll path → Licensed bootstrap path) :
    Expands crate bootstrap (.cluster i) :=
  ⟨Or.inl (within_of_licensed (Or.inl rfl) h), fun _ => trivial⟩

theorem all_lift {α : Type} {p : Cluster.Code α}
    (h : p.All fun i => ∀ path, i = .removeDirAll path → Licensed bootstrap path) :
    (lift p).All (Expands crate bootstrap) :=
  h.interp fun _ hi => ⟨expands_cluster hi, fun _ => trivial⟩

theorem all_licensed_cleanup (bootstrap : TestBootstrapSettings) :
    (Cluster.cleanupInProcess bootstrap.cleanupMode bootstrap.settings.toSettings).All
      fun i => ∀ path, i = .removeDirAll path → Licensed bootstrap path :=
  all_cleanupInProcess (fun h path heq => by cases heq; exact licensed_dataDir h)
    fun h path hpath path' heq => by cases heq; exact licensed_installation h hpath

theorem expands_cleanup : (cleanupInProcess bootstrap).All (Expands crate bootstrap) :=
  all_lift (all_licensed_cleanup bootstrap)

theorem expands_hook : (shutdownCallback bootstrap).All (Expands crate bootstrap) := by
  have hcleanup := all_licensed_cleanup bootstrap
  refine all_lift ⟨nofun, fun locked => ?_⟩
  cases locked with
  | false => trivial
  | true =>
    refine Prog.All.bind (p := Cluster.readPostmasterPid _) ⟨nofun, fun answer => ?_⟩ fun pid => ?_
    · cases answer <;> trivial
    cases pid with
    | none => exact hcleanup
    | some pid =>
      refine (Cluster.all_processIsRunning fun _ => nofun).bind fun running => ?_
      cases running with
      | false => exact hcleanup
      | true =>
        exact (Cluster.all_stopPostmaster (fun _ => nofun) nofun (fun _ => nofun) _).bind
          fun _ => hcleanup

variable (hcrate : crate.Documented) (hkept : bootstrap.settings.temporary = false)
include hcrate hkept

theorem expands_invokeAsRoot {operation : WorkerOperation} (hop : operation ≠ .cleanup)
    (hopFull : operation ≠ .cleanupFull) :
    Expands crate bootstrap (.invokeAsRoot operation bootstrap.settings) :=
  (quiet_invokeAsRoot hcrate hkept hop hopFull).imp fun _ h => Or.inl (h.within bootstrap)

omit hcrate hkept in
theorem expands_cleanupWorkerManaged :
    (cleanupWorkerManagedWithRuntime bootstrap).All (Expands crate bootstrap) := by
  have hquiet : Proper crate bootstrap (.worker .load) :=
    Or.inl (Or.inr ⟨fun _ h => absurd h List.not_mem_nil, fun _ _ => rfl⟩)
  have hworker : ∀ full, Cluster.shouldRemoveData bootstrap.cleanupMode = true →
      (full = true → Cluster.shouldRemoveInstall bootstrap.cleanupMode = true) →
      (Operation.runCleanupOp full bootstrap.settings).All
        fun i => Proper crate bootstrap (.worker i) := by
    intro full hdata hinstall
    refine Prog.All.bind ?_ fun result => by cases result <;> trivial
    have hall : (runWorkerCleanup full bootstrap.settings.toSettings).All
        fun i => ∀ path, i = .removeDirAll path → Licensed bootstrap path :=
      all_runWorkerCleanup (fun path heq => by cases heq; exact licensed_dataDir hdata)
        fun h path hpath path' heq => by cases heq; exact licensed_installation (hinstall h) hpath
    exact hall.interp fun i hi => ⟨Or.inl (within_of_licensed (Or.inr rfl) hi), fun _ => trivial⟩
  unfold cleanupWorkerManagedWithRuntime
  cases hmode : bootstrap.cleanupMode with
  | none => trivial
  | dataOnly =>
    refine ⟨all_watch ⟨hquiet, fun answer => ?_⟩, fun _ => trivial⟩
    cases answer with
    | error err => trivial
    | ok u => exact hworker false (by rw [hmode]; rfl) nofun
  | full =>
    refine ⟨all_watch ⟨hquiet, fun answer => ?_⟩, fun _ => trivial⟩
    cases answer with
    | error err => trivial
    | ok u => exact hworker true (by rw [hmode]; rfl) fun _ => by rw [hmode]; rfl

theorem expands_stopWorkerManaged :
    (stopWorkerManagedWithRuntime bootstrap).All (Expands crate bootstrap) := by
  refine ⟨expands_invokeAsRoot hcrate hkept nofun nofun, fun answer => ?_⟩
  cases answer with
  | error err => trivial
  | ok u => exact expands_cleanupWorkerManaged.bind fun _ => expands_cleanup.bind fun _ => trivial

theorem expands_stopViaWorkerSync :
    (stopViaWorkerSync bootstrap).All (Expands crate bootstrap) := by
  refine ⟨expands_cluster nofun, fun answer => ?_⟩
  cases answer with
  | error err => trivial
  | ok u => exact expands_stopWorkerManaged hcrate hkept

theorem expands_workerStopSync : (workerStopSync bootstrap).All (Expands crate bootstrap) := by
  refine ⟨expands_cluster nofun, fun answer => ?_⟩
  cases answer with
  | error err => trivial
  | ok u => exact (expands_stopWorkerManaged hcrate hkept).bind fun _ => trivial

omit hkept in
theorem expands_drop {guard : ClusterGuard} (hkept : guard.bootstrap.settings.temporary = false)
    (hpostgres : guard.postgres = none) :
    guard.drop.All (Expands crate guard.bootstrap) := by
  unfold ClusterGuard.drop ClusterGuard.performShutdown ClusterGuard.dropAsyncCluster
    ClusterGuard.dropSyncCluster
  rw [hpostgres]
  split
  · trivial
  split
  · split
    · refine ⟨expands_cluster nofun, fun answer => ?_⟩
      cases answer with
      | false => trivial
      | true => exact ⟨⟨Or.inr (Or.inl rfl), fun _ => trivial⟩, fun _ => trivial⟩
    · trivial
  · split
    · exact (expands_stopWorkerManaged hcrate hkept).bind fun _ => trivial
    · trivial

omit hkept in
theorem expands_stopAsync {guard : ClusterGuard}
    (hkept : guard.bootstrap.settings.temporary = false) (hpostgres : guard.postgres = none) :
    (stopAsync guard).All (Expands crate guard.bootstrap) := by
  have hdrop : ∀ result : Option (Except String Unit),
      (guard.drop >>= fun _ => Prog.ret result).All (Expands crate guard.bootstrap) :=
    fun result => (expands_drop hcrate hkept hpostgres).bind fun _ => trivial
  unfold stopAsync
  simp only [stopAsyncPath, hpostgres]
  cases guard.isManagedViaWorker with
  | true =>
    refine ⟨⟨Or.inr (Or.inr rfl), fun _ => trivial⟩, fun _ =>
      ⟨expands_cluster nofun, fun answer => ?_⟩⟩
    cases answer <;> exact hdrop _
  | false => exact hdrop _

end Shutdown

/-! ### Setup and start as root -/

section Root

variable {bootstrap : TestBootstrapSettings}

/-- What the bootstrap of root makes of the settings. -/
structure Rooted (bootstrap : TestBootstrapSettings) : Prop where
  privileges : bootstrap.privileges = .root
  kept : bootstrap.settings.temporary = false

/-- A guard with no server in the process, and with settings that are not temporary. -/
structure ClusterGuard.Remote (guard : ClusterGuard) : Prop where
  postgres : guard.postgres = none
  kept : guard.bootstrap.settings.temporary = false

structure Outcome.Remote (outcome : Outcome) : Prop where
  guard : ∀ guard, outcome.guard? = some guard → guard.Remote
  handle : ∀ handle, outcome.handle? = some handle → handle.bootstrap.settings.temporary = false

theorem ClusterGuard.Remote.withCleanupMode {guard : ClusterGuard} (h : guard.Remote)
    (cleanupMode : CleanupMode) : (guard.withCleanupMode cleanupMode).Remote :=
  ⟨h.postgres, h.kept⟩

theorem Outcome.Remote.withCleanupMode {outcome : Outcome} (h : outcome.Remote)
    (cleanupMode : CleanupMode) : (outcome.withCleanupMode cleanupMode).Remote := by
  cases outcome with
  | nothing => exact h
  | setup bootstrap => exact h
  | split handle guard =>
    refine ⟨fun guard' heq => ?_, h.handle⟩
    obtain rfl := Option.some.inj heq
    exact (h.guard guard rfl).withCleanupMode cleanupMode
  | whole cluster =>
    have hguard := (h.guard cluster.guard rfl).withCleanupMode cleanupMode
    refine ⟨fun guard' heq => ?_, fun handle heq => ?_⟩
    · obtain rfl := Option.some.inj heq
      exact hguard
    · obtain rfl := Option.some.inj heq
      exact hguard.kept

def QuietCode (crate : Embedded) (i : Instr) : Prop := (expand i).All (Quiet crate)

theorem quietCode_of_expand {i : Instr} (h : expand i = call i) (hremoves : removes crate i = [])
    (hspawned : ∀ cluster b, spawned cluster b i = []) : QuietCode crate i := by
  rw [QuietCode, h]
  exact ⟨Or.inr ⟨hremoves, hspawned⟩, fun _ => trivial⟩

theorem meets_tryUseBinaryCache (hroot : Rooted bootstrap) :
    (tryUseBinaryCache bootstrap).Meets (QuietCode crate) fun r => Rooted r.2 := by
  refine ⟨quietCode_of_expand rfl rfl fun _ _ => rfl, fun answer => ?_⟩
  cases answer with
  | none => exact hroot
  | some version => exact ⟨hroot.privileges, hroot.kept⟩

theorem meets_populateCacheOnMiss (cacheHit : Bool) :
    (populateCacheOnMiss cacheHit).Meets (QuietCode crate) fun _ => True := by
  cases cacheHit with
  | true => trivial
  | false => exact ⟨quietCode_of_expand rfl rfl fun _ _ => rfl, fun _ => trivial⟩

theorem meets_refreshWorkerInstallationDir (hroot : Rooted bootstrap) :
    (refreshWorkerInstallationDir bootstrap).Meets (QuietCode crate) Rooted := by
  unfold refreshWorkerInstallationDir
  rw [if_neg (not_not_intro hroot.privileges)]
  refine ⟨quietCode_of_expand rfl rfl fun _ _ => rfl, fun answer => ?_⟩
  cases answer with
  | none => exact hroot
  | some installedDir => exact ⟨hroot.privileges, hroot.kept⟩

variable (hcrate : crate.Documented)
include hcrate

theorem meets_invokeAsRoot (hroot : Rooted bootstrap) (operation : WorkerOperation)
    (hop : operation ≠ .cleanup) (hopFull : operation ≠ .cleanupFull) :
    (invokeAsRoot operation bootstrap).Meets (QuietCode crate) fun _ => True :=
  ⟨quiet_invokeAsRoot hcrate hroot.kept hop hopFull, fun _ => trivial⟩

theorem meets_invokeLifecycleRoot (hroot : Rooted bootstrap) :
    (invokeLifecycleRoot bootstrap).Meets (QuietCode crate)
      fun r => ∀ b, r = .ok b → Rooted b := by
  refine (meets_invokeAsRoot hcrate hroot .setup nofun nofun).bind fun result _ => ?_
  cases result with
  | error err => exact nofun
  | ok u =>
    refine (meets_refreshWorkerInstallationDir hroot).bind fun b hb => ?_
    refine (meets_invokeAsRoot hcrate hb .start nofun nofun).bind fun result _ => ?_
    cases result with
    | error err => exact nofun
    | ok u =>
      unfold refreshWorkerPort
      rw [if_neg (not_not_intro hb.privileges)]
      refine ⟨quietCode_of_expand rfl rfl fun _ _ => rfl, fun answer => ?_⟩
      cases answer with
      | error err => exact nofun
      | ok u => exact fun b' heq => Except.ok.inj heq ▸ hb

theorem meets_startPostgres (hroot : Rooted bootstrap) :
    (startPostgres bootstrap).Meets (QuietCode crate) fun r => ∀ outcome, r = .ok outcome →
      outcome.postgres = none ∧ outcome.bootstrap.settings.temporary = false := by
  refine (meets_tryUseBinaryCache hroot).bind fun r hr => ?_
  obtain ⟨cacheHit, b⟩ := r
  have hlifecycle : (handlePrivilegeLifecycle b).Meets (QuietCode crate) fun r =>
      ∀ outcome, r = .ok outcome →
        outcome.postgres = none ∧ outcome.bootstrap.settings.temporary = false := by
    unfold handlePrivilegeLifecycle
    rw [if_pos hr.privileges]
    refine (meets_invokeLifecycleRoot hcrate hr).bind fun result hresult => ?_
    cases result with
    | error err => exact nofun
    | ok b' =>
      intro outcome heq
      obtain rfl := Except.ok.inj heq
      exact ⟨rfl, (hresult b' rfl).kept⟩
  refine hlifecycle.bind fun result hresult => ?_
  cases result with
  | error err => exact nofun
  | ok outcome => exact (meets_populateCacheOnMiss cacheHit).bind fun _ _ => hresult

theorem meets_setupPostgresOnly (hroot : Rooted bootstrap) :
    (setupPostgresOnly bootstrap).Meets (QuietCode crate) fun _ => True := by
  refine ⟨quietCode_of_expand rfl rfl fun _ _ => rfl, fun answer => ?_⟩
  cases answer with
  | error err => trivial
  | ok u =>
    refine (meets_tryUseBinaryCache hroot).bind fun r hr => ?_
    obtain ⟨cacheHit, b⟩ := r
    have hsetup : (setupWithPrivileges b).Meets (QuietCode crate) fun _ => True := by
      unfold setupWithPrivileges
      rw [if_pos hr.privileges]
      exact meets_invokeAsRoot hcrate hr .setup nofun nofun
    refine hsetup.bind fun result _ => ?_
    cases result with
    | error err => trivial
    | ok u =>
      refine (meets_refreshWorkerInstallationDir hr).bind fun b' _ => ?_
      exact (meets_populateCacheOnMiss cacheHit).bind fun _ _ => trivial

theorem meets_runSetupOnlyLifecycle (hroot : Rooted bootstrap) :
    (runSetupOnlyLifecycle bootstrap).Meets (QuietCode crate) Outcome.Remote := by
  refine ⟨quietCode_of_expand rfl rfl fun _ _ => rfl, fun answer => ?_⟩
  cases answer with
  | error err => exact ⟨nofun, nofun⟩
  | ok u =>
    refine (meets_setupPostgresOnly hcrate hroot).bind fun result _ => ?_
    cases result with
    | error err => exact ⟨nofun, nofun⟩
    | ok b => exact ⟨nofun, nofun⟩

theorem meets_newSplit (isAsync : Bool) (hroot : Rooted bootstrap) :
    (newSplit isAsync bootstrap).Meets (QuietCode crate) Outcome.Remote := by
  have hruntime : (if isAsync then pure (.ok ()) else buildRuntime :
      Code (Except String Unit)).Meets (QuietCode crate) fun _ => True := by
    cases isAsync with
    | true => trivial
    | false => exact ⟨quietCode_of_expand rfl rfl fun _ _ => rfl, fun _ => trivial⟩
  refine ⟨quietCode_of_expand rfl rfl fun _ _ => rfl, fun answer => ?_⟩
  cases answer with
  | error err => exact ⟨nofun, nofun⟩
  | ok u =>
    refine hruntime.bind fun result _ => ?_
    cases result with
    | error err => exact ⟨nofun, nofun⟩
    | ok u =>
      refine (meets_startPostgres hcrate hroot).bind fun result hresult => ?_
      cases result with
      | error err => exact ⟨nofun, nofun⟩
      | ok outcome =>
        obtain ⟨hpostgres, hkept⟩ := hresult outcome rfl
        refine ⟨fun guard heq => ?_, fun handle heq => ?_⟩
        · obtain rfl := Option.some.inj heq
          exact ⟨hpostgres, hkept⟩
        · obtain rfl := Option.some.inj heq
          exact hkept

theorem meets_new (isAsync : Bool) (hroot : Rooted bootstrap) :
    (new isAsync bootstrap).Meets (QuietCode crate) Outcome.Remote := by
  refine (meets_newSplit hcrate isAsync hroot).bind fun outcome h => ?_
  cases outcome with
  | split handle guard => exact ⟨h.guard, h.handle⟩
  | nothing => exact h
  | setup b => exact h
  | whole cluster => exact h

end Root

end PgEmbeddedSetup.Postgres
