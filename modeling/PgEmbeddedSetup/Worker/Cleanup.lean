import PgEmbeddedSetup.Cluster.CleanupPaths

/-!
# The cleanup operations of the worker

`run_worker` with `cleanup` and `cleanup-full`: the policy of `Cluster.Cleanup` written again for the
paths of the worker, which are UTF-8. The instructions are those of the cleanup in the process.
-/

namespace PgEmbeddedSetup.Worker

open Program Lexical Cluster

/-- The path of a `Utf8PathBuf`, if its names are UTF-8. -/
def isUtf8Path (path : FilePath) : Bool :=
  path.components.all fun
    | .normal name => ByteArray.validateUTF8 ⟨name.toArray⟩
    | _ => true

/-- A removal that failed, displayed as `failed to remove {label} directory {path}: {err}`. -/
structure RemovalFailure where
  label : String
  path : FilePath
  err : String

inductive CleanupError where
  | settingsConversion (message : String)
  /-- Displayed with the failures joined by `; `. -/
  | cleanupFailed (failures : List RemovalFailure)

/-- `Utf8PathBuf::from_path_buf` on a path of the settings. -/
def extractPath (field : String) (path : FilePath) : Except CleanupError FilePath :=
  if isUtf8Path path then .ok path
  else .error (.settingsConversion (field ++ " must be valid UTF-8"))

def extractDataDir (settings : Settings) : Except CleanupError FilePath :=
  extractPath "data_dir" settings.dataDir

def extractInstallDir (settings : Settings) : Except CleanupError FilePath :=
  extractPath "installation_dir" settings.installationDir

/-- `Utf8Path::new("/")`. -/
def rootPath : FilePath := ⟨[.rootDir], nofun⟩

def extractInstallRoot (settings : Settings) (installDir : FilePath) :
    Except CleanupError (Option FilePath) := do
  let pgpass ← extractPath "password_file" settings.passwordFile
  match pgpass.parent with
  | none => return none
  | some parent =>
    if parent.isEmpty || parent == rootPath then return none
    else if parent == installDir then return none
    else if parent.hasParentDir then return none
    else if !parent.startsWith installDir then return none
    else return some parent

/-- `removal::remove_dir_all_if_exists`, with the failure added to those before it. -/
def collectRemovalError (failures : List RemovalFailure) (path : FilePath) (label : String) :
    Code (List RemovalFailure) := do
  match ← tryRemoveDirAll path with
  | .ok _ => pure failures
  | .error err => pure (failures ++ [⟨label, path, err⟩])

def collectIfGiven (failures : List RemovalFailure) (path : Option FilePath) (label : String) :
    Code (List RemovalFailure) :=
  match path with
  | some path => collectRemovalError failures path label
  | none => pure failures

/-- An installation root that is the installation directory has been removed already. -/
def executeCleanup (dataDir : FilePath) (installDir installRoot : Option FilePath) :
    Code (Except CleanupError Unit) := do
  let failures ← collectRemovalError [] dataDir "data"
  let failures ← collectIfGiven failures installDir "installation"
  let failures ← collectIfGiven failures (installRoot.filter fun path => installDir != some path)
    "installation-root"
  pure (if failures.isEmpty then .ok () else .error (.cleanupFailed failures))

/-- The part of `run_worker` that handles the cleanup operations. -/
def runWorkerCleanup (full : Bool) (settings : Settings) : Code (Except CleanupError Unit) :=
  match extractDataDir settings with
  | .error e => pure (.error e)
  | .ok dataDir =>
    if full then
      match extractInstallDir settings with
      | .error e => pure (.error e)
      | .ok installDir =>
        match extractInstallRoot settings installDir with
        | .error e => pure (.error e)
        | .ok installRoot => executeCleanup dataDir (some installDir) installRoot
    else executeCleanup dataDir none none

/-- What the worker does that is asked to clean up in a mode. -/
def workerCleanup (mode : CleanupMode) (settings : Settings) : Code (Except CleanupError Unit) :=
  match cleanupOperation mode with
  | some .cleanup => runWorkerCleanup false settings
  | some .cleanupFull => runWorkerCleanup true settings
  | _ => pure (.ok ())

/-! ### What it removes -/

def utf8Paths (settings : Settings) : Bool :=
  isUtf8Path settings.dataDir && isUtf8Path settings.installationDir &&
    isUtf8Path settings.passwordFile

section Traces

variable (os : Nat → (i : Instr) → i.Answer)

theorem instrs_collectRemovalError (n : Nat) (failures : List RemovalFailure) (path : FilePath)
    (label : String) : instrs os n (collectRemovalError failures path label) =
      ([path].filter guardRemovalPath).map .removeDirAll := by
  unfold collectRemovalError tryRemoveDirAll
  cases h : guardRemovalPath path with
  | false => simp [instrs, h]
  | true =>
    simp only [if_true, List.filter_cons, h, List.filter_nil, List.map_cons, List.map_nil]
    show _ :: _ = _
    congr 1
    cases os n (.removeDirAll path) <;> rfl

/-- The installation root that the worker removes. -/
def installRoot (settings : Settings) : Option FilePath :=
  settings.passwordFile.parent.filter fun parent =>
    !(parent.isEmpty || parent == rootPath) && shouldRemoveInstallRoot parent settings

theorem extractInstallRoot_eq {settings : Settings} (h : isUtf8Path settings.passwordFile = true) :
    extractInstallRoot settings settings.installationDir = .ok (installRoot settings) := by
  unfold extractInstallRoot installRoot extractPath
  rw [if_pos h]
  show (match settings.passwordFile.parent with
    | none => _
    | some parent => _) = _
  cases settings.passwordFile.parent with
  | none => rfl
  | some parent =>
    simp only [Option.filter_some, shouldRemoveInstallRoot, bne]
    cases parent.isEmpty || parent == rootPath <;> cases parent == settings.installationDir <;>
      cases parent.hasParentDir <;> cases parent.startsWith settings.installationDir <;> rfl

theorem instrs_collectIfGiven (n : Nat) (failures : List RemovalFailure) (path : Option FilePath)
    (label : String) : instrs os n (collectIfGiven failures path label) =
      (path.toList.filter guardRemovalPath).map .removeDirAll := by
  cases path with
  | none => rfl
  | some path => exact instrs_collectRemovalError os n failures path label

theorem instrs_executeCleanup (n : Nat) (dataDir : FilePath)
    (installDir installRoot : Option FilePath) :
    instrs os n (executeCleanup dataDir installDir installRoot) =
      (([dataDir] ++ installDir.toList ++
        (installRoot.filter fun path => installDir != some path).toList).filter
          guardRemovalPath).map .removeDirAll := by
  unfold executeCleanup
  rw [instrs_bind, instrs_collectRemovalError, instrs_bind, instrs_collectIfGiven, instrs_bind,
    instrs_collectIfGiven, List.filter_append, List.filter_append, List.map_append, List.map_append,
    List.append_assoc]
  simp [instrs]

theorem not_emptyOrRoot_of_guard {path : FilePath} (h : guardRemovalPath path = true) :
    (path.isEmpty || path == rootPath) = false := by
  rw [Bool.eq_false_iff]
  intro hempty
  rw [Bool.or_eq_true, beq_iff_eq] at hempty
  have hrefused : isEmptyOrRoot path = true := by
    rcases hempty with hempty | rfl
    · rw [isEmptyOrRoot, List.isEmpty_iff.mp hempty]
    · rfl
  rw [guardRemovalPath, hrefused] at h
  cases h

theorem installRoot_filter (settings : Settings) :
    ((installRoot settings).filter fun path =>
      some settings.installationDir != some path).toList.filter guardRemovalPath =
    (settings.passwordFile.parent.filter (shouldRemoveInstallRoot · settings)).toList.filter
      guardRemovalPath := by
  unfold installRoot
  cases settings.passwordFile.parent with
  | none => rfl
  | some parent =>
    simp only [Option.filter_some]
    cases hguard : guardRemovalPath parent with
    | false => cases shouldRemoveInstallRoot parent settings <;>
        cases (parent.isEmpty || parent == rootPath) <;>
        cases (some settings.installationDir != some parent) <;> simp [hguard]
    | true =>
      rw [not_emptyOrRoot_of_guard hguard, Bool.not_false, Bool.true_and]
      cases hroot : shouldRemoveInstallRoot parent settings with
      | false => rfl
      | true =>
        have hne : (some settings.installationDir != some parent) = true := by
          simp only [shouldRemoveInstallRoot, Bool.and_eq_true, bne_iff_ne] at hroot
          exact bne_iff_ne.mpr fun heq => hroot.1.1 (Option.some.inj heq).symm
        simp only [if_true, Option.filter_some, hne]

theorem instrs_cleanup (n : Nat) {settings : Settings} (hdata : isUtf8Path settings.dataDir = true) :
    instrs os n (runWorkerCleanup false settings) =
      (cleanupPaths .dataOnly settings).map .removeDirAll := by
  have hdataDir : extractDataDir settings = .ok settings.dataDir := if_pos hdata
  unfold runWorkerCleanup
  simp only [hdataDir, Bool.false_eq_true, if_false]
  rw [instrs_executeCleanup, cleanupPaths, funext removable_eq]
  rfl

theorem instrs_cleanupFull (n : Nat) {settings : Settings}
    (hdata : isUtf8Path settings.dataDir = true)
    (hinstall : isUtf8Path settings.installationDir = true)
    (hpassword : isUtf8Path settings.passwordFile = true) :
    instrs os n (runWorkerCleanup true settings) =
      (cleanupPaths .full settings).map .removeDirAll := by
  have hdataDir : extractDataDir settings = .ok settings.dataDir := if_pos hdata
  have hinstallDir : extractInstallDir settings = .ok settings.installationDir := if_pos hinstall
  unfold runWorkerCleanup
  simp only [hdataDir, hinstallDir, extractInstallRoot_eq hpassword, if_true]
  rw [instrs_executeCleanup, cleanupPaths, funext removable_eq]
  congr 1
  simp only [shouldRemoveData, shouldRemoveInstall, if_true]
  rw [List.append_assoc, List.filter_append, List.filter_append, List.filter_append,
    installRoot_filter, Option.toList_some, ← List.filter_append]
  rfl

theorem instrs_workerCleanup (n : Nat) (mode : CleanupMode) {settings : Settings}
    (hutf8 : utf8Paths settings = true) :
    instrs os n (workerCleanup mode settings) = (cleanupPaths mode settings).map .removeDirAll := by
  obtain ⟨⟨hdata, hinstall⟩, hpassword⟩ : (isUtf8Path settings.dataDir = true ∧
      isUtf8Path settings.installationDir = true) ∧ isUtf8Path settings.passwordFile = true := by
    simpa only [utf8Paths, Bool.and_eq_true] using hutf8
  cases mode with
  | none => rfl
  | dataOnly => exact instrs_cleanup os n hdata
  | full => exact instrs_cleanupFull os n hdata hinstall hpassword

theorem instrs_workerCleanup_sublist (n : Nat) (mode : CleanupMode) (settings : Settings) :
    (instrs os n (workerCleanup mode settings)).Sublist
      ((cleanupPaths mode settings).map .removeDirAll) := by
  by_cases hdata : isUtf8Path settings.dataDir = true
  · cases mode with
    | none => exact List.Sublist.refl _
    | dataOnly => exact (instrs_cleanup os n hdata).symm ▸ List.Sublist.refl _
    | full =>
      show (instrs os n (runWorkerCleanup true settings)).Sublist _
      by_cases hinstall : isUtf8Path settings.installationDir = true
      · by_cases hpassword : isUtf8Path settings.passwordFile = true
        · rw [instrs_cleanupFull os n hdata hinstall hpassword]
        · simp only [runWorkerCleanup, extractDataDir, extractInstallDir, extractInstallRoot,
            extractPath, if_pos hdata, if_pos hinstall, if_neg hpassword]
          exact List.nil_sublist _
      · simp only [runWorkerCleanup, extractDataDir, extractInstallDir, extractPath, if_pos hdata,
          if_neg hinstall]
        exact List.nil_sublist _
  · cases mode with
    | none => exact List.Sublist.refl _
    | _ =>
      simp only [workerCleanup, cleanupOperation, runWorkerCleanup, extractDataDir, extractPath,
        if_neg hdata]
      exact List.nil_sublist _

end Traces

end PgEmbeddedSetup.Worker
