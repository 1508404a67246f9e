import PgEmbeddedSetup.Base.Text
import PgEmbeddedSetup.Bootstrap.Directories
import PgEmbeddedSetup.Cluster.Postgres
import PgEmbeddedSetup.Worker.Payload

/-!
# Preparation of the directories

`prepare_bootstrap`, for a root process and for one without privileges, with the time zone of
`prepare_timezone_env`.

The directories of the settings are paths here, so they are UTF-8: those of the configuration are, and
what it leaves out is replaced by a default.
-/

namespace PgEmbeddedSetup.Bootstrap

open Env Fs Lexical Posix
open Postgres (ExecutionPrivileges defaultPathsFor)
open Privileges (User isUtf8)
open Worker (fromPathBuf)

/-- What is looked at of the configuration. -/
structure PgEnvCfg where
  runtimeDir : Option Utf8Path
  dataDir : Option Utf8Path

/-- What is looked at of the settings. -/
structure Settings where
  installationDir : Utf8Path
  dataDir : Utf8Path
  passwordFile : Utf8Path
  temporary : Bool
  host : String
  port : Nat

structure SettingsPaths where
  installDir : Utf8Path
  dataDir : Utf8Path
  passwordFile : Utf8Path
  installDefault : Bool
  dataDefault : Bool

structure XdgDirs where
  home : Utf8Path
  cache : Utf8Path
  runtime : Utf8Path

structure TimezoneEnv where
  dir : OsString
  zone : String

structure TestBootstrapEnvironment where
  home : Utf8Path
  xdgCacheHome : Utf8Path
  xdgRuntimeDir : Utf8Path
  pgpassFile : Utf8Path
  tzDir : OsString
  timezone : String

structure PreparedBootstrap where
  settings : Settings
  environment : TestBootstrapEnvironment

def TestBootstrapEnvironment.fromComponents (xdg : XdgDirs) (pgpassFile : Utf8Path)
    (timezone : TimezoneEnv) : TestBootstrapEnvironment :=
  ⟨xdg.home, xdg.cache, xdg.runtime, pgpassFile, timezone.dir, timezone.zone⟩

/-! ### Paths -/

def childOf (path : Utf8Path) (name : String) : Utf8Path := path.join (.ofName (osString name))

/-- `settings_paths_from_settings`, with the settings. -/
def settingsPathsFromSettings (settings : Settings) (installDefault dataDefault : Bool) :
    Settings × SettingsPaths :=
  let passwordFile := childOf settings.installationDir ".pgpass"
  ({ settings with passwordFile := passwordFile },
    ⟨settings.installationDir, settings.dataDir, passwordFile, installDefault, dataDefault⟩)

def resolveSettingsPathsForUid (settings : Settings) (cfg : PgEnvCfg) (uid : Nat) :
    Settings × SettingsPaths :=
  let installationDir :=
    if cfg.runtimeDir.isNone then (defaultPathsFor uid).1 else settings.installationDir
  let dataDir := if cfg.dataDir.isNone then (defaultPathsFor uid).2 else settings.dataDir
  settingsPathsFromSettings { settings with installationDir := installationDir, dataDir := dataDir }
    cfg.runtimeDir.isNone cfg.dataDir.isNone

def resolveSettingsPathsForCurrentUser (settings : Settings) (cfg : PgEnvCfg) :
    Code (Settings × SettingsPaths) := do
  let uid ← ask .geteuid
  pure (resolveSettingsPathsForUid settings cfg uid)

def ensureParentsForPaths (paths : SettingsPaths) (ensureParent : Utf8Path → Code Unit) :
    Code Unit := do
  if paths.installDefault then ensureParent paths.installDir else pure ()
  if paths.dataDefault then ensureParent paths.dataDir else pure ()

def ensureParentForUser (user : User) (path : Utf8Path) : Code Unit :=
  match path.parent with
  | some parent => ensureDirForUser parent user 0o755
  | none => pure ()

def ensureParentExists (path : Utf8Path) : Code Unit :=
  match path.parent with
  | some parent => ensureDirExists parent
  | none => pure ()

/-! ### Directories and the password file -/

def pgpassMode : Nat := 0o600

def ensureDirWithMode (path : Utf8Path) (mode : Nat) : Code Unit := do
  ensureDirExists path
  setPermissions path mode

def ensurePgpassPermissions (path : Utf8Path) : Code Unit := do
  match ← attempt (setPermissions path pgpassMode) with
  | .ok () => pure ()
  | .error err => if err.ioError = some .notFound then pure () else throw err

def prepareXdgDirs (installDir : Utf8Path) : Code XdgDirs := do
  let cache := childOf installDir "cache"
  let runtime := childOf installDir "run"
  ensureDirWithMode cache 0o755
  ensureDirWithMode runtime 0o700
  pure ⟨installDir, cache, runtime⟩

def ensureXdgDirsOwnedByUser (xdg : XdgDirs) (user : User) : Code Unit := do
  ensureDirForUser xdg.cache user 0o755
  ensureDirForUser xdg.runtime user 0o700

def ensureInstallDirForUser (path : Utf8Path) (user : User) : Code Unit :=
  ensureDirForUser path user 0o755

/-- A link in the place of the password file is refused. -/
def ensurePgpassForUser (path : Utf8Path) (user : User) : Code Unit := do
  let (dir, relative) ← ambientDirAndPath path
  if relative.isEmpty then throw (.message "PGPASSFILE cannot point at the root directory")
  else
    match ← ask (.openNoFollow dir relative) with
    | .error .notFound => pure ()
    | .error cause => throw (.file "open" path cause)
    | .ok file =>
      let isFile ← orThrow (.file "stat" path) (← ask (.isFile file))
      if !isFile then throw (.regular path)
      else
        orThrow (.file "fchown" path) (← ask (.fchown file user))
        orThrow (.file "fchmod" path) (← ask (.fchmod file pgpassMode))

/-! ### The time zone -/

def tzdirCandidates : List String :=
  ["/usr/share/zoneinfo", "/usr/lib/zoneinfo", "/etc/zoneinfo", "/share/zoneinfo"]

/-- `find_timezone_dir`: the first candidate that exists. -/
def findTimezoneDir : List String → Code (Option OsString)
  | [] => pure none
  | candidate :: rest => do
    if ← ask (.exists (osString candidate)) then pure (some (osString candidate))
    else findTimezoneDir rest

def discoverTimezoneDir : Code OsString := do
  match ← findTimezoneDir tzdirCandidates with
  | some dir => pure dir
  | none => throw (.message "time zone database not found. Set TZDIR or install tzdata.")

def timezoneDir : Code OsString := do
  match ← ask (.varOs "TZDIR") with
  | some dir =>
    if !isUtf8 dir then throw (.message "TZDIR must be valid UTF-8")
    else if ← ask (.exists dir) then pure dir
    else throw (.timezone dir)
  | none => discoverTimezoneDir

def defaultTimezone : String := "UTC"

/-- The value of `TZ`, unless it is blank. -/
def timezoneOf : Option OsString → Except BootstrapError String
  | none => .ok defaultTimezone
  | some raw =>
    match fromPathBuf raw with
    | none => .error (.message "TZ must be valid UTF-8")
    | some value => .ok (if (Text.trim value.toList).isEmpty then defaultTimezone else value)

def prepareTimezoneEnv : Code TimezoneEnv := do
  let dir ← timezoneDir
  let zone ← ExceptT.mk (pure (timezoneOf (← ask (.varOs "TZ"))))
  pure ⟨dir, zone⟩

/-! ### Both ways -/

def rootBindHost (settings : Settings) : String :=
  if settings.host = "" ∨ settings.host.toList.head? = some '/' then "127.0.0.1" else settings.host

def ensureRootPort (settings : Settings) : Code Settings := do
  if 0 < settings.port then pure settings
  else
    match ← ask (.bind (rootBindHost settings)) with
    | .error err => throw (.context "failed to allocate port" err)
    | .ok () =>
      match ← ask .localPort with
      | .error err => throw (.context "failed to read allocated port" err)
      | .ok port => pure { settings with port := port }

def nobodyUser : Code User := do
  match ← ask (.userFromName "nobody") with
  | .error err => throw (.context "failed to resolve user 'nobody'" err)
  | .ok none => throw (.message "user 'nobody' not found")
  | .ok (some user) => pure user

def bootstrapWithRoot (settings : Settings) (cfg : PgEnvCfg) : Code PreparedBootstrap := do
  let settings ← ensureRootPort { settings with temporary := false }
  let user ← nobodyUser
  let (settings, paths) := resolveSettingsPathsForUid settings cfg user.uid
  ensureParentsForPaths paths (ensureParentForUser user)
  ensureInstallDirForUser paths.installDir user
  makeDataDirPrivate paths.dataDir user
  let timezone ← prepareTimezoneEnv
  let xdg ← prepareXdgDirs paths.installDir
  ensureXdgDirsOwnedByUser xdg user
  ensurePgpassForUser paths.passwordFile user
  ensureTreeOwnedByUser paths.installDir user
  if paths.dataDefault then ensureTreeOwnedByUser paths.dataDir user else pure ()
  pure ⟨settings, .fromComponents xdg paths.passwordFile timezone⟩

def bootstrapUnprivileged (settings : Settings) (cfg : PgEnvCfg) : Code PreparedBootstrap := do
  let (settings, paths) ← resolveSettingsPathsForCurrentUser settings cfg
  ensureParentsForPaths paths ensureParentExists
  ensureDirWithMode paths.installDir 0o755
  ensureDirWithMode paths.dataDir 0o700
  ensurePgpassPermissions paths.passwordFile
  let timezone ← prepareTimezoneEnv
  let xdg ← prepareXdgDirs paths.installDir
  pure ⟨settings, .fromComponents xdg paths.passwordFile timezone⟩

def prepareBootstrap (privileges : ExecutionPrivileges) (settings : Settings) (cfg : PgEnvCfg) :
    Code PreparedBootstrap :=
  match privileges with
  | .root => bootstrapWithRoot settings cfg
  | .unprivileged => bootstrapUnprivileged settings cfg

end PgEmbeddedSetup.Bootstrap
