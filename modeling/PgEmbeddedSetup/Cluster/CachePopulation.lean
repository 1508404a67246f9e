import PgEmbeddedSetup.Cluster.CacheIntegration

/-!
# Population of the binary cache

`try_populate_binary_cache`, and the part of `start_postgres` that the cache has a part in: the cache is
tried, the server is set up, and after a miss the cache is populated from what was installed. `setup`
is not code of the repository, and stands as one action.
-/

namespace PgEmbeddedSetup.CacheIntegration

open Program Posix Lexical Cache Installation Fs
open Cluster (FilePath)
open Env (OsString)
open Worker (isUtf8Path)

section Programs

variable {V R : Type} [LinearOrder V] (semver : Semver V R) (cwd : Place) (depth : Nat)

/-- One entry of the installation directory, as `resolve_installed_dir` looks at it. -/
def readInstalled (installDir : FilePath) (name : OsString) : Routine (Option DirEntry) := do
  match ← Prog.call (Call.io (.fileType (.name name :: fsPath cwd installDir))) with
  | .ok .dir =>
    match ← io (pathIsDirectory (.name binDir :: .name name :: fsPath cwd installDir)) with
    | .ok true => pure (some ⟨name, some true, true⟩)
    | _ => pure (some ⟨name, some true, false⟩)
  | .ok _ => pure (some ⟨name, some false, false⟩)
  | .error _ => pure (some ⟨name, none, false⟩)

/-- What `resolve_installed_dir` looks at. A listing that breaks off gives an entry that cannot be
read. -/
def lookUpInstalled (settings : Settings R) : Routine View := do
  match ← io (pathIsDirectory (.name binDir :: fsPath cwd settings.installationDir)) with
  | .ok true => pure ⟨true, none⟩
  | _ =>
    if settings.trustInstallationDir || settings.installationDir.isEmpty then pure ⟨false, none⟩
    else
      match ← Prog.call (Call.io (.readDir (fsPath cwd settings.installationDir))) with
      | .error _ => pure ⟨false, none⟩
      | .ok listing => do
        let entries ← listing.1.mapM (readInstalled cwd settings.installationDir)
        pure ⟨false, some (entries ++ listing.2.toList.map fun _ => none)⟩

def extractVersionFromPath (path : FilePath) : Option String := do
  let name ← fileName path
  let text ← toStr name
  let _ ← semver.parse text
  some text

/-- The second lookup, under the lock, and the copy. A failure is only logged. -/
def populateEntry (cacheDir : FsPath) (installedDir : FilePath) (version : String) :
    Routine Unit := do
  match ← io (checkCache cacheDir (osString version)) with
  | .ok true => pure ()
  | _ =>
    if isUtf8Path installedDir then
      let _ ← io (populateCache depth (fsPath cwd installedDir) cacheDir (osString version))
      pure ()
    else pure ()

/-- From the first lookup on. -/
def populateVersion (cacheDir : FsPath) (installedDir : FilePath) (version : String) :
    Routine Unit := do
  match ← io (checkCache cacheDir (osString version)) with
  | .ok true => pure ()
  | _ =>
    match ← acquire cacheDir (osString version) .exclusive with
    | .error _ => pure ()
    | .ok lock =>
      populateEntry cwd depth cacheDir installedDir version
      Prog.call (Call.close lock)

def tryPopulateBinaryCache (cacheDir : FsPath) (settings : Settings R) : Routine Unit := do
  let view ← lookUpInstalled cwd settings
  match resolveInstalledDir semver settings view with
  | none => pure ()
  | some installedDir =>
    match extractVersionFromPath semver installedDir with
    | none => pure ()
    | some version => populateVersion cwd depth cacheDir installedDir version

/-! ### A start of the server -/

/-- `setup` is told whether the cache was hit, and says whether it succeeded. -/
inductive Action where
  | call (c : Call)
  | setup (cacheHit : Bool)
  deriving DecidableEq

@[reducible] def Action.Reply : Action → Type
  | .call c => c.Reply
  | .setup _ => Bool

abbrev Process := Prog Action Action.Reply

def onCache {α : Type} (p : Routine α) : Process α :=
  p.interp fun c => Prog.call (Action.call c)

/-- The settings that `setup` leaves after a miss. -/
def installedIn (settings : Settings R) (installed : FilePath) : Settings R :=
  { settings with installationDir := installed }

/-- The steps of `start_postgres` that concern the cache: whether it was hit, and the settings. It
returns early if `setup` fails. -/
def startPostgres (cacheDir : FsPath) (installed : FilePath) (settings : Settings R) :
    Process (Option (Bool × Settings R)) := do
  let (cacheHit, settings) ←
    onCache (tryUseBinaryCache semver cwd depth cacheDir settings.version settings)
  match ← Prog.call (Action.setup cacheHit) with
  | false => pure none
  | true =>
    if cacheHit then pure (some (true, settings))
    else do
      let settings := installedIn settings installed
      onCache (tryPopulateBinaryCache semver cwd depth cacheDir settings)
      pure (some (false, settings))

end Programs

end PgEmbeddedSetup.CacheIntegration
