import PgEmbeddedSetup.Cache.Syscalls
import PgEmbeddedSetup.Fs.Ambient

/-!
# Copying to and from the binary cache

`copy_from_cache`, `populate_cache` and `check_cache` on Unix, as programs of calls. The recursion of
`copy_dir_recursive` goes down in the source, and it is given a depth at which paths become too long.
-/

namespace PgEmbeddedSetup.Cache

open Env Fs Posix Crash

/-- Best effort: no failure is reported. -/
def copyPermissions (src dst : FsPath) : Code Unit := do
  match ← ask (.stat src) with
  | .error _ => pure ()
  | .ok (_, mode) => do
    let _ ← ask (.chmod dst mode)
    pure ()

def copyFileWithPermissions (src dst : FsPath) : Code Unit := do
  copy src dst
  copyPermissions src dst

def copySymlink (src dst : FsPath) : Code Unit := do
  let target ← sys (← ask (.readLink src))
  sys (← ask (.symlink target dst))

/-- What is done with one entry of the directory `src`. -/
def copyEntry (copyDir : FsPath → FsPath → Code Unit) (src dst : FsPath) (name : OsString) :
    Code Unit := do
  match ← sys (← ask (.fileType (.name name :: src))) with
  | .dir => copyDir (.name name :: src) (.name name :: dst)
  | .symlink => copySymlink (.name name :: src) (.name name :: dst)
  | .file => copyFileWithPermissions (.name name :: src) (.name name :: dst)

/-- The listing gives its entries, and then it ends or fails. -/
def copyEntries (copyDir : FsPath → FsPath → Code Unit) (src dst : FsPath)
    (listing : List OsString × Option Fault) : Code Unit := do
  listing.1.forM (copyEntry copyDir src dst)
  match listing.2 with
  | some fault => throw (.fault fault)
  | none => pure ()

/-- The start of `copy_dir_recursive`. -/
def createIfMissing (dst : FsPath) : Code Unit := do
  if ← pathExists dst then pure ()
  else createDirAll dst

def copyDirRecursive : Nat → FsPath → FsPath → Code Unit
  | 0, _, _ => throw .invalid
  | depth + 1, src, dst => do
    createIfMissing dst
    let listing ← sys (← ask (.readDir src))
    copyEntries (copyDirRecursive depth) src dst listing
    copyPermissions src dst

def copyFromCache (depth : Nat) (source target : FsPath) : Code Unit := do
  createDirAll target
  copyDirRecursive depth source target

/-! ### Entries of the cache -/

/-- `COMPLETION_MARKER`. -/
def completionMarker : OsString := osString ".complete"

def binDir : OsString := osString "bin"

def writeCompletionMarker (cachePath : FsPath) : Code Unit :=
  writeEmpty (.name completionMarker :: cachePath)

/-- The version is one component, which `validate_version` checks for every lock. -/
def populateCache (depth : Nat) (source cacheDir : FsPath) (version : OsString) : Code Unit := do
  let versionDir := .name version :: cacheDir
  createDirAll versionDir
  copyDirRecursive depth source versionDir
  writeCompletionMarker versionDir

def isCacheEntryComplete (versionDir : FsPath) : Code Bool := do
  if ← pathExists (.name completionMarker :: versionDir) then
    pathIsDirectory (.name binDir :: versionDir)
  else pure false

/-- Whether the lookup is a hit. -/
def checkCache (cacheDir : FsPath) (version : OsString) : Code Bool :=
  isCacheEntryComplete (.name version :: cacheDir)

end PgEmbeddedSetup.Cache
