import PgEmbeddedSetup.Base.Crash
import PgEmbeddedSetup.Privileges.Ownership

/-!
# Directories that are made ready

The helpers of `fs.rs`, and those of `privileges.rs` for one directory, as programs of calls. Any other
process may change the tree between two calls. A directory is looked for from the path upwards, and what
is missing below the first one found is made through its handle.
-/

namespace PgEmbeddedSetup.Bootstrap

open Crash Env Fs Lexical Posix
open Privileges (User)

/-- `createDir`, `metadata` and `setPermissions` are calls of a directory handle, and `metadata` tells
whether there is a directory. `openNoFollow` gives the place of what it opens. `ensureTreeOwned` is the
walk of `ensure_tree_owned_by_user`. -/
inductive Instr where
  | openAmbientDir (path : Utf8Path)
  | createDir (dir : Location OsString) (path : Utf8Path)
  | metadata (dir : Location OsString) (path : Utf8Path)
  | dirMetadata (dir : Location OsString)
  | setPermissions (dir : Location OsString) (path : Utf8Path) (mode : Nat)
  | chown (path : Utf8Path) (user : User)
  | openNoFollow (dir : Location OsString) (path : Utf8Path)
  | isFile (file : Location OsString)
  | fchown (file : Location OsString) (user : User)
  | fchmod (file : Location OsString) (mode : Nat)
  | ensureTreeOwned (path : Utf8Path) (user : User)
  | varOs (name : String)
  | exists (path : OsString)
  | userFromName (name : String)
  | geteuid
  | bind (host : String)
  | localPort

@[reducible] def Instr.Reply : Instr → Type
  | .openAmbientDir _ | .openNoFollow _ _ => Except Errno (Location OsString)
  | .metadata _ _ | .dirMetadata _ | .isFile _ => Except Errno Bool
  | .createDir _ _ | .setPermissions _ _ _ | .chown _ _ | .fchown _ _ | .fchmod _ _ =>
    Except Errno Unit
  | .ensureTreeOwned _ _ | .bind _ => Except String Unit
  | .varOs _ => Option OsString
  | .exists _ => Bool
  | .userFromName _ => Except String (Option User)
  | .geteuid => Nat
  | .localPort => Except String Nat

/-- The errors by their contexts: `create {path}`, `chmod {path}`, `chown {path}`, and those of an
ambient directory. A `file` error is `{call} {path} failed: {err}`, a `regular` error
`PGPASSFILE must reference a regular file: {path}`, and a `timezone` error
`time zone database not found at {dir}. Set TZDIR or install tzdata.` -/
inductive BootstrapError where
  | ambient (context : String) (cause : Errno)
  | strip (base path : Utf8Path)
  | create (path : Utf8Path) (cause : Errno)
  | chmod (path : Utf8Path) (cause : Errno)
  | chown (path : Utf8Path) (cause : Errno)
  | file (call : String) (path : Utf8Path) (cause : Errno)
  | regular (path : Utf8Path)
  | timezone (dir : OsString)
  | tree (path : Utf8Path) (err : String)
  | message (text : String)
  | context (text err : String)

/-- The `io::Error` that `downcast_ref` finds. -/
def BootstrapError.ioError : BootstrapError → Option Errno
  | .ambient _ cause | .create _ cause | .chmod _ cause | .chown _ cause => some cause
  | _ => none

abbrev Code := Fallible BootstrapError Instr Instr.Reply

def ask (i : Instr) : Code i.Reply := Crash.ask i

/-- What a call finds, or its error. -/
def orThrow {α : Type} (toError : Errno → BootstrapError) : Except Errno α → Code α
  | .ok a => pure a
  | .error cause => throw (toError cause)

/-- The program with its result as a value. -/
def attempt {α : Type} (p : Code α) : Code (Except BootstrapError α) :=
  ExceptT.lift p.run

/-! ### `fs.rs` -/

def ambientDirAndPath (path : Utf8Path) : Code (Location OsString × Utf8Path) := do
  if path.isAbsolute then
    match path.parent with
    | some parent =>
      match path.stripPrefix parent with
      | none => throw (.strip parent path)
      | some relative =>
        let dir ← orThrow (.ambient "open ambient directory for absolute path")
          (← ask (.openAmbientDir parent))
        pure (dir, relative)
    | none =>
      let dir ← orThrow (.ambient "open ambient directory for absolute path")
        (← ask (.openAmbientDir path))
      pure (dir, .empty)
  else
    let dir ← orThrow (.ambient "open ambient working directory") (← ask (.openAmbientDir .current))
    pure (dir, path)

/-- The ancestors from the path of the first `n` components upwards. The empty one stands for the
working directory, and the root is the last of an absolute path. -/
def findFrom (path : Utf8Path) : Nat → Code (Location OsString × Utf8Path)
  | 0 => do
    match ← ask (.openAmbientDir .current) with
    | .ok dir => pure (dir, path)
    | .error cause =>
      if cause.isAbsence then throw (.ambient "find existing ancestor directory" cause)
      else throw (.ambient "open ambient directory for path" cause)
  | n + 1 => do
    match ← ask (.openAmbientDir (path.takeComponents (n + 1))) with
    | .ok dir => pure (dir, path.dropComponents (n + 1))
    | .error cause =>
      if cause.isAbsence then
        if n = 0 ∧ path.isAbsolute then throw (.ambient "find existing ancestor directory" cause)
        else findFrom path n
      else throw (.ambient "open ambient directory for path" cause)

def findExistingAncestor (path : Utf8Path) : Code (Location OsString × Utf8Path) :=
  findFrom path path.components.length

/-- A path counts as made that is a directory. -/
def orIsDir (dir : Location OsString) (path : Utf8Path) : Except Errno Unit → Code (Except Errno Unit)
  | .ok () => pure (.ok ())
  | .error cause => do
    match ← ask (.metadata dir path) with
    | .ok true => pure (.ok ())
    | _ => pure (.error cause)

/-- `Dir::create_dir_all` for the path of the first `n` components. -/
def createDirAll (dir : Location OsString) (path : Utf8Path) : Nat → Code (Except Errno Unit)
  | 0 => pure (.ok ())
  | n + 1 => do
    match ← ask (.createDir dir (path.takeComponents (n + 1))) with
    | .error .notFound =>
      match ← createDirAll dir path n with
      | .error cause => pure (.error cause)
      | .ok () =>
        orIsDir dir (path.takeComponents (n + 1))
          (← ask (.createDir dir (path.takeComponents (n + 1))))
    | reply => orIsDir dir (path.takeComponents (n + 1)) reply

def handleExistingMetadata (path : Utf8Path) (isDir : Bool) : Code Unit :=
  if isDir then pure () else throw (.create path .notDirectory)

def ensureExistingPathIsDir (path : Utf8Path) : Code Unit := do
  let (dir, relative) ← ambientDirAndPath path
  if relative.isEmpty then
    let isDir ← orThrow (.create path) (← ask (.dirMetadata dir))
    handleExistingMetadata path isDir
  else
    let isDir ← orThrow (.create path) (← ask (.metadata dir relative))
    handleExistingMetadata path isDir

def handleDirCreationError (path : Utf8Path) (cause : Errno) : Code Unit :=
  if cause = .alreadyExists then ensureExistingPathIsDir path else throw (.create path cause)

def ensureDirExistsInner (path : Utf8Path) (dir : Location OsString) (relative : Utf8Path) :
    Code Unit := do
  if relative.isEmpty then pure ()
  else
    match ← createDirAll dir relative relative.components.length with
    | .ok () => pure ()
    | .error cause => handleDirCreationError path cause

def ensureDirExists (path : Utf8Path) : Code Unit := do
  let (dir, relative) ← findExistingAncestor path
  ensureDirExistsInner path dir relative

def setPermissions (path : Utf8Path) (mode : Nat) : Code Unit := do
  let (dir, relative) ← ambientDirAndPath path
  if relative.isEmpty then pure ()
  else orThrow (.chmod path) (← ask (.setPermissions dir relative mode))

/-! ### `privileges.rs` -/

def chownEntry (path : Utf8Path) (user : User) : Code Unit := do
  orThrow (.chown path) (← ask (.chown path user))

def ensureDirForUser (path : Utf8Path) (user : User) (mode : Nat) : Code Unit := do
  ensureDirExists path
  chownEntry path user
  setPermissions path mode

def makeDataDirPrivate (path : Utf8Path) (user : User) : Code Unit := ensureDirForUser path user 0o700

def ensureTreeOwnedByUser (path : Utf8Path) (user : User) : Code Unit := do
  match ← ask (.ensureTreeOwned path user) with
  | .ok () => pure ()
  | .error err => throw (.tree path err)

end PgEmbeddedSetup.Bootstrap
