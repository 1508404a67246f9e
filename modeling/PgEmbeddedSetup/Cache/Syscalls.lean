import PgEmbeddedSetup.Base.Crash
import PgEmbeddedSetup.Base.Place
import PgEmbeddedSetup.Env.State

/-!
# Calls of the standard library, one at a time

The calls that copy a tree, as instructions with paths. What a call leaves open is in a `Choice`: a
failure for a reason of its own, the order in which a directory is listed and where the listing breaks
off, and how much of a file is written before a failure. `fs::copy` and `fs::create_dir_all` are
programs of these calls.

A relative path is taken as the absolute one from the working directory.
-/

namespace PgEmbeddedSetup.Cache

open Env Posix Program Crash

abbrev FileTree := FileSystem OsString

abbrev Place := Location OsString

abbrev FsPath := AbsPath OsString

inductive FileType where
  | dir
  | file
  | symlink
  deriving DecidableEq, Repr

def FileType.of : Node OsString → FileType
  | .dir _ => .dir
  | .file _ _ => .file
  | .symlink _ => .symlink

/-- `stat` follows links and `fileType` does not. A file that is open is named by its place. A listing
comes with the failure at which it breaks off. -/
inductive Instr where
  | stat (path : FsPath)
  | fileType (path : FsPath)
  | readDir (path : FsPath)
  | readLink (path : FsPath)
  | mkdir (path : FsPath)
  | symlink (target : Link OsString) (path : FsPath)
  | openRead (path : FsPath)
  | create (path : FsPath) (mode : Nat)
  | fchmod (file : Place) (mode : Nat)
  | copyRange (source file : Place)
  | chmod (path : FsPath) (mode : Nat)
  deriving DecidableEq

@[reducible] def Instr.Reply : Instr → Type
  | .stat _ => Except Errno (FileType × Nat)
  | .fileType _ => Except Errno FileType
  | .readDir _ => Except Errno (List OsString × Option Fault)
  | .readLink _ => Except Errno (Link OsString)
  | .openRead _ => Except Errno (Place × Nat)
  | .create _ _ => Except Errno Place
  | .mkdir _ | .symlink _ _ | .fchmod _ _ | .copyRange _ _ | .chmod _ _ => Except Errno Unit

structure Choice where
  fault : Option Fault
  order : List OsString
  cut : Option (Nat × Fault)
  written : Nat

/-! ### What a call does -/

def maskMode (umask mode : Nat) : Nat := mode ^^^ (mode &&& umask)

/-- The mode of a node. Those of links are not looked at. -/
def modeOf : Node OsString → Nat
  | .dir mode | .file mode _ => mode
  | .symlink _ => 0

def withMode (mode : Nat) : Node OsString → Node OsString
  | .dir _ => .dir mode
  | .file _ content => .file mode content
  | .symlink target => .symlink target

/-- A new entry, unless there is one. -/
def makeEntry (fs : FileTree) (path : FsPath) (new : Node OsString) :
    Except Errno Unit × FileTree :=
  match fs.locate path with
  | .error e => (.error e, fs)
  | .ok l =>
    match fs.node l with
    | some _ => (.error .alreadyExists, fs)
    | none => (.ok (), fs.set l new)

/-- `open` with `O_WRONLY | O_CREAT | O_TRUNC`. -/
def openCreate (umask : Nat) (fs : FileTree) (path : FsPath) (mode : Nat) :
    Except Errno Place × FileTree :=
  match fs.follow true path with
  | .error e => (.error e, fs)
  | .ok l =>
    match fs.node l with
    | none => (.ok l, fs.set l (.file (maskMode umask mode) []))
    | some (.file mode' _) => (.ok l, fs.set l (.file mode' []))
    | some _ => (.error .isDirectory, fs)

def changeMode (fs : FileTree) (l : Place) (mode : Nat) : FileTree :=
  match fs.node l with
  | some node => fs.set l (withMode mode node)
  | none => fs

/-- The content of the source, or its first bytes, goes to the file. -/
def copyContent (fs : FileTree) (source file : Place) (cut : List UInt8 → List UInt8) : FileTree :=
  match fs.node source, fs.node file with
  | some (.file _ content), some (.file mode _) => fs.set file (.file mode (cut content))
  | _, _ => fs

/-- A call that does not fail for a reason of its own. -/
def act (umask : Nat) (fs : FileTree) (x : Choice) : (i : Instr) → i.Reply × FileTree
  | .stat path =>
    (match fs.follow false path with
      | .error e => .error e
      | .ok l =>
        match fs.node l with
        | some node => .ok (FileType.of node, modeOf node)
        | none => .error .notFound, fs)
  | .fileType path =>
    (match fs.locate path with
      | .error e => .error e
      | .ok l =>
        match fs.node l with
        | some node => .ok (FileType.of node)
        | none => .error .notFound, fs)
  | .readDir path =>
    (match fs.follow false path with
      | .error e => .error e
      | .ok l =>
        if fs.IsDir l then
          let names := FileSystem.arrange x.order (fs.children l)
          match x.cut with
          | some (count, fault) => .ok (names.take count, some fault)
          | none => .ok (names, none)
        else .error .notDirectory, fs)
  | .readLink path =>
    (match fs.locate path with
      | .error e => .error e
      | .ok l =>
        match fs.node l with
        | some (.symlink target) => .ok target
        | some _ => .error .invalid
        | none => .error .notFound, fs)
  | .mkdir path => makeEntry fs path (.dir (maskMode umask 0o777))
  | .symlink target path => makeEntry fs path (.symlink target)
  | .openRead path =>
    (match fs.follow false path with
      | .error e => .error e
      | .ok l =>
        match fs.node l with
        | some (.file mode _) => .ok (l, mode)
        | some _ => .error .invalid
        | none => .error .notFound, fs)
  | .create path mode => openCreate umask fs path mode
  | .fchmod file mode => (.ok (), changeMode fs file mode)
  | .copyRange source file => (.ok (), copyContent fs source file id)
  | .chmod path mode =>
    match fs.follow false path with
    | .error e => (.error e, fs)
    | .ok l => (.ok (), changeMode fs l mode)

/-- The reply of a call that fails. -/
def failed (e : Errno) : (i : Instr) → i.Reply
  | .stat _ | .fileType _ | .readDir _ | .readLink _ | .mkdir _ | .symlink _ _ | .openRead _
  | .create _ _ | .fchmod _ _ | .copyRange _ _ | .chmod _ _ => .error e

/-- A call that fails changes nothing, but a copy may have begun. -/
def exec (umask : Nat) (fs : FileTree) (i : Instr) (x : Choice) : i.Reply × FileTree :=
  match x.fault with
  | none => act umask fs x i
  | some f =>
    (failed (.fault f) i,
      match i with
      | .copyRange source file => copyContent fs source file (·.take x.written)
      | _ => fs)

/-! ### Programs -/

abbrev Code := Fallible Errno Instr Instr.Reply

def ask (i : Instr) : Code i.Reply := Crash.ask i

/-- The error of a call ends the program. -/
def sys {α : Type} (reply : Except Errno α) : Code α :=
  match reply with
  | .ok a => pure a
  | .error e => throw e

/-- `Path::exists`: every failure counts as absence. -/
def pathExists (path : FsPath) : Code Bool := do
  match ← ask (.stat path) with
  | .ok _ => pure true
  | .error _ => pure false

def pathIsDirectory (path : FsPath) : Code Bool := do
  match ← ask (.stat path) with
  | .ok (.dir, _) => pure true
  | _ => pure false

/-- `create_dir_all` takes a path as made that is a directory. -/
def orDirectory (path : FsPath) : Except Errno Unit → Code Unit
  | .ok () => pure ()
  | .error e => do
    if ← pathIsDirectory path then pure ()
    else throw e

def createDirAll : FsPath → Code Unit
  | [] => do orDirectory [] (← ask (.mkdir []))
  | hop :: parent => do
    match ← ask (.mkdir (hop :: parent)) with
    | .error .notFound => do
      createDirAll parent
      orDirectory (hop :: parent) (← ask (.mkdir (hop :: parent)))
    | reply => orDirectory (hop :: parent) reply

/-- `fs::copy`. The mode of the source is set before the content is there. -/
def copy (source target : FsPath) : Code Unit := do
  let (reader, mode) ← sys (← ask (.openRead source))
  let writer ← sys (← ask (.create target mode))
  sys (← ask (.fchmod writer mode))
  sys (← ask (.copyRange reader writer))

/-- `fs::write` with an empty content. -/
def writeEmpty (path : FsPath) : Code Unit := do
  let _ ← sys (← ask (.create path 0o666))
  pure ()

end PgEmbeddedSetup.Cache
