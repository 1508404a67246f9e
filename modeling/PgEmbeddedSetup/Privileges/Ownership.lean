import PgEmbeddedSetup.Fs.Ambient

/-!
# Giving a tree to a user

`ensure_tree_owned_by_user` walks a directory tree with a stack of directories that are still to be
listed. Each entry of a directory is given to the user by `chown`, which follows links, and pushed if
the listing says that it is a directory, which does not follow them.

The walk does not change the tree, only who owns its inodes. An inode may have several names. The
order of each listing and the calls that fail are a `Schedule`: each directory is listed once at most
and each entry visited once, so they are given by path.
-/

namespace PgEmbeddedSetup.Privileges

open Env Fs Lexical Posix

structure User where
  uid : Nat
  gid : Nat
  deriving DecidableEq

abbrev Ino := Nat

/-- A file system with its inodes. All names of an inode are names of one node. -/
structure Host where
  fs : FileSystem OsString
  cwd : Location OsString
  isDir_cwd : fs.IsDir cwd
  inode : Location OsString → Ino
  hardlinks : ∀ l l', fs.node l ≠ none → fs.node l' ≠ none → inode l = inode l' →
    fs.node l = fs.node l'
  /-- A listing gives the type of the entry. -/
  reported : Location OsString → Bool

structure Schedule where
  order : Location OsString → List OsString
  openFault : Utf8Path → Option Fault
  readFault : Utf8Path → Option Fault
  /-- The listing of a directory breaks off after so many entries. -/
  entryFault : Utf8Path → Nat → Option Fault
  chownFault : Utf8Path → Option Fault

/-- The errors by their contexts: `open directory {path}`, `read_dir {path}`, `iterate {path}`,
`non-UTF-8 path under {path}` and `chown {path}`. -/
inductive PrivilegeError where
  | openDirectory (path : Utf8Path) (cause : Errno)
  | readDir (path : Utf8Path) (cause : Fault)
  | iterate (path : Utf8Path) (cause : Fault)
  | nonUtf8 (path : Utf8Path)
  | chown (path : Utf8Path) (cause : Errno)

/-- Who owns the inodes. A `User` stands for its user and group. -/
abbrev Owners := Ino → User

abbrev Walk (α : Type) := EStateM PrivilegeError Owners α

def isUtf8 (name : OsString) : Bool := (ByteArray.mk name.toArray).validateUTF8

section Code

variable (h : Host) (s : Schedule) (user : User)

/-- There is no directory to list, or it is opened, or it cannot be. -/
def openDirectoryIfExists (path : Utf8Path) :
    Option (Except PrivilegeError (Location OsString)) :=
  match openAmbientDir h.fs h.cwd (s.openFault path) path with
  | .ok dir => some (.ok dir)
  | .error .notFound => none
  | .error e => some (.error (.openDirectory path e))

def resolveEntryPath (path : Utf8Path) (name : OsString) : Walk Utf8Path :=
  if isUtf8 name then pure (path.join (Path.ofName name)) else throw (.nonUtf8 path)

/-- `chown(2)`: the inode that the path leads to, through a link at its end too. -/
def chownEntry (path : Utf8Path) : Walk Unit := fun owners =>
  match metadata h.fs h.cwd (s.chownFault path) path with
  | .ok l => .ok () (Function.update owners (h.inode l) user)
  | .error e => .error (.chown path e) owners

/-- The type of an entry that is not reported counts as another type. -/
def isDirectory (l : Location OsString) : Bool := h.reported l && decide (h.fs.IsDir l)

/-- The entries from the `i`-th on of the directory at `dir`. The value is the stack. -/
def visitEntries (path : Utf8Path) (dir : Location OsString) :
    Nat → List OsString → List Utf8Path → Walk (List Utf8Path)
  | i, [], stack =>
    match s.entryFault path i with
    | some f => throw (.iterate path f)
    | none => pure stack
  | i, name :: names, stack =>
    match s.entryFault path i with
    | some f => throw (.iterate path f)
    | none => do
      let entryPath ← resolveEntryPath path name
      chownEntry h s user entryPath
      let pushed := if isDirectory h (name :: dir) then entryPath :: stack else stack
      visitEntries path dir (i + 1) names pushed

def visitDirectory (path : Utf8Path) (stack : List Utf8Path) : Walk (List Utf8Path) :=
  match openDirectoryIfExists h s path with
  | none => pure stack
  | some (.error e) => throw e
  | some (.ok dir) =>
    match s.readFault path with
    | some f => throw (.readDir path f)
    | none =>
      visitEntries h s user path dir 0
        (FileSystem.arrange (s.order dir) (h.fs.children dir)) stack

/-- At most `fuel` rounds of the loop, and whether the stack is then empty. -/
def walk : Nat → List Utf8Path → Walk Bool
  | _, [] => pure true
  | 0, _ :: _ => pure false
  | fuel + 1, path :: stack => do
    let stack ← visitDirectory h s user path stack
    walk fuel stack

def ensureTreeOwnedByUser (fuel : Nat) (root : Utf8Path) : Walk Bool :=
  walk h s user fuel [root]

end Code

end PgEmbeddedSetup.Privileges
