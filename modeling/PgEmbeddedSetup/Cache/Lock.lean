import PgEmbeddedSetup.Base.PathText
import PgEmbeddedSetup.Cache.Copy

/-!
# Locks of the cache

`CacheLock` on Unix. Its file is opened without being truncated, and `flock` is asked for it; a wait
that a signal interrupts is begun again, so only its last answer counts. The programs of the cache are
run between these calls. No call removes an entry or puts one of another kind in its place
(`grows_serve`).
-/

namespace PgEmbeddedSetup.Cache

open Env Fs Posix FileSystem Program Crash

inductive LockType where
  | exclusive
  | shared
  deriving DecidableEq, Repr

/-- `close` drops the lock with its file. -/
inductive Call where
  | io (i : Instr)
  | openLock (path : FsPath)
  | flock (file : Place) (type : LockType)
  | close (file : Place)
  deriving DecidableEq

@[reducible] def Call.Reply : Call → Type
  | .io i => i.Reply
  | .openLock _ => Except Errno Place
  | .flock _ _ => Except Errno Unit
  | .close _ => Unit

abbrev Routine := Prog Call Call.Reply

/-- A program of the cache, with its error as a value. -/
def io {α : Type} (p : Code α) : Routine (Except Errno α) :=
  Prog.interp (fun i => Prog.call (Call.io i)) p.run

/-- `LOCKS_SUBDIR`. -/
def locksSubdir : OsString := osString ".locks"

/-- The version is one component, which may have slashes after it. -/
def validateVersion (version : OsString) : Bool :=
  match version.splitOn slash with
  | [] => false
  | first :: rest =>
    first != [] && first != osString "." && first != osString ".." &&
      rest.all fun part => part == [] || part == osString "."

/-- `.lock` is put after the version as it is written, and the text is joined as a path. -/
def lockPath (cacheDir : FsPath) (version : OsString) : FsPath :=
  (hopsOf (version ++ osString ".lock")).reverse ++ .name locksSubdir :: cacheDir

/-- `CacheLock::acquire`. -/
def acquire (cacheDir : FsPath) (version : OsString) (type : LockType) :
    Routine (Except Errno Place) := do
  if validateVersion version then
    match ← io (createDirAll (.name locksSubdir :: cacheDir)) with
    | .error e => pure (.error e)
    | .ok () =>
      match ← Prog.call (Call.openLock (lockPath cacheDir version)) with
      | .error e => pure (.error e)
      | .ok file =>
        match ← Prog.call (Call.flock file type) with
        | .error e => pure (.error e)
        | .ok () => pure (.ok file)
  else pure (.error .invalid)

/-! ### What the calls do -/

/-- `open` with `O_RDWR | O_CREAT`. -/
def openExisting (umask : Nat) (fs : FileTree) (path : FsPath) : Except Errno Place × FileTree :=
  match fs.follow true path with
  | .error e => (.error e, fs)
  | .ok l =>
    match fs.node l with
    | none => (.ok l, fs.set l (.file (maskMode umask 0o666) []))
    | some (.file _ _) => (.ok l, fs)
    | some _ => (.error .isDirectory, fs)

def serve (umask : Nat) (fs : FileTree) (c : Call) (x : Choice) : c.Reply × FileTree :=
  match c with
  | .io i => exec umask fs i x
  | .openLock path =>
    match x.fault with
    | some f => (.error (.fault f), fs)
    | none => openExisting umask fs path
  | .flock _ _ =>
    match x.fault with
    | some f => (.error (.fault f), fs)
    | none => (.ok (), fs)
  | .close _ => ((), fs)

/-! ### Growth -/

theorem grows_set_new {fs : FileTree} {l : Place} (hnone : fs.node l = none) (new : Node OsString) :
    fs.Grows (fs.set l new) :=
  grows_set fun old hold => by cases hnone.symm.trans hold

theorem grows_makeEntry (fs : FileTree) (path : FsPath) (new : Node OsString) :
    fs.Grows (makeEntry fs path new).2 := by
  unfold makeEntry
  split
  next => exact Grows.refl fs
  next l =>
    split
    next => exact Grows.refl fs
    next hnone => exact grows_set_new hnone new

theorem grows_openCreate (umask : Nat) (fs : FileTree) (path : FsPath) (mode : Nat) :
    fs.Grows (openCreate umask fs path mode).2 := by
  unfold openCreate
  split
  next => exact Grows.refl fs
  next l =>
    split
    next hnone => exact grows_set_new hnone _
    next hfile => exact grows_set fun old hold => by cases hfile.symm.trans hold; rfl
    next => exact Grows.refl fs

theorem grows_changeMode (fs : FileTree) (l : Place) (mode : Nat) :
    fs.Grows (changeMode fs l mode) := by
  unfold changeMode
  split
  next node hnode =>
    refine grows_set fun old hold => ?_
    obtain rfl := Option.some.inj (hnode.symm.trans hold)
    cases node <;> rfl
  next => exact Grows.refl fs

theorem grows_copyContent (fs : FileTree) (source file : Place) (cut : List UInt8 → List UInt8) :
    fs.Grows (copyContent fs source file cut) := by
  unfold copyContent
  split
  next hfile => exact grows_set fun old hold => by cases hfile.symm.trans hold; rfl
  next => exact Grows.refl fs

theorem grows_act (umask : Nat) (fs : FileTree) (x : Choice) (i : Instr) :
    fs.Grows (act umask fs x i).2 := by
  cases i with
  | stat path | fileType path | readDir path | readLink path | openRead path => exact Grows.refl fs
  | mkdir path => exact grows_makeEntry fs path _
  | symlink target path => exact grows_makeEntry fs path _
  | create path mode => exact grows_openCreate umask fs path mode
  | fchmod file mode => exact grows_changeMode fs file mode
  | copyRange source file => exact grows_copyContent fs source file id
  | chmod path mode =>
    rw [act]
    split
    next => exact Grows.refl fs
    next => exact grows_changeMode fs _ mode

theorem grows_exec (umask : Nat) (fs : FileTree) (i : Instr) (x : Choice) :
    fs.Grows (exec umask fs i x).2 := by
  unfold exec
  split
  next => exact grows_act umask fs x i
  next =>
    split
    next => exact grows_copyContent fs _ _ _
    next => exact Grows.refl fs

theorem grows_serve (umask : Nat) (fs : FileTree) (c : Call) (x : Choice) :
    fs.Grows (serve umask fs c x).2 := by
  cases c with
  | io i => exact grows_exec umask fs i x
  | openLock path =>
    unfold serve
    simp only
    split
    next => exact Grows.refl fs
    next =>
      unfold openExisting
      split
      next => exact Grows.refl fs
      next =>
        split
        next hnone => exact grows_set_new hnone _
        next => exact Grows.refl fs
        next => exact Grows.refl fs
  | flock file type =>
    unfold serve
    simp only
    split <;> exact Grows.refl fs
  | close file => exact Grows.refl fs

end PgEmbeddedSetup.Cache
