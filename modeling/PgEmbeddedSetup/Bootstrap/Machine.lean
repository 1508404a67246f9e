import PgEmbeddedSetup.Base.PathText
import PgEmbeddedSetup.Base.Rely
import PgEmbeddedSetup.Bootstrap.Prepare
import PgEmbeddedSetup.Cache.Calls

/-!
# Processes that prepare one tree

Any number of processes prepare their directories at once, with any configuration each, and their calls
are interleaved in any order. A call may fail for a reason of its own. An entry of the tree has one name,
and an owner.

`Granted` is what a step of one process does: nothing goes away, no content and no kind changes, modes
change only where a path of the process leads, to the mode that is meant for the path, new entries are
directories on the way of a path, and ownership goes to `nobody` only.
-/

namespace PgEmbeddedSetup.Bootstrap

open Env Fs Interleave Lexical Posix Program Transition
open Cache (changeMode maskMode modeOf)
open Postgres (ExecutionPrivileges)
open Privileges (User)

structure Disk where
  fs : FileSystem OsString
  owner : Location OsString → User

/-- What a process is started with. -/
structure Process where
  user : User
  umask : Nat
  cwd : Location OsString
  env : String → Option OsString
  settings : Settings
  cfg : PgEnvCfg

/-- What a call leaves open. The walk over a tree gives away the entries that are `given`. -/
structure Choice where
  fault : Option Fault
  err : Option String
  port : Nat
  given : Location OsString → Bool

structure Machine (T : Type) where
  nobody : Option User
  process : T → Process

abbrev System (T : Type) :=
  Config T Instr Instr.Reply (Except BootstrapError PreparedBootstrap) Disk

/-! ### What the calls do -/

/-- The place of the directory that `Dir::create_dir` makes. -/
def newDirPlace (fs : FileSystem OsString) (dir : Location OsString) (path : Utf8Path) :
    Except Errno (Location OsString) :=
  match path.hops.getLast? with
  | some (.name n) =>
    match fs.resolve (some dir) false dir path.hops.dropLast with
    | .error e => .error e
    | .ok parent =>
      if fs.IsDir parent then
        if (fs.node (n :: parent)).isSome then .error .alreadyExists else .ok (n :: parent)
      else .error .notDirectory
  | _ =>
    match lookup fs (some dir) dir none path with
    | .error e => .error e
    | .ok _ => .error .alreadyExists

/-- What is opened with `O_NOFOLLOW`. -/
def openedPlace (fs : FileSystem OsString) (dir : Location OsString) (path : Utf8Path) :
    Except Errno (Location OsString) :=
  match path.hops.getLast? with
  | some (.name n) =>
    match fs.resolve (some dir) false dir path.hops.dropLast with
    | .error e => .error e
    | .ok parent =>
      if fs.IsDir parent then
        match fs.node (n :: parent) with
        | none => .error .notFound
        | some (.symlink _) => .error .loop
        | some _ => .ok (n :: parent)
      else .error .notDirectory
  | _ => lookup fs (some dir) dir none path

/-- `Path::exists` for a path that is given as text. -/
def textExists (fs : FileSystem OsString) (cwd : Location OsString) (text : OsString) : Bool :=
  !text.isEmpty && (fs.resolve none false (if isAbsoluteText text then [] else cwd) (hopsOf text)).isOk

namespace Disk

def setMode (d : Disk) (l : Location OsString) (mode : Nat) : Disk :=
  { d with fs := changeMode d.fs l mode }

def give (d : Disk) (user : User) (given : Location OsString → Bool) : Disk :=
  { d with owner := fun l => if given l ∧ (d.fs.node l).isSome then user else d.owner l }

def makeDir (d : Disk) (pr : Process) (l : Location OsString) : Disk where
  fs := d.fs.set l (.dir (maskMode pr.umask 0o777))
  owner := Function.update d.owner l pr.user

end Disk

/-- What a call that changes one place does, if it finds the place. -/
def onPlace (d : Disk) (change : Location OsString → Disk) :
    Except Errno (Location OsString) → Except Errno Unit × Disk
  | .error e => (.error e, d)
  | .ok l => (.ok (), change l)

def isFileAt (fs : FileSystem OsString) (l : Location OsString) : Bool :=
  match fs.node l with
  | some (.file _ _) => true
  | _ => false

/-- What a handle tells, unless the call fails. -/
def toldUnless {α : Type} (fault : Option Fault) (a : α) : Except Errno α :=
  match fault with
  | some f => .error (.fault f)
  | none => .ok a

def act {T : Type} (m : Machine T) (pr : Process) (x : Choice) (d : Disk) :
    (i : Instr) → i.Reply × Disk
  | .openAmbientDir path => (openAmbientDir d.fs pr.cwd x.fault path, d)
  | .createDir dir path =>
    match x.fault with
    | some f => (.error (.fault f), d)
    | none => onPlace d (d.makeDir pr) (newDirPlace d.fs dir path)
  | .metadata dir path =>
    ((dirMetadata d.fs dir x.fault path).map fun l => decide (d.fs.IsDir l), d)
  | .dirMetadata dir => (toldUnless x.fault (decide (d.fs.IsDir dir)), d)
  | .setPermissions dir path mode =>
    onPlace d (d.setMode · mode) (lookup d.fs (some dir) dir x.fault path)
  | .chown path user =>
    onPlace d (fun l => d.give user (decide <| · = l)) (metadata d.fs pr.cwd x.fault path)
  | .openNoFollow dir path =>
    (match x.fault with
      | some f => .error (.fault f)
      | none => openedPlace d.fs dir path, d)
  | .isFile file => (toldUnless x.fault (isFileAt d.fs file), d)
  | .fchown file user => onPlace d (fun l => d.give user (decide <| · = l)) (toldUnless x.fault file)
  | .fchmod file mode => onPlace d (d.setMode · mode) (toldUnless x.fault file)
  | .ensureTreeOwned _ user =>
    (match x.err with
      | some err => .error err
      | none => .ok (), d.give user x.given)
  | .varOs name => (pr.env name, d)
  | .exists path => (textExists d.fs pr.cwd path, d)
  | .userFromName _ =>
    (match x.err with
      | some err => .error err
      | none => .ok m.nobody, d)
  | .geteuid => (pr.user.uid, d)
  | .bind _ =>
    (match x.err with
      | some err => .error err
      | none => .ok (), d)
  | .localPort =>
    (match x.err with
      | some err => .error err
      | none => .ok x.port, d)

def Process.privileges (pr : Process) : ExecutionPrivileges :=
  Postgres.detectExecutionPrivileges pr.user.uid

namespace Machine

variable {T : Type} (m : Machine T)

def sem : Semantics T Instr Instr.Reply Disk Choice := fun t i x d =>
  some (act m (m.process t) x d i)

def init (d : Disk) : System T :=
  ⟨d, fun t => (prepareBootstrap (m.process t).privileges (m.process t).settings
    (m.process t).cfg).run⟩

abbrev next [DecidableEq T] : System T → T × Choice → Option (System T) := step m.sem

/-! ### Paths and their modes -/

/-- A path, and the mode that is meant for what it leads to. -/
structure Role where
  path : Utf8Path
  mode : Nat

/-- The roles that are not those of a root directory, which keeps its mode. -/
def unlessRoot (roles : List Role) : List Role := roles.filter fun role => role.path.parent.isSome

/-- The user whose default paths a process takes. -/
def settledUid (t : T) : Option Nat :=
  match (m.process t).privileges with
  | .root => m.nobody.map (·.uid)
  | .unprivileged => some (m.process t).user.uid

/-- The paths of a process, once they are resolved. -/
def paths (t : T) : Option SettingsPaths :=
  (m.settledUid t).map fun uid =>
    (resolveSettingsPathsForUid (m.process t).settings (m.process t).cfg uid).2

end Machine

namespace SettingsPaths

open Machine (Role)

def parents (paths : SettingsPaths) : List Utf8Path :=
  (if paths.installDefault then paths.installDir.parent.toList else []) ++
    if paths.dataDefault then paths.dataDir.parent.toList else []

def mainRoles (paths : SettingsPaths) : List Role := [⟨paths.installDir, 0o755⟩, ⟨paths.dataDir, 0o700⟩]

def xdgRoles (paths : SettingsPaths) : List Role :=
  [⟨childOf paths.installDir "cache", 0o755⟩, ⟨childOf paths.installDir "run", 0o700⟩]

def parentRoles (paths : SettingsPaths) : List Role := paths.parents.map (⟨·, 0o755⟩)

def pgpassRole (paths : SettingsPaths) : Role := ⟨paths.passwordFile, pgpassMode⟩

/-- The modes that are set, in order. The password file is passed over if it is not found. -/
def chmods (paths : SettingsPaths) (found : Bool) : ExecutionPrivileges → List Role
  | .root => paths.parentRoles ++ paths.mainRoles ++ paths.xdgRoles ++ paths.xdgRoles ++
    if found then [paths.pgpassRole] else []
  | .unprivileged => paths.mainRoles ++ (if found then [paths.pgpassRole] else []) ++ paths.xdgRoles

def settled (paths : SettingsPaths) (found : Bool) (privileges : ExecutionPrivileges) : List Role :=
  Machine.unlessRoot (paths.chmods found privileges)

/-- The directories that are made ready. -/
def directories (paths : SettingsPaths) : List Role := paths.mainRoles ++ paths.xdgRoles

/-- The paths of the directories that may be made. -/
def made (paths : SettingsPaths) : List Utf8Path := paths.parents ++ paths.directories.map (·.path)

end SettingsPaths

namespace Machine

variable {T : Type} (m : Machine T)

/-- The path leads to the place, for a process. -/
def Leads (d : Disk) (t : T) (path : Utf8Path) (l : Location OsString) : Prop :=
  d.fs.Leads (path.start (m.process t).cwd) path.hops l

/-- The mode may be set by the process at the place. -/
def Sets (d : Disk) (t : T) (l : Location OsString) (mode : Nat) : Prop :=
  ∃ paths, m.paths t = some paths ∧
    ∃ role ∈ paths.settled true (m.process t).privileges, m.Leads d t role.path l ∧ mode = role.mode

/-- The place is on the way of a path of the process. -/
def OnWay (d : Disk) (t : T) (l : Location OsString) : Prop :=
  ∃ paths, m.paths t = some paths ∧ ∃ path ∈ paths.made, ∃ n, m.Leads d t (path.takeComponents n) l

structure Granted (t : T) (d d' : Disk) : Prop where
  kept : ∀ l node, d.fs.node l = some node → ∃ node', d'.fs.node l = some node' ∧
    node'.body = node.body ∧ (modeOf node' = modeOf node ∨ m.Sets d' t l (modeOf node'))
  made : ∀ l node, d.fs.node l = none → d'.fs.node l = some node →
    node = .dir (maskMode (m.process t).umask 0o777) ∧ m.OnWay d' t l ∧
      d'.owner l = (m.process t).user
  owner : ∀ l, d.fs.node l ≠ none → d'.owner l = d.owner l ∨
    (m.process t).privileges = .root ∧ m.nobody = some (d'.owner l)

/-- No call fails for a reason of its own. -/
def Calm (x : Choice) : Prop := x.fault = none ∧ x.err = none

def contract (calm : Prop) : Contract T Instr Instr.Reply Disk Choice where
  sem := m.sem
  cond := fun _ _ _ x => calm → Calm x
  grants := m.Granted

end Machine

end PgEmbeddedSetup.Bootstrap
