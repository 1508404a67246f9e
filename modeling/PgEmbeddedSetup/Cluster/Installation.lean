import PgEmbeddedSetup.Base.Highest
import PgEmbeddedSetup.Cluster.Postgres

/-!
# Which installation is used

`resolve_installed_dir` lists the installation directory and takes the child with a `bin/` that its
order puts last: names that are versions come after all others, in the order of the versions. What
version the settings ask for is not looked at. So the highest version that matches is found just where
no version above it has a `bin/` (`resolved_matches_iff`).
-/

namespace PgEmbeddedSetup.Installation

open Lexical
open Cluster (FilePath OsString)
open Postgres (ExecutionPrivileges)

/-- The `semver` crate: its versions are displayed and parsed, and requirements accept some of them. -/
structure Semver (V R : Type) where
  parse : String → Option V
  display : V → String
  parseReq : String → Option R
  accepts : R → V → Bool

structure Settings (R : Type) extends Cluster.Settings where
  version : R
  trustInstallationDir : Bool

/-- `OsStr::to_str`. -/
def toStr (name : OsString) : Option String := String.fromUTF8? ⟨name.toArray⟩

def fileName (path : FilePath) : Option OsString :=
  match path.components.getLast? with
  | some (.normal name) => some name
  | _ => none

/-- An entry of a directory. Its type is none where it cannot be read, and `hasBin` follows links. -/
structure DirEntry where
  name : OsString
  isDir : Option Bool
  hasBin : Bool

/-- What is found at the installation directory. The listing is none where it cannot be listed, and an
entry where that cannot be read. -/
structure View where
  hasBin : Bool
  listing : Option (List (Option DirEntry))

/-- Components are compared in the order of their kinds, and names by their bytes. -/
def componentKey : Component OsString → List Nat
  | .rootDir => [0]
  | .curDir => [1]
  | .parentDir => [2]
  | .normal name => 3 :: name.map UInt8.toNat

def pathKey (path : FilePath) : List (List Nat) := path.components.map componentKey

variable {V R : Type} [LinearOrder V] (semver : Semver V R)

/-- The version that the last name of the path is. -/
def versionOf (path : FilePath) : Option V := do
  let name ← fileName path
  let text ← toStr name
  semver.parse text

/-- The comparison that the candidates are sorted by. -/
def compareInstalled (a b : FilePath) : Ordering :=
  match versionOf semver a, versionOf semver b with
  | some va, some vb => cmp va vb
  | some _, none => .gt
  | none, some _ => .lt
  | none, none => cmp (pathKey a) (pathKey b)

/-- The child directories with a `bin/`. -/
def candidates (installDir : FilePath) (listing : List (Option DirEntry)) : List FilePath :=
  listing.filterMap fun dirEntry => do
    let entry ← dirEntry
    let isDir ← entry.isDir
    if isDir && entry.hasBin then some (installDir.join (.ofName entry.name)) else none

def resolveInstalledDir (settings : Settings R) (view : View) : Option FilePath :=
  if view.hasBin then some settings.installationDir
  else if settings.trustInstallationDir then some settings.installationDir
  else do
    let listing ← view.listing
    ((candidates settings.installationDir listing).sortBy (compareInstalled semver)).getLast?

def refreshWorkerInstallationDir (privileges : ExecutionPrivileges) (settings : Settings R)
    (view : View) : Settings R :=
  match privileges with
  | .unprivileged => settings
  | .root =>
    match resolveInstalledDir semver settings view with
    | some installedDir => { settings with installationDir := installedDir }
    | none => settings

/-! ### The order -/

/-- The rank of a candidate: its version, or else its path. -/
def rank (path : FilePath) : WithBot V ×ₗ List (List Nat) :=
  match versionOf semver path with
  | some v => toLex (↑v, [])
  | none => toLex (⊥, pathKey path)

theorem ranks_compareInstalled : List.Ranks (rank semver) (compareInstalled semver) := by
  have hversion : StrictMono fun v : V => toLex ((v : WithBot V), ([] : List (List Nat))) :=
    fun _ _ h => Prod.Lex.lt_iff.mpr (Or.inl (WithBot.coe_lt_coe.mpr h))
  have hpath : StrictMono fun key : List (List Nat) => toLex ((⊥ : WithBot V), key) :=
    fun _ _ h => Prod.Lex.lt_iff.mpr (Or.inr ⟨rfl, h⟩)
  have habove : ∀ (v : V) (key : List (List Nat)),
      toLex ((⊥ : WithBot V), key) < toLex ((v : WithBot V), []) :=
    fun v key => Prod.Lex.lt_iff.mpr (Or.inl (WithBot.bot_lt_coe v))
  intro a b
  unfold compareInstalled rank
  cases versionOf semver a with
  | some va =>
    cases versionOf semver b with
    | some vb => exact (hversion.cmp_map_eq va vb).symm
    | none => exact ((cmp_eq_gt_iff _ _).mpr (habove va (pathKey b))).symm
  | none =>
    cases versionOf semver b with
    | some vb => exact ((cmp_eq_lt_iff _ _).mpr (habove vb (pathKey a))).symm
    | none =>
      convert (hpath.cmp_map_eq (pathKey a) (pathKey b)).symm
      rfl

section Ranks

variable {semver} {a b : FilePath} {v w : V}

theorem rank_le_version (ha : versionOf semver a = some v) (hb : versionOf semver b = some w) :
    rank semver a ≤ rank semver b ↔ v ≤ w := by
  unfold rank
  rw [ha, hb, Prod.Lex.le_iff]
  simp only [ofLex_toLex, WithBot.coe_lt_coe, WithBot.coe_inj, le_refl, and_true]
  exact le_iff_lt_or_eq.symm

theorem versionOf_ne_none (ha : versionOf semver a = some v) (h : rank semver a ≤ rank semver b) :
    ∃ w, versionOf semver b = some w := by
  unfold rank at h
  rw [ha] at h
  cases hb : versionOf semver b with
  | some w => exact ⟨w, rfl⟩
  | none =>
    rw [hb, Prod.Lex.le_iff] at h
    rcases h with h | ⟨h, -⟩
    · exact absurd h not_lt_bot
    · exact absurd h (WithBot.coe_ne_bot)

end Ranks

/-! ### The choice -/

/-- A child with a `bin/` whose name is a version that the requirement accepts. -/
def Matching (req : R) (installed : List FilePath) (path : FilePath) (v : V) : Prop :=
  path ∈ installed ∧ versionOf semver path = some v ∧ semver.accepts req v = true

/-- The result is the child with the highest version that matches. -/
def HighestMatch (req : R) (installed : List FilePath) (result : Option FilePath) : Prop :=
  ∃ path v, result = some path ∧ Matching semver req installed path v ∧
    ∀ path' v', Matching semver req installed path' v' → v' ≤ v

/-- The name is no version, or one that the requirement accepts. -/
def NotViolating (req : R) (path : FilePath) : Prop :=
  ∀ v, versionOf semver path = some v → semver.accepts req v = true

/-- Every version with a `bin/` that does not match is below one that does. -/
def MatchesOnTop (req : R) (installed : List FilePath) : Prop :=
  ∀ path ∈ installed, ∀ w, versionOf semver path = some w → semver.accepts req w = false →
    ∃ path' v, Matching semver req installed path' v ∧ w < v

section Choice

variable {semver} {req : R} {installed : List FilePath} {path : FilePath} {v : V}

theorem highest_version (h : path ∈ installed) (hv : versionOf semver path = some v) :
    ∃ best w, (installed.sortBy (compareInstalled semver)).getLast? = some best ∧
      best ∈ installed ∧ versionOf semver best = some w ∧
      ∀ path' ∈ installed, ∀ v', versionOf semver path' = some v' → v' ≤ w := by
  cases hlast : (installed.sortBy (compareInstalled semver)).getLast? with
  | none =>
    rw [List.getLast?_sortBy_eq_none.mp hlast] at h
    cases h
  | some best =>
    obtain ⟨hbest, hmax⟩ := List.getLast?_sortBy (ranks_compareInstalled semver) hlast
    obtain ⟨w, hw⟩ := versionOf_ne_none hv (hmax path h)
    exact ⟨best, w, rfl, hbest, hw, fun path' hpath' v' hv' =>
      (rank_le_version hv' hw).mp (hmax path' hpath')⟩

theorem highestMatch_iff (hmatch : ∃ path v, Matching semver req installed path v) :
    HighestMatch semver req installed (installed.sortBy (compareInstalled semver)).getLast? ↔
      MatchesOnTop semver req installed := by
  obtain ⟨path, v, hpath, hv, haccepts⟩ := hmatch
  obtain ⟨best, w, hlast, hbest, hw, hmax⟩ := highest_version hpath hv
  constructor
  · rintro ⟨path', v', heq, hmatching, -⟩ other hother u hu hrefused
    obtain rfl := Option.some.inj (hlast.symm.trans heq)
    obtain rfl := Option.some.inj (hw.symm.trans hmatching.2.1)
    refine ⟨best, w, hmatching, lt_of_le_of_ne (hmax other hother u hu) ?_⟩
    rintro rfl
    cases hrefused.symm.trans hmatching.2.2
  · intro htop
    have hmatching : Matching semver req installed best w := by
      refine ⟨hbest, hw, ?_⟩
      by_contra hrefused
      obtain ⟨path', v', hmatching, hlt⟩ := htop best hbest w hw (Bool.eq_false_iff.mpr hrefused)
      exact absurd (hmax path' hmatching.1 v' hmatching.2.1) (not_le_of_gt hlt)
    exact ⟨best, w, hlast, hmatching, fun path' v' h => hmax path' h.1 v' h.2.1⟩

theorem notViolating_iff (hmatch : ∃ path v, Matching semver req installed path v) {best : FilePath}
    (hlast : (installed.sortBy (compareInstalled semver)).getLast? = some best) :
    NotViolating semver req best ↔ MatchesOnTop semver req installed := by
  rw [← highestMatch_iff hmatch]
  obtain ⟨path, v, hpath, hv, haccepts⟩ := hmatch
  obtain ⟨best', w, hlast', hbest, hw, hmax⟩ := highest_version hpath hv
  obtain rfl := Option.some.inj (hlast.symm.trans hlast')
  constructor
  · intro hnot
    exact ⟨best, w, hlast, ⟨hbest, hw, hnot w hw⟩, fun path' v' h => hmax path' h.1 v' h.2.1⟩
  · rintro ⟨path', v', heq, hmatching, -⟩ u hu
    obtain rfl := Option.some.inj (hlast.symm.trans heq)
    obtain rfl := Option.some.inj (hu.symm.trans hmatching.2.1)
    exact hmatching.2.2

end Choice

/-- **The highest matching version is found**, and a cluster of root is never pointed at one that
violates its requirement, if and only if every version with a `bin/` that does not match is below one
that does. -/
theorem resolved_matches_iff {settings : Settings R} {view : View}
    {listing : List (Option DirEntry)} (hbin : view.hasBin = false)
    (htrust : settings.trustInstallationDir = false) (hlisting : view.listing = some listing)
    (hmatch : ∃ path v, Matching semver settings.version
      (candidates settings.installationDir listing) path v) :
    HighestMatch semver settings.version (candidates settings.installationDir listing)
        (resolveInstalledDir semver settings view) ∧
      NotViolating semver settings.version
        (refreshWorkerInstallationDir semver .root settings view).installationDir ↔
    MatchesOnTop semver settings.version (candidates settings.installationDir listing) := by
  have hresolved : resolveInstalledDir semver settings view =
      ((candidates settings.installationDir listing).sortBy (compareInstalled semver)).getLast? := by
    simp only [resolveInstalledDir, hbin, htrust, hlisting]
    rfl
  obtain ⟨path, v, hmatching⟩ := id hmatch
  obtain ⟨best, -, hlast, -⟩ := highest_version hmatching.1 hmatching.2.1
  have hrefreshed : (refreshWorkerInstallationDir semver .root settings view).installationDir =
      best := by
    simp only [refreshWorkerInstallationDir, hresolved, hlast]
  rw [hresolved, hrefreshed, highestMatch_iff hmatch, notViolating_iff hmatch hlast, and_self]

abbrev Triple := Nat ×ₗ Nat ×ₗ Nat

def older : Triple := toLex (16, toLex (4, 0))

def newer : Triple := toLex (17, toLex (2, 0))

/-- Two versions, and the exact requirements of them. -/
def twoVersions : Semver Triple Triple where
  parse text :=
    if text = "16.4.0" then some older else if text = "17.2.0" then some newer else none
  display v := if v = older then "16.4.0" else "17.2.0"
  parseReq text :=
    if text = "=16.4.0" then some older else if text = "=17.2.0" then some newer else none
  accepts req v := decide (req = v)

/-- One of them is asked for. -/
def askedFor (version : Triple) : Settings Triple where
  dataDir := Path.absolute [Fs.osString "d"]
  installationDir := Path.absolute [Fs.osString "i"]
  passwordFile := Path.absolute [Fs.osString "i", Fs.osString ".pgpass"]
  version := version
  trustInstallationDir := false

def olderPath : FilePath := Path.absolute [Fs.osString "i", Fs.osString "16.4.0"]

def newerPath : FilePath := Path.absolute [Fs.osString "i", Fs.osString "17.2.0"]

/-- Both are installed. -/
def bothListed : List (Option DirEntry) :=
  [some ⟨Fs.osString "17.2.0", some true, true⟩, some ⟨Fs.osString "16.4.0", some true, true⟩,
    some ⟨Fs.osString ".pgpass", some false, false⟩]

theorem resolved_matches_newer :
    HighestMatch twoVersions newer (candidates (askedFor newer).installationDir bothListed)
        (resolveInstalledDir twoVersions (askedFor newer) ⟨false, some bothListed⟩) ∧
      NotViolating twoVersions newer (refreshWorkerInstallationDir twoVersions .root
        (askedFor newer) ⟨false, some bothListed⟩).installationDir ↔
    MatchesOnTop twoVersions newer (candidates (askedFor newer).installationDir bothListed) :=
  resolved_matches_iff twoVersions rfl rfl rfl
    ⟨newerPath, newer, by decide +kernel, by decide +kernel, by decide +kernel⟩

/-- The newer version is taken where the older one is asked for. -/
theorem wrong_version_resolved : ¬ ∀ (V R : Type) [LinearOrder V] (semver : Semver V R)
    (settings : Settings R) (view : View) (listing : List (Option DirEntry)),
    view.hasBin = false → settings.trustInstallationDir = false → view.listing = some listing →
    (∃ path v, Matching semver settings.version (candidates settings.installationDir listing) path v) →
    HighestMatch semver settings.version (candidates settings.installationDir listing)
      (resolveInstalledDir semver settings view) := by
  intro h
  obtain ⟨path, v, hpath, hmatching, -⟩ := h Triple Triple twoVersions (askedFor older)
    ⟨false, some bothListed⟩ bothListed rfl rfl rfl
    ⟨olderPath, older, by decide +kernel, by decide +kernel, by decide +kernel⟩
  have hresolved : resolveInstalledDir twoVersions (askedFor older) ⟨false, some bothListed⟩ =
      some newerPath := by
    decide +kernel
  have hversion : versionOf twoVersions newerPath = some newer := by decide +kernel
  obtain rfl := Option.some.inj (hresolved.symm.trans hpath)
  obtain rfl := Option.some.inj (hversion.symm.trans hmatching.2.1)
  exact absurd hmatching.2.2 (by decide +kernel)

end PgEmbeddedSetup.Installation
