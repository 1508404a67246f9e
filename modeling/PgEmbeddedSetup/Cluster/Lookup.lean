import PgEmbeddedSetup.Cluster.CacheIntegration

/-!
# Which entry of the cache is selected

`find_matching_cached_version` in a run in which no call fails. It returns the greatest version that
is complete and that the requirement accepts, in whatever order the cache directory is listed, and
none just where there is none (`selected_entry`). What is returned is the version as it is displayed.
If a version is displayed as it was written, that is the name of the entry, and so the lock that is
taken next and the check under it are those of the entry that was selected.
-/

namespace PgEmbeddedSetup.CacheIntegration

open Program Posix Crash Cache Installation Fs
open Cluster (FilePath)
open Env (OsString)

/-! ### What the calls find -/

/-- No call fails, and directories are listed in this order. -/
def quiet (order : List OsString) : Choice := ⟨none, order, none, 0⟩

/-- What `stat` finds. -/
def nodeAt (fs : FileTree) (path : FsPath) : Option (Node OsString) :=
  match fs.follow false path with
  | .ok l => fs.node l
  | .error _ => none

/-- The marker is there, and `bin` leads to a directory. -/
def Complete (fs : FileTree) (path : FsPath) : Prop :=
  (nodeAt fs (.name completionMarker :: path)).isSome = true ∧
    (nodeAt fs (.name binDir :: path)).any (·.isDir) = true

instance (fs : FileTree) (path : FsPath) : Decidable (Complete fs path) :=
  inferInstanceAs (Decidable (_ ∧ _))

section Calls

variable {umask : Nat} {order : List OsString} {fs : FileTree} {path : FsPath}

theorem finish_io {α : Type} (xs : Nat → Choice) (p : Code α) (fs : FileTree) :
    finish (serve umask) xs (io p) fs = finish (exec umask) xs p.run fs := by
  unfold io
  induction p.run generalizing xs fs with
  | ret r => rfl
  | exec i k ih => exact ih _ _ _

theorem exec_stat_some {node : Node OsString} (h : nodeAt fs path = some node) :
    exec umask fs (.stat path) (quiet order) = (.ok (FileType.of node, modeOf node), fs) := by
  unfold nodeAt at h
  simp only [exec, quiet, act]
  cases hfollow : fs.follow false path with
  | error e => rw [hfollow] at h; cases h
  | ok l =>
    rw [hfollow] at h
    simp only at h
    simp only [h]

theorem exec_stat_none (umask : Nat) (order : List OsString) (h : nodeAt fs path = none) :
    ∃ e, exec umask fs (.stat path) (quiet order) = (.error e, fs) := by
  unfold nodeAt at h
  simp only [exec, quiet, act]
  cases hfollow : fs.follow false path with
  | error e => exact ⟨e, rfl⟩
  | ok l =>
    rw [hfollow] at h
    simp only at h
    simp only [h]
    exact ⟨_, rfl⟩

theorem finish_pathExists : finish (exec umask) (fun _ => quiet order) (Cache.pathExists path).run fs =
    (.ok (nodeAt fs path).isSome, fs) := by
  unfold Cache.pathExists
  rw [Cache.ask, finish_ask]
  cases hnode : nodeAt fs path with
  | some node =>
    rw [exec_stat_some hnode]
    rfl
  | none =>
    obtain ⟨e, hstat⟩ := exec_stat_none umask order hnode
    rw [hstat]
    rfl

theorem finish_pathIsDirectory :
    finish (exec umask) (fun _ => quiet order) (pathIsDirectory path).run fs =
      (.ok ((nodeAt fs path).any (·.isDir)), fs) := by
  unfold pathIsDirectory
  rw [Cache.ask, finish_ask]
  cases hnode : nodeAt fs path with
  | some node =>
    rw [exec_stat_some hnode]
    cases node <;> rfl
  | none =>
    obtain ⟨e, hstat⟩ := exec_stat_none umask order hnode
    rw [hstat]
    rfl

theorem finish_isCacheEntryComplete :
    finish (exec umask) (fun _ => quiet order) (isCacheEntryComplete path).run fs =
      (.ok (decide (Complete fs path)), fs) := by
  unfold isCacheEntryComplete
  rw [finish_ok finish_pathExists]
  by_cases hmarker : (nodeAt fs (.name completionMarker :: path)).isSome = true
  · have hbin : decide (Complete fs path) = (nodeAt fs (.name binDir :: path)).any (·.isDir) := by
      rw [Bool.eq_iff_iff, decide_eq_true_eq]
      exact ⟨fun h => h.2, fun h => ⟨hmarker, h⟩⟩
    rw [if_pos hmarker, finish_pathIsDirectory, hbin]
  · have hnone : decide (Complete fs path) = false := decide_eq_false fun h => hmarker h.1
    rw [if_neg hmarker, hnone]
    rfl

end Calls

/-! ### The selection -/

section Selection

variable {V R : Type} [LinearOrder V] (semver : Semver V R)

/-- An entry that meets the requirement: it is complete, it is not hidden, and its name is a version
that the requirement accepts. -/
structure Eligible (fs : FileTree) (cacheDir : FsPath) (versionReq : R) (name : OsString) (v : V) :
    Prop where
  entry : ∃ d, fs.Bound cacheDir d ∧ fs.node (name :: d) ≠ none
  visible : name.head? ≠ some 0x2E
  version : (toStr name).bind semver.parse = some v
  accepted : semver.accepts versionReq v = true
  complete : Complete fs (.name name :: cacheDir)

/-- The version and the path that are kept for a name. -/
def kept (fs : FileTree) (cacheDir : FsPath) (versionReq : R) (name : OsString) :
    Option (V × FsPath) :=
  ((toStr name).bind semver.parse).bind fun v =>
    if name.head? ≠ some 0x2E ∧ semver.accepts versionReq v = true ∧
        Complete fs (.name name :: cacheDir) then some (v, .name name :: cacheDir)
    else none

/-- What the lookup returns when the cache directory is listed in this order. -/
def lookedUp (umask : Nat) (order : List OsString) (fs : FileTree) (cacheDir : FsPath)
    (versionReq : R) : Option (String × FsPath) :=
  (finish (serve umask) (fun _ => quiet order)
    (findMatchingCachedVersion semver cacheDir versionReq) fs).1

variable {semver} {umask : Nat} {order : List OsString} {fs : FileTree} {cacheDir : FsPath}
  {versionReq : R} {name : OsString}

omit [LinearOrder V] in
theorem finish_tryParseCacheEntry (name : OsString) :
    finish (serve umask) (fun _ => quiet order) (tryParseCacheEntry semver cacheDir versionReq name)
      fs = (kept semver fs cacheDir versionReq name, fs) := by
  unfold tryParseCacheEntry kept
  cases htext : toStr name with
  | none => rfl
  | some dirName =>
    simp only [Option.bind_some]
    by_cases hhidden : name.head? = some 0x2E
    · rw [if_pos hhidden]
      cases semver.parse dirName with
      | none => rfl
      | some v =>
        rw [Option.bind_some, if_neg fun h => h.1 hhidden]
        rfl
    rw [if_neg hhidden]
    cases semver.parse dirName with
    | none => rfl
    | some v =>
      simp only [Option.bind_some]
      by_cases haccepts : semver.accepts versionReq v = true
      · rw [if_pos haccepts, finish_bind, finish_io, finish_isCacheEntryComplete]
        by_cases hcomplete : Complete fs (.name name :: cacheDir)
        · rw [if_pos ⟨hhidden, haccepts, hcomplete⟩, decide_eq_true hcomplete]
          rfl
        · rw [if_neg fun h => hcomplete h.2.2, decide_eq_false hcomplete]
          rfl
      · rw [if_neg haccepts, if_neg fun h => haccepts h.2.1]
        rfl

/-- The lookup keeps the greatest of what is listed. -/
theorem lookedUp_eq : lookedUp semver umask order fs cacheDir versionReq =
    match (exec umask fs (.readDir cacheDir) (quiet order)).1 with
    | .error _ => none
    | .ok listing =>
      ((listing.1.filterMap (kept semver fs cacheDir versionReq)).foldl (List.later Prod.fst) none).map
        fun entry => (semver.display entry.1, entry.2) := by
  unfold lookedUp findMatchingCachedVersion
  rw [finish_bind]
  have hread : finish (serve umask) (fun _ => quiet order) (Prog.call (Call.io (.readDir cacheDir))) fs
      = ((exec umask fs (.readDir cacheDir) (quiet order)).1, fs) := rfl
  rw [hread]
  cases (exec umask fs (.readDir cacheDir) (quiet order)).1 with
  | error e => rfl
  | ok listing =>
    have hstep : ∀ (best : Option (V × FsPath)) (name : OsString),
        finish (serve umask) (fun _ => quiet order) (maxByVersion semver cacheDir versionReq best name)
          fs = ((kept semver fs cacheDir versionReq name).elim best (List.later Prod.fst best), fs) := by
      intro best name
      rw [maxByVersion, finish_bind, finish_tryParseCacheEntry]
      cases kept semver fs cacheDir versionReq name <;> rfl
    have hfold : ∀ best : Option (V × FsPath),
        listing.1.foldl (fun best name =>
          (kept semver fs cacheDir versionReq name).elim best (List.later Prod.fst best)) best =
        (listing.1.filterMap (kept semver fs cacheDir versionReq)).foldl (List.later Prod.fst) best := by
      intro best
      rw [List.foldl_filterMap]
      congr 1
      funext best name
      cases kept semver fs cacheDir versionReq name <;> rfl
    simp only
    rw [finish_bind, finish_foldlM hstep, hfold]
    rfl

omit [LinearOrder V] in
theorem kept_eq_some {v : V} {path : FsPath} : kept semver fs cacheDir versionReq name = some (v, path) ↔
    (toStr name).bind semver.parse = some v ∧ (name.head? ≠ some 0x2E ∧
      semver.accepts versionReq v = true ∧ Complete fs (.name name :: cacheDir)) ∧
      .name name :: cacheDir = path := by
  unfold kept
  rw [Option.bind_eq_some_iff]
  simp only [Option.ite_none_right_eq_some, Option.some.injEq, Prod.mk.injEq]
  constructor
  · rintro ⟨w, hw, hkept, rfl, hpath⟩
    exact ⟨hw, hkept, hpath⟩
  · rintro ⟨hv, hkept, hpath⟩
    exact ⟨v, hv, hkept, rfl, hpath⟩

omit [LinearOrder V] in
theorem eligible_iff {d : Place} (hbound : fs.Bound cacheDir d) {v : V} :
    Eligible semver fs cacheDir versionReq name v ↔
      name ∈ FileSystem.arrange order (fs.children d) ∧
        kept semver fs cacheDir versionReq name = some (v, .name name :: cacheDir) := by
  rw [(FileSystem.arrange_perm order _).mem_iff, FileSystem.mem_children, kept_eq_some]
  constructor
  · rintro ⟨⟨d', hbound', hnode⟩, hvisible, hversion, haccepted, hcomplete⟩
    obtain rfl := Except.ok.inj (hbound'.follow.symm.trans hbound.follow)
    exact ⟨hnode, hversion, ⟨hvisible, haccepted, hcomplete⟩, rfl⟩
  · rintro ⟨hnode, hversion, ⟨hvisible, haccepted, hcomplete⟩, -⟩
    exact ⟨⟨d, hbound, hnode⟩, hvisible, hversion, haccepted, hcomplete⟩

theorem exec_readDir {d : Place} (hbound : fs.Bound cacheDir d) :
    (exec umask fs (.readDir cacheDir) (quiet order)).1 =
      .ok (FileSystem.arrange order (fs.children d), none) := by
  simp only [exec, quiet, act, hbound.follow, if_pos hbound.isDir]

theorem bound_of_readDir {listing : List OsString × Option Fault}
    (h : (exec umask fs (.readDir cacheDir) (quiet order)).1 = .ok listing) :
    ∃ d, fs.Bound cacheDir d := by
  simp only [exec, quiet, act] at h
  split at h
  next => cases h
  next d hfollow =>
    by_cases hdir : fs.IsDir d
    · exact ⟨d, hfollow, hdir⟩
    · rw [if_neg hdir] at h
      cases h

theorem lookedUp_eq_none : lookedUp semver umask order fs cacheDir versionReq = none ↔
    ∀ name v, ¬ Eligible semver fs cacheDir versionReq name v := by
  rw [lookedUp_eq]
  cases hread : (exec umask fs (.readDir cacheDir) (quiet order)).1 with
  | error e =>
    refine iff_of_true rfl fun name v h => ?_
    obtain ⟨d, hbound, -⟩ := h.entry
    cases hread.symm.trans (exec_readDir hbound)
  | ok listing =>
    obtain ⟨d, hbound⟩ := bound_of_readDir hread
    obtain rfl := Except.ok.inj (hread.symm.trans (exec_readDir hbound))
    simp only [Option.map_eq_none_iff, List.foldl_later_eq_none, List.filterMap_eq_nil_iff]
    constructor
    · intro h name v helig
      obtain ⟨hmem, hkept⟩ := (eligible_iff hbound).mp helig
      cases (h name hmem).symm.trans hkept
    · intro h name hmem
      cases hkept : kept semver fs cacheDir versionReq name with
      | none => rfl
      | some entry =>
        obtain ⟨-, -, hpath⟩ := kept_eq_some.mp hkept
        exact absurd ((eligible_iff hbound).mpr ⟨hmem, hpath ▸ hkept⟩) (h name entry.1)

theorem lookedUp_eq_some {version : String} {path : FsPath}
    (h : lookedUp semver umask order fs cacheDir versionReq = some (version, path)) :
    ∃ name v, Eligible semver fs cacheDir versionReq name v ∧
      (∀ name' v', Eligible semver fs cacheDir versionReq name' v' → v' ≤ v) ∧
      semver.display v = version ∧ .name name :: cacheDir = path := by
  rw [lookedUp_eq] at h
  cases hread : (exec umask fs (.readDir cacheDir) (quiet order)).1 with
  | error e =>
    rw [hread] at h
    cases h
  | ok listing =>
    rw [hread] at h
    obtain ⟨d, hbound⟩ := bound_of_readDir hread
    obtain rfl := Except.ok.inj (hread.symm.trans (exec_readDir hbound))
    obtain ⟨⟨v, path'⟩, hbest, heq⟩ := Option.map_eq_some_iff.mp h
    obtain ⟨hdisplay, rfl⟩ := Prod.mk.inj heq
    obtain ⟨hfrom, hmax, -⟩ := List.foldl_later hbest
    obtain ⟨name, hmem, hkept⟩ := List.mem_filterMap.mp (hfrom.resolve_left fun h => by cases h)
    obtain ⟨-, -, hpath⟩ := kept_eq_some.mp hkept
    refine ⟨name, v, (eligible_iff hbound).mpr ⟨hmem, hpath ▸ hkept⟩, fun name' v' helig => ?_, hdisplay,
      hpath⟩
    obtain ⟨hmem', hkept'⟩ := (eligible_iff hbound).mp helig
    exact hmax _ (List.mem_filterMap.mpr ⟨name', hmem', hkept'⟩)

end Selection

/-! ### The entry that is used -/

section Use

variable {V R : Type} [LinearOrder V] (semver : Semver V R) (cwd : Place) (depth : Nat)

/-- `try_use_binary_cache` after its lookup. -/
def useFound (cacheDir : FsPath) (found : Option (String × FsPath)) (settings : Settings R) :
    Routine (Bool × Settings R) :=
  match found with
  | none => pure (false, settings)
  | some (version, _) => do
    match ← acquire cacheDir (osString version) .shared with
    | .error _ => pure (false, settings)
    | .ok lock =>
      let result ← useEntry semver cwd depth cacheDir version settings
      Prog.call (Call.close lock)
      pure result

/-- This entry is checked and copied. -/
def useChecked (entry : FsPath) (version : String) (settings : Settings R) :
    Routine (Bool × Settings R) := do
  match ← io (isCacheEntryComplete entry) with
  | .ok true => applyCachedBinaries semver cwd depth entry version settings
  | _ => pure (false, settings)

/-- It is so under the lock of this name. -/
def useLocked (cacheDir : FsPath) (name : OsString) (entry : FsPath) (version : String)
    (settings : Settings R) : Routine (Bool × Settings R) := do
  match ← acquire cacheDir name .shared with
  | .error _ => pure (false, settings)
  | .ok lock =>
    let result ← useChecked semver cwd depth entry version settings
    Prog.call (Call.close lock)
    pure result

/-- The name of an entry, as a version and as a path. -/
structure EntryOf (cacheDir : FsPath) (name : OsString) (version : String) (path : FsPath) : Prop where
  text : osString version = name
  join : (hopsOf (osString version)).reverse ++ cacheDir = path
  valid : validateVersion (osString version) = true
  lock : lockPath cacheDir (osString version) =
    .name (name ++ osString ".lock") :: .name locksSubdir :: cacheDir

variable {semver} {cwd} {depth} {umask : Nat} {order : List OsString} {fs : FileTree}
  {cacheDir : FsPath} {versionReq : R} {name : OsString}

omit [LinearOrder V] in
theorem useFound_eq {version : String} (h : osString version = name) (path : FsPath)
    (settings : Settings R) :
    useFound semver cwd depth cacheDir (some (version, path)) settings =
      useLocked semver cwd depth cacheDir name (.name name :: cacheDir) version settings := by
  subst h
  rfl

omit [LinearOrder V] in
theorem osString_display (hround : ∀ text v, semver.parse text = some v → semver.display v = text)
    {v : V} (h : (toStr name).bind semver.parse = some v) : osString (semver.display v) = name := by
  obtain ⟨text, htext, hparse⟩ := Option.bind_eq_some_iff.mp h
  rw [hround text v hparse, osString_eq, toByteArray_toStr htext]

theorem entryOf_visible {version : String} (hname : osString version = name)
    (hvisible : name.head? ≠ some 0x2E) (hne : name ≠ []) (hslash : slash ∉ name) :
    EntryOf cacheDir name version (.name name :: cacheDir) where
  text := hname
  join := by
    have hdots : ∀ rest, name ≠ 0x2E :: rest := fun rest h => hvisible (h ▸ rfl)
    rw [hname, hopsOf_piece hslash, hopOf_eq_name hne (hdots _) (hdots _)]
    rfl
  valid := by
    have hdot : name ≠ osString "." := fun h => hvisible (h ▸ by decide +kernel)
    have hdots : name ≠ osString ".." := fun h => hvisible (h ▸ by decide +kernel)
    rw [hname, validateVersion, List.splitOn_eq_singleton hslash]
    simp [hne, hdot, hdots]
  lock := by
    have hdots : ∀ rest, name ++ osString ".lock" ≠ 0x2E :: rest := by
      intro rest h
      cases name with
      | nil => exact hne rfl
      | cons b bytes => exact hvisible (by rw [List.cons_append, List.cons.injEq] at h; rw [h.1]; rfl)
    have hslash' : slash ∉ name ++ osString ".lock" := fun h =>
      (List.mem_append.mp h).elim hslash (by decide +kernel)
    rw [hname, lockPath, hopsOf_piece hslash', hopOf_eq_name
      (List.append_ne_nil_of_left_ne_nil hne _) (hdots _) (hdots _)]
    rfl

/-- **The entry that is selected.** There is none just where no entry is eligible. Otherwise it is that
of the greatest eligible version, for every order of the listing; the version is displayed as the name
of the entry, and the call goes on with the lock, the check and the copy of that entry. -/
theorem selected_entry (hround : ∀ text v, semver.parse text = some v → semver.display v = text)
    (umask : Nat) (order : List OsString) (fs : FileTree) (cacheDir : FsPath) (versionReq : R) :
    (lookedUp semver umask order fs cacheDir versionReq = none ↔
      ∀ name v, ¬ Eligible semver fs cacheDir versionReq name v) ∧
    (∀ order', lookedUp semver umask order' fs cacheDir versionReq =
      lookedUp semver umask order fs cacheDir versionReq) ∧
    ∀ version path, lookedUp semver umask order fs cacheDir versionReq = some (version, path) →
      ∃ name v, Eligible semver fs cacheDir versionReq name v ∧
        (∀ name' v', Eligible semver fs cacheDir versionReq name' v' → v' ≤ v) ∧
        path = .name name :: cacheDir ∧
        (name ≠ [] → slash ∉ name → EntryOf cacheDir name version path) ∧
        ∀ cwd depth settings, useFound semver cwd depth cacheDir (some (version, path)) settings =
          useLocked semver cwd depth cacheDir name path version settings := by
  have hname : ∀ {name v}, Eligible semver fs cacheDir versionReq name v →
      osString (semver.display v) = name := fun h => osString_display hround h.version
  refine ⟨lookedUp_eq_none, fun order' => ?_, fun version path h => ?_⟩
  · cases h : lookedUp semver umask order fs cacheDir versionReq with
    | none => exact lookedUp_eq_none.mpr (lookedUp_eq_none.mp h)
    | some found =>
      cases h' : lookedUp semver umask order' fs cacheDir versionReq with
      | none =>
        obtain ⟨name, v, helig, -⟩ := lookedUp_eq_some h
        exact absurd helig (lookedUp_eq_none.mp h' name v)
      | some found' =>
        -- both are the greatest, and the version says which entry it is
        obtain ⟨name, v, helig, hmax, hdisplay, hpath⟩ := lookedUp_eq_some h
        obtain ⟨name', v', helig', hmax', hdisplay', hpath'⟩ := lookedUp_eq_some h'
        obtain rfl : v = v' := le_antisymm (hmax' name v helig) (hmax name' v' helig')
        obtain rfl : name = name' := (hname helig).symm.trans (hname helig')
        rw [Option.some.injEq]
        exact Prod.ext (hdisplay'.symm.trans hdisplay) (hpath'.symm.trans hpath)
  · obtain ⟨name, v, helig, hmax, rfl, rfl⟩ := lookedUp_eq_some h
    refine ⟨name, v, helig, hmax, rfl, fun hne hslash => ?_, fun cwd depth settings => ?_⟩
    · exact entryOf_visible (hname helig) helig.visible hne hslash
    · exact useFound_eq (hname helig) _ settings

/-- A third version is known, and a requirement is met by what is not below it. -/
def threeVersions : Semver Triple Triple where
  parse text := if text = "18.0.0" then some (toLex (18, toLex (0, 0))) else twoVersions.parse text
  display v := if v = toLex (18, toLex (0, 0)) then "18.0.0" else twoVersions.display v
  parseReq := twoVersions.parseReq
  accepts req v := decide (req ≤ v)

theorem threeVersions_round (text : String) (v : Triple) (h : threeVersions.parse text = some v) :
    threeVersions.display v = text := by
  unfold threeVersions at h ⊢
  simp only at h ⊢
  split at h
  next htext =>
    obtain rfl := Option.some.inj h
    rw [if_pos rfl, htext]
  next =>
    rcases twoVersions_parse h with ⟨rfl, rfl⟩ | ⟨rfl, rfl⟩ <;> rfl

/-- Two versions are cached. The entry of a third one has no marker, and a whole one is hidden. -/
def severalCached : FileTree :=
  .ofList [([osString "cache"], .dir 0o755),
    ([osString "16.4.0", osString "cache"], .dir 0o755),
    ([osString ".complete", osString "16.4.0", osString "cache"], .file 0o644 []),
    ([osString "bin", osString "16.4.0", osString "cache"], .dir 0o755),
    ([osString "17.2.0", osString "cache"], .dir 0o755),
    ([osString ".complete", osString "17.2.0", osString "cache"], .file 0o644 []),
    ([osString "bin", osString "17.2.0", osString "cache"], .dir 0o755),
    ([osString "18.0.0", osString "cache"], .dir 0o755),
    ([osString "bin", osString "18.0.0", osString "cache"], .dir 0o755),
    ([osString ".18.0.0", osString "cache"], .dir 0o755),
    ([osString ".complete", osString ".18.0.0", osString "cache"], .file 0o644 []),
    ([osString "bin", osString ".18.0.0", osString "cache"], .dir 0o755)]

/-- The greater of the two is selected, in every order of the listing. -/
theorem selected_entry_severalCached :
    Eligible threeVersions severalCached [.name (osString "cache")] older (osString "16.4.0") older ∧
    (∀ order, lookedUp threeVersions 0o022 order severalCached [.name (osString "cache")] older =
      some ("17.2.0", [.name (osString "17.2.0"), .name (osString "cache")])) ∧
    ∀ cwd depth settings,
      useFound threeVersions cwd depth [.name (osString "cache")]
          (some ("17.2.0", [.name (osString "17.2.0"), .name (osString "cache")])) settings =
        useLocked threeVersions cwd depth [.name (osString "cache")] (osString "17.2.0")
          [.name (osString "17.2.0"), .name (osString "cache")] "17.2.0" settings := by
  obtain ⟨-, hsame, hused⟩ :=
    selected_entry threeVersions_round 0o022 [] severalCached [.name (osString "cache")] older
  have hfound : lookedUp threeVersions 0o022 [] severalCached [.name (osString "cache")] older =
      some ("17.2.0", [.name (osString "17.2.0"), .name (osString "cache")]) := by decide +kernel
  refine ⟨⟨⟨[osString "cache"], ⟨by decide +kernel, by decide +kernel⟩, by decide +kernel⟩,
    by decide +kernel, by decide +kernel, by decide +kernel, by decide +kernel⟩,
    fun order => (hsame order).trans hfound, ?_⟩
  obtain ⟨name, v, -, -, hpath, -, huse⟩ := hused _ _ hfound
  obtain rfl : osString "17.2.0" = name := Hop.name.inj (List.cons.inj hpath).1
  exact huse

end Use

end PgEmbeddedSetup.CacheIntegration
