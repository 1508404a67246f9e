import PgEmbeddedSetup.Worker.Cleanup

/-!
# Which directories a cleanup removes

Every path that a cleanup hands to the removal is the data directory or lies in the installation tree,
and is not one that the guard refuses. Where the guard refuses the installation directory itself,
nothing but the data directory should go. This fails when the password file lies below it: everything
starts with the empty path, and every absolute path with the root, so the directory of the password
file passes for an installation root (`cleanup_safe_iff`).
-/

namespace PgEmbeddedSetup.Worker

open Program Lexical Cluster

/-- At or below the installation directory, or at or below the directory of the password file, if the
installation directory is a direct child of that. -/
def InInstallTree (settings : Settings) (path : FilePath) : Prop :=
  path.startsWith settings.installationDir = true ∨
    ∃ parent, settings.passwordFile.parent = some parent ∧
      settings.installationDir.parent = some parent ∧ path.startsWith parent = true

/-- `Path::new(".")`. -/
def curDirPath : FilePath := ⟨[.curDir], nofun⟩

structure SafePath (settings : Settings) (path : FilePath) : Prop where
  owned : path = settings.dataDir ∨ InInstallTree settings path
  notEmpty : path.isEmpty = false
  notCurDir : path ≠ curDirPath
  notRoot : path ≠ rootPath
  noParentDir : path.hasParentDir = false

/-- Only safe paths are removed, and only the data directory where the guard refuses the installation
directory. -/
def RemovalsSafe (settings : Settings) {α : Type} (cleanup : Code α) : Prop :=
  ∀ os, (∀ path, .removeDirAll path ∈ instrs os 0 cleanup → SafePath settings path) ∧
    (guardRemovalPath settings.installationDir = false →
      (instrs os 0 cleanup).Sublist [.removeDirAll settings.dataDir])

/-- The installation directory is empty, `.` or the root, and the password file lies in a directory
below it that the guard lets pass. -/
def RootBelowRefused (mode : CleanupMode) (settings : Settings) : Prop :=
  mode = .full ∧ isEmptyOrRoot settings.installationDir = true ∧
    ∃ parent, settings.passwordFile.parent = some parent ∧ guardRemovalPath parent = true ∧
      parent.startsWith settings.installationDir = true

theorem safePath_of_guard {settings : Settings} {path : FilePath}
    (howned : path = settings.dataDir ∨ InInstallTree settings path)
    (hguard : guardRemovalPath path = true) : SafePath settings path where
  owned := howned
  notEmpty := (Bool.or_eq_false_iff.mp (not_emptyOrRoot_of_guard hguard)).1
  notCurDir := by
    rintro rfl
    cases hguard
  notRoot := by
    rintro rfl
    cases hguard
  noParentDir := by
    rw [guardRemovalPath, Bool.not_eq_true', Bool.or_eq_false_iff] at hguard
    exact hguard.2

theorem mem_cleanupPaths {mode : CleanupMode} {settings : Settings} {path : FilePath}
    (h : path ∈ cleanupPaths mode settings) : SafePath settings path := by
  rw [cleanupPaths, List.mem_filter, List.mem_append, removable_eq] at h
  obtain ⟨hpath, hguard⟩ := h
  refine safePath_of_guard ?_ hguard
  rcases hpath with hdata | hinstall
  · split at hdata
    · exact Or.inl (List.mem_singleton.mp hdata)
    · cases hdata
  · split at hinstall
    · refine Or.inr (Or.inl ?_)
      rcases List.mem_cons.mp hinstall with rfl | hroot
      · exact Path.startsWith_self _
      · rw [Option.mem_toList, Option.filter_eq_some_iff,
          shouldRemoveInstallRoot] at hroot
        exact (Bool.and_eq_true_iff.mp hroot.2).2
    · cases hinstall

/-- The installation root of a refused installation directory is removed in one case only. -/
theorem cleanupPaths_of_refused {mode : CleanupMode} {settings : Settings}
    (hrefused : guardRemovalPath settings.installationDir = false)
    (hnot : ¬ RootBelowRefused mode settings) :
    (cleanupPaths mode settings).Sublist [settings.dataDir] := by
  have hinstall : ((if shouldRemoveInstall mode then settings.installationDir ::
      (settings.passwordFile.parent.filter (shouldRemoveInstallRoot · settings)).toList
      else []).filter removable) = [] := by
    rw [List.filter_eq_nil_iff]
    intro path hpath
    rw [removable_eq]
    intro hguard
    split at hpath
    next hmode =>
      have hfull : mode = .full := by
        cases mode <;> first | rfl | cases hmode
      rcases List.mem_cons.mp hpath with rfl | hroot
      · exact Bool.noConfusion (hrefused.symm.trans hguard)
      · rw [Option.mem_toList, Option.filter_eq_some_iff, shouldRemoveInstallRoot,
          Bool.and_eq_true, Bool.and_eq_true] at hroot
        obtain ⟨hparent, ⟨-, hdots⟩, hstarts⟩ := hroot
        refine hnot ⟨hfull, ?_, path, hparent, hguard, hstarts⟩
        -- It is not refused for a `..`, which the path would have too.
        rw [guardRemovalPath, Path.hasParentDir_of_startsWith hstarts (Bool.not_eq_true' _ ▸ hdots),
          Bool.or_false, Bool.not_eq_false'] at hrefused
        exact hrefused
    next => cases hpath
  rw [cleanupPaths, List.filter_append, hinstall, List.append_nil]
  refine List.filter_sublist.trans ?_
  split
  · exact List.Sublist.refl _
  · exact List.nil_sublist _

theorem not_sublist_of_root {mode : CleanupMode} {settings : Settings}
    (h : RootBelowRefused mode settings) : guardRemovalPath settings.installationDir = false ∧
      ¬ (cleanupPaths mode settings).Sublist [settings.dataDir] := by
  obtain ⟨rfl, hempty, parent, hparent, hguard, hstarts⟩ := h
  have hrefused : guardRemovalPath settings.installationDir = false := by
    rw [guardRemovalPath, hempty, Bool.true_or, Bool.not_true]
  have hroot : shouldRemoveInstallRoot parent settings = true := by
    have hne : parent ≠ settings.installationDir := fun heq =>
      Bool.noConfusion (hrefused.symm.trans (heq ▸ hguard))
    have hdots := (safePath_of_guard (Or.inr (Or.inl hstarts)) hguard).noParentDir
    rw [shouldRemoveInstallRoot, bne_iff_ne.mpr hne, hdots, hstarts]
    rfl
  have hpaths : cleanupPaths .full settings = [settings.dataDir].filter removable ++ [parent] := by
    rw [cleanupPaths, List.filter_append]
    simp only [shouldRemoveData, shouldRemoveInstall, if_true, hparent, Option.filter_some, hroot,
      Option.toList_some, List.filter_cons, removable_eq, hrefused, hguard, Bool.false_eq_true,
      if_false, List.filter_nil]
  refine ⟨hrefused, fun hsub => ?_⟩
  rw [hpaths] at hsub
  cases hdata : removable settings.dataDir with
  | true =>
    rw [List.filter_cons_of_pos hdata, List.filter_nil] at hsub
    exact absurd hsub.length_le (by simp)
  | false =>
    -- The parent cannot be the data directory, which is refused here.
    rw [List.filter_cons_of_neg (Bool.eq_false_iff.mp hdata), List.filter_nil, List.nil_append,
      List.singleton_sublist, List.mem_singleton] at hsub
    rw [← hsub, removable_eq, hguard] at hdata
    cases hdata

theorem removalsSafe_of_sublist {mode : CleanupMode} {settings : Settings} {α : Type}
    {cleanup : Code α} (hsub : ∀ os, (instrs os 0 cleanup).Sublist
      ((cleanupPaths mode settings).map .removeDirAll))
    (hnot : ¬ RootBelowRefused mode settings) : RemovalsSafe settings cleanup := by
  refine fun os => ⟨fun path hmem => ?_, fun hrefused => ?_⟩
  · obtain ⟨path', hpath', heq⟩ := List.mem_map.mp ((hsub os).subset hmem)
    obtain rfl := Instr.removeDirAll.inj heq
    exact mem_cleanupPaths hpath'
  · exact (hsub os).trans ((cleanupPaths_of_refused hrefused hnot).map _)

/-- **A cleanup removes safe paths only**, unless the installation directory is refused and the
directory of the password file, below it, is not. -/
theorem cleanup_safe_iff (mode : CleanupMode) (settings : Settings) :
    (RemovalsSafe settings (cleanupInProcess mode settings) ∧
      RemovalsSafe settings (workerCleanup mode settings)) ↔ ¬ RootBelowRefused mode settings := by
  constructor
  · rintro ⟨hsafe, -⟩ hroot
    obtain ⟨hrefused, hnot⟩ := not_sublist_of_root hroot
    have hsub := (hsafe fun _ _ => default).2 hrefused
    rw [instrs_cleanupInProcess, ← List.map_singleton, List.sublist_map_iff] at hsub
    obtain ⟨paths, hpaths, heq⟩ := hsub
    rw [List.map_injective_iff.mpr (fun _ _ => Instr.removeDirAll.inj) heq] at hnot
    exact hnot hpaths
  · intro hnot
    exact ⟨removalsSafe_of_sublist (fun os => (instrs_cleanupInProcess os 0 mode settings).symm ▸
      List.Sublist.refl _) hnot,
      removalsSafe_of_sublist (fun os => instrs_workerCleanup_sublist os 0 mode settings) hnot⟩

/-- Everything is installed at the root, and the password file is in a home directory. -/
def installedAtRoot : Settings where
  dataDir := Path.absolute ["data".toUTF8.toList]
  installationDir := rootPath
  passwordFile := Path.absolute (["home", "ada", ".pgpass"].map (·.toUTF8.toList))

/-- The home directory is removed. -/
theorem home_removed_for_root :
    ¬ (RemovalsSafe installedAtRoot (cleanupInProcess .full installedAtRoot) ∧
      RemovalsSafe installedAtRoot (workerCleanup .full installedAtRoot)) := by
  rintro ⟨hsafe, -⟩
  have hsub := (hsafe fun _ _ => default).2 (by decide)
  rw [instrs_cleanupInProcess] at hsub
  revert hsub
  decide +kernel

end PgEmbeddedSetup.Worker
