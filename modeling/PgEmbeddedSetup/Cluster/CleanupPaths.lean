import PgEmbeddedSetup.Cluster.Cleanup
import Mathlib.Tactic.Conv

/-!
# The directories that a cleanup removes

The cleanup in the process removes a list of directories that its settings determine, one after the
other, whatever fails on the way.
-/

namespace PgEmbeddedSetup.Cluster

open Program Lexical

abbrev Event := (i : Instr) × i.Answer

/-- Every instruction can be answered. -/
instance (i : Instr) : Inhabited i.Answer := by
  cases i <;> first
    | exact ⟨()⟩
    | exact ⟨.ok ()⟩
    | exact ⟨.notFound⟩
    | exact ⟨.stopped⟩
    | exact ⟨.finished (.ok ())⟩
    | exact ⟨.esrch⟩
    | exact ⟨true⟩
    | exact ⟨(0 : Nat)⟩

/-- The path passes the checks of the cleanup. -/
def removable (path : FilePath) : Bool :=
  !isDangerousCleanupPath path && guardRemovalPath path

/-- The directories that the cleanup in the process removes. -/
def cleanupPaths (mode : CleanupMode) (settings : Settings) : List FilePath :=
  ((if shouldRemoveData mode then [settings.dataDir] else []) ++
    if shouldRemoveInstall mode then
      settings.installationDir ::
        (settings.passwordFile.parent.filter (shouldRemoveInstallRoot · settings)).toList
    else []).filter removable

theorem removable_eq (path : FilePath) : removable path = guardRemovalPath path := by
  have hdangerous : isDangerousCleanupPath path = true → isEmptyOrRoot path = true := by
    intro h
    rw [isDangerousCleanupPath, Bool.or_eq_true, Bool.and_eq_true] at h
    rcases h with h | ⟨habsolute, hparent⟩
    · rw [isEmptyOrRoot, List.isEmpty_iff.mp h]
    · obtain ⟨cs, hcs⟩ := Path.isAbsolute_iff.mp habsolute
      have hroot : path.components.getLast? = some .rootDir := by
        unfold Path.parent at hparent
        split at hparent
        next hnone => simp [hcs] at hnone
        next hlast => exact hlast
        next => cases hparent
      have hnil : cs = [] := by
        by_contra hne
        have hmem : Component.rootDir ∈ path.components.tail := by
          rw [hcs, List.tail_cons]
          rw [hcs, List.getLast?_cons, Option.some.injEq] at hroot
          cases hlast : cs.getLast? with
          | none => exact absurd (List.getLast?_eq_none_iff.mp hlast) hne
          | some c =>
            rw [hlast, Option.getD_some] at hroot
            exact hroot ▸ List.mem_of_getLast? hlast
        exact Bool.noConfusion (path.inner _ hmem)
      rw [isEmptyOrRoot, hcs, hnil]
      rfl
  unfold removable guardRemovalPath
  cases h : isDangerousCleanupPath path with
  | false => rfl
  | true => rw [hdangerous h, Bool.true_or, Bool.not_true, Bool.and_false]

theorem removeDirAllIfExists_eq (path : FilePath) : ∃ f : RemoveAnswer → Unit,
    removeDirAllIfExists path =
      if removable path then .exec (.removeDirAll path) fun answer => .ret (f answer)
      else .ret () := by
  refine ⟨fun _ => (), ?_⟩
  unfold removeDirAllIfExists removable tryRemoveDirAll
  cases isDangerousCleanupPath path with
  | true => rfl
  | false =>
    cases guardRemovalPath path with
    | false => rfl
    | true =>
      show Prog.exec _ _ = Prog.exec _ _
      congr 1
      funext answer
      cases answer <;> rfl

section Traces

variable (os : Nat → (i : Instr) → i.Answer)

/-- The instructions of a run. -/
def instrs (n : Nat) {α : Type} (p : Code α) : List Instr := (p.trace os n).map Sigma.fst

theorem instrs_removeDirAllIfExists (n : Nat) (path : FilePath) :
    instrs os n (removeDirAllIfExists path) = ([path].filter removable).map .removeDirAll := by
  obtain ⟨f, hf⟩ := removeDirAllIfExists_eq path
  rw [instrs, hf]
  cases h : removable path <;> simp [h]

theorem instrs_bind (n : Nat) {α β : Type} (p : Code α) (f : α → Code β) :
    instrs os n (p >>= f) =
      instrs os n p ++ instrs os (n + (p.trace os n).length) (f (p.result os n)) := by
  rw [instrs, Prog.trace_bind, List.map_append]
  rfl

theorem instrs_cleanupDataDir (n : Nat) (mode : CleanupMode) (settings : Settings) :
    instrs os n (cleanupDataDir mode settings) =
      ((if shouldRemoveData mode then [settings.dataDir] else []).filter removable).map
        .removeDirAll := by
  unfold cleanupDataDir
  cases shouldRemoveData mode with
  | false => rfl
  | true => exact instrs_removeDirAllIfExists os n settings.dataDir

theorem instrs_cleanupInstallDir (n : Nat) (mode : CleanupMode) (settings : Settings) :
    instrs os n (cleanupInstallDir mode settings) =
      ((if shouldRemoveInstall mode then
        settings.installationDir ::
          (settings.passwordFile.parent.filter (shouldRemoveInstallRoot · settings)).toList
        else []).filter removable).map .removeDirAll := by
  unfold cleanupInstallDir
  cases shouldRemoveInstall mode with
  | false => rfl
  | true =>
    simp only [if_true]
    have hsplit : ∀ l, (settings.installationDir :: l).filter removable =
        [settings.installationDir].filter removable ++ l.filter removable :=
      fun l => List.filter_append [settings.installationDir] l
    rw [instrs_bind, instrs_removeDirAllIfExists]
    conv_rhs => rw [hsplit, List.map_append]
    congr 1
    cases settings.passwordFile.parent with
    | none => rfl
    | some parent =>
      simp only [Option.filter_some]
      cases shouldRemoveInstallRoot parent settings with
      | false => rfl
      | true => exact instrs_removeDirAllIfExists os _ parent

theorem instrs_cleanupInProcess (n : Nat) (mode : CleanupMode) (settings : Settings) :
    instrs os n (cleanupInProcess mode settings) =
      (cleanupPaths mode settings).map .removeDirAll := by
  unfold cleanupInProcess cleanupPaths
  by_cases hmode : mode = .none
  · subst hmode
    rfl
  · rw [if_neg hmode, instrs_bind, instrs_cleanupDataDir, instrs_cleanupInstallDir,
      List.filter_append, List.map_append]

end Traces

end PgEmbeddedSetup.Cluster
