import PgEmbeddedSetup.Fs.Ambient
import PgEmbeddedSetup.Worker.Cleanup

/-!
# The two cleanups agree

The cleanup in the process and that of the worker make the same removals in the same order, whatever
the operating system answers. When the worker has succeeded, everything that it was asked to remove is
gone, and a removal brings nothing back: so the cleanup in the process that follows it changes nothing
(`cleanups_agree`).
-/

namespace PgEmbeddedSetup.Worker

open Program Lexical Cluster Posix

/-! ### Removing a directory -/

def errnoText : Errno → String
  | .notFound => "No such file or directory"
  | .notDirectory => "Not a directory"
  | .isDirectory => "Is a directory"
  | .alreadyExists => "File exists"
  | .loop => "Too many levels of symbolic links"
  | .escape | .fault .permissionDenied => "Permission denied"
  | .invalid => "Invalid argument"
  | .fault .io => "Input/output error"

/-- A removal that is stopped, with what it leaves of the directory. -/
abbrev Stopped := Option (Fault × (Location OsString → Bool))

/-- `std::fs::remove_dir_all` on a path that ends in a name: a directory goes with what is below it, a
link goes alone. -/
def removeEntry (fs : FileSystem OsString) (cwd : Location OsString) (stopped : Stopped)
    (path : FilePath) (n : OsString) : RemoveAnswer × FileSystem OsString :=
  match fs.resolve none false (path.start cwd) path.hops.dropLast with
  | .error .notFound => (.notFound, fs)
  | .error e => (.failed (errnoText e), fs)
  | .ok parent =>
    if fs.IsDir parent then
      match fs.node (n :: parent) with
      | none => (.notFound, fs)
      | some (.file _ _) => (.failed (errnoText .notDirectory), fs)
      | some _ =>
        match stopped with
        | some (f, left) => (.failed (errnoText (.fault f)), fs.removePart (n :: parent) left)
        | none => (.removed, fs.remove (n :: parent))
    else (.failed (errnoText .notDirectory), fs)

/-- The guard lets no path pass that does not end in a name. -/
def removeDirAll (fs : FileSystem OsString) (cwd : Location OsString) (stopped : Stopped)
    (path : FilePath) : RemoveAnswer × FileSystem OsString :=
  match path.hops.getLast? with
  | some (.name n) => removeEntry fs cwd stopped path n
  | _ => (.failed (errnoText .invalid), fs)

/-- No entry has the path. -/
def Gone (fs : FileSystem OsString) (cwd : Location OsString) (path : FilePath) : Prop :=
  ∀ n, path.hops.getLast? = some (.name n) → ∀ parent,
    fs.Leads (path.start cwd) path.hops.dropLast parent → fs.node (n :: parent) = none

/-- A file system without some of the entries. -/
def Prunes (fs fs' : FileSystem OsString) : Prop :=
  ∀ l node, fs'.node l = some node → fs.node l = some node

variable {fs fs' : FileSystem OsString} {cwd : Location OsString} {stopped : Stopped}
  {path : FilePath} {answer : RemoveAnswer}

theorem prunes_refl (fs : FileSystem OsString) : Prunes fs fs := fun _ _ h => h

theorem Gone.prune (h : Gone fs cwd path) (hprunes : Prunes fs fs') : Gone fs' cwd path := by
  intro n hn parent hleads
  by_contra hne
  obtain ⟨node, hnode⟩ := Option.ne_none_iff_exists'.mp hne
  have hnone := h n hn parent (hleads.mono hprunes)
  exact Option.some_ne_none node ((hprunes _ _ hnode).symm.trans hnone)

theorem removeDirAll_prunes (h : removeDirAll fs cwd stopped path = (answer, fs')) :
    Prunes fs fs' := by
  unfold removeDirAll removeEntry at h
  split at h
  next n hn =>
    split at h
    next => cases h; exact prunes_refl fs
    next => cases h; exact prunes_refl fs
    next parent hparent =>
      split at h
      next =>
        split at h
        next => cases h; exact prunes_refl fs
        next => cases h; exact prunes_refl fs
        next =>
          split at h
          next => cases h; exact fun _ _ => FileSystem.node_of_node_prune
          next => cases h; exact fun _ _ => FileSystem.node_of_node_prune
      next => cases h; exact prunes_refl fs
  next => cases h; exact prunes_refl fs

theorem removeDirAll_of_gone (hgone : Gone fs cwd path)
    (h : removeDirAll fs cwd stopped path = (answer, fs')) : fs' = fs := by
  unfold removeDirAll removeEntry at h
  split at h
  next n hn =>
    split at h
    next => cases h; rfl
    next => cases h; rfl
    next parent hparent =>
      have hnone := hgone n hn parent (FileSystem.leads_of_resolve hparent)
      rw [hnone] at h
      split at h
      next => cases h; rfl
      next => cases h; rfl
  next => cases h; rfl

theorem gone_of_removeDirAll (h : removeDirAll fs cwd stopped path = (answer, fs'))
    (hanswer : ∀ err, answer ≠ .failed err) : Gone fs' cwd path := by
  unfold removeDirAll removeEntry at h
  split at h
  next n hn =>
    split at h
    next hparent =>
      cases h
      intro n' _ parent hleads
      exact absurd hleads (FileSystem.not_leads_of_resolve hparent rfl parent)
    next =>
      cases h
      exact absurd rfl (hanswer _)
    next parent hparent =>
      have hleads := FileSystem.leads_of_resolve hparent
      split at h
      next =>
        split at h
        next hnone =>
          cases h
          intro n' hn' parent' hleads'
          obtain rfl : n = n' := Hop.name.inj (Option.some.inj (hn.symm.trans hn'))
          rwa [hleads'.unique hleads]
        next => cases h; exact absurd rfl (hanswer _)
        next =>
          split at h
          next => cases h; exact absurd rfl (hanswer _)
          next =>
            cases h
            intro n' hn' parent' hleads'
            obtain rfl : n = n' := Hop.name.inj (Option.some.inj (hn.symm.trans hn'))
            obtain rfl : parent' = parent :=
              (hleads'.mono fun _ _ => FileSystem.node_of_node_prune).unique hleads
            exact FileSystem.node_remove_self fs n parent'
      next => cases h; exact absurd rfl (hanswer _)
  next => cases h; exact absurd rfl (hanswer _)

/-! ### Runs on a file system -/

/-- The file system answers the events, and each removal may be stopped. -/
def Plays (cwd : Location OsString) : FileSystem OsString → List Event → FileSystem OsString → Prop
  | fs, [], fs' => fs' = fs
  | fs, ⟨.removeDirAll path, answer⟩ :: es, fs' =>
    ∃ stopped fs₁, removeDirAll fs cwd stopped path = (answer, fs₁) ∧ Plays cwd fs₁ es fs'
  | _, _ :: _, _ => False

/-- The event is a removal that has not failed. -/
def Succeeds : Event → Prop
  | ⟨.removeDirAll _, answer⟩ => ∀ err, answer ≠ .failed err
  | _ => False

theorem plays_cons {e : Event} {es : List Event} (h : Plays cwd fs (e :: es) fs') :
    ∃ path answer stopped fs₁, e = ⟨.removeDirAll path, answer⟩ ∧
      removeDirAll fs cwd stopped path = (answer, fs₁) ∧ Plays cwd fs₁ es fs' := by
  obtain ⟨i, answer⟩ := e
  cases i with
  | removeDirAll path =>
    obtain ⟨stopped, fs₁, h₁, h₂⟩ := h
    exact ⟨path, answer, stopped, fs₁, rfl, h₁, h₂⟩
  | _ => cases h

theorem plays_prunes {es : List Event} (h : Plays cwd fs es fs') : Prunes fs fs' := by
  induction es generalizing fs with
  | nil =>
    obtain rfl : fs' = fs := h
    exact prunes_refl fs'
  | cons e es ih =>
    obtain ⟨path, answer, stopped, fs₁, rfl, h₁, h₂⟩ := plays_cons h
    exact fun l node hnode => removeDirAll_prunes h₁ l node (ih h₂ l node hnode)

theorem gone_of_plays {es : List Event} (h : Plays cwd fs es fs') (hall : ∀ e ∈ es, Succeeds e)
    (hmem : ∃ answer, ⟨.removeDirAll path, answer⟩ ∈ es) : Gone fs' cwd path := by
  induction es generalizing fs with
  | nil =>
    obtain ⟨answer, hmem⟩ := hmem
    cases hmem
  | cons e es ih =>
    obtain ⟨path', answer', stopped, fs₁, rfl, h₁, h₂⟩ := plays_cons h
    obtain ⟨answer, hmem⟩ := hmem
    rcases List.mem_cons.mp hmem with heq | hmem
    · cases heq
      exact (gone_of_removeDirAll h₁ (hall _ List.mem_cons_self)).prune (plays_prunes h₂)
    · exact ih h₂ (fun e he => hall e (List.mem_cons_of_mem _ he)) ⟨answer, hmem⟩

theorem plays_of_gone {es : List Event} (h : Plays cwd fs es fs')
    (hgone : ∀ path answer, (⟨.removeDirAll path, answer⟩ : Event) ∈ es → Gone fs cwd path) :
    fs' = fs := by
  induction es with
  | nil => exact h
  | cons e es ih =>
    obtain ⟨path, answer, stopped, fs₁, rfl, h₁, h₂⟩ := plays_cons h
    obtain rfl := removeDirAll_of_gone (hgone path answer List.mem_cons_self) h₁
    exact ih h₂ fun path answer hmem => hgone path answer (List.mem_cons_of_mem _ hmem)

section Traces

variable (os : Nat → (i : Instr) → i.Answer)

theorem trace_eq_mapIdx (n : Nat) {α : Type} (p : Code α) :
    p.trace os n = (instrs os n p).mapIdx fun k i => ⟨i, os (n + k) i⟩ := by
  induction p generalizing n with
  | ret a => rfl
  | exec i k ih =>
    rw [instrs, Prog.trace_exec, List.map_cons, List.mapIdx_cons]
    congr 1
    refine (ih (os n i) (n + 1)).trans ?_
    congr 1
    funext m j
    rw [Nat.add_right_comm, Nat.add_assoc]

theorem succeeds_of_collect (n : Nat) {failures : List RemovalFailure} {path : FilePath}
    {label : String} (h : (collectRemovalError failures path label).result os n = []) :
    failures = [] ∧ ∀ e ∈ (collectRemovalError failures path label).trace os n, Succeeds e := by
  unfold collectRemovalError tryRemoveDirAll at h ⊢
  cases hguard : guardRemovalPath path with
  | false =>
    rw [hguard] at h
    exact absurd h (List.append_ne_nil_of_right_ne_nil _ (List.cons_ne_nil _ _))
  | true =>
    rw [hguard] at h
    simp only [if_true, Prog.exec_bind, Prog.result, Prog.trace_exec] at h ⊢
    cases hanswer : os n (.removeDirAll path) with
    | removed =>
      rw [hanswer] at h
      refine ⟨h, fun e he => ?_⟩
      obtain rfl := List.mem_singleton.mp he
      exact fun _ h => by cases h
    | notFound =>
      rw [hanswer] at h
      refine ⟨h, fun e he => ?_⟩
      obtain rfl := List.mem_singleton.mp he
      exact fun _ h => by cases h
    | failed err =>
      rw [hanswer] at h
      exact absurd h (List.append_ne_nil_of_right_ne_nil _ (List.cons_ne_nil _ _))

theorem succeeds_of_collectIfGiven (n : Nat) {failures : List RemovalFailure}
    {path : Option FilePath} {label : String}
    (h : (collectIfGiven failures path label).result os n = []) :
    failures = [] ∧ ∀ e ∈ (collectIfGiven failures path label).trace os n, Succeeds e := by
  cases path with
  | none => exact ⟨h, nofun⟩
  | some path => exact succeeds_of_collect os n h

theorem succeeds_of_executeCleanup (n : Nat) {dataDir : FilePath}
    {installDir installRoot : Option FilePath}
    (h : (executeCleanup dataDir installDir installRoot).result os n = .ok ()) :
    ∀ e ∈ (executeCleanup dataDir installDir installRoot).trace os n, Succeeds e := by
  unfold executeCleanup at h ⊢
  simp only [Prog.result_bind, Prog.trace_bind] at h ⊢
  have hempty : ∀ failures : List RemovalFailure,
      (if failures.isEmpty then Except.ok () else .error (CleanupError.cleanupFailed failures)) =
        Except.ok () →
        failures = [] := by
    intro failures hok
    by_contra hne
    rw [List.isEmpty_eq_false_iff.mpr hne] at hok
    cases hok
  have hroot := hempty _ h
  obtain ⟨hinstall, hroot'⟩ := succeeds_of_collectIfGiven os _ hroot
  obtain ⟨hdata, hinstall'⟩ := succeeds_of_collectIfGiven os _ hinstall
  obtain ⟨-, hdata'⟩ := succeeds_of_collect os n hdata
  intro e he
  rcases List.mem_append.mp he with he | he
  · exact hdata' e he
  rcases List.mem_append.mp he with he | he
  · exact hinstall' e he
  rcases List.mem_append.mp he with he | he
  · exact hroot' e he
  · cases he

theorem succeeds_of_workerCleanup {mode : CleanupMode} {settings : Settings}
    (h : (workerCleanup mode settings).result os 0 = .ok ()) :
    ∀ e ∈ (workerCleanup mode settings).trace os 0, Succeeds e := by
  have hfull : ∀ full, (runWorkerCleanup full settings).result os 0 = .ok () →
      ∀ e ∈ (runWorkerCleanup full settings).trace os 0, Succeeds e := by
    intro full hok
    unfold runWorkerCleanup at hok ⊢
    split at hok
    next => cases hok
    next =>
      cases full with
      | false => exact succeeds_of_executeCleanup os 0 hok
      | true =>
        simp only [if_true] at hok ⊢
        split at hok
        next => cases hok
        next =>
          split at hok
          next => cases hok
          next => exact succeeds_of_executeCleanup os 0 hok
  cases mode with
  | none => exact nofun
  | dataOnly => exact hfull false h
  | full => exact hfull true h

end Traces

/-- **The two cleanups agree**: whatever is answered they make the same removals, and after the worker
has succeeded the cleanup in the process changes nothing. -/
theorem cleanups_agree (mode : CleanupMode) {settings : Settings}
    (hutf8 : utf8Paths settings = true) :
    (∀ os, (cleanupInProcess mode settings).trace os 0 = (workerCleanup mode settings).trace os 0) ∧
      ∀ cwd fs fs₁ fs₂ os os', Plays cwd fs ((workerCleanup mode settings).trace os 0) fs₁ →
        (workerCleanup mode settings).result os 0 = .ok () →
        Plays cwd fs₁ ((cleanupInProcess mode settings).trace os' 0) fs₂ → fs₂ = fs₁ := by
  have hinstrs : ∀ os os', instrs os 0 (cleanupInProcess mode settings) =
      instrs os' 0 (workerCleanup mode settings) := fun os os' => by
    rw [instrs_cleanupInProcess, instrs_workerCleanup os' 0 mode hutf8]
  constructor
  · intro os
    rw [trace_eq_mapIdx, trace_eq_mapIdx, hinstrs os os]
  · intro cwd fs fs₁ fs₂ os os' hworker hok hprocess
    refine plays_of_gone hprocess fun path answer hmem => ?_
    have hpath : Instr.removeDirAll path ∈ instrs os 0 (workerCleanup mode settings) :=
      hinstrs os' os ▸ List.mem_map.mpr ⟨_, hmem, rfl⟩
    obtain ⟨⟨i, answer'⟩, hevent, rfl⟩ := List.mem_map.mp hpath
    exact gone_of_plays hworker (succeeds_of_workerCleanup os hok) ⟨answer', hevent⟩

/-- The data directory `/d`, the installation `/i`, and the password file `/i/r/p`. -/
def sandbox : Settings where
  dataDir := Path.absolute [[100]]
  installationDir := Path.absolute [[105]]
  passwordFile := Path.absolute [[105], [114], [112]]

def sandboxTree : FileSystem OsString :=
  .ofList [([], .dir 0), ([[100]], .dir 0), ([[105]], .dir 0), ([[114], [105]], .dir 0),
    ([[112], [114], [105]], .file 0 [])]

/-- The first two removals succeed, and the others find nothing. -/
def twoFound (n : Nat) : (i : Instr) → i.Answer
  | .removeDirAll _ => if n < 2 then .removed else .notFound
  | _ => default

/-- The worker removes the sandbox, and the cleanup after it changes nothing. -/
theorem cleanups_agree_sandbox :
    (∀ os, (cleanupInProcess .full sandbox).trace os 0 = (workerCleanup .full sandbox).trace os 0) ∧
      ∀ os fs₂, Plays [] ((sandboxTree.remove [[100]]).remove [[105]])
        ((cleanupInProcess .full sandbox).trace os 0) fs₂ →
          fs₂ = (sandboxTree.remove [[100]]).remove [[105]] := by
  have hutf8 : utf8Paths sandbox = true := by decide +kernel
  refine ⟨(cleanups_agree .full hutf8).1, fun os fs₂ h => ?_⟩
  refine (cleanups_agree .full hutf8).2 [] sandboxTree _ fs₂ twoFound os ?_ ?_ h
  · rw [trace_eq_mapIdx, instrs_workerCleanup _ _ _ hutf8]
    exact ⟨none, _, rfl, none, _, rfl, none, _, rfl, rfl⟩
  · rfl

end PgEmbeddedSetup.Worker
