import PgEmbeddedSetup.Base.PathText
import PgEmbeddedSetup.Base.Utf8
import PgEmbeddedSetup.Cache.Syscalls
import PgEmbeddedSetup.Cluster.Postgres
import PgEmbeddedSetup.Privileges.Ownership

/-!
# Where the worker is found

`worker_binary_from_env` on Unix. A root process without `PG_EMBEDDED_WORKER` looks for `pg_worker` in
the entries of `PATH`. The empty entry and `.` are passed over, since they stand for the current
directory; but `./`, `./.` and the like stand for it too, and these are searched. So what is promised,
the first worker that is not in the current directory, is what is returned just where no worker is found
by such an entry before (`discover_promised_iff`).

What a call finds at a path is a parameter, so the file system is arbitrary. `filesOf` is that of a tree.
-/

namespace PgEmbeddedSetup.WorkerDiscovery

open Fs Posix
open Env (OsString)
open Postgres (ExecutionPrivileges)
open Privileges (isUtf8)

/-- What is looked at of the metadata of a file. -/
structure Metadata where
  isFile : Bool
  mode : Nat
  deriving DecidableEq, Repr

/-- What `metadata` finds at a path, if it does not fail. It follows links. -/
abbrev Files := OsString → Option Metadata

inductive BootstrapErrorKind where
  | other
  | workerBinaryMissing
  | workerBinaryPathNonUtf8
  deriving DecidableEq, Repr

inductive Report where
  /-- `PATH contains a non-UTF-8 entry: {invalid_value:?}; remove or replace the malformed entry.` -/
  | nonUtf8Entry (invalidValue : OsString)
  /-- `PG_EMBEDDED_WORKER contains a non-UTF-8 value: {invalid_value:?}. Provide a UTF-8 encoded absolute
  path to the worker binary.` -/
  | nonUtf8Value (invalidValue : OsString)
  /-- `Worker binary path must not be empty` -/
  | emptyPath
  /-- `Worker binary path must not point at filesystem root` -/
  | rootPath
  /-- `failed to access PG_EMBEDDED_WORKER at {path}: {err}` -/
  | access (path : OsString) (err : Errno)
  /-- `PG_EMBEDDED_WORKER must reference a regular file: {path}` -/
  | notFile (path : OsString)
  /-- `PG_EMBEDDED_WORKER must be executable: {path}` -/
  | notExecutable (path : OsString)
  deriving DecidableEq

structure BootstrapError where
  kind : BootstrapErrorKind
  report : Report
  deriving DecidableEq

/-! ### Discovery -/

/-- `WORKER_BINARY_NAME`. -/
def workerBinaryName : OsString := osString "pg_worker"

/-- `env::split_paths`. -/
def splitPaths (path : OsString) : List OsString := path.splitOn 0x3A

def isExecutableMode (mode : Nat) : Bool := mode &&& 0o111 != 0

def isFile (files : Files) (path : OsString) : Bool := (files path).any (·.isFile)

def isExecutable (files : Files) (path : OsString) : Bool :=
  (files path).any fun m => isExecutableMode m.mode

def workerPath (dir : OsString) : OsString := joinText dir workerBinaryName

/-- The loop of `discover_worker_from_path_value`. -/
def discoverIn (files : Files) : List OsString → Except BootstrapError (Option OsString)
  | [] => .ok none
  | dir :: dirs =>
    if isUtf8 dir then
      if dir = [] ∨ dir = [0x2E] then discoverIn files dirs
      else if isFile files (workerPath dir) && isExecutable files (workerPath dir) then
        .ok (some (workerPath dir))
      else discoverIn files dirs
    else .error ⟨.workerBinaryPathNonUtf8, .nonUtf8Entry (Utf8.lossy dir)⟩

def discoverWorkerFromPathValue (files : Files) (pathVar : Option OsString) :
    Except BootstrapError (Option OsString) :=
  match pathVar with
  | none => .ok none
  | some pathValue => discoverIn files (splitPaths pathValue)

/-- What `metadata` finds through the directory handle of a path. -/
abbrev Handles := OsString → Except Errno Metadata

def validateWorkerBinary (handles : Handles) (path : OsString) : Except BootstrapError Unit :=
  match handles path with
  | .error err =>
    .error ⟨if err = .notFound then .workerBinaryMissing else .other, .access path err⟩
  | .ok metadata =>
    if !metadata.isFile then .error ⟨.other, .notFile path⟩
    else if !isExecutableMode metadata.mode then .error ⟨.other, .notExecutable path⟩
    else .ok ()

def validateWorkerPath (handles : Handles) (path : OsString) : Except BootstrapError Unit :=
  if path = [] then .error ⟨.other, .emptyPath⟩
  else if path = [slash] then .error ⟨.other, .rootPath⟩
  else validateWorkerBinary handles path

/-- A worker that is named or found has to be valid. -/
def validated (handles : Handles) (path : OsString) : Except BootstrapError (Option OsString) := do
  validateWorkerPath handles path
  .ok (some path)

/-- `worker` is `PG_EMBEDDED_WORKER`, and `pathVar` is `PATH`. -/
def workerBinaryFromEnv (files : Files) (handles : Handles) (worker pathVar : Option OsString)
    (privileges : ExecutionPrivileges) : Except BootstrapError (Option OsString) :=
  match worker with
  | some raw =>
    if isUtf8 raw then validated handles raw
    else .error ⟨.other, .nonUtf8Value (Utf8.lossy raw)⟩
  | none =>
    if privileges = .root then
      match discoverWorkerFromPathValue files pathVar with
      | .error e => .error e
      | .ok (some found) => validated handles found
      | .ok none => .ok none
    else .ok none

/-! ### What is promised -/

/-- The entry is relative, and no piece of it leads anywhere: it is empty, or `.`, or `./`, and so on. -/
def SpellsCurrentDir (entry : OsString) : Prop :=
  isAbsoluteText entry = false ∧ hopsOf entry = []

instance (entry : OsString) : Decidable (SpellsCurrentDir entry) :=
  inferInstanceAs (Decidable (_ ∧ _))

def HasWorker (files : Files) (entry : OsString) : Prop :=
  isFile files (workerPath entry) = true ∧ isExecutable files (workerPath entry) = true

structure Match (files : Files) (entry : OsString) : Prop where
  utf8 : isUtf8 entry = true
  elsewhere : ¬ SpellsCurrentDir entry
  worker : HasWorker files entry

/-- A worker in the current directory that is not passed over. -/
structure Stray (files : Files) (entry : OsString) : Prop where
  utf8 : isUtf8 entry = true
  here : SpellsCurrentDir entry
  searched : entry ≠ [] ∧ entry ≠ [0x2E]
  worker : HasWorker files entry

/-- There is an entry with `P`, and every entry before it has `Q`. -/
def Reaches (Q P : OsString → Prop) (entries : List OsString) : Prop :=
  ∃ before entry after, entries = before ++ entry :: after ∧ P entry ∧ ∀ e ∈ before, Q e

/-- The first match is returned. It is an error just if an entry before it is not UTF-8, or any entry if
nothing matches. -/
structure Promised (files : Files) (entries : List OsString)
    (result : Except BootstrapError (Option OsString)) : Prop where
  found : ∀ path, result = .ok (some path) ↔
    Reaches (fun e => isUtf8 e = true ∧ ¬ Match files e)
      (fun e => Match files e ∧ path = workerPath e) entries
  failed : (∃ e, result = .error e) ↔
    Reaches (fun e => ¬ Match files e) (fun e => isUtf8 e = false) entries
  none : result = .ok none ↔ ∀ e ∈ entries, isUtf8 e = true ∧ ¬ Match files e

section Entries

variable {Q P : OsString → Prop} {files : Files} {entry : OsString} {entries : List OsString}

theorem not_reaches_nil : ¬ Reaches Q P [] := by
  rintro ⟨before, entry, after, h, -⟩
  cases before <;> cases h

theorem reaches_cons : Reaches Q P (entry :: entries) ↔ P entry ∨ Q entry ∧ Reaches Q P entries := by
  constructor
  · rintro ⟨before, found, after, h, hP, hQ⟩
    cases before with
    | nil =>
      cases h
      exact Or.inl hP
    | cons e before =>
      cases h
      rw [List.forall_mem_cons] at hQ
      exact Or.inr ⟨hQ.1, before, found, after, rfl, hP, hQ.2⟩
  · rintro (hP | ⟨hQ, before, found, after, rfl, hP, hbefore⟩)
    · exact ⟨[], entry, entries, rfl, hP, fun e he => absurd he List.not_mem_nil⟩
    · exact ⟨entry :: before, found, after, rfl, hP, List.forall_mem_cons.mpr ⟨hQ, hbefore⟩⟩

theorem Reaches.exists (h : Reaches Q P entries) : ∃ e ∈ entries, P e := by
  obtain ⟨before, entry, after, rfl, hP, -⟩ := h
  exact ⟨entry, List.mem_append_right before List.mem_cons_self, hP⟩

theorem isAbsoluteText_workerPath (entry : OsString) :
    isAbsoluteText (workerPath entry) = isAbsoluteText entry := by
  have hname : isAbsoluteText workerBinaryName = false := by decide +kernel
  unfold workerPath joinText
  rw [hname, Bool.false_or]
  cases entry with
  | nil => exact hname
  | cons b bytes =>
    rw [if_neg (by simp)]
    split <;> rfl

theorem hopsOf_workerPath (entry : OsString) :
    hopsOf (workerPath entry) = hopsOf entry ++ hopsOf workerBinaryName :=
  hopsOf_joinText (by decide +kernel)

theorem spellsCurrentDir_congr {entry' : OsString} (h : workerPath entry = workerPath entry') :
    SpellsCurrentDir entry ↔ SpellsCurrentDir entry' := by
  have habsolute := congrArg isAbsoluteText h
  rw [isAbsoluteText_workerPath, isAbsoluteText_workerPath] at habsolute
  have hhops := congrArg hopsOf h
  rw [hopsOf_workerPath, hopsOf_workerPath] at hhops
  unfold SpellsCurrentDir
  rw [habsolute, List.append_cancel_right hhops]

theorem spellsCurrentDir_nil : SpellsCurrentDir [] := by decide +kernel

theorem spellsCurrentDir_dot : SpellsCurrentDir [0x2E] := by decide +kernel

/-! ### What the loop does with an entry -/

theorem discoverIn_invalid (h : isUtf8 entry = false) : discoverIn files (entry :: entries) =
    .error ⟨.workerBinaryPathNonUtf8, .nonUtf8Entry (Utf8.lossy entry)⟩ := by
  rw [discoverIn, h, if_neg Bool.false_ne_true]

theorem discoverIn_hasWorker (hutf8 : isUtf8 entry = true)
    (hsearched : entry ≠ [] ∧ entry ≠ [0x2E]) (hworker : HasWorker files entry) :
    discoverIn files (entry :: entries) = .ok (some (workerPath entry)) := by
  rw [discoverIn, if_pos hutf8, if_neg (not_or.mpr hsearched),
    if_pos (Bool.and_eq_true_iff.mpr hworker)]

theorem discoverIn_match (h : Match files entry) :
    discoverIn files (entry :: entries) = .ok (some (workerPath entry)) := by
  refine discoverIn_hasWorker h.utf8 ⟨?_, ?_⟩ h.worker
  · rintro rfl
    exact h.elsewhere spellsCurrentDir_nil
  · rintro rfl
    exact h.elsewhere spellsCurrentDir_dot

theorem discoverIn_pass (hutf8 : isUtf8 entry = true) (hmatch : ¬ Match files entry)
    (hstray : ¬ Stray files entry) :
    discoverIn files (entry :: entries) = discoverIn files entries := by
  rw [discoverIn, if_pos hutf8]
  split
  next => rfl
  next hsearched =>
    rw [if_neg]
    intro hworker
    have hworker' : HasWorker files entry := Bool.and_eq_true_iff.mp hworker
    exact hmatch ⟨hutf8, fun hhere => hstray ⟨hutf8, hhere, not_or.mp hsearched, hworker'⟩, hworker'⟩

theorem discoverIn_error {e : BootstrapError} (h : discoverIn files entries = .error e) :
    ∃ entry ∈ entries, isUtf8 entry = false ∧
      e = ⟨.workerBinaryPathNonUtf8, .nonUtf8Entry (Utf8.lossy entry)⟩ := by
  induction entries with
  | nil => cases h
  | cons dir dirs ih =>
    have hrest : discoverIn files dirs = .error e → ∃ entry ∈ dir :: dirs, isUtf8 entry = false ∧
        e = ⟨.workerBinaryPathNonUtf8, .nonUtf8Entry (Utf8.lossy entry)⟩ := fun h => by
      obtain ⟨entry, hmem, hentry⟩ := ih h
      exact ⟨entry, List.mem_cons_of_mem dir hmem, hentry⟩
    rw [discoverIn] at h
    split at h
    next =>
      split at h
      next => exact hrest h
      next =>
        split at h
        next => cases h
        next => exact hrest h
    next hutf8 =>
      exact ⟨dir, List.mem_cons_self, Bool.eq_false_iff.mpr hutf8, (Except.error.inj h).symm⟩

theorem promised_pass {result : Except BootstrapError (Option OsString)}
    (hutf8 : isUtf8 entry = true) (hmatch : ¬ Match files entry) :
    Promised files (entry :: entries) result ↔ Promised files entries result := by
  have hfound : ∀ path, Reaches (fun e => isUtf8 e = true ∧ ¬ Match files e)
      (fun e => Match files e ∧ path = workerPath e) (entry :: entries) ↔
      Reaches (fun e => isUtf8 e = true ∧ ¬ Match files e)
        (fun e => Match files e ∧ path = workerPath e) entries := by
    intro path
    rw [reaches_cons]
    simp only [hmatch, hutf8, false_and, false_or, true_and, not_false_eq_true]
  have hfailed : Reaches (fun e => ¬ Match files e) (fun e => isUtf8 e = false) (entry :: entries) ↔
      Reaches (fun e => ¬ Match files e) (fun e => isUtf8 e = false) entries := by
    rw [reaches_cons]
    simp only [hmatch, hutf8, Bool.true_eq_false, false_or, true_and, not_false_eq_true]
  have hnone : (∀ e ∈ entry :: entries, isUtf8 e = true ∧ ¬ Match files e) ↔
      ∀ e ∈ entries, isUtf8 e = true ∧ ¬ Match files e := by
    rw [List.forall_mem_cons]
    exact and_iff_right ⟨hutf8, hmatch⟩
  constructor
  · rintro ⟨h₁, h₂, h₃⟩
    exact ⟨fun path => (h₁ path).trans (hfound path), h₂.trans hfailed, h₃.trans hnone⟩
  · rintro ⟨h₁, h₂, h₃⟩
    exact ⟨fun path => (h₁ path).trans (hfound path).symm, h₂.trans hfailed.symm,
      h₃.trans hnone.symm⟩

theorem promised_invalid (hutf8 : isUtf8 entry = false) (e : BootstrapError) :
    Promised files (entry :: entries) (.error e) := by
  have hmatch : ¬ Match files entry := fun h => by
    rw [h.utf8] at hutf8
    cases hutf8
  refine ⟨fun path => ?_, ?_, ?_⟩
  · rw [reaches_cons]
    simp [hmatch, hutf8]
  · rw [reaches_cons]
    exact iff_of_true ⟨e, rfl⟩ (Or.inl hutf8)
  · rw [List.forall_mem_cons]
    simp [hutf8]

theorem promised_match (h : Match files entry) :
    Promised files (entry :: entries) (.ok (some (workerPath entry))) := by
  refine ⟨fun path => ?_, ?_, ?_⟩
  · rw [reaches_cons]
    simp only [h, not_true_eq_false, and_false, false_and, or_false, true_and]
    exact ⟨fun heq => (Option.some.inj (Except.ok.inj heq)).symm, fun heq => heq ▸ rfl⟩
  · rw [reaches_cons]
    simp [h, h.utf8]
  · rw [List.forall_mem_cons]
    simp [h]

theorem not_promised_stray (h : Stray files entry) :
    ¬ Promised files entries (.ok (some (workerPath entry))) := by
  intro hpromised
  obtain ⟨e, -, hmatch, hpath⟩ := ((hpromised.found _).mp rfl).exists
  exact hmatch.elsewhere ((spellsCurrentDir_congr hpath).mp h.here)

/-- The loop keeps the promise just if it comes to no worker in the current directory. -/
theorem discoverIn_promised : Promised files entries (discoverIn files entries) ↔
    ¬ Reaches (fun e => isUtf8 e = true ∧ ¬ Match files e) (Stray files) entries := by
  induction entries with
  | nil =>
    refine iff_of_true ⟨fun path => ?_, ?_, ?_⟩ not_reaches_nil
    · exact iff_of_false (fun h => by cases h) not_reaches_nil
    · refine iff_of_false ?_ not_reaches_nil
      rintro ⟨e, h⟩
      cases h
    · exact iff_of_true rfl fun e he => absurd he List.not_mem_nil
  | cons entry entries ih =>
    rw [reaches_cons]
    by_cases hutf8 : isUtf8 entry = true
    · by_cases hmatch : Match files entry
      · rw [discoverIn_match hmatch]
        refine iff_of_true (promised_match hmatch) ?_
        rintro (hstray | ⟨⟨-, hnot⟩, -⟩)
        · exact hmatch.elsewhere hstray.here
        · exact hnot hmatch
      · by_cases hstray : Stray files entry
        · rw [discoverIn_hasWorker hutf8 hstray.searched hstray.worker]
          exact iff_of_false (not_promised_stray hstray) fun h => h (Or.inl hstray)
        · rw [discoverIn_pass hutf8 hmatch hstray, promised_pass hutf8 hmatch, ih]
          simp only [hstray, hutf8, hmatch, false_or, true_and, not_false_eq_true]
    · rw [discoverIn_invalid (Bool.eq_false_iff.mpr hutf8)]
      refine iff_of_true (promised_invalid (Bool.eq_false_iff.mpr hutf8) _) ?_
      rintro (hstray | ⟨⟨h, -⟩, -⟩)
      · exact hutf8 hstray.utf8
      · exact hutf8 h

end Entries

/-! ### The search of `PATH` -/

/-- The entries of `PATH`, which may be missing. -/
def entriesOf (pathVar : Option OsString) : List OsString := (pathVar.map splitPaths).getD []

/-- No worker is found in the current directory by an entry that comes before the first match and the
first that is not UTF-8. -/
def KeepsAway (files : Files) (pathVar : Option OsString) : Prop :=
  ¬ Reaches (fun e => isUtf8 e = true ∧ ¬ Match files e) (Stray files) (entriesOf pathVar)

theorem discoverWorkerFromPathValue_eq (files : Files) (pathVar : Option OsString) :
    discoverWorkerFromPathValue files pathVar = discoverIn files (entriesOf pathVar) := by
  cases pathVar <;> rfl

theorem workerBinaryFromEnv_root {files : Files} {handles : Handles} {pathVar : Option OsString}
    {path : OsString}
    (h : workerBinaryFromEnv files handles none pathVar .root = .ok (some path)) :
    discoverWorkerFromPathValue files pathVar = .ok (some path) := by
  rw [workerBinaryFromEnv, if_pos rfl] at h
  cases hfound : discoverWorkerFromPathValue files pathVar with
  | error e =>
    rw [hfound] at h
    cases h
  | ok found =>
    rw [hfound] at h
    cases found with
    | none => cases h
    | some found =>
      simp only [validated] at h
      cases hvalid : validateWorkerPath handles found with
      | error e =>
        rw [hvalid] at h
        cases h
      | ok _ =>
        rw [hvalid] at h
        cases h
        rfl

/-- **When the first worker outside the current directory is returned**: just where no worker in the
current directory is found before. A root process then runs no worker that was found there. -/
theorem discover_promised_iff (files : Files) (pathVar : Option OsString) :
    (Promised files (entriesOf pathVar) (discoverWorkerFromPathValue files pathVar) ↔
      KeepsAway files pathVar) ∧
    (KeepsAway files pathVar → ∀ handles path,
      workerBinaryFromEnv files handles none pathVar .root = .ok (some path) →
        ∃ entry ∈ entriesOf pathVar, Match files entry ∧ path = workerPath entry) := by
  rw [discoverWorkerFromPathValue_eq]
  refine ⟨discoverIn_promised, fun haway handles path h => ?_⟩
  have hfound := workerBinaryFromEnv_root h
  rw [discoverWorkerFromPathValue_eq] at hfound
  exact ((discoverIn_promised.mpr haway).found path |>.mp hfound).exists

/-! ### Files of a tree -/

/-- What `metadata` finds in a tree, by a process whose current directory is at `cwd`. -/
def filesOf (fs : Cache.FileTree) (cwd : Cache.Place) (path : OsString) : Option Metadata :=
  if path = [] ∨ 0 ∈ path then none
  else
    match fs.resolve none false (if isAbsoluteText path then [] else cwd) (hopsOf path) with
    | .error _ => none
    | .ok l => (fs.node l).map fun node => ⟨Cache.FileType.of node == .file, Cache.modeOf node⟩

theorem filesOf_currentDir {fs : Cache.FileTree} {cwd : Cache.Place} {entry : OsString}
    (h : SpellsCurrentDir entry) (hnul : 0 ∉ workerPath entry) :
    filesOf fs cwd (workerPath entry) = filesOf fs cwd workerBinaryName := by
  have habsolute : isAbsoluteText workerBinaryName = false := by decide +kernel
  have hnul' : ¬ (workerBinaryName = [] ∨ 0 ∈ workerBinaryName) := by decide +kernel
  have hname : hopsOf workerBinaryName ≠ [] := by decide +kernel
  have hne : workerPath entry ≠ [] := by
    intro hempty
    have hhops := hopsOf_workerPath entry
    rw [hempty, h.2, List.nil_append] at hhops
    exact hname hhops.symm
  unfold filesOf
  rw [if_neg (not_or.mpr ⟨hne, hnul⟩), if_neg hnul', isAbsoluteText_workerPath, h.1, habsolute,
    hopsOf_workerPath, h.2, List.nil_append]

/-- There is a worker in the current directory, and no other. -/
def strayTree : Cache.FileTree :=
  FileSystem.ofList [([osString "work"], .dir 0o777),
    ([osString "pg_worker", osString "work"], .file 0o755 [])]

/-- With `./` in `PATH` it is found, where nothing should be. -/
theorem strayTree_found :
    SpellsCurrentDir (osString "./") ∧
    discoverWorkerFromPathValue (filesOf strayTree [osString "work"]) (some (osString "./")) =
      .ok (some (osString "./pg_worker")) ∧
    ¬ Promised (filesOf strayTree [osString "work"]) (entriesOf (some (osString "./")))
      (discoverWorkerFromPathValue (filesOf strayTree [osString "work"])
        (some (osString "./"))) := by
  have hpath : workerPath (osString "./") = osString "./pg_worker" := by decide +kernel
  have hfound : discoverWorkerFromPathValue (filesOf strayTree [osString "work"])
      (some (osString "./")) = .ok (some (workerPath (osString "./"))) := by decide +kernel
  refine ⟨by decide +kernel, hpath ▸ hfound, ?_⟩
  rw [hfound]
  exact not_promised_stray ⟨by decide +kernel, by decide +kernel, by decide +kernel,
    by decide +kernel, by decide +kernel⟩

end PgEmbeddedSetup.WorkerDiscovery
