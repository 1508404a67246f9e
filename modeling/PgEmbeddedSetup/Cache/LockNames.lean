import PgEmbeddedSetup.Cache.Lock

/-!
# The lock of an entry

`validate_version` looks at the components of the version, where a slash at the end counts for nothing,
and `acquire` puts `.lock` after the version as it is written. So one entry is accepted under several
spellings. The one without a slash has its lock in `.locks`, and every other has a lock in a directory
below it, which is named by what is written after the last slash (`lock_names`). Two calls for one entry
meet at one file when their versions end alike.
-/

namespace PgEmbeddedSetup.Cache

open Env Fs Posix FileSystem Program Crash

/-- `cache_dir.join(version)`, for a version that is not absolute. -/
def entryDir (cacheDir : FsPath) (version : OsString) : FsPath :=
  (hopsOf version).reverse ++ cacheDir

/-- The path names an entry of `.locks`. -/
def DirectChild (cacheDir path : FsPath) : Prop :=
  ∃ name, path = .name name :: .name locksSubdir :: cacheDir

/-- What is written after the last slash, if there is one. -/
def ending (version : OsString) : Option OsString :=
  (version.splitOn slash).tail.getLast?

/-! ### What is accepted -/

section Accepted

variable {cacheDir : FsPath} {version : OsString}

theorem hopOf_lock (piece : OsString) :
    hopOf (piece ++ osString ".lock") = some (.name (piece ++ osString ".lock")) := by
  have hlength : 5 ≤ (piece ++ osString ".lock").length := by
    rw [List.length_append, show (osString ".lock").length = 5 by decide +kernel]
    omega
  refine hopOf_eq_name ?_ ?_ ?_ <;>
    · intro h
      rw [h] at hlength
      simp at hlength

theorem slash_not_mem_lock : slash ∉ osString ".lock" := by decide +kernel

theorem validateVersion_eq_true :
    validateVersion version = true ↔ ∃ first rest, version.splitOn slash = first :: rest ∧
      hopOf first = some (.name first) ∧ ∀ piece ∈ rest, hopOf piece = none := by
  have hdot : osString "." = [0x2E] := by decide +kernel
  have hdots : osString ".." = [0x2E, 0x2E] := by decide +kernel
  unfold validateVersion
  cases hsplit : version.splitOn slash with
  | nil =>
    refine iff_of_false Bool.false_ne_true ?_
    rintro ⟨first, rest, h, -⟩
    cases h
  | cons first rest =>
    simp only [hdot, hdots, Bool.and_eq_true, bne_iff_ne, List.all_eq_true, Bool.or_eq_true,
      beq_iff_eq, and_assoc, List.cons.injEq, hopOf_eq_none, hopOf_eq_name_iff]
    constructor
    · rintro ⟨hempty, hdot, hdots, hrest⟩
      exact ⟨first, rest, rfl, rfl, hempty, hdot, hdots, hrest⟩
    · rintro ⟨first', rest', rfl, rfl, h⟩
      exact h

theorem ending_eq_none : ending version = none ↔ slash ∉ version := by
  unfold ending
  rw [List.getLast?_eq_none_iff]
  constructor
  · intro htail hmem
    obtain ⟨first, rest, rfl⟩ := List.append_of_mem hmem
    rw [List.splitOn_append_cons_self] at htail
    have hfirst := List.splitOn_ne_nil slash first
    have hrest := List.splitOn_ne_nil slash rest
    cases hsplit : first.splitOn slash with
    | nil => exact hfirst hsplit
    | cons piece pieces =>
      rw [hsplit, List.cons_append, List.tail_cons, List.append_eq_nil_iff] at htail
      exact hrest htail.2
  · intro hmem
    rw [List.splitOn_eq_singleton hmem]
    rfl

/-- Where the lock of an accepted version is. -/
def lockAt (cacheDir : FsPath) (first : OsString) : Option OsString → FsPath
  | none => .name (first ++ osString ".lock") :: .name locksSubdir :: cacheDir
  | some last => .name (last ++ osString ".lock") :: .name first :: .name locksSubdir :: cacheDir

theorem lockPath_accepted (h : validateVersion version = true) (cacheDir : FsPath) :
    ∃ first, entryDir cacheDir version = .name first :: cacheDir ∧
      lockPath cacheDir version = lockAt cacheDir first (ending version) := by
  obtain ⟨first, rest, hsplit, hname, hrest⟩ := validateVersion_eq_true.mp h
  obtain ⟨front, last, hpieces, hlock⟩ := splitOn_append version slash_not_mem_lock
  rw [hsplit] at hpieces
  have hnone : ∀ pieces : List OsString, (∀ piece ∈ pieces, hopOf piece = none) →
      pieces.filterMap hopOf = [] := fun pieces hall => List.filterMap_eq_nil_iff.mpr hall
  refine ⟨first, ?_, ?_⟩
  · rw [entryDir, hopsOf, hsplit, List.filterMap_cons, hname, hnone rest hrest]
    rfl
  · unfold lockPath hopsOf ending
    rw [hlock, hsplit, List.filterMap_append, List.filterMap_cons, hopOf_lock]
    cases front with
    | nil =>
      obtain ⟨rfl, rfl⟩ := List.cons.inj hpieces
      rfl
    | cons piece front =>
      obtain ⟨rfl, rfl⟩ := List.cons.inj hpieces
      have hfront : front.filterMap hopOf = [] :=
        hnone front fun piece hpiece => hrest piece (List.mem_append_left _ hpiece)
      rw [List.filterMap_cons, hname, hfront, List.tail_cons, List.append_eq, List.getLast?_concat]
      rfl

theorem lockAt_directChild {first : OsString} {last : Option OsString} :
    DirectChild cacheDir (lockAt cacheDir first last) ↔ last = none := by
  cases last with
  | none => exact iff_of_true ⟨_, rfl⟩ rfl
  | some last =>
    refine iff_of_false ?_ (Option.some_ne_none last)
    rintro ⟨name, h⟩
    have hlength := congrArg List.length h
    simp [lockAt] at hlength

theorem lockAt_inj {first : OsString} {last last' : Option OsString} :
    lockAt cacheDir first last = lockAt cacheDir first last' ↔ last = last' := by
  refine ⟨fun h => ?_, fun h => h ▸ rfl⟩
  cases last with
  | none =>
    exact (lockAt_directChild.mp (h ▸ lockAt_directChild.mpr rfl)).symm
  | some last =>
    cases last' with
    | none => exact absurd (lockAt_directChild.mp (h ▸ lockAt_directChild.mpr rfl)) (by simp)
    | some last' =>
      simp only [lockAt, List.cons.injEq, Hop.name.injEq, List.append_cancel_right_eq] at h
      rw [h.1]

end Accepted

/-! ### What is opened -/

section Opened

variable {umask : Nat} {fs fs' : FileTree} {path : FsPath} {l l' : Place}

theorem io_all {α : Type} {P : Call → Prop} (hP : ∀ i, P (.io i)) (p : Code α) : (io p).All P := by
  unfold io
  induction p.run with
  | ret r => trivial
  | exec i k ih => exact ⟨hP i, ih⟩

theorem acquire_opens (cacheDir : FsPath) (version : OsString) (type : LockType) :
    (acquire cacheDir version type).All fun c =>
      ∀ path, c = .openLock path → path = lockPath cacheDir version := by
  unfold acquire
  split
  next =>
    refine Prog.All.bind (io_all (fun i path h => by cases h) _) fun made => ?_
    cases made with
    | error e => trivial
    | ok _ =>
      refine ⟨fun path h => (Call.openLock.inj h).symm, fun opened => ?_⟩
      cases opened with
      | error e => trivial
      | ok file =>
        refine ⟨fun path h => (by cases h), fun locked => ?_⟩
        cases locked <;> trivial
  next => trivial

theorem openExisting_file (h : (openExisting umask fs path).1 = .ok l) :
    fs.follow true path = .ok l ∧
      ∃ mode content, (openExisting umask fs path).2.node l = some (.file mode content) := by
  unfold openExisting at h ⊢
  split at h
  next => cases h
  next l₀ hfollow =>
    rw [hfollow]
    split at h
    next hnone =>
      cases h
      have hadmits : ∀ node, fs.Admits l node :=
        admits_of_none hnone (resolve_missing fs.isDir_root hfollow hnone)
      refine ⟨rfl, maskMode umask 0o666, [], ?_⟩
      simp only
      rw [node_set (hadmits _), if_pos rfl]
    next mode content hfile =>
      cases h
      refine ⟨rfl, mode, content, ?_⟩
      simp only [hfile]
    next => cases h

theorem serve_openLock {x : Choice} (h : (serve umask fs (.openLock path) x).1 = .ok l) :
    serve umask fs (.openLock path) x = openExisting umask fs path := by
  unfold serve at h ⊢
  simp only at h ⊢
  split at h
  next => cases h
  next => rfl

/-- However the tree has grown since the first file was opened, the second call opens the same. -/
def OneFile (path path' : FsPath) : Prop :=
  ∀ umask fs x l fs' y l', (serve umask fs (.openLock path) x).1 = .ok l →
    (serve umask fs (.openLock path) x).2.Grows fs' →
    (serve umask fs' (.openLock path') y).1 = .ok l' → l' = l

theorem oneFile_self (path : FsPath) : OneFile path path := by
  intro umask fs x l fs' y l' h hgrows h'
  have hbefore := grows_serve umask fs (.openLock path) x
  have hopen := serve_openLock h
  rw [hopen] at h hgrows hbefore
  rw [serve_openLock h'] at h'
  obtain ⟨hfollow, mode, content, hfile⟩ := openExisting_file h
  have hthere := hgrows.not_symlink hfile rfl
  have hfollow' := resolve_created (hbefore.trans hgrows) hfollow (fun _ => hthere) true
  exact Except.ok.inj ((openExisting_file h').1.symm.trans hfollow')

end Opened

/-! ### The locks of one entry -/

/-- **Where the lock of an accepted version is.** The file that is opened is in `.locks` just if the
version has no slash. Two versions of one entry have the same path if they have the same ending, and
then they open one file; otherwise their paths differ. -/
theorem lock_names {version version' : OsString} (h : validateVersion version = true)
    (h' : validateVersion version' = true) (cacheDir : FsPath) :
    (∀ type, (acquire cacheDir version type).All fun c =>
      ∀ path, c = .openLock path → path = lockPath cacheDir version) ∧
    (DirectChild cacheDir (lockPath cacheDir version) ↔ slash ∉ version) ∧
    (entryDir cacheDir version = entryDir cacheDir version' →
      (lockPath cacheDir version = lockPath cacheDir version' ↔ ending version = ending version') ∧
      (ending version = ending version' →
        OneFile (lockPath cacheDir version) (lockPath cacheDir version'))) := by
  obtain ⟨first, hentry, hlock⟩ := lockPath_accepted h cacheDir
  obtain ⟨first', hentry', hlock'⟩ := lockPath_accepted h' cacheDir
  refine ⟨acquire_opens cacheDir version, ?_, fun hsame => ?_⟩
  · rw [hlock, lockAt_directChild, ending_eq_none]
  · rw [hentry, hentry'] at hsame
    obtain rfl := Hop.name.inj (List.cons.inj hsame).1
    rw [hlock, hlock', lockAt_inj]
    exact ⟨Iff.rfl, fun hending => hending ▸ oneFile_self _⟩

theorem lock_names_nested :
    (∀ type, (acquire [] (osString "17.4.0/") type).All fun c =>
      ∀ path, c = .openLock path → path = lockPath [] (osString "17.4.0/")) ∧
    (DirectChild [] (lockPath [] (osString "17.4.0/")) ↔ slash ∉ osString "17.4.0/") ∧
    (entryDir [] (osString "17.4.0/") = entryDir [] (osString "17.4.0//") →
      (lockPath [] (osString "17.4.0/") = lockPath [] (osString "17.4.0//") ↔
        ending (osString "17.4.0/") = ending (osString "17.4.0//")) ∧
      (ending (osString "17.4.0/") = ending (osString "17.4.0//") →
        OneFile (lockPath [] (osString "17.4.0/")) (lockPath [] (osString "17.4.0//")))) :=
  lock_names (by decide +kernel) (by decide +kernel) []

/-- `17.4.0` and `17.4.0/` are one entry, and here both locks are taken at once. -/
def nestedLocks : FileTree :=
  ofList [([osString "cache"], .dir 0o755),
    ([osString "17.4.0", osString "cache"], .dir 0o755),
    ([osString ".locks", osString "cache"], .dir 0o755),
    ([osString "17.4.0", osString ".locks", osString "cache"], .dir 0o755)]

theorem nestedLocks_taken :
    (validateVersion (osString "17.4.0") = true ∧ validateVersion (osString "17.4.0/") = true) ∧
    entryDir [.name (osString "cache")] (osString "17.4.0/") =
      entryDir [.name (osString "cache")] (osString "17.4.0") ∧
    ¬ DirectChild [.name (osString "cache")]
      (lockPath [.name (osString "cache")] (osString "17.4.0/")) ∧
    (finish (serve 0o022) (fun _ => ⟨none, [], none, 0⟩)
      (acquire [.name (osString "cache")] (osString "17.4.0") .exclusive) nestedLocks).1 =
        .ok [osString "17.4.0.lock", osString ".locks", osString "cache"] ∧
    (finish (serve 0o022) (fun _ => ⟨none, [], none, 0⟩)
      (acquire [.name (osString "cache")] (osString "17.4.0/") .exclusive)
      (finish (serve 0o022) (fun _ => ⟨none, [], none, 0⟩)
        (acquire [.name (osString "cache")] (osString "17.4.0") .exclusive) nestedLocks).2).1 =
        .ok [osString ".lock", osString "17.4.0", osString ".locks", osString "cache"] := by
  refine ⟨by decide +kernel, by decide +kernel, ?_, by decide +kernel, by decide +kernel⟩
  have hlength : (lockPath [.name (osString "cache")] (osString "17.4.0/")).length ≠ 3 := by
    decide +kernel
  rintro ⟨name, h⟩
  exact hlength (h ▸ rfl)

end PgEmbeddedSetup.Cache
