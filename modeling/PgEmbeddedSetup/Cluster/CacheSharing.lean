import PgEmbeddedSetup.Base.LockTable
import PgEmbeddedSetup.Cache.Territory
import PgEmbeddedSetup.Cluster.CachePopulation
import PgEmbeddedSetup.Cluster.Lookup

/-!
# Processes that share the binary cache

Any number of processes start servers with one cache directory, each with an installation directory of
its own. Their calls are interleaved in any order. A lock is taken when it is free, and no file call
fails for a reason of its own; a lock may be refused.

`Inv` is what holds between any two calls. What a process may write is its own installation directory,
and an entry that was empty when the process took the exclusive lock of its version. An entry that
nobody writes is empty, or it is a whole tree that one process had installed, with the marker.
-/

namespace PgEmbeddedSetup.CacheIntegration

open Program Posix FileSystem Lexical Cache Installation Fs Interleave Transition LockTable
open Cluster (FilePath)
open Env (OsString)

/-! ### Trees that are installed -/

/-- A tree that can be cached. It is not deeper than paths can be. -/
structure Whole (depth : Nat) (tree : Nodes) : Prop where
  top : ∃ mode, tree [] = some (.dir mode)
  bin : ∃ mode, tree [binDir] = some (.dir mode)
  marker : ∀ old, tree [completionMarker] = some old → old.isFile = true
  deep : ∀ y, tree y ≠ none → y.length < depth

/-- The tree has changed at and below `H` only. -/
def ChangedIn (H : Place) (fs fs' : FileTree) : Prop :=
  ∀ l ∈ fs.table.keys ++ fs'.table.keys, H <:+ l ∨ fs'.node l = fs.node l

/-- `Grows`, for the entries of the table. -/
def Keeps (fs fs' : FileTree) : Prop :=
  ∀ l ∈ fs.table.keys, (fs'.node l).map Node.shape = (fs.node l).map Node.shape

/-- What is at and below `H` is the tree `pack`. -/
def Unpacked (H : Place) (pack fs : FileTree) : Prop :=
  (∀ y ∈ pack.table.keys, fs.node (y ++ H) = pack.node y) ∧
    ∀ l ∈ fs.table.keys, H <:+ l → l.take (l.length - H.length) ∈ pack.table.keys

instance (H : Place) (fs fs' : FileTree) : Decidable (ChangedIn H fs fs') :=
  inferInstanceAs (Decidable (∀ l ∈ _, _))

instance (fs fs' : FileTree) : Decidable (Keeps fs fs') :=
  inferInstanceAs (Decidable (∀ l ∈ _, _))

instance (H : Place) (pack fs : FileTree) : Decidable (Unpacked H pack fs) :=
  inferInstanceAs (Decidable (_ ∧ _))

section Trees

variable {fs fs' pack : FileTree} {H l : Place}

theorem mem_keys : l ∈ fs.table.keys ↔ fs.node l ≠ none := by
  rw [← AList.mem_keys, ← AList.lookup_isSome, Option.isSome_iff_ne_none, FileSystem.node]

theorem ChangedIn.node (h : ChangedIn H fs fs') (hl : ¬ H <:+ l) : fs'.node l = fs.node l := by
  by_cases hmem : l ∈ fs.table.keys ++ fs'.table.keys
  · exact (h l hmem).resolve_left hl
  · rw [List.mem_append, mem_keys, mem_keys, not_or, not_not, not_not] at hmem
    rw [hmem.1, hmem.2]

theorem Keeps.grows (h : Keeps fs fs') : fs.Grows fs' := by
  intro l node hnode
  have hshape := h l (mem_keys.mpr (hnode ▸ Option.some_ne_none _))
  rw [hnode, Option.map_some, Option.map_eq_some_iff] at hshape
  exact hshape

theorem Unpacked.node (h : Unpacked H pack fs) (y : Place) : fs.node (y ++ H) = pack.node y := by
  by_cases hy : y ∈ pack.table.keys
  · exact h.1 y hy
  · have hnone : fs.node (y ++ H) = none := by
      by_contra hne
      have hmem := h.2 (y ++ H) (mem_keys.mpr hne) (List.suffix_append y H)
      rw [List.length_append, Nat.add_sub_cancel, List.take_left] at hmem
      exact hy hmem
    rw [mem_keys, not_not] at hy
    rw [hnone, hy]

end Trees

/-! ### The processes -/

/-- The processes: their cache directory is `entries`, that of the installation `home`, and what is
installed there after a miss is `pack`. The settings name the directory `base` in it then. Trees that
are `cached` were there before the processes. -/
structure Site (T V R : Type) where
  semver : Semver V R
  umask : Nat
  depth : Nat
  entries : Place
  cacheDir : T → FsPath
  cwd : T → Place
  settings : T → Settings R
  home : T → Place
  pack : T → FileTree
  base : T → Place
  installed : T → FilePath
  cached : OsString → Nodes → Prop

structure Shared (T : Type) where
  tree : FileTree
  locks : Table Place T LockType

/-- What a step leaves open: the choice of a call, and what `setup` does. -/
structure Outcome where
  choice : Choice
  tree : FileTree
  succeeds : Bool

abbrev System (T R : Type) := Config T Action Action.Reply (Option (Bool × Settings R)) (Shared T)

/-- `LOCK_EX`. -/
def isExclusive (type : LockType) : Bool := type == .exclusive

namespace Site

variable {T V R : Type} (site : Site T V R)

/-- `setup` writes to the installation directory, and if it succeeds the server is there. -/
def Installs (t : T) (x : Outcome) (fs : FileTree) : Prop :=
  ChangedIn (site.home t) fs x.tree ∧ Keeps fs x.tree ∧
    (x.succeeds = true → Unpacked (site.home t) (site.pack t) x.tree)

instance (t : T) (x : Outcome) (fs : FileTree) : Decidable (site.Installs t x fs) :=
  inferInstanceAs (Decidable (_ ∧ _ ∧ (_ → _)))

/-- A lock is refused by a fault of its call. After a hit the installation is trusted, and `setup`
writes elsewhere. -/
def sem [DecidableEq T] : Semantics T Action Action.Reply (Shared T) Outcome
  | _, .call (.io i), x, s =>
    some ((unfailing site.umask s.tree i x.choice).1,
      { s with tree := (unfailing site.umask s.tree i x.choice).2 })
  | _, .call (.openLock path), x, s =>
    some ((serve site.umask s.tree (.openLock path) x.choice).1,
      { s with tree := (serve site.umask s.tree (.openLock path) x.choice).2 })
  | t, .call (.flock file type), x, s =>
    match x.choice.fault with
    | some f => some (.error (.fault f), s)
    | none =>
      if compatible isExclusive (s.locks file) type then
        some (.ok (), { s with locks := take s.locks file t type })
      else none
  | t, .call (.close file), _, s => some ((), { s with locks := release s.locks file t })
  | _, .setup true, x, s => some (x.succeeds, s)
  | t, .setup false, x, s =>
    if site.Installs t x s.tree then some (x.succeeds, { s with tree := x.tree }) else none

def process [LinearOrder V] (t : T) : Process (Option (Bool × Settings R)) :=
  startPostgres site.semver (site.cwd t) site.depth (site.cacheDir t) (site.installed t)
    (site.settings t)

/-- No process has started. -/
def init [LinearOrder V] (fs : FileTree) : System T R := ⟨⟨fs, fun _ => []⟩, site.process⟩

abbrev next [DecidableEq T] : System T R → T × Outcome → Option (System T R) := step site.sem

/-! ### Entries -/

def entry (version : OsString) : Place := version :: site.entries

def lockFile (version : OsString) : Place :=
  (version ++ osString ".lock") :: locksSubdir :: site.entries

/-- The name is a version. -/
def IsVersion (version : OsString) : Prop :=
  ∃ text v, site.semver.parse text = some v ∧ osString text = version

/-- The directories in `pack` that `resolve_installed_dir` may give, with their paths. -/
inductive Source (t : T) : FilePath → Place → Prop
  | base : Source t (site.installed t) (site.base t)
  | child (m : OsString) :
    Source t ((site.installed t).join (.ofName m)) (m :: site.base t)

/-- The tree was cached before, or it is one that a process installs under the name of this version. -/
def Genuine (version : OsString) (tree : Nodes) : Prop :=
  Whole site.depth tree ∧ (site.cached version tree ∨
    ∃ t path rel, site.Source t path rel ∧ fileName path = some version ∧
      tree = subtree (site.pack t).node rel)

/-- The entry is empty, or a whole tree with the marker. -/
def EntryOk (version : OsString) (tree : Nodes) : Prop :=
  (∀ y, tree y = none) ∨ ∃ mode source, site.Genuine version source ∧ tree = withMarker mode source

/-- `.locks` is a directory, if it is there, and the locks are files. -/
structure Steady (fs : FileTree) : Prop where
  dir : fs.node (locksSubdir :: site.entries) = none ∨ fs.IsDir (locksSubdir :: site.entries)
  file : ∀ version node, site.IsVersion version → fs.node (site.lockFile version) = some node →
    node.isFile = true

/-- What the processes rely on. Versions are displayed as they were written, without a slash and with
no dot in front. The directories are there, and none is in another. No version is installed yet, and
what `setup` installs can be cached. -/
structure Fit (fs : FileTree) : Prop where
  display : ∀ text v, site.semver.parse text = some v → site.semver.display v = text
  plain : ∀ version, site.IsVersion version →
    version.head? ≠ some 0x2E ∧ version ≠ [] ∧ slash ∉ version
  cacheBound : ∀ t, fs.Bound (site.cacheDir t) site.entries
  homeBound : ∀ t, fs.Bound (fsPath (site.cwd t) (site.settings t).installationDir) (site.home t)
  outside : ∀ t, Apart (site.home t) site.entries
  homes : ∀ t t', t ≠ t' → Apart (site.home t) (site.home t')
  vacant : ∀ t version, site.IsVersion version → ∀ y, fs.node (y ++ version :: site.home t) = none
  entries : ∀ version, site.IsVersion version → site.EntryOk version (subtree fs.node (site.entry version))
  steady : site.Steady fs
  installed : ∀ t, fsPath (site.cwd t) (site.installed t) =
    (site.base t).map .name ++ fsPath (site.cwd t) (site.settings t).installationDir
  base : ∀ t, (site.pack t).IsDir (site.base t)
  whole : ∀ t path rel, site.Source t path rel → (site.pack t).IsDir rel →
    (site.pack t).node (binDir :: rel) ≠ none ∨
      (site.settings t).trustInstallationDir = true ∧ rel = site.base t →
    Whole site.depth (subtree (site.pack t).node rel)

/-! ### What a process knows -/

/-- A lock that is held. The entry was empty when it was taken, or not. -/
structure Hold where
  version : OsString
  type : LockType
  vacant : Bool

/-- The holder may write the entry. -/
def Hold.writes (h : Hold) : Prop := h.type = .exclusive ∧ h.vacant = true

structure Knowledge (T : Type) where
  self : T
  nodes : Nodes
  lock : Option Hold

/-- What a process knows is its installation directory and the entry that it has locked. -/
def territory (fs : FileTree) (t : T) (lock : Option Hold) : Territory where
  start := fs
  known l := site.home t <:+ l ∨ ∃ h, lock = some h ∧ site.entry h.version <:+ l
  mine l := site.home t <:+ l ∨ ∃ h, lock = some h ∧ h.writes ∧ site.entry h.version <:+ l

/-- A call of a file is met in every tree that agrees with what is known. A lock is asked for by a
process that holds none, and it is given back with its entry in order. -/
def spec (fs : FileTree) : Spec Action Action.Reply (Knowledge T)
  | .call (.io i), k, Q => ∀ s, site.Steady s → (site.territory fs k.self k.lock).Agrees k.nodes s →
    ∀ x, ∃ nodes, Q (unfailing site.umask s i x).1 { k with nodes := nodes } ∧
      (site.territory fs k.self k.lock).Agrees nodes (unfailing site.umask s i x).2 ∧
      site.Steady (unfailing site.umask s i x).2 ∧
      ∀ l, ¬ (site.territory fs k.self k.lock).mine l → l ≠ locksSubdir :: site.entries →
        (unfailing site.umask s i x).2.node l = s.node l
  | .call (.openLock path), k, Q => ∃ version, site.IsVersion version ∧
    path = lockPath (site.cacheDir k.self) version ∧ (∀ e, Q (.error e) k) ∧
      Q (.ok (site.lockFile version)) k
  | .call (.flock file type), k, Q => k.lock = none ∧ ∃ version, site.IsVersion version ∧
    file = site.lockFile version ∧ (∀ e, Q (.error e) k) ∧
      ∀ nodes, (∀ l, site.home k.self <:+ l → nodes l = k.nodes l) →
        site.EntryOk version (subtree nodes (site.entry version)) →
        Q (.ok ()) ⟨k.self, nodes, some ⟨version, type, (nodes (site.entry version)).isNone⟩⟩
  | .call (.close file), k, Q => ∃ h, k.lock = some h ∧ file = site.lockFile h.version ∧
    site.EntryOk h.version (subtree k.nodes (site.entry h.version)) ∧ Q () { k with lock := none }
  | .setup true, k, Q => k.lock = none ∧ ∀ succeeds, Q succeeds k
  | .setup false, k, Q => k.lock = none ∧ ∀ succeeds nodes,
    (succeeds = true → ∀ y, nodes (y ++ site.home k.self) = (site.pack k.self).node y) →
      Q succeeds { k with nodes := nodes }

/-- What holds between any two calls. -/
structure Inv (fs : FileTree) (s : Shared T) (know : T → Knowledge T) : Prop where
  self : ∀ t, (know t).self = t
  agrees : ∀ t, (site.territory fs t (know t).lock).Agrees (know t).nodes s.tree
  steady : site.Steady s.tree
  version : ∀ t h, (know t).lock = some h → site.IsVersion h.version
  held : ∀ file t type, (t, type) ∈ s.locks file ↔
    ∃ h, (know t).lock = some h ∧ h.type = type ∧ file = site.lockFile h.version
  proper : Proper isExclusive s.locks
  entries : ∀ version, site.IsVersion version →
    (∀ t h, (know t).lock = some h → h.writes → h.version ≠ version) →
      site.EntryOk version (subtree s.tree.node (site.entry version))

/-! ### Places -/

section Places

variable {site} {fs : FileTree} {l : Place} {t t' : T} {version version' : OsString}

theorem entry_unique (h : site.entry version <:+ l) (h' : site.entry version' <:+ l) :
    version = version' := by
  rcases List.suffix_or_suffix_of_suffix h h' with hle | hle
  · exact (List.cons.inj (hle.eq_of_length (by simp [entry]))).1
  · exact (List.cons.inj (hle.eq_of_length (by simp [entry]))).1.symm

theorem entries_above (h : site.entry version <:+ l) : site.entries <:+ l :=
  (List.suffix_cons version site.entries).trans h

theorem locksSubdir_hidden : locksSubdir.head? = some 0x2E := by decide +kernel

variable (hfit : site.Fit fs)
include hfit

theorem home_outside (hhome : site.home t <:+ l) : ¬ site.entries <:+ l := by
  intro hentries
  rcases List.suffix_or_suffix_of_suffix hhome hentries with hle | hle
  · exact (hfit.outside t).1 hle
  · exact (hfit.outside t).2 hle

theorem home_unique (hhome : site.home t <:+ l) (hhome' : site.home t' <:+ l) : t = t' := by
  by_contra hne
  rcases List.suffix_or_suffix_of_suffix hhome hhome' with hle | hle
  · exact (hfit.homes t t' hne).1 hle
  · exact (hfit.homes t t' hne).2 hle

theorem entry_not_locks (hversion : site.IsVersion version) (hentry : site.entry version <:+ l) :
    ¬ (locksSubdir :: site.entries) <:+ l := by
  intro hlocks
  have heq : version = locksSubdir := by
    rcases List.suffix_or_suffix_of_suffix hentry hlocks with hle | hle
    · exact (List.cons.inj (hle.eq_of_length (by simp [entry]))).1
    · exact (List.cons.inj (hle.eq_of_length (by simp [entry]))).1.symm
  exact (hfit.plain version hversion).1 (heq ▸ locksSubdir_hidden)

theorem home_not_locks (hhome : site.home t <:+ l) : ¬ (locksSubdir :: site.entries) <:+ l :=
  fun hlocks => home_outside hfit hhome ((List.suffix_cons _ _).trans hlocks)

end Places

/-! ### One step -/

section Steps

variable {site} {fs fs' : FileTree} {s s' : Shared T} {know : T → Knowledge T} {t : T}

theorem Inv.not_mine (h : site.Inv fs s know) (hfit : site.Fit fs) {t' : T} (hne : t' ≠ t) {l : Place}
    (hknown : (site.territory fs t' (know t').lock).known l) :
    ¬ (site.territory fs t (know t).lock).mine l ∧ ¬ (locksSubdir :: site.entries) <:+ l := by
  rcases hknown with hhome' | ⟨h', hlock', hentry'⟩
  · refine ⟨?_, home_not_locks hfit hhome'⟩
    rintro (hhome | ⟨hold, -, -, hentry⟩)
    · exact hne (home_unique hfit hhome' hhome)
    · exact home_outside hfit hhome' (entries_above hentry)
  · refine ⟨?_, entry_not_locks hfit (h.version t' h' hlock') hentry'⟩
    rintro (hhome | ⟨hold, hlock, hwrites, hentry⟩)
    · exact home_outside hfit hhome (entries_above hentry')
    · have heq := entry_unique hentry hentry'
      have hmem := (h.held (site.lockFile hold.version) t .exclusive).mpr
        ⟨hold, hlock, hwrites.1, rfl⟩
      exact hne (h.proper.alone _ _ _ _ _ hmem rfl
        ((h.held _ t' h'.type).mpr ⟨h', hlock', rfl, by rw [heq]⟩))

variable [DecidableEq T]

theorem Inv.write (h : site.Inv fs s know) (hfit : site.Fit fs) {nodes : Nodes}
    (hgrows : s.tree.Grows fs')
    (hagrees : (site.territory fs t (know t).lock).Agrees nodes fs') (hsteady : site.Steady fs')
    (hframe : ∀ l, ¬ (site.territory fs t (know t).lock).mine l →
      ¬ (locksSubdir :: site.entries) <:+ l → fs'.node l = s.tree.node l) :
    site.Inv fs ⟨fs', s.locks⟩ (Function.update know t { know t with nodes := nodes }) := by
  have hlock : ∀ t', (Function.update know t { know t with nodes := nodes } t').lock = (know t').lock := by
    intro t'
    by_cases ht : t' = t
    · subst ht
      rw [Function.update_self]
    · rw [Function.update_of_ne ht]
  refine ⟨fun t' => ?_, fun t' => ?_, hsteady, fun t' => ?_, fun file t' type => ?_, h.proper,
    fun version hversion hnone => ?_⟩
  · by_cases ht : t' = t
    · subst ht
      rw [Function.update_self]
      exact h.self t'
    · rw [Function.update_of_ne ht]
      exact h.self t'
  · rw [hlock]
    by_cases ht : t' = t
    · subst ht
      rw [Function.update_self]
      exact hagrees
    · rw [Function.update_of_ne ht]
      refine ⟨(h.agrees t').grown.trans hgrows, fun l hl => ?_⟩
      obtain ⟨hmine, hlocks⟩ := h.not_mine hfit ht hl
      exact (hframe l hmine hlocks).trans ((h.agrees t').node l hl)
  · rw [hlock]
    exact h.version t'
  · rw [hlock]
    exact h.held file t' type
  · simp only [hlock] at hnone
    have hsame : subtree fs'.node (site.entry version) = subtree s.tree.node (site.entry version) := by
      funext y
      refine hframe _ ?_ (entry_not_locks hfit hversion (List.suffix_append y _))
      rintro (hhome | ⟨hold, hold', hwrites, hentry⟩)
      · exact home_outside hfit hhome (entries_above (List.suffix_append y _))
      · exact hnone t hold hold' hwrites (entry_unique hentry (List.suffix_append y _))
    rw [hsame]
    exact h.entries version hversion hnone

end Steps

/-! ### Locks -/

section Locks

variable {site} {fs : FileTree} {s : Shared T} {know : T → Knowledge T} {t : T}
  {version : OsString}

theorem lockPath_version [LinearOrder V] (hfit : site.Fit fs) (hversion : site.IsVersion version)
    (cacheDir : FsPath) : lockPath cacheDir version =
      .name (version ++ osString ".lock") :: .name locksSubdir :: cacheDir := by
  obtain ⟨hdot, hne, hslash⟩ := hfit.plain version hversion
  obtain ⟨text, v, hparse, rfl⟩ := hversion
  have hentry : EntryOf cacheDir (osString text) text (.name (osString text) :: cacheDir) :=
    entryOf_visible rfl hdot hne hslash
  exact hentry.lock

/-- What opening the lock of a version does. -/
inductive Opened (site : Site T V R) (version : OsString) (tree : FileTree) :
    Except Errno Place → FileTree → Prop
  | failed (e : Errno) : Opened site version tree (.error e) tree
  | there : Opened site version tree (.ok (site.lockFile version)) tree
  | made {tree' : FileTree} {mode : Nat} {content : List UInt8}
      (h : Writes tree tree' (site.lockFile version) (.file mode content)) :
      Opened site version tree (.ok (site.lockFile version)) tree'

theorem opened_lock {tree : FileTree} {cacheDir : FsPath} (hsteady : site.Steady tree)
    (hversion : site.IsVersion version) (hbound : tree.Bound cacheDir site.entries) (x : Choice)
    {path : FsPath}
    (hpath : path = .name (version ++ osString ".lock") :: .name locksSubdir :: cacheDir) :
    Opened site version tree (serve site.umask tree (.openLock path) x).1
      (serve site.umask tree (.openLock path) x).2 := by
  subst hpath
  unfold serve
  cases x.fault with
  | some f => exact .failed _
  | none =>
    unfold openExisting
    rcases hsteady.dir with hnone | hdir
    · have hfollow : tree.follow true
          (.name (version ++ osString ".lock") :: .name locksSubdir :: cacheDir) =
          .error .notFound := by
        unfold FileSystem.follow
        rw [List.reverse_cons, List.reverse_cons, List.append_assoc]
        refine resolve_append hbound.follow hbound.isDir fun follow => ?_
        rw [List.singleton_append, followHops, hnone]
        simp
      simp only [hfollow]
      exact .failed _
    · have hlocks := hbound.child hdir
      cases hnode : tree.node (site.lockFile version) with
      | none =>
        have hfollow := hlocks.follow_missing hnode true
        simp only [hfollow, if_true]
        rw [show tree.node ((version ++ osString ".lock") :: locksSubdir :: site.entries) = none
          from hnode]
        exact .made (writes_new hnode hdir _)
      | some node =>
        have hfile := hsteady.file version node hversion hnode
        cases node with
        | file mode content =>
          have hfollow := hlocks.follow_entry hnode rfl true
          simp only [hfollow]
          rw [show tree.node ((version ++ osString ".lock") :: locksSubdir :: site.entries) =
            some (.file mode content) from hnode]
          exact .there
        | dir mode => cases hfile
        | symlink target => cases hfile


theorem Opened.steady {tree tree' : FileTree} {reply : Except Errno Place}
    (h : Opened site version tree reply tree') (hsteady : site.Steady tree) :
    site.Steady tree' := by
  cases h with
  | failed e => exact hsteady
  | there => exact hsteady
  | made h =>
    have hne : locksSubdir :: site.entries ≠ site.lockFile version := by
      intro heq
      have hlength := congrArg List.length heq
      simp [lockFile] at hlength
    refine ⟨?_, fun version' node hversion' hnode => ?_⟩
    · rw [h.other hne]
      refine hsteady.dir.imp_right fun hdir => ?_
      rw [IsDir, h.other hne]
      exact hdir
    · by_cases heq : site.lockFile version' = site.lockFile version
      · rw [heq, h.self] at hnode
        rw [← Option.some.inj hnode]
        rfl
      · exact hsteady.file version' node hversion' (h.other heq ▸ hnode)

theorem Opened.other {tree tree' : FileTree} {reply : Except Errno Place}
    (h : Opened site version tree reply tree') {l : Place}
    (hl : ¬ (locksSubdir :: site.entries) <:+ l) : tree'.node l = tree.node l := by
  cases h with
  | failed e => rfl
  | there => rfl
  | made h => exact h.other fun heq => hl (heq ▸ List.suffix_cons ..)

variable [DecidableEq T]

theorem Inv.take (h : site.Inv fs s know) (hversion : site.IsVersion version)
    (hfree : (know t).lock = none) {type : LockType}
    (hcompatible : compatible isExclusive (s.locks (site.lockFile version)) type = true) :
    site.EntryOk version (subtree s.tree.node (site.entry version)) ∧
      site.Inv fs ⟨s.tree, take s.locks (site.lockFile version) t type⟩
        (Function.update know t
          ⟨t, s.tree.node, some ⟨version, type, (s.tree.node (site.entry version)).isNone⟩⟩) := by
  have hnot : ∀ file type', (t, type') ∉ s.locks file := by
    intro file type' hmem
    obtain ⟨hold, hlock, -⟩ := (h.held _ _ _).mp hmem
    cases hfree.symm.trans hlock
  have hok : site.EntryOk version (subtree s.tree.node (site.entry version)) := by
    refine h.entries version hversion fun t' hold hlock hwrites heq => ?_
    have hmem := (h.held _ _ _).mpr ⟨hold, hlock, hwrites.1, (congrArg site.lockFile heq).symm⟩
    cases not_exclusive hcompatible hmem
  have hother : ∀ t', t' ≠ t → Function.update know t
      ⟨t, s.tree.node, some ⟨version, type, (s.tree.node (site.entry version)).isNone⟩⟩ t' = know t' :=
    fun t' ht => Function.update_of_ne ht ..
  refine ⟨hok, fun t' => ?_, fun t' => ?_, h.steady, fun t' hold hlock => ?_,
    fun file t' type' => ?_, h.proper.take (hnot _) hcompatible, fun version' hversion' hnone => ?_⟩
  · by_cases ht : t' = t
    · subst ht
      rw [Function.update_self]
    · rw [hother t' ht]
      exact h.self t'
  · by_cases ht : t' = t
    · subst ht
      rw [Function.update_self]
      exact ⟨(h.agrees t').grown, fun _ _ => rfl⟩
    · rw [hother t' ht]
      exact h.agrees t'
  · by_cases ht : t' = t
    · subst ht
      rw [Function.update_self] at hlock
      obtain rfl := Option.some.inj hlock
      exact hversion
    · rw [hother t' ht] at hlock
      exact h.version t' hold hlock
  · rw [mem_take]
    by_cases ht : t' = t
    · subst ht
      rw [Function.update_self, or_iff_left (hnot _ _)]
      constructor
      · rintro ⟨-, rfl, rfl⟩
        exact ⟨_, rfl, rfl, rfl⟩
      · rintro ⟨hold, hsome, htype, hfile⟩
        obtain rfl := Option.some.inj hsome
        exact ⟨rfl, htype.symm, hfile⟩
    · rw [hother t' ht, or_iff_right fun heq => ht heq.1]
      exact h.held file t' type'
  · refine h.entries version' hversion' fun t' hold hlock => ?_
    have ht : t' ≠ t := by
      rintro rfl
      cases hfree.symm.trans hlock
    exact hnone t' hold (by rwa [hother t' ht])

theorem Inv.give (h : site.Inv fs s know) {hold : Hold} (hlock : (know t).lock = some hold)
    (hok : site.EntryOk hold.version (subtree (know t).nodes (site.entry hold.version))) :
    site.Inv fs ⟨s.tree, release s.locks (site.lockFile hold.version) t⟩
      (Function.update know t { know t with lock := none }) := by
  have hentry : subtree (know t).nodes (site.entry hold.version) =
      subtree s.tree.node (site.entry hold.version) := by
    funext y
    exact ((h.agrees t).node _ (Or.inr ⟨hold, hlock, List.suffix_append y _⟩)).symm
  have hother : ∀ t', t' ≠ t → Function.update know t { know t with lock := none } t' = know t' :=
    fun t' ht => Function.update_of_ne ht ..
  refine ⟨fun t' => ?_, fun t' => ?_, h.steady, fun t' hold' hlock' => ?_,
    fun file t' type' => ?_, h.proper.release _ _, fun version' hversion' hnone => ?_⟩
  · by_cases ht : t' = t
    · subst ht
      rw [Function.update_self]
      exact h.self t'
    · rw [hother t' ht]
      exact h.self t'
  · by_cases ht : t' = t
    · subst ht
      rw [Function.update_self]
      refine ⟨(h.agrees t').grown, fun l hl => (h.agrees t').node l ?_⟩
      rcases hl with hhome | ⟨hold', hsome, -⟩
      · exact Or.inl hhome
      · cases hsome
    · rw [hother t' ht]
      exact h.agrees t'
  · by_cases ht : t' = t
    · subst ht
      rw [Function.update_self] at hlock'
      cases hlock'
    · rw [hother t' ht] at hlock'
      exact h.version t' hold' hlock'
  · rw [mem_release h.proper]
    by_cases ht : t' = t
    · subst ht
      rw [Function.update_self]
      refine iff_of_false ?_ ?_
      · rintro ⟨hne, hmem⟩
        obtain ⟨hold', hlock', -, hfile⟩ := (h.held _ _ _).mp hmem
        obtain rfl := Option.some.inj (hlock.symm.trans hlock')
        exact hne ⟨rfl, hfile⟩
      · rintro ⟨hold', hsome, -⟩
        cases hsome
    · rw [hother t' ht, and_iff_right fun heq => ht heq.1]
      exact h.held file t' type'
  · by_cases heq : version' = hold.version
    · rw [heq, ← hentry]
      exact hok
    · refine h.entries version' hversion' fun t' hold' hlock' hwrites => ?_
      by_cases ht : t' = t
      · subst ht
        obtain rfl := Option.some.inj (hlock.symm.trans hlock')
        exact fun h => heq h.symm
      · exact hnone t' hold' (by rwa [hother t' ht]) hwrites

end Locks

/-! ### Soundness -/

section Soundness

variable {site} {fs : FileTree} {s s' : Shared T} {know : T → Knowledge T} {t : T}

/-- What one step of the process changes. Nobody comes to write an entry that is not empty. -/
structure Moves (site : Site T V R) (fs : FileTree) (s s' : Shared T) (t : T)
    (k k' : Knowledge T) : Prop where
  tree : ∀ l, s'.tree.node l = s.tree.node l ∨ (site.territory fs t k.lock).mine l ∨
    (locksSubdir :: site.entries) <:+ l
  lock : ∀ hold, k'.lock = some hold → hold.writes →
    k.lock = some hold ∨ s.tree.node (site.entry hold.version) = none

theorem moves_still {k k' : Knowledge T} (htree : s'.tree = s.tree) (hlock : k'.lock = k.lock) :
    Moves site fs s s' t k k' :=
  ⟨fun _ => Or.inl (htree ▸ rfl), fun _ h _ => Or.inl (hlock ▸ h)⟩

variable [DecidableEq T]

theorem inv_setup (hfit : site.Fit fs) (h : site.Inv fs s know) {x : Outcome}
    (hinstalls : site.Installs t x s.tree) (hlock : (know t).lock = none)
    {Q : Bool → Knowledge T → Prop} (hQ : ∀ succeeds nodes,
      (succeeds = true → ∀ y, nodes (y ++ site.home t) = (site.pack t).node y) →
        Q succeeds { know t with nodes := nodes }) :
    ∃ k, Q x.succeeds k ∧ site.Inv fs { s with tree := x.tree } (Function.update know t k) ∧
      Moves site fs s { s with tree := x.tree } t (know t) k := by
  obtain ⟨hchanged, hkeeps, hunpacked⟩ := hinstalls
  have hframe : ∀ l, ¬ site.home t <:+ l → x.tree.node l = s.tree.node l := fun l hl => hchanged.node hl
  have hmine : ∀ l, (site.territory fs t (know t).lock).mine l → site.home t <:+ l := by
    rintro l (hhome | ⟨hold, hsome, -⟩)
    · exact hhome
    · cases hlock.symm.trans hsome
  refine ⟨{ know t with nodes := x.tree.node }, hQ _ _ fun hsucceeds => (hunpacked hsucceeds).node,
    h.write hfit hkeeps.grows ⟨(h.agrees t).grown.trans hkeeps.grows, fun _ _ => rfl⟩ ?_ ?_, ?_,
    fun _ h _ => Or.inl h⟩
  · have hoff : ∀ {l}, site.entries <:+ l → x.tree.node l = s.tree.node l :=
      fun hl => hframe _ fun hhome => home_outside hfit hhome hl
    refine ⟨?_, fun version node hversion hnode => ?_⟩
    · rw [IsDir, hoff (List.suffix_cons _ _)]
      exact h.steady.dir
    · refine h.steady.file version node hversion (Eq.trans (Eq.symm ?_) hnode)
      exact hoff ((List.suffix_cons _ _).trans (List.suffix_cons _ _))
  · exact fun l hl _ => hframe l fun hhome => hl (Or.inl hhome)
  · intro l
    by_cases hhome : site.home t <:+ l
    · exact Or.inr (Or.inl (Or.inl hhome))
    · exact Or.inl (hframe l hhome)

section Steps

variable {x : Outcome}

theorem inv_io (hfit : site.Fit fs) (h : site.Inv fs s know) {i : Instr}
    {r : (Action.call (.io i)).Reply} (hsem : site.sem t (.call (.io i)) x s = some (r, s'))
    {Q : (Action.call (.io i)).Reply → Knowledge T → Prop}
    (hspec : site.spec fs (.call (.io i)) (know t) Q) :
    ∃ k, Q r k ∧ site.Inv fs s' (Function.update know t k) ∧ Moves site fs s s' t (know t) k := by
  have hself := h.self t
  cases hsem
  obtain ⟨nodes, hq, hagrees, hsteady, hframe⟩ :=
    hspec s.tree h.steady (hself.symm ▸ h.agrees t) x.choice
  rw [hself] at hagrees hframe
  have hframe' : ∀ l, ¬ (site.territory fs t (know t).lock).mine l →
      ¬ (locksSubdir :: site.entries) <:+ l →
      (unfailing site.umask s.tree i x.choice).2.node l = s.tree.node l :=
    fun l hl hlocks => hframe l hl fun heq => hlocks (heq ▸ List.suffix_rfl)
  refine ⟨_, hq, h.write hfit (Territory.grows_unfailing _ _ _ _) hagrees hsteady hframe',
    fun l => ?_, fun _ h _ => Or.inl h⟩
  by_cases hmine : (site.territory fs t (know t).lock).mine l
  · exact Or.inr (Or.inl hmine)
  · by_cases hlocks : (locksSubdir :: site.entries) <:+ l
    · exact Or.inr (Or.inr hlocks)
    · exact Or.inl (hframe' l hmine hlocks)

theorem inv_openLock [LinearOrder V] (hfit : site.Fit fs) (h : site.Inv fs s know) {path : FsPath}
    {r : (Action.call (.openLock path)).Reply}
    (hsem : site.sem t (.call (.openLock path)) x s = some (r, s'))
    {Q : (Action.call (.openLock path)).Reply → Knowledge T → Prop}
    (hspec : site.spec fs (.call (.openLock path)) (know t) Q) :
    ∃ k, Q r k ∧ site.Inv fs s' (Function.update know t k) ∧ Moves site fs s s' t (know t) k := by
  cases hsem
  obtain ⟨version, hversion, hpath, hfailed, hopened⟩ := hspec
  rw [h.self t] at hpath
  have hbound := (hfit.cacheBound t).grows (h.agrees t).grown
  have hopen := opened_lock h.steady hversion hbound x.choice
    (hpath.trans (lockPath_version hfit hversion _))
  have hq : Q (serve site.umask s.tree (.openLock path) x.choice).1 (know t) := by
    revert hopen
    generalize (serve site.umask s.tree (.openLock path) x.choice).1 = reply
    generalize (serve site.umask s.tree (.openLock path) x.choice).2 = tree
    intro hopen
    cases hopen with
    | failed e => exact hfailed e
    | there => exact hopened
    | made h => exact hopened
  have hknown : ∀ l, (site.territory fs t (know t).lock).known l →
      ¬ (locksSubdir :: site.entries) <:+ l := by
    rintro l (hhome | ⟨hold, hlock, hentry⟩)
    · exact home_not_locks hfit hhome
    · exact entry_not_locks hfit (h.version t hold hlock) hentry
  have hagrees : (site.territory fs t (know t).lock).Agrees (know t).nodes
      (serve site.umask s.tree (.openLock path) x.choice).2 :=
    ⟨(h.agrees t).grown.trans (grows_serve _ _ _ _), fun l hl =>
      (hopen.other (hknown l hl)).trans ((h.agrees t).node l hl)⟩
  refine ⟨know t, hq, h.write hfit (grows_serve _ _ _ _) hagrees (hopen.steady h.steady)
    fun l _ hlocks => hopen.other hlocks, fun l => ?_, fun _ h _ => Or.inl h⟩
  by_cases hlocks : (locksSubdir :: site.entries) <:+ l
  · exact Or.inr (Or.inr hlocks)
  · exact Or.inl (hopen.other hlocks)

theorem inv_flock (h : site.Inv fs s know) {file : Place} {type : LockType}
    {r : (Action.call (.flock file type)).Reply}
    (hsem : site.sem t (.call (.flock file type)) x s = some (r, s'))
    {Q : (Action.call (.flock file type)).Reply → Knowledge T → Prop}
    (hspec : site.spec fs (.call (.flock file type)) (know t) Q) :
    ∃ k, Q r k ∧ site.Inv fs s' (Function.update know t k) ∧ Moves site fs s s' t (know t) k := by
  obtain ⟨hlock, version, hversion, rfl, hfailed, htaken⟩ := hspec
  unfold sem at hsem
  simp only at hsem
  split at hsem
  next f hf =>
    cases hsem
    refine ⟨know t, hfailed _, ?_, moves_still rfl rfl⟩
    rw [Function.update_eq_self]
    exact h
  next =>
    split at hsem
    next hcompatible =>
      cases hsem
      obtain ⟨hok, hinv⟩ := h.take hversion hlock hcompatible
      rw [h.self t] at htaken
      refine ⟨_, htaken s.tree.node (fun l hl => (h.agrees t).node l (Or.inl hl)) hok, hinv,
        fun _ => Or.inl rfl, fun hold hsome hwrites => ?_⟩
      obtain rfl := Option.some.inj hsome
      exact Or.inr (Option.isNone_iff_eq_none.mp hwrites.2)
    next => cases hsem

/-- One step of a process whose spec is met. -/
theorem inv_step [LinearOrder V] (hfit : site.Fit fs) (h : site.Inv fs s know) {i : Action} {r : i.Reply}
    (hsem : site.sem t i x s = some (r, s')) {Q : i.Reply → Knowledge T → Prop}
    (hspec : site.spec fs i (know t) Q) :
    ∃ k, Q r k ∧ site.Inv fs s' (Function.update know t k) ∧ Moves site fs s s' t (know t) k := by
  cases i with
  | call c =>
    cases c with
    | io i => exact inv_io hfit h hsem hspec
    | openLock path => exact inv_openLock hfit h hsem hspec
    | flock file type => exact inv_flock h hsem hspec
    | close file =>
      cases hsem
      obtain ⟨hold, hlock, rfl, hok, hq⟩ := hspec
      exact ⟨_, hq, h.give hlock hok, fun _ => Or.inl rfl, fun _ h _ => by cases h⟩
  | setup cacheHit =>
    cases cacheHit with
    | true =>
      cases hsem
      refine ⟨know t, hspec.2 _, ?_, moves_still rfl rfl⟩
      rw [Function.update_eq_self]
      exact h
    | false =>
      unfold sem at hsem
      simp only at hsem
      split at hsem
      next hinstalls =>
        cases hsem
        obtain ⟨hlock, hQ⟩ := hspec
        refine inv_setup hfit h hinstalls hlock fun succeeds nodes hnodes => hQ succeeds nodes ?_
        rw [h.self t]
        exact hnodes
      next => cases hsem

end Steps

end Soundness

end Site

end PgEmbeddedSetup.CacheIntegration
