import PgEmbeddedSetup.Base.Interleave
import PgEmbeddedSetup.Cache.FreshCopy
import PgEmbeddedSetup.Cache.Lock

/-!
# A part of the tree that others leave alone

Between two calls of a program other threads change the tree. A `Territory` says which places they
leave alone: there the program knows each node, and it changes nothing outside of the part that is its
own. No entry is ever removed from the tree, so a path that led to a directory at the start still does.

A copy within the territory that meets no failure is like one that runs alone
(`surely_copyFromCache`), whatever happens elsewhere in the meantime.
-/

namespace PgEmbeddedSetup.Cache

open Env Fs Posix FileSystem Program Crash Interleave

/-- The nodes at the places that are known. -/
abbrev Nodes := Place → Option (Node OsString)

/-- What is at and below the place. -/
def subtree (view : Nodes) (A : Place) : Nodes := fun y => view (y ++ A)

/-- The tree with `.complete` in it. -/
def withMarker (mode : Nat) (tree : Nodes) : Nodes :=
  Function.update tree [completionMarker] (some (.file mode []))

/-- The tree has grown from `start`. -/
structure Territory where
  start : FileTree
  known : Place → Prop
  mine : Place → Prop

namespace Territory

variable {r : Territory} {umask : Nat} {view view' : Nodes} {s s' : FileTree} {path : FsPath}
  {d l : Place} {n : OsString} {α : Type}

structure Agrees (r : Territory) (view : Nodes) (s : FileTree) : Prop where
  grown : r.start.Grows s
  node : ∀ l, r.known l → s.node l = view l

/-- In every tree that agrees with the view the call gives a reply and a tree of which that is known,
and it changes only what is the program's own. -/
def spec (r : Territory) (umask : Nat) : Spec Instr Instr.Reply Nodes := fun i view Q =>
  ∀ s, r.Agrees view s → ∀ x, ∃ view', Q (unfailing umask s i x).1 view' ∧
    r.Agrees view' (unfailing umask s i x).2 ∧
    ∀ l, ¬ r.mine l → (unfailing umask s i x).2.node l = s.node l

theorem spec_monotone : (r.spec umask).Monotone := by
  intro i view Q Q' hQ h s hs x
  obtain ⟨view', hq, hrest⟩ := h s hs x
  exact ⟨view', hQ _ _ hq, hrest⟩

theorem grows_unfailing (umask : Nat) (s : FileTree) (i : Instr) (x : Choice) :
    s.Grows (unfailing umask s i x).2 :=
  grows_exec umask s i _

theorem spec_of_reads {i : Instr} {Q : i.Reply → Nodes → Prop}
    (h : ∀ s, r.Agrees view s → ∀ x, ∃ reply, unfailing umask s i x = (reply, s) ∧ Q reply view) :
    r.spec umask i view Q := by
  intro s hs x
  obtain ⟨reply, heq, hq⟩ := h s hs x
  rw [heq]
  exact ⟨view, hq, hs, fun _ _ => rfl⟩

theorem spec_of_reply {i : Instr} {Q : i.Reply → Nodes → Prop} {reply : i.Reply}
    (h : ∀ s, r.Agrees view s → ∀ x, act umask s x i = (reply, s)) (hQ : Q reply view) :
    r.spec umask i view Q :=
  spec_of_reads fun s hs x => ⟨reply, h s hs { x with fault := none, cut := none }, hQ⟩

theorem spec_of_writes {i : Instr} {Q : i.Reply → Nodes → Prop} (hmine : r.mine l)
    (h : ∀ s, r.Agrees view s → ∀ x, ∃ reply s' node, act umask s x i = (reply, s') ∧
      Writes s s' l node ∧ Q reply (Function.update view l (some node))) :
    r.spec umask i view Q := by
  intro s hs x
  have hgrows := grows_unfailing umask s i x
  obtain ⟨reply, s', node, hact, hwrites, hq⟩ := h s hs { x with fault := none, cut := none }
  have heq : unfailing umask s i x = (reply, s') := hact
  rw [heq] at hgrows ⊢
  refine ⟨_, hq, ⟨hs.grown.trans hgrows, fun l' hl' => ?_⟩, fun l' hl' => ?_⟩
  · rw [hwrites l', Function.update_apply, hs.node l' hl']
  · exact hwrites.other fun heq => hl' (heq ▸ hmine)

/-! ### Paths -/

/-- The path leads to the directory at `d` in every tree that agrees with the view. -/
inductive Leads (r : Territory) (view : Nodes) : FsPath → Place → Prop
  | start {path : FsPath} {d : Place} (h : r.start.Bound path d) : Leads r view path d
  | child {path : FsPath} {d : Place} {n : OsString} {mode : Nat} (h : Leads r view path d)
      (hknown : r.known (n :: d)) (hdir : view (n :: d) = some (.dir mode)) :
      Leads r view (.name n :: path) (n :: d)

theorem Leads.bound (h : r.Leads view path d) (hs : r.Agrees view s) : s.Bound path d := by
  induction h with
  | start h => exact h.grows hs.grown
  | child h hknown hdir ih =>
    exact ih.child (isDir_iff.mpr ⟨_, (hs.node _ hknown).trans hdir⟩)

theorem Leads.mono (h : r.Leads view path d)
    (hdirs : ∀ l mode, view l = some (.dir mode) → ∃ mode', view' l = some (.dir mode')) :
    r.Leads view' path d := by
  induction h with
  | start h => exact .start h
  | child h hknown hdir ih =>
    obtain ⟨mode', hdir'⟩ := hdirs _ _ hdir
    exact .child ih hknown hdir'

/-- The path leads to this node. -/
def Sees (r : Territory) (view : Nodes) (path : FsPath) (l : Place) (node : Node OsString) : Prop :=
  ∀ s, r.Agrees view s → Finds s path l node

theorem Leads.sees {node : Node OsString} (h : r.Leads view path d) (hknown : r.known d)
    (hnode : view d = some node) : r.Sees view path d node := by
  intro s hs
  obtain ⟨mode, hfinds⟩ := finds_dir (h.bound hs)
  obtain rfl := Option.some.inj (hfinds.node.symm.trans ((hs.node d hknown).trans hnode))
  exact hfinds

theorem Leads.sees_entry {node : Node OsString} (h : r.Leads view path d)
    (hknown : r.known (n :: d)) (hnode : view (n :: d) = some node)
    (hlink : node.isSymlink = false) : r.Sees view (.name n :: path) (n :: d) node :=
  fun _ hs => finds_entry (h.bound hs) ((hs.node _ hknown).trans hnode) hlink

/-! ### Calls -/

section Calls

variable {node : Node OsString}

theorem spec_stat {Q : Except Errno (FileType × Nat) → Nodes → Prop} (h : r.Sees view path l node)
    (hQ : Q (.ok (FileType.of node, modeOf node)) view) : r.spec umask (.stat path) view Q :=
  spec_of_reply (fun _ hs _ => (h _ hs).stat) hQ

theorem spec_stat_missing {Q : Except Errno (FileType × Nat) → Nodes → Prop}
    (h : r.Leads view path d) (hknown : r.known (n :: d)) (hnone : view (n :: d) = none)
    (hQ : Q (.error .notFound) view) : r.spec umask (.stat (.name n :: path)) view Q :=
  spec_of_reply (fun _ hs _ => stat_missing (h.bound hs) ((hs.node _ hknown).trans hnone)) hQ

theorem spec_stat_entry {Q : Except Errno (FileType × Nat) → Nodes → Prop}
    (h : r.Leads view path d) (hknown : r.known (n :: d))
    (hQ : ∀ reply, (∀ a, reply = .ok a → view (n :: d) ≠ none) → Q reply view) :
    r.spec umask (.stat (.name n :: path)) view Q := by
  cases hnode : view (n :: d) with
  | none => exact spec_stat_missing h hknown hnode (hQ _ nofun)
  | some node =>
    intro s hs x
    exact ⟨view, hQ _ fun _ _ => hnode ▸ Option.some_ne_none _, hs, fun _ _ => rfl⟩

theorem spec_fileType {Q : Except Errno FileType → Nodes → Prop} (h : r.Leads view path d)
    (hknown : r.known (n :: d)) (hnode : view (n :: d) = some node)
    (hQ : Q (.ok (FileType.of node)) view) : r.spec umask (.fileType (.name n :: path)) view Q := by
  refine spec_of_reply (fun s hs _ => ?_) hQ
  simp only [act, (h.bound hs).locate n, hs.node _ hknown, hnode]

theorem spec_fileType_entry {Q : Except Errno FileType → Nodes → Prop} (h : r.Leads view path d)
    (hknown : r.known (n :: d))
    (hQ : ∀ reply, (∀ kind, reply = .ok kind → (view (n :: d)).map FileType.of = some kind) →
      Q reply view) : r.spec umask (.fileType (.name n :: path)) view Q := by
  cases hnode : view (n :: d) with
  | none =>
    refine spec_of_reply (fun s hs x => ?_) (hQ (.error .notFound) nofun)
    simp only [act, (h.bound hs).locate n, hs.node _ hknown, hnode]
  | some node =>
    refine spec_fileType h hknown hnode (hQ _ ?_)
    rintro kind ⟨⟩
    rw [hnode]
    rfl

theorem spec_readLink {Q : Except Errno (Link OsString) → Nodes → Prop} {target : Link OsString}
    (h : r.Leads view path d) (hknown : r.known (n :: d))
    (hnode : view (n :: d) = some (.symlink target)) (hQ : Q (.ok target) view) :
    r.spec umask (.readLink (.name n :: path)) view Q := by
  refine spec_of_reply (fun s hs _ => ?_) hQ
  simp only [act, (h.bound hs).locate n, hs.node _ hknown, hnode]

theorem spec_readDir {Q : Except Errno (List OsString × Option Fault) → Nodes → Prop}
    (h : r.Leads view path d) (hknown : ∀ y, r.known (y ++ d))
    (hQ : ∀ names : List OsString, names.Nodup → (∀ n, n ∈ names ↔ view (n :: d) ≠ none) →
      (∀ n y, view (n :: (y ++ d)) ≠ none → ∃ mode, view (y ++ d) = some (.dir mode)) →
      Q (.ok (names, none)) view) : r.spec umask (.readDir path) view Q := by
  refine spec_of_reads fun s hs x => ⟨.ok (arrange x.order (s.children d), none), ?_, ?_⟩
  · show act umask s { x with fault := none, cut := none } (.readDir path) = _
    simp only [act, (h.bound hs).follow, (h.bound hs).isDir, if_true]
  · have hperm := arrange_perm x.order (s.children d)
    refine hQ _ (hperm.nodup_iff.mpr (nodup_children s d)) (fun n => ?_) fun n y hy => ?_
    · rw [hperm.mem_iff, mem_children, hs.node (n :: d) (hknown [n])]
    · rw [← hs.node _ (hknown y), ← isDir_iff]
      rw [← hs.node (n :: (y ++ d)) (hknown (n :: y))] at hy
      exact isDir_of_node hy

theorem spec_mkdir {Q : Except Errno Unit → Nodes → Prop} (h : r.Leads view path d)
    (hknown : r.known (n :: d)) (hmine : r.mine (n :: d)) (hnone : view (n :: d) = none)
    (hQ : Q (.ok ()) (Function.update view (n :: d) (some (.dir (madeMode umask))))) :
    r.spec umask (.mkdir (.name n :: path)) view Q := by
  refine spec_of_writes hmine fun s hs _ => ?_
  have hmissing := (hs.node _ hknown).trans hnone
  refine ⟨_, _, _, ?_, writes_new hmissing (h.bound hs).isDir (.dir (madeMode umask)), hQ⟩
  rw [act, makeEntry_bound (h.bound hs), hmissing]
  rfl

theorem spec_mkdir_there {Q : Except Errno Unit → Nodes → Prop} (h : r.Leads view path d)
    (hQ : Q (.error .alreadyExists) view) : r.spec umask (.mkdir path) view Q :=
  spec_of_reply (fun _ hs _ => makeEntry_there (h.bound hs) _) hQ

theorem spec_symlink {Q : Except Errno Unit → Nodes → Prop} {target : Link OsString}
    (h : r.Leads view path d) (hknown : r.known (n :: d)) (hmine : r.mine (n :: d))
    (hnone : view (n :: d) = none)
    (hQ : Q (.ok ()) (Function.update view (n :: d) (some (.symlink target)))) :
    r.spec umask (.symlink target (.name n :: path)) view Q := by
  refine spec_of_writes hmine fun s hs _ => ?_
  have hmissing := (hs.node _ hknown).trans hnone
  refine ⟨_, _, _, ?_, writes_new hmissing (h.bound hs).isDir (.symlink target), hQ⟩
  rw [act, makeEntry_bound (h.bound hs), hmissing]

theorem spec_openRead {Q : Except Errno (Place × Nat) → Nodes → Prop} {mode : Nat}
    {content : List UInt8} (h : r.Sees view path l (.file mode content))
    (hQ : Q (.ok (l, mode)) view) : r.spec umask (.openRead path) view Q :=
  spec_of_reply (fun _ hs _ => act_openRead (h _ hs)) hQ

theorem spec_create {Q : Except Errno Place → Nodes → Prop} {mode : Nat} (h : r.Leads view path d)
    (hknown : r.known (n :: d)) (hmine : r.mine (n :: d))
    (hold : ∀ old, view (n :: d) = some old → old.isFile = true)
    (hQ : ∀ mode', Q (.ok (n :: d)) (Function.update view (n :: d) (some (.file mode' [])))) :
    r.spec umask (.create (.name n :: path) mode) view Q := by
  refine spec_of_writes hmine fun s hs x => ?_
  obtain ⟨s', mode', hact, hwrites⟩ := act_create umask x (h.bound hs)
    (fun old hold' => hold old ((hs.node _ hknown).symm.trans hold')) mode
  exact ⟨_, _, _, hact, hwrites, hQ mode'⟩

theorem spec_fchmod {Q : Except Errno Unit → Nodes → Prop} (hknown : r.known l) (hmine : r.mine l)
    (hnode : view l = some node) (mode : Nat)
    (hQ : Q (.ok ()) (Function.update view l (some (withMode mode node)))) :
    r.spec umask (.fchmod l mode) view Q :=
  spec_of_writes hmine fun _ hs _ =>
    ⟨_, _, _, rfl, writes_changeMode ((hs.node _ hknown).trans hnode) mode, hQ⟩

theorem spec_chmod {Q : Except Errno Unit → Nodes → Prop} (h : r.Sees view path l node)
    (hmine : r.mine l) (mode : Nat)
    (hQ : Q (.ok ()) (Function.update view l (some (withMode mode node)))) :
    r.spec umask (.chmod path mode) view Q :=
  spec_of_writes hmine fun s hs _ =>
    ⟨_, _, _, act_chmod (h s hs) mode, writes_changeMode (h s hs).node mode, hQ⟩

theorem spec_copyRange {Q : Except Errno Unit → Nodes → Prop} {a : Place} {mode mode' : Nat}
    {content content' : List UInt8} (ha : r.known a) (hl : r.known l) (hmine : r.mine l)
    (hsource : view a = some (.file mode content)) (hfile : view l = some (.file mode' content'))
    (hQ : Q (.ok ()) (Function.update view l (some (.file mode' content)))) :
    r.spec umask (.copyRange a l) view Q :=
  spec_of_writes hmine fun _ hs _ =>
    ⟨_, _, _, rfl, writes_copyContent ((hs.node _ ha).trans hsource) ((hs.node _ hl).trans hfile) id,
      hQ⟩

end Calls

/-! ### Single entries -/

theorem Leads.update {node : Node OsString} (h : r.Leads view path d)
    (hdir : ∀ mode, view l = some (.dir mode) → node.isDir = true) :
    r.Leads (Function.update view l (some node)) path d := by
  refine h.mono fun l' mode hl' => ?_
  rw [Function.update_apply]
  split
  next heq =>
    cases node with
    | dir mode' => exact ⟨mode', rfl⟩
    | file _ _ => cases hdir mode (heq ▸ hl')
    | symlink _ => cases hdir mode (heq ▸ hl')
  next => exact ⟨mode, hl'⟩

theorem Leads.update_new {node : Node OsString} (h : r.Leads view path d) (hnone : view l = none) :
    r.Leads (Function.update view l (some node)) path d :=
  h.update fun _ hdir => by cases hnone.symm.trans hdir

/-- The path leads to a directory, or to where one can be made. -/
inductive Target (r : Territory) (view : Nodes) : FsPath → Place → Prop
  | there {path : FsPath} {l : Place} {mode : Nat} (h : r.Leads view path l)
      (hdir : view l = some (.dir mode)) : Target r view path l
  | missing {path : FsPath} {d : Place} {n : OsString} (h : r.Leads view path d)
      (hnone : view (n :: d) = none) : Target r view (.name n :: path) (n :: d)

/-- The path leads to a directory, and the view is as before but for its mode. -/
def MadeAt (r : Territory) (view : Nodes) (path : FsPath) (l : Place) (view' : Nodes) : Prop :=
  ∃ mode, view' = Function.update view l (some (.dir mode)) ∧ r.Leads view' path l

theorem madeAt_there {mode : Nat} (h : r.Leads view path l) (hdir : view l = some (.dir mode)) :
    r.MadeAt view path l view :=
  ⟨mode, by rw [← hdir, Function.update_eq_self], h⟩

theorem madeAt_missing (h : r.Leads view path d) (hknown : r.known (n :: d))
    (hnone : view (n :: d) = none) (mode : Nat) :
    r.MadeAt view (.name n :: path) (n :: d)
      (Function.update view (n :: d) (some (.dir mode))) :=
  ⟨mode, rfl, .child (h.update_new hnone) hknown (Function.update_self ..)⟩

theorem surely_createDirAll (h : r.Target view path l) (hknown : r.known l) (hmine : r.mine l) :
    Surely (r.spec umask) (fun _ => r.MadeAt view path l) (createDirAll path) view := by
  cases h with
  | there h hdir =>
    have hstat : ∀ path', path' = path → Surely (r.spec umask) (fun _ => r.MadeAt view path l)
        (orDirectory path' (.error .alreadyExists)) view := by
      rintro path' rfl
      refine surely_call (spec_stat (h.sees hknown hdir) ?_)
      exact surely_pure (madeAt_there h hdir)
    cases path with
    | nil => exact surely_call (spec_mkdir_there h (hstat _ rfl))
    | cons hop parent => exact surely_call (spec_mkdir_there h (hstat _ rfl))
  | missing h hnone =>
    exact surely_call (spec_mkdir h hknown hmine hnone
      (surely_pure (madeAt_missing h hknown hnone _)))

theorem surely_createIfMissing (h : r.Target view path l) (hknown : r.known l) (hmine : r.mine l) :
    Surely (r.spec umask) (fun _ => r.MadeAt view path l) (createIfMissing path) view := by
  cases h with
  | there h hdir =>
    exact surely_call (spec_stat (h.sees hknown hdir) (surely_pure (madeAt_there h hdir)))
  | missing h hnone =>
    exact surely_call (spec_stat_missing h hknown hnone
      (surely_createDirAll (.missing h hnone) hknown hmine))

theorem surely_copyFile {src dst : FsPath} {S : Place} {m : OsString} {mode : Nat}
    {content : List UInt8} (hsrc : r.Leads view src S) (hsource : r.known (m :: S))
    (hfile : view (m :: S) = some (.file mode content)) (hdst : r.Leads view dst d)
    (hknown : r.known (n :: d)) (hmine : r.mine (n :: d)) (hnone : view (n :: d) = none) :
    Surely (r.spec umask)
      (fun _ view' => view' = Function.update view (n :: d) (some (.file mode content)))
      (copyFileWithPermissions (.name m :: src) (.name n :: dst)) view := by
  have hne : m :: S ≠ n :: d := fun heq => by cases hnone.symm.trans (heq ▸ hfile)
  have hself : ∀ node, (Function.update view (n :: d) (some node)) (n :: d) = some node :=
    fun _ => Function.update_self ..
  have hother : ∀ node, (Function.update view (n :: d) (some node)) (m :: S) =
      some (.file mode content) := fun _ => (Function.update_of_ne hne ..).trans hfile
  refine surely_call (spec_openRead (hsrc.sees_entry hsource hfile rfl) ?_)
  refine surely_call (spec_create hdst hknown hmine (fun old hold => by cases hnone.symm.trans hold)
    fun mode' => ?_)
  refine surely_call (spec_fchmod hknown hmine (hself _) mode ?_)
  rw [Function.update_idem]
  refine surely_call (spec_copyRange hsource hknown hmine (hother _) (hself _) ?_)
  rw [Function.update_idem]
  refine surely_call (spec_stat ((hsrc.update_new hnone).sees_entry hsource (hother _) rfl) ?_)
  refine surely_call (spec_chmod ((hdst.update_new hnone).sees_entry hknown (hself _) rfl) hmine _ ?_)
  rw [Function.update_idem]
  exact surely_pure rfl

theorem surely_copySymlink {src dst : FsPath} {S : Place} {m : OsString} {target : Link OsString}
    (hsrc : r.Leads view src S) (hsource : r.known (m :: S))
    (hlink : view (m :: S) = some (.symlink target)) (hdst : r.Leads view dst d)
    (hknown : r.known (n :: d)) (hmine : r.mine (n :: d)) (hnone : view (n :: d) = none) :
    Surely (r.spec umask)
      (fun _ view' => view' = Function.update view (n :: d) (some (.symlink target)))
      (copySymlink (.name m :: src) (.name n :: dst)) view := by
  refine surely_call (spec_readLink hsrc hsource hlink ?_)
  exact surely_call (spec_symlink hdst hknown hmine hnone (surely_pure rfl))

/-! ### Trees -/

/-- What is at and below `B` is now what was at and below `A`. -/
structure Filled (A B : Place) (view view' : Nodes) : Prop where
  equal : ∀ y, view' (y ++ B) = view (y ++ A)
  frame : ∀ l, ¬ B <:+ l → view' l = view l

/-- The entries of these names have been copied from `A` to `B`, and nothing else is in `B`. -/
structure FilledWith (A B : Place) (names : List OsString) (view view' : Nodes) : Prop where
  equal : ∀ n ∈ names, ∀ y, view' (y ++ n :: B) = view (y ++ n :: A)
  empty : ∀ n, n ∉ names → ∀ y, view' (y ++ n :: B) = none
  top : ∃ mode, view' B = some (.dir mode)
  frame : ∀ l, ¬ B <:+ l → view' l = view l

section Trees

variable {A B : Place} {names : List OsString}

omit r umask view view' s s' path d l n α in
theorem apart_cons (h : Apart A B) (n m : OsString) : Apart (n :: A) (m :: B) := by
  constructor
  · intro hsuffix
    rcases List.suffix_cons_iff.mp hsuffix with heq | hsuffix
    · exact h.1 ((List.cons.inj heq).2 ▸ List.suffix_rfl)
    · exact h.1 ((List.suffix_cons n A).trans hsuffix)
  · intro hsuffix
    rcases List.suffix_cons_iff.mp hsuffix with heq | hsuffix
    · exact h.2 ((List.cons.inj heq).2 ▸ List.suffix_rfl)
    · exact h.2 ((List.suffix_cons m B).trans hsuffix)

theorem FilledWith.leads (h : FilledWith A B names view view')
    (hempty : ∀ y, y ≠ [] → view (y ++ B) = none) (hpath : r.Leads view path d) :
    r.Leads view' path d := by
  refine hpath.mono fun l mode hdir => ?_
  by_cases hl : B <:+ l
  · obtain ⟨y, rfl⟩ := hl
    by_cases hy : y = []
    · subst hy
      exact h.top
    · cases (hempty y hy).symm.trans hdir
  · exact ⟨mode, (h.frame l hl).trans hdir⟩

theorem FilledWith.source (h : FilledWith A B names view view') (hapart : Apart A B) (y : Place) :
    view' (y ++ A) = view (y ++ A) :=
  h.frame _ (by simpa using hapart.not_suffix y [])

theorem FilledWith.snoc {before : Nodes} (h : FilledWith A B names view before) (hn : n ∉ names)
    (hapart : Apart A B) (hfilled : Filled (n :: A) (n :: B) before view') :
    FilledWith A B (names ++ [n]) view view' := by
  have hbelow : ∀ m, m ≠ n → ∀ y, view' (y ++ m :: B) = before (y ++ m :: B) := by
    intro m hm y
    refine hfilled.frame _ fun hsuffix => ?_
    rcases List.suffix_or_suffix_of_suffix hsuffix (List.suffix_append y (m :: B)) with hle | hle
    · exact hm (List.cons.inj (hle.eq_of_length (by simp))).1.symm
    · exact hm (List.cons.inj (hle.eq_of_length (by simp))).1
  refine ⟨fun m hm y => ?_, fun m hm y => ?_, ?_, fun l hl => ?_⟩
  · rcases List.mem_append.mp hm with hm | hm
    · rw [hbelow m (fun heq => hn (heq ▸ hm)) y, h.equal m hm]
    · obtain rfl := List.mem_singleton.mp hm
      have hsource : before (y ++ [m] ++ A) = view (y ++ [m] ++ A) := h.source hapart (y ++ [m])
      rw [List.append_assoc] at hsource
      rw [hfilled.equal]
      exact hsource
  · rw [List.mem_append, List.mem_singleton, not_or] at hm
    rw [hbelow m hm.2 y, h.empty m hm.1]
  · obtain ⟨mode, hmode⟩ := h.top
    refine ⟨mode, (hfilled.frame B fun hsuffix => ?_).trans hmode⟩
    exact absurd hsuffix.length_le (by simp)
  · rw [hfilled.frame l fun hsuffix => hl ((List.suffix_cons n B).trans hsuffix), h.frame l hl]

end Trees

/-! ### The copy -/

/-- A copy from the directory at `A` to `B`, where nothing is or an empty directory. -/
structure Copying (r : Territory) (view : Nodes) (src dst : FsPath) (A B : Place) (depth : Nat) :
    Prop where
  apart : Apart A B
  source : r.Leads view src A
  dir : ∃ mode, view A = some (.dir mode)
  target : r.Target view dst B
  read : ∀ y, r.known (y ++ A)
  known : ∀ y, r.known (y ++ B)
  mine : ∀ y, r.mine (y ++ B)
  empty : ∀ y, y ≠ [] → view (y ++ B) = none
  deep : ∀ y, view (y ++ A) ≠ none → y.length < depth

section Copy

variable {src dst : FsPath} {A B : Place} {depth : Nat} {names : List OsString}

theorem Copying.made (h : r.Copying view src dst A B depth) (hmade : r.MadeAt view dst B view') :
    r.Copying view' src dst A B depth ∧ r.Leads view' dst B ∧ FilledWith A B [] view' view' ∧
      ∀ {last}, Filled A B view' last → Filled A B view last := by
  obtain ⟨mode, rfl, hleads⟩ := hmade
  have hsource : ∀ y, Function.update view B (some (.dir mode)) (y ++ A) = view (y ++ A) :=
    fun y => Function.update_of_ne (by simpa using h.apart.ne y []) ..
  have hempty : ∀ y, y ≠ [] → Function.update view B (some (.dir mode)) (y ++ B) = none :=
    fun y hy => (Function.update_of_ne (by simpa using hy) ..).trans (h.empty y hy)
  refine ⟨{ h with
      source := h.source.update fun _ _ => rfl
      dir := by
        obtain ⟨mode', hmode'⟩ := h.dir
        exact ⟨mode', (hsource []).trans hmode'⟩
      target := .there hleads (Function.update_self ..)
      empty := hempty
      deep := fun y hy => h.deep y (hsource y ▸ hy) }, hleads, ?_, fun {last} hfilled => ?_⟩
  · refine ⟨fun n hn => absurd hn List.not_mem_nil, fun n _ y => ?_,
      ⟨mode, Function.update_self ..⟩, fun _ _ => rfl⟩
    rw [List.append_cons]
    exact hempty (y ++ [n]) (by simp)
  · refine ⟨fun y => (hfilled.equal y).trans (hsource y), fun l hl => (hfilled.frame l hl).trans ?_⟩
    exact Function.update_of_ne (fun heq : l = B => hl (heq ▸ List.suffix_rfl)) ..

theorem filled_entry {node : Node OsString} (hnode : view (n :: A) = some node)
    (hleaf : ∀ y, y ≠ [] → view (y ++ n :: A) = none)
    (hempty : ∀ y, view (y ++ n :: B) = none) :
    Filled (n :: A) (n :: B) view (Function.update view (n :: B) (some node)) := by
  refine ⟨fun y => ?_, fun l hl => Function.update_of_ne
    (fun heq : l = n :: B => hl (heq ▸ List.suffix_rfl)) ..⟩
  by_cases hy : y = []
  · subst hy
    exact (Function.update_self ..).trans hnode.symm
  · rw [hleaf y hy, Function.update_of_ne (by simpa using hy), hempty y]

theorem nothing_below
    (hclosed : ∀ n y, view (n :: (y ++ A)) ≠ none → ∃ mode, view (y ++ A) = some (.dir mode))
    (hnot : ∀ mode, view (n :: A) ≠ some (.dir mode)) (y : Place) (hy : y ≠ []) :
    view (y ++ n :: A) = none := by
  induction y with
  | nil => exact absurd rfl hy
  | cons m y ih =>
    by_contra hne
    obtain ⟨mode, hmode⟩ := hclosed m (y ++ [n]) (by rw [List.append_assoc]; exact hne)
    rw [List.append_assoc] at hmode
    cases y with
    | nil => exact hnot mode hmode
    | cons m' y => cases (ih (List.cons_ne_nil m' y)).symm.trans hmode

theorem surely_copyEntry {n : OsString} {g : Node OsString} {before : Nodes}
    (ih : ∀ {view : Nodes} {src dst : FsPath} {A B : Place}, r.Copying view src dst A B depth →
      Surely (r.spec umask) (fun _ => Filled A B view) (copyDirRecursive depth src dst) view)
    (h : r.Copying view src dst A B (depth + 1)) (hdst : r.Leads view dst B)
    (hclosed : ∀ n y, view (n :: (y ++ A)) ≠ none → ∃ mode, view (y ++ A) = some (.dir mode))
    (hg : view (n :: A) = some g) (hn : n ∉ names) (hfilled : FilledWith A B names view before) :
    Surely (r.spec umask) (fun _ => FilledWith A B (names ++ [n]) view)
      (copyEntry (copyDirRecursive depth) src dst n) before := by
  have hsrc := hfilled.leads h.empty h.source
  have hdst := hfilled.leads h.empty hdst
  have hsource : ∀ y, before (y ++ n :: A) = view (y ++ n :: A) := by
    intro y
    rw [List.append_cons]
    exact hfilled.source h.apart (y ++ [n])
  have hbelow := hfilled.empty n hn
  have hnode := (hsource []).trans hg
  have hleaf : (∀ mode, g ≠ .dir mode) → ∀ y, y ≠ [] → before (y ++ n :: A) = none := by
    intro hnot y hy
    rw [hsource]
    refine nothing_below hclosed (fun mode hdir => ?_) y hy
    exact hnot mode (Option.some.inj (hg.symm.trans hdir))
  refine surely_call (spec_fileType hsrc (h.read [n]) hnode ?_)
  cases g with
  | dir mode =>
    refine (ih (A := n :: A) (B := n :: B) ?_).mono spec_monotone fun _ _ =>
      hfilled.snoc hn h.apart
    refine ⟨apart_cons h.apart n n, .child hsrc (h.read [n]) hnode, ⟨mode, hnode⟩,
      .missing hdst (hbelow []), fun y => ?_, fun y => ?_, fun y => ?_, fun y _ => hbelow y,
      fun y hy => ?_⟩
    · rw [List.append_cons]
      exact h.read (y ++ [n])
    · rw [List.append_cons]
      exact h.known (y ++ [n])
    · rw [List.append_cons]
      exact h.mine (y ++ [n])
    · rw [hsource, List.append_cons] at hy
      simpa using h.deep (y ++ [n]) hy
  | file mode content =>
    refine (surely_copyFile hsrc (h.read [n]) hnode hdst (h.known [n]) (h.mine [n])
      (hbelow [])).mono spec_monotone ?_
    rintro _ _ rfl
    exact hfilled.snoc hn h.apart (filled_entry hnode (hleaf nofun) hbelow)
  | symlink target =>
    refine (surely_copySymlink hsrc (h.read [n]) hnode hdst (h.known [n]) (h.mine [n])
      (hbelow [])).mono spec_monotone ?_
    rintro _ _ rfl
    exact hfilled.snoc hn h.apart (filled_entry hnode (hleaf nofun) hbelow)

theorem surely_copyDirRecursive (depth : Nat) {view : Nodes} {src dst : FsPath} {A B : Place}
    (h : r.Copying view src dst A B depth) :
    Surely (r.spec umask) (fun _ => Filled A B view) (copyDirRecursive depth src dst) view := by
  induction depth generalizing view src dst A B with
  | zero =>
    obtain ⟨mode, hmode⟩ := h.dir
    exact absurd (h.deep [] (hmode ▸ Option.some_ne_none _)) (Nat.not_lt_zero _)
  | succ depth ih =>
    refine Surely.bind spec_monotone (surely_createIfMissing h.target (h.known []) (h.mine []))
      fun _ view₁ hmade => ?_
    obtain ⟨h, hdst, hnothing, hlast⟩ := h.made hmade
    refine Surely.mono spec_monotone ?_ fun _ _ => hlast
    refine surely_call (spec_readDir h.source h.read fun names hnodup hmem hclosed => ?_)
    show Surely _ _ (copyEntries (copyDirRecursive depth) src dst (names, none) >>=
      fun _ => copyPermissions src dst) view₁
    refine Surely.bind (M := fun _ => FilledWith A B names view₁) spec_monotone ?_
      fun _ view₂ hfilled => ?_
    · refine Surely.bind (M := fun _ => FilledWith A B names view₁) spec_monotone
        (surely_forM (K := fun before => FilledWith A B before view₁) spec_monotone
          (fun before n after before' heq hbefore => ?_) hnothing)
        fun _ _ hfilled => surely_pure hfilled
      have hn : n ∉ before := by
        rw [heq, List.nodup_append] at hnodup
        exact fun hn => hnodup.2.2 n hn n List.mem_cons_self rfl
      have hne := (hmem n).mp (heq ▸ List.mem_append_right _ List.mem_cons_self)
      obtain ⟨g, hg⟩ := Option.ne_none_iff_exists'.mp hne
      exact surely_copyEntry ih h hdst hclosed hg hn hbefore
    · -- The mode of the directory is set at the end.
      obtain ⟨mode, hmode⟩ := h.dir
      obtain ⟨mode', hmode'⟩ := hfilled.top
      have hsource : view₂ A = some (.dir mode) := (hfilled.source h.apart []).trans hmode
      refine surely_call (spec_stat ((hfilled.leads h.empty h.source).sees (h.read []) hsource) ?_)
      refine surely_call (spec_chmod ((hfilled.leads h.empty hdst).sees (h.known []) hmode')
        (h.mine []) mode (surely_pure ⟨fun y => ?_, fun l hl => ?_⟩))
      · rcases List.eq_nil_or_concat y with rfl | ⟨z, n, rfl⟩
        · exact (Function.update_self ..).trans hmode.symm
        · have hne : z ++ n :: B ≠ B := fun heq => absurd (congrArg List.length heq) (by simp; omega)
          rw [List.concat_eq_append, List.append_assoc, List.append_assoc, List.singleton_append,
            List.singleton_append, Function.update_of_ne hne]
          by_cases hn : n ∈ names
          · exact hfilled.equal n hn z
          · have hnone : view₁ (n :: A) = none := by
              by_contra hne
              exact hn ((hmem n).mpr hne)
            rw [hfilled.empty n hn z]
            by_cases hz : z = []
            · rw [hz]
              exact hnone.symm
            · refine (nothing_below hclosed (fun mode hdir => ?_) z hz).symm
              cases hnone.symm.trans hdir
      · rw [Function.update_of_ne (fun heq : l = B => hl (heq ▸ List.suffix_rfl)), hfilled.frame l hl]

end Copy

/-! ### Entries of the cache -/

section Entries

variable {src dst cacheDir : FsPath} {A B : Place} {depth : Nat} {version : OsString}

theorem surely_copyFromCache (h : r.Copying view src dst A B depth) :
    Surely (r.spec umask) (fun _ => Filled A B view) (copyFromCache depth src dst) view := by
  refine Surely.bind spec_monotone (surely_createDirAll h.target (h.known []) (h.mine []))
    fun _ view₁ hmade => ?_
  obtain ⟨h, -, -, hlast⟩ := h.made hmade
  exact (surely_copyDirRecursive depth h).mono spec_monotone fun _ _ => hlast

theorem Filled.leads (h : Filled A B view view') (hcopy : r.Copying view src dst A B depth)
    (hpath : r.Leads view path d) : r.Leads view' path d := by
  refine hpath.mono fun l mode hdir => ?_
  by_cases hl : B <:+ l
  · obtain ⟨y, rfl⟩ := hl
    by_cases hy : y = []
    · subst hy
      obtain ⟨mode', hmode'⟩ := hcopy.dir
      exact ⟨mode', (h.equal []).trans hmode'⟩
    · cases (hcopy.empty y hy).symm.trans hdir
  · exact ⟨mode, (h.frame l hl).trans hdir⟩

/-- The entry holds the source and the marker. -/
structure Populated (A B : Place) (view view' : Nodes) : Prop where
  entry : ∃ mode, subtree view' B = withMarker mode (subtree view A)
  frame : ∀ l, ¬ B <:+ l → view' l = view l

theorem surely_populateCache
    (h : r.Copying view src (.name version :: cacheDir) A B depth)
    (hmarker : ∀ old, view (completionMarker :: A) = some old → old.isFile = true) :
    Surely (r.spec umask) (fun _ => Populated A B view) (populateCache depth src cacheDir version)
      view := by
  refine Surely.bind spec_monotone (surely_createDirAll h.target (h.known []) (h.mine []))
    fun _ view₁ hmade => ?_
  obtain ⟨h₁, hdst, -, hlast⟩ := h.made hmade
  refine Surely.bind spec_monotone (surely_copyDirRecursive depth h₁) fun _ view₂ hfilled₁ => ?_
  have hfilled := hlast hfilled₁
  have hold : ∀ old, view₂ (completionMarker :: B) = some old → old.isFile = true :=
    fun old hsome => hmarker old ((hfilled.equal [completionMarker]).symm.trans hsome)
  refine surely_call (spec_create (hfilled₁.leads h₁ hdst) (h.known [completionMarker])
    (h.mine [completionMarker]) hold fun mode => surely_pure ⟨⟨mode, ?_⟩, fun l hl => ?_⟩)
  · funext y
    unfold subtree withMarker
    by_cases hy : y = [completionMarker]
    · subst hy
      rw [Function.update_self]
      exact Function.update_self ..
    · have hne : y ++ B ≠ completionMarker :: B := fun heq =>
        hy (List.append_cancel_right (heq : y ++ B = [completionMarker] ++ B))
      rw [Function.update_of_ne hne, Function.update_of_ne hy]
      exact hfilled.equal y
  · have hne : l ≠ completionMarker :: B := fun heq => hl (heq ▸ List.suffix_cons ..)
    rw [Function.update_of_ne hne]
    exact hfilled.frame l hl

/-! ### The lookup -/

theorem surely_checkCache_missing (h : r.Leads view cacheDir d)
    (hknown : r.known (version :: d)) (hnone : view (version :: d) = none) :
    Surely (r.spec umask) (fun hit view' => hit = false ∧ view' = view)
      (checkCache cacheDir version) view := by
  have hstat : ∀ s, r.Agrees view s → ∀ x, act umask s x
      (.stat (.name completionMarker :: .name version :: cacheDir)) = (.error .notFound, s) := by
    intro s hs x
    have hfollow := follow_below_missing (h.bound hs) ((hs.node _ hknown).trans hnone)
      [completionMarker]
    rw [List.map_singleton, List.singleton_append] at hfollow
    simp only [act, hfollow]
  exact surely_call (spec_of_reply hstat (surely_pure ⟨rfl, rfl⟩))

theorem surely_pathIsDirectory_entry (h : r.Leads view path d) (hknown : r.known (n :: d)) :
    Surely (r.spec umask) (fun found view' => view' = view ∧ (found = true → view (n :: d) ≠ none))
      (pathIsDirectory (.name n :: path)) view := by
  refine surely_call (spec_stat_entry h hknown fun reply hreply => ?_)
  cases reply with
  | ok found =>
    obtain ⟨kind, mode⟩ := found
    cases kind with
    | dir => exact surely_pure ⟨rfl, fun _ => hreply _ rfl⟩
    | file | symlink => exact surely_pure ⟨rfl, nofun⟩
  | error e => exact surely_pure ⟨rfl, nofun⟩

theorem surely_checkCache_complete {mode : Nat} {marker : Node OsString}
    (h : r.Leads view (.name version :: cacheDir) d) (hknown : ∀ y, r.known (y ++ d))
    (hmarker : view (completionMarker :: d) = some marker) (hlink : marker.isSymlink = false)
    (hbin : view (binDir :: d) = some (.dir mode)) :
    Surely (r.spec umask) (fun hit view' => hit = true ∧ view' = view)
      (checkCache cacheDir version) view := by
  refine surely_call (spec_stat (h.sees_entry (hknown [completionMarker]) hmarker hlink) ?_)
  refine surely_call (spec_stat (h.sees_entry (hknown [binDir]) hbin rfl) ?_)
  exact surely_pure ⟨rfl, rfl⟩

end Entries

end Territory

end PgEmbeddedSetup.Cache
