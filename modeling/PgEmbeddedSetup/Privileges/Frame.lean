import PgEmbeddedSetup.Privileges.Walk

/-!
# When the walk gives away exactly the tree

What `ensure_tree_owned_by_user` is for is the law `OwnsTree`: it ends, it gives the user the inodes
below the root, and it gives away no other. The law fails because `chown` follows a link. A link that
leads out of the tree gives away what it leads to, and a link that leads anywhere keeps its owner.

The law holds exactly where no run gets that far (`ownsTree_iff`). An entry without a target, such as
a link that leads nowhere, makes every run fail that lists its directory, and a run lists a directory
to the end before it goes down. So a link below such a directory is out of reach (`BehindRefusal`),
and any other is reached by the run that lists the way down to it last (`walk_detour`).
-/

namespace PgEmbeddedSetup.Privileges

open Env Fs Lexical Posix Outcome

variable {h : Host} {s : Schedule} {user : User} {root : Utf8Path} {top : Location OsString}
  {rel : List OsString}

/-! ### Runs in which no call fails -/

/-- No call fails for a reason of its own. -/
structure Schedule.Calm (s : Schedule) : Prop where
  openFault : ∀ path, s.openFault path = none
  readFault : ∀ path, s.readFault path = none
  entryFault : ∀ path i, s.entryFault path i = none
  chownFault : ∀ path, s.chownFault path = none

theorem chownEntry_calm (user : User) (hs : s.Calm) {name : OsString} {l : Location OsString}
    (hl : target h root (name :: rel) = some l) (o : Owners) :
    isUtf8 name = true ∧ chownEntry h s user (entryPath root (name :: rel)) o =
      .ok () (Function.update o (h.inode l) user) := by
  rw [target] at hl
  split at hl
  next hutf8 =>
    refine ⟨hutf8, ?_⟩
    rw [chownEntry, hs.chownFault]
    cases hmeta : metadata h.fs h.cwd none (entryPath root (name :: rel)) with
    | error e =>
      rw [hmeta] at hl
      cases hl
    | ok l' =>
      rw [hmeta] at hl
      obtain rfl := Option.some.inj hl
      rfl
  next => cases hl

theorem visitEntries_cons_calm (hs : s.Calm) {name : OsString} {l : Location OsString}
    (hl : target h root (name :: rel) = some l) (i : Nat) (names : List OsString)
    (stack : List Utf8Path) (o : Owners) :
    visitEntries h s user (entryPath root rel) (rel ++ top) i (name :: names) stack o =
      visitEntries h s user (entryPath root rel) (rel ++ top) (i + 1) names
        (if isDirectory h (name :: (rel ++ top)) then entryPath root (name :: rel) :: stack
          else stack) (Function.update o (h.inode l) user) := by
  obtain ⟨hutf8, hchown⟩ := chownEntry_calm user hs hl o
  rw [visitEntries, hs.entryFault]
  dsimp only
  have hresolve : resolveEntryPath (entryPath root rel) name o =
      .ok (entryPath root (name :: rel)) o := by
    rw [resolveEntryPath, if_pos hutf8]
    rfl
  rw [bind_ok hresolve, bind_ok hchown]

theorem visitEntries_calm (user : User) (top : Location OsString) (hs : s.Calm) (i : Nat)
    (names : List OsString) (hall : ∀ name ∈ names, target h root (name :: rel) ≠ none)
    (stack : List Utf8Path) (o : Owners) :
    Ends (visitEntries h s user (entryPath root rel) (rel ++ top) i names stack) o
      (fun _ _ => True) (fun _ _ => False) := by
  induction names generalizing i stack o with
  | nil =>
    rw [visitEntries, hs.entryFault]
    trivial
  | cons name names ih =>
    obtain ⟨l, hl⟩ := Option.ne_none_iff_exists'.mp (hall name List.mem_cons_self)
    rw [Ends, visitEntries_cons_calm hs hl]
    exact ih (i + 1) (fun name' hname => hall name' (List.mem_cons_of_mem _ hname)) _ _

theorem visitDirectory_calm (hs : s.Calm) (htop : openAmbientDir h.fs h.cwd none root = .ok top)
    (hrel : h.fs.IsDir (rel ++ top)) (stack : List Utf8Path) :
    visitDirectory h s user (entryPath root rel) stack =
      visitEntries h s user (entryPath root rel) (rel ++ top) 0 (listing h top s rel) stack := by
  have hopen : openDirectoryIfExists h s (entryPath root rel) = some (.ok (rel ++ top)) := by
    unfold openDirectoryIfExists openAmbientDir
    rw [hs.openFault, metadata_dir htop hrel]
    simp only [bind, Except.bind, if_pos hrel]
  rw [visitDirectory, hopen]
  dsimp only
  rw [hs.readFault]
  rfl

/-- If each entry that the walk comes to has a target, nothing fails. -/
theorem walk_calm (hs : s.Calm) (htop : openAmbientDir h.fs h.cwd none root = .ok top)
    (hall : ∀ rel name, Listed h top rel → h.fs.node (name :: (rel ++ top)) ≠ none →
      target h root (name :: rel) ≠ none) {o₀ o : Owners} {done todo : List (List OsString)}
    (hp : Progress h root top user o₀ done todo o) (fuel : Nat) :
    Ends (walk h s user fuel (todo.map (entryPath root))) o (fun _ _ => True)
      (fun _ _ => False) := by
  obtain ⟨hdir, -⟩ := resolve_root htop
  induction fuel generalizing done todo o with
  | zero => cases todo <;> trivial
  | succ fuel ih =>
    cases todo with
    | nil => trivial
    | cons rel todo =>
      have hrel := hp.listed rel (List.mem_append_right _ List.mem_cons_self)
      have hdir' := hrel.isDir hdir
      have hspec := visitDirectory_spec (s := s) user htop hdir' (todo.map (entryPath root)) o
      have hok := visitEntries_calm user top hs 0 (listing h top s rel)
        (fun name hname => hall rel name hrel (FileSystem.mem_children.mp
          ((listing_perm h top s rel).mem_iff.mp hname))) (todo.map (entryPath root)) o
      rw [← visitDirectory_calm hs htop hdir'] at hok
      rw [List.map_cons, walk]
      cases hvisit : visitDirectory h s user (entryPath root rel) (todo.map (entryPath root)) o with
      | error e o' =>
        rw [ends_of_error hvisit] at hok
        exact hok.elim
      | ok stack' o' =>
        rw [ends_of_ok hvisit] at hspec
        obtain ⟨hall', rfl, hgiven⟩ := hspec
        rw [Ends, bind_ok hvisit, ← List.map_append]
        exact ih (hp.step hall' hgiven)

/-! ### What is given stays given -/

/-- An inode that the user owns stays with the user. -/
def Keeps {α : Type} (user : User) (i : Ino) (m : Walk α) : Prop :=
  ∀ o : Owners, o i = user → Ends m o (fun _ o' => o' i = user) fun _ o' => o' i = user

theorem Keeps.bind {α β : Type} {i : Ino} {m : Walk α} {f : α → Walk β} (hm : Keeps user i m)
    (hf : ∀ a, Keeps user i (f a)) : Keeps user i (m >>= f) :=
  fun o ho => Ends.bind (hm o ho) fun a o' ho' => hf a o' ho'

theorem keeps_pure {α : Type} (i : Ino) (a : α) : Keeps user i (pure a : Walk α) := fun _ ho => ho

theorem keeps_throw {α : Type} (i : Ino) (e : PrivilegeError) :
    Keeps user i (throw e : Walk α) :=
  fun _ ho => ho

theorem keeps_chownEntry (i : Ino) (path : Utf8Path) : Keeps user i (chownEntry h s user path) := by
  intro o ho
  unfold Ends chownEntry
  cases metadata h.fs h.cwd (s.chownFault path) path with
  | error e => exact ho
  | ok l =>
    by_cases hi : i = h.inode l
    · exact hi ▸ Function.update_self ..
    · exact (Function.update_of_ne hi ..).trans ho

theorem keeps_visitEntries (i : Ino) (path : Utf8Path) (dir : Location OsString) (n : Nat)
    (names : List OsString) (stack : List Utf8Path) :
    Keeps user i (visitEntries h s user path dir n names stack) := by
  induction names generalizing n stack with
  | nil =>
    rw [visitEntries]
    split
    · exact keeps_throw i _
    · exact keeps_pure i _
  | cons name names ih =>
    rw [visitEntries]
    split
    · exact keeps_throw i _
    · refine Keeps.bind ?_ fun entryPath => (keeps_chownEntry i entryPath).bind fun _ => ih _ _
      unfold resolveEntryPath
      split
      · exact keeps_pure i _
      · exact keeps_throw i _

theorem keeps_visitDirectory (i : Ino) (path : Utf8Path) (stack : List Utf8Path) :
    Keeps user i (visitDirectory h s user path stack) := by
  unfold visitDirectory
  split
  · exact keeps_pure i _
  · exact keeps_throw i _
  · split
    · exact keeps_throw i _
    · exact keeps_visitEntries i path _ 0 _ stack

theorem keeps_walk (i : Ino) (fuel : Nat) (stack : List Utf8Path) :
    Keeps user i (walk h s user fuel stack) := by
  induction fuel generalizing stack with
  | zero => cases stack <;> exact keeps_pure i _
  | succ fuel ih =>
    cases stack with
    | nil => exact keeps_pure i _
    | cons path stack => exact (keeps_visitDirectory i path stack).bind ih

/-! ### The run to one entry -/

section Detour

variable (h) (top) (rel) (name : OsString)

/-- The entry comes first in its directory, and on the way down to it each directory is listed last
of its siblings, so that it is the next one on the stack. -/
def detourOrder (dir : Location OsString) : List OsString :=
  let onWay (n : OsString) : Bool := decide (n :: dir <:+ rel ++ top)
  if dir = rel ++ top then name :: (h.fs.children dir).erase name
  else (h.fs.children dir).filter (fun n => !onWay n) ++ (h.fs.children dir).filter onWay

def detour : Schedule where
  order := detourOrder h top rel name
  openFault := fun _ => none
  readFault := fun _ => none
  entryFault := fun _ _ => none
  chownFault := fun _ => none

theorem detour_calm : (detour h top rel name).Calm :=
  ⟨fun _ => rfl, fun _ => rfl, fun _ _ => rfl, fun _ => rfl⟩

variable {h} {top} {rel} {name}

theorem listing_detour (hname : h.fs.node (name :: (rel ++ top)) ≠ none) :
    listing h top (detour h top rel name) rel =
      name :: (h.fs.children (rel ++ top)).erase name := by
  have horder : (detour h top rel name).order (rel ++ top) =
      name :: (h.fs.children (rel ++ top)).erase name :=
    if_pos rfl
  rw [listing, horder, FileSystem.arrange_of_perm]
  exact (List.perm_cons_erase (FileSystem.mem_children.mpr hname)).symm

theorem listing_detour_above (name : OsString) {rel' y : List OsString} {m : OsString}
    (hrel : rel = y ++ m :: rel')
    (hm : h.fs.node (m :: (rel' ++ top)) ≠ none) :
    ∃ names, listing h top (detour h top rel name) rel' = names ++ [m] := by
  have hne : rel' ++ top ≠ rel ++ top := by
    intro heq
    have := congrArg List.length heq
    simp only [hrel, List.length_append, List.length_cons] at this
    omega
  have hsuffix : m :: (rel' ++ top) <:+ rel ++ top := ⟨y, by rw [hrel]; simp⟩
  have hway : ∀ n, n :: (rel' ++ top) <:+ rel ++ top ↔ n = m := by
    intro n
    constructor
    · intro h'
      have := (List.suffix_of_suffix_length_le h' hsuffix le_rfl).eq_of_length rfl
      exact List.head_eq_of_cons_eq this
    · rintro rfl
      exact hsuffix
  let onWay (n : OsString) : Bool := decide (n :: (rel' ++ top) <:+ rel ++ top)
  have hlast : (h.fs.children (rel' ++ top)).filter onWay = [m] := by
    have hnodup := h.fs.nodup_children (rel' ++ top)
    refine List.perm_singleton.mp ((List.perm_ext_iff_of_nodup (hnodup.filter _)
      (List.nodup_singleton m)).mpr fun n => ?_)
    rw [List.mem_filter, List.mem_singleton, FileSystem.mem_children, decide_eq_true_iff, hway]
    refine ⟨fun hn => hn.2, ?_⟩
    rintro rfl
    exact ⟨hm, rfl⟩
  have horder : (detour h top rel name).order (rel' ++ top) =
      (h.fs.children (rel' ++ top)).filter (fun n => !onWay n) ++
        (h.fs.children (rel' ++ top)).filter onWay :=
    if_neg hne
  refine ⟨(h.fs.children (rel' ++ top)).filter (fun n => !onWay n), ?_⟩
  rw [listing, horder, FileSystem.arrange_of_perm, hlast]
  exact List.perm_append_comm.trans (List.filter_append_perm onWay _)

theorem Listed.of_suffix {rel' : List OsString} (hlisted : Listed h top rel)
    (hsuffix : rel' <:+ rel) : Listed h top rel' := by
  induction hlisted with
  | root => exact List.suffix_nil.mp hsuffix ▸ .root
  | entry hrel hdir ih =>
    rcases List.suffix_cons_iff.mp hsuffix with rfl | hsuffix
    · exact .entry hrel hdir
    · exact ih hsuffix

theorem walk_detour (user : User) (htop : openAmbientDir h.fs h.cwd none root = .ok top)
    (hlisted : Listed h top rel) (hbehind : ¬ BehindRefusal h root top rel)
    (hname : h.fs.node (name :: (rel ++ top)) ≠ none) {l : Location OsString}
    (hl : target h root (name :: rel) = some l) {y rel' : List OsString} (hrel : rel = y ++ rel')
    (todo : List Utf8Path) (o : Owners) :
    Ends (walk h (detour h top rel name) user (y.length + 1) (entryPath root rel' :: todo)) o
      (fun _ o' => o' (h.inode l) = user) (fun _ o' => o' (h.inode l) = user) := by
  obtain ⟨hdir, -⟩ := resolve_root htop
  have hcalm := detour_calm h top rel name
  induction y using List.reverseRecOn generalizing rel' todo o with
  | nil =>
    obtain rfl : rel = rel' := hrel
    rw [walk, visitDirectory_calm hcalm htop (hlisted.isDir hdir), listing_detour hname]
    refine Ends.bind ?_ fun stack o' ho' => keeps_walk _ _ stack o' ho'
    rw [Ends, visitEntries_cons_calm hcalm hl]
    exact keeps_visitEntries _ _ _ _ _ _ _ (Function.update_self ..)
  | append_singleton y m ih =>
    rw [List.append_assoc, List.singleton_append] at hrel
    have hentry : Listed h top (m :: rel') := hlisted.of_suffix ⟨y, hrel.symm⟩
    have hm : isDirectory h (m :: (rel' ++ top)) = true := by
      cases hentry with
      | entry _ hm => exact hm
    have hrel' : h.fs.IsDir (rel' ++ top) := by
      cases hentry with
      | entry hrel' _ => exact hrel'.isDir hdir
    obtain ⟨names, hnames⟩ := listing_detour_above name hrel (isDir_of_isDirectory hm).ne_none
    -- each entry of the directory has a target, so it is listed to its end
    have hall : ∀ n ∈ listing h top (detour h top rel name) rel',
        target h root (n :: rel') ≠ none := by
      intro n hn hnone
      refine hbehind ⟨rel', ⟨y ++ [m], by rw [hrel]; simp⟩, ?_, n, ?_, hnone⟩
      · intro heq
        have := congrArg List.length (heq.trans hrel)
        simp only [List.length_append, List.length_cons] at this
        omega
      · exact FileSystem.mem_children.mp ((listing_perm h top _ rel').mem_iff.mp hn)
    have hok := visitEntries_calm user top hcalm 0 _ hall todo o
    have hspec := visitDirectory_spec (s := detour h top rel name) user htop hrel' todo o
    rw [← visitDirectory_calm hcalm htop hrel'] at hok
    rw [List.length_append, List.length_singleton, walk]
    cases hvisit : visitDirectory h (detour h top rel name) user (entryPath root rel') todo o with
    | error e o' =>
      rw [ends_of_error hvisit] at hok
      exact hok.elim
    | ok stack' o' =>
      rw [ends_of_ok hvisit] at hspec
      obtain ⟨-, rfl, -⟩ := hspec
      have htop' : pushed h top rel' (listing h top (detour h top rel name) rel') =
          (m :: rel') :: pushed h top rel' names := by
        rw [hnames, pushed, List.filter_append, List.filter_singleton, hm]
        simp [pushed]
      rw [Ends, bind_ok hvisit, htop']
      exact ih hrel _ o'

end Detour

/-! ### The law -/

section Law

variable (h : Host) (user : User) (root : Utf8Path)

/-- The inodes of the entries strictly below the root, found without following links. -/
def inodesBelow : Set Ino :=
  {i | ∃ top, openAmbientDir h.fs h.cwd none root = .ok top ∧
    ∃ name rel, h.fs.node (name :: (rel ++ top)) ≠ none ∧ h.inode (name :: (rel ++ top)) = i}

/-- The walk ends; when it succeeds, the user owns the inodes below the root and no other owner has
changed; and however it ends, only inodes below the root have changed owners. -/
structure OwnsTree : Prop where
  terminates : ∃ rounds, ∀ fuel ≥ rounds, ∀ s o o',
    ensureTreeOwnedByUser h s user fuel root o ≠ .ok false o'
  complete : ∀ s fuel o o', ensureTreeOwnedByUser h s user fuel root o = .ok true o' →
    Given user (inodesBelow h root) o o'
  frame : ∀ s fuel o, ∀ i ∉ inodesBelow h root,
    final (ensureTreeOwnedByUser h s user fuel root) o i = o i

variable (top : Location OsString)

/-- The walk comes to an entry that it cannot give away. -/
def Refuses : Prop :=
  ∃ rel name, Listed h top rel ∧ h.fs.node (name :: (rel ++ top)) ≠ none ∧
    target h root (name :: rel) = none

/-- The walk comes to no link, and to a name of each inode below the root. -/
def Plain : Prop :=
  (∀ rel name node, Listed h top rel → h.fs.node (name :: (rel ++ top)) = some node →
    node.isSymlink = false) ∧
  ∀ i ∈ inodesBelow h root, ∃ rel name, Listed h top rel ∧
    h.fs.node (name :: (rel ++ top)) ≠ none ∧ h.inode (name :: (rel ++ top)) = i

/-- Each entry of which the path leads out of the tree is behind a refusal. -/
def Confined : Prop :=
  ∀ rel name l, Listed h top rel → h.fs.node (name :: (rel ++ top)) ≠ none →
    target h root (name :: rel) = some l → h.inode l ∉ inodesBelow h root →
    BehindRefusal h root top rel

end Law

theorem ensure_unopened {e : Errno} (hroot : openAmbientDir h.fs h.cwd none root = .error e)
    (fuel : Nat) (o : Owners) :
    Ends (ensureTreeOwnedByUser h s user fuel root) o
      (fun finished o' => (fuel ≠ 0 → finished = true) ∧ o' = o) (fun _ o' => o' = o) := by
  cases fuel with
  | zero => exact ⟨fun hne => absurd rfl hne, rfl⟩
  | succ fuel =>
    have hvisit : Ends (visitDirectory h s user root []) o (fun stack o' => stack = [] ∧ o' = o)
        (fun _ o' => o' = o) := by
      unfold visitDirectory
      split
      next => exact ⟨rfl, rfl⟩
      next => rfl
      next dir hdir =>
        exfalso
        unfold openDirectoryIfExists at hdir
        split at hdir
        next dir' hopen => cases hroot.symm.trans (openAmbientDir_calm hopen)
        next => cases hdir
        next => cases hdir
    rw [ensureTreeOwnedByUser, walk]
    refine hvisit.bind ?_
    rintro _ _ ⟨rfl, rfl⟩
    cases fuel <;> exact ⟨fun _ => rfl, rfl⟩

theorem inodesBelow_unopened {e : Errno} (hroot : openAmbientDir h.fs h.cwd none root = .error e) :
    inodesBelow h root = ∅ := by
  ext i
  refine ⟨fun ⟨top, htop, _⟩ => ?_, fun hi => hi.elim⟩
  cases hroot.symm.trans htop

theorem mem_inodesBelow (htop : openAmbientDir h.fs h.cwd none root = .ok top) {name : OsString}
    (hnode : h.fs.node (name :: (rel ++ top)) ≠ none) :
    h.inode (name :: (rel ++ top)) ∈ inodesBelow h root :=
  ⟨top, htop, name, rel, hnode, rfl⟩

theorem target_eq (htop : openAmbientDir h.fs h.cwd none root = .ok top) {name : OsString}
    {node : Node OsString} (hnode : h.fs.node (name :: (rel ++ top)) = some node)
    (hlink : node.isSymlink = false) (hne : target h root (name :: rel) ≠ none) :
    target h root (name :: rel) = some (name :: (rel ++ top)) := by
  rw [target] at hne ⊢
  split
  next =>
    rw [metadata_entry htop hnode hlink]
    rfl
  next hutf8 => exact absurd (if_neg hutf8) hne

theorem target_node {x : List OsString} {l : Location OsString}
    (hl : target h root x = some l) :
    ∃ node, h.fs.node l = some node ∧ node.isSymlink = false := by
  cases x with
  | nil => cases hl
  | cons name rel =>
    rw [target] at hl
    split at hl
    next =>
      cases hmeta : metadata h.fs h.cwd none (entryPath root (name :: rel)) with
      | error e =>
        rw [hmeta] at hl
        cases hl
      | ok l' =>
        rw [hmeta] at hl
        obtain rfl := Option.some.inj hl
        refine (names_of_lookup hmeta).2.node ?_
        unfold Path.start
        split
        · exact h.fs.isDir_root
        · exact h.isDir_cwd
    next => cases hl

theorem targetsOf_eq (htop : openAmbientDir h.fs h.cwd none root = .ok top)
    (hplain : Plain h root top) {o₀ o : Owners} {done : List (List OsString)}
    (hp : Progress h root top user o₀ done [] o) : targetsOf h root top done = inodesBelow h root := by
  have htarget : ∀ rel name, Listed h top rel → h.fs.node (name :: (rel ++ top)) ≠ none →
      target h root (name :: rel) = some (name :: (rel ++ top)) := by
    intro rel name hrel hnode
    obtain ⟨node, hsome⟩ := Option.ne_none_iff_exists'.mp hnode
    exact target_eq htop hsome (hplain.1 rel name node hrel hsome)
      (hp.clear rel (hp.complete hrel) name hnode)
  ext i
  constructor
  · rintro ⟨rel, hrel, name, hname, l, hl, rfl⟩
    have hnode := FileSystem.mem_children.mp hname
    have hlisted := hp.listed rel (List.mem_append_left _ hrel)
    rw [htarget rel name hlisted hnode] at hl
    obtain rfl := Option.some.inj hl
    exact mem_inodesBelow htop hnode
  · intro hi
    obtain ⟨rel, name, hrel, hnode, rfl⟩ := hplain.2 i hi
    exact ⟨rel, hp.complete hrel, name, FileSystem.mem_children.mpr hnode, _,
      htarget rel name hrel hnode, rfl⟩

theorem reachable_subset (hconfined : Confined h root top) :
    reachable h root top ⊆ inodesBelow h root := by
  rintro i ⟨rel, hrel, hbehind, name, hname, l, hl, rfl⟩
  by_contra hi
  exact hbehind (hconfined rel name l hrel (FileSystem.mem_children.mp hname) hl hi)

theorem ownsTree_of_confined (htop : openAmbientDir h.fs h.cwd none root = .ok top)
    (hconfined : Confined h root top) (hends : Refuses h root top ∨ Plain h root top) :
    OwnsTree h user root := by
  have hspec := fun s fuel o => walk_spec (s := s) htop (progress_init user o) fuel
  constructor
  · refine ⟨h.fs.table.keys.length, fun fuel hfuel s o o' hrun => ?_⟩
    have := ((ends_of_ok hrun).mp (hspec s fuel o)).2.1 rfl
    rw [List.length_nil] at this
    omega
  · intro s fuel o o' hrun
    obtain ⟨done, hp⟩ := ((ends_of_ok hrun).mp (hspec s fuel o)).1 rfl
    rcases hends with ⟨rel, name, hrel, hnode, hnone⟩ | hplain
    · exact absurd hnone (hp.clear rel (hp.complete hrel) name hnode)
    · exact targetsOf_eq htop hplain hp ▸ hp.given
  · intro s fuel o i hi
    have hframe := ((hspec s fuel o).mono (fun _ _ hok => hok.2.2) fun _ _ herr => herr).final
    obtain ⟨T, hT, hgiven⟩ := hframe
    exact (hgiven i).2 fun hmem => hi (reachable_subset hconfined (hT hmem))

/-- An owner that is not the user. -/
def User.other (user : User) : User := ⟨user.uid + 1, user.gid⟩

theorem User.other_ne (user : User) : user.other ≠ user := fun heq =>
  absurd (congrArg User.uid heq) (Nat.succ_ne_self user.uid)

theorem confined_of_ownsTree (hlaw : OwnsTree h user root)
    (htop : openAmbientDir h.fs h.cwd none root = .ok top) : Confined h root top := by
  intro rel name l hrel hnode hl hout
  by_contra hbehind
  have hrun := (walk_detour user htop hrel hbehind hnode hl (List.append_nil rel).symm []
    fun _ => user.other).final
  exact user.other_ne ((hlaw.frame _ _ _ _ hout).symm.trans hrun)

theorem plain_of_ownsTree (hlaw : OwnsTree h user root)
    (htop : openAmbientDir h.fs h.cwd none root = .ok top) (hrefuses : ¬ Refuses h root top) :
    Plain h root top := by
  have hall : ∀ rel name, Listed h top rel → h.fs.node (name :: (rel ++ top)) ≠ none →
      target h root (name :: rel) ≠ none :=
    fun rel name hrel hnode hnone => hrefuses ⟨rel, name, hrel, hnode, hnone⟩
  -- a run without faults comes to its end
  let s : Schedule := ⟨fun _ => [], fun _ => none, fun _ => none, fun _ _ => none, fun _ => none⟩
  have hcalm : s.Calm := ⟨fun _ => rfl, fun _ => rfl, fun _ _ => rfl, fun _ => rfl⟩
  let o : Owners := fun _ => user.other
  have hp₀ : Progress h root top user o [] [[]] o := progress_init user o
  have hok := walk_calm hcalm htop hall hp₀ h.fs.table.keys.length
  have hspec := walk_spec (s := s) htop hp₀ h.fs.table.keys.length
  have hgives : ∃ done o', Progress h root top user o done [] o' ∧
      ∀ i ∈ inodesBelow h root, i ∈ targetsOf h root top done := by
    cases hrun : walk h s user h.fs.table.keys.length ([[]].map (entryPath root)) o with
    | error e o' =>
      rw [ends_of_error hrun] at hok
      exact hok.elim
    | ok finished o' =>
      obtain ⟨hfinished, hfuel, -⟩ := (ends_of_ok hrun).mp hspec
      cases finished with
      | false =>
        have := hfuel rfl
        rw [List.length_nil] at this
        omega
      | true =>
        obtain ⟨done, hp⟩ := hfinished rfl
        refine ⟨done, o', hp, fun i hi => ?_⟩
        by_contra hno
        have hgiven := ((hlaw.complete _ _ _ _ hrun) i).1 hi
        exact user.other_ne (((hp.given i).2 hno).symm.trans hgiven)
  obtain ⟨done, o', hp, hcovers⟩ := hgives
  have hlinks : ∀ rel name node, Listed h top rel →
      h.fs.node (name :: (rel ++ top)) = some node → node.isSymlink = false := by
    intro rel name node hrel hnode
    have hne : h.fs.node (name :: (rel ++ top)) ≠ none := hnode ▸ Option.some_ne_none _
    -- the inode of a link would have to be the target of an entry, and no target is a link
    obtain ⟨rel', -, name', -, l, hl, hinode⟩ := hcovers _ (mem_inodesBelow htop hne)
    obtain ⟨node', hnode', hlink⟩ := target_node hl
    have heq := h.hardlinks l _ (hnode' ▸ Option.some_ne_none _) hne hinode
    rw [hnode, hnode'] at heq
    exact Option.some.inj heq ▸ hlink
  refine ⟨hlinks, fun i hi => ?_⟩
  obtain ⟨rel, hrel, name, hname, l, hl, rfl⟩ := hcovers i hi
  have hlisted := hp.listed rel (List.mem_append_left _ hrel)
  have hnode := FileSystem.mem_children.mp hname
  obtain ⟨node, hsome⟩ := Option.ne_none_iff_exists'.mp hnode
  have htarget := target_eq htop hsome (hlinks rel name node hlisted hsome)
    (hall rel name hlisted hnode)
  rw [hl] at htarget
  obtain rfl := Option.some.inj htarget
  exact ⟨rel, name, hlisted, hnode, rfl⟩

/-- **When the walk gives away exactly the tree.** For each file system with its links, hard links and
inodes, and each root: whatever the order of the listings and whatever calls fail, the walk ends, a
successful walk makes the user the owner of the inodes below the root and of no other, and no walk
gives away another inode, if and only if there is no directory at the root, or each entry whose path
leads out of the tree is behind a refusal, and the walk comes to a refusal or to no link at all and
to all inodes. -/
theorem ownsTree_iff (h : Host) (user : User) (root : Utf8Path) :
    OwnsTree h user root ↔ ∀ top, openAmbientDir h.fs h.cwd none root = .ok top →
      Confined h root top ∧ (Refuses h root top ∨ Plain h root top) := by
  constructor
  · intro hlaw top htop
    exact ⟨confined_of_ownsTree hlaw htop,
      or_iff_not_imp_left.mpr (plain_of_ownsTree hlaw htop)⟩
  · intro hcond
    cases hroot : openAmbientDir h.fs h.cwd none root with
    | ok top =>
      obtain ⟨hconfined, hends⟩ := hcond top hroot
      exact ownsTree_of_confined hroot hconfined hends
    | error e =>
      have hnothing := inodesBelow_unopened hroot
      constructor
      · refine ⟨1, fun fuel hfuel s o o' hrun => ?_⟩
        have hspec := (ends_of_ok hrun).mp (ensure_unopened hroot fuel o)
        exact Bool.false_ne_true (hspec.1 (Nat.ne_of_gt hfuel))
      · intro s fuel o o' hrun
        obtain ⟨-, rfl⟩ := (ends_of_ok hrun).mp (ensure_unopened hroot fuel o)
        exact hnothing ▸ given_empty o'
      · intro s fuel o i _
        have hspec : Ends (ensureTreeOwnedByUser h s user fuel root) o (fun _ o' => o' = o)
            fun _ o' => o' = o :=
          (ensure_unopened hroot fuel o).mono (fun _ _ hok => hok.2) fun _ _ herr => herr
        exact congrFun hspec.final i

theorem idxOf_injective {fs : FileSystem OsString} {l l' : Location OsString}
    (hl : fs.node l ≠ none) (heq : fs.table.keys.idxOf l = fs.table.keys.idxOf l') : l = l' :=
  (List.idxOf_inj (AList.mem_keys.mp (AList.lookup_isSome.mp
    (Option.isSome_iff_ne_none.mpr hl)))).mp heq

/-- A file system without hard links, whose entries are numbered. -/
def Host.numbered (fs : FileSystem OsString) : Host where
  fs := fs
  cwd := []
  isDir_cwd := fs.isDir_root
  inode := fun l => fs.table.keys.idxOf l
  hardlinks := fun _ _ hl _ heq => by rw [idxOf_injective hl heq]
  reported := fun _ => true

/-- `/data` with a link to `/etc/passwd` in it. -/
def linkedPasswd : FileSystem OsString :=
  .ofList [([osString "etc"], .dir 0o755),
    ([osString "passwd", osString "etc"], .file 0o644 []),
    ([osString "data"], .dir 0o700),
    ([osString "passwd", osString "data"],
      .symlink ⟨true, [.name (osString "etc"), .name (osString "passwd")]⟩)]

/-- The walk over `/data` gives `/etc/passwd` to the user. -/
theorem linked_passwd_given_away :
    final (ensureTreeOwnedByUser (.numbered linkedPasswd) (detour (.numbered linkedPasswd) [] [] [])
        ⟨1000, 1000⟩ 2 (Path.absolute [osString "data"])) (fun _ => ⟨0, 0⟩)
        ((Host.numbered linkedPasswd).inode [osString "passwd", osString "etc"]) = ⟨1000, 1000⟩ ∧
      ¬ OwnsTree (.numbered linkedPasswd) ⟨1000, 1000⟩ (Path.absolute [osString "data"]) := by
  have hrun : final (ensureTreeOwnedByUser (.numbered linkedPasswd)
      (detour (.numbered linkedPasswd) [] [] []) ⟨1000, 1000⟩ 2 (Path.absolute [osString "data"]))
      (fun _ => ⟨0, 0⟩) ((Host.numbered linkedPasswd).inode [osString "passwd", osString "etc"]) =
        ⟨1000, 1000⟩ := by
    decide +kernel
  have hopen : openAmbientDir linkedPasswd [] none (Path.absolute [osString "data"]) =
      .ok [osString "data"] := by
    decide +kernel
  refine ⟨hrun, fun hlaw => ?_⟩
  have hout : (Host.numbered linkedPasswd).inode [osString "passwd", osString "etc"] ∉
      inodesBelow (.numbered linkedPasswd) (Path.absolute [osString "data"]) := by
    rintro ⟨top, htop, name, rel, hnode, hinode⟩
    obtain rfl := Except.ok.inj (hopen.symm.trans htop)
    have hlast := congrArg List.getLast? (idxOf_injective hnode hinode)
    have hne : osString "data" ≠ osString "etc" := by decide +kernel
    rw [← List.cons_append, List.getLast?_concat] at hlast
    exact hne (Option.some.inj hlast)
  exact absurd (hrun.symm.trans (hlaw.frame _ 2 _ _ hout)) (by decide)

end PgEmbeddedSetup.Privileges
