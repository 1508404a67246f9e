import PgEmbeddedSetup.Privileges.Ownership

/-!
# Which inodes the walk gives away

The walk is followed by the directories that it has listed and those on its stack, each named by the
entries from the root down to it (`Progress`). A listed directory has been listed to its end, so each
of its entries had a target, and its directories are listed or on the stack. From this the loop ends
after as many rounds as there are entries, a walk that ends well has listed everything, and a walk
that fails has come to directories only that are not behind an entry without a target (`walk_spec`).
-/

namespace PgEmbeddedSetup.Privileges

open Env Fs Lexical Posix Outcome

/-! ### Entries -/

/-- The path of an entry that is reached from the root by names, the last one first. -/
def entryPath (root : Utf8Path) : List OsString → Utf8Path
  | [] => root
  | name :: rel => (entryPath root rel).join (Path.ofName name)

section Paths

variable {h : Host} {root : Utf8Path} {top : Location OsString}

theorem hops_entryPath (root : Utf8Path) (rel : List OsString) :
    (entryPath root rel).hops = root.hops ++ rel.reverse.map .name := by
  induction rel with
  | nil => exact (List.append_nil _).symm
  | cons name rel ih =>
    rw [entryPath, hops_join rfl, ih, List.reverse_cons, List.map_append, List.append_assoc]
    rfl

theorem start_entryPath (root : Utf8Path) (rel : List OsString) (cwd : Location OsString) :
    (entryPath root rel).start cwd = root.start cwd := by
  induction rel with
  | nil => rfl
  | cons name rel ih => rw [entryPath, start_join rfl, ih]

theorem resolve_root (htop : openAmbientDir h.fs h.cwd none root = .ok top) :
    h.fs.IsDir top ∧ root.isEmpty = false ∧
      h.fs.resolve none false (root.start h.cwd) root.hops = .ok top := by
  obtain ⟨hnames, hdir⟩ := openAmbientDir_ok htop
  obtain ⟨l, hl, htop⟩ := except_bind_eq_ok.mp htop
  have hempty : ¬ root.isEmpty = true := Bool.eq_false_iff.mp hnames.1
  simp only [metadata, lookup, if_neg hempty] at hl
  split at htop
  next =>
    obtain rfl := Except.ok.inj htop
    exact ⟨hdir, hnames.1, hl⟩
  next => cases htop

theorem metadata_entryPath (htop : openAmbientDir h.fs h.cwd none root = .ok top)
    (rel : List OsString) :
    metadata h.fs h.cwd none (entryPath root rel) =
      h.fs.resolve none false (root.start h.cwd) (root.hops ++ rel.reverse.map .name) := by
  have hempty : (entryPath root rel).isEmpty = false := by
    cases rel with
    | nil => exact (resolve_root htop).2.1
    | cons name rel =>
      apply isEmpty_of_hops
      rw [hops_entryPath, List.reverse_cons, List.map_append, ← List.append_assoc]
      exact List.append_ne_nil_of_right_ne_nil _ (List.cons_ne_nil _ _)
  simp only [metadata, lookup, hempty, Bool.false_eq_true, if_false, hops_entryPath,
    start_entryPath]

theorem metadata_dir (htop : openAmbientDir h.fs h.cwd none root = .ok top) {rel : List OsString}
    (hrel : h.fs.IsDir (rel ++ top)) :
    metadata h.fs h.cwd none (entryPath root rel) = .ok (rel ++ top) := by
  obtain ⟨hdir, -, hresolve⟩ := resolve_root htop
  rw [metadata_entryPath htop, FileSystem.resolve_dirs hresolve hdir hrel]

theorem metadata_entry (htop : openAmbientDir h.fs h.cwd none root = .ok top)
    {rel : List OsString} {name : OsString} {node : Node OsString}
    (hnode : h.fs.node (name :: (rel ++ top)) = some node) (hlink : node.isSymlink = false) :
    metadata h.fs h.cwd none (entryPath root (name :: rel)) = .ok (name :: (rel ++ top)) := by
  obtain ⟨hdir, -, hresolve⟩ := resolve_root htop
  rw [metadata_entryPath htop, FileSystem.resolve_entry hresolve hdir hnode hlink]

end Paths

/-! ### Giving inodes to the user -/

section Given

variable (user : User)

/-- The user owns the inodes of `T`, and the others have the owners that they had. -/
def Given (T : Set Ino) (o o' : Owners) : Prop :=
  ∀ i, (i ∈ T → o' i = user) ∧ (i ∉ T → o' i = o i)

variable {user} {T T' : Set Ino} {o o' o'' : Owners}

theorem given_empty (o : Owners) : Given user ∅ o o := fun _ => ⟨fun hi => hi.elim, fun _ => rfl⟩

theorem given_update (o : Owners) (i : Ino) : Given user {i} o (Function.update o i user) := by
  intro j
  constructor
  · rintro rfl
    exact Function.update_self ..
  · intro hj
    exact Function.update_of_ne hj ..

theorem Given.trans (h : Given user T o o') (h' : Given user T' o' o'') :
    Given user (T ∪ T') o o'' := by
  intro i
  by_cases hi' : i ∈ T'
  · exact ⟨fun _ => (h' i).1 hi', fun hi => absurd (Or.inr hi') hi⟩
  · rw [(h' i).2 hi']
    refine ⟨fun hi => (h i).1 (hi.resolve_right hi'), fun hi => (h i).2 fun hT => hi (Or.inl hT)⟩

end Given

/-! ### One directory -/

section Tree

variable (h : Host) (root : Utf8Path) (top : Location OsString)

/-- Where `chown` finds an entry, if its path is UTF-8 and leads somewhere. -/
def target : List OsString → Option (Location OsString)
  | [] => none
  | name :: rel =>
    if isUtf8 name then (metadata h.fs h.cwd none (entryPath root (name :: rel))).toOption
    else none

/-- The inodes of the targets of some entries of the directory `rel`. -/
def targets (rel names : List OsString) : Set Ino :=
  {i | ∃ name ∈ names, ∃ l, target h root (name :: rel) = some l ∧ h.inode l = i}

/-- The entries of a directory in the order in which they are visited. -/
def listing (s : Schedule) (rel : List OsString) : List OsString :=
  FileSystem.arrange (s.order (rel ++ top)) (h.fs.children (rel ++ top))

theorem listing_perm (s : Schedule) (rel : List OsString) :
    (listing h top s rel).Perm (h.fs.children (rel ++ top)) :=
  FileSystem.arrange_perm _ _

/-- The directories that a listing puts on the stack. -/
def pushed (rel names : List OsString) : List (List OsString) :=
  (names.filter fun name => isDirectory h (name :: (rel ++ top))).reverse.map (· :: rel)

end Tree

variable {h : Host} {s : Schedule} {user : User} {root : Utf8Path} {top : Location OsString}
  {rel : List OsString}

theorem targets_nil : targets h root rel [] = ∅ := by
  ext i
  simp [targets]

theorem targets_cons {name : OsString} {names : List OsString} {l : Location OsString}
    (hl : target h root (name :: rel) = some l) :
    targets h root rel (name :: names) = {h.inode l} ∪ targets h root rel names := by
  ext i
  constructor
  · rintro ⟨name', hname, l', hl', rfl⟩
    rcases List.mem_cons.mp hname with rfl | hname
    · exact Or.inl (congrArg h.inode (Option.some.inj (hl'.symm.trans hl)))
    · exact Or.inr ⟨name', hname, l', hl', rfl⟩
  · rintro (rfl | ⟨name', hname, l', hl', rfl⟩)
    · exact ⟨name, List.mem_cons_self, l, hl, rfl⟩
    · exact ⟨name', List.mem_cons_of_mem _ hname, l', hl', rfl⟩

theorem pushed_cons (name : OsString) (names : List OsString) (stack : List Utf8Path) :
    (pushed h top rel (name :: names)).map (entryPath root) ++ stack =
      (pushed h top rel names).map (entryPath root) ++
        (if isDirectory h (name :: (rel ++ top)) then entryPath root (name :: rel) :: stack
          else stack) := by
  unfold pushed
  rw [List.filter_cons]
  split
  next => simp
  next => rfl

/-- A listing gives the targets of the entries it comes to, and if it comes to the end, every entry
has a target. -/
theorem visitEntries_spec (i : Nat) (names : List OsString) (stack : List Utf8Path)
    (o : Owners) :
    Ends (visitEntries h s user (entryPath root rel) (rel ++ top) i names stack) o
      (fun stack' o' => (∀ name ∈ names, target h root (name :: rel) ≠ none) ∧
        stack' = (pushed h top rel names).map (entryPath root) ++ stack ∧
        Given user (targets h root rel names) o o')
      (fun _ o' => ∃ T ⊆ targets h root rel names, Given user T o o') := by
  induction names generalizing i stack o with
  | nil =>
    rw [visitEntries]
    split
    next => exact ⟨∅, Set.empty_subset _, given_empty o⟩
    next =>
      rw [ends_pure, targets_nil]
      exact ⟨nofun, rfl, given_empty o⟩
  | cons name names ih =>
    rw [visitEntries]
    split
    next => exact ⟨∅, Set.empty_subset _, given_empty o⟩
    next =>
      unfold resolveEntryPath
      split
      next hutf8 =>
        show Ends (chownEntry h s user (entryPath root (name :: rel)) >>= _) o _ _
        cases hmeta : metadata h.fs h.cwd (s.chownFault (entryPath root (name :: rel)))
          (entryPath root (name :: rel)) with
        | error e =>
          have hchown : chownEntry h s user (entryPath root (name :: rel)) o =
              .error (.chown (entryPath root (name :: rel)) e) o := by
            rw [chownEntry, hmeta]
          rw [ends_of_error (bind_error hchown)]
          exact ⟨∅, Set.empty_subset _, given_empty o⟩
        | ok l =>
          have htarget : target h root (name :: rel) = some l := by
            cases hfault : s.chownFault (entryPath root (name :: rel)) with
            | some f =>
              rw [hfault] at hmeta
              cases hmeta
            | none =>
              rw [hfault] at hmeta
              rw [target, if_pos hutf8, hmeta]
              rfl
          have hchown : Ends (chownEntry h s user (entryPath root (name :: rel))) o
              (fun _ o' => o' = Function.update o (h.inode l) user) fun _ _ => False := by
            rw [Ends, chownEntry, hmeta]
          refine (hchown.mono (fun _ _ h => h) fun _ _ h => h.elim).bind ?_
          rintro _ _ rfl
          rw [targets_cons htarget, pushed_cons]
          refine (ih (i + 1) _ _).mono ?_ ?_
          · rintro stack' o' ⟨hall, hstack, hgiven⟩
            refine ⟨?_, hstack, (given_update o _).trans hgiven⟩
            rintro name' (_ | ⟨_, hname⟩)
            · exact htarget ▸ Option.some_ne_none l
            · exact hall name' hname
          · rintro e o' ⟨T, hT, hgiven⟩
            exact ⟨_, Set.union_subset_union_right _ hT, (given_update o _).trans hgiven⟩
      next => exact ⟨∅, Set.empty_subset _, given_empty o⟩

/-- A round of the loop lists a directory to its end, or the walk fails in the middle of it. -/
theorem visitDirectory_spec (user : User) (htop : openAmbientDir h.fs h.cwd none root = .ok top)
    (hrel : h.fs.IsDir (rel ++ top)) (stack : List Utf8Path) (o : Owners) :
    Ends (visitDirectory h s user (entryPath root rel) stack) o
      (fun stack' o' => (∀ name ∈ listing h top s rel, target h root (name :: rel) ≠ none) ∧
        stack' = (pushed h top rel (listing h top s rel)).map (entryPath root) ++ stack ∧
        Given user (targets h root rel (listing h top s rel)) o o')
      (fun _ o' => ∃ T ⊆ targets h root rel (h.fs.children (rel ++ top)), Given user T o o') := by
  unfold visitDirectory
  cases hfault : s.openFault (entryPath root rel) with
  | some f =>
    have hopen : openDirectoryIfExists h s (entryPath root rel) =
        some (.error (.openDirectory (entryPath root rel) (.fault f))) := by
      unfold openDirectoryIfExists openAmbientDir
      rw [hfault]
      rfl
    rw [hopen]
    exact ⟨∅, Set.empty_subset _, given_empty o⟩
  | none =>
    have hopen : openDirectoryIfExists h s (entryPath root rel) = some (.ok (rel ++ top)) := by
      unfold openDirectoryIfExists openAmbientDir
      rw [hfault]
      simp only [metadata_dir htop hrel, bind, Except.bind, if_pos hrel]
    rw [hopen]
    dsimp only
    split
    next => exact ⟨∅, Set.empty_subset _, given_empty o⟩
    next =>
      refine (visitEntries_spec 0 _ stack o).mono (fun _ _ hok => hok) ?_
      rintro _ o' ⟨T, hT, hgiven⟩
      refine ⟨T, fun i hi => ?_, hgiven⟩
      obtain ⟨name, hname, l, hl⟩ := hT hi
      exact ⟨name, (listing_perm h top s rel).mem_iff.mp hname, l, hl⟩

/-! ### The loop -/

section Tree

variable (h : Host) (root : Utf8Path) (top : Location OsString)

/-- The directories that the walk lists if nothing fails: those that the listing of a listed
directory reports. -/
inductive Listed : List OsString → Prop
  | root : Listed []
  | entry {rel : List OsString} {name : OsString} (hrel : Listed rel)
      (hdir : isDirectory h (name :: (rel ++ top)) = true) : Listed (name :: rel)

/-- A directory on the way down to `rel` has an entry without a target. It is listed to its end
before the walk goes on, so the walk does not come to `rel`. -/
def BehindRefusal (rel : List OsString) : Prop :=
  ∃ rel', rel' <:+ rel ∧ rel' ≠ rel ∧
    ∃ name, h.fs.node (name :: (rel' ++ top)) ≠ none ∧ target h root (name :: rel') = none

/-- What the entries of the directories that the walk can come to give away. -/
def reachable : Set Ino :=
  {i | ∃ rel, Listed h top rel ∧ ¬ BehindRefusal h root top rel ∧
    i ∈ targets h root rel (h.fs.children (rel ++ top))}

/-- What the entries of the directories of a list give away. -/
def targetsOf (dirs : List (List OsString)) : Set Ino :=
  {i | ∃ rel ∈ dirs, i ∈ targets h root rel (h.fs.children (rel ++ top))}

/-- Where the loop stands: `done` are the directories that it has listed, `todo` is the stack, and the
owners were `o₀` at first. -/
structure Progress (user : User) (o₀ : Owners) (done todo : List (List OsString)) (o : Owners) :
    Prop where
  listed : ∀ rel ∈ done ++ todo, Listed h top rel
  nodup : (done ++ todo).Nodup
  start : [] ∈ done ++ todo
  parent : ∀ name rel, name :: rel ∈ done ++ todo → rel ∈ done
  closed : ∀ rel ∈ done, ∀ name, isDirectory h (name :: (rel ++ top)) = true →
    name :: rel ∈ done ++ todo
  clear : ∀ rel ∈ done, ∀ name, h.fs.node (name :: (rel ++ top)) ≠ none →
    target h root (name :: rel) ≠ none
  given : Given user (targetsOf h root top done) o₀ o

end Tree

theorem mem_pushed {names : List OsString} {rel' : List OsString} :
    rel' ∈ pushed h top rel names ↔
      ∃ name ∈ names, isDirectory h (name :: (rel ++ top)) = true ∧ rel' = name :: rel := by
  simp only [pushed, List.mem_map, List.mem_reverse, List.mem_filter, and_assoc, eq_comm]

theorem isDir_of_isDirectory {l : Location OsString} (hl : isDirectory h l = true) :
    h.fs.IsDir l := by
  rw [isDirectory, Bool.and_eq_true] at hl
  exact of_decide_eq_true hl.2

theorem Listed.isDir (htop : h.fs.IsDir top) (hrel : Listed h top rel) :
    h.fs.IsDir (rel ++ top) := by
  cases hrel with
  | root => exact htop
  | entry _ hdir => exact isDir_of_isDirectory hdir

namespace Progress

variable {o₀ o : Owners} {done todo : List (List OsString)}

theorem above (hp : Progress h root top user o₀ done todo o) {rel' : List OsString}
    (hrel : rel ∈ done ++ todo) (hsuffix : rel' <:+ rel) (hne : rel' ≠ rel) : rel' ∈ done := by
  induction rel with
  | nil => exact absurd (List.suffix_nil.mp hsuffix) hne
  | cons name rel ih =>
    have hdone := hp.parent name rel hrel
    rcases List.suffix_cons_iff.mp hsuffix with rfl | hsuffix
    · exact absurd rfl hne
    · by_cases heq : rel' = rel
      · exact heq ▸ hdone
      · exact ih (List.mem_append_left _ hdone) hsuffix heq

theorem not_behind (hp : Progress h root top user o₀ done todo o) (hrel : rel ∈ done ++ todo) :
    ¬ BehindRefusal h root top rel := by
  rintro ⟨rel', hsuffix, hne, name, hnode, hnone⟩
  exact hp.clear rel' (hp.above hrel hsuffix hne) name hnode hnone

theorem frame (hp : Progress h root top user o₀ done todo o) :
    ∃ T ⊆ reachable h root top, Given user T o₀ o := by
  refine ⟨_, ?_, hp.given⟩
  rintro i ⟨rel, hrel, hi⟩
  have hmem := List.mem_append_left todo hrel
  exact ⟨rel, hp.listed rel hmem, hp.not_behind hmem, hi⟩

theorem step (hp : Progress h root top user o₀ done (rel :: todo) o)
    (hall : ∀ name ∈ listing h top s rel, target h root (name :: rel) ≠ none) {o' : Owners}
    (hgiven : Given user (targets h root rel (listing h top s rel)) o o') :
    Progress h root top user o₀ (rel :: done) (pushed h top rel (listing h top s rel) ++ todo)
      o' := by
  have hperm := listing_perm h top s rel
  generalize listing h top s rel = names at hall hgiven hperm ⊢
  have hmem : ∀ rel', rel' ∈ rel :: done ++ (pushed h top rel names ++ todo) ↔
      rel' ∈ pushed h top rel names ∨ rel' ∈ done ++ rel :: todo := by
    intro rel'
    simp only [List.mem_append, List.mem_cons, List.cons_append]
    tauto
  have hrel : rel ∈ done ++ rel :: todo :=
    List.mem_append_right _ List.mem_cons_self
  have hfresh : rel ∉ done := fun hin =>
    (List.nodup_append.mp hp.nodup).2.2 rel hin rel List.mem_cons_self rfl
  constructor
  · intro rel' hrel'
    rcases (hmem rel').mp hrel' with hpushed | hold
    · obtain ⟨name, -, hdir, rfl⟩ := mem_pushed.mp hpushed
      exact .entry (hp.listed rel hrel) hdir
    · exact hp.listed rel' hold
  · have hperm' : (rel :: done ++ (pushed h top rel names ++ todo)).Perm
        (pushed h top rel names ++ (done ++ rel :: todo)) :=
      (List.perm_append_comm_assoc _ _ _).trans (List.perm_middle.symm.append_left _)
    rw [hperm'.nodup_iff, List.nodup_append]
    refine ⟨?_, hp.nodup, ?_⟩
    · refine List.Nodup.map (fun a b hab => List.head_eq_of_cons_eq hab) ?_
      rw [List.nodup_reverse]
      exact (hperm.nodup_iff.mpr (h.fs.nodup_children _)).filter _
    · rintro rel' hpushed _ hold rfl
      obtain ⟨name, -, -, rfl⟩ := mem_pushed.mp hpushed
      exact hfresh (hp.parent name rel hold)
  · exact (hmem []).mpr (Or.inr hp.start)
  · intro name rel' hrel'
    rcases (hmem _).mp hrel' with hpushed | hold
    · obtain ⟨name', -, -, heq⟩ := mem_pushed.mp hpushed
      rw [List.tail_eq_of_cons_eq heq]
      exact List.mem_cons_self
    · exact List.mem_cons_of_mem _ (hp.parent name rel' hold)
  · intro rel' hrel' name hdir
    rw [hmem]
    rcases List.mem_cons.mp hrel' with rfl | hrel'
    · refine Or.inl (mem_pushed.mpr ⟨name, ?_, hdir, rfl⟩)
      rw [hperm.mem_iff, FileSystem.mem_children]
      exact (isDir_of_isDirectory hdir).ne_none
    · exact Or.inr (hp.closed rel' hrel' name hdir)
  · intro rel' hrel' name hnode
    rcases List.mem_cons.mp hrel' with rfl | hrel'
    · exact hall name (hperm.mem_iff.mpr (FileSystem.mem_children.mpr hnode))
    · exact hp.clear rel' hrel' name hnode
  · have htargets : targetsOf h root top (rel :: done) =
        targetsOf h root top done ∪ targets h root rel names := by
      ext i
      constructor
      · rintro ⟨rel', hrel', name, hname, hi⟩
        rcases List.mem_cons.mp hrel' with rfl | hrel'
        · exact Or.inr ⟨name, hperm.mem_iff.mpr hname, hi⟩
        · exact Or.inl ⟨rel', hrel', name, hname, hi⟩
      · rintro (⟨rel', hrel', hi⟩ | ⟨name, hname, hi⟩)
        · exact ⟨rel', List.mem_cons_of_mem _ hrel', hi⟩
        · exact ⟨rel, List.mem_cons_self, name, hperm.mem_iff.mp hname, hi⟩
    rw [htargets]
    exact hp.given.trans hgiven

theorem length_le (hp : Progress h root top user o₀ done todo o) (htop : h.fs.IsDir top) :
    (done ++ todo).length ≤ h.fs.table.keys.length := by
  have hinj : ((done ++ todo).map (· ++ top)).Nodup :=
    hp.nodup.map fun a b hab => List.append_cancel_right hab
  have hlength : ((done ++ todo).map (· ++ top)).length = (done ++ todo).length := List.length_map _
  rw [← hlength]
  refine (List.subperm_of_subset hinj ?_).length_le
  intro l hl
  obtain ⟨rel, hrel, rfl⟩ := List.mem_map.mp hl
  obtain ⟨mode, hmode⟩ := FileSystem.isDir_iff.mp ((hp.listed rel hrel).isDir htop)
  rw [← AList.mem_keys, ← AList.lookup_isSome]
  exact Option.isSome_iff_exists.mpr ⟨_, hmode⟩

end Progress

variable {o₀ o : Owners} {done todo : List (List OsString)}

/-- The loop from where it stands: it has listed everything, or `fuel` rounds were too few and less
than the number of entries, or it has failed. In each case it has given away targets of directories
that it can come to. -/
theorem walk_spec (htop : openAmbientDir h.fs h.cwd none root = .ok top)
    (hp : Progress h root top user o₀ done todo o) (fuel : Nat) :
    Ends (walk h s user fuel (todo.map (entryPath root))) o
      (fun finished o' => (finished = true → ∃ done', Progress h root top user o₀ done' [] o') ∧
        (finished = false → done.length + fuel < h.fs.table.keys.length) ∧
        ∃ T ⊆ reachable h root top, Given user T o₀ o')
      (fun _ o' => ∃ T ⊆ reachable h root top, Given user T o₀ o') := by
  obtain ⟨hdir, -⟩ := resolve_root htop
  induction fuel generalizing done todo o with
  | zero =>
    cases todo with
    | nil => exact ⟨fun _ => ⟨done, hp⟩, nofun, hp.frame⟩
    | cons rel todo =>
      refine ⟨nofun, fun _ => ?_, hp.frame⟩
      have := hp.length_le hdir
      rw [List.length_append, List.length_cons] at this
      omega
  | succ fuel ih =>
    cases todo with
    | nil => exact ⟨fun _ => ⟨done, hp⟩, nofun, hp.frame⟩
    | cons rel todo =>
      have hrel : rel ∈ done ++ rel :: todo := List.mem_append_right _ List.mem_cons_self
      rw [List.map_cons, walk]
      refine Ends.bind (Ends.mono (visitDirectory_spec user htop ((hp.listed rel hrel).isDir hdir) _ o)
        (fun _ _ h => h) ?_) ?_
      · rintro _ o' ⟨T, hT, hgiven⟩
        refine ⟨_, Set.union_subset ?_ (hT.trans ?_), hp.given.trans hgiven⟩
        · rintro i ⟨rel', hrel', hi⟩
          have hmem := List.mem_append_left (rel :: todo) hrel'
          exact ⟨rel', hp.listed rel' hmem, hp.not_behind hmem, hi⟩
        · exact fun i hi => ⟨rel, hp.listed rel hrel, hp.not_behind hrel, hi⟩
      · rintro _ o' ⟨hall, rfl, hgiven⟩
        rw [← List.map_append]
        refine (ih (hp.step hall hgiven)).mono ?_ fun _ _ h => h
        rintro finished o'' ⟨hfinished, hfuel, hframe⟩
        refine ⟨hfinished, fun hf => ?_, hframe⟩
        have := hfuel hf
        rw [List.length_cons] at this
        omega

theorem progress_init (user : User) (o : Owners) :
    Progress h root top user o [] [[]] o where
  listed := by
    rintro rel hrel
    rw [List.mem_singleton.mp hrel]
    exact .root
  nodup := List.nodup_singleton []
  start := List.mem_singleton_self []
  parent := fun name rel hrel => absurd (List.mem_singleton.mp hrel) (List.cons_ne_nil _ _)
  closed := nofun
  clear := nofun
  given := by
    have hnone : targetsOf h root top [] = ∅ := by
      ext i
      exact ⟨fun ⟨rel, hrel, _⟩ => absurd hrel List.not_mem_nil, fun hi => hi.elim⟩
    rw [hnone]
    exact given_empty o

theorem Progress.complete (hp : Progress h root top user o₀ done [] o) (hrel : Listed h top rel) :
    rel ∈ done := by
  have hstart := hp.start
  have hclosed := hp.closed
  rw [List.append_nil] at hstart hclosed
  induction hrel with
  | root => exact hstart
  | entry _ hdir ih => exact hclosed _ ih _ hdir

end PgEmbeddedSetup.Privileges
