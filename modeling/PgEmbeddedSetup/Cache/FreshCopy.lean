import PgEmbeddedSetup.Cache.Repair

/-!
# Copying to a new target

A copy in which no call fails, to a target that is missing or empty. `create_dir_all` makes the target
and the directories above it that are missing, and then the recursive copy makes the target equal to
the source (`copyFromCache_equals`).
-/

namespace PgEmbeddedSetup.Cache

open Env Fs Posix FileSystem Program Crash

/-- No call fails for a reason of its own. -/
def unfailing (umask : Nat) (fs : FileTree) (i : Instr) (x : Choice) : i.Reply × FileTree :=
  exec umask fs i { x with fault := none, cut := none }

def madeMode (umask : Nat) : Nat := maskMode umask 0o777

/-- The path leads to the directory at `l`, or would if the directories on the way from some point on
were made. -/
inductive Creatable (fs : FileTree) : FsPath → Place → Prop
  | there {path : FsPath} {l : Place} (h : fs.Bound path l) : Creatable fs path l
  | missing {path : FsPath} {d : Place} {n : OsString} (rel : Place) (h : fs.Bound path d)
      (hnone : fs.node (n :: d) = none) :
      Creatable fs (rel.map .name ++ .name n :: path) (rel ++ n :: d)

/-- The tree with the directories at and above `T` that were missing. -/
def MadeWay (umask : Nat) (T : Place) (fs fs' : FileTree) : Prop :=
  ∀ l, fs'.node l =
    if l <:+ T ∧ fs.node l = none then some (.dir (madeMode umask)) else fs.node l

variable {umask : Nat} {fs fs' : FileTree} {S T d : Place} {path : FsPath} {n : OsString}

/-! ### Nothing is refused -/

theorem may_privileged {u : User} (h : u.privileged = true) (bits : Nat) (l : Place) :
    u.may T fs bits l = true := by
  rw [User.may, h, Bool.true_or, Bool.true_or]

theorem reaches_privileged {u : User} (h : u.privileged = true) (l : Place) :
    u.reaches T fs l = true := by
  induction l with
  | nil => rfl
  | cons n l ih => rw [User.reaches, may_privileged h, ih, Bool.and_self]

theorem enters_privileged {u : User} (h : u.privileged = true) (l : Place) :
    u.enters T fs l = true := by
  rw [User.enters, reaches_privileged h, may_privileged h, Bool.or_true, Bool.and_self]

theorem overwrites_privileged {u : User} (h : u.privileged = true) (l : Place) :
    u.overwrites T fs l = true := by
  rw [User.overwrites, enters_privileged h, may_privileged h, Bool.or_true, Bool.and_self]

theorem denied_privileged {u : User} (h : u.privileged = true) (i : Instr) :
    u.denied T fs i = false := by
  cases i <;> simp only [User.denied] <;> split <;>
    simp [reaches_privileged h, enters_privileged h, overwrites_privileged h]

theorem sem_privileged (umask : Nat) (T : Place) :
    (refusals ⟨true, umask⟩ T).sem = unfailing umask := by
  funext fs i x
  show exec umask fs i (User.settle ⟨true, umask⟩ T fs i x) = _
  rw [User.settle, denied_privileged rfl]
  rfl

theorem ready_privileged {u : User} (h : u.privileged = true)
    (hlinks : ∀ z target, fs.node (z ++ S) = some (.symlink target) → fs.node (z ++ T) = none) :
    Ready u S T [] fs := by
  intro z g hg
  rw [List.append_nil] at hg ⊢
  cases g with
  | dir mode => exact enters_privileged h _
  | file mode content => exact overwrites_privileged h _
  | symlink target =>
    rw [User.fills, enters_privileged h, hlinks z target hg]
    rfl

/-! ### Making the target -/

theorem MadeWay.isDir_way (h : MadeWay umask T fs fs') {l : Place} (hl : l <:+ T)
    (hnone : fs.node l = none) : fs'.IsDir l := by
  rw [isDir_iff]
  exact ⟨_, by rw [h l, if_pos ⟨hl, hnone⟩]⟩

theorem MadeWay.grows (h : MadeWay umask T fs fs') : fs.Grows fs' := by
  intro l node hnode
  refine ⟨node, ?_, rfl⟩
  rw [h l, if_neg fun hway => Option.some_ne_none node (hnode.symm.trans hway.2), hnode]

theorem MadeWay.off (h : MadeWay umask T fs fs') {l : Place} (hl : ¬ l <:+ T) :
    fs'.node l = fs.node l := by
  rw [h l, if_neg fun hway => hl hway.1]

theorem node_cons_none (h : fs.node d = none) (n : OsString) : fs.node (n :: d) = none := by
  by_contra hne
  exact (isDir_of_node hne).ne_none h

theorem madeWay_there (hdir : fs.IsDir T) : MadeWay umask T fs fs := by
  intro l
  refine (if_neg ?_).symm
  rintro ⟨⟨z, rfl⟩, hnone⟩
  exact ne_none_of_below hdir.ne_none hnone

theorem MadeWay.cons (h : MadeWay umask T fs fs') (hT : fs'.IsDir T) (hnone : fs.node (n :: T) = none) :
    MadeWay umask (n :: T) fs (fs'.set (n :: T) (.dir (madeMode umask))) := by
  have hself : fs'.node (n :: T) = none := by
    rw [h.off fun hl => absurd hl.length_le (by simp), hnone]
  have hwrites := writes_new hself hT (.dir (madeMode umask))
  intro l
  rw [hwrites l]
  by_cases hl : l = n :: T
  · subst hl
    rw [if_pos rfl, if_pos ⟨List.suffix_rfl, hnone⟩]
  · rw [if_neg hl, h l]
    have hiff : l <:+ n :: T ↔ l <:+ T := by
      rw [List.suffix_cons_iff]
      exact or_iff_right hl
    simp only [hiff]

theorem follow_below_missing (h : fs.Bound path d) (hnone : fs.node (n :: d) = none) (rel : Place) :
    fs.follow false (rel.map .name ++ .name n :: path) = .error .notFound := by
  unfold FileSystem.follow
  rw [List.reverse_append, List.reverse_cons, List.append_assoc]
  refine resolve_append h.follow h.isDir fun follow => ?_
  rw [List.singleton_append, followHops, hnone]
  simp

theorem mkdir_way {parent : FsPath} {s : FileTree} (hbound : s.Bound parent T)
    (hway : MadeWay umask T fs s) (hnone : fs.node (n :: T) = none) :
    ∃ s', (∀ x, unfailing umask s (.mkdir (.name n :: parent)) x = (.ok (), s')) ∧
      s'.Bound (.name n :: parent) (n :: T) ∧ MadeWay umask (n :: T) fs s' := by
  have hself : s.node (n :: T) = none := by
    rw [hway.off fun hl => absurd hl.length_le (by simp), hnone]
  have hnext := hway.cons hbound.isDir hnone
  have hgrows : s.Grows (s.set (n :: T) (.dir (madeMode umask))) :=
    grows_set fun old hold => by cases hself.symm.trans hold
  refine ⟨_, fun x => ?_, (hbound.grows hgrows).child (hnext.isDir_way List.suffix_rfl hnone), hnext⟩
  show makeEntry s (.name n :: parent) _ = _
  rw [makeEntry_bound hbound, hself]
  rfl

theorem createDirAll_missing {E : FileTree → Prop} (h : fs.Bound path d)
    (hnone : fs.node (n :: d) = none) (rel : Place) :
    Safely (unfailing umask) (fun _ s => s.Bound (rel.map .name ++ .name n :: path) (rel ++ n :: d) ∧
      MadeWay umask (rel ++ n :: d) fs s) E (fun _ => True)
      (createDirAll (rel.map .name ++ .name n :: path)) fs := by
  induction rel with
  | nil =>
    have hway : MadeWay umask d fs fs := madeWay_there h.isDir
    obtain ⟨s, hact, hs⟩ := mkdir_way h hway hnone
    refine safely_call trivial fun x => ?_
    rw [hact x]
    exact safely_pure hs
  | cons m rel ih =>
    have hmissing : fs.node (m :: (rel ++ n :: d)) = none := by
      refine node_cons_none ?_ m
      clear ih
      induction rel with
      | nil => exact hnone
      | cons m rel ih => exact node_cons_none ih m
    have hfollow := follow_below_missing h hnone rel
    rw [List.map_cons, List.cons_append, List.cons_append]
    generalize rel.map Hop.name ++ .name n :: path = parent at ih hfollow ⊢
    generalize rel ++ n :: d = T at ih hmissing ⊢
    -- The first call finds no parent, which is made then.
    have hact : ∀ x, unfailing umask fs (.mkdir (.name m :: parent)) x = (.error .notFound, fs) :=
      fun x => by
        show makeEntry fs _ _ = _
        rw [makeEntry, FileSystem.locate, hfollow]
    refine safely_call trivial fun x => ?_
    rw [hact x]
    refine Safely.bind ih fun _ s hs => ?_
    obtain ⟨s', hact', hs'⟩ := mkdir_way hs.1 hs.2 hmissing
    refine safely_call trivial fun x => ?_
    rw [hact' x]
    exact safely_pure hs'

theorem createDirAll_creatable {E : FileTree → Prop} (h : Creatable fs path T) :
    Safely (unfailing umask) (fun _ s => s.Bound path T ∧ MadeWay umask T fs s) E (fun _ => True)
      (createDirAll path) fs := by
  cases h with
  | there h =>
    rw [← sem_privileged umask T]
    refine (createDirAll_safely (.there h) trivial fun henters => ?_).mono (fun _ s hs => ?_)
      (fun _ h => h) fun _ h => h
    · have htop := henters trivial
      rw [enters_privileged rfl] at htop
      cases htop
    · obtain rfl : s = fs := hs.1.trans (made_of_ne_none h.isDir.ne_none _)
      exact ⟨h, madeWay_there h.isDir⟩
  | missing rel h hnone => exact createDirAll_missing h hnone rel

/-! ### The copy -/

variable {source target : FsPath} {depth : Nat}

theorem apart_of_fresh (hsrc : fs.Bound source S) (houtside : ¬ S <:+ T)
    (hfresh : ∀ y, fs.node (y ++ T) ≠ none → y = []) : Apart S T := by
  refine ⟨houtside, ?_⟩
  rintro ⟨y, rfl⟩
  obtain rfl := hfresh y hsrc.isDir.ne_none
  exact houtside List.suffix_rfl

theorem fits_fresh {s : FileTree} (hsource : s.IsDir S) (htarget : s.IsDir T)
    (hfresh : ∀ y, s.node (y ++ T) ≠ none → y = []) : Fits S T [] s := by
  obtain ⟨mode, hmode⟩ := isDir_iff.mp hsource
  obtain ⟨mode', hmode'⟩ := isDir_iff.mp htarget
  intro z g o hg ho
  rw [List.append_nil] at hg ho
  obtain rfl := hfresh z (ho ▸ Option.some_ne_none _)
  obtain rfl := Option.some.inj (hmode.symm.trans hg)
  obtain rfl := Option.some.inj (hmode'.symm.trans ho)
  exact Or.inr rfl

/-- What the copy leaves: the target equals the source, and of the rest only the directories above the
target that were missing are new. -/
structure CopiedFresh (umask : Nat) (S T : Place) (fs fs' : FileTree) : Prop where
  equal : ∀ y, fs'.node (y ++ T) = fs.node (y ++ S)
  frame : ∀ l, ¬ T <:+ l → fs'.node l =
    if l <:+ T ∧ fs.node l = none then some (.dir (madeMode umask)) else fs.node l

theorem copyFromCache_fresh (hsrc : fs.Bound source S) (hdst : Creatable fs target T)
    (houtside : ¬ S <:+ T) (hfresh : ∀ y, fs.node (y ++ T) ≠ none → y = [])
    (hdepth : ∀ z, fs.node (z ++ S) ≠ none → z.length < depth) :
    Safely (unfailing umask) (fun _ => CopiedFresh umask S T fs) (fun _ => False) (fun _ => True)
      (copyFromCache depth source target) fs := by
  have hapart := apart_of_fresh hsrc houtside hfresh
  refine Safely.bind (createDirAll_creatable hdst) fun _ s hs => ?_
  obtain ⟨hbound, hway⟩ := hs
  have hsource : ∀ y, s.node (y ++ S) = fs.node (y ++ S) := fun y =>
    hway.off fun hl => houtside ((List.suffix_append y S).trans hl)
  have hempty : ∀ y, s.node (y ++ T) ≠ none → y = [] := by
    intro y hy
    by_contra hne
    have hoff : ¬ y ++ T <:+ T := fun hl => hne (List.append_left_eq_self.mp
      (hl.eq_of_length_le (by simp)))
    exact hne (hfresh y (hway.off hoff ▸ hy))
  obtain ⟨mode, hmode⟩ := isDir_iff.mp (hsrc.grows hway.grows).isDir
  have hfits := fits_fresh (hsrc.grows hway.grows).isDir hbound.isDir hempty
  have hready : Ready ⟨true, umask⟩ S T [] s := by
    refine ready_privileged rfl fun z target hz => ?_
    by_contra hne
    obtain rfl := hempty z hne
    cases hmode.symm.trans hz
  have hcopy := copyDirRecursive_safely (r := refusals ⟨true, umask⟩ T) hapart depth [] source target s
    (hsrc.grows hway.grows) (.there hbound) hfits fun _ z hz => by
      rw [List.append_nil, hsource] at hz
      exact hdepth z hz
  rw [sem_privileged] at hcopy
  refine hcopy.mono (fun _ s' hs' => ?_) (fun s' hs' => hs'.2 trivial hready) fun _ _ => trivial
  refine ⟨fun y => ?_, fun l hl => ?_⟩
  · refine (copied_node (r := refusals ⟨true, umask⟩ T) trivial hs'.1 hs'.2 y).trans ?_
    rw [hsource]
    cases hg : fs.node (y ++ S) with
    | some g => rfl
    | none =>
      show s.node (y ++ T) = none
      by_contra hne
      obtain rfl := hempty y hne
      cases hmode.symm.trans ((hsource []).trans hg)
  · rw [hs'.1.frame l hl, hway l]

/-- **A copy in which no call fails** returns, for every order in which the directories are listed. The
target, which was missing or empty, then equals the source in every node, links and modes included, and
outside it only the directories above that were missing are new. -/
theorem copyFromCache_equals (umask : Nat) (hsrc : fs.Bound source S)
    (hdst : Creatable fs target T) (houtside : ¬ S <:+ T)
    (hfresh : ∀ y, fs.node (y ++ T) ≠ none → y = [])
    (hdepth : ∀ z, fs.node (z ++ S) ≠ none → z.length < depth) (choices : Nat → Choice) :
    let ended := Crash.finish (unfailing umask) choices (copyFromCache depth source target).run fs
    ended.1 = .ok () ∧ CopiedFresh umask S T fs ended.2 := by
  intro ended
  have hsafe : Safely (unfailing umask) (fun _ => CopiedFresh umask S T fs) (fun _ => False)
      (fun _ => True) (copyFromCache depth source target) fs :=
    copyFromCache_fresh hsrc hdst houtside hfresh hdepth
  rcases hsafe.finish choices with ⟨a, hok, hcopied⟩ | ⟨e, -, hfalse⟩
  · exact ⟨hok, hcopied⟩
  · exact hfalse.elim

/-- An entry with a read-only directory, a program in it, and a link that leads nowhere. -/
def cachedEntry : FileTree :=
  .ofList [([osString "cache"], .dir 0o755), ([osString "bin", osString "cache"], .dir 0o555),
    ([osString "postgres", osString "bin", osString "cache"], .file 0o755 [1, 2]),
    ([osString "share", osString "cache"], .symlink ⟨false, [.up, .name (osString "gone")]⟩)]

theorem bound_cachedEntry : cachedEntry.Bound [.name (osString "cache")] [osString "cache"] :=
  (bound_root _).child (by decide +kernel)

theorem creatable_cachedEntry : Creatable cachedEntry
    [.name (osString "17.4.0"), .name (osString "install")] [osString "17.4.0", osString "install"] :=
  .missing [osString "17.4.0"] (bound_root _) (by decide +kernel)

theorem copyFromCache_equals_cachedEntry :
    let ended := Crash.finish (unfailing 0o022) (fun _ => calm)
      (copyFromCache 4 [.name (osString "cache")]
        [.name (osString "17.4.0"), .name (osString "install")]).run cachedEntry
    ended.1 = .ok () ∧
      CopiedFresh 0o022 [osString "cache"] [osString "17.4.0", osString "install"] cachedEntry
        ended.2 :=
  copyFromCache_equals 0o022 bound_cachedEntry creatable_cachedEntry (by decide +kernel)
    (fresh_of_keys (by decide +kernel)) (depth_of_keys (by decide +kernel)) fun _ => calm

/-- The directory above the target is made, which is not in the target. -/
theorem missing_parent_made : ¬ ∀ (umask depth : Nat) (fs : FileTree) (source target : FsPath)
    (S T : Place) (choices : Nat → Choice), fs.Bound source S → Creatable fs target T → ¬ S <:+ T →
    (∀ y, fs.node (y ++ T) ≠ none → y = []) →
    (∀ z, fs.node (z ++ S) ≠ none → z.length < depth) →
    let ended := Crash.finish (unfailing umask) choices (copyFromCache depth source target).run fs
    ended.1 = .ok () ∧ (∀ y, ended.2.node (y ++ T) = fs.node (y ++ S)) ∧
      ∀ l, ¬ T <:+ l → ended.2.node l = fs.node l := by
  intro h
  obtain ⟨-, hequal, hframe⟩ := h 0o022 4 cachedEntry _ _ _ _ (fun _ => calm) bound_cachedEntry
    creatable_cachedEntry (by decide +kernel) (fresh_of_keys (by decide +kernel))
    (depth_of_keys (by decide +kernel))
  generalize (Crash.finish _ _ _ _).2 = s at hequal hframe
  -- The target is there, so what is above it is a directory.
  have hthere : s.node [osString "17.4.0", osString "install"] ≠ none := fun hnone =>
    absurd ((hequal []).symm.trans hnone) (by decide +kernel)
  have hnone : cachedEntry.node [osString "install"] = none := by decide +kernel
  exact (isDir_of_node hthere).ne_none ((hframe _ (by decide +kernel)).trans hnone)

end PgEmbeddedSetup.Cache
