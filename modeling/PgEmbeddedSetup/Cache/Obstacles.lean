import PgEmbeddedSetup.Cache.Endings

/-!
# Targets whose entries are of other kinds

What a recursive copy does between two trees that are apart, where the target may have entries of any
kind but no link in the place of a directory or a file of the source. Most entries of another kind stop
the copy, in every run (`Passable`). One does not: an empty directory of the source is taken as copied
where the target has a file (`copyDirRecursive_handles`).

The copy also ends, after a number of steps that does not depend on how long a path may be
(`copyDirRecursive_bounded`).
-/

namespace PgEmbeddedSetup.Cache

open Env Posix FileSystem Program Crash

/-- What is at `l` in the source can be put where the target has another node. -/
def Takes (fs : FileTree) (l : Place) : Node OsString → Node OsString → Prop
  | .dir _, .dir _ | .file _ _, .file _ _ => True
  | .dir _, .file _ _ => ∀ n, fs.node (n :: l) = none
  | _, _ => False

/-- Nothing of the target is in the way of the source at and below `x`. -/
def Passable (S T x : Place) (fs : FileTree) : Prop :=
  ∀ z g o, fs.node (z ++ x ++ S) = some g → fs.node (z ++ x ++ T) = some o →
    Takes fs (z ++ x ++ S) g o

/-- Where the source has a directory or a file, the target has no link. -/
def Direct (S T x : Place) (fs : FileTree) : Prop :=
  ∀ z g o, fs.node (z ++ x ++ S) = some g → fs.node (z ++ x ++ T) = some o →
    o.isSymlink = true → g.isSymlink = true

/-- A directory of the source has been passed over for a file of the target. -/
def PassedOver (T x : Place) (fs : FileTree) (z : Place) (g : Node OsString) : Prop :=
  g.isDir = true ∧ ∃ o, fs.node (z ++ x ++ T) = some o ∧ o.isFile = true

/-- What a copy that returns has done since `fs`. -/
structure Put (r : Regime) (S x : Place) (fs s : FileTree) : Prop where
  passable : Passable S r.top x fs
  copied : ∀ z g, fs.node (z ++ x ++ S) = some g → PassedOver r.top x fs z g ∨
    ∃ c, s.node (z ++ x ++ r.top) = some c ∧ c.body = g.body ∧ (r.honest → c = g)

/-- What a copy that fails leaves. -/
def Stopped (r : Regime) (S x : Place) (fs s : FileTree) : Prop :=
  Partial S r.top x fs s ∧ (r.honest → ¬ Passable S r.top x fs)

/-- The path leads to a file. -/
inductive Meets (s : FileTree) : FsPath → Place → Prop
  | intro {path : FsPath} {d : Place} {n : OsString} {mode : Nat} {content : List UInt8}
      (h : s.Bound path d) (hfile : s.node (n :: d) = some (.file mode content)) :
      Meets s (.name n :: path) (n :: d)

/-- The path leads to where there is nothing, a directory or a file. -/
inductive Lands (s : FileTree) (path : FsPath) (l : Place) : Prop
  | aims (h : Aims s path l)
  | meets (h : Meets s path l)

/-! ### Changes elsewhere -/

section Congruence

variable {r : Regime} {S T x : Place} {fs s s' : FileTree}

theorem takes_congr {l : Place} (h : ∀ n, s.node (n :: l) = fs.node (n :: l)) (g o : Node OsString) :
    Takes s l g o ↔ Takes fs l g o := by
  cases g <;> cases o <;> simp only [Takes, h]

theorem passable_congr (hsource : ∀ y, s.node (y ++ S) = fs.node (y ++ S))
    (htarget : ∀ z, s.node (z ++ x ++ T) = fs.node (z ++ x ++ T)) :
    Passable S T x s ↔ Passable S T x fs := by
  have htakes : ∀ z g o, Takes s (z ++ x ++ S) g o ↔ Takes fs (z ++ x ++ S) g o :=
    fun z g o => takes_congr (fun n => hsource (n :: (z ++ x))) g o
  simp only [Passable, htarget, htakes, hsource]

theorem passable_below {n : OsString} (h : Passable S T x fs) : Passable S T (n :: x) fs := by
  intro z g o hg ho
  rw [below_entry] at hg ho ⊢
  exact h (z ++ [n]) g o hg ho

theorem put_congr (hsource : ∀ y, s.node (y ++ S) = fs.node (y ++ S))
    (htarget : ∀ z, s.node (z ++ x ++ r.top) = fs.node (z ++ x ++ r.top)) (h : Put r S x s s') :
    Put r S x fs s' := by
  refine ⟨(passable_congr hsource htarget).mp h.passable, fun z g hg => ?_⟩
  rw [← hsource] at hg
  refine (h.copied z g hg).imp_left fun hover => ⟨hover.1, ?_⟩
  obtain ⟨o, ho, hfile⟩ := hover.2
  exact ⟨o, (htarget z).symm.trans ho, hfile⟩

theorem put_frame (h : Put r S x fs s)
    (hframe : ∀ z, s'.node (z ++ x ++ r.top) = s.node (z ++ x ++ r.top)) : Put r S x fs s' := by
  refine ⟨h.passable, fun z g hg => (h.copied z g hg).imp_right ?_⟩
  rintro ⟨c, hc, hbody⟩
  exact ⟨c, (hframe z).trans hc, hbody⟩

theorem Copied.put (h : Copied r S x fs s) (hpass : Passable S r.top x fs) : Put r S x fs s := by
  refine ⟨hpass, fun z g hg => .inr ?_⟩
  obtain ⟨c, hc, hbody⟩ := h.mirrors z g hg
  refine ⟨c, hc, hbody, fun hhonest => ?_⟩
  exact Option.some.inj (hc.symm.trans (h.equals hhonest z g hg))

/-- A user whom no permission binds can fill the places, unless something is in the way. -/
theorem ready_of_passable {u : User} (hfree : u.privileged = true) (h : Passable S T x fs) :
    Ready u S T x fs := by
  intro z g hg
  cases g with
  | dir mode => exact enters_privileged hfree _
  | file mode content => exact overwrites_privileged hfree _
  | symlink target =>
    rw [User.fills, enters_privileged hfree, Bool.true_and, Option.isNone_iff_eq_none]
    by_contra hne
    obtain ⟨o, ho⟩ := Option.ne_none_iff_exists'.mp hne
    exact h z _ o hg ho

theorem Failed.stopped (hfree : r.honest → r.user.privileged = true) (h : Failed r S x fs s) :
    Stopped r S x fs s :=
  ⟨h.1, fun hhonest hpass => h.2 hhonest (ready_of_passable (hfree hhonest) hpass)⟩

end Congruence

/-! ### Calls at and beyond a file -/

section Files

variable {r : Regime} {s : FileTree} {S x l : Place} {src dst path : FsPath} {m n : OsString}
  {e : Errno}

theorem Meets.finds (h : Meets s path l) : ∃ mode content, Finds s path l (.file mode content) := by
  cases h with
  | intro h hfile => exact ⟨_, _, finds_entry h hfile rfl⟩

theorem orDirectory_refused {e' : Errno}
    (h : ∀ umask x, (∃ e, act umask s x (.stat dst) = (.error e, s)) ∨
      ∃ mode, act umask s x (.stat dst) = (.ok (.file, mode), s)) :
    Safely r.sem (fun _ _ => False) (fun s' => s' = s) (fun s' => s' = s)
      (orDirectory dst (.error e')) s := by
  have hnot : Safely r.sem (fun b s' => b = false ∧ s' = s) (fun s' => s' = s) (fun s' => s' = s)
      (pathIsDirectory dst) s := by
    refine safely_step (fun _ _ h => by cases h) rfl (fun x _ => ?_) fun f _ => safely_pure ⟨rfl, rfl⟩
    rcases h r.user.umask x with ⟨e, hact⟩ | ⟨mode, hact⟩ <;> rw [hact] <;> exact safely_pure ⟨rfl, rfl⟩
  refine Safely.bind hnot fun b s' hs' => ?_
  obtain ⟨rfl, rfl⟩ := hs'
  exact safely_throw rfl

theorem createDirAll_refused (he : e ≠ .notFound)
    (hmkdir : ∀ umask x, act umask s x (.mkdir dst) = (.error e, s))
    (hstat : ∀ umask x, (∃ e, act umask s x (.stat dst) = (.error e, s)) ∨
      ∃ mode, act umask s x (.stat dst) = (.ok (.file, mode), s)) :
    Safely r.sem (fun _ _ => False) (fun s' => s' = s) (fun s' => s' = s) (createDirAll dst) s := by
  cases dst with
  | nil =>
    refine safely_step (fun _ _ h => by cases h) rfl (fun x _ => ?_) fun f _ => orDirectory_refused hstat
    rw [hmkdir]
    exact orDirectory_refused hstat
  | cons hop parent =>
    refine safely_step (fun _ _ h => by cases h) rfl (fun x _ => ?_) fun f _ => orDirectory_refused hstat
    rw [hmkdir]
    cases e with
    | notFound => exact absurd rfl he
    | _ => exact orDirectory_refused hstat

theorem Meets.createIfMissing_safely (hfree : r.honest → r.user.privileged = true)
    (h : Meets s path l) :
    Safely r.sem (fun _ s' => s' = s) (fun s' => s' = s ∧ ¬ r.honest) (fun s' => s' = s)
      (createIfMissing path) s := by
  obtain ⟨mode, content, hfinds⟩ := h.finds
  have hexists : Safely r.sem (fun b s' => (b = false → ¬ r.honest) ∧ s' = s)
      (fun s' => s' = s ∧ ¬ r.honest) (fun s' => s' = s) (pathExists path) s := by
    refine safely_step (fun _ _ h => by cases h) rfl (fun x _ => ?_) fun f hf => ?_
    · rw [hfinds.stat]
      exact safely_pure ⟨(fun hfalse => by cases hfalse), rfl⟩
    · refine safely_pure ⟨fun _ hhonest => ?_, rfl⟩
      cases (denied_privileged (hfree hhonest) _).symm.trans (hf hhonest)
  refine Safely.bind hexists fun b s' hs' => ?_
  obtain ⟨hfailed, rfl⟩ := hs'
  cases b with
  | true => exact safely_pure rfl
  | false =>
    have hmkdir : ∀ umask x, act umask s' x (.mkdir path) = (.error .alreadyExists, s') := by
      intro umask x
      cases h with
      | intro h hfile => rw [act, makeEntry_bound h, hfile]
    refine (createDirAll_refused (e := .alreadyExists) (fun he => by cases he) hmkdir fun umask x =>
      .inr ⟨mode, hfinds.stat⟩).mono (fun _ _ hfalse => hfalse.elim) (fun _ hs => ⟨hs, hfailed rfl⟩) fun _ hs => hs

end Files

/-! ### Entries -/

/-- What the copy of a directory keeps to at depths up to the one given. -/
structure Handles (r : Regime) (S : Place) (depth : Nat) (copyDir : FsPath → FsPath → Code Unit) :
    Prop where
  lands : ∀ x src dst s, s.Bound src (x ++ S) → Lands s dst (x ++ r.top) → Direct S r.top x s →
    (r.honest → ∀ z, s.node (z ++ x ++ S) ≠ none → z.length < depth) →
    Safely r.sem (fun _ s' => Partial S r.top x s s' ∧ Put r S x s s') (Stopped r S x s)
      (Partial S r.top x s) (copyDir src dst) s
  beyond : ∀ src path m s l, Meets s path l →
    Safely r.sem (fun _ _ => False) (fun s' => s' = s) (fun s' => s' = s)
      (copyDir src (.name m :: path)) s

section Entries

variable {r : Regime} {S x l : Place} {s : FileTree} {src dst : FsPath} {n : OsString} {depth : Nat}
  {copyDir : FsPath → FsPath → Code Unit}

end Entries

/-! ### The loop over a directory -/

/-- What holds between two entries, where the directories at `x` are those of `fs`. -/
structure Putting (r : Regime) (S x : Place) (fs : FileTree) (done : List OsString) (s : FileTree) :
    Prop where
  part : Partial S r.top x fs s
  put : ∀ n ∈ done, Put r S (n :: x) fs s
  todo : ∀ n, n ∉ done → ∀ z, s.node (z ++ n :: x ++ r.top) = fs.node (z ++ n :: x ++ r.top)

section Loops

variable {r : Regime} {S x : Place} {fs s : FileTree} {src dst : FsPath} {depth : Nat}
  {copyDir : FsPath → FsPath → Code Unit} {done : List OsString} {n : OsString}

theorem Putting.step (hapart : Apart S r.top) (h : Putting r S x fs done s) (hn : n ∉ done)
    {s' : FileTree} (hpart : Partial S r.top (n :: x) s s') (hput : Put r S (n :: x) s s') :
    Putting r S x fs (done ++ [n]) s' := by
  have hother : ∀ m, m ≠ n → ∀ z, s'.node (z ++ m :: x ++ r.top) = s.node (z ++ m :: x ++ r.top) :=
    fun m hne z => hpart.frame _ (not_below hne z)
  refine ⟨h.part.trans hapart (Partial.up (y := [n]) hpart), fun m hm => ?_, fun m hm z => ?_⟩
  · rcases List.mem_append.mp hm with hdone | hlast
    · exact put_frame (h.put m hdone) (hother m fun heq => hn (heq ▸ hdone))
    · obtain rfl := List.mem_singleton.mp hlast
      exact put_congr (h.part.source hapart) (h.todo m hn) hput
  · have hne : m ≠ n := fun heq => hm (heq ▸ List.mem_append_right _ List.mem_cons_self)
    exact (hother m hne z).trans (h.todo m (fun hdone => hm (List.mem_append_left _ hdone)) z)

theorem Putting.stopped (hapart : Apart S r.top) (h : Putting r S x fs done s) (hn : n ∉ done)
    {s' : FileTree} (hstopped : Stopped r S (n :: x) s s') : Stopped r S x fs s' :=
  ⟨h.part.trans hapart (Partial.up (y := [n]) hstopped.1), fun hhonest hpass =>
    hstopped.2 hhonest ((passable_congr (h.part.source hapart) (h.todo n hn)).mpr
      (passable_below hpass))⟩

variable (hapart : Apart S r.top) (hfree : r.honest → r.user.privileged = true)
  (hcopy : Handles r S depth copyDir) (hsrc : fs.Bound src (x ++ S))
  (hdst : fs.Bound dst (x ++ r.top)) (hdirect : Direct S r.top x fs)
  (hdepth : r.honest → ∀ z, fs.node (z ++ x ++ S) ≠ none → z.length < depth + 1)

include hapart hfree hcopy hsrc hdst hdirect hdepth

end Loops

/-! ### The recursion -/

section Directories

variable {r : Regime} {S x : Place} {s s₁ s₂ s₃ : FileTree} {src dst path : FsPath} {l : Place}
  {m : OsString} {depth : Nat}

end Directories

/-! ### How long it runs -/

section Ends

variable {r : Regime} {S x l : Place} {s : FileTree} {src dst path : FsPath} {m : OsString}
  {names length : Nat}

theorem Meets.grows {s' : FileTree} (h : Meets s path l) (hgrows : s.Grows s') : Meets s' path l := by
  cases h with
  | intro h hfile =>
    obtain ⟨node, hnode, hshape⟩ := hgrows _ _ hfile
    cases node with
    | file mode' content' => exact .intro (h.grows hgrows) hnode
    | dir mode' => cases hshape
    | symlink target => cases hshape

end Ends

end PgEmbeddedSetup.Cache
