import PgEmbeddedSetup.Base.Mirror
import PgEmbeddedSetup.Cache.Syscalls

/-!
# Permissions in the tree that is copied to

What is at and below `T` belongs to the user who copies, as it was made by copies before. There a call
is refused for want of a permission: a directory on the way that cannot be searched, one that takes no
new entry, or a file that cannot be written. Elsewhere no call is refused, and none that reads the
source is.
-/

namespace PgEmbeddedSetup.Cache

open Env Posix Program Crash

/-- A user whose identity is not 0 is bound by the permissions of the owner. -/
structure User where
  privileged : Bool
  umask : Nat

def ownerWrite : Nat := 0o200

def ownerSearch : Nat := 0o100

def grants (mode bits : Nat) : Bool := mode &&& bits == bits

/-- The mode of a directory that the user makes. -/
def User.dirMode (u : User) : Nat := maskMode u.umask 0o777

/-- Whether the node at `l` grants the bits. Where none is, a directory that the user makes there is
meant. -/
def User.may (u : User) (T : Place) (fs : FileTree) (bits : Nat) (l : Place) : Bool :=
  u.privileged || !decide (T <:+ l) ||
    match fs.node l with
    | some (.dir mode) | some (.file mode _) => grants mode bits
    | some (.symlink _) => true
    | none => grants u.dirMode bits

/-- Whether all on the way to `l` can be searched. -/
def User.reaches (u : User) (T : Place) (fs : FileTree) : Place → Bool
  | [] => true
  | _ :: l => u.may T fs ownerSearch l && u.reaches T fs l

/-- Whether there is an entry at `l` or one can be made. -/
def User.enters (u : User) (T : Place) (fs : FileTree) (l : Place) : Bool :=
  u.reaches T fs l && ((fs.node l).isSome || u.may T fs ownerWrite l.tail)

def User.overwrites (u : User) (T : Place) (fs : FileTree) (l : Place) : Bool :=
  u.enters T fs l && ((fs.node l).isNone || u.may T fs ownerWrite l)

/-- The calls that are refused. -/
def User.denied (u : User) (T : Place) (fs : FileTree) : Instr → Bool
  | .stat path =>
    match fs.follow true path with
    | .ok l => !u.reaches T fs l
    | .error _ => false
  | .mkdir path | .symlink _ path =>
    match fs.locate path with
    | .ok l => !u.enters T fs l
    | .error _ => false
  | .create path _ =>
    match fs.follow true path with
    | .ok l => !u.overwrites T fs l
    | .error _ => false
  | .chmod path _ =>
    match fs.follow false path with
    | .ok l => !u.reaches T fs l
    | .error _ => false
  | .fileType _ | .readDir _ | .readLink _ | .openRead _ | .fchmod _ _ | .copyRange _ _ => false

/-- The choice of a call that fails only if it is refused. -/
def User.settle (u : User) (T : Place) (fs : FileTree) (i : Instr) (x : Choice) : Choice :=
  { x with fault := if u.denied T fs i then some .permissionDenied else none, cut := none }

section Lemmas

variable {u : User} {S T : Place} {fs s : FileTree}

theorem may_outside {bits : Nat} {l : Place} (h : ¬ T <:+ l) : u.may T fs bits l = true := by
  unfold User.may
  rw [decide_eq_false h]
  simp

theorem reaches_outside {l : Place} (h : ∀ l', l' <:+ l → l' ≠ l → ¬ T <:+ l') :
    u.reaches T fs l = true := by
  induction l with
  | nil => rfl
  | cons n l ih =>
    rw [User.reaches, may_outside (h l (List.suffix_cons n l) (List.ne_cons_self)), Bool.true_and]
    refine ih fun l' hl' hne => h l' (hl'.trans (List.suffix_cons n l)) ?_
    rintro rfl
    exact absurd hl'.length_le (by simp)

theorem reaches_top : u.reaches T fs T = true :=
  reaches_outside fun _ hl' hne hT => hne (hl'.eq_of_length_le hT.length_le)

theorem enters_top : u.enters T fs T = true := by
  unfold User.enters
  rw [reaches_top, Bool.true_and]
  cases hT : T with
  | nil =>
    have hroot : (fs.node []).isSome = true := by
      obtain ⟨mode, hmode⟩ := FileSystem.isDir_iff.mp fs.isDir_root
      rw [hmode]
      rfl
    rw [hroot]
    rfl
  | cons n l =>
    rw [List.tail_cons, may_outside fun h => absurd h.length_le (by simp), Bool.or_true]

theorem reaches_source (h : Apart S T) (x : Place) : u.reaches T fs (x ++ S) = true := by
  refine reaches_outside fun l' hl' _ hT => ?_
  exact h.not_suffix x [] (hT.trans hl')

/-- The node is the same, or it is a directory made by the user. -/
def Stands (u : User) (fs s : FileTree) (l : Place) : Prop :=
  s.node l = fs.node l ∨ fs.node l = none ∧ s.node l = some (.dir u.dirMode)

theorem may_stands {bits : Nat} {l : Place} (h : Stands u fs s l) :
    u.may T s bits l = u.may T fs bits l := by
  unfold User.may
  rcases h with h | ⟨hfs, hs⟩
  · rw [h]
  · rw [hfs, hs]

theorem reaches_stands {l : Place} (h : ∀ l', l' <:+ l → l' ≠ l → Stands u fs s l') :
    u.reaches T s l = u.reaches T fs l := by
  induction l with
  | nil => rfl
  | cons n l ih =>
    rw [User.reaches, User.reaches,
      may_stands (h l (List.suffix_cons n l) List.ne_cons_self), ih]
    refine fun l' hl' hne => h l' (hl'.trans (List.suffix_cons n l)) ?_
    rintro rfl
    exact absurd hl'.length_le (by simp)

theorem enters_stands {l : Place} (h : ∀ l', l' <:+ l → l' ≠ l → Stands u fs s l')
    (hnode : s.node l = fs.node l) : u.enters T s l = u.enters T fs l := by
  unfold User.enters
  rw [reaches_stands h, hnode]
  cases l with
  | nil =>
    have htail : Stands u fs s ([] : Place).tail := Or.inl hnode
    rw [may_stands htail]
  | cons n l => rw [List.tail_cons, may_stands (h l (List.suffix_cons n l) List.ne_cons_self)]

theorem overwrites_stands {l : Place} (h : ∀ l', l' <:+ l → l' ≠ l → Stands u fs s l')
    (hnode : s.node l = fs.node l) : u.overwrites T s l = u.overwrites T fs l := by
  unfold User.overwrites
  rw [enters_stands h hnode, hnode, may_stands (Or.inl hnode)]

end Lemmas

/-! ### What a copy needs -/

/-- The place of one node of the source can be filled. -/
def User.fills (u : User) (T : Place) (fs : FileTree) (l : Place) : Node OsString → Bool
  | .dir _ => u.enters T fs l
  | .file _ _ => u.overwrites T fs l
  | .symlink _ => u.enters T fs l && (fs.node l).isNone

/-- All places at and below `x` can be filled. -/
def Ready (u : User) (S T : Place) (x : Place) (fs : FileTree) : Prop :=
  ∀ z g, fs.node (z ++ x ++ S) = some g → u.fills T fs (z ++ x ++ T) g = true

end PgEmbeddedSetup.Cache
