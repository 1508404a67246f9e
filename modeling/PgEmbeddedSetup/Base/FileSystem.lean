import Mathlib.Data.List.AList
import Mathlib.Data.List.Infix

/-!
# File trees with symbolic links

A file system is a finite table from locations to nodes. A location is the list of names from an
entry up to the root, so the entries of the directory at `l` are at the locations `n :: l`, and what
is at or below it ends with `l`. The table is a tree: the root is a directory, and so is the parent
of every entry. Both are fields of the structure, and the updates keep them.

What a path leads to is not decided here, and an update names its location.
-/

namespace Posix

/-- Where a path goes next: into an entry of the directory it is at, or to the parent. -/
inductive Hop (N : Type) where
  | name (n : N)
  | up
  deriving DecidableEq

/-- The text of a symbolic link. -/
structure Link (N : Type) where
  absolute : Bool
  hops : List (Hop N)
  deriving DecidableEq

inductive Node (N : Type) where
  | dir (mode : Nat)
  | file (mode : Nat) (content : List UInt8)
  | symlink (target : Link N)
  deriving DecidableEq

def Node.isDir {N : Type} : Node N → Bool
  | .dir _ => true
  | _ => false

def Node.isSymlink {N : Type} : Node N → Bool
  | .symlink _ => true
  | _ => false

/-- The node without its mode. -/
def Node.body {N : Type} : Node N → Node N
  | .dir _ => .dir 0
  | .file _ content => .file 0 content
  | .symlink target => .symlink target

/-- The kind of the node, with the target of a link. -/
def Node.shape {N : Type} : Node N → Node N
  | .dir _ => .dir 0
  | .file _ _ => .file 0 []
  | .symlink target => .symlink target

@[simp] theorem Node.shape_body {N : Type} (node : Node N) : node.body.shape = node.shape := by
  cases node <;> rfl

theorem Node.isDir_of_shape {N : Type} {node node' : Node N} (h : node.shape = node'.shape) :
    node.isDir = node'.isDir := by
  cases node <;> cases node' <;> first | rfl | cases h

theorem Node.isSymlink_of_shape {N : Type} {node node' : Node N} (h : node.shape = node'.shape) :
    node.isSymlink = node'.isSymlink := by
  cases node <;> cases node' <;> first | rfl | cases h

/-- The names from an entry up to the root. -/
abbrev Location (N : Type) := List N

structure FileSystem (N : Type) [DecidableEq N] where
  table : AList fun _ : Location N => Node N
  root : (table.lookup []).any (·.isDir) = true
  closed : ∀ n l, n :: l ∈ table → (table.lookup l).any (·.isDir) = true

namespace FileSystem

variable {N : Type} [DecidableEq N]

def node (fs : FileSystem N) (l : Location N) : Option (Node N) := fs.table.lookup l

def IsDir (fs : FileSystem N) (l : Location N) : Prop := (fs.node l).any (·.isDir) = true

instance (fs : FileSystem N) (l : Location N) : Decidable (fs.IsDir l) :=
  inferInstanceAs (Decidable (_ = true))

theorem isDir_iff {fs : FileSystem N} {l : Location N} :
    fs.IsDir l ↔ ∃ mode, fs.node l = some (.dir mode) := by
  unfold IsDir
  cases h : fs.node l with
  | none => simp
  | some node => cases node <;> simp [Node.isDir]

theorem isDir_root (fs : FileSystem N) : fs.IsDir [] := fs.root

theorem IsDir.ne_none {fs : FileSystem N} {l : Location N} (h : fs.IsDir l) : fs.node l ≠ none := by
  obtain ⟨mode, hmode⟩ := isDir_iff.mp h
  exact hmode ▸ Option.some_ne_none _

theorem isDir_of_node {fs : FileSystem N} {n : N} {l : Location N} (h : fs.node (n :: l) ≠ none) :
    fs.IsDir l :=
  fs.closed n l (AList.lookup_isSome.mp (Option.isSome_iff_ne_none.mpr h))

theorem isDir_of_below {fs : FileSystem N} {n : N} {rel l : Location N}
    (h : fs.node (n :: (rel ++ l)) ≠ none) : fs.IsDir l := by
  induction rel generalizing n with
  | nil => exact isDir_of_node h
  | cons m rel ih => exact ih (isDir_of_node h).ne_none

theorem IsDir.above {fs : FileSystem N} {rel l : Location N} (h : fs.IsDir (rel ++ l)) :
    fs.IsDir l := by
  cases rel with
  | nil => exact h
  | cons n rel => exact isDir_of_below h.ne_none

theorem isDir_tail {fs : FileSystem N} {l : Location N} (h : fs.IsDir l) : fs.IsDir l.tail := by
  cases l with
  | nil => exact h
  | cons n l => exact isDir_of_node h.ne_none

theorem forall_node {fs : FileSystem N} {P : Location N → Prop} (h : ∀ l ∈ fs.table.keys, P l)
    {l : Location N} (hnode : fs.node l ≠ none) : P l :=
  h l (AList.mem_keys.mp (AList.lookup_isSome.mp (Option.isSome_iff_ne_none.mpr hnode)))

/-! ### Directories -/

/-- The names in the directory at `l`, in the order of the table. -/
def children (fs : FileSystem N) (l : Location N) : List N :=
  fs.table.keys.filterMap fun
    | [] => none
    | n :: l' => if l' = l then some n else none

theorem mem_children {fs : FileSystem N} {l : Location N} {n : N} :
    n ∈ fs.children l ↔ fs.node (n :: l) ≠ none := by
  rw [children, List.mem_filterMap, node, ← Option.isSome_iff_ne_none, AList.lookup_isSome,
    AList.mem_keys]
  constructor
  · rintro ⟨l', hl', h⟩
    cases l' with
    | nil => simp at h
    | cons m l' =>
      simp only [Option.ite_none_right_eq_some, Option.some.injEq] at h
      obtain ⟨rfl, rfl⟩ := h
      exact hl'
  · intro h
    exact ⟨n :: l, h, by simp⟩

theorem nodup_children (fs : FileSystem N) (l : Location N) : (fs.children l).Nodup := by
  refine List.Nodup.filterMap (fun a a' b hb hb' => ?_) fs.table.keys_nodup
  cases a with
  | nil => simp at hb
  | cons n l₁ =>
    cases a' with
    | nil => simp at hb'
    | cons n' l₂ =>
      simp only [Option.mem_def, Option.ite_none_right_eq_some, Option.some.injEq] at hb hb'
      obtain ⟨rfl, rfl⟩ := hb
      obtain ⟨rfl, rfl⟩ := hb'
      rfl

theorem children_eq_nil {fs : FileSystem N} {l : Location N} :
    fs.children l = [] ↔ ∀ n, fs.node (n :: l) = none := by
  rw [List.eq_nil_iff_forall_not_mem]
  simp only [mem_children, not_not]

/-- The entries of a directory in the order given, if these are the entries. -/
def arrange (order names : List N) : List N :=
  if order.isPerm names then order else names

theorem arrange_perm (order names : List N) : (arrange order names).Perm names := by
  unfold arrange
  split
  next h => exact List.isPerm_iff.mp h
  next => exact List.Perm.refl names

theorem arrange_of_perm {order names : List N} (h : order.Perm names) :
    arrange order names = order :=
  if_pos (List.isPerm_iff.mpr h)

/-! ### Updates -/

/-- A node can be put at `l`: the root stays a directory, the parent is one, and what has entries is
replaced by a directory only. -/
def Admits (fs : FileSystem N) (l : Location N) (node : Node N) : Prop :=
  (l = [] ∨ fs.IsDir l.tail) ∧ (node.isDir = true ∨ l ≠ [] ∧ fs.children l = [])

instance (fs : FileSystem N) (l : Location N) (node : Node N) : Decidable (fs.Admits l node) :=
  inferInstanceAs (Decidable (_ ∧ _))

theorem any_lookup_insert {table : AList fun _ : Location N => Node N} {l l' : Location N}
    {node : Node N} (h : (table.lookup l').any (·.isDir) = true)
    (hl : l' = l → node.isDir = true) :
    ((table.insert l node).lookup l').any (·.isDir) = true := by
  by_cases heq : l' = l
  · subst heq
    rw [AList.lookup_insert]
    exact hl rfl
  · rw [AList.lookup_insert_ne heq]
    exact h

/-- The file system with the node at `l`. One that the tree does not admit changes nothing. -/
def set (fs : FileSystem N) (l : Location N) (node : Node N) : FileSystem N :=
  if h : fs.Admits l node then
    { table := fs.table.insert l node
      root := any_lookup_insert fs.root fun heq => h.2.resolve_right fun hne => hne.1 heq.symm
      closed := fun n l' hmem => by
        refine any_lookup_insert ?_ fun heq => ?_
        · rcases (AList.mem_insert fs.table).mp hmem with heq | hmem
          · subst heq
            exact h.1.resolve_left (List.cons_ne_nil n l')
          · exact fs.closed n l' hmem
        · subst heq
          refine h.2.resolve_right fun hempty => ?_
          rcases (AList.mem_insert fs.table).mp hmem with heq | hmem
          · exact List.cons_ne_self n l' heq
          · have hnone : fs.node (n :: l') = none := children_eq_nil.mp hempty.2 n
            exact absurd hmem (AList.lookup_eq_none.mp hnone) }
  else fs

theorem node_set {fs : FileSystem N} {l : Location N} {node : Node N} (h : fs.Admits l node)
    (l' : Location N) : (fs.set l node).node l' = if l' = l then some node else fs.node l' := by
  rw [set, dif_pos h]
  by_cases heq : l' = l
  · rw [if_pos heq, heq]
    exact AList.lookup_insert _
  · rw [if_neg heq]
    exact AList.lookup_insert_ne heq

theorem admits_of_shape {fs : FileSystem N} {l : Location N} {old new : Node N}
    (hold : fs.node l = some old) (hshape : new.shape = old.shape) : fs.Admits l new := by
  have hparent : l = [] ∨ fs.IsDir l.tail := by
    cases l with
    | nil => exact Or.inl rfl
    | cons n l => exact Or.inr (isDir_of_node (hold ▸ Option.some_ne_none _))
  refine ⟨hparent, or_iff_not_imp_left.mpr fun hdir => ?_⟩
  have hnot : ¬ fs.IsDir l := by
    intro h
    rw [IsDir, hold, Option.any_some] at h
    exact hdir (Node.isDir_of_shape hshape ▸ h)
  refine ⟨fun hroot => hnot (hroot ▸ fs.isDir_root), children_eq_nil.mpr fun n => ?_⟩
  exact by_contra fun hnode => hnot (isDir_of_node hnode)

theorem admits_of_none {fs : FileSystem N} {l : Location N} (hnone : fs.node l = none)
    (hdir : fs.IsDir l.tail) (new : Node N) : fs.Admits l new := by
  have hnot : ¬ fs.IsDir l := by
    rw [IsDir, hnone]
    exact Bool.false_ne_true
  refine ⟨Or.inr hdir, Or.inr ⟨fun hroot => hnot (hroot ▸ fs.isDir_root), ?_⟩⟩
  exact children_eq_nil.mpr fun n => by_contra fun hnode => hnot (isDir_of_node hnode)

theorem set_of_not_admits {fs : FileSystem N} {l : Location N} {node : Node N}
    (h : ¬ fs.Admits l node) : fs.set l node = fs :=
  dif_neg h

/-- A root directory with nothing in it. -/
def empty (mode : Nat) : FileSystem N where
  table := AList.singleton [] (.dir mode)
  root := rfl
  closed := fun n l hmem => by cases List.mem_singleton.mp hmem

/-- The file system with these entries, put in one after the other. -/
def ofList (entries : List (Location N × Node N)) : FileSystem N :=
  entries.foldl (fun fs e => fs.set e.1 e.2) (empty 0)

/-- The entries of a table whose keys are in `p`. -/
def restrict (table : AList fun _ : Location N => Node N) (p : Location N → Bool) :
    AList fun _ : Location N => Node N :=
  ⟨table.entries.filter fun e => p e.1,
    List.NodupKeys.sublist List.filter_sublist table.nodupKeys⟩

theorem lookup_restrict (table : AList fun _ : Location N => Node N) (p : Location N → Bool)
    (l : Location N) : (restrict table p).lookup l = if p l then table.lookup l else none := by
  apply Option.ext
  intro node
  have hiff : (restrict table p).lookup l = some node ↔ table.lookup l = some node ∧ p l = true := by
    rw [← Option.mem_def, ← Option.mem_def, AList.mem_lookup_iff, AList.mem_lookup_iff, restrict,
      List.mem_filter]
  rw [hiff]
  split <;> simp_all

/-- An entry stays where it and everything on the way up to it is in `keep`. -/
def stays (keep : Location N → Bool) (l : Location N) : Bool :=
  l.tails.all fun l' => l'.isEmpty || keep l'

omit [DecidableEq N] in
theorem stays_cons {keep : Location N → Bool} {n : N} {l : Location N} :
    stays keep (n :: l) = (keep (n :: l) && stays keep l) := by
  simp [stays]

/-- What is left when only the entries of `keep` stay, and nothing below one that goes. -/
def prune (fs : FileSystem N) (keep : Location N → Bool) : FileSystem N where
  table := restrict fs.table (stays keep)
  root := by
    have hstays : stays keep [] = true := rfl
    rw [lookup_restrict, if_pos hstays]
    exact fs.root
  closed := fun n l hmem => by
    rw [← AList.lookup_isSome, lookup_restrict] at hmem
    split at hmem
    next h =>
      rw [stays_cons, Bool.and_eq_true] at h
      rw [lookup_restrict, if_pos h.2]
      exact fs.closed n l (AList.lookup_isSome.mp hmem)
    next => cases hmem

theorem node_prune (fs : FileSystem N) (keep : Location N → Bool) (l : Location N) :
    (fs.prune keep).node l = if stays keep l then fs.node l else none :=
  lookup_restrict fs.table (stays keep) l

theorem node_of_node_prune {fs : FileSystem N} {keep : Location N → Bool} {l : Location N}
    {node : Node N} (h : (fs.prune keep).node l = some node) : fs.node l = some node := by
  rw [node_prune] at h
  split at h
  next => exact h
  next => cases h

/-- What is strictly below `l`. -/
def Below (l l' : Location N) : Prop := l <:+ l' ∧ l' ≠ l

instance (l l' : Location N) : Decidable (Below l l') := inferInstanceAs (Decidable (_ ∧ _))

/-- The file system without the entry at `l` and what is below it. The root is not removed. -/
def remove (fs : FileSystem N) (l : Location N) : FileSystem N :=
  fs.prune fun l' => l' ≠ l

theorem node_remove_self (fs : FileSystem N) (n : N) (l : Location N) :
    (fs.remove (n :: l)).node (n :: l) = none := by
  rw [remove, node_prune, stays_cons]
  simp

/-- A removal that has stopped: of what is below `l`, only what `left` names is left. -/
def removePart (fs : FileSystem N) (l : Location N) (left : Location N → Bool) : FileSystem N :=
  fs.prune fun l' => ¬ Below l l' ∨ left l'

end FileSystem

end Posix
