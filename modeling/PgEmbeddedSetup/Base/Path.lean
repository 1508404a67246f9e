import Mathlib.Data.List.Basic

/-!
# Lexical paths

A path is the list of its components. A root directory stands first only, and so does `.`: elsewhere
they are lost when a path is split into components, so two spellings with the same components are the
same path here. Nothing refers to a file system.
-/

namespace Lexical

/-- A component, with names in `N`. -/
inductive Component (N : Type) where
  | rootDir
  | curDir
  | parentDir
  | normal (name : N)
  deriving DecidableEq, Repr

variable {N : Type}

/-- What may stand after the first component. -/
def Component.isInner : Component N → Bool
  | .parentDir | .normal _ => true
  | _ => false

structure Path (N : Type) where
  components : List (Component N)
  inner : ∀ c ∈ components.tail, c.isInner = true

namespace Path

@[ext] theorem ext {p q : Path N} (h : p.components = q.components) : p = q := by
  cases p
  cases q
  cases h
  rfl

instance [DecidableEq N] : DecidableEq (Path N) := fun p q =>
  if h : p.components = q.components then isTrue (ext h) else isFalse fun heq => h (heq ▸ rfl)

def isEmpty (p : Path N) : Bool := p.components.isEmpty

def isAbsolute (p : Path N) : Bool :=
  match p.components with
  | .rootDir :: _ => true
  | _ => false

def hasParentDir (p : Path N) : Bool :=
  p.components.any fun
    | .parentDir => true
    | _ => false

/-- The path without its last component. A root directory and the empty path have none. -/
def parent (p : Path N) : Option (Path N) :=
  match p.components.getLast? with
  | none | some .rootDir => none
  | some _ => some ⟨p.components.dropLast, fun c hc => p.inner c (by
      rw [List.tail_dropLast] at hc
      exact List.dropLast_subset _ hc)⟩

theorem isAbsolute_iff {p : Path N} :
    p.isAbsolute = true ↔ ∃ cs, p.components = .rootDir :: cs := by
  unfold isAbsolute
  split
  next cs heq => simp [heq]
  next hne => simpa using hne

theorem parent_eq_some {p q : Path N} (h : p.parent = some q) :
    p.components.getLast? ≠ some .rootDir ∧ q.components = p.components.dropLast := by
  unfold parent at h
  split at h
  next => cases h
  next => cases h
  next c hroot hlast =>
    obtain rfl := Option.some.inj h
    exact ⟨fun heq => hroot (Option.some.inj (hlast.symm.trans heq)), rfl⟩

theorem parent_eq_none {p : Path N} :
    p.parent = none ↔ p.components = [] ∨ p.components = [.rootDir] := by
  unfold parent
  split
  next h => exact iff_of_true rfl (Or.inl (List.getLast?_eq_none_iff.mp h))
  next h =>
    refine iff_of_true rfl (Or.inr ?_)
    cases hc : p.components with
    | nil => simp [hc] at h
    | cons c cs =>
      rcases List.eq_nil_or_concat cs with rfl | ⟨cs', c', rfl⟩
      · rw [hc] at h
        have hroot : c = .rootDir := Option.some.inj h
        rw [hroot]
      · rw [hc, List.concat_eq_append, ← List.cons_append, List.getLast?_concat] at h
        have hinner := p.inner c' (by simp [hc])
        rw [Option.some.inj h] at hinner
        cases hinner
  next c hroot h =>
    refine iff_of_false (fun heq => by cases heq) fun hc => ?_
    rcases hc with hc | hc
    · simp [hc] at h
    · rw [hc] at h
      exact hroot (Option.some.inj h).symm

theorem isEmpty_of_isAbsolute {p : Path N} (h : p.isAbsolute = true) : p.isEmpty = false := by
  obtain ⟨cs, hcs⟩ := isAbsolute_iff.mp h
  rw [isEmpty, hcs, List.isEmpty_cons]

theorem parent_isAbsolute {p q : Path N} (h : p.parent = some q) (hp : p.isAbsolute = true) :
    q.isAbsolute = true := by
  obtain ⟨hlast, hq⟩ := parent_eq_some h
  obtain ⟨cs, hcs⟩ := isAbsolute_iff.mp hp
  rw [hcs] at hlast hq
  cases cs with
  | nil => exact absurd rfl hlast
  | cons c cs => exact isAbsolute_iff.mpr ⟨_, hq⟩

/-- The path without its first `n` components, of which the rest is relative. -/
def dropComponents (p : Path N) (n : Nat) : Path N where
  components := p.components.drop n
  inner := fun c hc => p.inner c (by
    rw [List.tail_drop] at hc
    rw [← List.drop_one]
    exact (List.drop_sublist_drop_left p.components (Nat.le_add_left 1 n)).subset hc)

/-- The path up to its first `n` components. -/
def takeComponents (p : Path N) (n : Nat) : Path N where
  components := p.components.take n
  inner := fun c hc => p.inner c ((List.take_sublist n p.components).tail.subset hc)

/-- What comes after `base`, if the path starts with it. -/
def stripPrefix [DecidableEq N] (p base : Path N) : Option (Path N) :=
  if base.components.isPrefixOf p.components then
    some (p.dropComponents base.components.length)
  else none

theorem stripPrefix_eq_some [DecidableEq N] {p base q : Path N} (h : p.stripPrefix base = some q) :
    p.components = base.components ++ q.components := by
  unfold stripPrefix at h
  split at h
  next hprefix =>
    obtain rfl := Option.some.inj h
    exact (List.prefix_iff_eq_append.mp (List.isPrefixOf_iff_prefix.mp hprefix)).symm
  next => cases h

theorem stripPrefix_parent [DecidableEq N] {p q : Path N} (h : p.parent = some q) :
    ∃ rest, p.stripPrefix q = some rest ∧ rest.isEmpty = false := by
  obtain ⟨-, hq⟩ := parent_eq_some h
  have hne : p.components ≠ [] := fun hnil => by
    rw [parent_eq_none.mpr (Or.inl hnil)] at h
    cases h
  have hprefix : q.components.isPrefixOf p.components = true :=
    List.isPrefixOf_iff_prefix.mpr (hq ▸ List.dropLast_prefix p.components)
  refine ⟨_, if_pos hprefix, ?_⟩
  rw [isEmpty, List.isEmpty_eq_false_iff, dropComponents]
  intro hnil
  have hlength := List.drop_eq_nil_iff.mp hnil
  rw [hq, List.length_dropLast] at hlength
  have hpos := List.length_pos_iff.mpr hne
  omega

/-- The second path as seen from the first. An absolute one replaces it. -/
def join (p q : Path N) : Path N :=
  if q.isAbsolute then q
  else if p.isEmpty then q
  else
    { components := p.components ++ q.components.filter (·.isInner)
      inner := fun c hc => by
        cases hp : p.components with
        | nil =>
          rw [hp, List.nil_append] at hc
          exact (List.mem_filter.mp (List.mem_of_mem_tail hc)).2
        | cons c' cs =>
          rw [hp, List.cons_append, List.tail_cons, List.mem_append] at hc
          rcases hc with hc | hc
          · exact p.inner c (by rw [hp]; exact hc)
          · exact (List.mem_filter.mp hc).2 }

theorem components_join {p q : Path N} (hq : q.isAbsolute = false) :
    (p.components = [] ∧ (p.join q).components = q.components) ∨
      (p.components ≠ [] ∧
        (p.join q).components = p.components ++ q.components.filter (·.isInner)) := by
  unfold join
  rw [if_neg (Bool.eq_false_iff.mp hq)]
  split
  next hempty => exact Or.inl ⟨List.isEmpty_iff.mp hempty, rfl⟩
  next hempty => exact Or.inr ⟨fun h => hempty (List.isEmpty_iff.mpr h), rfl⟩

theorem isAbsolute_join {p q : Path N} (hq : q.isAbsolute = false) :
    (p.join q).isAbsolute = p.isAbsolute := by
  rcases components_join (p := p) hq with ⟨hempty, heq⟩ | ⟨hne, heq⟩
  · rw [isAbsolute, heq, isAbsolute, hempty]
    exact hq
  · obtain ⟨c, cs, hp⟩ := List.exists_cons_of_ne_nil hne
    rw [isAbsolute, heq, isAbsolute, hp, List.cons_append]
    cases c <;> rfl

def empty : Path N := ⟨[], nofun⟩

/-- The path of the working directory. -/
def current : Path N := ⟨[.curDir], nofun⟩

/-- The path of one name. -/
def ofName (n : N) : Path N := ⟨[.normal n], nofun⟩

/-- The path of some names from the root. -/
def absolute (names : List N) : Path N where
  components := .rootDir :: names.map .normal
  inner := fun c hc => by
    obtain ⟨n, -, rfl⟩ := List.mem_map.mp hc
    rfl

theorem absolute_injective : Function.Injective (absolute : List N → Path N) := by
  intro names names' h
  have hcomponents : names.map Component.normal = names'.map .normal :=
    (List.cons.inj (congrArg components h)).2
  exact List.map_injective_iff.mpr (fun _ _ h => Component.normal.inj h) hcomponents

theorem parent_absolute_nil : (absolute ([] : List N)).parent = none := rfl

theorem parent_absolute_concat (names : List N) (n : N) :
    (absolute (names ++ [n])).parent = some (absolute names) := by
  have hlast : (absolute (names ++ [n])).components = (.rootDir :: names.map .normal) ++ [.normal n] := by
    simp [absolute]
  have hget : (absolute (names ++ [n])).components.getLast? = some (.normal n) := by
    rw [hlast, List.getLast?_concat]
  unfold parent
  split
  next h => cases hget.symm.trans h
  next h => cases hget.symm.trans h
  next =>
    congr 1
    refine ext ?_
    show (absolute (names ++ [n])).components.dropLast = _
    rw [hlast, List.dropLast_concat]
    rfl

theorem takeComponents_absolute (names : List N) (k : Nat) :
    (absolute names).takeComponents (k + 1) = absolute (names.take k) :=
  ext (congrArg (Component.rootDir :: ·) List.map_take.symm)

/-- Whole components are compared. -/
def startsWith [DecidableEq N] (p base : Path N) : Bool :=
  base.components.isPrefixOf p.components

theorem hasParentDir_of_startsWith [DecidableEq N] {p base : Path N}
    (h : p.startsWith base = true) (hp : p.hasParentDir = false) : base.hasParentDir = false := by
  rw [hasParentDir, List.any_eq_false] at hp ⊢
  exact fun c hc => hp c ((List.isPrefixOf_iff_prefix.mp h).subset hc)

theorem startsWith_trans [DecidableEq N] {p q r : Path N} (hpq : p.startsWith q = true)
    (hqr : q.startsWith r = true) : p.startsWith r = true :=
  List.isPrefixOf_iff_prefix.mpr
    ((List.isPrefixOf_iff_prefix.mp hqr).trans (List.isPrefixOf_iff_prefix.mp hpq))

theorem startsWith_self [DecidableEq N] (p : Path N) : p.startsWith p = true :=
  List.isPrefixOf_iff_prefix.mpr List.prefix_rfl

end Path

end Lexical
