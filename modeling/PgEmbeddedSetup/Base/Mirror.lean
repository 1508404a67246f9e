import PgEmbeddedSetup.Base.Place

/-!
# Copies of a tree

The tree at `S` is copied to `T`, and `x` is a place in it: its node is at `x ++ S`, and the copy of
that node is at `x ++ T`. `Partial S T x fs s` says that the tree went from `fs` to `s` while what is
at and below `x` was copied, wholly or in part; `Mirrors` says that it was copied but for the modes,
and `Equals` that it was copied with them.
-/

namespace Posix

variable {N : Type}

def Node.isFile : Node N → Bool
  | .file _ _ => true
  | _ => false

theorem Node.shape_of_body {node node' : Node N} (h : node.body = node'.body) :
    node.shape = node'.shape := by
  rw [← Node.shape_body node, h, Node.shape_body]

theorem Node.isFile_of_shape {node node' : Node N} (h : node.shape = node'.shape) :
    node.isFile = node'.isFile := by
  cases node <;> cases node' <;> first | rfl | cases h

/-- None of two trees is in the other. -/
def Apart (S T : Location N) : Prop := ¬ S <:+ T ∧ ¬ T <:+ S

theorem Apart.ne {S T : Location N} (h : Apart S T) (x y : Location N) : x ++ S ≠ y ++ T := by
  intro heq
  rcases List.suffix_or_suffix_of_suffix (List.suffix_append x S)
    (heq ▸ List.suffix_append y T) with hST | hTS
  · exact h.1 hST
  · exact h.2 hTS

theorem Apart.not_suffix {S T : Location N} (h : Apart S T) (x y : Location N) :
    ¬ (y ++ T) <:+ (x ++ S) := by
  rintro ⟨z, hz⟩
  exact h.ne x (z ++ y) (by rw [List.append_assoc, hz])

/-- What may become of the copy of one node. Only a file is written again, and only what is in the
source is made. -/
def Site (source old new : Option (Node N)) : Prop :=
  match source, old with
  | none, old => new = old
  | some g, some o =>
    ∃ c, new = some c ∧ c.shape = o.shape ∧ (c.body = o.body ∨ g.isFile = true)
  | some g, none => ∀ c, new = some c → c.shape = g.shape

theorem Site.refl (source old : Option (Node N)) : Site source old old := by
  cases source with
  | none => rfl
  | some g =>
    cases old with
    | none => exact fun c hc => by cases hc
    | some o => exact ⟨o, rfl, rfl, Or.inl rfl⟩

theorem Site.trans {source a b c : Option (Node N)} (h : Site source a b) (h' : Site source b c) :
    Site source a c := by
  cases source with
  | none => exact Eq.trans h' h
  | some g =>
    cases a with
    | none =>
      intro node hnode
      cases b with
      | none => exact h' node hnode
      | some node' =>
        obtain ⟨_, hc, hshape, -⟩ := h'
        obtain rfl := Option.some.inj (hc.symm.trans hnode)
        exact hshape.trans (h node' rfl)
    | some o =>
      obtain ⟨b', rfl, hshape, hbody⟩ := h
      obtain ⟨c', rfl, hshape', hbody'⟩ := h'
      refine ⟨c', rfl, hshape'.trans hshape, ?_⟩
      rcases hbody with hbody | hfile
      · rcases hbody' with hbody' | hfile
        · exact Or.inl (hbody'.trans hbody)
        · exact Or.inr hfile
      · exact Or.inr hfile

namespace FileSystem

variable [DecidableEq N] (S T : Location N)

structure Partial (x : Location N) (fs s : FileSystem N) : Prop where
  frame : ∀ l, ¬ (x ++ T) <:+ l → s.node l = fs.node l
  site : ∀ z, Site (fs.node (z ++ x ++ S)) (fs.node (z ++ x ++ T)) (s.node (z ++ x ++ T))

def Mirrors (x : Location N) (fs s : FileSystem N) : Prop :=
  ∀ z g, fs.node (z ++ x ++ S) = some g → ∃ c, s.node (z ++ x ++ T) = some c ∧ c.body = g.body

def Equals (x : Location N) (fs s : FileSystem N) : Prop :=
  ∀ z g, fs.node (z ++ x ++ S) = some g → s.node (z ++ x ++ T) = some g

/-- Where both trees have a node the kinds agree, or the source has a link. -/
def Fits (x : Location N) (fs : FileSystem N) : Prop :=
  ∀ z g o, fs.node (z ++ x ++ S) = some g → fs.node (z ++ x ++ T) = some o →
    g.isSymlink = true ∨ g.shape = o.shape

variable {S T} {x : Location N} {fs s s' : FileSystem N}

theorem eq_nil_of_leaf {l z : Location N} (h : ¬ fs.IsDir l) (hnode : fs.node (z ++ l) ≠ none) :
    z = [] := by
  cases z with
  | nil => rfl
  | cons n z => exact absurd (isDir_of_below hnode) h

theorem ne_none_of_below {l z : Location N} (hnode : fs.node (z ++ l) ≠ none) : fs.node l ≠ none := by
  cases z with
  | nil => exact hnode
  | cons n z => exact (isDir_of_below hnode).ne_none

theorem Partial.refl (x : Location N) (fs : FileSystem N) : Partial S T x fs fs :=
  ⟨fun _ _ => rfl, fun _ => Site.refl _ _⟩

theorem Partial.source (hapart : Apart S T) (h : Partial S T x fs s) (y : Location N) :
    s.node (y ++ S) = fs.node (y ++ S) :=
  h.frame _ (hapart.not_suffix y x)

theorem Partial.trans (hapart : Apart S T) (h : Partial S T x fs s) (h' : Partial S T x s s') :
    Partial S T x fs s' := by
  refine ⟨fun l hl => (h'.frame l hl).trans (h.frame l hl), fun z => (h.site z).trans ?_⟩
  have hsite := h'.site z
  rwa [h.source hapart] at hsite

theorem Partial.up (h : Partial S T (y ++ x) fs s) : Partial S T x fs s := by
  refine ⟨fun l hl => h.frame l fun hsuffix => hl ?_, fun z => ?_⟩
  · rw [List.append_assoc] at hsuffix
    exact (List.suffix_append y (x ++ T)).trans hsuffix
  · by_cases hz : (y ++ x ++ T) <:+ (z ++ x ++ T)
    · obtain ⟨w, hw⟩ := hz
      have hzeq : w ++ y = z := by
        rw [List.append_assoc y, List.append_assoc z, ← List.append_assoc] at hw
        exact List.append_cancel_right hw
      have hsite := h.site w
      rwa [← List.append_assoc w y x, hzeq] at hsite
    · rw [h.frame _ hz]
      exact Site.refl _ _

theorem Partial.grows (h : Partial S T x fs s) : fs.Grows s := by
  intro l node hnode
  by_cases hl : (x ++ T) <:+ l
  · obtain ⟨z, rfl⟩ := hl
    have hsite := h.site z
    rw [List.append_assoc z x T, hnode] at hsite
    cases hg : fs.node (z ++ x ++ S) with
    | none =>
      rw [hg] at hsite
      exact ⟨node, hsite, rfl⟩
    | some g =>
      rw [hg] at hsite
      obtain ⟨c, hc, hshape, -⟩ := hsite
      exact ⟨c, hc, hshape⟩
  · exact ⟨node, (h.frame l hl).trans hnode, rfl⟩

theorem Partial.site_top (h : Partial S T [] fs s) (y : Location N) :
    Site (fs.node (y ++ S)) (fs.node (y ++ T)) (s.node (y ++ T)) := by
  have hsite := h.site y
  rwa [List.append_nil] at hsite

theorem Partial.none_or_dir (h : Partial S T [] fs s) (hdir : fs.IsDir S)
    (htarget : fs.node T = none ∨ fs.IsDir T) : s.node T = none ∨ s.IsDir T := by
  rcases htarget with hnone | htarget
  · obtain ⟨mode, hmode⟩ := isDir_iff.mp hdir
    have hsite : Site (fs.node S) (fs.node T) (s.node T) := h.site_top []
    rw [hmode, hnone] at hsite
    cases hnode : s.node T with
    | none => exact Or.inl rfl
    | some node =>
      refine Or.inr ?_
      rw [IsDir, hnode, Option.any_some, Node.isDir_of_shape (hsite node hnode)]
      rfl
  · exact Or.inr (h.grows.isDir htarget)

theorem Writes.part {new : Node N} (h : Writes fs s (x ++ T) new)
    (hsite : Site (fs.node (x ++ S)) (fs.node (x ++ T)) (some new)) : Partial S T x fs s := by
  refine ⟨fun l hl => h.other ?_, fun z => ?_⟩
  · rintro rfl
    exact hl (List.suffix_refl _)
  · by_cases hz : z = []
    · subst hz
      rw [List.nil_append, h.self]
      exact hsite
    · have hne : z ++ x ++ T ≠ x ++ T := by
        rw [List.append_assoc]
        exact fun heq => hz (List.append_left_eq_self.mp heq)
      rw [h.other hne]
      exact Site.refl _ _

end FileSystem

end Posix
