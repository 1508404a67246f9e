import PgEmbeddedSetup.Base.Resolve

/-!
# The way of a path

The entries that are looked up when a path is followed: they decide whether the path still leads
somewhere when the tree has lost a part. An entry remains for a path just when the tree keeps the whole
way to it (`remains_prune`).
-/

namespace Posix.FileSystem

variable {N : Type} [DecidableEq N] {fs : FileSystem N} {l r x : Location N} {n : N}
  {hops rest : List (Hop N)} {keep : Location N → Bool}

/-- The entry at `x` is looked up on the path from `l`. -/
inductive Passes (fs : FileSystem N) : Location N → List (Hop N) → Location N → Prop
  | here {l : Location N} {n : N} {rest : List (Hop N)} : Passes fs l (.name n :: rest) (n :: l)
  | up {l x : Location N} {rest : List (Hop N)} (h : Passes fs l.tail rest x) :
      Passes fs l (.up :: rest) x
  | dir {l x : Location N} {n : N} {rest : List (Hop N)} {mode : Nat}
      (hnode : fs.node (n :: l) = some (.dir mode)) (h : Passes fs (n :: l) rest x) :
      Passes fs l (.name n :: rest) x
  | link {l x : Location N} {n : N} {rest : List (Hop N)} {target : Link N}
      (hnode : fs.node (n :: l) = some (.symlink target))
      (h : Passes fs (target.start l) (target.hops ++ rest) x) : Passes fs l (.name n :: rest) x

theorem node_prune_of_stays (h : stays keep x = true) : (fs.prune keep).node x = fs.node x := by
  rw [node_prune, if_pos h]

theorem stays_of_node_prune (h : (fs.prune keep).node x ≠ none) : stays keep x = true := by
  by_contra hnot
  rw [node_prune, if_neg hnot] at h
  exact h rfl

theorem Passes.of_prune (h : (fs.prune keep).Passes l hops x) : fs.Passes l hops x := by
  induction h with
  | here => exact .here
  | up h ih => exact .up ih
  | dir hnode h ih => exact .dir (node_of_node_prune hnode) ih
  | link hnode h ih => exact .link (node_of_node_prune hnode) ih

theorem Leads.passes_stays (h : (fs.prune keep).Leads l hops r) (hx : fs.Passes l hops x) :
    stays keep x = true := by
  induction h with
  | here l => cases hx
  | up h ih =>
    cases hx with
    | up hx => exact ih hx
  | dir hnode h ih =>
    have hnode' := node_of_node_prune hnode
    cases hx with
    | here => exact stays_of_node_prune (hnode ▸ Option.some_ne_none _)
    | dir _ hx => exact ih hx
    | link hlink hx => cases hnode'.symm.trans hlink
  | file hnode =>
    cases hx with
    | here => exact stays_of_node_prune (hnode ▸ Option.some_ne_none _)
    | dir _ hx => cases hx
    | link hlink hx => cases (node_of_node_prune hnode).symm.trans hlink
  | link hnode h ih =>
    have hnode' := node_of_node_prune hnode
    cases hx with
    | here => exact stays_of_node_prune (hnode ▸ Option.some_ne_none _)
    | dir hdir hx => cases hnode'.symm.trans hdir
    | link hlink hx =>
      cases hnode'.symm.trans hlink
      exact ih hx

/-- A path leads where it led if everything stays that it passes. -/
theorem Leads.prune (h : fs.Leads l hops r) (hstays : ∀ x, fs.Passes l hops x → stays keep x = true) :
    (fs.prune keep).Leads l hops r := by
  induction h with
  | here l => exact .here l
  | up h ih => exact .up (ih fun x hx => hstays x (.up hx))
  | dir hnode h ih =>
    exact .dir ((node_prune_of_stays (hstays _ .here)).trans hnode)
      (ih fun x hx => hstays x (.dir hnode hx))
  | file hnode => exact .file ((node_prune_of_stays (hstays _ .here)).trans hnode)
  | link hnode h ih =>
    exact .link ((node_prune_of_stays (hstays _ .here)).trans hnode)
      (ih fun x hx => hstays x (.link hnode hx))

theorem Passes.prune (h : fs.Passes l hops x)
    (hstays : ∀ x, fs.Passes l hops x → stays keep x = true) : (fs.prune keep).Passes l hops x := by
  induction h with
  | here => exact .here
  | up h ih => exact .up (ih fun x hx => hstays x (.up hx))
  | dir hnode h ih =>
    exact .dir ((node_prune_of_stays (hstays _ .here)).trans hnode)
      (ih fun x hx => hstays x (.dir hnode hx))
  | link hnode h ih =>
    exact .link ((node_prune_of_stays (hstays _ .here)).trans hnode)
      (ih fun x hx => hstays x (.link hnode hx))

/-! ### The entry of a path -/

/-- The path without a name at its end, and that name. -/
def splitLast (hops : List (Hop N)) : List (Hop N) × Option N :=
  match hops.getLast? with
  | some (.name n) => (hops.dropLast, some n)
  | _ => (hops, none)

/-- The path is for the entry at `x`, which may be missing. A link at its end is not followed. -/
def Denotes (fs : FileSystem N) (l : Location N) (hops : List (Hop N)) (x : Location N) : Prop :=
  ∃ parent, fs.Leads l (splitLast hops).1 parent ∧ x = (splitLast hops).2.toList ++ parent

/-- Something is there. -/
def Remains (fs : FileSystem N) (l : Location N) (hops : List (Hop N)) : Prop :=
  ∃ x, fs.Denotes l hops x ∧ fs.node x ≠ none

/-- The entry at `x` is on the way to what the path is for, or is that. -/
def OnWay (fs : FileSystem N) (l : Location N) (hops : List (Hop N)) (x : Location N) : Prop :=
  fs.Passes l (splitLast hops).1 x ∨ fs.Denotes l hops x

theorem Denotes.unique {y : Location N} (h : fs.Denotes l hops x) (h' : fs.Denotes l hops y) :
    x = y := by
  obtain ⟨parent, hleads, rfl⟩ := h
  obtain ⟨parent', hleads', rfl⟩ := h'
  rw [hleads.unique hleads']

theorem Denotes.of_prune (h : (fs.prune keep).Denotes l hops x) : fs.Denotes l hops x := by
  obtain ⟨parent, hleads, rfl⟩ := h
  exact ⟨parent, hleads.mono fun _ _ => node_of_node_prune, rfl⟩

/-- **What a path is for remains** just when it was there and the whole way to it stays. -/
theorem remains_prune : (fs.prune keep).Remains l hops ↔
    fs.Remains l hops ∧ ∀ x, fs.OnWay l hops x → stays keep x = true := by
  constructor
  · rintro ⟨x, hx, hnode⟩
    have hx' := hx.of_prune
    refine ⟨⟨x, hx', ?_⟩, ?_⟩
    · obtain ⟨node, hsome⟩ := Option.ne_none_iff_exists'.mp hnode
      exact node_of_node_prune hsome ▸ Option.some_ne_none node
    · rintro y (hpasses | hdenotes)
      · obtain ⟨parent, hleads, -⟩ := hx
        exact hleads.passes_stays hpasses
      · rw [hdenotes.unique hx']
        exact stays_of_node_prune hnode
  · rintro ⟨⟨x, hx, hnode⟩, hstays⟩
    refine ⟨x, ?_, ?_⟩
    · obtain ⟨parent, hleads, rfl⟩ := hx
      exact ⟨parent, hleads.prune fun y hy => hstays y (Or.inl hy), rfl⟩
    · rw [node_prune_of_stays (hstays x (Or.inr hx))]
      exact hnode

theorem OnWay.of_prune (h : (fs.prune keep).OnWay l hops x) : fs.OnWay l hops x :=
  h.imp Passes.of_prune Denotes.of_prune

theorem OnWay.prune (h : fs.OnWay l hops x) (hremains : (fs.prune keep).Remains l hops) :
    (fs.prune keep).OnWay l hops x := by
  have hstays := (remains_prune.mp hremains).2
  refine h.imp (fun hx => hx.prune fun y hy => hstays y (Or.inl hy)) ?_
  rintro ⟨parent, hleads, rfl⟩
  exact ⟨parent, hleads.prune fun y hy => hstays y (Or.inl hy), rfl⟩

/-! ### Removing an entry -/

theorem stays_remove {e : Location N} (he : e ≠ []) :
    stays (fun l' => decide (l' ≠ e)) x = true ↔ ¬ e <:+ x := by
  rw [stays, List.all_eq_true]
  simp only [List.mem_tails, Bool.or_eq_true, List.isEmpty_iff, decide_eq_true_eq]
  constructor
  · intro h hsuffix
    exact (h e hsuffix).elim he fun hne => hne rfl
  · intro h l' hl'
    exact Or.inr fun heq => h (heq ▸ hl')

end Posix.FileSystem
