import PgEmbeddedSetup.Base.Resolve

/-!
# Places of paths

An absolute path is its hops, the last one first, so that a join puts a name in front. `Bound` says
which directory a path leads to. The entries of that directory are then found by their names, and
they stay where they are while the tree grows, that is while no entry is removed or replaced by one
of another kind.
-/

namespace Posix

variable {N : Type} [DecidableEq N]

/-- An absolute path, with its last hop first. -/
abbrev AbsPath (N : Type) := List (Hop N)

namespace FileSystem

/-- Where the path leads, with a link at its end followed. -/
def follow (fs : FileSystem N) (create : Bool) (path : AbsPath N) : Except Errno (Location N) :=
  fs.resolve none create [] path.reverse

/-- The entry that the path names, which may be missing or a link. -/
def locate (fs : FileSystem N) : AbsPath N → Except Errno (Location N)
  | .name n :: parent =>
    match fs.follow false parent with
    | .error e => .error e
    | .ok d => if fs.IsDir d then .ok (n :: d) else .error .notDirectory
  | path => fs.follow false path

/-- The path leads to the directory at `d`. -/
structure Bound (fs : FileSystem N) (path : AbsPath N) (d : Location N) : Prop where
  follow : fs.follow false path = .ok d
  isDir : fs.IsDir d

section Entries

variable {fs : FileSystem N} {path : AbsPath N} {d : Location N} {n : N}

theorem bound_root (fs : FileSystem N) : fs.Bound [] [] := ⟨rfl, fs.isDir_root⟩

theorem Bound.follow_any (h : fs.Bound path d) (create : Bool) : fs.follow create path = .ok d := by
  have hresolve : fs.resolve none create [] (path.reverse ++ []) = .ok d :=
    resolve_append h.follow h.isDir fun _ => rfl
  rwa [List.append_nil] at hresolve

/-- The last name of a path that leads somewhere is an entry of the directory that the path before it
leads to. -/
theorem follow_parent {l : Location N} (h : fs.follow false (.name n :: path) = .ok l) :
    ∃ d', fs.Bound path d' ∧ fs.node (n :: d') ≠ none := by
  unfold FileSystem.follow at h
  rw [List.reverse_cons] at h
  obtain ⟨d', hd'⟩ := resolve_prefix h
  obtain ⟨d'', hlead, hlast⟩ := leads_append (leads_of_resolve h)
  obtain rfl := hlead.unique (leads_of_resolve hd')
  have hnode : fs.node (n :: d'') ≠ none := fun hnone => not_leads_missing hnone hlast
  exact ⟨d'', ⟨hd', isDir_of_node hnode⟩, hnode⟩

theorem Bound.locate (h : fs.Bound path d) (n : N) :
    fs.locate (.name n :: path) = .ok (n :: d) := by
  rw [FileSystem.locate, h.follow]
  exact if_pos h.isDir

theorem Bound.follow_missing (h : fs.Bound path d) (hnode : fs.node (n :: d) = none)
    (create : Bool) : fs.follow create (.name n :: path) =
      if create then .ok (n :: d) else .error .notFound := by
  unfold FileSystem.follow
  rw [List.reverse_cons]
  refine resolve_append h.follow h.isDir fun follow => ?_
  rw [followHops, hnode]
  cases create <;> rfl

theorem Bound.follow_entry {node : Node N} (h : fs.Bound path d)
    (hnode : fs.node (n :: d) = some node) (hlink : node.isSymlink = false) (create : Bool) :
    fs.follow create (.name n :: path) = .ok (n :: d) := by
  unfold FileSystem.follow
  rw [List.reverse_cons]
  refine resolve_append h.follow h.isDir fun follow => ?_
  rw [followHops, hnode]
  cases node with
  | dir mode => rfl
  | file mode content => rfl
  | symlink target => cases hlink

theorem Bound.child (h : fs.Bound path d) (hdir : fs.IsDir (n :: d)) :
    fs.Bound (.name n :: path) (n :: d) := by
  obtain ⟨mode, hmode⟩ := isDir_iff.mp hdir
  exact ⟨h.follow_entry hmode rfl false, hdir⟩

end Entries

/-! ### Clear ways -/

/-- Along the names there are directories, and then nothing. -/
def Clear (fs : FileSystem N) (l : Location N) (names : List N) : Prop :=
  ∀ before, before <+: names → fs.node (before.reverse ++ l) = none ∨ fs.IsDir (before.reverse ++ l)

theorem Clear.of_prefix {fs : FileSystem N} {l : Location N} {names names' : List N}
    (h : fs.Clear l names) (hle : names' <+: names) : fs.Clear l names' :=
  fun before hbefore => h before (hbefore.trans hle)

theorem Clear.tail {fs : FileSystem N} {l : Location N} {n : N} {names : List N}
    (h : fs.Clear l (n :: names)) : fs.Clear (n :: l) names := by
  intro before hbefore
  have hclear := h (n :: before) (List.cons_prefix_cons.mpr ⟨rfl, hbefore⟩)
  rwa [List.reverse_cons, List.append_assoc, List.singleton_append] at hclear

theorem Clear.drop {fs : FileSystem N} {l : Location N} {names : List N} (h : fs.Clear l names)
    (k : Nat) : fs.Clear ((names.take k).reverse ++ l) (names.drop k) := by
  intro before hbefore
  obtain ⟨after, hafter⟩ := hbefore
  have hprefix : names.take k ++ before <+: names :=
    ⟨after, by rw [List.append_assoc, hafter, List.take_append_drop]⟩
  have hclear := h _ hprefix
  rwa [List.reverse_append, List.append_assoc] at hclear

theorem followHops_clear {fs : FileSystem N} {jail : Option (Location N)}
    {follow : Location N → Link N → List (Hop N) → Except Errno (Location N)} {l : Location N}
    {names : List N} (hclear : fs.Clear l names) (hdir : fs.IsDir l) :
    fs.followHops jail false follow l (names.map .name) =
      if fs.IsDir (names.reverse ++ l) then .ok (names.reverse ++ l) else .error .notFound := by
  induction names generalizing l with
  | nil => exact (if_pos hdir).symm
  | cons n names ih =>
    rw [List.map_cons, followHops, List.reverse_cons, List.append_assoc, List.singleton_append]
    rcases hclear [n] ⟨names, rfl⟩ with hnone | hdir'
    · have hnone' : fs.node (n :: l) = none := hnone
      have hnot : ¬ fs.IsDir (names.reverse ++ n :: l) := fun h => h.above.ne_none hnone'
      rw [hnone', if_neg hnot]
      simp only [Bool.false_eq_true, false_and, if_false]
    · obtain ⟨mode, hmode⟩ := isDir_iff.mp hdir'
      have hmode' : fs.node (n :: l) = some (.dir mode) := hmode
      rw [hmode']
      exact ih hclear.tail hdir'

theorem resolve_clear {fs : FileSystem N} {jail : Option (Location N)} {l : Location N}
    {names : List N} (hclear : fs.Clear l names) (hdir : fs.IsDir l) :
    fs.resolve jail false l (names.map .name) =
      if fs.IsDir (names.reverse ++ l) then .ok (names.reverse ++ l) else .error .notFound := by
  unfold resolve
  generalize maxLinks = links
  cases links with
  | zero => exact followHops_clear hclear hdir
  | succ links => exact followHops_clear hclear hdir

theorem resolve_names {fs : FileSystem N} {jail : Option (Location N)} {l : Location N}
    {names : List N} (h : fs.IsDir (names.reverse ++ l)) :
    fs.resolve jail false l (names.map .name) = .ok (names.reverse ++ l) := by
  have hl : fs.resolve jail false l [] = .ok l := rfl
  have hnames := resolve_dirs hl h.above h
  rwa [List.reverse_reverse, List.nil_append] at hnames

theorem Clear.leads {fs : FileSystem N} {l r : Location N} {names : List N}
    (hclear : fs.Clear l names) (hdir : fs.IsDir l) (h : fs.Leads l (names.map .name) r) :
    r = names.reverse ++ l ∧ fs.IsDir r := by
  have hresolve : fs.resolve none false l (names.map .name) = _ := resolve_clear hclear hdir
  split at hresolve
  next hdir' =>
    obtain rfl := h.unique (leads_of_resolve hresolve)
    exact ⟨rfl, hdir'⟩
  next => exact absurd h (not_leads_of_resolve hresolve rfl r)

/-! ### Growth -/

/-- No entry is removed, and none becomes one of another kind. -/
def Grows (fs fs' : FileSystem N) : Prop :=
  ∀ l node, fs.node l = some node → ∃ node', fs'.node l = some node' ∧ node'.shape = node.shape

variable {fs fs' fs'' : FileSystem N}

theorem Grows.refl (fs : FileSystem N) : fs.Grows fs := fun _ node h => ⟨node, h, rfl⟩

theorem Grows.trans (h : fs.Grows fs') (h' : fs'.Grows fs'') : fs.Grows fs'' := by
  intro l node hnode
  obtain ⟨node', hnode', hshape⟩ := h l node hnode
  obtain ⟨node'', hnode'', hshape'⟩ := h' l node' hnode'
  exact ⟨node'', hnode'', hshape'.trans hshape⟩

theorem Grows.isDir (h : fs.Grows fs') {l : Location N} (hdir : fs.IsDir l) : fs'.IsDir l := by
  obtain ⟨mode, hmode⟩ := isDir_iff.mp hdir
  obtain ⟨node, hnode, hshape⟩ := h l _ hmode
  cases node with
  | dir mode' => exact isDir_iff.mpr ⟨mode', hnode⟩
  | file mode' content => cases hshape
  | symlink target => cases hshape

theorem Grows.not_symlink (h : fs.Grows fs') {l : Location N} {node : Node N}
    (hnode : fs.node l = some node) (hlink : node.isSymlink = false) :
    ∃ node', fs'.node l = some node' ∧ node'.isSymlink = false := by
  obtain ⟨node', hnode', hshape⟩ := h l node hnode
  exact ⟨node', hnode', (Node.isSymlink_of_shape hshape).trans hlink⟩

theorem Grows.leads (h : fs.Grows fs') {l r : Location N} {hops : List (Hop N)}
    (hleads : fs.Leads l hops r) : fs'.Leads l hops r := by
  induction hleads with
  | here l => exact .here l
  | up _ ih => exact .up ih
  | dir hnode _ ih =>
    obtain ⟨mode, hmode⟩ := isDir_iff.mp (h.isDir (isDir_iff.mpr ⟨_, hnode⟩))
    exact .dir hmode ih
  | file hnode =>
    obtain ⟨node, hnode', hshape⟩ := h _ _ hnode
    cases node with
    | dir _ => cases hshape
    | file mode content => exact .file hnode'
    | symlink _ => cases hshape
  | link hnode _ ih =>
    obtain ⟨node, hnode', hshape⟩ := h _ _ hnode
    cases node with
    | dir _ => cases hshape
    | file _ _ => cases hshape
    | symlink target =>
      cases hshape
      exact .link hnode' ih

/-- What a call that creates its last entry leads to, once the entry is there. -/
theorem followHops_created (h : fs.Grows fs') {jail : Option (Location N)} {create : Bool}
    {follow follow' : Location N → Link N → List (Hop N) → Except Errno (Location N)}
    (hfollow : ∀ l target rest r, follow l target rest = .ok r →
      (create = true → ∃ node, fs'.node r = some node ∧ node.isSymlink = false) →
      follow' l target rest = .ok r)
    {l r : Location N} {hops : List (Hop N)} (hr : fs.followHops jail create follow l hops = .ok r)
    (hthere : create = true → ∃ node, fs'.node r = some node ∧ node.isSymlink = false)
    (create' : Bool) : fs'.followHops jail create' follow' l hops = .ok r := by
  induction hops generalizing l with
  | nil => exact hr
  | cons hop rest ih =>
    cases hop with
    | up =>
      rw [followHops] at hr ⊢
      split at hr
      next => cases hr
      next hjail =>
        rw [if_neg hjail]
        exact ih hr
    | name n =>
      rw [followHops] at hr ⊢
      cases hnode : fs.node (n :: l) with
      | none =>
        rw [hnode] at hr
        simp only at hr
        split at hr
        next hlast =>
          cases hr
          obtain ⟨hcreate, rfl⟩ := hlast
          obtain ⟨node, hnode', hlink⟩ := hthere hcreate
          rw [hnode']
          cases node with
          | dir mode => rfl
          | file mode content => rfl
          | symlink target => cases hlink
        next => cases hr
      | some node =>
        rw [hnode] at hr
        obtain ⟨node', hnode', hshape⟩ := h _ _ hnode
        rw [hnode']
        cases node with
        | dir mode =>
          cases node' with
          | dir mode' => exact ih hr
          | file _ _ => cases hshape
          | symlink _ => cases hshape
        | file mode content =>
          cases node' with
          | dir _ => cases hshape
          | file _ _ => exact hr
          | symlink _ => cases hshape
        | symlink target =>
          cases node' with
          | dir _ => cases hshape
          | file _ _ => cases hshape
          | symlink target' =>
            cases hshape
            exact hfollow _ _ _ _ hr hthere

theorem resolve_created (h : fs.Grows fs') {jail : Option (Location N)} {create : Bool}
    {l r : Location N} {hops : List (Hop N)} (hr : fs.resolve jail create l hops = .ok r)
    (hthere : create = true → ∃ node, fs'.node r = some node ∧ node.isSymlink = false)
    (create' : Bool) : fs'.resolve jail create' l hops = .ok r := by
  unfold resolve at hr ⊢
  generalize maxLinks = links at hr ⊢
  induction links generalizing l r hops with
  | zero => exact followHops_created h (fun _ _ _ _ h _ => by cases h) hr hthere create'
  | succ links ih =>
    refine followHops_created h (fun l target rest r' hr hthere => ?_) hr hthere create'
    split at hr
    next habsolute =>
      rw [if_pos habsolute]
      split at hr
      next => cases hr
      next hjail =>
        rw [if_neg hjail]
        exact ih hthere hr
    next habsolute =>
      rw [if_neg habsolute]
      exact ih hthere hr

theorem resolve_grows (h : fs.Grows fs') {jail : Option (Location N)} {l r : Location N}
    {hops : List (Hop N)} (hr : fs.resolve jail false l hops = .ok r) :
    fs'.resolve jail false l hops = .ok r :=
  resolve_created h hr (fun hcreate => absurd hcreate Bool.false_ne_true) false

theorem followHops_missing {jail : Option (Location N)} {create : Bool}
    {follow : Location N → Link N → List (Hop N) → Except Errno (Location N)} {l r : Location N}
    (hfollow : ∀ l target rest, fs.IsDir l → follow l target rest = .ok r → fs.IsDir r.tail)
    {hops : List (Hop N)} (hdir : fs.IsDir l)
    (hr : fs.followHops jail create follow l hops = .ok r) (hnone : fs.node r = none) :
    fs.IsDir r.tail := by
  induction hops generalizing l with
  | nil =>
    cases hr
    obtain ⟨mode, hmode⟩ := isDir_iff.mp hdir
    rw [hmode] at hnone
    cases hnone
  | cons hop rest ih =>
    cases hop with
    | up =>
      rw [followHops] at hr
      split at hr
      next => cases hr
      next => exact ih (isDir_tail hdir) hr
    | name n =>
      rw [followHops] at hr
      split at hr
      next =>
        split at hr
        next =>
          cases hr
          exact hdir
        next => cases hr
      next mode hnode => exact ih (isDir_iff.mpr ⟨mode, hnode⟩) hr
      next mode content hnode =>
        split at hr
        next =>
          cases hr
          rw [hnode] at hnone
          cases hnone
        next => cases hr
      next target hnode => exact hfollow l target rest hdir hr

theorem resolve_missing {jail : Option (Location N)} {create : Bool} {l r : Location N}
    {hops : List (Hop N)} (hdir : fs.IsDir l) (hr : fs.resolve jail create l hops = .ok r)
    (hnone : fs.node r = none) : fs.IsDir r.tail := by
  unfold resolve at hr
  generalize maxLinks = links at hr
  induction links generalizing l hops with
  | zero => exact followHops_missing (fun _ _ _ _ h => by cases h) hdir hr hnone
  | succ links ih =>
    refine followHops_missing (fun l target rest hdir hr => ?_) hdir hr hnone
    split at hr
    next =>
      split at hr
      next => cases hr
      next => exact ih fs.isDir_root hr
    next => exact ih hdir hr

theorem Bound.grows {path : AbsPath N} {d : Location N} (hb : fs.Bound path d) (h : fs.Grows fs') :
    fs'.Bound path d :=
  ⟨resolve_grows h hb.follow, h.isDir hb.isDir⟩

theorem grows_set {l : Location N} {new : Node N}
    (h : ∀ old, fs.node l = some old → new.shape = old.shape) : fs.Grows (fs.set l new) := by
  intro l' node hnode
  by_cases hadmits : fs.Admits l new
  · rw [node_set hadmits]
    split
    next heq => exact ⟨new, rfl, h node (heq ▸ hnode)⟩
    next => exact ⟨node, hnode, rfl⟩
  · rw [set_of_not_admits hadmits]
    exact ⟨node, hnode, rfl⟩

/-! ### Growth by files -/

/-- What is not a file was there before, and was of its kind. -/
def OnlyFiles (fs fs' : FileSystem N) : Prop :=
  ∀ l node, fs'.node l = some node → (∃ mode content, node = .file mode content) ∨
    ∃ old, fs.node l = some old ∧ old.shape = node.shape

theorem OnlyFiles.refl (fs : FileSystem N) : fs.OnlyFiles fs := fun _ node h => .inr ⟨node, h, rfl⟩

theorem OnlyFiles.trans (h : fs.OnlyFiles fs') (h' : fs'.OnlyFiles fs'') : fs.OnlyFiles fs'' := by
  intro l node hnode
  rcases h' l node hnode with hfile | ⟨node', hnode', hshape'⟩
  · exact .inl hfile
  · rcases h l node' hnode' with ⟨mode, content, rfl⟩ | ⟨old, hold, hshape⟩
    · cases node with
      | file mode' content' => exact .inl ⟨mode', content', rfl⟩
      | dir mode' => cases hshape'
      | symlink target => cases hshape'
    · exact .inr ⟨old, hold, hshape.trans hshape'⟩

theorem OnlyFiles.isDir (h : fs.OnlyFiles fs') {l : Location N} (hdir : fs'.IsDir l) : fs.IsDir l := by
  obtain ⟨mode, hmode⟩ := isDir_iff.mp hdir
  rcases h l _ hmode with ⟨mode', content, hfile⟩ | ⟨old, hold, hshape⟩
  · cases hfile
  · cases old with
    | dir mode' => exact isDir_iff.mpr ⟨mode', hold⟩
    | file mode' content => cases hshape
    | symlink target => cases hshape

/-- The tree has changed at `l` only, where the node is now. -/
def Writes (fs fs' : FileSystem N) (l : Location N) (node : Node N) : Prop :=
  ∀ l', fs'.node l' = if l' = l then some node else fs.node l'

variable {l : Location N} {node node' : Node N}

theorem Writes.self (h : Writes fs fs' l node) : fs'.node l = some node := by
  rw [h l, if_pos rfl]

theorem Writes.other (h : Writes fs fs' l node) {l' : Location N} (hne : l' ≠ l) :
    fs'.node l' = fs.node l' := by
  rw [h l', if_neg hne]

theorem Writes.trans (h : Writes fs fs' l node) (h' : Writes fs' fs'' l node') :
    Writes fs fs'' l node' := by
  intro l'
  rw [h' l']
  split
  next => rfl
  next hne => exact h.other hne

theorem Writes.grows (h : Writes fs fs' l node)
    (hshape : ∀ old, fs.node l = some old → node.shape = old.shape) : fs.Grows fs' := by
  intro l' old hold
  by_cases hl : l' = l
  · subst hl
    exact ⟨node, h.self, hshape old hold⟩
  · exact ⟨old, (h.other hl).trans hold, rfl⟩

theorem writes_set {old : Node N} (hold : fs.node l = some old)
    (hshape : node.shape = old.shape) : Writes fs (fs.set l node) l node :=
  node_set (admits_of_shape hold hshape)

theorem Writes.grows_new (h : Writes fs fs' l node) (hnone : fs.node l = none) : fs.Grows fs' :=
  h.grows fun old hold => by cases hnone.symm.trans hold

theorem writes_new {n : N} {d : Location N} (hnone : fs.node (n :: d) = none) (hdir : fs.IsDir d)
    (node : Node N) : Writes fs (fs.set (n :: d) node) (n :: d) node :=
  node_set (admits_of_none hnone hdir node)

end FileSystem

end Posix
