import PgEmbeddedSetup.Bootstrap.Machine

/-!
# What the steps of the processes keep

Every step is granted (`granted_*`), and the tree grows by it. So what a path leads to lasts, and so do
directories and their owner. Modes do not last, since any process may set them: `Assigned` says what is
known of them, which is that the mode of a place is the last that the process has set, or one that another
process sets there.
-/

namespace PgEmbeddedSetup.Bootstrap

open Env Fs Interleave Lexical Posix FileSystem
open Cache (changeMode maskMode modeOf withMode shape_withMode writes_changeMode)
open Machine (Role)
open Privileges (User)

variable {T : Type} {m : Machine T} {t : T} {d d' : Disk} {path : Utf8Path} {l : Location OsString}

theorem body_withMode (mode : Nat) (node : Node OsString) : (withMode mode node).body = node.body := by
  cases node <;> rfl

theorem shape_of_body {node node' : Node OsString} (h : node'.body = node.body) :
    node'.shape = node.shape := by
  rw [← Node.shape_body, h, Node.shape_body]

theorem modeOf_withMode (mode : Nat) (node : Node OsString) (h : node.isSymlink = false) :
    modeOf (withMode mode node) = mode := by
  cases node with
  | symlink => cases h
  | _ => rfl

theorem node_eq_of_body {node node' : Node OsString} (hbody : node'.body = node.body)
    (hmode : modeOf node' = modeOf node) : node' = node := by
  cases node <;> cases node' <;> cases hbody <;> cases hmode <;> rfl

namespace Machine

theorem Granted.grows (h : m.Granted t d d') : d.fs.Grows d'.fs := fun l node hnode => by
  obtain ⟨node', hnode', hbody, -⟩ := h.kept l node hnode
  exact ⟨node', hnode', shape_of_body hbody⟩

theorem Leads.grows {t' : T} (h : m.Leads d t' path l) (hgrows : d.fs.Grows d'.fs) :
    m.Leads d' t' path l :=
  Grows.leads hgrows h

/-! ### The steps -/

theorem granted_refl (m : Machine T) (t : T) (d : Disk) : m.Granted t d d where
  kept := fun _ node hnode => ⟨node, hnode, rfl, Or.inl rfl⟩
  made := fun _ _ hnone hnode => by cases hnone.symm.trans hnode
  owner := fun _ _ => Or.inl rfl

theorem granted_makeDir {n : OsString} {parent : Location OsString}
    (hnone : d.fs.node (n :: parent) = none) (hdir : d.fs.IsDir parent)
    (hway : m.OnWay (d.makeDir (m.process t) (n :: parent)) t (n :: parent)) :
    m.Granted t d (d.makeDir (m.process t) (n :: parent)) := by
  have hwrites := writes_new hnone hdir (.dir (maskMode (m.process t).umask 0o777))
  refine ⟨fun l node hnode => ?_, fun l node hnone' hnode => ?_, fun l hnode => Or.inl ?_⟩
  · have hne : l ≠ n :: parent := fun heq => by cases (heq ▸ hnone).symm.trans hnode
    exact ⟨node, (hwrites.other hne).trans hnode, rfl, Or.inl rfl⟩
  · by_cases heq : l = n :: parent
    · subst heq
      refine ⟨Option.some.inj (hnode.symm.trans hwrites.self), hway, ?_⟩
      exact Function.update_self (f := d.owner) ..
    · cases hnone'.symm.trans ((hwrites.other heq).symm.trans hnode)
  · have hne : l ≠ n :: parent := fun heq => hnode (heq ▸ hnone)
    exact Function.update_of_ne hne _ d.owner

theorem isDir_start (hcwd : d.fs.IsDir (m.process t).cwd) (path : Utf8Path) :
    d.fs.IsDir (path.start (m.process t).cwd) := by
  unfold Path.start
  split
  · exact d.fs.isDir_root
  · exact hcwd

theorem grows_setMode {old : Node OsString} (hold : d.fs.node l = some old) (mode : Nat) :
    d.fs.Grows (d.setMode l mode).fs :=
  (writes_changeMode hold mode).grows fun old' hold' => by
    obtain rfl := Option.some.inj (hold.symm.trans hold')
    exact shape_withMode mode old

theorem granted_setMode {mode : Nat} (hleads : m.Leads d t path l) (hdir : d.fs.IsDir (m.process t).cwd)
    (hsets : ∀ d', m.Leads d' t path l → m.Sets d' t l mode) :
    m.Granted t d (d.setMode l mode) := by
  obtain ⟨old, hold, hlink⟩ := hleads.node (isDir_start hdir path)
  have hwrites := writes_changeMode hold mode
  refine ⟨fun l' node hnode => ?_, fun l' node hnone hnode => ?_, fun l' _ => Or.inl rfl⟩
  · by_cases heq : l' = l
    · subst heq
      obtain rfl := Option.some.inj (hold.symm.trans hnode)
      refine ⟨_, hwrites.self, body_withMode mode old, Or.inr ?_⟩
      rw [modeOf_withMode mode old hlink]
      exact hsets _ (hleads.grows (grows_setMode hold mode))
    · exact ⟨node, (hwrites.other heq).trans hnode, rfl, Or.inl rfl⟩
  · have hne : l' ≠ l := fun heq => by cases (heq ▸ hold).symm.trans hnone
    cases hnone.symm.trans ((hwrites.other hne).symm.trans hnode)

theorem granted_give {user : User} (given : Location OsString → Bool)
    (hroot : (m.process t).privileges = .root) (huser : m.nobody = some user) :
    m.Granted t d (d.give user given) where
  kept := fun _ node hnode => ⟨node, hnode, rfl, Or.inl rfl⟩
  made := fun _ _ hnone hnode => by cases hnone.symm.trans hnode
  owner := fun l _ => by
    unfold Disk.give
    simp only
    split
    · exact Or.inr ⟨hroot, huser⟩
    · exact Or.inl rfl

/-! ### What lasts -/

/-- What a growing tree keeps. -/
def Growing (F : Disk → Prop) : Prop := ∀ d d', d.fs.Grows d'.fs → F d → F d'

/-- The path leads to a directory. -/
def DirAt (m : Machine T) (t : T) (path : Utf8Path) (l : Location OsString) (d : Disk) : Prop :=
  m.Leads d t path l ∧ d.fs.IsDir l

theorem growing_dirAt (m : Machine T) (t : T) (path : Utf8Path) (l : Location OsString) :
    Growing (m.DirAt t path l) :=
  fun _ _ hgrows h => ⟨h.1.grows hgrows, hgrows.isDir h.2⟩

theorem growing_pure {p : Prop} : Growing fun _ => p := fun _ _ _ h => h

theorem Growing.and {F F' : Disk → Prop} (h : Growing F) (h' : Growing F') :
    Growing fun d => F d ∧ F' d :=
  fun d d' hgrows hd => ⟨h d d' hgrows hd.1, h' d d' hgrows hd.2⟩

theorem Growing.of_ok {ε α : Type} {F : α → Disk → Prop} {p : Prop} {r : Except ε α}
    (h : ∀ a, Growing (F a)) : Growing fun d => (∀ a, r = .ok a → F a d) ∧ p :=
  fun d d' hgrows hd => ⟨fun a hok => h a d d' hgrows (hd.1 a hok), hd.2⟩

theorem Growing.exists {ι : Sort*} {F : ι → Disk → Prop} (h : ∀ i, Growing (F i)) :
    Growing fun d => ∃ i, F i d :=
  fun d d' hgrows ⟨i, hd⟩ => ⟨i, h i d d' hgrows hd⟩

theorem Granted.owner_nobody (h : m.Granted t d d') (hnode : d.fs.node l ≠ none)
    (howner : m.nobody = some (d.owner l)) : d'.owner l = d.owner l := by
  rcases h.owner l hnode with heq | ⟨-, heq⟩
  · exact heq
  · exact Option.some.inj (heq.symm.trans howner)

/-! ### The modes that are set -/

/-- The mode may be set at the place by another process. -/
def Others (m : Machine T) (d : Disk) (t : T) (l : Location OsString) (mode : Nat) : Prop :=
  ∃ t', t' ≠ t ∧ m.Sets d t' l mode

/-- The last of the roles that leads to the place has the mode. -/
def LastAt (m : Machine T) (d : Disk) (t : T) (roles : List Role) (l : Location OsString)
    (mode : Nat) : Prop :=
  ∃ before role after, roles = before ++ role :: after ∧ m.Leads d t role.path l ∧
    role.mode = mode ∧ ∀ r ∈ after, ¬ m.Leads d t r.path l

/-- The modes of the roles have been set, in their order. -/
structure Assigned (m : Machine T) (t : T) (roles : List Role) (d : Disk) : Prop where
  cwd : d.fs.IsDir (m.process t).cwd
  reached : ∀ role ∈ roles, ∃ l, m.Leads d t role.path l
  modes : ∀ l mode node, m.LastAt d t roles l mode → d.fs.node l = some node →
    modeOf node = mode ∨ m.Others d t l (modeOf node)

theorem Sets.grows {mode : Nat} (h : m.Sets d t l mode) (hgrows : d.fs.Grows d'.fs) :
    m.Sets d' t l mode := by
  obtain ⟨paths, hpaths, role, hrole, hleads, hmode⟩ := h
  exact ⟨paths, hpaths, role, hrole, hleads.grows hgrows, hmode⟩

theorem Others.grows {mode : Nat} (h : m.Others d t l mode) (hgrows : d.fs.Grows d'.fs) :
    m.Others d' t l mode := by
  obtain ⟨t', ht, hsets⟩ := h
  exact ⟨t', ht, hsets.grows hgrows⟩

/-- What a role leads to afterwards it has led to before, if it led anywhere. -/
theorem LastAt.of_grows {roles : List Role} {mode : Nat} (h : m.LastAt d' t roles l mode)
    (hgrows : d.fs.Grows d'.fs) (hreached : ∀ role ∈ roles, ∃ l, m.Leads d t role.path l) :
    m.LastAt d t roles l mode := by
  obtain ⟨before, role, after, rfl, hleads, hmode, hafter⟩ := h
  obtain ⟨l', hleads'⟩ := hreached role (List.mem_append_right _ List.mem_cons_self)
  obtain rfl := hleads.unique (hleads'.grows hgrows)
  exact ⟨before, role, after, rfl, hleads', hmode, fun r hr h => hafter r hr (h.grows hgrows)⟩

theorem LastAt.leads {roles : List Role} {mode : Nat} (h : m.LastAt d t roles l mode) :
    ∃ path, m.Leads d t path l := by
  obtain ⟨_, role, _, -, hleads, -⟩ := h
  exact ⟨role.path, hleads⟩

theorem Assigned.step {roles : List Role} (h : m.Assigned t roles d) (hgrows : d.fs.Grows d'.fs)
    (hkept : ∀ l node node', d.fs.node l = some node → d'.fs.node l = some node' →
      modeOf node' = modeOf node ∨ m.Others d' t l (modeOf node')) : m.Assigned t roles d' := by
  refine ⟨hgrows.isDir h.cwd, fun role hrole => ?_, fun l mode node' hlast hnode' => ?_⟩
  · obtain ⟨l, hleads⟩ := h.reached role hrole
    exact ⟨l, hleads.grows hgrows⟩
  · have hlast' := hlast.of_grows hgrows h.reached
    obtain ⟨path, hleads⟩ := hlast'.leads
    obtain ⟨node, hnode, -⟩ := hleads.node (isDir_start h.cwd path)
    rcases hkept l node node' hnode hnode' with hmode | hothers
    · rw [hmode]
      exact (h.modes l mode node hlast' hnode).imp_right fun hothers => hothers.grows hgrows
    · exact Or.inr hothers

/-- Steps that set no mode. -/
def Quiet (d d' : Disk) : Prop :=
  ∀ l node node', d.fs.node l = some node → d'.fs.node l = some node' → modeOf node' = modeOf node

theorem Assigned.granted {roles : List Role} {t' : T} (h : m.Assigned t roles d)
    (hgranted : m.Granted t' d d') (hquiet : t' = t → Quiet d d') : m.Assigned t roles d' := by
  refine h.step hgranted.grows fun l node node' hnode hnode' => ?_
  by_cases ht : t' = t
  · exact Or.inl (hquiet ht l node node' hnode hnode')
  · obtain ⟨node'', hnode'', -, hmode⟩ := hgranted.kept l node hnode
    obtain rfl := Option.some.inj (hnode'.symm.trans hnode'')
    exact hmode.imp_right fun hsets => ⟨t', ht, hsets⟩

theorem lastAt_concat {roles : List Role} {role : Role} {mode : Nat} :
    m.LastAt d t (roles ++ [role]) l mode ↔
      m.Leads d t role.path l ∧ role.mode = mode ∨
        ¬ m.Leads d t role.path l ∧ m.LastAt d t roles l mode := by
  constructor
  · rintro ⟨before, r, after, heq, hleads, hmode, hafter⟩
    rcases List.eq_nil_or_concat after with rfl | ⟨after', r', rfl⟩
    · obtain ⟨rfl, hr⟩ := List.append_inj' heq rfl
      obtain rfl := (List.cons.inj hr).1
      exact Or.inl ⟨hleads, hmode⟩
    · rw [List.concat_eq_append, ← List.cons_append, ← List.append_assoc] at heq
      obtain ⟨rfl, hr⟩ := List.append_inj' heq rfl
      obtain rfl := (List.cons.inj hr).1
      refine Or.inr ⟨hafter role (by simp), before, r, after', rfl, hleads, hmode, fun r' hr' => ?_⟩
      exact hafter r' (by simp [hr'])
  · rintro (⟨hleads, hmode⟩ | ⟨hnot, before, r, after, rfl, hleads, hmode, hafter⟩)
    · exact ⟨roles, role, [], rfl, hleads, hmode, fun r hr => absurd hr List.not_mem_nil⟩
    · refine ⟨before, r, after ++ [role], by simp, hleads, hmode, fun r' hr' => ?_⟩
      rcases List.mem_append.mp hr' with hr' | hr'
      · exact hafter r' hr'
      · rw [List.mem_singleton.mp hr']
        exact hnot

theorem Assigned.setMode {roles : List Role} {role : Role} (h : m.Assigned t roles d)
    (hleads : m.Leads d t role.path l) :
    m.Assigned t (roles ++ [role]) (d.setMode l role.mode) := by
  obtain ⟨old, hold, hlink⟩ := hleads.node (isDir_start h.cwd role.path)
  have hwrites := writes_changeMode hold role.mode
  have hgrows := grows_setMode hold role.mode
  refine ⟨hgrows.isDir h.cwd, fun r hr => ?_, fun l' mode node hlast hnode => ?_⟩
  · rcases List.mem_append.mp hr with hr | hr
    · obtain ⟨l', hleads'⟩ := h.reached r hr
      exact ⟨l', hleads'.grows hgrows⟩
    · rw [List.mem_singleton.mp hr]
      exact ⟨l, hleads.grows hgrows⟩
  · rcases lastAt_concat.mp hlast with ⟨hleads', rfl⟩ | ⟨hnot, hlast'⟩
    · obtain rfl := hleads'.unique (hleads.grows hgrows)
      obtain rfl := Option.some.inj (hnode.symm.trans hwrites.self)
      exact Or.inl (modeOf_withMode role.mode old hlink)
    · have hne : l' ≠ l := fun heq => hnot (heq ▸ hleads.grows hgrows)
      have hnode' := (hwrites.other hne).symm.trans hnode
      refine (h.modes l' mode node (hlast'.of_grows hgrows h.reached) hnode').imp_right fun ho => ?_
      exact ho.grows hgrows

end Machine

end PgEmbeddedSetup.Bootstrap
