import PgEmbeddedSetup.Bootstrap.Order

/-!
# What any interleaving leaves behind

The main results on processes that prepare their directories at once. A process that has returned finds
its directories with their modes and owners, whatever the others do (`prepared_directories`), and its data
directory is private but for one configuration (`dataDir_private`). The rest of the tree is as it was
(`evolved`). Where all is calm every bootstrap succeeds (`prepares_calmly`), and where one has succeeded
the others of its kind change nothing any more (`prepared_for_good`).
-/

namespace PgEmbeddedSetup.Bootstrap

open Env Fs Interleave Lexical Posix FileSystem Transition
open Cache (changeMode maskMode modeOf)
open Machine (Role unlessRoot)
open Postgres (ExecutionPrivileges)
open Privileges (User isUtf8)

variable {T : Type} [DecidableEq T] {m : Machine T} {t : T} {d : Disk} {l : Location OsString}
  {calm : Prop} {c c' : System T} {es es' : List (T × Choice)}

namespace Machine

/-! ### Runs -/

omit [DecidableEq T] in
theorem Ready.nonroot (h : m.Ready calm d) (hcalm : calm) {paths : SettingsPaths}
    (hpaths : m.paths t = some paths) : paths.passwordFile.parent ≠ none := by
  obtain ⟨names, hnames, hfile, -⟩ := h.password hcalm t paths hpaths
  rcases List.eq_nil_or_concat names with rfl | ⟨names', n, rfl⟩
  · obtain ⟨mode, hroot⟩ := isDir_iff.mp d.fs.isDir_root
    rcases hfile with hnone | hfile
    · exact absurd hnone (isDir_root d.fs).ne_none
    · have hfile' : isFileAt d.fs [] = true := hfile
      unfold isFileAt at hfile'
      rw [hroot] at hfile'
      cases hfile'
  · rw [hnames, List.concat_eq_append, Path.parent_absolute_concat]
    exact fun h => by cases h

omit [DecidableEq T] in
theorem standing_nil (hcwd : d.fs.IsDir (m.process t).cwd) : m.Standing t [] [] d := by
  refine ⟨⟨hcwd, fun _ h => absurd h List.not_mem_nil, fun l mode node hlast _ => ?_⟩,
    fun _ h => absurd h List.not_mem_nil⟩
  obtain ⟨before, role, after, h, -⟩ := hlast
  cases before <;> cases h

/-- What a process has that has returned. -/
def Result (m : Machine T) (t : T) (calm : Prop) (start : Disk) :
    Except BootstrapError PreparedBootstrap → Disk → Prop
  | .ok prepared, d => ∃ assigned made, m.Prepares t start prepared assigned made ∧
      m.Standing t (unlessRoot assigned) made d
  | .error _, _ => ¬ calm

/-- The process goes on to its result. -/
def Going (m : Machine T) (calm : Prop) (start : Disk) (c : System T) (t : T) : Prop :=
  ∃ P, (m.contract calm).Stable t P ∧ P c.state ∧
    (m.contract calm).Ensures t (c.threads t) P fun r s => m.Result t calm start r s ∧ m.Ready calm s

omit [DecidableEq T] in
theorem going_init (hready : m.Ready calm d) (t : T) : m.Going calm d (m.init d) t := by
  refine ⟨fun s => (m.Standing t [] [] s ∧ d.fs.Grows s.fs) ∧ m.Ready calm s, ?_,
    ⟨⟨standing_nil (hready.cwd t), Grows.refl d.fs⟩, hready⟩, ?_⟩
  · have hloud : (m.loud calm).Stable t fun s => m.Standing t [] [] s ∧ d.fs.Grows s.fs :=
      (stable_standing [] []).and ((growing_start d).loud.stable t)
    have hstanding : (m.contract calm).Stable t fun s => m.Standing t [] [] s ∧ d.fs.Grows s.fs := hloud
    exact hstanding.and ((lasting_ready m calm).stable t)
  · have hsettles : m.Settles t calm d [] (prepareBootstrap (m.process t).privileges
        (m.process t).settings (m.process t).cfg) (m.Prepares t d) :=
      settles_prepareBootstrap fun h _ hpaths => hready.nonroot h hpaths
    refine (Contract.Ensures.of_under (hsettles [] [] (List.nil_subset _))
      (lasting_ready m calm)).mono (fun _ h => h) fun r s h => ?_
    cases r with
    | ok prepared =>
      obtain ⟨⟨assigned, made, hprepares, hstanding⟩, hready'⟩ := h
      exact ⟨⟨assigned, made, hprepares, hstanding⟩, hready'⟩
    | error e => exact h

theorem run_going {start : Disk} (hgoing : ∀ t, m.Going calm start c t) (hcalm : calm → ∀ e ∈ es, Calm e.2)
    (hrun : run m.next es c = some c') :
    Relation.ReflTransGen (m.contract calm).Step c.state c'.state ∧
      ∀ t, m.Going calm start c' t := by
  choose P hstable hstart hthreads using hgoing
  have halong : Along m.next (OnInstr (m.contract calm).cond) es c :=
    along_of_mem (fun e he _ _ _ _ h => hcalm h e he) _
  exact Contract.run_ensures hthreads hstable hstart halong hrun

theorem run_prepares (hready : m.Ready calm d) (hcalm : calm → ∀ e ∈ es, Calm e.2)
    (hrun : run m.next es (m.init d) = some c) :
    Relation.ReflTransGen (m.contract calm).Step d c.state ∧
      ∀ t r, c.threads t = .ret r → m.Result t calm d r c.state := by
  obtain ⟨hsteps, hgoing⟩ := run_going (going_init hready) hcalm hrun
  refine ⟨hsteps, fun t r hret => ?_⟩
  obtain ⟨P, -, hP, hensures⟩ := hgoing t
  exact (hensures.of_ret hret hP).1

omit [DecidableEq T] in
theorem ready_wild (hcwd : ∀ t, d.fs.IsDir (m.process t).cwd) : m.Ready False d :=
  ⟨hcwd, False.elim, False.elim, False.elim, False.elim⟩

/-! ### The directories -/

/-- What a process leaves behind that has prepared its directories. -/
structure Finished (m : Machine T) (t : T) (paths : SettingsPaths) (found : Bool) (d : Disk) : Prop where
  directories : ∀ path ∈ paths.made, ∃ l, m.Leads d t path l ∧ d.fs.IsDir l ∧
    ((m.process t).privileges = .root → m.nobody = some (d.owner l))
  modes : ∀ l mode node, m.LastAt d t (paths.settled found (m.process t).privileges) l mode →
    d.fs.node l = some node → modeOf node = mode ∨ m.Others d t l (modeOf node)

omit [DecidableEq T] in
theorem Result.finished {prepared : PreparedBootstrap} {start : Disk}
    (h : m.Result t calm start (.ok prepared) d) :
    ∃ paths found, m.paths t = some paths ∧ Describes paths prepared ∧
      ((∃ l, m.Leads start t paths.passwordFile l) → found = true) ∧ m.Finished t paths found d := by
  obtain ⟨_, _, ⟨paths, found, hpaths, hdescribes, hfound, rfl, rfl⟩, hstanding⟩ := h
  refine ⟨paths, found, hpaths, hdescribes, hfound, fun path hpath => ?_, hstanding.assigned.modes⟩
  obtain ⟨l, hdir, howner⟩ := hstanding.held path hpath
  exact ⟨l, hdir.1, hdir.2, howner⟩

/-- **A bootstrap that has succeeded stands.** In every state of every interleaving, each directory of a
process that has returned is there, and belongs to `nobody` if the process is root. Its mode is that of
the last of the process's paths that lead to it, or one that a path of another process has there. The
password file is among these paths if it was there at the start. -/
theorem prepared_directories (hcwd : ∀ t, d.fs.IsDir (m.process t).cwd)
    (hrun : run m.next es (m.init d) = some c) {prepared : PreparedBootstrap}
    (hret : c.threads t = .ret (.ok prepared)) :
    ∃ paths found, m.paths t = some paths ∧ Describes paths prepared ∧
      ((∃ l, m.Leads d t paths.passwordFile l) → found = true) ∧
      m.Finished t paths found c.state := by
  obtain ⟨-, hresult⟩ := run_prepares (ready_wild hcwd) False.elim hrun
  exact (hresult t _ hret).finished

/-! ### The data directory -/

omit [DecidableEq T] in
theorem lastAt_unlessRoot {roles : List Role} (before : List Role) (role : Role) (after : List Role)
    (hroles : roles = before ++ role :: after) (hnonroot : role.path.parent ≠ none)
    (hleads : m.Leads d t role.path l) (hafter : ∀ r ∈ after, ¬ m.Leads d t r.path l) :
    m.LastAt d t (unlessRoot roles) l role.mode := by
  refine ⟨unlessRoot before, role, unlessRoot after, ?_, hleads, rfl,
    fun r hr => hafter r (List.mem_filter.mp hr).1⟩
  have hkept : unlessRoot (role :: after) = role :: unlessRoot after :=
    List.filter_cons_of_pos (Option.isSome_iff_ne_none.mpr hnonroot)
  rw [hroles, ← hkept]
  exact List.filter_append ..

theorem childOf_nonroot (path : Utf8Path) (name : String) : (childOf path name).parent ≠ none := by
  intro hnone
  have hname : (Path.ofName (osString name)).isAbsolute = false := rfl
  rcases Path.components_join (p := path) hname with ⟨-, heq⟩ | ⟨hne, heq⟩
  · rcases Path.parent_eq_none.mp hnone with h | h <;> cases heq.symm.trans h
  · obtain ⟨c, cs, hcs⟩ := List.exists_cons_of_ne_nil hne
    rw [hcs] at heq
    rcases Path.parent_eq_none.mp hnone with h | h
    · cases heq.symm.trans h
    · have hlength := congrArg List.length (heq.symm.trans h)
      simp [Path.ofName, Component.isInner] at hlength

theorem chmods_dataDir (paths : SettingsPaths) (found : Bool) (privileges : ExecutionPrivileges) :
    ∃ before after, paths.chmods found privileges = before ++ ⟨paths.dataDir, 0o700⟩ :: after ∧
      ∀ r ∈ after, r ∈ paths.xdgRoles ∨ r = paths.pgpassRole := by
  cases privileges with
  | root =>
    refine ⟨paths.parentRoles ++ [⟨paths.installDir, 0o755⟩],
      paths.xdgRoles ++ paths.xdgRoles ++ if found then [paths.pgpassRole] else [], ?_, fun r hr => ?_⟩
    · simp [SettingsPaths.chmods, SettingsPaths.mainRoles]
    · simp only [List.mem_append, List.mem_ite_nil_right, List.mem_singleton] at hr
      tauto
  | unprivileged =>
    refine ⟨[⟨paths.installDir, 0o755⟩],
      (if found then [paths.pgpassRole] else []) ++ paths.xdgRoles, ?_, fun r hr => ?_⟩
    · simp [SettingsPaths.chmods, SettingsPaths.mainRoles]
    · simp only [List.mem_append, List.mem_ite_nil_right, List.mem_singleton] at hr
      tauto

theorem chmods_xdg (paths : SettingsPaths) (found : Bool) (privileges : ExecutionPrivileges) :
    ∃ before after, paths.chmods found privileges = before ++ ⟨childOf paths.installDir "cache", 0o755⟩ ::
        ⟨childOf paths.installDir "run", 0o700⟩ :: after ∧
      ∀ r ∈ after, r = paths.pgpassRole := by
  cases privileges with
  | root =>
    refine ⟨paths.parentRoles ++ paths.mainRoles ++ paths.xdgRoles,
      if found then [paths.pgpassRole] else [], ?_, fun r hr => ?_⟩
    · simp [SettingsPaths.chmods, SettingsPaths.xdgRoles]
    · simp only [List.mem_ite_nil_right, List.mem_singleton] at hr
      exact hr.2
  | unprivileged =>
    refine ⟨paths.mainRoles ++ if found then [paths.pgpassRole] else [], [], ?_,
      fun r hr => absurd hr List.not_mem_nil⟩
    simp [SettingsPaths.chmods, SettingsPaths.xdgRoles]

omit [DecidableEq T] in
theorem lastAt_dataDir (paths : SettingsPaths) (found : Bool) (privileges : ExecutionPrivileges)
    (hdata : m.Leads d t paths.dataDir l) (hnonroot : paths.dataDir.parent ≠ none)
    (hpassword : ¬ m.Leads d t paths.passwordFile l) :
    ∃ mode, m.LastAt d t (paths.settled found privileges) l mode ∧
      (mode = 0o700 ↔ (m.Leads d t (childOf paths.installDir "cache") l →
        m.Leads d t (childOf paths.installDir "run") l)) := by
  obtain ⟨before, after, hxdg, hafter⟩ := chmods_xdg paths found privileges
  have hpgpass : ∀ r ∈ after, ¬ m.Leads d t r.path l := fun r hr => hafter r hr ▸ hpassword
  by_cases hrun : m.Leads d t (childOf paths.installDir "run") l
  · refine ⟨0o700, ?_, iff_of_true rfl fun _ => hrun⟩
    exact lastAt_unlessRoot (before ++ [⟨childOf paths.installDir "cache", 0o755⟩])
      ⟨childOf paths.installDir "run", 0o700⟩ after (by rw [hxdg]; simp) (childOf_nonroot _ _) hrun hpgpass
  · by_cases hcache : m.Leads d t (childOf paths.installDir "cache") l
    · refine ⟨0o755, ?_, iff_of_false (by decide) fun h => hrun (h hcache)⟩
      refine lastAt_unlessRoot before ⟨childOf paths.installDir "cache", 0o755⟩ _ hxdg
        (childOf_nonroot _ _) hcache fun r hr => ?_
      rcases List.mem_cons.mp hr with rfl | hr
      · exact hrun
      · exact hpgpass r hr
    · refine ⟨0o700, ?_, iff_of_true rfl fun h => absurd h hcache⟩
      obtain ⟨before', after', hchmods, hafter'⟩ := chmods_dataDir paths found privileges
      refine lastAt_unlessRoot before' ⟨paths.dataDir, 0o700⟩ after' hchmods hnonroot hdata fun r hr => ?_
      rcases hafter' r hr with hr | rfl
      · simp only [SettingsPaths.xdgRoles, List.mem_cons, List.not_mem_nil, or_false] at hr
        rcases hr with rfl | rfl
        · exact hcache
        · exact hrun
      · exact hpassword

/-- **Whether the data directory is private.** Once a process has returned, and where no path of another
process leads to its data directory, the mode of that is `0o700` just where it is not the cache directory,
or is the run directory as well. The password file is apart from it. -/
theorem dataDir_private (hcwd : ∀ t, d.fs.IsDir (m.process t).cwd)
    (hrun : run m.next es (m.init d) = some c) {prepared : PreparedBootstrap}
    (hret : c.threads t = .ret (.ok prepared)) {paths : SettingsPaths} (hpaths : m.paths t = some paths)
    (hnonroot : paths.dataDir.parent ≠ none) (hdata : m.Leads c.state t paths.dataDir l)
    (hpassword : ¬ m.Leads c.state t paths.passwordFile l)
    (hothers : ∀ mode, ¬ m.Others c.state t l mode) :
    ∃ mode, c.state.fs.node l = some (.dir mode) ∧
      (mode = 0o700 ↔ (m.Leads c.state t (childOf paths.installDir "cache") l →
        m.Leads c.state t (childOf paths.installDir "run") l)) := by
  obtain ⟨paths', found, hpaths', -, -, hfinished⟩ := prepared_directories hcwd hrun hret
  obtain rfl := Option.some.inj (hpaths.symm.trans hpaths')
  have hmade : paths.dataDir ∈ paths.made := by
    simp [SettingsPaths.made, SettingsPaths.directories, SettingsPaths.mainRoles]
  obtain ⟨l', hleads, hdir, -⟩ := hfinished.directories _ hmade
  obtain rfl := hdata.unique hleads
  obtain ⟨mode, hmode⟩ := isDir_iff.mp hdir
  obtain ⟨mode', hlast, hiff⟩ :=
    lastAt_dataDir paths found (m.process t).privileges hdata hnonroot hpassword
  have heq := (hfinished.modes l mode' _ hlast hmode).resolve_right (hothers _)
  have heq' : mode = mode' := heq
  exact ⟨mode, hmode, heq' ▸ hiff⟩

/-! ### The rest of the tree -/

omit [DecidableEq T] in
theorem OnWay.grows {d' : Disk} (h : m.OnWay d t l) (hgrows : d.fs.Grows d'.fs) : m.OnWay d' t l := by
  obtain ⟨paths, hpaths, path, hmem, n, hleads⟩ := h
  exact ⟨paths, hpaths, path, hmem, n, hleads.grows hgrows⟩

/-- The entry goes to `nobody`, by a root process. -/
def Given (m : Machine T) (user : User) : Prop :=
  ∃ t, (m.process t).privileges = .root ∧ m.nobody = some user

/-- A directory that is made for a path, with the mode of its process or one that is meant for it. -/
structure MadeFor (m : Machine T) (d : Disk) (l : Location OsString) (node : Node OsString) : Prop where
  dir : node.isDir = true
  made : ∃ t, m.OnWay d t l ∧ (d.owner l = (m.process t).user ∨ m.Given (d.owner l)) ∧
    (modeOf node = maskMode (m.process t).umask 0o777 ∨ ∃ t', m.Sets d t' l (modeOf node))

/-- What becomes of a tree: no entry goes away, none changes its kind, its content or its target, and
modes and owners change only as the processes mean to. -/
structure Evolved (m : Machine T) (d d' : Disk) : Prop where
  kept : ∀ l node, d.fs.node l = some node → ∃ node', d'.fs.node l = some node' ∧
    node'.body = node.body ∧ (modeOf node' = modeOf node ∨ ∃ t, m.Sets d' t l (modeOf node'))
  made : ∀ l node, d.fs.node l = none → d'.fs.node l = some node → m.MadeFor d' l node
  owner : ∀ l, d.fs.node l ≠ none → d'.owner l = d.owner l ∨ m.Given (d'.owner l)

omit [DecidableEq T] in
theorem Evolved.granted {d' d'' : Disk} (h : m.Evolved d d') (hgranted : m.Granted t d' d'') :
    m.Evolved d d'' := by
  have hgrows := hgranted.grows
  have hsets : ∀ {l mode}, (∃ t, m.Sets d' t l mode) → ∃ t, m.Sets d'' t l mode :=
    fun ⟨t, h⟩ => ⟨t, h.grows hgrows⟩
  refine ⟨fun l node hnode => ?_, fun l node hnone hnode => ?_, fun l hnode => ?_⟩
  · obtain ⟨node', hnode', hbody, hmode⟩ := h.kept l node hnode
    obtain ⟨node'', hnode'', hbody', hmode'⟩ := hgranted.kept l node' hnode'
    refine ⟨node'', hnode'', hbody'.trans hbody, ?_⟩
    rcases hmode' with heq | hset
    · rw [heq]
      exact hmode.imp_right hsets
    · exact Or.inr ⟨t, hset⟩
  · cases hnode' : d'.fs.node l with
    | none =>
      obtain ⟨rfl, hway, howner⟩ := hgranted.made l node hnode' hnode
      exact ⟨rfl, t, hway, Or.inl howner, Or.inl rfl⟩
    | some node' =>
      obtain ⟨hdir, t', hway, howner, hmode⟩ := h.made l node' hnone hnode'
      obtain ⟨node'', hnode'', hbody, hmode'⟩ := hgranted.kept l node' hnode'
      obtain rfl := Option.some.inj (hnode.symm.trans hnode'')
      refine ⟨(Node.isDir_of_shape (shape_of_body hbody)).trans hdir, t', hway.grows hgrows, ?_, ?_⟩
      · have hne : d'.fs.node l ≠ none := hnode' ▸ Option.some_ne_none _
        rcases hgranted.owner l hne with heq | ⟨hroot, hnobody⟩
        · rwa [heq]
        · exact Or.inr ⟨t, hroot, hnobody⟩
      · rcases hmode' with heq | hset
        · rw [heq]
          exact hmode.imp_right hsets
        · exact Or.inr ⟨t, hset⟩
  · obtain ⟨node', hnode', -⟩ := h.kept l _ (Option.ne_none_iff_exists'.mp hnode).choose_spec
    have hne : d'.fs.node l ≠ none := hnode' ▸ Option.some_ne_none _
    rcases hgranted.owner l hne with heq | ⟨hroot, hnobody⟩
    · rw [heq]
      exact h.owner l hnode
    · exact Or.inr ⟨t, hroot, hnobody⟩

/-- The processes have the same paths, privileges and working directory. -/
structure Alike (m : Machine T) (t t' : T) : Prop where
  paths : m.paths t' = m.paths t
  privileges : (m.process t').privileges = (m.process t).privileges
  cwd : (m.process t').cwd = (m.process t).cwd

/-- Paths that lead to one place are meant to have one mode. -/
def Agrees (m : Machine T) (t : T) (paths : SettingsPaths) (d : Disk) : Prop :=
  ∀ r ∈ paths.settled true (m.process t).privileges, ∀ r' ∈ paths.settled true (m.process t).privileges,
    ∀ l, m.Leads d t r.path l → m.Leads d t r'.path l → r.mode = r'.mode

omit [DecidableEq T] in
theorem Alike.leads {t' : T} {path : Utf8Path} (h : m.Alike t t') (hleads : m.Leads d t' path l) :
    m.Leads d t path l := by
  unfold Leads at hleads ⊢
  rwa [← h.cwd]

omit [DecidableEq T] in
theorem exists_lastAt {roles : List Role} {role : Role} (hmem : role ∈ roles)
    (hleads : m.Leads d t role.path l) :
    ∃ role' ∈ roles, m.Leads d t role'.path l ∧ m.LastAt d t roles l role'.mode := by
  induction roles using List.reverseRecOn with
  | nil => cases hmem
  | append_singleton roles last ih =>
    by_cases hlast : m.Leads d t last.path l
    · exact ⟨last, List.mem_append_right _ (List.mem_singleton_self _), hlast,
        lastAt_concat.mpr (Or.inl ⟨hlast, rfl⟩)⟩
    · rcases List.mem_append.mp hmem with hmem | hmem
      · obtain ⟨role', hmem', hleads', hat⟩ := ih hmem
        exact ⟨role', List.mem_append_left _ hmem', hleads', lastAt_concat.mpr (Or.inr ⟨hlast, hat⟩)⟩
      · exact absurd (List.mem_singleton.mp hmem ▸ hleads) hlast

/-- The roles but for that of the password file are of directories that are made. -/
theorem settled_cases {paths : SettingsPaths} {privileges : ExecutionPrivileges} {role : Role}
    (hmem : role ∈ paths.settled true privileges) :
    role = paths.pgpassRole ∨
      ∀ found, role ∈ paths.settled found privileges ∧ role.path ∈ paths.made := by
  obtain ⟨hmem, hnonroot⟩ := List.mem_filter.mp hmem
  refine or_iff_not_imp_left.mpr fun hne found => ⟨List.mem_filter.mpr ⟨?_, hnonroot⟩, ?_⟩
  · cases privileges <;> simp_all [SettingsPaths.chmods]
  · have hdirectory : ∀ role ∈ paths.directories, role.path ∈ paths.made := fun role h =>
      List.mem_append_right _ (List.mem_map_of_mem h)
    have hparent : ∀ role ∈ paths.parentRoles, role.path ∈ paths.made := fun role h => by
      obtain ⟨parent, hparent, rfl⟩ := List.mem_map.mp h
      exact List.mem_append_left _ hparent
    have hcases : role ∈ paths.parentRoles ∨ role ∈ paths.directories := by
      cases privileges <;>
        simp only [SettingsPaths.chmods, SettingsPaths.directories, List.mem_append, if_true,
          List.mem_singleton] at hmem ⊢ <;> tauto
    rcases hcases with h | h
    · exact hparent role h
    · exact hdirectory role h

theorem settled_found {paths : SettingsPaths} {found : Bool} {privileges : ExecutionPrivileges}
    {role : Role} (hmem : role ∈ paths.settled found privileges) :
    role ∈ paths.settled true privileges := by
  obtain ⟨hchmods, hnonroot⟩ := List.mem_filter.mp hmem
  refine List.mem_filter.mpr ⟨?_, hnonroot⟩
  cases found with
  | true => exact hchmods
  | false => cases privileges <;> simp_all [SettingsPaths.chmods] <;> tauto

omit [DecidableEq T] in
theorem Finished.onWay {paths : SettingsPaths} {found : Bool} {d' : Disk} {t' : T}
    (h : m.Finished t paths found d) (hpaths : m.paths t = some paths)
    (hcwd : d.fs.IsDir (m.process t).cwd) (halike : m.Alike t t') (hgrows : d.fs.Grows d'.fs)
    (hway : m.OnWay d' t' l) : d.fs.node l ≠ none := by
  obtain ⟨paths', hpaths', path, hmem, n, hleads⟩ := hway
  obtain rfl := Option.some.inj ((hpaths'.symm.trans halike.paths).trans hpaths)
  have hleads' := halike.leads hleads
  cases n with
  | zero =>
    obtain rfl := leads_nil.mp hleads'
    exact hcwd.ne_none
  | succ n =>
    obtain ⟨end', hend, -⟩ := h.directories path hmem
    have hhops : path.hops =
        (path.takeComponents (n + 1)).hops ++ (path.dropComponents (n + 1)).hops := by
      unfold Path.hops
      rw [← List.filterMap_append]
      exact congrArg _ (List.take_append_drop (n + 1) path.components).symm
    unfold Leads at hend hleads'
    rw [hhops] at hend
    obtain ⟨l', hpart, -⟩ := leads_append hend
    rw [Path.start_takeComponents] at hleads'
    obtain rfl := (hgrows.leads hpart).unique hleads'
    have hstart : d.fs.IsDir (path.start (m.process t).cwd) := isDir_start hcwd path
    obtain ⟨node, hnode, -⟩ := hpart.node hstart
    exact hnode ▸ Option.some_ne_none _

omit [DecidableEq T] in
theorem Finished.mode {paths : SettingsPaths} {found : Bool} {role : Role} {node : Node OsString}
    (h : m.Finished t paths found d) (hpaths : m.paths t = some paths) (halike : ∀ t', m.Alike t t')
    (hagrees : m.Agrees t paths d) (hmem : ∀ found, role ∈ paths.settled found (m.process t).privileges)
    (hleads : m.Leads d t role.path l) (hnode : d.fs.node l = some node) : modeOf node = role.mode := by
  obtain ⟨last, hlast, hleads', hat⟩ := exists_lastAt (hmem found) hleads
  have hlast' : last ∈ paths.settled true (m.process t).privileges := settled_found hlast
  rcases h.modes l _ node hat hnode with heq | ⟨t', -, paths', hpaths', role', hmem', hleads'', heq⟩
  · rw [heq]
    exact hagrees _ hlast' _ (hmem true) l hleads' hleads
  · obtain rfl := Option.some.inj ((hpaths'.symm.trans (halike t').paths).trans hpaths)
    rw [(halike t').privileges] at hmem'
    rw [heq]
    exact hagrees _ hmem' _ (hmem true) l ((halike t').leads hleads'') hleads

/-- The entries are those of the finished tree, but for the password file. -/
structure Same (m : Machine T) (t : T) (paths : SettingsPaths) (d d' : Disk) : Prop where
  grows : d.fs.Grows d'.fs
  node : ∀ l, d'.fs.node l = d.fs.node l ∨ m.Leads d' t paths.passwordFile l

omit [DecidableEq T] in
theorem Same.granted {paths : SettingsPaths} {found : Bool} {d' d'' : Disk} {t' : T}
    (h : m.Same t paths d d') (hfinished : m.Finished t paths found d) (hpaths : m.paths t = some paths)
    (hcwd : d.fs.IsDir (m.process t).cwd) (halike : ∀ t', m.Alike t t') (hagrees : m.Agrees t paths d)
    (hgranted : m.Granted t' d' d'') : m.Same t paths d d'' := by
  have hgrows := h.grows.trans hgranted.grows
  refine ⟨hgrows, fun l => ?_⟩
  rcases h.node l with heq | hpassword
  swap
  · exact Or.inr (hpassword.grows hgranted.grows)
  cases hnode : d'.fs.node l with
  | none =>
    cases hnode' : d''.fs.node l with
    | none => exact Or.inl (hnode.symm.trans heq)
    | some node =>
      obtain ⟨-, hway, -⟩ := hgranted.made l node hnode hnode'
      exact absurd (heq.symm.trans hnode) (hfinished.onWay hpaths hcwd (halike t') hgrows hway)
  | some node =>
    obtain ⟨node', hnode', hbody, hmode⟩ := hgranted.kept l node hnode
    have hthere : d.fs.node l = some node := heq.symm.trans hnode
    suffices hsame : modeOf node' = modeOf node ∨ m.Leads d'' t paths.passwordFile l by
      rw [hnode', hthere]
      exact hsame.imp_left fun hmode => congrArg some (node_eq_of_body hbody hmode)
    rcases hmode with hmode | ⟨paths', hpaths', role, hmem, hleads, hmode⟩
    · exact Or.inl hmode
    · obtain rfl := Option.some.inj ((hpaths'.symm.trans (halike t').paths).trans hpaths)
      rw [(halike t').privileges] at hmem
      have hleads' := (halike t').leads hleads
      rcases settled_cases hmem with rfl | hsettled
      · exact Or.inr hleads'
      · left
        obtain ⟨l', hdir, -⟩ := hfinished.directories _ (hsettled found).2
        obtain rfl := (hdir.grows hgrows).unique hleads'
        rw [hmode]
        exact (hfinished.mode hpaths halike hagrees (fun found => (hsettled found).1) hdir hthere).symm

/-- **A second bootstrap changes nothing.** Once one of several processes that are alike has returned, and
its paths agree on the modes, no entry is made or changed any more, whatever the others still do, except
for the mode of the password file. -/
theorem prepared_for_good (hcwd : ∀ t, d.fs.IsDir (m.process t).cwd)
    (hrun : run m.next es (m.init d) = some c) {prepared : PreparedBootstrap}
    (hret : c.threads t = .ret (.ok prepared)) {paths : SettingsPaths} (hpaths : m.paths t = some paths)
    (halike : ∀ t', m.Alike t t') (hagrees : m.Agrees t paths c.state)
    (hrun' : run m.next es' c = some c') (l : Location OsString) :
    c'.state.fs.node l = c.state.fs.node l ∨ m.Leads c'.state t paths.passwordFile l := by
  obtain ⟨paths', found, hpaths', -, -, hfinished⟩ := prepared_directories hcwd hrun hret
  obtain rfl := Option.some.inj (hpaths.symm.trans hpaths')
  obtain ⟨hsteps, hgoing⟩ := run_going (going_init (ready_wild hcwd)) False.elim hrun
  obtain ⟨hsteps', -⟩ := run_going hgoing False.elim hrun'
  have hcwd' : c.state.fs.IsDir (m.process t).cwd :=
    ((lasting_ready m False).steps hsteps (ready_wild hcwd)).cwd t
  suffices hsame : m.Same t paths c.state c'.state from hsame.node l
  generalize c'.state = s at hsteps' ⊢
  induction hsteps' with
  | refl => exact ⟨Grows.refl _, fun _ => Or.inl rfl⟩
  | tail _ hstep ih =>
    obtain ⟨t', hgrants⟩ := hstep
    exact ih.granted hfinished hpaths hcwd' halike hagrees hgrants

end Machine

/-! ### Two processes that race -/

namespace Sample

/-- An unprivileged process that prepares `/i` and `/d`. -/
def process : Process where
  user := ⟨1000, 1000⟩
  umask := 0o022
  cwd := []
  env := fun name => if name = "TZDIR" then some [0x2F] else none
  settings := ⟨.absolute [[0x69]], .absolute [[0x64]], .absolute [], true, "localhost", 5432⟩
  cfg := ⟨some (.absolute [[0x69]]), some (.absolute [[0x64]])⟩

def machine (T : Type) : Machine T := ⟨none, fun _ => process⟩

def disk : Disk := ⟨.ofList [], fun _ => ⟨0, 0⟩⟩

/-- What an earlier installation has left: `/i` with a password file that all may read. -/
def leftover : Disk :=
  ⟨.ofList [([[0x69]], .dir 0o755), ([osString ".pgpass", [0x69]], .file 0o644 [])],
    fun _ => ⟨1000, 1000⟩⟩

/-- No call fails. -/
def smoothly : Choice := ⟨none, none, 5432, fun _ => false⟩

/-- One process has looked for `/i` when the other prepares everything. -/
def raced : List (Bool × Choice) :=
  List.replicate 3 (false, smoothly) ++ List.replicate 26 (true, smoothly)

/-- The same where the password file is there. -/
def again : List (Bool × Choice) :=
  List.replicate 3 (false, smoothly) ++ List.replicate 24 (true, smoothly)

def late : List (Bool × Choice) := List.replicate 18 (false, smoothly)

def alone : List (Unit × Choice) := List.replicate 26 ((), smoothly)

def returned {T : Type} (c : System T) (t : T) : Bool :=
  match c.threads t with
  | .ret (.ok _) => true
  | _ => false

/-- The names of `/i`, `/d`, `/i/cache`, `/i/run` and `/i/.pgpass`, with their modes. -/
def names : List (List OsString × Nat) :=
  [([[0x69]], 0o755), ([[0x64]], 0o700), ([[0x69], osString "cache"], 0o755),
    ([[0x69], osString "run"], 0o700), ([[0x69], osString ".pgpass"], 0o600)]

def paths : SettingsPaths where
  installDir := .absolute [[0x69]]
  dataDir := .absolute [[0x64]]
  passwordFile := .absolute [[0x69], osString ".pgpass"]
  installDefault := false
  dataDefault := false

def clear (fs : FileSystem OsString) : Bool :=
  names.all fun e => e.1.inits.all fun before =>
    (fs.node before.reverse).isNone || decide (fs.IsDir before.reverse)

theorem clear_of {fs : FileSystem OsString} (h : clear fs = true) {e : List OsString × Nat}
    (he : e ∈ names) : fs.Clear [] e.1 := by
  intro before hbefore
  have hall := List.all_eq_true.mp (List.all_eq_true.mp h e he) before
    ((List.mem_inits _ _).mpr hbefore)
  rw [List.append_nil]
  rcases Bool.or_eq_true _ _ ▸ hall with hnone | hdir
  · exact Or.inl (Option.isNone_iff_eq_none.mp hnone)
  · exact Or.inr (of_decide_eq_true hdir)

theorem paths_machine {T : Type} (t : T) : (machine T).paths t = some paths := by
  have hpgpass : childOf (.absolute [[0x69]]) ".pgpass" = .absolute [[0x69], osString ".pgpass"] :=
    Machine.childOf_absolute _ _
  have hresolve : (machine T).paths t = some ⟨.absolute [[0x69]], .absolute [[0x64]],
      childOf (.absolute [[0x69]]) ".pgpass", false, false⟩ := rfl
  rw [hresolve, hpgpass]
  rfl

theorem names_settled {role : Role} (h : role ∈ paths.settled true .unprivileged) :
    ∃ e ∈ names, role.path = .absolute e.1 ∧ role.mode = e.2 := by
  have hmem := (List.mem_filter.mp h).1
  simp only [SettingsPaths.chmods, SettingsPaths.mainRoles, SettingsPaths.xdgRoles, List.mem_append,
    List.mem_cons, if_true, List.not_mem_nil, or_false] at hmem
  rcases hmem with ((rfl | rfl) | rfl) | (rfl | rfl)
  · exact ⟨([[0x69]], 0o755), by simp [names], rfl, rfl⟩
  · exact ⟨([[0x64]], 0o700), by simp [names], rfl, rfl⟩
  · exact ⟨([[0x69], osString ".pgpass"], 0o600), by simp [names], rfl, rfl⟩
  · exact ⟨([[0x69], osString "cache"], 0o755), by simp [names], Machine.childOf_absolute _ _, rfl⟩
  · exact ⟨([[0x69], osString "run"], 0o700), by simp [names], Machine.childOf_absolute _ _, rfl⟩

theorem raced_run : ∃ c c' prepared, run (machine Bool).next raced ((machine Bool).init disk) = some c ∧
    c.threads true = .ret (.ok prepared) ∧ clear c.state.fs = true ∧
      run (machine Bool).next late c = some c' := by
  have hany : (run (machine Bool).next raced ((machine Bool).init disk)).any (fun c =>
      returned c true && clear c.state.fs && (run (machine Bool).next late c).isSome) = true := by
    decide +kernel
  obtain ⟨c, hrun, hc⟩ := (Option.any_eq_true _ _).mp hany
  rw [Bool.and_eq_true, Bool.and_eq_true] at hc
  obtain ⟨c', hlate⟩ := Option.isSome_iff_exists.mp hc.2
  have hreturned := hc.1.1
  unfold returned at hreturned
  split at hreturned
  next prepared hthread => exact ⟨c, c', prepared, hrun, hthread, hc.1.2, hlate⟩
  next => cases hreturned

theorem again_run : ∃ c prepared, run (machine Bool).next again ((machine Bool).init leftover) = some c ∧
    c.threads true = .ret (.ok prepared) := by
  have hany : (run (machine Bool).next again ((machine Bool).init leftover)).any (returned · true) =
      true := by
    decide +kernel
  obtain ⟨c, hrun, hreturned⟩ := (Option.any_eq_true _ _).mp hany
  unfold returned at hreturned
  split at hreturned
  next prepared hthread => exact ⟨c, prepared, hrun, hthread⟩
  next => cases hreturned

theorem leads_leftover : (machine Bool).Leads leftover true paths.passwordFile
    [osString ".pgpass", [0x69]] := by
  have hdir : leftover.fs.node [[0x69]] = some (.dir 0o755) := by decide +kernel
  have hfile : leftover.fs.node [osString ".pgpass", [0x69]] = some (.file 0o644 []) := by
    decide +kernel
  have hleads : leftover.fs.Leads [] [.name [0x69], .name (osString ".pgpass")]
      [osString ".pgpass", [0x69]] := .dir hdir (.file hfile)
  exact hleads

theorem alone_run : ∃ c prepared, run (machine Unit).next alone ((machine Unit).init disk) = some c ∧
    c.threads () = .ret (.ok prepared) ∧ clear c.state.fs = true ∧
      c.state.fs.IsDir [[0x64]] := by
  have hany : (run (machine Unit).next alone ((machine Unit).init disk)).any (fun c =>
      returned c () && clear c.state.fs && decide (c.state.fs.IsDir [[0x64]])) = true := by
    decide +kernel
  obtain ⟨c, hrun, hc⟩ := (Option.any_eq_true _ _).mp hany
  rw [Bool.and_eq_true, Bool.and_eq_true] at hc
  have hreturned := hc.1.1
  unfold returned at hreturned
  split at hreturned
  next prepared hthread => exact ⟨c, prepared, hrun, hthread, hc.1.2, of_decide_eq_true hc.2⟩
  next => cases hreturned

theorem agrees_machine {T : Type} {d : Disk} (h : clear d.fs = true) (t : T) :
    (machine T).Agrees t paths d := by
  intro r hr r' hr' l hleads hleads'
  obtain ⟨e, he, hpath, hmode⟩ := names_settled hr
  obtain ⟨e', he', hpath', hmode'⟩ := names_settled hr'
  have hplace : ∀ e ∈ names, ∀ path, path = .absolute e.1 → (machine T).Leads d t path l →
      l = e.1.reverse := by
    rintro e he path rfl hleads
    have hleads' : d.fs.Leads [] (e.1.map .name) l := Path.hops_absolute e.1 ▸ hleads
    rw [((clear_of h he).leads d.fs.isDir_root hleads').1, List.append_nil]
  have hnames : e.1 = e'.1 := List.reverse_injective
    ((hplace e he _ hpath hleads).symm.trans (hplace e' he' _ hpath' hleads'))
  have hmodes : ∀ e ∈ names, ∀ e' ∈ names, e.1 = e'.1 → e.2 = e'.2 := by decide +kernel
  rw [hmode, hmode', hmodes e he e' he' hnames]

end Sample

open Sample

theorem prepared_directories_sample : ∃ c prepared,
    run (machine Bool).next again ((machine Bool).init leftover) = some c ∧
      c.threads true = .ret (.ok prepared) ∧ Machine.Describes paths prepared ∧
        (machine Bool).Finished true paths true c.state := by
  obtain ⟨c, prepared, hrun, hret⟩ := again_run
  obtain ⟨ps, found, hps, hdescribes, hfound, hfinished⟩ :=
    Machine.prepared_directories (fun _ => leftover.fs.isDir_root) hrun hret
  obtain rfl := Option.some.inj ((paths_machine true).symm.trans hps)
  obtain rfl := hfound ⟨_, leads_leftover⟩
  exact ⟨c, prepared, hrun, hret, hdescribes, hfinished⟩

theorem dataDir_private_sample : ∃ c prepared mode,
    run (machine Unit).next alone ((machine Unit).init disk) = some c ∧
      c.threads () = .ret (.ok prepared) ∧ c.state.fs.node [[0x64]] = some (.dir mode) ∧
      (mode = 0o700 ↔
        ((machine Unit).Leads c.state () (childOf paths.installDir "cache") [[0x64]] →
          (machine Unit).Leads c.state () (childOf paths.installDir "run") [[0x64]])) := by
  obtain ⟨c, prepared, hrun, hret, hclear, hdir⟩ := alone_run
  have hplace : ∀ {e}, e ∈ names → ∀ {l}, (machine Unit).Leads c.state () (.absolute e.1) l →
      l = e.1.reverse := by
    intro e he l hleads
    have hleads' : c.state.fs.Leads [] (e.1.map .name) l := Path.hops_absolute e.1 ▸ hleads
    rw [((clear_of hclear he).leads c.state.fs.isDir_root hleads').1, List.append_nil]
  have hdata : (machine Unit).Leads c.state () paths.dataDir [[0x64]] := by
    obtain ⟨mode, hmode⟩ := isDir_iff.mp hdir
    exact .dir hmode (.here _)
  have hpassword : ¬ (machine Unit).Leads c.state () paths.passwordFile [[0x64]] := fun h => by
    have hfile : ([[0x69], osString ".pgpass"], 0o600) ∈ names := by simp [names]
    have hlength := congrArg List.length (hplace hfile h)
    simp at hlength
  obtain ⟨mode, h⟩ := Machine.dataDir_private (fun _ => disk.fs.isDir_root) hrun hret (paths_machine ())
    (fun h => by cases h) hdata hpassword fun _ ⟨_, hne, _⟩ => hne rfl
  exact ⟨c, prepared, mode, hrun, hret, h⟩

theorem prepared_for_good_sample : ∃ c c',
    run (machine Bool).next raced ((machine Bool).init disk) = some c ∧
      run (machine Bool).next late c = some c' ∧ ∀ l, c'.state.fs.node l = c.state.fs.node l ∨
        (machine Bool).Leads c'.state true paths.passwordFile l := by
  obtain ⟨c, c', prepared, hrun, hret, hclear, hlate⟩ := raced_run
  exact ⟨c, c', hrun, hlate, Machine.prepared_for_good (fun _ => disk.fs.isDir_root) hrun hret
    (paths_machine true) (fun _ => ⟨rfl, rfl, rfl⟩) (agrees_machine hclear true) hlate⟩

end PgEmbeddedSetup.Bootstrap
