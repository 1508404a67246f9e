import PgEmbeddedSetup.Bootstrap.Settled

/-!
# The helpers in their order

What the helpers of a bootstrap come to, one after the other: which modes have been set, and which
directories are ready. A program settles what its parts do (`Settles.bind`).
-/

namespace PgEmbeddedSetup.Bootstrap

open Env Fs Interleave Lexical Posix FileSystem
open Cache (changeMode maskMode modeOf)
open Machine (Role unlessRoot)
open Privileges (User isUtf8)

variable {T : Type} {m : Machine T} {t : T} {start d d' : Disk} {path : Utf8Path} {l : Location OsString}
  {calm : Prop} {α β : Type}

namespace Machine

/-- Once some directories are ready, the program sets modes and makes directories ready in one of the
ways that it may. `start` is the disk that it has come from. -/
def Settles (m : Machine T) (t : T) (calm : Prop) (start : Disk) (ready : List Utf8Path) (p : Code α)
    (ways : α → List Role → List Utf8Path → Prop) : Prop :=
  ∀ roles dirs, ready ⊆ dirs →
    (m.loud calm).Delivers calm t p (fun d => m.Standing t roles dirs d ∧ start.fs.Grows d.fs) fun a d =>
      ∃ assigned made, ways a assigned made ∧ m.Standing t (roles ++ unlessRoot assigned) (dirs ++ made) d

theorem growing_start (start : Disk) : Growing fun d => start.fs.Grows d.fs :=
  fun _ _ hgrows h => h.trans hgrows

section Rules

variable {ready : List Utf8Path} {p : Code α} {ways ways' : α → List Role → List Utf8Path → Prop}

theorem Settles.bind {f : α → Code β} {ways' : β → List Role → List Utf8Path → Prop}
    (h : m.Settles t calm start ready p ways)
    (hf : ∀ a assigned made, ways a assigned made → m.Settles t calm start (ready ++ made) (f a)
      fun b assigned' made' => ways' b (assigned ++ assigned') (made ++ made')) :
    m.Settles t calm start ready (p >>= f) ways' := by
  intro roles dirs hready
  have hframed := (h roles dirs hready).frame (growing_start start).loud
  refine (hframed.mono (fun _ h => ⟨h, h.2⟩) fun _ _ h => h).bind fun a => ?_
  have hrest : ∀ assigned made, (m.loud calm).Delivers calm t (f a) (fun d =>
      (ways a assigned made ∧ m.Standing t (roles ++ unlessRoot assigned) (dirs ++ made) d) ∧
        start.fs.Grows d.fs) fun b d => ∃ assigned made, ways' b assigned made ∧
          m.Standing t (roles ++ unlessRoot assigned) (dirs ++ made) d := by
    intro assigned made
    refine Contract.delivers_of_pre (fun _ h => h.1.1) fun hways => ?_
    have hready' : ready ++ made ⊆ dirs ++ made :=
      List.append_subset.mpr ⟨List.Subset.trans hready (List.subset_append_left _ _),
        List.subset_append_right _ _⟩
    refine (hf a assigned made hways _ _ hready').mono (fun _ h => ⟨h.1.2, h.2⟩) fun b d hd => ?_
    obtain ⟨assigned', made', hways', hstanding⟩ := hd
    refine ⟨assigned ++ assigned', made ++ made', hways', ?_⟩
    rw [unlessRoot, List.filter_append, ← List.append_assoc, ← List.append_assoc]
    exact hstanding
  refine (Contract.delivers_exists fun assigned => Contract.delivers_exists (hrest assigned)).mono
    (fun d h => ?_) fun _ _ h => h
  obtain ⟨⟨assigned, made, h⟩, hgrows⟩ := h
  exact ⟨assigned, made, h, hgrows⟩

theorem Settles.mono (h : m.Settles t calm start ready p ways)
    (hways : ∀ a assigned made, ways a assigned made → ways' a assigned made) :
    m.Settles t calm start ready p ways' :=
  fun roles dirs hready => (h roles dirs hready).mono (fun _ h => h) fun a _ ⟨assigned, made, hway, h⟩ =>
    ⟨assigned, made, hways a assigned made hway, h⟩

theorem settles_pure {a : α} (h : ways a [] []) : m.Settles t calm start ready (pure a) ways :=
  fun _ _ _ => Contract.delivers_pure fun _ hd => ⟨[], [], h, hd.1.noRole.noDir⟩

theorem Settles.of_quiet {V : α → Prop}
    (h : (m.quiet calm t).Delivers calm t p (fun _ => True) fun a _ => V a) :
    m.Settles t calm start ready p fun a assigned made => V a ∧ assigned = [] ∧ made = [] := by
  intro roles dirs _
  exact (Delivers.standing h).mono (fun _ h => ⟨trivial, h.1⟩) fun a d h =>
    ⟨[], [], ⟨h.1, rfl, rfl⟩, h.2.noRole.noDir⟩

end Rules

/-! ### Directories -/

variable {ready : List Utf8Path} {mode : Nat} {user : User}

/-- What is ready without a change of owner. -/
def unlessOwned (m : Machine T) (t : T) (dirs : List Utf8Path) : List Utf8Path :=
  match (m.process t).privileges with
  | .root => []
  | .unprivileged => dirs

theorem Standing.unlessOwned {roles : List Role} {dirs : List Utf8Path}
    (h : m.Standing t roles dirs d) (hdir : ∃ l, m.DirAt t path l d) :
    m.Standing t roles (dirs ++ m.unlessOwned t [path]) d := by
  unfold Machine.unlessOwned
  cases hprivileges : (m.process t).privileges with
  | root => exact h.noDir
  | unprivileged =>
    refine ⟨h.assigned, fun path' hmem => ?_⟩
    rcases List.mem_append.mp hmem with hmem | hmem
    · exact h.held path' hmem
    · obtain rfl := List.mem_singleton.mp hmem
      obtain ⟨l, hdir⟩ := hdir
      exact ⟨l, hdir, fun hroot => by cases hprivileges.symm.trans hroot⟩

theorem settles_ensureDirForUser (hroot : m.Root t user) (hpath : m.Makes t path)
    (hrole : m.Chmods t ⟨path, mode⟩) :
    m.Settles t calm start ready (ensureDirForUser path user mode)
      fun _ assigned made => assigned = [⟨path, mode⟩] ∧ made = [path] :=
  fun _ _ _ => (delivers_ensureDirForUser hroot hpath hrole).mono (fun _ h => h.1) fun _ _ h =>
    ⟨_, _, ⟨rfl, rfl⟩, h⟩

theorem settles_ensureDirWithMode (hpath : m.Makes t path) (hrole : m.Chmods t ⟨path, mode⟩) :
    m.Settles t calm start ready (ensureDirWithMode path mode)
      fun _ assigned made => assigned = [⟨path, mode⟩] ∧ made = m.unlessOwned t [path] :=
  fun _ _ _ => (delivers_ensureDirWithMode hpath hrole).mono (fun _ h => h.1) fun _ _ h =>
    ⟨_, _, ⟨rfl, rfl⟩, h.1.unlessOwned h.2⟩

theorem settles_ensureDirExists (hpath : m.Makes t path) :
    m.Settles t calm start ready (ensureDirExists path)
      fun _ assigned made => assigned = [] ∧ made = m.unlessOwned t [path] := by
  intro roles dirs _
  exact (Delivers.standing (delivers_ensureDirExists hpath)).mono (fun _ h => ⟨trivial, h.1⟩)
    fun _ d h => ⟨[], _, ⟨rfl, rfl⟩, (h.2.unlessOwned h.1).noRole⟩

theorem settles_ensureParentsForPaths {paths : SettingsPaths} {ensureParent : Utf8Path → Code Unit}
    {roles : Utf8Path → List Role}
    (h : ∀ ready path, path.parent.toList ⊆ paths.parents →
      m.Settles t calm start ready (ensureParent path)
        fun _ assigned made => assigned = path.parent.toList.flatMap roles ∧ made = path.parent.toList) :
    m.Settles t calm start ready (ensureParentsForPaths paths ensureParent)
      fun _ assigned made => assigned = paths.parents.flatMap roles ∧ made = paths.parents := by
  have hpart : ∀ ready path, ∀ default : Bool,
      (if default then path.parent.toList else []) ⊆ paths.parents →
      m.Settles t calm start ready (if default then ensureParent path else pure ()) fun _ assigned made =>
        assigned = (if default then path.parent.toList else []).flatMap roles ∧
          made = if default then path.parent.toList else [] := by
    intro ready path default hsubset
    cases default with
    | true => exact h ready path hsubset
    | false => exact settles_pure ⟨rfl, rfl⟩
  have hparts : ensureParentsForPaths paths ensureParent =
      (if paths.installDefault then ensureParent paths.installDir else pure ()) >>= fun _ =>
        if paths.dataDefault then ensureParent paths.dataDir else pure () := by
    unfold ensureParentsForPaths
    cases paths.installDefault <;> rfl
  rw [hparts]
  refine (hpart ready paths.installDir _ (List.subset_append_left _ _)).bind
    fun _ assigned made hset => ?_
  obtain ⟨rfl, rfl⟩ := hset
  refine (hpart _ paths.dataDir _ (List.subset_append_right _ _)).mono fun _ assigned made hset => ?_
  obtain ⟨rfl, rfl⟩ := hset
  exact ⟨(List.flatMap_append ..).symm, rfl⟩

/-! ### The password file -/

theorem childOf_absolute (names : List OsString) (name : String) :
    childOf (.absolute names) name = .absolute (names ++ [osString name]) := by
  have hcomponents : (Component.rootDir :: names.map .normal) ++ [.normal (osString name)] =
      .rootDir :: (names ++ [osString name]).map .normal := by
    rw [List.map_append]
    rfl
  exact Lexical.Path.ext hcomponents

/-- Where all is calm, the password file is in a directory that is there, and is not a link. -/
structure PasswordPlace (d : Disk) (path : Utf8Path) : Prop where
  parent : ParentThere d path
  nonroot : path.parent ≠ none
  file : ∀ names, path = .absolute names →
    d.fs.node names.reverse = none ∨ isFileAt d.fs names.reverse = true

theorem Ready.passwordPlace {paths : SettingsPaths} (h : m.Ready calm d) (hcalm : calm)
    (hpaths : m.paths t = some paths)
    (hpassword : paths.passwordFile = childOf paths.installDir ".pgpass")
    (hheld : m.Held t paths.installDir d) : PasswordPlace d paths.passwordFile := by
  have hmade : paths.installDir ∈ paths.made :=
    List.mem_append_right _ (List.mem_cons_self ..)
  obtain ⟨names, hnames, hclear⟩ := h.clear hcalm t paths hpaths _ hmade
  obtain ⟨l, hdir, -⟩ := hheld
  rw [hnames] at hdir hpassword
  rw [childOf_absolute] at hpassword
  refine ⟨⟨_, hpassword, ?_⟩, ?_, fun names' heq => ?_⟩
  · rw [List.reverse_append]
    exact (names_of_dirAt hclear hdir).2
  · rw [hpassword, Path.parent_absolute_concat]
    exact fun h => by cases h
  · obtain ⟨names'', heq', hfile, -⟩ := h.password hcalm t paths hpaths
    obtain rfl := Path.absolute_injective (heq.symm.trans heq')
    exact hfile

theorem PasswordPlace.endPlain (h : PasswordPlace d path) : EndPlain d path false := by
  intro names n heq
  refine ⟨?_, fun h => by cases h⟩
  have hfile := h.file (names ++ [n]) heq
  rw [List.reverse_append] at hfile
  rcases hfile with hnone | hfile
  · have hnone' : d.fs.node (n :: names.reverse) = none := hnone
    rw [hnone']
    rfl
  · have hfile' : isFileAt d.fs (n :: names.reverse) = true := hfile
    unfold isFileAt at hfile'
    split at hfile'
    next hnode =>
      rw [hnode]
      rfl
    next => cases hfile'

/-- What becomes of the password file: it has its mode, if it is found. One that was there at the start
is found. -/
def PasswordWays (m : Machine T) (t : T) (start : Disk) (path : Utf8Path) (assigned : List Role)
    (made : List Utf8Path) : Prop :=
  (∃ found : Bool, ((∃ l, m.Leads start t path l) → found = true) ∧
    assigned = if found then [⟨path, pgpassMode⟩] else []) ∧ made = []

theorem settles_ensurePgpassPermissions {paths : SettingsPaths} (hpaths : m.paths t = some paths)
    (hpassword : paths.passwordFile = childOf paths.installDir ".pgpass")
    (hready : paths.installDir ∈ ready) (hrole : m.Chmods t ⟨paths.passwordFile, pgpassMode⟩) :
    m.Settles t calm start ready (ensurePgpassPermissions paths.passwordFile)
      fun _ => m.PasswordWays t start paths.passwordFile := by
  intro roles dirs hdirs
  let there : Prop := ∃ l, m.Leads start t paths.passwordFile l
  have hset : (m.loud calm).Ensures t (setPermissions paths.passwordFile pgpassMode).run
      (m.BeforeMode t roles dirs paths.passwordFile false there)
      (m.AfterMode t calm roles dirs ⟨paths.passwordFile, pgpassMode⟩ false there) := by
    refine ensures_setPermissions hrole fun hcalm d hP hd => ?_
    have hplace := hd.passwordPlace hcalm hpaths hpassword (hP.1.held _ (hdirs hready))
    exact ⟨hplace.parent, hplace.endPlain⟩
  have hattempt : (m.loud calm).Delivers calm t (attempt (setPermissions paths.passwordFile pgpassMode))
      (fun d => m.Standing t roles dirs d ∧ start.fs.Grows d.fs)
      (m.AfterMode t calm roles dirs ⟨paths.passwordFile, pgpassMode⟩ false there) := by
    refine Contract.Ensures.bind (hset.mono (fun d h => ⟨h.1, (fun h => by cases h), fun hthere => ?_⟩)
      fun _ _ h => h) fun r => Contract.ensures_ret fun d h => h
    exact hthere.imp fun _ hleads => h.2.leads hleads
  refine hattempt.bind fun r => ?_
  cases r with
  | ok =>
    exact Contract.delivers_pure fun d h => ⟨_, [], ⟨⟨true, fun _ => rfl, rfl⟩, rfl⟩, Standing.noDir h⟩
  | error e =>
    show (m.loud calm).Delivers calm t (if _ then _ else _) _ _
    split
    next hmissed =>
      refine Contract.delivers_pure fun d h => ⟨[], [], ⟨⟨false, fun hthere => ?_, rfl⟩, rfl⟩, ?_⟩
      · exact absurd hmissed (h.2.2 hthere)
      · exact h.1.noRole.noDir
    next hne => exact Contract.delivers_throw fun d h hcalm => hne (h.2.1 hcalm).1

/-! ### Single calls -/

theorem delivers_asked {i : Instr} {P : Disk → Prop} {M : i.Reply → Disk → Prop}
    (hdisk : ∀ x d, (act m (m.process t) x d i).2 = d)
    (h : ∀ x d, P d → m.Ready calm d → (calm → Calm x) → M (act m (m.process t) x d i).1 d)
    (hM : ∀ r, Growing (M r)) : (m.quiet calm t).Delivers calm t (ask i) P M :=
  delivers_read hdisk h hM fun _ => Contract.delivers_pure fun _ h => h

theorem delivers_give {i : Instr} {M : i.Reply → Prop} (hroot : m.Root t user)
    (hdisk : ∀ x d, ∃ given, (act m (m.process t) x d i).2 = d.give user given)
    (h : ∀ x d, (calm → Calm x) → M (act m (m.process t) x d i).1) :
    (m.quiet calm t).Delivers calm t (ask i) (fun _ => True) fun r _ => M r := by
  refine Contract.delivers_ask (fun x d r d' _ hcond hsem => ?_) (fun r => Contract.lasting_pure.stable t)
    fun r => Contract.delivers_pure fun d h => h
  have hact : act m (m.process t) x d i = (r, d') := Option.some.inj hsem
  obtain rfl : (act m (m.process t) x d i).1 = r := congrArg Prod.fst hact
  obtain rfl : (act m (m.process t) x d i).2 = d' := congrArg Prod.snd hact
  obtain ⟨given, hgiven⟩ := hdisk x d
  rw [hgiven]
  exact ⟨⟨granted_give given hroot.privileges hroot.nobody, fun _ => quiet_give d user given⟩,
    h x d hcond.2⟩

theorem give_none (d : Disk) (user : User) : d.give user (fun _ => false) = d := by
  unfold Disk.give
  simp

theorem delivers_fchown {file : Location OsString} (hroot : m.Root t user) :
    (m.quiet calm t).Delivers calm t (ask (.fchown file user)) (fun _ => True)
      fun r _ => calm → r = .ok () := by
  refine delivers_give hroot (fun x d => ?_) fun x d hx hcalm => ?_
  · cases hfault : x.fault with
    | some f =>
      refine ⟨fun _ => false, ?_⟩
      simp only [act, hfault, toldUnless, onPlace]
      exact (give_none d user).symm
    | none =>
      refine ⟨(decide <| · = file), ?_⟩
      simp only [act, hfault, toldUnless, onPlace]
  · simp only [act, (hx hcalm).1, toldUnless, onPlace]

theorem settles_ensureTreeOwnedByUser (hroot : m.Root t user) :
    m.Settles t calm start ready (ensureTreeOwnedByUser path user)
      fun _ assigned made => assigned = [] ∧ made = [] := by
  have hgive : (m.quiet calm t).Delivers calm t (ask (.ensureTreeOwned path user)) (fun _ => True)
      fun r _ => calm → r = .ok () :=
    delivers_give hroot (fun x d => ⟨x.given, rfl⟩) fun x d hx hcalm => by
      simp only [act, (hx hcalm).2]
  have hquiet : (m.quiet calm t).Delivers calm t (ensureTreeOwnedByUser path user) (fun _ => True)
      fun _ _ => True := by
    refine hgive.bind fun r => ?_
    cases r with
    | ok => exact Contract.delivers_pure fun _ _ => trivial
    | error err => exact Contract.delivers_throw fun _ h hcalm => by cases h hcalm
  exact (Settles.of_quiet hquiet).mono fun _ _ _ h => h.2

/-! ### The password file of another user -/

theorem leads_of_openedPlace {fs : FileSystem OsString} {dir : Location OsString}
    (h : openedPlace fs dir path = .ok l) : fs.Leads dir path.hops l := by
  unfold openedPlace at h
  split at h
  next n hlast =>
    have hhops := List.dropLast_append_getLast? _ hlast
    split at h
    next => cases h
    next parent hparent =>
      split at h
      next hdir =>
        rw [← hhops]
        refine (leads_of_resolve hparent).append hdir ?_
        split at h
        next => cases h
        next => cases h
        next node hlink hnode =>
          cases h
          cases node with
          | dir mode => exact .dir hnode (.here _)
          | file mode content => exact .file hnode
          | symlink target => exact absurd rfl (hlink target)
      next => cases h
  next => exact (names_of_lookup h).2

theorem openedPlace_last {fs : FileSystem OsString} {dir : Location OsString} {n : OsString}
    (hhops : path.hops = [.name n]) (hdir : fs.IsDir dir)
    (hfile : fs.node (n :: dir) = none ∨ isFileAt fs (n :: dir) = true) :
    openedPlace fs dir path = .ok (n :: dir) ∧ isFileAt fs (n :: dir) = true ∨
      openedPlace fs dir path = .error .notFound := by
  have hresolve : fs.resolve (some dir) false dir [] = .ok dir := rfl
  unfold openedPlace
  rw [hhops]
  simp only [List.getLast?_singleton, List.dropLast_singleton, hresolve, if_pos hdir]
  rcases hfile with hnone | hfile
  · rw [hnone]
    exact Or.inr rfl
  · refine Or.inl ⟨?_, hfile⟩
    unfold isFileAt at hfile
    split at hfile
    next hnode => rw [hnode]
    next => cases hfile

theorem growing_isFileAt (l : Location OsString) : Growing fun d => isFileAt d.fs l = true := by
  intro d d' hgrows h
  unfold isFileAt at h ⊢
  split at h
  next mode content hnode =>
    obtain ⟨node, hnode', hshape⟩ := hgrows l _ hnode
    rw [hnode']
    cases node with
    | file => rfl
    | dir => cases hshape
    | symlink => cases hshape
  next => cases h

/-- What is opened of the password file: a place where the path leads. Where all is calm it is a file, or
it is not found, and what is there is found. -/
def Opened (m : Machine T) (t : T) (calm there : Prop) (path : Utf8Path) :
    Except Errno (Location OsString) → Disk → Prop
  | .ok file, d => m.Leads d t path file ∧ (calm → isFileAt d.fs file = true)
  | .error e, _ => (calm → e = .notFound) ∧ (there → e ≠ .notFound)

theorem growing_opened {there : Prop} (r : Except Errno (Location OsString)) :
    Growing (m.Opened t calm there path r) := by
  intro d d' hgrows h
  cases r with
  | ok file => exact ⟨h.1.grows hgrows, fun hcalm => growing_isFileAt file d d' hgrows (h.2 hcalm)⟩
  | error e => exact h

theorem Handle.opened_notFound {r : Location OsString × Utf8Path} (h : m.Handle t calm path r d)
    (hempty : ¬ r.2.isEmpty = true) (hopened : openedPlace d.fs r.1 r.2 = .error .notFound)
    (l : Location OsString) : ¬ m.Leads d t path l := by
  unfold openedPlace at hopened
  split at hopened
  next n hlast =>
    intro hleads
    obtain ⟨prior, hhops, hprior⟩ := h.leads
    have hsplit : r.2.hops.dropLast ++ [.name n] = r.2.hops := List.dropLast_append_getLast? _ hlast
    unfold Leads at hleads
    rw [hhops, leads_append_iff hprior h.dir, ← hsplit] at hleads
    obtain ⟨parent', hparent', hname⟩ := leads_append hleads
    split at hopened
    next e hresolve =>
      obtain rfl := Except.error.inj hopened
      exact not_leads_of_resolve hresolve rfl parent' hparent'
    next parent hresolve =>
      obtain rfl := hparent'.unique (leads_of_resolve hresolve)
      split at hopened
      next =>
        split at hopened
        next hnone => exact not_leads_missing hnone hname
        next => cases hopened
        next => cases hopened
      next => cases hopened
  next => exact h.lookup_notFound hempty hopened l

theorem delivers_openNoFollow {P : Disk → Prop} {there : Prop} (dir : Location OsString)
    {relative : Utf8Path} (hplace : calm → ∀ d, P d → m.Ready calm d → PasswordPlace d path)
    (hthere : ∀ d, P d → there → ∃ l, m.Leads d t path l) (hempty : ¬ relative.isEmpty = true) :
    (m.quiet calm t).Delivers calm t (ask (.openNoFollow dir relative))
      (fun d => P d ∧ m.Handle t calm path (dir, relative) d) (m.Opened t calm there path) := by
  refine delivers_asked (fun _ _ => rfl) (fun x d hP hready hx => ?_) growing_opened
  obtain ⟨hP, hhandle⟩ := hP
  have hcase : calm → (∃ file, openedPlace d.fs dir relative = .ok file ∧ isFileAt d.fs file = true) ∨
      openedPlace d.fs dir relative = .error .notFound := by
    intro hcalm
    obtain ⟨⟨names, hnames, -⟩, hnonroot, hfile⟩ := hplace hcalm d hP hready
    rcases List.eq_nil_or_concat names with rfl | ⟨names, n, rfl⟩
    · exact absurd (hnames ▸ Path.parent_absolute_nil) hnonroot
    · rw [List.concat_eq_append] at hnames
      obtain ⟨rfl, hhops⟩ := hhandle.last hcalm names n hnames
      have hfile' := hfile _ hnames
      rw [List.reverse_append] at hfile'
      exact (openedPlace_last hhops hhandle.dir hfile').imp_left fun h => ⟨_, h⟩
  cases hfault : x.fault with
  | some f =>
    simp only [act, hfault]
    refine ⟨fun hcalm => ?_, fun _ h => by cases h⟩
    cases hfault.symm.trans (hx hcalm).1
  | none =>
    simp only [act, hfault]
    cases hopened : openedPlace d.fs dir relative with
    | ok file =>
      refine ⟨?_, fun hcalm => ?_⟩
      · exact hhandle.leads_to (leads_of_openedPlace hopened)
      · rcases hcase hcalm with ⟨file', hok, hfile⟩ | herror
        · obtain rfl := Except.ok.inj (hopened.symm.trans hok)
          exact hfile
        · cases hopened.symm.trans herror
    | error e =>
      refine ⟨fun hcalm => ?_, fun hthis hmissed => ?_⟩
      · rcases hcase hcalm with ⟨file', hok, hfile⟩ | herror
        · cases hopened.symm.trans hok
        · exact Except.error.inj (hopened.symm.trans herror)
      · obtain ⟨l, hleads⟩ := hthere d hP hthis
        exact hhandle.opened_notFound hempty (hmissed ▸ hopened) l hleads

theorem delivers_openPassword {roles : List Role} {dirs : List Utf8Path} {there : Prop}
    {dir : Location OsString} {relative : Utf8Path}
    (hplace : calm → ∀ d, m.Standing t roles dirs d → m.Ready calm d → PasswordPlace d path)
    (hempty : ¬ relative.isEmpty = true) :
    (m.loud calm).Delivers calm t (ask (.openNoFollow dir relative))
      (fun d => m.Handle t calm path (dir, relative) d ∧ m.Standing t roles dirs d ∧
        (there → ∃ l, m.Leads d t path l))
      fun r d => (m.Opened t calm there path r d ∧ path.parent ≠ none) ∧ m.Standing t roles dirs d := by
  have hkept : (m.quiet calm t).Lasting fun d => (m.Standing t roles dirs d ∧
      (there → ∃ l, m.Leads d t path l)) ∧ m.Handle t calm path (dir, relative) d :=
    ((lasting_standing roles dirs).and (growing_there path there).quiet).and
      (growing_handle path (dir, relative)).quiet
  have hplace' : calm → ∀ d, m.Standing t roles dirs d ∧ (there → ∃ l, m.Leads d t path l) →
      m.Ready calm d → PasswordPlace d path := fun hcalm d h => hplace hcalm d h.1
  have hopen := delivers_openNoFollow dir hplace' (fun _ h => h.2) hempty
  refine (Contract.Delivers.of_only (hopen.frame hkept)).mono
    (fun d h => ⟨⟨h.2, h.1⟩, h.2, h.1⟩) fun r d h => ?_
  obtain ⟨hopened, ⟨hstanding, -⟩, hhandle⟩ := h
  exact ⟨⟨hopened, fun hnone => hempty (hhandle.empty.mpr hnone)⟩, hstanding⟩

theorem delivers_fchmod {roles : List Role} {dirs : List Utf8Path} {file : Location OsString}
    (hrole : m.Chmods t ⟨path, mode⟩) (hnonroot : path.parent ≠ none) :
    (m.loud calm).Delivers calm t (ask (.fchmod file mode))
      (fun d => m.Leads d t path file ∧ m.Standing t roles dirs d) fun r d => match r with
        | .ok () => m.Standing t (roles ++ unlessRoot [⟨path, mode⟩]) dirs d
        | .error _ => ¬ calm := by
  refine Contract.delivers_ask (M := fun r d => match r with
    | .ok () => m.Standing t (roles ++ unlessRoot [⟨path, mode⟩]) dirs d
    | .error _ => ¬ calm) (fun x d r d' hP hcond hsem => ?_) (fun r => ?_)
    fun r => Contract.delivers_pure fun d h => h
  · have hact := Option.some.inj hsem
    cases hfault : x.fault with
    | some f =>
      simp only [act, hfault, toldUnless, onPlace] at hact
      cases hact
      refine ⟨granted_refl m t d, fun hcalm => ?_⟩
      cases hfault.symm.trans (hcond.2 hcalm).1
    | none =>
      simp only [act, hfault, toldUnless, onPlace] at hact
      cases hact
      rw [unlessRoot_nonroot hnonroot]
      exact standing_setMode hP.2 hrole hnonroot hP.1
  · cases r with
    | ok => exact stable_standing _ dirs
    | error e => exact Contract.lasting_pure.stable t

theorem delivers_takeOver {roles : List Role} {dirs : List Utf8Path} {file : Location OsString}
    (hroot : m.Root t user) (hrole : m.Chmods t ⟨path, pgpassMode⟩) (hnonroot : path.parent ≠ none) :
    (m.loud calm).Delivers calm t (do
      let isFile ← orThrow (.file "stat" path) (← ask (.isFile file))
      if !isFile then throw (.regular path)
      else
        orThrow (.file "fchown" path) (← ask (.fchown file user))
        orThrow (.file "fchmod" path) (← ask (.fchmod file pgpassMode)) : Code Unit)
      (fun d => (m.Leads d t path file ∧ (calm → isFileAt d.fs file = true)) ∧ m.Standing t roles dirs d)
      fun _ => m.Standing t (roles ++ unlessRoot [⟨path, pgpassMode⟩]) dirs := by
  have hleads : Growing fun d => m.Leads d t path file := fun d d' hgrows h => h.grows hgrows
  have hstat : (m.quiet calm t).Delivers calm t (ask (.isFile file))
      (fun d => m.Leads d t path file ∧ (calm → isFileAt d.fs file = true))
      fun r d => (calm → r = .ok true) ∧ m.Leads d t path file := by
    refine delivers_asked (fun _ _ => rfl) (fun x d hP _ hx => ⟨fun hcalm => ?_, hP.1⟩)
      fun r => growing_pure.and hleads
    have hfile := hP.2 hcalm
    simp only [act, (hx hcalm).1, toldUnless, hfile]
  refine (Delivers.standing hstat).bind fun r => delivers_orThrow (fun isFile hok => ?_)
    fun e herror d h hcalm => by cases herror.symm.trans (h.1.1 hcalm)
  show (m.loud calm).Delivers calm t (if _ then _ else _) _ _
  split
  next hnot =>
    refine Contract.delivers_throw fun d h hcalm => ?_
    obtain rfl := Except.ok.inj (hok.symm.trans (h.1.1 hcalm))
    cases hnot
  next =>
    have hchown : (m.quiet calm t).Delivers calm t (ask (.fchown file user)) (m.Leads · t path file)
        fun r d => (calm → r = .ok ()) ∧ m.Leads d t path file :=
      ((delivers_fchown hroot).frame hleads.quiet).mono (fun _ h => ⟨trivial, h⟩) fun _ _ h => h
    refine ((Delivers.standing hchown).mono (fun d h => ⟨h.1.2, h.2⟩) fun _ _ h => h).bind fun r => ?_
    refine delivers_orThrow (fun _ _ => ?_) fun e herror d h hcalm => by
      cases herror.symm.trans (h.1.1 hcalm)
    refine ((delivers_fchmod hrole hnonroot).mono (fun d h => ⟨h.1.2, h.2⟩)
      fun _ _ h => h).bind fun r => ?_
    cases r with
    | ok => exact Contract.delivers_pure fun d h => h
    | error e => exact Contract.delivers_throw fun d h => h

theorem settles_ensurePgpassForUser {paths : SettingsPaths} (hroot : m.Root t user)
    (hpaths : m.paths t = some paths)
    (hpassword : paths.passwordFile = childOf paths.installDir ".pgpass")
    (hnonroot : calm → paths.passwordFile.parent ≠ none) (hready : paths.installDir ∈ ready)
    (hrole : m.Chmods t ⟨paths.passwordFile, pgpassMode⟩) :
    m.Settles t calm start ready (ensurePgpassForUser paths.passwordFile user)
      fun _ => m.PasswordWays t start paths.passwordFile := by
  intro roles dirs hdirs
  let there : Prop := ∃ l, m.Leads start t paths.passwordFile l
  have hplace : calm → ∀ d, m.Standing t roles dirs d → m.Ready calm d →
      PasswordPlace d paths.passwordFile := fun hcalm d h hd =>
    hd.passwordPlace hcalm hpaths hpassword (h.held _ (hdirs hready))
  have hlasting : (m.quiet calm t).Lasting fun d => m.Standing t roles dirs d ∧
      (there → ∃ l, m.Leads d t paths.passwordFile l) :=
    (lasting_standing roles dirs).and (growing_there _ there).quiet
  have hambient : (m.quiet calm t).Delivers calm t (ambientDirAndPath paths.passwordFile)
      (m.Standing t roles dirs) (m.Handle t calm paths.passwordFile) :=
    delivers_ambientDirAndPath _ fun hcalm d h hd => (hplace hcalm d h hd).parent
  refine ((Contract.Delivers.of_only (hambient.frame hlasting)).mono
    (fun d h => ⟨h.1, h.1, fun hthere => hthere.imp fun _ hleads => h.2.leads hleads⟩)
    fun _ _ h => h).bind fun r => ?_
  obtain ⟨dir, relative⟩ := r
  show (m.loud calm).Delivers calm t (if _ then _ else _) _ _
  split
  next hempty => exact Contract.delivers_throw fun d h hcalm => hnonroot hcalm (h.1.empty.mp hempty)
  next hempty =>
    refine (delivers_openPassword hplace hempty).bind fun r => ?_
    have hthrow : ∀ (cause : Errno) (e : BootstrapError), cause ≠ .notFound →
        (m.loud calm).Delivers calm t (throw e : Code Unit)
          (fun d => (m.Opened t calm there paths.passwordFile (.error cause) d ∧
            paths.passwordFile.parent ≠ none) ∧ m.Standing t roles dirs d) fun _ d =>
              ∃ assigned made, m.PasswordWays t start paths.passwordFile assigned made ∧
                m.Standing t (roles ++ unlessRoot assigned) (dirs ++ made) d :=
      fun cause e hne => Contract.delivers_throw fun d h hcalm => hne (h.1.1.1 hcalm)
    match r with
    | .error .notFound =>
      refine Contract.delivers_pure fun d h => ⟨[], [], ⟨⟨false, fun hthere => ?_, rfl⟩, rfl⟩, ?_⟩
      · exact absurd rfl (h.1.1.2 hthere)
      · exact h.2.noRole.noDir
    | .error .notDirectory | .error .isDirectory | .error .alreadyExists | .error .loop
    | .error .escape | .error .invalid | .error (.fault _) => exact hthrow _ _ (fun h => by cases h)
    | .ok file =>
      refine Contract.delivers_of_pre (fun d h => h.1.2) fun hnonroot => ?_
      refine (delivers_takeOver hroot hrole hnonroot).mono (fun d h => ⟨h.1.1, h.2⟩) fun _ d h => ?_
      exact ⟨_, [], ⟨⟨true, fun _ => rfl, rfl⟩, rfl⟩, h.noDir⟩

/-! ### The time zone -/

/-- One of the candidates is there. -/
def OneThere (d : Disk) (cwd : Location OsString) (candidates : List String) : Prop :=
  ∃ candidate ∈ candidates, textExists d.fs cwd (osString candidate) = true

theorem growing_oneThere (cwd : Location OsString) (candidates : List String) :
    Growing fun d => OneThere d cwd candidates := fun _ _ hgrows h =>
  h.imp fun _ hmem => ⟨hmem.1, textExists_grows hmem.2 hgrows⟩

theorem Growing.imp {p : Prop} {F : Disk → Prop} (h : Growing F) : Growing fun d => p → F d :=
  fun d d' hgrows hd hp => h d d' hgrows (hd hp)

theorem delivers_findTimezoneDir (candidates : List String) :
    (m.quiet calm t).Delivers calm t (findTimezoneDir candidates)
      (fun d => calm → OneThere d (m.process t).cwd candidates) fun r _ => calm → r ≠ none := by
  induction candidates with
  | nil =>
    refine Contract.delivers_pure fun d h hcalm => ?_
    obtain ⟨_, hmem, -⟩ := h hcalm
    cases hmem
  | cons candidate rest ih =>
    refine delivers_read (M := fun r d => calm → r = false → OneThere d (m.process t).cwd rest)
      (fun _ _ => rfl) (fun x d hP _ _ hcalm hfalse => ?_) (fun r => ((growing_oneThere _ _).imp).imp)
      fun r => ?_
    · obtain ⟨candidate', hmem, hthere⟩ := hP hcalm
      rcases List.mem_cons.mp hmem with rfl | hmem
      · cases hfalse.symm.trans hthere
      · exact ⟨candidate', hmem, hthere⟩
    · show (m.quiet calm t).Delivers calm t (if _ then _ else _) _ _
      split
      next => exact Contract.delivers_pure fun d _ _ h => by cases h
      next hfalse =>
        exact ih.mono (fun d h hcalm => h hcalm (Bool.eq_false_iff.mpr hfalse)) fun _ _ h => h

theorem delivers_timezoneDir :
    (m.quiet calm t).Delivers calm t timezoneDir (fun _ => True) fun _ _ => True := by
  refine delivers_read (M := fun r d => r = (m.process t).env "TZDIR" ∧
    (calm → ZoneThere d (m.process t))) (fun _ _ => rfl)
    (fun x d _ hready _ => ⟨rfl, fun hcalm => (hready.zone hcalm t).1⟩)
    (fun r d d' hgrows h => ⟨h.1, fun hcalm => ?_⟩) fun r => ?_
  · have hzone := h.2 hcalm
    unfold ZoneThere at hzone ⊢
    split at hzone
    · exact ⟨hzone.1, textExists_grows hzone.2 hgrows⟩
    · exact growing_oneThere _ _ d d' hgrows hzone
  · refine Contract.delivers_of_pre (fun d h => h.1) fun henv => ?_
    cases r with
    | none =>
      have hfind : (m.quiet calm t).Delivers calm t (findTimezoneDir tzdirCandidates)
          (fun d => none = (m.process t).env "TZDIR" ∧ (calm → ZoneThere d (m.process t)))
          fun r _ => calm → r ≠ none := by
        refine (delivers_findTimezoneDir tzdirCandidates).mono (fun d h hcalm => ?_) fun _ _ h => h
        have hzone := h.2 hcalm
        unfold ZoneThere at hzone
        rw [← henv] at hzone
        exact hzone
      refine hfind.bind fun r => ?_
      cases r with
      | some dir => exact Contract.delivers_pure fun _ _ => trivial
      | none => exact Contract.delivers_throw fun d h hcalm => h hcalm rfl
    | some dir =>
      have hzone : ∀ d, ZoneThere d (m.process t) →
          isUtf8 dir = true ∧ textExists d.fs (m.process t).cwd dir = true := by
        intro d h
        unfold ZoneThere at h
        rw [← henv] at h
        exact h
      show (m.quiet calm t).Delivers calm t (if _ then _ else _) _ _
      split
      next hnot =>
        refine Contract.delivers_throw fun d h hcalm => ?_
        rw [(hzone d (h.2 hcalm)).1] at hnot
        cases hnot
      next =>
        refine delivers_read (M := fun r _ => calm → r = true) (fun _ _ => rfl)
          (fun x d hP _ _ hcalm => (hzone d (hP.2 hcalm)).2) (fun r => growing_pure) fun r => ?_
        cases r with
        | true => exact Contract.delivers_pure fun _ _ => trivial
        | false => exact Contract.delivers_throw fun d h hcalm => by cases h hcalm

theorem delivers_prepareTimezoneEnv :
    (m.quiet calm t).Delivers calm t prepareTimezoneEnv (fun _ => True) fun _ _ => True := by
  refine delivers_timezoneDir.bind fun dir => ?_
  refine delivers_read (M := fun r _ => calm → ∃ zone, timezoneOf r = .ok zone) (fun _ _ => rfl)
    (fun x d _ hready _ hcalm => (hready.zone hcalm t).2) (fun r => growing_pure) fun r => ?_
  have hzone : (m.quiet calm t).Delivers calm t (ExceptT.mk (pure (timezoneOf r)) : Code String)
      (fun _ => calm → ∃ zone, timezoneOf r = .ok zone) fun _ _ => True := by
    refine Contract.ensures_ret fun d h => ?_
    cases hzone : timezoneOf r with
    | ok zone => trivial
    | error e =>
      intro hcalm
      obtain ⟨zone, hok⟩ := h hcalm
      cases hzone.symm.trans hok
  exact hzone.bind fun zone => Contract.delivers_pure fun _ _ => trivial

/-! ### The whole preparation -/

/-- The settings and the environment name the directories of the paths. -/
structure Describes (paths : SettingsPaths) (prepared : PreparedBootstrap) : Prop where
  installDir : prepared.settings.installationDir = paths.installDir
  dataDir : prepared.settings.dataDir = paths.dataDir
  passwordFile : prepared.settings.passwordFile = paths.passwordFile
  home : prepared.environment.home = paths.installDir
  cache : prepared.environment.xdgCacheHome = childOf paths.installDir "cache"
  runtime : prepared.environment.xdgRuntimeDir = childOf paths.installDir "run"
  pgpassFile : prepared.environment.pgpassFile = paths.passwordFile

/-- What a bootstrap comes to. A password file that was there at the start is found. -/
def Prepares (m : Machine T) (t : T) (start : Disk) (prepared : PreparedBootstrap)
    (assigned : List Role) (made : List Utf8Path) : Prop :=
  ∃ paths found, m.paths t = some paths ∧ Describes paths prepared ∧
    ((∃ l, m.Leads start t paths.passwordFile l) → found = true) ∧
    assigned = paths.chmods found (m.process t).privileges ∧ made = paths.made

theorem delivers_ensureRootPort (settings : Settings) :
    (m.quiet calm t).Delivers calm t (ensureRootPort settings) (fun _ => True) fun settings' _ =>
      settings'.installationDir = settings.installationDir ∧ settings'.dataDir = settings.dataDir := by
  unfold ensureRootPort
  split
  next => exact Contract.delivers_pure fun _ _ => ⟨rfl, rfl⟩
  next =>
    refine delivers_read (M := fun r _ => calm → r = .ok ()) (fun _ _ => rfl) (fun x d _ _ hx hcalm => ?_)
      (fun r => growing_pure) fun r => ?_
    · simp only [act, (hx hcalm).2]
    · cases r with
      | error err => exact Contract.delivers_throw fun d h hcalm => by cases h hcalm
      | ok =>
        refine delivers_read (M := fun r _ => calm → ∃ port, r = .ok port) (fun _ _ => rfl)
          (fun x d _ _ hx hcalm => ⟨x.port, ?_⟩) (fun r => growing_pure) fun r => ?_
        · simp only [act, (hx hcalm).2]
        · cases r with
          | error err =>
            refine Contract.delivers_throw fun d h hcalm => ?_
            obtain ⟨port, hok⟩ := h hcalm
            cases hok
          | ok port => exact Contract.delivers_pure fun _ _ => ⟨rfl, rfl⟩

theorem delivers_nobodyUser (hprivileges : (m.process t).privileges = .root) :
    (m.quiet calm t).Delivers calm t nobodyUser (fun _ => True) fun user _ => m.Root t user := by
  refine delivers_read (M := fun r _ => (∀ found, r = .ok found → found = m.nobody) ∧
    (calm → r = .ok m.nobody ∧ m.nobody ≠ none)) (fun _ _ => rfl)
    (fun x d _ hready hx => ⟨fun found hok => ?_, fun hcalm => ⟨?_, hready.nobody hcalm t hprivileges⟩⟩)
    (fun r => growing_pure) fun r => ?_
  · cases herr : x.err with
    | none =>
      simp only [act, herr] at hok
      exact (Except.ok.inj hok).symm
    | some err =>
      simp only [act, herr] at hok
      cases hok
  · simp only [act, (hx hcalm).2]
  · cases r with
    | error err => exact Contract.delivers_throw fun d h hcalm => by cases (h.2 hcalm).1
    | ok found =>
      cases found with
      | none => exact Contract.delivers_throw fun d h hcalm => (h.2 hcalm).2 (h.1 _ rfl).symm
      | some user => exact Contract.delivers_pure fun d h => ⟨hprivileges, (h.1 _ rfl).symm⟩

theorem resolve_paths {settings settings' : Settings} (cfg : PgEnvCfg) (uid : Nat)
    (hinstall : settings'.installationDir = settings.installationDir)
    (hdata : settings'.dataDir = settings.dataDir) :
    (resolveSettingsPathsForUid settings' cfg uid).2 =
      (resolveSettingsPathsForUid settings cfg uid).2 := by
  unfold resolveSettingsPathsForUid settingsPathsFromSettings
  rw [hinstall, hdata]

theorem paths_root {settings : Settings} (hroot : m.Root t user)
    (hinstall : settings.installationDir = (m.process t).settings.installationDir)
    (hdata : settings.dataDir = (m.process t).settings.dataDir) :
    m.paths t = some (resolveSettingsPathsForUid settings (m.process t).cfg user.uid).2 := by
  unfold Machine.paths settledUid
  rw [hroot.privileges, hroot.nobody, resolve_paths _ _ hinstall hdata]
  rfl

theorem paths_unprivileged (hprivileges : (m.process t).privileges = .unprivileged) :
    m.paths t = some (resolveSettingsPathsForUid (m.process t).settings (m.process t).cfg
      (m.process t).user.uid).2 := by
  unfold Machine.paths settledUid
  rw [hprivileges]
  rfl

section Paths

variable {paths : SettingsPaths}

theorem makes_of (hpaths : m.paths t = some paths) (hmem : path ∈ paths.made) : m.Makes t path :=
  ⟨paths, hpaths, hmem⟩

theorem makes_directory {role : Role} (hpaths : m.paths t = some paths)
    (hmem : role ∈ paths.directories) : m.Makes t role.path :=
  makes_of hpaths (List.mem_append_right _ (List.mem_map_of_mem hmem))

theorem chmods_directory {role : Role} (hpaths : m.paths t = some paths)
    (hmem : role ∈ paths.directories) : m.Chmods t role := by
  refine ⟨paths, hpaths, ?_⟩
  have hmem' : role ∈ paths.mainRoles ∨ role ∈ paths.xdgRoles := List.mem_append.mp hmem
  cases (m.process t).privileges with
  | root =>
    simp only [SettingsPaths.chmods, List.mem_append]
    tauto
  | unprivileged =>
    simp only [SettingsPaths.chmods, List.mem_append]
    tauto

theorem chmods_pgpass (hpaths : m.paths t = some paths) : m.Chmods t paths.pgpassRole := by
  refine ⟨paths, hpaths, ?_⟩
  cases (m.process t).privileges with
  | root => exact List.mem_append_right _ (List.mem_singleton_self _)
  | unprivileged =>
    exact List.mem_append_left _ (List.mem_append_right _ (List.mem_singleton_self _))

theorem settles_prepareXdgDirs (hpaths : m.paths t = some paths) :
    m.Settles t calm start ready (prepareXdgDirs paths.installDir) fun xdg assigned made =>
      xdg = ⟨paths.installDir, childOf paths.installDir "cache", childOf paths.installDir "run"⟩ ∧
        assigned = paths.xdgRoles ∧ made = m.unlessOwned t (paths.xdgRoles.map (·.path)) := by
  have hdir : ∀ role ∈ paths.xdgRoles, ∀ ready, m.Settles t calm start ready
      (ensureDirWithMode role.path role.mode)
      fun _ assigned made => assigned = [role] ∧ made = m.unlessOwned t [role.path] :=
    fun role hmem ready => settles_ensureDirWithMode
      (makes_directory hpaths (List.mem_append_right _ hmem))
      (chmods_directory hpaths (List.mem_append_right _ hmem))
  refine (hdir _ (List.mem_cons_self ..) ready).bind fun _ assigned made hcache => ?_
  obtain ⟨rfl, rfl⟩ := hcache
  refine (hdir _ (List.mem_cons_of_mem _ (List.mem_cons_self ..)) _).bind fun _ assigned made hrun => ?_
  obtain ⟨rfl, rfl⟩ := hrun
  refine settles_pure ⟨rfl, rfl, ?_⟩
  unfold unlessOwned
  cases (m.process t).privileges <;> rfl

theorem settles_ensureXdgDirsOwnedByUser (hroot : m.Root t user) (hpaths : m.paths t = some paths)
    {xdg : XdgDirs} (hxdg : xdg =
      ⟨paths.installDir, childOf paths.installDir "cache", childOf paths.installDir "run"⟩) :
    m.Settles t calm start ready (ensureXdgDirsOwnedByUser xdg user) fun _ assigned made =>
      assigned = paths.xdgRoles ∧ made = paths.xdgRoles.map (·.path) := by
  subst hxdg
  have hdir : ∀ role ∈ paths.xdgRoles, ∀ ready, m.Settles t calm start ready
      (ensureDirForUser role.path user role.mode)
      fun _ assigned made => assigned = [role] ∧ made = [role.path] :=
    fun role hmem ready => settles_ensureDirForUser hroot
      (makes_directory hpaths (List.mem_append_right _ hmem))
      (chmods_directory hpaths (List.mem_append_right _ hmem))
  refine (hdir _ (List.mem_cons_self ..) ready).bind fun _ assigned made hcache => ?_
  obtain ⟨rfl, rfl⟩ := hcache
  refine (hdir _ (List.mem_cons_of_mem _ (List.mem_cons_self ..)) _).mono fun _ assigned made hrun => ?_
  obtain ⟨rfl, rfl⟩ := hrun
  exact ⟨rfl, rfl⟩

theorem settles_ensureParentExists (hprivileges : (m.process t).privileges = .unprivileged)
    (hpaths : m.paths t = some paths) (ready : List Utf8Path) (path : Utf8Path)
    (hsubset : path.parent.toList ⊆ paths.parents) :
    m.Settles t calm start ready (ensureParentExists path) fun _ assigned made =>
      assigned = path.parent.toList.flatMap (fun _ => []) ∧ made = path.parent.toList := by
  unfold ensureParentExists
  cases hparent : path.parent with
  | none => exact settles_pure ⟨rfl, rfl⟩
  | some parent =>
    rw [hparent] at hsubset
    have hmakes : m.Makes t parent :=
      makes_of hpaths (List.mem_append_left _ (hsubset (List.mem_singleton_self parent)))
    refine (settles_ensureDirExists hmakes).mono fun _ assigned made h => ?_
    obtain ⟨rfl, rfl⟩ := h
    exact ⟨rfl, by unfold unlessOwned; rw [hprivileges]; rfl⟩

theorem settles_ensureParentForUser (hroot : m.Root t user) (hpaths : m.paths t = some paths)
    (ready : List Utf8Path) (path : Utf8Path) (hsubset : path.parent.toList ⊆ paths.parents) :
    m.Settles t calm start ready (ensureParentForUser user path) fun _ assigned made =>
      assigned = path.parent.toList.flatMap (fun parent => [⟨parent, 0o755⟩]) ∧
        made = path.parent.toList := by
  unfold ensureParentForUser
  cases hparent : path.parent with
  | none => exact settles_pure ⟨rfl, rfl⟩
  | some parent =>
    rw [hparent] at hsubset
    have hmem : parent ∈ paths.parents := hsubset (List.mem_singleton_self parent)
    have hrole : m.Chmods t ⟨parent, 0o755⟩ := by
      refine ⟨paths, hpaths, ?_⟩
      rw [hroot.privileges]
      refine List.mem_append_left _ (List.mem_append_left _ (List.mem_append_left _ ?_))
      exact List.mem_append_left _ (List.mem_map_of_mem hmem)
    exact settles_ensureDirForUser hroot (makes_of hpaths (List.mem_append_left _ hmem)) hrole

end Paths

/-- The settings are resolved to what the paths are. -/
structure Resolved (settings : Settings) (paths : SettingsPaths) : Prop where
  installDir : settings.installationDir = paths.installDir
  dataDir : settings.dataDir = paths.dataDir
  passwordFile : settings.passwordFile = paths.passwordFile
  pgpass : paths.passwordFile = childOf paths.installDir ".pgpass"

theorem resolved_resolve (settings : Settings) (cfg : PgEnvCfg) (uid : Nat) :
    Resolved (resolveSettingsPathsForUid settings cfg uid).1
      (resolveSettingsPathsForUid settings cfg uid).2 :=
  ⟨rfl, rfl, rfl, rfl⟩

theorem Resolved.describes {settings : Settings} {paths : SettingsPaths} (h : Resolved settings paths)
    (timezone : TimezoneEnv) : Describes paths ⟨settings, .fromComponents
      ⟨paths.installDir, childOf paths.installDir "cache", childOf paths.installDir "run"⟩
      paths.passwordFile timezone⟩ :=
  ⟨h.installDir, h.dataDir, h.passwordFile, rfl, rfl, rfl, rfl⟩

theorem settles_bootstrapUnprivileged (hprivileges : (m.process t).privileges = .unprivileged) :
    m.Settles t calm start [] (bootstrapUnprivileged (m.process t).settings (m.process t).cfg)
      (m.Prepares t start) := by
  have hpaths := paths_unprivileged hprivileges
  have howned : ∀ dirs, m.unlessOwned t dirs = dirs := fun dirs => by
    unfold unlessOwned
    rw [hprivileges]
  have hresolve : (m.quiet calm t).Delivers calm t
      (resolveSettingsPathsForCurrentUser (m.process t).settings (m.process t).cfg) (fun _ => True)
      fun r _ => r = resolveSettingsPathsForUid (m.process t).settings (m.process t).cfg
        (m.process t).user.uid := by
    refine delivers_read (M := fun r _ => r = (m.process t).user.uid) (fun _ _ => rfl)
      (fun x d _ _ _ => rfl) (fun r => growing_pure) fun uid => ?_
    exact Contract.delivers_pure fun d h => by rw [h]
  refine (Settles.of_quiet hresolve).bind fun r assigned made h => ?_
  obtain ⟨hr, rfl, rfl⟩ := h
  have hresolved := resolved_resolve (m.process t).settings (m.process t).cfg (m.process t).user.uid
  obtain ⟨settings, paths⟩ := r
  rw [← hr] at hpaths hresolved
  have hdir : ∀ role ∈ paths.mainRoles, ∀ ready, m.Settles t calm start ready
      (ensureDirWithMode role.path role.mode)
      fun _ assigned made => assigned = [role] ∧ made = [role.path] := fun role hmem ready =>
    (settles_ensureDirWithMode (makes_directory hpaths (List.mem_append_left _ hmem))
      (chmods_directory hpaths (List.mem_append_left _ hmem))).mono fun _ _ _ h =>
        ⟨h.1, h.2.trans (howned _)⟩
  refine (settles_ensureParentsForPaths (settles_ensureParentExists hprivileges hpaths)).bind
    fun _ assigned made h => ?_
  obtain ⟨rfl, rfl⟩ := h
  refine (hdir _ (List.mem_cons_self ..) _).bind fun _ assigned made h => ?_
  obtain ⟨rfl, rfl⟩ := h
  refine (hdir _ (List.mem_cons_of_mem _ (List.mem_cons_self ..)) _).bind fun _ assigned made h => ?_
  obtain ⟨rfl, rfl⟩ := h
  refine (settles_ensurePgpassPermissions hpaths hresolved.pgpass ?_ (chmods_pgpass hpaths)).bind
    fun _ assigned made h => ?_
  · exact List.mem_append_left _ (List.mem_append_right _ (List.mem_singleton_self _))
  obtain ⟨⟨found, hfound, rfl⟩, rfl⟩ := h
  refine (Settles.of_quiet delivers_prepareTimezoneEnv).bind fun timezone assigned made h => ?_
  obtain ⟨-, rfl, rfl⟩ := h
  refine (settles_prepareXdgDirs hpaths).bind fun xdg assigned made h => ?_
  obtain ⟨rfl, rfl, rfl⟩ := h
  refine settles_pure ⟨paths, found, hpaths, hresolved.describes timezone, hfound, ?_, ?_⟩
  · rw [hprivileges]
    simp [SettingsPaths.chmods, SettingsPaths.mainRoles, SettingsPaths.pgpassRole]
  · rw [howned]
    simp [SettingsPaths.made, SettingsPaths.directories, SettingsPaths.mainRoles]

theorem settles_ending {paths : SettingsPaths} {settings : Settings} (hroot : m.Root t user)
    (hresolved : Resolved settings paths) (timezone : TimezoneEnv)
    {ways : PreparedBootstrap → List Role → List Utf8Path → Prop}
    (hways : ∀ prepared, Describes paths prepared → ways prepared [] []) :
    m.Settles t calm start ready (do
      ensureTreeOwnedByUser paths.installDir user
      if paths.dataDefault then ensureTreeOwnedByUser paths.dataDir user else pure ()
      pure ⟨settings, .fromComponents
        ⟨paths.installDir, childOf paths.installDir "cache", childOf paths.installDir "run"⟩
        paths.passwordFile timezone⟩) ways := by
  refine (settles_ensureTreeOwnedByUser hroot).bind fun _ assigned made h => ?_
  obtain ⟨rfl, rfl⟩ := h
  cases hdefault : paths.dataDefault with
  | false => exact settles_pure (hways _ (hresolved.describes timezone))
  | true =>
    refine (settles_ensureTreeOwnedByUser hroot).bind fun _ assigned made h => ?_
    obtain ⟨rfl, rfl⟩ := h
    exact settles_pure (hways _ (hresolved.describes timezone))

theorem settles_bootstrapWithRoot (hprivileges : (m.process t).privileges = .root)
    (hnonroot : calm → ∀ paths, m.paths t = some paths → paths.passwordFile.parent ≠ none) :
    m.Settles t calm start [] (bootstrapWithRoot (m.process t).settings (m.process t).cfg)
      (m.Prepares t start) := by
  have howned : ∀ dirs, m.unlessOwned t dirs = [] := fun dirs => by
    unfold unlessOwned
    rw [hprivileges]
  refine (Settles.of_quiet (delivers_ensureRootPort _)).bind fun settings assigned made h => ?_
  obtain ⟨⟨hinstall, hdata⟩, rfl, rfl⟩ := h
  refine (Settles.of_quiet (delivers_nobodyUser hprivileges)).bind fun user assigned made h => ?_
  obtain ⟨hroot, rfl, rfl⟩ := h
  have hpaths := paths_root hroot hinstall hdata
  have hresolved := resolved_resolve settings (m.process t).cfg user.uid
  generalize resolveSettingsPathsForUid settings (m.process t).cfg user.uid = r at hpaths hresolved ⊢
  obtain ⟨settings', paths⟩ := r
  have hdir : ∀ role ∈ paths.mainRoles, ∀ ready, m.Settles t calm start ready
      (ensureDirForUser role.path user role.mode)
      fun _ assigned made => assigned = [role] ∧ made = [role.path] := fun role hmem ready =>
    settles_ensureDirForUser hroot (makes_directory hpaths (List.mem_append_left _ hmem))
      (chmods_directory hpaths (List.mem_append_left _ hmem))
  refine (settles_ensureParentsForPaths (settles_ensureParentForUser hroot hpaths)).bind
    fun _ assigned made h => ?_
  obtain ⟨rfl, rfl⟩ := h
  refine (hdir _ (List.mem_cons_self ..) _).bind fun _ assigned made h => ?_
  obtain ⟨rfl, rfl⟩ := h
  refine (hdir _ (List.mem_cons_of_mem _ (List.mem_cons_self ..)) _).bind fun _ assigned made h => ?_
  obtain ⟨rfl, rfl⟩ := h
  refine (Settles.of_quiet delivers_prepareTimezoneEnv).bind fun timezone assigned made h => ?_
  obtain ⟨-, rfl, rfl⟩ := h
  refine (settles_prepareXdgDirs hpaths).bind fun xdg assigned made h => ?_
  obtain ⟨rfl, rfl, rfl⟩ := h
  refine (settles_ensureXdgDirsOwnedByUser hroot hpaths rfl).bind fun _ assigned made h => ?_
  obtain ⟨rfl, rfl⟩ := h
  refine (settles_ensurePgpassForUser hroot hpaths hresolved.pgpass (fun hcalm => hnonroot hcalm _ hpaths)
    ?_ (chmods_pgpass hpaths)).bind fun _ assigned made h => ?_
  · simp
  obtain ⟨⟨found, hfound, rfl⟩, rfl⟩ := h
  refine settles_ending hroot hresolved timezone fun prepared hdescribes => ?_
  refine ⟨paths, found, hpaths, hdescribes, hfound, ?_, ?_⟩
  · rw [hprivileges]
    simp [SettingsPaths.chmods, SettingsPaths.mainRoles, SettingsPaths.pgpassRole,
      SettingsPaths.parentRoles, List.map_eq_flatMap]
  · rw [howned]
    simp [SettingsPaths.made, SettingsPaths.directories, SettingsPaths.mainRoles]

/-- **What a bootstrap comes to.** -/
theorem settles_prepareBootstrap
    (hnonroot : calm → ∀ paths, m.paths t = some paths → paths.passwordFile.parent ≠ none) :
    m.Settles t calm start [] (prepareBootstrap (m.process t).privileges (m.process t).settings
      (m.process t).cfg) (m.Prepares t start) := by
  cases hprivileges : (m.process t).privileges with
  | root => exact settles_bootstrapWithRoot hprivileges hnonroot
  | unprivileged => exact settles_bootstrapUnprivileged hprivileges

end Machine

end PgEmbeddedSetup.Bootstrap
