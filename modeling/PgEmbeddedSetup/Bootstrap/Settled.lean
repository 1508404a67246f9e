import PgEmbeddedSetup.Bootstrap.Established

/-!
# Modes and owners

The helpers that set modes and owners. `Standing` is what a process knows between two of them: which modes
it has set, in order, and which directories it has made ready. In a process with root privileges these
belong to `nobody`.
-/

namespace PgEmbeddedSetup.Bootstrap

open Env Fs Interleave Lexical Posix FileSystem
open Cache (changeMode maskMode modeOf)
open Machine (Role)
open Privileges (User isUtf8)

variable {T : Type} {m : Machine T} {t : T} {d d' : Disk} {path : Utf8Path} {l : Location OsString}
  {calm : Prop}

namespace Machine

/-- A directory that is made ready. -/
def Held (m : Machine T) (t : T) (path : Utf8Path) (d : Disk) : Prop :=
  ∃ l, m.DirAt t path l d ∧ ((m.process t).privileges = .root → m.nobody = some (d.owner l))

theorem Held.granted {t' : T} (h : m.Held t path d) (hgranted : m.Granted t' d d') :
    m.Held t path d' := by
  obtain ⟨l, hdir, howner⟩ := h
  refine ⟨l, growing_dirAt m t path l d d' hgranted.grows hdir, fun hroot => ?_⟩
  rw [hgranted.owner_nobody hdir.2.ne_none (howner hroot)]
  exact howner hroot

structure Standing (m : Machine T) (t : T) (roles : List Role) (dirs : List Utf8Path) (d : Disk) :
    Prop where
  assigned : m.Assigned t roles d
  held : ∀ path ∈ dirs, m.Held t path d

theorem Standing.noRole {roles : List Role} {dirs : List Utf8Path} (h : m.Standing t roles dirs d) :
    m.Standing t (roles ++ unlessRoot []) dirs d := by
  rw [unlessRoot, List.filter_nil, List.append_nil]
  exact h

theorem Standing.noDir {roles : List Role} {dirs : List Utf8Path} (h : m.Standing t roles dirs d) :
    m.Standing t roles (dirs ++ []) d := by
  rw [List.append_nil]
  exact h

theorem lasting_standing (roles : List Role) (dirs : List Utf8Path) :
    (m.quiet calm t).Lasting (m.Standing t roles dirs) := fun _ _ _ hgranted h =>
  ⟨h.assigned.granted hgranted.1 hgranted.2, fun path hpath => (h.held path hpath).granted hgranted.1⟩

theorem stable_standing (roles : List Role) (dirs : List Utf8Path) :
    (m.loud calm).Stable t (m.Standing t roles dirs) := fun _ ht _ _ hgranted h =>
  ⟨h.assigned.granted hgranted fun heq => absurd heq ht,
    fun path hpath => (h.held path hpath).granted hgranted⟩

theorem Delivers.standing {α : Type} {p : Code α} {P : Disk → Prop} {Q : α → Disk → Prop}
    {roles : List Role} {dirs : List Utf8Path} (h : (m.quiet calm t).Delivers calm t p P Q) :
    (m.loud calm).Delivers calm t p (fun d => P d ∧ m.Standing t roles dirs d)
      fun a d => Q a d ∧ m.Standing t roles dirs d :=
  Contract.Delivers.of_only (h.frame (lasting_standing roles dirs))

/-! ### Modes -/

/-- A mode that the process may set. -/
def Chmods (m : Machine T) (t : T) (role : Role) : Prop :=
  ∃ paths, m.paths t = some paths ∧ role ∈ paths.chmods true (m.process t).privileges

theorem Chmods.sets {role : Role} (h : m.Chmods t role) (hnonroot : role.path.parent ≠ none)
    (hleads : m.Leads d t role.path l) : m.Sets d t l role.mode := by
  obtain ⟨paths, hpaths, hmem⟩ := h
  have hsettled : role ∈ paths.settled true (m.process t).privileges :=
    List.mem_filter.mpr ⟨hmem, Option.isSome_iff_ne_none.mpr hnonroot⟩
  exact ⟨paths, hpaths, role, hsettled, hleads, rfl⟩

/-- What is at the end of a path where all is calm: a directory that is known to be there, or an entry
that is not a link, or nothing. -/
def EndPlain (d : Disk) (path : Utf8Path) (known : Bool) : Prop :=
  ∀ names n, path = .absolute (names ++ [n]) →
    (d.fs.node (n :: names.reverse)).all (!·.isSymlink) = true ∧
      (known = true → d.fs.node (n :: names.reverse) ≠ none)

theorem lookup_last {fs : FileSystem OsString} {dir : Location OsString} {n : OsString}
    {rest : Utf8Path} {jail : Option (Location OsString)} (hhops : rest.hops = [.name n])
    (hplain : (fs.node (n :: dir)).all (!·.isSymlink) = true) :
    lookup fs jail dir none rest =
      if fs.node (n :: dir) = none then .error .notFound else .ok (n :: dir) := by
  have hempty : rest.isEmpty = false := isEmpty_of_hops (by rw [hhops]; simp)
  unfold lookup
  rw [hempty, hhops]
  show fs.resolve jail false dir [.name n] = _
  unfold resolve maxLinks
  rw [resolveLinks, followHops]
  cases hnode : fs.node (n :: dir) with
  | none => rfl
  | some node =>
    rw [hnode] at hplain
    cases node with
    | dir mode => rfl
    | file mode content => rfl
    | symlink target => cases hplain

/-- What `set_permissions` is called with. `there` says that the path leads somewhere. -/
def BeforeMode (m : Machine T) (t : T) (roles : List Role) (dirs : List Utf8Path) (path : Utf8Path)
    (known : Bool) (there : Prop) (d : Disk) : Prop :=
  m.Standing t roles dirs d ∧ (known = true → ∃ l, m.DirAt t path l d) ∧
    (there → ∃ l, m.Leads d t path l)

/-- What it comes to. Where all is calm, it may only find nothing, and what is there is found. -/
def AfterMode (m : Machine T) (t : T) (calm : Prop) (roles : List Role) (dirs : List Utf8Path)
    (role : Role) (known : Bool) (there : Prop) : Except BootstrapError Unit → Disk → Prop
  | .ok (), d => m.Standing t (roles ++ unlessRoot [role]) dirs d
  | .error e, d => m.Standing t roles dirs d ∧
    (calm → e.ioError = some .notFound ∧ known = false) ∧ (there → e.ioError ≠ some .notFound)

theorem growing_known (path : Utf8Path) (known : Bool) :
    Growing fun d => known = true → ∃ l, m.DirAt t path l d :=
  fun d d' hgrows h hknown => growing_exists_dirAt path d d' hgrows (h hknown)

theorem growing_there (path : Utf8Path) (there : Prop) :
    Growing fun d => there → ∃ l, m.Leads d t path l :=
  fun _ _ hgrows h hthere => (h hthere).imp fun _ hleads => hgrows.leads hleads

theorem standing_setMode {roles : List Role} {dirs : List Utf8Path} {role : Role}
    (h : m.Standing t roles dirs d) (hrole : m.Chmods t role) (hnonroot : role.path.parent ≠ none)
    (hleads : m.Leads d t role.path l) :
    m.Granted t d (d.setMode l role.mode) ∧
      m.Standing t (roles ++ [role]) dirs (d.setMode l role.mode) := by
  have hgranted := granted_setMode hleads h.assigned.cwd fun _ => hrole.sets hnonroot
  exact ⟨hgranted, h.assigned.setMode hleads, fun path hpath => (h.held path hpath).granted hgranted⟩

theorem unlessRoot_nonroot {role : Role} (h : role.path.parent ≠ none) : unlessRoot [role] = [role] := by
  rw [unlessRoot, List.filter_singleton, Option.isSome_iff_ne_none.mpr h]
  rfl

theorem unlessRoot_root {role : Role} (h : role.path.parent = none) : unlessRoot [role] = [] := by
  rw [unlessRoot, List.filter_singleton, h]
  rfl

theorem Handle.lookup_error {known : Bool} {dir : Location OsString} {relative : Utf8Path} {e : Errno}
    (h : m.Handle t calm path (dir, relative) d) (hcalm : calm) (hnonroot : path.parent ≠ none)
    (hparent : ParentThere d path) (hend : EndPlain d path known)
    (hlookup : lookup d.fs (some dir) dir none relative = .error e) : e = .notFound ∧ known = false := by
  obtain ⟨names, hnames, -⟩ := hparent
  rcases List.eq_nil_or_concat names with rfl | ⟨names, n, rfl⟩
  · exact absurd (hnames ▸ Path.parent_absolute_nil) hnonroot
  · rw [List.concat_eq_append] at hnames
    obtain ⟨rfl, hhops⟩ := h.last hcalm names n hnames
    obtain ⟨hlink, hthere⟩ := hend names n hnames
    have hlast : lookup d.fs (some names.reverse) names.reverse none relative = _ :=
      lookup_last hhops hlink
    rw [hlookup] at hlast
    split at hlast
    next hnone =>
      exact ⟨Except.error.inj hlast, Bool.eq_false_iff.mpr fun hknown => hthere hknown hnone⟩
    next => cases hlast

theorem ensures_setPermissions {roles : List Role} {dirs : List Utf8Path} {role : Role} {known : Bool}
    {there : Prop} (hrole : m.Chmods t role)
    (hplain : calm → ∀ d, m.BeforeMode t roles dirs role.path known there d → m.Ready calm d →
      ParentThere d role.path ∧ EndPlain d role.path known) :
    (m.loud calm).Ensures t (setPermissions role.path role.mode).run
      (m.BeforeMode t roles dirs role.path known there)
      (m.AfterMode t calm roles dirs role known there) := by
  have hambient : (m.loud calm).Ensures t (ambientDirAndPath role.path).run
      (m.BeforeMode t roles dirs role.path known there) fun r d =>
        (match r with
          | .ok h => m.Handle t calm role.path h d
          | .error e => ¬ calm ∧ (there → e.ioError ≠ some .notFound)) ∧
        m.BeforeMode t roles dirs role.path known there d := by
    have hframe : (m.quiet calm t).Lasting (m.BeforeMode t roles dirs role.path known there) :=
      (lasting_standing roles dirs).and
        ((growing_known role.path known).and (growing_there role.path there)).quiet
    have hquiet := Contract.Ensures.and (delivers_ambientDirAndPath (t := t) role.path
      fun hcalm d hP hready => (hplain hcalm d hP hready).1) (ensures_ambientDirAndPath there role.path)
    refine (Contract.Ensures.of_only (Contract.Ensures.frame hquiet hframe)).mono
      (fun _ h => ⟨⟨h, h.2.2⟩, h⟩) fun r _ h => ?_
    cases r with
    | ok handle => exact ⟨h.1.1, h.2⟩
    | error e => exact ⟨⟨h.1.1, h.1.2 e rfl⟩, h.2⟩
  show (m.loud calm).Ensures t ((ambientDirAndPath role.path).run >>= ExceptT.bindCont _) _ _
  refine hambient.bind fun r => ?_
  cases r with
  | error e => exact Contract.ensures_ret fun d h => ⟨h.2.1, fun hcalm => absurd hcalm h.1.1, h.1.2⟩
  | ok h =>
    obtain ⟨dir, relative⟩ := h
    show (m.loud calm).Ensures t (ExceptT.run (if _ then _ else _)) _ _
    split
    next hempty =>
      refine Contract.ensures_ret fun d h => ?_
      show m.Standing t (roles ++ unlessRoot [role]) dirs d
      rw [unlessRoot_root (h.1.empty.mp hempty), List.append_nil]
      exact h.2.1
    next hempty =>
      refine Contract.ensures_exec (M := fun r d => match r with
        | .ok () => m.Standing t (roles ++ unlessRoot [role]) dirs d
        | .error e => m.Standing t roles dirs d ∧ (calm → e = .notFound ∧ known = false) ∧
          (there → e ≠ .notFound))
        (fun x d r d' hP hcond hsem => ?_) (fun r => ?_) fun r => ?_
      · have hact := Option.some.inj hsem
        have hnonroot : role.path.parent ≠ none := fun hnone => hempty (hP.1.empty.mpr hnone)
        simp only [act, onPlace] at hact
        cases hlookup : lookup d.fs (some dir) dir x.fault relative with
        | error e =>
          rw [hlookup] at hact
          cases hact
          refine ⟨granted_refl m t d, hP.2.1, fun hcalm => ?_, fun hthere hmissed => ?_⟩
          · obtain ⟨hparent, hend⟩ := hplain hcalm d hP.2 hcond.1
            rw [(hcond.2 hcalm).1] at hlookup
            exact hP.1.lookup_error hcalm hnonroot hparent hend hlookup
          · obtain ⟨l, hleads⟩ := hP.2.2.2 hthere
            exact hP.1.lookup_notFound hempty (hmissed ▸ hlookup) l hleads
        | ok l =>
          rw [hlookup] at hact
          cases hact
          have hleads : m.Leads d t role.path l := hP.1.leads_to (names_of_lookup hlookup).2
          show m.Granted t d _ ∧ m.Standing t (roles ++ unlessRoot [role]) dirs _
          rw [unlessRoot_nonroot hnonroot]
          exact standing_setMode hP.2.1 hrole hnonroot hleads
      · cases r with
        | ok => exact stable_standing _ dirs
        | error e => exact (stable_standing roles dirs).and (Contract.lasting_pure.stable t)
      · cases r with
        | ok => exact Contract.ensures_ret fun d h => h
        | error e => exact Contract.ensures_ret fun d h => ⟨h.1, fun hcalm =>
            ⟨congrArg some (h.2.1 hcalm).1, (h.2.1 hcalm).2⟩,
            fun hthere hmissed => h.2.2 hthere (Option.some.inj hmissed)⟩

theorem names_of_dirAt {names : List OsString} (hclear : d.fs.Clear [] names)
    (h : m.DirAt t (.absolute names) l d) : l = names.reverse ∧ d.fs.IsDir names.reverse := by
  have hleads : d.fs.Leads [] (names.map .name) l := Path.hops_absolute names ▸ h.1
  obtain ⟨rfl, hdir⟩ := hclear.leads d.fs.isDir_root hleads
  rw [List.append_nil] at hdir ⊢
  exact ⟨rfl, hdir⟩

theorem plain_of_dirAt (hpath : ClearPath d.fs path) (h : m.DirAt t path l d) :
    ParentThere d path ∧ EndPlain d path true := by
  obtain ⟨names, rfl, hclear⟩ := hpath
  obtain ⟨rfl, hdir⟩ := names_of_dirAt hclear h
  refine ⟨⟨names, rfl, isDir_tail hdir⟩, fun names' n heq => ?_⟩
  obtain rfl := Path.absolute_injective heq
  rw [List.reverse_append] at hdir
  have hdir' : d.fs.IsDir (n :: names'.reverse) := hdir
  obtain ⟨mode, hmode⟩ := isDir_iff.mp hdir'
  exact ⟨by rw [hmode]; rfl, fun _ => hdir'.ne_none⟩

theorem delivers_setPermissions {roles : List Role} {dirs : List Utf8Path} {mode : Nat}
    (hpath : m.Makes t path) (hrole : m.Chmods t ⟨path, mode⟩) :
    (m.loud calm).Delivers calm t (setPermissions path mode)
      (fun d => (∃ l, m.DirAt t path l d) ∧ m.Standing t roles dirs d)
      fun _ => m.Standing t (roles ++ unlessRoot [⟨path, mode⟩]) dirs := by
  have hset : (m.loud calm).Ensures t (setPermissions path mode).run
      (m.BeforeMode t roles dirs path true False)
      (m.AfterMode t calm roles dirs ⟨path, mode⟩ true False) := by
    refine ensures_setPermissions hrole fun hcalm d hP hready => ?_
    obtain ⟨l, hdir⟩ := hP.2.1 rfl
    exact plain_of_dirAt (hready.clearPath hcalm hpath) hdir
  refine hset.mono (fun d h => ⟨h.2, fun _ => h.1, False.elim⟩) fun r d h => ?_
  cases r with
  | ok => exact h
  | error e => exact fun hcalm => by cases (h.2.1 hcalm).2

theorem delivers_ensureDirWithMode {roles : List Role} {dirs : List Utf8Path} {mode : Nat}
    (hpath : m.Makes t path) (hrole : m.Chmods t ⟨path, mode⟩) :
    (m.loud calm).Delivers calm t (ensureDirWithMode path mode) (m.Standing t roles dirs)
      fun _ d => m.Standing t (roles ++ unlessRoot [⟨path, mode⟩]) dirs d ∧
        ∃ l, m.DirAt t path l d := by
  refine ((Delivers.standing (delivers_ensureDirExists hpath)).mono (fun _ h => ⟨trivial, h⟩)
    fun _ _ h => h).bind fun _ => ?_
  exact ((delivers_setPermissions hpath hrole).frame (growing_exists_dirAt path).loud).mono
    (fun _ h => ⟨h, h.1⟩) fun _ _ h => h

/-! ### Owners -/

/-- Root privileges, and the user to whom the directories go. -/
structure Root (m : Machine T) (t : T) (user : User) : Prop where
  privileges : (m.process t).privileges = .root
  nobody : m.nobody = some user

theorem metadata_absolute {names : List OsString} {cwd : Location OsString}
    (h : d.fs.IsDir names.reverse) :
    metadata d.fs cwd none (.absolute names) = .ok names.reverse := by
  have hresolve : d.fs.resolve none false [] (names.map .name) = .ok (names.reverse ++ []) :=
    resolve_names (by rwa [List.append_nil])
  rw [List.append_nil] at hresolve
  unfold metadata lookup
  rw [Path.hops_absolute]
  exact hresolve

theorem delivers_chownEntry {user : User} (hroot : m.Root t user) (hpath : m.Makes t path) :
    (m.quiet calm t).Delivers calm t (chownEntry path user) (fun d => ∃ l, m.DirAt t path l d)
      fun _ => m.Held t path := by
  refine Contract.delivers_ask (M := fun r d => match r with
    | .ok () => m.Held t path d
    | .error _ => ¬ calm) (fun x d r d' hP hcond hsem => ?_) (fun r => ?_) fun r => ?_
  · obtain ⟨l, hdir⟩ := hP
    have hact := Option.some.inj hsem
    simp only [act, onPlace] at hact
    cases hmetadata : metadata d.fs (m.process t).cwd x.fault path with
    | error e =>
      rw [hmetadata] at hact
      cases hact
      refine ⟨⟨granted_refl m t d, fun _ => quiet_refl d⟩, fun hcalm => ?_⟩
      obtain ⟨names, rfl, hclear⟩ := hcond.1.clearPath hcalm hpath
      rw [(hcond.2 hcalm).1, metadata_absolute (names_of_dirAt hclear hdir).2] at hmetadata
      cases hmetadata
    | ok l' =>
      rw [hmetadata] at hact
      cases hact
      obtain rfl := hdir.1.unique (names_of_lookup hmetadata).2
      have hgranted : m.Granted t d (d.give user (decide <| · = l)) :=
        granted_give _ hroot.privileges hroot.nobody
      have howner : (d.give user (decide <| · = l)).owner l = user := by
        unfold Disk.give
        simp [Option.isSome_iff_ne_none.mpr hdir.2.ne_none]
      refine ⟨⟨hgranted, fun _ => quiet_give d user _⟩, l, hdir, fun _ => ?_⟩
      rw [howner]
      exact hroot.nobody
  · cases r with
    | ok =>
      have hlasting : (m.quiet calm t).Lasting (m.Held t path) :=
        fun _ _ _ hgranted h => h.granted hgranted.1
      exact hlasting.stable t
    | error e => exact Contract.lasting_pure.stable t
  · cases r with
    | ok => exact Contract.delivers_pure fun d h => h
    | error e => exact Contract.delivers_throw fun d h => h

theorem delivers_ensureDirForUser {roles : List Role} {dirs : List Utf8Path} {user : User} {mode : Nat}
    (hroot : m.Root t user) (hpath : m.Makes t path) (hrole : m.Chmods t ⟨path, mode⟩) :
    (m.loud calm).Delivers calm t (ensureDirForUser path user mode) (m.Standing t roles dirs)
      fun _ => m.Standing t (roles ++ unlessRoot [⟨path, mode⟩]) (dirs ++ [path]) := by
  refine ((Delivers.standing (delivers_ensureDirExists hpath)).mono (fun _ h => ⟨trivial, h⟩)
    fun _ _ h => h).bind fun _ => ?_
  refine (Delivers.standing (delivers_chownEntry hroot hpath)).bind fun _ => ?_
  refine (delivers_setPermissions hpath hrole).mono (fun d h => ⟨?_, h.2.assigned, fun path' hmem => ?_⟩)
    fun _ _ h => h
  · obtain ⟨l, hdir, -⟩ := h.1
    exact ⟨l, hdir⟩
  · rcases List.mem_append.mp hmem with hmem | hmem
    · exact h.2.held path' hmem
    · exact List.mem_singleton.mp hmem ▸ h.1

end Machine

end PgEmbeddedSetup.Bootstrap
