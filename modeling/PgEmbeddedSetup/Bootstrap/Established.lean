import PgEmbeddedSetup.Bootstrap.Granted

/-!
# What the helpers establish

One lemma for each helper: what it leaves behind when it returns, whatever the other processes do
meanwhile, and that it returns where all is calm. `quiet` is for the helpers that set no mode, and `loud`
for the others.
-/

namespace PgEmbeddedSetup.Bootstrap

open Env Fs Interleave Lexical Posix FileSystem
open Cache (changeMode maskMode modeOf)
open Machine (Role)
open Privileges (User isUtf8)

variable {T : Type} {m : Machine T} {t : T} {d d' : Disk} {path : Utf8Path} {l : Location OsString}
  {calm : Prop}

namespace Machine

/-- The way of an absolute path is clear. -/
def ClearPath (fs : FileSystem OsString) (path : Utf8Path) : Prop :=
  ∃ names, path = .absolute names ∧ fs.Clear [] names

/-- What is there for the time zone. -/
def ZoneThere (d : Disk) (pr : Process) : Prop :=
  match pr.env "TZDIR" with
  | some dir => isUtf8 dir = true ∧ textExists d.fs pr.cwd dir = true
  | none => ∃ candidate ∈ tzdirCandidates, textExists d.fs pr.cwd (osString candidate) = true

/-- What is assumed of the tree. Where all is calm, the ways of the directories are clear, nothing but a
file is in the place of a password file, and there are a time zone and a user `nobody`. -/
structure Ready (m : Machine T) (calm : Prop) (d : Disk) : Prop where
  cwd : ∀ t, d.fs.IsDir (m.process t).cwd
  clear : calm → ∀ t paths, m.paths t = some paths → ∀ path ∈ paths.made, ClearPath d.fs path
  password : calm → ∀ t paths, m.paths t = some paths → ∃ names, paths.passwordFile = .absolute names ∧
    (d.fs.node names.reverse = none ∨ isFileAt d.fs names.reverse = true) ∧
    ∀ t' paths', m.paths t' = some paths' → ∀ names', .absolute names' ∈ paths'.made →
      ¬ names <+: names'
  zone : calm → ∀ t, ZoneThere d (m.process t) ∧
    ∃ zone, timezoneOf ((m.process t).env "TZ") = .ok zone
  nobody : calm → ∀ t, (m.process t).privileges = .root → m.nobody ≠ none

def loud (m : Machine T) (calm : Prop) : Contract T Instr Instr.Reply Disk Choice :=
  (m.contract calm).under (m.Ready calm)

def quiet (m : Machine T) (calm : Prop) (t : T) : Contract T Instr Instr.Reply Disk Choice :=
  (m.loud calm).only t Quiet

theorem textExists_grows {text : OsString} {cwd : Location OsString}
    (h : textExists d.fs cwd text = true) (hgrows : d.fs.Grows d'.fs) :
    textExists d'.fs cwd text = true := by
  unfold textExists at h ⊢
  rw [Bool.and_eq_true] at h ⊢
  refine ⟨h.1, ?_⟩
  cases hr : d.fs.resolve none false (if isAbsoluteText text then [] else cwd) (hopsOf text) with
  | error e =>
    rw [hr] at h
    cases h.2
  | ok r =>
    rw [resolve_grows hgrows hr]
    rfl

theorem Clear.granted {names : List OsString} {l : Location OsString} (h : d.fs.Clear l names)
    (hgranted : m.Granted t d d') : d'.fs.Clear l names := by
  intro before hbefore
  rcases h before hbefore with hnone | hdir
  · cases hnode : d'.fs.node (before.reverse ++ l) with
    | none => exact Or.inl rfl
    | some node =>
      obtain ⟨rfl, -⟩ := hgranted.made _ node hnone hnode
      exact Or.inr (isDir_iff.mpr ⟨_, hnode⟩)
  · exact Or.inr (hgranted.grows.isDir hdir)

theorem onWay_clear (hcwd : d.fs.IsDir (m.process t).cwd) (hnone : d.fs.node l = none)
    (hway : m.OnWay d' t l) (hclear : ∀ paths, m.paths t = some paths → ∀ path ∈ paths.made,
      ClearPath d'.fs path) :
    ∃ paths, m.paths t = some paths ∧ ∃ names, .absolute names ∈ paths.made ∧ l.reverse <+: names := by
  obtain ⟨paths, hpaths, path, hpath, n, hleads⟩ := hway
  obtain ⟨names, rfl, hnames⟩ := hclear paths hpaths path hpath
  cases n with
  | zero =>
    obtain rfl := leads_nil.mp hleads
    exact absurd hnone hcwd.ne_none
  | succ n =>
    rw [Path.takeComponents_absolute] at hleads
    have hleads' : d'.fs.Leads [] ((names.take n).map .name) l :=
      Path.hops_absolute (names.take n) ▸ hleads
    obtain ⟨rfl, -⟩ := (hnames.of_prefix (List.take_prefix n names)).leads d'.fs.isDir_root hleads'
    refine ⟨paths, hpaths, names, hpath, ?_⟩
    rw [List.append_nil, List.reverse_reverse]
    exact List.take_prefix n names

theorem Ready.granted (h : m.Ready calm d) (hgranted : m.Granted t d d') : m.Ready calm d' := by
  have hgrows := hgranted.grows
  have hclear : calm → ∀ t paths, m.paths t = some paths → ∀ path ∈ paths.made,
      ClearPath d'.fs path := by
    intro hcalm t' paths hpaths path hpath
    obtain ⟨names, hnames, hclear⟩ := h.clear hcalm t' paths hpaths path hpath
    exact ⟨names, hnames, Clear.granted hclear hgranted⟩
  refine ⟨fun t => hgrows.isDir (h.cwd t), hclear, fun hcalm t' paths hpaths => ?_,
    fun hcalm t' => ⟨?_, (h.zone hcalm t').2⟩, h.nobody⟩
  · obtain ⟨names, hnames, hthere, hapart⟩ := h.password hcalm t' paths hpaths
    refine ⟨names, hnames, ?_, hapart⟩
    rcases hthere with hnone | hfile
    · refine Or.inl (Option.eq_none_iff_forall_ne_some.mpr fun node hnode => ?_)
      obtain ⟨-, hway, -⟩ := hgranted.made _ node hnone hnode
      obtain ⟨paths', hpaths', names', hmem, hprefix⟩ :=
        onWay_clear (h.cwd t) hnone hway (hclear hcalm t)
      rw [List.reverse_reverse] at hprefix
      exact hapart t paths' hpaths' names' hmem hprefix
    · refine Or.inr ?_
      unfold isFileAt at hfile ⊢
      split at hfile
      next mode content hnode =>
        obtain ⟨node', hnode', hbody, -⟩ := hgranted.kept _ _ hnode
        rw [hnode']
        cases node' with
        | file => rfl
        | dir => cases hbody
        | symlink => cases hbody
      next => cases hfile
  · have hzone := (h.zone hcalm t').1
    unfold ZoneThere at hzone ⊢
    split at hzone
    · exact ⟨hzone.1, textExists_grows hzone.2 hgrows⟩
    · obtain ⟨candidate, hmem, hthere⟩ := hzone
      exact ⟨candidate, hmem, textExists_grows hthere hgrows⟩

theorem lasting_ready (m : Machine T) (calm : Prop) : (m.contract calm).Lasting (m.Ready calm) :=
  fun _ _ _ hgranted h => h.granted hgranted

theorem Growing.loud {F : Disk → Prop} (h : Growing F) : (m.loud calm).Lasting F :=
  fun _ _ _ hgranted hd => h _ _ (Granted.grows hgranted) hd

theorem Growing.quiet {F : Disk → Prop} (h : Growing F) : (m.quiet calm t).Lasting F :=
  fun _ _ _ hgranted hd => h _ _ (Granted.grows hgranted.1) hd

theorem quiet_refl (d : Disk) : Quiet d d := fun _ _ _ hnode hnode' => by
  cases hnode.symm.trans hnode'
  rfl

theorem quiet_give (d : Disk) (user : User) (given : Location OsString → Bool) :
    Quiet d (d.give user given) := fun l node node' hnode hnode' => by
  rw [Option.some.inj (hnode.symm.trans hnode')]

/-! ### Calls that change nothing -/

section Calls

variable {α : Type} {P : Disk → Prop} {Q : α → Disk → Prop}

theorem delivers_read {i : Instr} {k : i.Reply → Code α} {M : i.Reply → Disk → Prop}
    (hdisk : ∀ x d, (act m (m.process t) x d i).2 = d)
    (h : ∀ x d, P d → m.Ready calm d → (calm → Calm x) → M (act m (m.process t) x d i).1 d)
    (hM : ∀ r, Growing (M r)) (hk : ∀ r, (m.quiet calm t).Delivers calm t (k r) (M r) Q) :
    (m.quiet calm t).Delivers calm t (ask i >>= k) P Q := by
  refine Contract.delivers_ask (fun x s r s' hs hcond hsem => ?_) (fun r => ((hM r).quiet).stable t) hk
  have hact : act m (m.process t) x s i = (r, s') := Option.some.inj hsem
  obtain rfl : (act m (m.process t) x s i).1 = r := congrArg Prod.fst hact
  obtain rfl : (act m (m.process t) x s i).2 = s' := congrArg Prod.snd hact
  rw [hdisk]
  exact ⟨⟨granted_refl m t s, fun _ => quiet_refl s⟩, h x s hs hcond.1 hcond.2⟩

theorem delivers_orThrow {β : Type} {ct : Contract T Instr Instr.Reply Disk Choice}
    {toError : Errno → BootstrapError} {r : Except Errno β} {k : β → Code α}
    (hok : ∀ b, r = .ok b → ct.Delivers calm t (k b) P Q)
    (herror : ∀ e, r = .error e → ∀ d, P d → ¬ calm) :
    ct.Delivers calm t (orThrow toError r >>= k) P Q := by
  cases r with
  | ok b => exact hok b rfl
  | error e => exact Contract.delivers_throw (herror e rfl)

end Calls

/-! ### Handles -/

theorem openAmbientDir_absolute {names : List OsString} {cwd : Location OsString}
    (h : d.fs.IsDir names.reverse) :
    openAmbientDir d.fs cwd none (.absolute names) = .ok names.reverse := by
  have hresolve : d.fs.resolve none false [] (names.map .name) = .ok (names.reverse ++ []) :=
    resolve_names (by rwa [List.append_nil])
  rw [List.append_nil] at hresolve
  have hlookup : metadata d.fs cwd none (.absolute names) = .ok names.reverse := by
    unfold metadata lookup
    rw [Path.hops_absolute]
    exact hresolve
  unfold openAmbientDir
  rw [hlookup]
  exact if_pos h

/-- From the handle, the rest of the path leads where the path does. Where all is calm it is the last
name. -/
structure Handle (m : Machine T) (t : T) (calm : Prop) (path : Utf8Path)
    (r : Location OsString × Utf8Path) (d : Disk) : Prop where
  dir : d.fs.IsDir r.1
  leads : ∃ prior, path.hops = prior ++ r.2.hops ∧
    d.fs.Leads (path.start (m.process t).cwd) prior r.1
  empty : r.2.isEmpty = true ↔ path.parent = none
  last : calm → ∀ names n, path = .absolute (names ++ [n]) →
    r.1 = names.reverse ∧ r.2.hops = [.name n]

theorem Handle.leads_to {r : Location OsString × Utf8Path} (h : m.Handle t calm path r d)
    (hleads : d.fs.Leads r.1 r.2.hops l) : m.Leads d t path l := by
  obtain ⟨prior, hhops, hprior⟩ := h.leads
  unfold Leads
  rw [hhops]
  exact hprior.append h.dir hleads

theorem Handle.lookup_notFound {r : Location OsString × Utf8Path} {fault : Option Fault}
    (h : m.Handle t calm path r d) (hempty : ¬ r.2.isEmpty = true)
    (hlookup : lookup d.fs (some r.1) r.1 fault r.2 = .error .notFound) (l : Location OsString) :
    ¬ m.Leads d t path l := by
  intro hleads
  obtain ⟨prior, hhops, hprior⟩ := h.leads
  unfold Leads at hleads
  rw [hhops, leads_append_iff hprior h.dir] at hleads
  unfold lookup at hlookup
  cases fault with
  | some f => cases hlookup
  | none =>
    simp only [hempty, Bool.false_eq_true, if_false] at hlookup
    exact not_leads_of_resolve hlookup rfl l hleads

theorem growing_handle (path : Utf8Path) (r : Location OsString × Utf8Path) :
    Growing (m.Handle t calm path r) := fun _ _ hgrows h =>
  ⟨hgrows.isDir h.dir, h.leads.imp fun _ hprior => ⟨hprior.1, hgrows.leads hprior.2⟩, h.empty, h.last⟩

/-- The directory of the last entry of an absolute path is there. -/
def ParentThere (d : Disk) (path : Utf8Path) : Prop :=
  ∃ names, path = .absolute names ∧ d.fs.IsDir names.reverse.tail

theorem openAmbientDir_there {names : List OsString} {above : Utf8Path}
    {cwd : Location OsString} (habove : above = .absolute names.dropLast)
    (hdir : d.fs.IsDir names.reverse.tail) :
    openAmbientDir d.fs cwd none above = .ok names.dropLast.reverse := by
  rw [habove, openAmbientDir_absolute]
  rwa [← List.tail_reverse]

theorem delivers_handle {P : Disk → Prop} {context : String} {above rest : Utf8Path}
    (hhops : path.hops = above.hops ++ rest.hops)
    (hstart : above.start (m.process t).cwd = path.start (m.process t).cwd)
    (hempty : rest.isEmpty = true ↔ path.parent = none)
    (hthere : calm → ∀ d, P d → m.Ready calm d → ∃ names, path = .absolute names ∧
      above = .absolute names.dropLast ∧ d.fs.IsDir names.reverse.tail) :
    (m.quiet calm t).Delivers calm t (do
      let dir ← orThrow (.ambient context) (← ask (.openAmbientDir above))
      pure (dir, rest)) P (m.Handle t calm path) := by
  refine delivers_read
    (M := fun r d => (∀ dir, r = .ok dir → m.Handle t calm path (dir, rest) d) ∧
      ∀ e, r = .error e → ¬ calm) (fun _ _ => rfl) (fun x d hP hready hx => ⟨fun dir hok => ?_,
      fun e herror hcalm => ?_⟩) (fun r => ?_) fun r => ?_
  · obtain ⟨hnames, hdir⟩ := openAmbientDir_ok hok
    refine ⟨hdir, ⟨above.hops, hhops, hstart ▸ hnames.2⟩, hempty, fun hcalm names n hpath => ?_⟩
    obtain ⟨names', hpath', habove, hparent⟩ := hthere hcalm d hP hready
    obtain rfl := Path.absolute_injective (hpath.symm.trans hpath')
    rw [List.dropLast_concat] at habove
    have hopen : openAmbientDir d.fs (m.process t).cwd none above =
        .ok (names ++ [n]).dropLast.reverse :=
      openAmbientDir_there (by rw [habove, List.dropLast_concat]) hparent
    rw [List.dropLast_concat] at hopen
    have hok' : openAmbientDir d.fs (m.process t).cwd x.fault above = .ok dir := hok
    rw [(hx hcalm).1, hopen] at hok'
    refine ⟨(Except.ok.inj hok').symm, ?_⟩
    rw [habove, hpath, Path.hops_absolute, Path.hops_absolute, List.map_append] at hhops
    exact (List.append_cancel_left hhops).symm
  · obtain ⟨names, -, habove, hparent⟩ := hthere hcalm d hP hready
    have herror' : openAmbientDir d.fs (m.process t).cwd x.fault above = .error e := herror
    rw [(hx hcalm).1, openAmbientDir_there habove hparent] at herror'
    cases herror'
  · exact Growing.of_ok fun dir => growing_handle path (dir, rest)
  · exact delivers_orThrow (fun dir hok => Contract.delivers_pure fun d h => h.1 dir hok)
      fun e herror d h => h.2 e herror

theorem dropLast_of_parent {names : List OsString} {parent : Utf8Path}
    (h : (Path.absolute names).parent = some parent) : parent = .absolute names.dropLast := by
  rcases List.eq_nil_or_concat names with rfl | ⟨names', n, rfl⟩
  · cases Path.parent_absolute_nil.symm.trans h
  · rw [List.concat_eq_append] at h ⊢
    rw [List.dropLast_concat]
    exact Option.some.inj (h.symm.trans (Path.parent_absolute_concat names' n))

theorem delivers_ambientDirAndPath {P : Disk → Prop} (path : Utf8Path)
    (hthere : calm → ∀ d, P d → m.Ready calm d → ParentThere d path) :
    (m.quiet calm t).Delivers calm t (ambientDirAndPath path) P (m.Handle t calm path) := by
  unfold ambientDirAndPath
  split
  next habsolute =>
    split
    next parent hparent =>
      obtain ⟨rest, hrest, hempty⟩ := Path.stripPrefix_parent hparent
      split
      next hstrip => cases hrest.symm.trans hstrip
      next relative hstrip =>
        obtain rfl := Option.some.inj (hrest.symm.trans hstrip)
        have hcomponents := Path.stripPrefix_eq_some hstrip
        refine delivers_handle ?_ ?_ ?_ ?_
        · rw [Path.hops, hcomponents, List.filterMap_append]
          rfl
        · rw [Path.start, Path.start, habsolute, Path.parent_isAbsolute hparent habsolute]
        · rw [hempty, hparent]
          exact iff_of_false Bool.false_ne_true fun h => by cases h
        · intro hcalm d hP hready
          obtain ⟨names, rfl, hdir⟩ := hthere hcalm d hP hready
          exact ⟨names, rfl, dropLast_of_parent hparent, hdir⟩
    next hparent =>
      refine delivers_handle (List.append_nil _).symm rfl (iff_of_true rfl hparent) ?_
      intro hcalm d hP hready
      obtain ⟨names, rfl, hdir⟩ := hthere hcalm d hP hready
      refine ⟨names, rfl, ?_, hdir⟩
      rcases List.eq_nil_or_concat names with rfl | ⟨names', n, rfl⟩
      · rfl
      · rw [List.concat_eq_append] at hparent
        cases hparent.symm.trans (Path.parent_absolute_concat names' n)
  next habsolute =>
    refine delivers_handle rfl ?_ ?_ ?_
    · rw [Path.start, Path.start, if_neg habsolute]
      rfl
    · rw [Path.parent_eq_none, Path.isEmpty, List.isEmpty_iff]
      refine ⟨Or.inl, fun h => h.resolve_right fun hroot => ?_⟩
      exact habsolute (Path.isAbsolute_iff.mpr ⟨[], hroot⟩)
    · intro hcalm d hP hready
      obtain ⟨names, rfl, hdir⟩ := hthere hcalm d hP hready
      exact absurd rfl habsolute

/-! ### What is there is not missed -/

theorem openAmbientDir_notFound {fault : Option Fault} {above rest : Utf8Path}
    (h : openAmbientDir d.fs (m.process t).cwd fault above = .error .notFound)
    (hhops : path.hops = above.hops ++ rest.hops)
    (hstart : above.start (m.process t).cwd = path.start (m.process t).cwd)
    (hnonempty : above.isEmpty = false) (l : Location OsString) : ¬ m.Leads d t path l := by
  intro hleads
  unfold Leads at hleads
  rw [hhops] at hleads
  obtain ⟨l', habove, -⟩ := leads_append hleads
  unfold openAmbientDir metadata lookup at h
  cases fault with
  | some f => cases h
  | none =>
    simp only [hnonempty, Bool.false_eq_true, if_false] at h
    cases hresolve : d.fs.resolve none false (above.start (m.process t).cwd) above.hops with
    | error e =>
      rw [hresolve] at h
      obtain rfl := Except.error.inj h
      exact not_leads_of_resolve hresolve rfl l' (hstart ▸ habove)
    | ok r =>
      rw [hresolve] at h
      change (if d.fs.IsDir r then _ else _) = _ at h
      split at h <;> cases h

theorem ensures_handle {there : Prop} {context : String} {above rest : Utf8Path}
    (hhops : path.hops = above.hops ++ rest.hops)
    (hstart : above.start (m.process t).cwd = path.start (m.process t).cwd)
    (hnonempty : above.isEmpty = false) :
    (m.quiet calm t).Ensures t (do
      let dir ← orThrow (.ambient context) (← ask (.openAmbientDir above))
      pure (dir, rest) : Code (Location OsString × Utf8Path)).run
      (fun d => there → ∃ l, m.Leads d t path l)
      fun r _ => ∀ e, r = .error e → there → e.ioError ≠ some .notFound := by
  refine Contract.ensures_exec (M := fun r _ => there → r ≠ .error .notFound)
    (fun x d r d' hP _ hsem => ?_) (fun r => Contract.lasting_pure.stable t) fun r => ?_
  · cases hsem
    refine ⟨⟨granted_refl m t d, fun _ => quiet_refl d⟩, fun hthere hmissed => ?_⟩
    obtain ⟨l, hleads⟩ := hP hthere
    exact openAmbientDir_notFound hmissed hhops hstart hnonempty l hleads
  · cases r with
    | ok dir => exact Contract.ensures_ret fun _ _ e h => by cases h
    | error cause =>
      refine Contract.ensures_ret fun _ hne e h hthere hcause => ?_
      cases h
      exact hne hthere (congrArg Except.error (Option.some.inj hcause))

theorem ensures_ambientDirAndPath (there : Prop) (path : Utf8Path) :
    (m.quiet calm t).Ensures t (ambientDirAndPath path).run
      (fun d => there → ∃ l, m.Leads d t path l)
      fun r _ => ∀ e, r = .error e → there → e.ioError ≠ some .notFound := by
  unfold ambientDirAndPath
  split
  next habsolute =>
    split
    next parent hparent =>
      obtain ⟨rest, hrest, -⟩ := Path.stripPrefix_parent hparent
      split
      next hstrip => cases hrest.symm.trans hstrip
      next relative hstrip =>
        have hcomponents := Path.stripPrefix_eq_some hstrip
        have habove := Path.parent_isAbsolute hparent habsolute
        refine ensures_handle ?_ ?_ (Path.isEmpty_of_isAbsolute habove)
        · rw [Path.hops, hcomponents, List.filterMap_append]
          rfl
        · rw [Path.start, Path.start, habsolute, habove]
    next hparent =>
      exact ensures_handle (List.append_nil _).symm rfl (Path.isEmpty_of_isAbsolute habsolute)
  next habsolute =>
    refine ensures_handle rfl ?_ rfl
    rw [Path.start, Path.start, if_neg habsolute]
    rfl

/-! ### Directories that are made -/

/-- A path that the process makes directories for. -/
def Makes (m : Machine T) (t : T) (path : Utf8Path) : Prop :=
  ∃ paths, m.paths t = some paths ∧ path ∈ paths.made

theorem Ready.clearPath (h : m.Ready calm d) (hcalm : calm) (hpath : m.Makes t path) :
    ClearPath d.fs path := by
  obtain ⟨paths, hpaths, hmem⟩ := hpath
  exact h.clear hcalm t paths hpaths path hmem

/-- The first components of the path lead to a directory. -/
def Reached (m : Machine T) (t : T) (path : Utf8Path) (k : Nat) (l : Location OsString)
    (d : Disk) : Prop :=
  d.fs.Leads (path.start (m.process t).cwd) (path.takeComponents k).hops l ∧ d.fs.IsDir l

theorem growing_reached (path : Utf8Path) (k : Nat) (l : Location OsString) :
    Growing (m.Reached t path k l) :=
  fun _ _ hgrows h => ⟨hgrows.leads h.1, hgrows.isDir h.2⟩

/-- An ancestor of the path. Where all is calm, some names of it lead there. -/
structure Found (m : Machine T) (t : T) (calm : Prop) (path : Utf8Path)
    (r : Location OsString × Utf8Path) (d : Disk) : Prop where
  split : ∃ k, r.2 = path.dropComponents k ∧ m.Reached t path k r.1 d ∧
    (calm → ∀ names, path = .absolute names → ∃ k', k = k' + 1 ∧ r.1 = (names.take k').reverse)

theorem growing_found (path : Utf8Path) (r : Location OsString × Utf8Path) :
    Growing (m.Found t calm path r) := fun d d' hgrows h => by
  obtain ⟨k, hrest, hreached, hcalm⟩ := h.split
  exact ⟨k, hrest, growing_reached path k r.1 d d' hgrows hreached, hcalm⟩

theorem openAmbientDir_clear {names : List OsString} {cwd : Location OsString}
    (h : d.fs.Clear [] names) :
    openAmbientDir d.fs cwd none (.absolute names) =
      if d.fs.IsDir names.reverse then .ok names.reverse else .error .notFound := by
  split
  next hdir => exact openAmbientDir_absolute hdir
  next hdir =>
    have hresolve : d.fs.resolve none false [] (names.map .name) = _ :=
      resolve_clear h d.fs.isDir_root
    rw [List.append_nil, if_neg hdir] at hresolve
    have hlookup : metadata d.fs cwd none (.absolute names) = .error .notFound := by
      unfold metadata lookup
      rw [Path.hops_absolute]
      exact hresolve
    unfold openAmbientDir
    rw [hlookup]
    rfl

theorem opened_clear {names : List OsString} {cwd : Location OsString} {n : Nat}
    {r : Except Errno (Location OsString)} (h : d.fs.Clear [] names)
    (hopen : openAmbientDir d.fs cwd none ((Path.absolute names).takeComponents (n + 1)) = r) :
    (∀ dir, r = .ok dir → dir = (names.take n).reverse) ∧
      ∀ e, r = .error e → e = .notFound ∧ n ≠ 0 := by
  rw [Path.takeComponents_absolute, openAmbientDir_clear (h.of_prefix (List.take_prefix n names))]
    at hopen
  by_cases hdir : d.fs.IsDir (names.take n).reverse
  · rw [if_pos hdir] at hopen
    subst hopen
    exact ⟨fun dir hok => (Except.ok.inj hok).symm, fun e herror => by cases herror⟩
  · rw [if_neg hdir] at hopen
    subst hopen
    refine ⟨fun dir hok => (by cases hok), fun e herror => ⟨(Except.error.inj herror).symm, ?_⟩⟩
    rintro rfl
    exact hdir d.fs.isDir_root

theorem delivers_findFrom (hpath : m.Makes t path) (n : Nat) (hn : path.isAbsolute = true → n ≠ 0) :
    (m.quiet calm t).Delivers calm t (findFrom path n) (fun _ => True) (m.Found t calm path) := by
  induction n with
  | zero =>
    have hrelative : path.isAbsolute = false := Bool.eq_false_iff.mpr fun h => hn h rfl
    have hnames : ∀ names, path ≠ .absolute names := by
      rintro names rfl
      exact Bool.false_ne_true hrelative.symm
    refine delivers_read
      (M := fun r d => (∀ dir, r = .ok dir → m.Found t calm path (dir, path) d) ∧
        ∀ e, r = .error e → ¬ calm) (fun _ _ => rfl) (fun x d _ hready _ => ⟨fun dir hok => ?_,
        fun e _ hcalm => ?_⟩) (fun r => ?_) fun r => ?_
    · obtain ⟨hcurrent, hdir⟩ := openAmbientDir_ok hok
      refine ⟨0, rfl, ⟨?_, hdir⟩, fun _ names h => absurd h (hnames names)⟩
      rw [Path.start, hrelative]
      exact hcurrent.2
    · obtain ⟨names, h, -⟩ := hready.clearPath hcalm hpath
      exact hnames names h
    · exact Growing.of_ok fun dir => growing_found path (dir, path)
    · cases r with
      | ok dir => exact Contract.delivers_pure fun d h => h.1 dir rfl
      | error cause =>
        show (m.quiet calm t).Delivers calm t (if _ then _ else _) _ _
        split <;> exact Contract.delivers_throw fun d h => h.2 cause rfl
  | succ n ih =>
    refine delivers_read
      (M := fun r d => (∀ dir, r = .ok dir →
          m.Found t calm path (dir, path.dropComponents (n + 1)) d) ∧
        ∀ e, r = .error e → calm → e = .notFound ∧ n ≠ 0) (fun _ _ => rfl)
      (fun x d _ hready hx => ⟨fun dir hok => ?_, fun e herror hcalm => ?_⟩) (fun r => ?_) fun r => ?_
    · obtain ⟨hnames, hdir⟩ := openAmbientDir_ok hok
      refine ⟨n + 1, rfl, ⟨Path.start_takeComponents path n _ ▸ hnames.2, hdir⟩,
        fun hcalm names hpath' => ⟨n, rfl, ?_⟩⟩
      obtain ⟨names', hpath'', hclear⟩ := hready.clearPath hcalm hpath
      obtain rfl := Path.absolute_injective (hpath'.symm.trans hpath'')
      subst hpath'
      have hopen : openAmbientDir d.fs (m.process t).cwd x.fault _ = .ok dir := hok
      rw [(hx hcalm).1] at hopen
      exact (opened_clear hclear hopen).1 dir rfl
    · obtain ⟨names, rfl, hclear⟩ := hready.clearPath hcalm hpath
      have hopen : openAmbientDir d.fs (m.process t).cwd x.fault _ = .error e := herror
      rw [(hx hcalm).1] at hopen
      exact (opened_clear hclear hopen).2 e rfl
    · exact Growing.of_ok fun dir => growing_found path (dir, path.dropComponents (n + 1))
    · cases r with
      | ok dir => exact Contract.delivers_pure fun d h => h.1 dir rfl
      | error cause =>
        show (m.quiet calm t).Delivers calm t (if _ then (if _ then _ else _) else _) _ _
        split
        next =>
          split
          next hlast => exact Contract.delivers_throw fun d h hcalm => (h.2 cause rfl hcalm).2 hlast.1
          next hlast =>
            exact (ih fun habsolute hzero => hlast ⟨hzero, habsolute⟩).mono (fun _ _ => trivial)
              fun _ _ h => h
        next habsence =>
          refine Contract.delivers_throw fun d h hcalm => ?_
          rw [(h.2 cause rfl hcalm).1] at habsence
          exact habsence rfl

theorem delivers_findExistingAncestor (hpath : m.Makes t path) :
    (m.quiet calm t).Delivers calm t (findExistingAncestor path) (fun _ => True)
      (m.Found t calm path) := by
  refine delivers_findFrom hpath _ fun habsolute hlength => ?_
  obtain ⟨cs, hcs⟩ := Path.isAbsolute_iff.mp habsolute
  rw [hcs] at hlength
  cases hlength

/-! ### `create_dir_all` -/

theorem newDirPlace_ok {fs : FileSystem OsString} {dir : Location OsString}
    (h : newDirPlace fs dir path = .ok l) : ∃ init n parent, path.hops = init ++ [.name n] ∧
      l = n :: parent ∧ fs.Leads dir init parent ∧ fs.IsDir parent ∧ fs.node l = none := by
  unfold newDirPlace at h
  split at h
  next n hlast =>
    split at h
    next => cases h
    next parent hparent =>
      split at h
      next hdir =>
        split at h
        next => cases h
        next hnone =>
          cases h
          exact ⟨_, n, parent, (List.dropLast_append_getLast? _ hlast).symm, rfl,
            leads_of_resolve hparent, hdir, Option.not_isSome_iff_eq_none.mp hnone⟩
      next => cases h
  next => split at h <;> cases h

/-- On a clear way a directory is made, or it is there, or the one before it is missing. -/
theorem newDirPlace_clear {fs : FileSystem OsString} {dir : Location OsString}
    {before : List OsString} {n : OsString} (hclear : fs.Clear dir (before ++ [n]))
    (hdir : fs.IsDir dir) (hhops : path.hops = (before ++ [n]).map .name) :
    newDirPlace fs dir path =
      if fs.IsDir (before.reverse ++ dir) then
        if fs.IsDir (n :: (before.reverse ++ dir)) then .error .alreadyExists
        else .ok (n :: (before.reverse ++ dir))
      else .error .notFound := by
  have hlast : path.hops.getLast? = some (.name n) := by rw [hhops, List.map_append]; simp
  have hinit : path.hops.dropLast = before.map .name := by rw [hhops, List.map_append]; simp
  have hparent : fs.resolve (some dir) false dir (before.map .name) = _ :=
    resolve_clear (hclear.of_prefix (List.prefix_append before [n])) hdir
  unfold newDirPlace
  rw [hlast]
  simp only [hinit, hparent]
  by_cases hthere : fs.IsDir (before.reverse ++ dir)
  · simp only [if_pos hthere]
    rcases hclear (before ++ [n]) (List.prefix_refl _) with hnone | hdir'
    · rw [List.reverse_append] at hnone
      have hnone' : fs.node (n :: (before.reverse ++ dir)) = none := hnone
      have hnot : ¬ fs.IsDir (n :: (before.reverse ++ dir)) := fun h => h.ne_none hnone'
      rw [hnone', if_neg hnot]
      rfl
    · rw [List.reverse_append] at hdir'
      have hdir'' : fs.IsDir (n :: (before.reverse ++ dir)) := hdir'
      rw [if_pos hdir'', if_pos (Option.isSome_iff_ne_none.mpr hdir''.ne_none)]
  · simp only [if_neg hthere]

/-- The handle is at some names of the path. -/
def AtNames (path : Utf8Path) (k : Nat) (dir : Location OsString) : Prop :=
  ∀ names, path = .absolute names → ∃ k', k = k' + 1 ∧ dir = (names.take k').reverse

theorem AtNames.names (m : Machine T) (t : T) {k n : Nat} {dir : Location OsString}
    (h : AtNames path k dir)
    (hlength : k + n + 1 ≤ path.components.length) (hpath : ClearPath d.fs path) :
    ∃ before name, d.fs.Clear dir (before ++ [name]) ∧
      ((path.dropComponents k).takeComponents n).hops = before.map .name ∧
      ((path.dropComponents k).takeComponents (n + 1)).hops = (before ++ [name]).map .name ∧
      (∀ l, m.Reached t path (k + n) l d → l = before.reverse ++ dir) ∧
      ∀ l, m.Reached t path (k + n + 1) l d → l = name :: (before.reverse ++ dir) := by
  obtain ⟨names, rfl, hclear⟩ := hpath
  obtain ⟨k', rfl, rfl⟩ := h names rfl
  have hlength' : k' + n < names.length := by
    have hcomponents : (Path.absolute names).components.length = names.length + 1 := by
      simp [Path.absolute]
    omega
  have hget : (names.drop k')[n]? = some names[k' + n] := by
    rw [List.getElem?_drop, List.getElem?_eq_getElem hlength']
  have htake : (names.drop k').take (n + 1) = (names.drop k').take n ++ [names[k' + n]] := by
    rw [List.take_add_one, hget]
    rfl
  have hdrop := hclear.drop k'
  rw [List.append_nil] at hdrop
  have hplace : ∀ j l, m.Reached t (.absolute names) (k' + 1 + j) l d →
      l = ((names.drop k').take j).reverse ++ (names.take k').reverse := by
    intro j l hreached
    have hleads := hreached.1
    rw [show k' + 1 + j = k' + j + 1 by omega, Path.takeComponents_absolute, Path.hops_absolute]
      at hleads
    obtain ⟨rfl, -⟩ := (hclear.of_prefix (List.take_prefix _ names)).leads d.fs.isDir_root hleads
    rw [List.append_nil, ← List.reverse_append, List.take_add]
  refine ⟨(names.drop k').take n, names[k' + n], htake ▸ hdrop.of_prefix (List.take_prefix _ _),
    Path.hops_part_absolute names k' n, htake ▸ Path.hops_part_absolute names k' (n + 1),
    hplace n, fun l hreached => ?_⟩
  rw [hplace (n + 1) l hreached, htake, List.reverse_append]
  rfl

section CreateDirAll

variable {k n : Nat} {dir : Location OsString}

theorem reached_part (hdir : m.Reached t path k dir d)
    (hleads : d.fs.Leads dir ((path.dropComponents k).takeComponents n).hops l) (hl : d.fs.IsDir l) :
    m.Reached t path (k + n) l d := by
  refine ⟨?_, hl⟩
  rw [Path.hops_takeComponents]
  exact hdir.1.append hdir.2 hleads

theorem granted_createDir (hpath : m.Makes t path) (hdir : m.Reached t path k dir d)
    (hnew : newDirPlace d.fs dir ((path.dropComponents k).takeComponents (n + 1)) = .ok l) :
    m.Granted t d (d.makeDir (m.process t) l) ∧ Quiet d (d.makeDir (m.process t) l) ∧
      m.Reached t path (k + n + 1) l (d.makeDir (m.process t) l) := by
  obtain ⟨init, name, parent, hhops, rfl, hinit, hparent, hnone⟩ := newDirPlace_ok hnew
  have hwrites := writes_new hnone hparent (.dir (maskMode (m.process t).umask 0o777))
  have hgrows : d.fs.Grows (d.makeDir (m.process t) (name :: parent)).fs := hwrites.grows_new hnone
  have hdir' := growing_reached path k dir d _ hgrows hdir
  have hleads : (d.makeDir (m.process t) (name :: parent)).fs.Leads dir
      ((path.dropComponents k).takeComponents (n + 1)).hops (name :: parent) := by
    rw [hhops]
    refine (hgrows.leads hinit).append (hgrows.isDir hparent) ?_
    exact (leads_dir hwrites.self).mpr (.here _)
  have hreached := reached_part hdir' hleads (isDir_iff.mpr ⟨_, hwrites.self⟩)
  refine ⟨granted_makeDir hnone hparent ?_, fun l node node' hnode hnode' => ?_, hreached⟩
  · obtain ⟨paths, hpaths, hmem⟩ := hpath
    refine ⟨paths, hpaths, path, hmem, k + n + 1, ?_⟩
    unfold Machine.Leads
    rw [Path.start_takeComponents]
    exact hreached.1
  · have hne : l ≠ name :: parent := fun heq => by cases (heq ▸ hnone).symm.trans hnode
    rw [Option.some.inj (hnode.symm.trans ((hwrites.other hne).symm.trans hnode'))]

/-- What is known after a directory was to be made. -/
def AfterCreate (m : Machine T) (t : T) (calm : Prop) (path : Utf8Path) (k n : Nat)
    (dir : Location OsString) (again : Bool) (r : Except Errno Unit) (d : Disk) : Prop :=
  m.Reached t path k dir d ∧ (r = .ok () → ∃ l, m.Reached t path (k + n + 1) l d) ∧
    ∀ e, r = .error e → calm → (∃ l, m.Reached t path (k + n + 1) l d) ∨ e = .notFound ∧ again = false

theorem growing_afterCreate (again : Bool) (r : Except Errno Unit) :
    Growing (m.AfterCreate t calm path k n dir again r) := by
  rintro d d' hgrows ⟨hdir, hok, herror⟩
  have hreached : (∃ l, m.Reached t path (k + n + 1) l d) →
      ∃ l, m.Reached t path (k + n + 1) l d' :=
    fun ⟨l, h⟩ => ⟨l, growing_reached path _ l d d' hgrows h⟩
  exact ⟨growing_reached path k dir d d' hgrows hdir, fun h => hreached (hok h),
    fun e he hcalm => (herror e he hcalm).imp_left hreached⟩

/-- Where a directory cannot be made on a clear way, it is there or the one above it is missing. -/
theorem error_of_newDirPlace {again : Bool} {e : Errno} (hnames : AtNames path k dir)
    (hlength : k + n + 1 ≤ path.components.length) (hpath : ClearPath d.fs path)
    (hdir : m.Reached t path k dir d) (habove : again = true → ∃ l, m.Reached t path (k + n) l d)
    (hnew : newDirPlace d.fs dir ((path.dropComponents k).takeComponents (n + 1)) = .error e) :
    (∃ l, m.Reached t path (k + n + 1) l d) ∨ e = .notFound ∧ again = false := by
  obtain ⟨before, name, hclear, -, hhops, hparent, -⟩ := hnames.names m t hlength hpath
  have hplace := newDirPlace_clear hclear hdir.2 hhops
  rw [hnew] at hplace
  split at hplace
  next =>
    split at hplace
    next hthere =>
      have hthere' : d.fs.IsDir ((before ++ [name]).reverse ++ dir) := by
        rw [List.reverse_append]
        exact hthere
      have hresolve : d.fs.resolve none false dir ((before ++ [name]).map .name) = _ :=
        resolve_names hthere'
      have hreached : m.Reached t path (k + (n + 1)) _ d :=
        reached_part hdir (hhops ▸ leads_of_resolve hresolve) hthere'
      exact Or.inl ⟨_, hreached⟩
    next => cases hplace
  next hmissing =>
    refine Or.inr ⟨Except.error.inj hplace, Bool.eq_false_iff.mpr fun hagain => hmissing ?_⟩
    obtain ⟨l, hreached⟩ := habove hagain
    exact hparent l hreached ▸ hreached.2

theorem delivers_createDir {α : Type} {f : Except Errno Unit → Code α} {Q : α → Disk → Prop}
    (hpath : m.Makes t path) (hnames : calm → AtNames path k dir)
    (hlength : k + n + 1 ≤ path.components.length) (again : Bool)
    (hf : ∀ r, (m.quiet calm t).Delivers calm t (f r)
      (m.AfterCreate t calm path k n dir again r) Q) :
    (m.quiet calm t).Delivers calm t
      (ask (.createDir dir ((path.dropComponents k).takeComponents (n + 1))) >>= f)
      (fun d => m.Reached t path k dir d ∧ (again = true → ∃ l, m.Reached t path (k + n) l d)) Q := by
  refine Contract.delivers_ask (M := m.AfterCreate t calm path k n dir again)
    (fun x d r d' hP hcond hsem => ?_) (fun r => (growing_afterCreate again r).quiet.stable t) hf
  have hact := Option.some.inj hsem
  have hstay : ∀ e, (calm → (∃ l, m.Reached t path (k + n + 1) l d) ∨ e = .notFound ∧ again = false) →
      (r, d') = (.error e, d) → ((m.quiet calm t).grants t d d' ∧
        m.AfterCreate t calm path k n dir again r d') := by
    rintro e he heq
    cases heq
    refine ⟨⟨granted_refl m t d, fun _ => quiet_refl d⟩, hP.1, fun h => (by cases h), fun e' he' => ?_⟩
    cases he'
    exact he
  cases hfault : x.fault with
  | some f =>
    simp only [act, hfault] at hact
    refine hstay _ (fun hcalm => ?_) hact.symm
    cases hfault.symm.trans (hcond.2 hcalm).1
  | none =>
    simp only [act, hfault, onPlace] at hact
    cases hnew : newDirPlace d.fs dir ((path.dropComponents k).takeComponents (n + 1)) with
    | ok l =>
      rw [hnew] at hact
      cases hact
      obtain ⟨hgranted, hquiet, hreached⟩ := granted_createDir hpath hP.1 hnew
      refine ⟨⟨hgranted, fun _ => hquiet⟩, ?_, fun _ => ⟨l, hreached⟩, fun e h => (by cases h)⟩
      exact growing_reached path k dir d _ hgranted.grows hP.1
    | error e =>
      rw [hnew] at hact
      refine hstay e (fun hcalm => ?_) hact.symm
      exact error_of_newDirPlace (hnames hcalm) hlength (hcond.1.clearPath hcalm hpath) hP.1 hP.2 hnew

/-- What `create_dir_all` comes to. -/
def Created (m : Machine T) (t : T) (calm : Prop) (path : Utf8Path) (j : Nat) :
    Except Errno Unit → Disk → Prop
  | .ok (), d => ∃ l, m.Reached t path j l d
  | .error _, _ => ¬ calm

theorem reached_of_metadata {x : Choice} (hdir : m.Reached t path k dir d)
    (h : (act m (m.process t) x d (.metadata dir ((path.dropComponents k).takeComponents n))).1 =
      .ok true) : ∃ l, m.Reached t path (k + n) l d := by
  have hmap : (dirMetadata d.fs dir x.fault ((path.dropComponents k).takeComponents n)).map
      (fun l => decide (d.fs.IsDir l)) = .ok true := h
  cases hlookup : dirMetadata d.fs dir x.fault ((path.dropComponents k).takeComponents n) with
  | error e =>
    rw [hlookup] at hmap
    cases hmap
  | ok l =>
    rw [hlookup] at hmap
    exact ⟨l, reached_part hdir (names_of_lookup hlookup).2
      (of_decide_eq_true (Except.ok.inj hmap))⟩

theorem metadata_of_reached {x : Choice} (hnames : AtNames path k dir)
    (hlength : k + n + 1 ≤ path.components.length) (hpath : ClearPath d.fs path) (hx : Calm x)
    (hreached : m.Reached t path (k + n + 1) l d) :
    (act m (m.process t) x d (.metadata dir ((path.dropComponents k).takeComponents (n + 1)))).1 =
      .ok true := by
  obtain ⟨before, name, -, -, hhops, -, hplace⟩ := hnames.names m t hlength hpath
  obtain rfl := hplace l hreached
  have hdir : d.fs.IsDir ((before ++ [name]).reverse ++ dir) := by
    rw [List.reverse_append]
    exact hreached.2
  have hresolve : d.fs.resolve (some dir) false dir ((before ++ [name]).map .name) = _ :=
    resolve_names hdir
  have hempty : ((path.dropComponents k).takeComponents (n + 1)).isEmpty = false :=
    isEmpty_of_hops (by rw [hhops]; simp)
  have hlookup : dirMetadata d.fs dir x.fault ((path.dropComponents k).takeComponents (n + 1)) =
      .ok ((before ++ [name]).reverse ++ dir) := by
    unfold dirMetadata lookup
    rw [hx.1, hempty, hhops]
    exact hresolve
  show (dirMetadata d.fs dir x.fault _).map _ = _
  rw [hlookup]
  exact congrArg Except.ok (decide_eq_true hdir)

theorem delivers_orIsDir (hpath : m.Makes t path) (hnames : calm → AtNames path k dir)
    (hlength : k + n + 1 ≤ path.components.length) (r : Except Errno Unit) :
    (m.quiet calm t).Delivers calm t
      (orIsDir dir ((path.dropComponents k).takeComponents (n + 1)) r)
      (fun d => m.Reached t path k dir d ∧
        (r = .ok () ∨ calm → ∃ l, m.Reached t path (k + n + 1) l d))
      (m.Created t calm path (k + n + 1)) := by
  cases r with
  | ok => exact Contract.delivers_pure fun d h => h.2 (Or.inl rfl)
  | error cause =>
    refine delivers_read (M := fun a d => (a = .ok true → ∃ l, m.Reached t path (k + n + 1) l d) ∧
      (calm → a = .ok true)) (fun _ _ => rfl) (fun x d hP hready hx => ⟨fun hok => ?_,
      fun hcalm => ?_⟩) (fun a d d' hgrows h => ⟨fun hok => ?_, h.2⟩) fun a => ?_
    · have hreached : ∃ l, m.Reached t path (k + (n + 1)) l d := reached_of_metadata hP.1 hok
      exact hreached
    · obtain ⟨l, hreached⟩ := hP.2 (Or.inr hcalm)
      exact metadata_of_reached (hnames hcalm) hlength (hready.clearPath hcalm hpath) (hx hcalm) hreached
    · obtain ⟨l, hreached⟩ := h.1 hok
      exact ⟨l, growing_reached path _ l d d' hgrows hreached⟩
    · match a with
      | .ok true => exact Contract.delivers_pure fun d h => h.1 rfl
      | .ok false => exact Contract.delivers_pure fun d h hcalm => by cases h.2 hcalm
      | .error e => exact Contract.delivers_pure fun d h hcalm => by cases h.2 hcalm

theorem delivers_createDirAll (hpath : m.Makes t path) (hnames : calm → AtNames path k dir) (n : Nat)
    (hlength : k + n ≤ path.components.length) :
    (m.quiet calm t).Delivers calm t (createDirAll dir (path.dropComponents k) n)
      (m.Reached t path k dir) (m.Created t calm path (k + n)) := by
  induction n with
  | zero => exact Contract.delivers_pure fun d h => ⟨dir, h⟩
  | succ n ih =>
    have hinner := ih (Nat.le_of_succ_le hlength)
    refine Contract.Delivers.mono (delivers_createDir hpath hnames hlength false fun r => ?_)
      (fun d h => ⟨h, fun h => by cases h⟩) fun _ _ h => h
    have hother : (∀ d, m.AfterCreate t calm path k n dir false r d → r = .ok () ∨ calm →
        ∃ l, m.Reached t path (k + n + 1) l d) → (m.quiet calm t).Delivers calm t
          (orIsDir dir ((path.dropComponents k).takeComponents (n + 1)) r)
          (m.AfterCreate t calm path k n dir false r) (m.Created t calm path (k + (n + 1))) :=
      fun h => (delivers_orIsDir hpath hnames hlength r).mono (fun d hd => ⟨hd.1, h d hd⟩)
        fun _ _ h => h
    match r with
    | .ok () => exact hother fun d h _ => h.2.1 rfl
    | .error .notFound =>
      -- the directory above is made, and then this one once more
      have habove : (m.quiet calm t).Delivers calm t (createDirAll dir (path.dropComponents k) n)
          (m.AfterCreate t calm path k n dir false (.error .notFound))
          fun r d => m.Created t calm path (k + n) r d ∧ m.Reached t path k dir d :=
        (hinner.frame (growing_reached path k dir).quiet).mono (fun d h => ⟨h.1, h.1⟩) fun _ _ h => h
      refine habove.bind fun r => ?_
      cases r with
      | error cause => exact Contract.delivers_pure fun d h => h.1
      | ok =>
        refine Contract.Delivers.mono (delivers_createDir hpath hnames hlength true fun r => ?_)
          (fun d h => ⟨h.2, fun _ => h.1⟩) fun _ _ h => h
        refine (delivers_orIsDir hpath hnames hlength r).mono (fun d h => ⟨h.1, ?_⟩) fun _ _ h => h
        rintro (hok | hcalm)
        · exact h.2.1 hok
        · cases r with
          | ok => exact h.2.1 rfl
          | error e => exact (h.2.2 e rfl hcalm).resolve_right fun h => by cases h.2
    | .error .notDirectory | .error .isDirectory | .error .alreadyExists | .error .loop
    | .error .escape | .error .invalid | .error (.fault _) =>
      refine hother fun d h hcalm => ?_
      rcases hcalm with hok | hcalm
      · cases hok
      · exact (h.2.2 _ rfl hcalm).resolve_right fun h => by cases h.1

end CreateDirAll

/-! ### `ensure_dir_exists` -/

theorem growing_exists_dirAt (path : Utf8Path) : Growing fun d => ∃ l, m.DirAt t path l d :=
  Growing.exists fun l => growing_dirAt m t path l

theorem delivers_existing (a : Except Errno Bool) :
    (m.quiet calm t).Delivers calm t (do
      let isDir ← orThrow (.create path) a
      handleExistingMetadata path isDir)
      (fun d => (a = .ok true → ∃ l, m.DirAt t path l d) ∧ ¬ calm)
      fun _ d => ∃ l, m.DirAt t path l d := by
  refine delivers_orThrow (fun isDir hok => ?_) fun e _ d h => h.2
  cases isDir with
  | true => exact Contract.delivers_pure fun d h => h.1 hok
  | false => exact Contract.delivers_throw fun d h => h.2

theorem growing_existing (a : Except Errno Bool) :
    Growing fun d => (a = .ok true → ∃ l, m.DirAt t path l d) ∧ ¬ calm :=
  fun d d' hgrows h => ⟨fun hok => growing_exists_dirAt path d d' hgrows (h.1 hok), h.2⟩

theorem delivers_ensureExistingPathIsDir :
    (m.quiet calm t).Delivers calm t (ensureExistingPathIsDir path) (fun _ => ¬ calm)
      fun _ d => ∃ l, m.DirAt t path l d := by
  have hambient : (m.quiet calm t).Delivers calm t (ambientDirAndPath path) (fun _ => ¬ calm)
      fun r d => m.Handle t calm path r d ∧ ¬ calm := by
    refine Contract.delivers_of_pre (fun _ h => h) fun hnot => ?_
    refine ((delivers_ambientDirAndPath path fun hcalm => absurd hcalm hnot).frame
      (F := fun _ => ¬ calm) Contract.lasting_pure).mono (fun _ h => ⟨h, h⟩) fun _ _ h => h
  refine hambient.bind fun r => ?_
  obtain ⟨dir, relative⟩ := r
  show (m.quiet calm t).Delivers calm t (if _ then _ else _) _ _
  split
  next hempty =>
    refine delivers_read (fun _ _ => rfl) (fun x d h _ _ => ⟨fun hok => ?_, h.2⟩) growing_existing
      delivers_existing
    refine ⟨dir, h.1.leads_to ?_, h.1.dir⟩
    have hnil : relative.hops = [] := by
      rw [Path.hops, List.isEmpty_iff.mp hempty]
      rfl
    rw [hnil]
    exact .here dir
  next =>
    refine delivers_read (fun _ _ => rfl) (fun x d h _ _ => ⟨fun hok => ?_, h.2⟩) growing_existing
      delivers_existing
    have hmap : (dirMetadata d.fs dir x.fault relative).map (fun l => decide (d.fs.IsDir l)) =
      .ok true := hok
    cases hlookup : dirMetadata d.fs dir x.fault relative with
    | error e =>
      rw [hlookup] at hmap
      cases hmap
    | ok l =>
      rw [hlookup] at hmap
      have hleads : m.Leads d t path l := h.1.leads_to (names_of_lookup hlookup).2
      exact ⟨l, hleads, of_decide_eq_true (Except.ok.inj hmap)⟩

theorem delivers_ensureDirExists (hpath : m.Makes t path) :
    (m.quiet calm t).Delivers calm t (ensureDirExists path) (fun _ => True)
      fun _ d => ∃ l, m.DirAt t path l d := by
  have hwhole : ∀ {k l d}, path.components.length ≤ k → m.Reached t path k l d →
      m.DirAt t path l d := by
    intro k l d hk hreached
    have htake : path.takeComponents k = path := Lexical.Path.ext (List.take_of_length_le hk)
    have hleads := hreached.1
    rw [htake] at hleads
    exact ⟨hleads, hreached.2⟩
  refine (delivers_findExistingAncestor hpath).bind fun r => ?_
  obtain ⟨dir, relative⟩ := r
  have hfound : ∀ d, m.Found t calm path (dir, relative) d → ∃ k,
      (relative = path.dropComponents k ∧ (calm → AtNames path k dir)) ∧ m.Reached t path k dir d := by
    rintro d ⟨k, hrelative, hreached, hcalm⟩
    exact ⟨k, ⟨hrelative, fun h => hcalm h⟩, hreached⟩
  refine Contract.Delivers.mono (Contract.delivers_exists fun k => ?_) hfound fun _ _ h => h
  refine Contract.delivers_of_pre (fun _ h => h.1) fun hrelative => ?_
  obtain ⟨rfl, hnames⟩ := hrelative
  show (m.quiet calm t).Delivers calm t (if _ then _ else _) _ _
  split
  next hempty =>
    refine Contract.delivers_pure fun d h => ⟨dir, hwhole ?_ h.2⟩
    exact List.drop_eq_nil_iff.mp (List.isEmpty_iff.mp hempty)
  next hempty =>
    have hk : k ≤ path.components.length := by
      refine Nat.le_of_not_le fun hle => hempty (List.isEmpty_iff.mpr ?_)
      exact List.drop_eq_nil_iff.mpr hle
    have hlength : k + (path.dropComponents k).components.length = path.components.length := by
      rw [Path.dropComponents, List.length_drop]
      omega
    refine Contract.Delivers.bind ((delivers_createDirAll hpath hnames _ hlength.le).mono
      (fun d h => h.2) fun _ _ h => h) fun r => ?_
    cases r with
    | ok =>
      refine Contract.delivers_pure fun d h => ?_
      obtain ⟨l, hreached⟩ := h
      exact ⟨l, hwhole hlength.ge hreached⟩
    | error cause =>
      show (m.quiet calm t).Delivers calm t (if _ then _ else _) _ _
      split
      next => exact delivers_ensureExistingPathIsDir
      next => exact Contract.delivers_throw fun d h => h

end Machine

end PgEmbeddedSetup.Bootstrap
