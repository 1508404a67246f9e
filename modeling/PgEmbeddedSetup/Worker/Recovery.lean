import PgEmbeddedSetup.Worker.Setup

/-!
# What a setup leaves, and what a recovery removes

Two results about every content of the data directory and every pattern of failing calls.

* After a successful setup the data directory has the marker of `initdb`, unless the setup was taken
  to be complete without it, or the directory was overlooked because looking at it failed
  (`setup_leaves_marker_iff`). In the other cases the recovery leaves a missing directory, an empty
  one, or one with the marker.
* A recovery leaves a directory with the marker alone, and reports a lookup of the marker that fails,
  unless the failed lookup is taken for absence: then a non-empty directory is reset
  (`recoveries_safe_iff`). It cannot happen that the sandboxed lookup finds the marker absent and the
  marker is there (`not_hasMarker_of_metadata`), since both follow the same tree.
-/

namespace PgEmbeddedSetup.Worker

open Env Fs Lexical Posix

section Directory

variable (fs : FileSystem OsString) (cwd : Location OsString) (dataDir : Utf8Path)

/-- The data directory contains `global/pg_filenode.map`. -/
def HasMarker : Prop :=
  ∃ r, fs.Leads (dataDir.start cwd) (dataDir.hops ++ pgFilenodeMapMarker.hops) r

def Missing : Prop := ∀ r, ¬ Names fs (dataDir.start cwd) dataDir r

def EmptyDir : Prop :=
  ∃ l, Names fs (dataDir.start cwd) dataDir l ∧ fs.IsDir l ∧ fs.children l = []

end Directory

/-! ### The lookups -/

variable {fs fs' : FileSystem OsString} {c : Conditions} {dataDir : Utf8Path}

/-- The metadata call that `has_valid_data_dir` reads as a boolean. -/
def markerMetadata (fs : FileSystem OsString) (c : Conditions) (dataDir : Utf8Path) :
    Except Errno (Location OsString) := do
  let (dir, rel) ← ambientDirAndPath fs c.cwd c.openForValidation dataDir
  dirMetadata fs dir c.marker (rel.join pgFilenodeMapMarker)

theorem hasValidDataDir_eq (fs : FileSystem OsString) (c : Conditions) (dataDir : Utf8Path) :
    hasValidDataDir fs c dataDir =
      match ambientDirAndPath fs c.cwd c.openForValidation dataDir with
      | .error e => .error e
      | .ok _ => .ok (markerMetadata fs c dataDir).isOk := by
  unfold hasValidDataDir markerMetadata
  cases ambientDirAndPath fs c.cwd c.openForValidation dataDir with
  | error e => rfl
  | ok a => rfl

theorem leads_of_ambientDir {fault : Option Fault} {dir r : Location OsString} {rel : Utf8Path}
    {rest : List (Hop OsString)} (h : ambientDirAndPath fs c.cwd fault dataDir = .ok (dir, rel)) :
    fs.Leads (dataDir.start c.cwd) (dataDir.hops ++ rest) r ↔ fs.Leads dir (rel.hops ++ rest) r := by
  obtain ⟨hdir, prior, hhops, hprior⟩ := ambientDirAndPath_ok h
  rw [hhops, List.append_assoc]
  exact FileSystem.leads_append_iff hprior hdir

theorem hasMarker_iff {fault : Option Fault} {dir : Location OsString} {rel : Utf8Path}
    (h : ambientDirAndPath fs c.cwd fault dataDir = .ok (dir, rel)) :
    HasMarker fs c.cwd dataDir ↔ ∃ r, Names fs dir (rel.join pgFilenodeMapMarker) r := by
  have hhops : (rel.join pgFilenodeMapMarker).hops = rel.hops ++ pgFilenodeMapMarker.hops :=
    hops_join rfl
  have hempty : (rel.join pgFilenodeMapMarker).isEmpty = false := by
    apply isEmpty_of_hops
    rw [hhops]
    exact List.append_ne_nil_of_right_ne_nil _ (List.cons_ne_nil _ _)
  refine exists_congr fun r => ?_
  rw [leads_of_ambientDir h, Names, hhops]
  exact ⟨fun hr => ⟨hempty, hr⟩, fun hr => hr.2⟩

theorem hasMarker_of_metadata {r : Location OsString} (h : markerMetadata fs c dataDir = .ok r) :
    HasMarker fs c.cwd dataDir := by
  obtain ⟨⟨dir, rel⟩, hambient, hmeta⟩ := Outcome.except_bind_eq_ok.mp h
  exact (hasMarker_iff hambient).mpr ⟨r, names_of_lookup hmeta⟩

/-- Where the lookup finds the marker absent, it is absent, although the lookup is sandboxed. -/
theorem not_hasMarker_of_metadata {e : Errno} {b : Bool} (hvalid : hasValidDataDir fs c dataDir = .ok b)
    (h : markerMetadata fs c dataDir = .error e) (he : e.isAbsence = true) :
    ¬ HasMarker fs c.cwd dataDir := by
  rw [hasValidDataDir_eq] at hvalid
  split at hvalid
  next => cases hvalid
  next a hambient =>
    rw [hasMarker_iff hambient]
    rw [markerMetadata, hambient] at h
    exact fun ⟨r, hr⟩ => not_names_of_lookup h he r hr

theorem hasValidDataDir_ok {b : Bool} (h : hasValidDataDir fs c dataDir = .ok b) :
    b = (markerMetadata fs c dataDir).isOk := by
  rw [hasValidDataDir_eq] at h
  split at h
  next => cases h
  next => exact (Except.ok.inj h).symm

theorem names_of_exists {fault : Option Fault} {path : Utf8Path}
    (h : pathExists fs c.cwd fault path = true) : ∃ r, Names fs (path.start c.cwd) path r := by
  unfold pathExists metadata at h
  cases hlookup : lookup fs none (path.start c.cwd) fault path with
  | error e =>
    rw [hlookup] at h
    cases h
  | ok r => exact ⟨r, names_of_lookup hlookup⟩

theorem emptyDir_of_isDirEmpty (hexists : pathExists fs c.cwd c.existsCheck dataDir = true)
    (h : isDirEmpty fs c dataDir = .ok true) : EmptyDir fs c.cwd dataDir := by
  obtain ⟨r, hr⟩ := names_of_exists hexists
  obtain ⟨⟨dir, rel⟩, hambient, h⟩ := Outcome.except_bind_eq_ok.mp h
  obtain ⟨entries, hentries, h⟩ := Outcome.except_bind_eq_ok.mp h
  obtain ⟨l, hl, hentries⟩ := Outcome.except_bind_eq_ok.mp hentries
  have hnil : entries = [] := by
    have := Except.ok.inj h
    rw [Bool.and_eq_true, List.isEmpty_iff] at this
    exact this.2
  split at hentries
  next hdir =>
    refine ⟨l, ⟨hr.1, ?_⟩, hdir, (Except.ok.inj hentries).trans hnil⟩
    have hleads : fs.Leads dir (rel.hops ++ []) l := by
      rw [List.append_nil]
      exact (names_of_lookup hl).2
    have hnames := (leads_of_ambientDir hambient).mpr hleads
    rwa [List.append_nil] at hnames
  next => cases hentries

theorem missing_of_reset (hexists : pathExists fs c.cwd c.existsCheck dataDir = true)
    (h : resetDataDir c dataDir fs = .ok () fs') : Missing fs' c.cwd dataDir := by
  obtain ⟨r, hr⟩ := names_of_exists hexists
  unfold resetDataDir at h
  split at h
  next => cases h
  next dir rel hambient =>
    obtain ⟨hdir, prior, hhops, hprior⟩ := ambientDirAndPath_ok hambient
    split at h
    next => cases h
    next hrel =>
      split at h
      next fs₁ hremove =>
        cases h
        obtain ⟨init, n, parent, hinit, hparent, -, rfl⟩ := dirRemoveDirAll_ok hremove
        intro r' hr'
        have hleads := hr'.2
        rw [hhops, hinit] at hleads
        exact not_leads_remove hprior hdir hparent r' hleads
      next fs₁ hremove =>
        obtain ⟨-, hnone⟩ := dirRemoveDirAll_notFound hremove
        have hleads := hr.2
        rw [hhops, FileSystem.leads_append_iff hprior hdir] at hleads
        exact absurd ⟨Bool.eq_false_iff.mpr hrel, hleads⟩ (hnone r)
      next => cases h

/-! ### What a recovery leaves -/

section Stages

variable (hexists : pathExists fs c.cwd c.existsCheck dataDir = true) {isValid isEmpty : Bool}

theorem recover_overlooked (h : pathExists fs c.cwd c.existsCheck dataDir = false) :
    recoverInvalidDataDir c dataDir fs = .ok () fs := by
  rw [recoverInvalidDataDir, if_neg (Bool.eq_false_iff.mp h)]

include hexists

theorem recover_validation {e : Errno} (h : hasValidDataDir fs c dataDir = .error e) :
    recoverInvalidDataDir c dataDir fs = .error (.dataDirRecovery "validation" (.io e)) fs := by
  rw [recoverInvalidDataDir, if_pos hexists, h]

theorem recover_emptyCheck {e : Errno} (hvalid : hasValidDataDir fs c dataDir = .ok isValid)
    (h : isDirEmpty fs c dataDir = .error e) :
    recoverInvalidDataDir c dataDir fs = .error (.dataDirRecovery "empty check" (.io e)) fs := by
  simp only [recoverInvalidDataDir, if_pos hexists, hvalid, h]

theorem recover_kept (hvalid : hasValidDataDir fs c dataDir = .ok isValid)
    (hempty : isDirEmpty fs c dataDir = .ok isEmpty) (h : (!isValid && !isEmpty) = false) :
    recoverInvalidDataDir c dataDir fs = .ok () fs := by
  simp only [recoverInvalidDataDir, if_pos hexists, hvalid, hempty, h, Bool.false_eq_true, if_false]

theorem recover_reset (hvalid : hasValidDataDir fs c dataDir = .ok false)
    (hempty : isDirEmpty fs c dataDir = .ok false) :
    recoverInvalidDataDir c dataDir fs = performDataDirReset c dataDir fs := by
  simp only [recoverInvalidDataDir, if_pos hexists, hvalid, hempty, Bool.not_false, Bool.and_self,
    if_true]

omit hexists

theorem reset_of_ok (h : resetDataDir c dataDir fs = .ok () fs') :
    performDataDirReset c dataDir fs = .ok () fs' := by
  rw [performDataDirReset, EStateM.adaptExcept, h]

theorem reset_of_error {e : BoxError} (h : resetDataDir c dataDir fs = .error e fs') :
    performDataDirReset c dataDir fs = .error (.dataDirRecovery "reset" e) fs' := by
  rw [performDataDirReset, EStateM.adaptExcept, h]

end Stages

theorem recoverInvalidDataDir_ok (h : recoverInvalidDataDir c dataDir fs = .ok () fs') :
    (pathExists fs c.cwd c.existsCheck dataDir = false ∧ fs' = fs) ∨
      HasMarker fs' c.cwd dataDir ∨ EmptyDir fs' c.cwd dataDir ∨ Missing fs' c.cwd dataDir := by
  cases hexists : pathExists fs c.cwd c.existsCheck dataDir with
  | false =>
    rw [recover_overlooked hexists] at h
    cases h
    exact Or.inl ⟨rfl, rfl⟩
  | true =>
    right
    cases hvalid : hasValidDataDir fs c dataDir with
    | error e =>
      rw [recover_validation hexists hvalid] at h
      cases h
    | ok isValid =>
      cases hempty : isDirEmpty fs c dataDir with
      | error e =>
        rw [recover_emptyCheck hexists hvalid hempty] at h
        cases h
      | ok isEmpty =>
        cases isValid with
        | true =>
          rw [recover_kept hexists hvalid hempty rfl] at h
          cases h
          left
          have hmeta := hasValidDataDir_ok hvalid
          cases hlookup : markerMetadata fs c dataDir with
          | ok r => exact hasMarker_of_metadata hlookup
          | error e =>
            rw [hlookup] at hmeta
            cases hmeta
        | false =>
          right
          cases isEmpty with
          | true =>
            rw [recover_kept hexists hvalid hempty rfl] at h
            cases h
            exact Or.inl (emptyDir_of_isDirEmpty hexists hempty)
          | false =>
            rw [recover_reset hexists hvalid hempty] at h
            cases hreset : resetDataDir c dataDir fs with
            | error e fs₁ =>
              rw [reset_of_error hreset] at h
              cases h
            | ok u fs₁ =>
              rw [reset_of_ok hreset] at h
              cases h
              exact Or.inr (missing_of_reset hexists hreset)

/-! ### What a setup leaves -/

/-- What a successful `pg.setup()` does: from a missing or empty data directory it makes one with the
marker, and a marker that is there it keeps. -/
structure SetsUp (setup : Run PgError Unit) (cwd : Location OsString) (dataDir : Utf8Path) :
    Prop where
  initialises : ∀ fs fs', Missing fs cwd dataDir ∨ EmptyDir fs cwd dataDir →
    setup fs = .ok () fs' → HasMarker fs' cwd dataDir
  keeps : ∀ fs fs', HasMarker fs cwd dataDir → setup fs = .ok () fs' → HasMarker fs' cwd dataDir

/-- The setup is taken to be complete, by `PG_VERSION` and the status, and the marker is not there. -/
def Accepted (fs : FileSystem OsString) (c : Conditions) (dataDir : Utf8Path) : Prop :=
  isSetupComplete fs c dataDir = true ∧ ¬ HasMarker fs c.cwd dataDir

/-- There is a data directory without the marker, it is not empty, and looking at it fails. -/
def Overlooked (fs : FileSystem OsString) (c : Conditions) (dataDir : Utf8Path) : Prop :=
  isSetupComplete fs c dataDir = false ∧ pathExists fs c.cwd c.existsCheck dataDir = false ∧
    ¬ HasMarker fs c.cwd dataDir ∧ ¬ EmptyDir fs c.cwd dataDir ∧ ¬ Missing fs c.cwd dataDir

theorem runPostgresSetup_complete {pg : PostgreSQL} (h : isSetupComplete fs c dataDir = true) :
    runPostgresSetup pg c dataDir fs = .ok () fs := by
  unfold runPostgresSetup
  rw [Outcome.bind_ok (Outcome.get_apply fs), h]
  rfl

theorem runPostgresSetup_incomplete {pg : PostgreSQL} (h : isSetupComplete fs c dataDir = false) :
    runPostgresSetup pg c dataDir fs =
      (recoverInvalidDataDir c dataDir >>= fun _ => runSetup pg) fs := by
  unfold runPostgresSetup
  rw [Outcome.bind_ok (Outcome.get_apply fs), h]
  rfl

theorem runSetup_ok {pg : PostgreSQL} :
    runSetup pg fs = .ok () fs' ↔ pg.setup fs = .ok () fs' := by
  unfold runSetup EStateM.adaptExcept
  split
  next e s heq => simp [heq]
  next s heq => rw [heq, EStateM.Result.ok.injEq, EStateM.Result.ok.injEq]

/-- Without a shortcut and without an oversight, a successful setup leaves the marker. -/
theorem hasMarker_of_setup {pg : PostgreSQL} (hpg : SetsUp pg.setup c.cwd dataDir)
    (haccepted : ¬ Accepted fs c dataDir) (hoverlooked : ¬ Overlooked fs c dataDir)
    (h : runPostgresSetup pg c dataDir fs = .ok () fs') : HasMarker fs' c.cwd dataDir := by
  cases hcomplete : isSetupComplete fs c dataDir with
  | true =>
    rw [runPostgresSetup_complete hcomplete] at h
    cases h
    exact not_not.mp fun hmarker => haccepted ⟨hcomplete, hmarker⟩
  | false =>
    rw [runPostgresSetup_incomplete hcomplete, Outcome.bind_apply] at h
    cases hrecover : recoverInvalidDataDir c dataDir fs with
    | error e fs₁ =>
      rw [hrecover] at h
      cases h
    | ok u fs₁ =>
      rw [hrecover] at h
      have hsetup := runSetup_ok.mp h
      -- the recovery has left one of the states that the setup is made for, or it looked away
      rcases recoverInvalidDataDir_ok hrecover with ⟨hexists, rfl⟩ | hmarker | hempty | hmissing
      · by_cases hmarker : HasMarker fs₁ c.cwd dataDir
        · exact hpg.keeps _ _ hmarker hsetup
        · refine hpg.initialises _ _ ?_ hsetup
          by_contra hneither
          rw [not_or] at hneither
          exact hoverlooked ⟨hcomplete, hexists, hmarker, hneither.2, hneither.1⟩
      · exact hpg.keeps _ _ hmarker hsetup
      · exact hpg.initialises _ _ (Or.inr hempty) hsetup
      · exact hpg.initialises _ _ (Or.inl hmissing) hsetup

open Classical in
/-- A setup that refuses what is missing or empty, and does nothing otherwise. -/
noncomputable def refusing (cwd : Location OsString) (dataDir : Utf8Path) : Run PgError Unit :=
  fun fs =>
    if Missing fs cwd dataDir ∨ EmptyDir fs cwd dataDir then .error (.other "refused") fs
    else .ok () fs

theorem refusing_setsUp (cwd : Location OsString) (dataDir : Utf8Path) :
    SetsUp (refusing cwd dataDir) cwd dataDir := by
  constructor
  · intro fs fs' hstate h
    rw [refusing, if_pos hstate] at h
    cases h
  · intro fs fs' hmarker h
    unfold refusing at h
    split at h
    next => cases h
    next =>
      cases h
      exact hmarker

/-- **When a successful setup leaves the marker.** For each content of the file system, each status
and each pattern of failing calls: whatever `pg.setup()` does within its contract, the data directory
has the marker when `run_postgres_setup` has succeeded, if and only if the setup was not taken to be
complete without it, and the data directory was not overlooked. -/
theorem setup_leaves_marker_iff (fs : FileSystem OsString) (c : Conditions) (dataDir : Utf8Path) :
    (∀ pg : PostgreSQL, SetsUp pg.setup c.cwd dataDir → ∀ fs',
      runPostgresSetup pg c dataDir fs = .ok () fs' → HasMarker fs' c.cwd dataDir) ↔
    ¬ Accepted fs c dataDir ∧ ¬ Overlooked fs c dataDir := by
  constructor
  · intro h
    have hrefusing := h ⟨refusing c.cwd dataDir, pure (), pure ()⟩ (refusing_setsUp c.cwd dataDir)
    constructor
    · rintro ⟨hcomplete, hmarker⟩
      exact hmarker (hrefusing fs (runPostgresSetup_complete hcomplete))
    · rintro ⟨hincomplete, hexists, hmarker, hempty, hmissing⟩
      apply hmarker
      apply hrefusing fs
      rw [runPostgresSetup_incomplete hincomplete, Outcome.bind_ok (recover_overlooked hexists),
        runSetup_ok]
      exact if_neg (not_or.mpr ⟨hmissing, hempty⟩)
  · rintro ⟨haccepted, hoverlooked⟩ pg hpg fs'
    exact hasMarker_of_setup hpg haccepted hoverlooked

/-- No call fails. -/
def Conditions.calm (status : Status) : Conditions :=
  ⟨[], none, none, none, none, none, none, none, none, none, none, status, status⟩

/-- `/data`. -/
def slashData : Utf8Path := Path.absolute [osString "data"]

/-- An interrupted `initdb` in `/data`, as `create_partial_data_dir` makes it. -/
def partialDataDir : FileSystem OsString :=
  let data := [osString "data"]
  .ofList [(data, .dir 0o700), (osString "global" :: data, .dir 0o700),
    (osString "PG_VERSION" :: data, .file 0o600 (osString "16\n")),
    (osString "base" :: data, .dir 0o700), (osString "1" :: osString "base" :: data, .dir 0o700),
    (osString "pg_class" :: osString "1" :: osString "base" :: data,
      .file 0o600 (osString "dummy"))]

/-- With an installed server the setup of the partial directory is taken to be complete. -/
theorem partial_setup_accepted :
    ¬ ∀ pg : PostgreSQL, SetsUp pg.setup [] slashData → ∀ fs',
      runPostgresSetup pg (.calm .stopped) slashData partialDataDir = .ok () fs' →
        HasMarker fs' [] slashData := by
  intro h
  have hcomplete : isSetupComplete partialDataDir (.calm .stopped) slashData = true := by
    decide +kernel
  obtain ⟨r, hr⟩ := h ⟨refusing [] slashData, pure (), pure ()⟩ (refusing_setsUp [] slashData)
    partialDataDir (runPostgresSetup_complete hcomplete)
  have habsent : partialDataDir.resolve none false (slashData.start [])
      (slashData.hops ++ pgFilenodeMapMarker.hops) = .error .notFound := by
    decide +kernel
  exact FileSystem.not_leads_of_resolve habsent rfl r hr

/-! ### What a recovery removes -/

/-- The two file systems have the same entries. -/
def Unchanged (fs fs' : FileSystem OsString) : Prop := ∀ l, fs'.node l = fs.node l

/-- The lookup of the marker fails, and not because the marker is absent. -/
def LookupFails (fs : FileSystem OsString) (c : Conditions) (dataDir : Utf8Path) : Prop :=
  pathExists fs c.cwd c.existsCheck dataDir = true ∧
    ∃ e, markerMetadata fs c dataDir = .error e ∧ e.isAbsence = false

/-- A recovery by its start. -/
structure Recovery where
  before : FileSystem OsString
  conditions : Conditions

namespace Recovery

variable (r : Recovery) (dataDir : Utf8Path)

/-- The file system that the recovery ends with. -/
def after : FileSystem OsString :=
  Outcome.final (recoverInvalidDataDir r.conditions dataDir) r.before

/-- A directory with the marker stays, and a lookup that fails is reported and changes nothing. -/
def Safe : Prop :=
  (HasMarker r.before r.conditions.cwd dataDir → Unchanged r.before (r.after dataDir)) ∧
    (LookupFails r.before r.conditions dataDir →
      (∃ step cause, recoverInvalidDataDir r.conditions dataDir r.before =
        .error (.dataDirRecovery step cause) (r.after dataDir)) ∧
      Unchanged r.before (r.after dataDir))

/-- The reset fails before it has removed anything. -/
def ResetRefused : Prop :=
  ∃ e fs, resetDataDir r.conditions dataDir r.before = .error e fs ∧ Unchanged r.before fs

/-- The parent directory is opened and the lookup of the marker in it fails for another reason than
absence, the emptiness check succeeds, and a reset that follows is not refused. -/
def Misjudged : Prop :=
  LookupFails r.before r.conditions dataDir ∧ (∃ b, hasValidDataDir r.before r.conditions dataDir = .ok b) ∧
    ∃ isEmpty, isDirEmpty r.before r.conditions dataDir = .ok isEmpty ∧
      (isEmpty = false → ¬ r.ResetRefused dataDir)

variable {r dataDir}

theorem not_safe (h : r.Misjudged dataDir) : ¬ r.Safe dataDir := by
  obtain ⟨hfails, ⟨b, hvalid⟩, isEmpty, hempty, hreset⟩ := h
  have ⟨hexists, e, hmeta, _⟩ := hfails
  obtain rfl : b = false := by
    rw [hasValidDataDir_ok hvalid, hmeta]
    rfl
  rintro ⟨-, hreports⟩
  obtain ⟨⟨step, cause, herror⟩, hunchanged⟩ := hreports hfails
  cases isEmpty with
  | true =>
    rw [recover_kept hexists hvalid hempty rfl] at herror
    cases herror
  | false =>
    rw [recover_reset hexists hvalid hempty] at herror
    cases hrefused : resetDataDir r.conditions dataDir r.before with
    | ok u fs =>
      rw [reset_of_ok hrefused] at herror
      cases herror
    | error e' fs =>
      rw [reset_of_error hrefused] at herror
      refine hreset rfl ⟨e', fs, hrefused, ?_⟩
      rw [(EStateM.Result.error.inj herror).2]
      exact hunchanged

theorem safe_of_error {e : WorkerError} {fs : FileSystem OsString}
    (h : recoverInvalidDataDir r.conditions dataDir r.before = .error e fs)
    (he : ∃ step cause, e = .dataDirRecovery step cause) (hfs : Unchanged r.before fs) :
    r.Safe dataDir := by
  obtain ⟨step, cause, rfl⟩ := he
  have hafter : r.after dataDir = fs := Outcome.final_of_error h
  rw [Safe, hafter]
  exact ⟨fun _ => hfs, fun _ => ⟨⟨step, cause, h⟩, hfs⟩⟩

theorem safe_of_ok
    (h : recoverInvalidDataDir r.conditions dataDir r.before = .ok () r.before)
    (hlookup : ¬ LookupFails r.before r.conditions dataDir) : r.Safe dataDir := by
  have hafter : r.after dataDir = r.before := Outcome.final_of_ok h
  rw [Safe, hafter]
  exact ⟨fun _ _ => rfl, fun hfails => absurd hfails hlookup⟩

theorem safe_of_not_misjudged (h : ¬ r.Misjudged dataDir) : r.Safe dataDir := by
  cases hexists : pathExists r.before r.conditions.cwd r.conditions.existsCheck dataDir with
  | false =>
    refine safe_of_ok (recover_overlooked hexists) fun hfails => ?_
    exact Bool.noConfusion (hexists.symm.trans hfails.1)
  | true =>
    cases hvalid : hasValidDataDir r.before r.conditions dataDir with
    | error e => exact safe_of_error (recover_validation hexists hvalid) ⟨_, _, rfl⟩ fun _ => rfl
    | ok isValid =>
      cases hempty : isDirEmpty r.before r.conditions dataDir with
      | error e =>
        exact safe_of_error (recover_emptyCheck hexists hvalid hempty) ⟨_, _, rfl⟩ fun _ => rfl
      | ok isEmpty =>
        have hisValid := hasValidDataDir_ok hvalid
        cases hmeta : markerMetadata r.before r.conditions dataDir with
        | ok l =>
          -- the marker is found
          rw [hmeta] at hisValid
          subst hisValid
          refine safe_of_ok (recover_kept hexists hvalid hempty rfl) ?_
          rintro ⟨-, e, he, -⟩
          rw [hmeta] at he
          cases he
        | error e =>
          rw [hmeta] at hisValid
          subst hisValid
          cases habsence : e.isAbsence with
          | true =>
            -- the marker is absent, so whatever happens to the directory is right
            refine ⟨fun hmarker => ?_, ?_⟩
            · exact absurd hmarker (not_hasMarker_of_metadata hvalid hmeta habsence)
            · rintro ⟨-, e', he', hne⟩
              obtain rfl := Except.error.inj (hmeta.symm.trans he')
              rw [habsence] at hne
              cases hne
          | false =>
            have hfails : LookupFails r.before r.conditions dataDir :=
              ⟨hexists, e, hmeta, habsence⟩
            have hrefused : isEmpty = false ∧ r.ResetRefused dataDir := by
              by_contra hno
              refine h ⟨hfails, ⟨false, hvalid⟩, isEmpty, hempty, fun hnonempty hrefused => ?_⟩
              exact hno ⟨hnonempty, hrefused⟩
            obtain ⟨rfl, e', fs, hreset, hfs⟩ := hrefused
            have hreported := (recover_reset hexists hvalid hempty).trans (reset_of_error hreset)
            exact safe_of_error hreported ⟨_, _, rfl⟩ hfs

theorem safe_iff : r.Safe dataDir ↔ ¬ r.Misjudged dataDir :=
  ⟨fun hsafe h => not_safe h hsafe, safe_of_not_misjudged⟩

end Recovery

/-! ### Sequences of operations -/

/-- What happens to the file system: an operation of the worker, or a change by others. -/
inductive Action where
  | setup (pg : PostgreSQL) (c : Conditions)
  | start (pg : PostgreSQL) (c : Conditions)
  | stop (pg : PostgreSQL)
  | other (change : FileSystem OsString → FileSystem OsString)

def perform (dataDir : Utf8Path) (fs : FileSystem OsString) : Action → FileSystem OsString
  | .setup pg c => Outcome.final (executeSetup pg c dataDir) fs
  | .start pg c => Outcome.final (executeStart pg c dataDir) fs
  | .stop pg => Outcome.final (executeStop pg) fs
  | .other change => change fs

/-- The recovery of an action, if it comes to one. -/
def recoveryOf (dataDir : Utf8Path) (fs : FileSystem OsString) : Action → Option Recovery
  | .setup _ c | .start _ c => if isSetupComplete fs c dataDir then none else some ⟨fs, c⟩
  | .stop _ | .other _ => none

/-- The recoveries of a sequence of actions. -/
def recoveries (dataDir : Utf8Path) : List Action → FileSystem OsString → List Recovery
  | [], _ => []
  | a :: as, fs => (recoveryOf dataDir fs a).toList ++ recoveries dataDir as (perform dataDir fs a)

/-- No operation of the sequence starts where its recovery misjudges a failed lookup. -/
def NoneMisjudged (dataDir : Utf8Path) : List Action → FileSystem OsString → Prop
  | [], _ => True
  | a :: as, fs => (∀ r, recoveryOf dataDir fs a = some r → ¬ r.Misjudged dataDir) ∧
      NoneMisjudged dataDir as (perform dataDir fs a)

/-- **Recoveries are safe unless a failed lookup is misjudged.** For each sequence of setup, start and
stop operations and of changes by others, from each file system and with each pattern of failing
calls: every recovery leaves a data directory with the marker as it was, and reports a failed lookup
of the marker and changes nothing, if and only if no operation starts where the lookup of the marker
fails for another reason than absence while the emptiness check succeeds and the reset is not
refused. -/
theorem recoveries_safe_iff (dataDir : Utf8Path) (actions : List Action)
    (fs : FileSystem OsString) :
    (∀ r ∈ recoveries dataDir actions fs, r.Safe dataDir) ↔ NoneMisjudged dataDir actions fs := by
  induction actions generalizing fs with
  | nil => exact ⟨fun _ => trivial, fun _ r hr => absurd hr List.not_mem_nil⟩
  | cons a as ih =>
    rw [recoveries, NoneMisjudged, ← ih, List.forall_mem_append]
    refine and_congr_left fun _ => forall_congr' fun r => ?_
    rw [Option.mem_toList]
    exact forall_congr' fun _ => Recovery.safe_iff

/-- A data directory of which `global` is a link to another place, where the marker is. -/
def linkedGlobal : FileSystem OsString :=
  let data := [osString "data"]
  .ofList [(data, .dir 0o700), (osString "PG_VERSION" :: data, .file 0o600 (osString "16\n")),
    (osString "global" :: data, .symlink ⟨true, [.name (osString "shared")]⟩),
    ([osString "shared"], .dir 0o700),
    ([osString "pg_filenode.map", osString "shared"], .file 0o600 [])]

/-- The sandbox refuses the link, and the directory with the marker is removed. -/
theorem linked_marker_removed :
    let removed := linkedGlobal.remove [osString "data"]
    HasMarker linkedGlobal [] slashData ∧
      recoverInvalidDataDir (.calm .notInstalled) slashData linkedGlobal = .ok () removed ∧
      removed.node [osString "data"] = none ∧
      ¬ ∀ r ∈ recoveries slashData
        [.setup ⟨pure (), pure (), pure ()⟩ (.calm .notInstalled)] linkedGlobal, r.Safe slashData := by
  have hlink : linkedGlobal.resolve none false (slashData.start [])
      (slashData.hops ++ pgFilenodeMapMarker.hops) =
        .ok [osString "pg_filenode.map", osString "shared"] := by
    decide +kernel
  have hrecover : recoverInvalidDataDir (.calm .notInstalled) slashData linkedGlobal =
      .ok () (linkedGlobal.remove [osString "data"]) := by
    rw [recover_reset (by decide +kernel) (by decide +kernel) (by decide +kernel)]
    apply reset_of_ok
    have hambient : ambientDirAndPath linkedGlobal [] none slashData =
        .ok ([], Path.ofName (osString "data")) := by
      decide +kernel
    have hparent : linkedGlobal.resolve (some []) false [] [] = .ok [] := by
      decide +kernel
    have hdata : linkedGlobal.node [osString "data"] = some (.dir 0o700) := by
      decide +kernel
    have hremove : dirRemoveDirAll linkedGlobal [] none (Path.ofName (osString "data")) =
        (.ok (), linkedGlobal.remove [osString "data"]) := by
      have hlast : (Path.ofName (osString "data")).hops = [.name (osString "data")] := rfl
      simp only [dirRemoveDirAll, hlast, List.getLast?_singleton, List.dropLast_singleton, hparent,
        hdata, FileSystem.isDir_root, if_true]
    simp only [resetDataDir, Conditions.calm, hambient, hremove]
    rfl
  have hmarker : HasMarker linkedGlobal [] slashData := ⟨_, FileSystem.leads_of_resolve hlink⟩
  refine ⟨hmarker, hrecover, FileSystem.node_remove_self _ _ _, fun h => ?_⟩
  have hrecovery : (⟨linkedGlobal, .calm .notInstalled⟩ : Recovery) ∈ recoveries slashData
      [.setup ⟨pure (), pure (), pure ()⟩ (.calm .notInstalled)] linkedGlobal := by
    have hincomplete : isSetupComplete linkedGlobal (.calm .notInstalled) slashData = false := by
      decide +kernel
    simp [recoveries, recoveryOf, hincomplete]
  have hsame := (h _ hrecovery).1 hmarker [osString "data"]
  rw [Recovery.after, Outcome.final_of_ok hrecover, FileSystem.node_remove_self] at hsame
  have hdata : linkedGlobal.node [osString "data"] ≠ none := by
    decide +kernel
  exact hdata hsame.symm

end PgEmbeddedSetup.Worker
