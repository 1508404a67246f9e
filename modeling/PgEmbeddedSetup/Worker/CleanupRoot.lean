import PgEmbeddedSetup.Base.Way
import PgEmbeddedSetup.Worker.CleanupAgreement

/-!
# What a full cleanup leaves of the installation root

The bootstrap puts the password file into the installation root, and the startup moves
`installation_dir` from there to the directory of a version. A full cleanup removes the data directory
and what `installation_dir` is by then: the root that holds both only goes if the path of one of the two
leads to it, or to something on the way to it (`full_cleanup_root_iff`).
-/

namespace PgEmbeddedSetup.Worker

open Program Lexical Cluster Posix

/-- The settings at shutdown, where the installation directory may be that of a version. -/
def settingsAtShutdown (dataDir root : FilePath) (version : Option OsString) : Settings where
  dataDir := dataDir
  installationDir := match version with
    | none => root
    | some v => root.join (.ofName v)
  passwordFile := root.join (.ofName (Fs.osString ".pgpass"))

/-- The removals of a shutdown in the mode `Full`. Where a worker manages the cluster, it is asked
first, and the cleanup in the process follows. -/
def fullCleanup (managed : Bool) (settings : Settings) (worker os : Nat → (i : Instr) → i.Answer) :
    List Event :=
  (if managed then (workerCleanup .full settings).trace worker 0 else []) ++
    (cleanupInProcess .full settings).trace os 0

/-- Something is at the path. The empty path is for nothing. -/
def Present (fs : FileSystem OsString) (cwd : Location OsString) (path : FilePath) : Prop :=
  path.isEmpty = false ∧ fs.Remains (path.start cwd) path.hops

/-- The entry that is removed for one path is on the way to what another path is for, or above that. -/
def Takes (fs : FileSystem OsString) (cwd : Location OsString) (removed path : FilePath) : Prop :=
  guardRemovalPath removed = true ∧ ∃ e, fs.Denotes (removed.start cwd) removed.hops e ∧
    fs.node e ≠ none ∧ ∃ x, fs.OnWay (path.start cwd) path.hops x ∧ e <:+ x

/-- A removal that is refused or succeeds. -/
def Removes (fs : FileSystem OsString) (cwd : Location OsString) (removed : FilePath)
    (fs' : FileSystem OsString) : Prop :=
  if guardRemovalPath removed then
    (∃ e ≠ [], fs.Denotes (removed.start cwd) removed.hops e ∧ fs.node e ≠ none ∧
      fs' = fs.remove e) ∨ (fs' = fs ∧ ¬ fs.Remains (removed.start cwd) removed.hops)
  else fs' = fs

def RemovesAll (cwd : Location OsString) :
    FileSystem OsString → List FilePath → FileSystem OsString → Prop
  | fs, [], fs' => fs' = fs
  | fs, removed :: rest, fs' => ∃ fs₁, Removes fs cwd removed fs₁ ∧ RemovesAll cwd fs₁ rest fs'

variable {fs fs' fs₁ : FileSystem OsString} {cwd : Location OsString} {stopped : Stopped}
  {removed path path' : FilePath} {answer : RemoveAnswer}

/-! ### One removal -/

theorem getLast?_hops_of_guard (h : guardRemovalPath path = true) :
    ∃ n, path.hops.getLast? = some (.name n) := by
  rw [guardRemovalPath, Bool.not_eq_true', Bool.or_eq_false_iff] at h
  obtain ⟨hroot, hdots⟩ := h
  rw [Path.hasParentDir, List.any_eq_false] at hdots
  cases hlast : path.components.getLast? with
  | none =>
    rw [isEmptyOrRoot, List.getLast?_eq_none_iff.mp hlast] at hroot
    cases hroot
  | some c =>
    obtain ⟨cs, hcs⟩ := List.getLast?_eq_some_iff.mp hlast
    have hmem : c ∈ path.components := List.mem_of_getLast? hlast
    have hinner : cs ≠ [] → c.isInner = true := by
      intro hne
      refine path.inner c ?_
      obtain ⟨c', cs', rfl⟩ := List.exists_cons_of_ne_nil hne
      rw [hcs]
      exact List.mem_append_right _ (List.mem_singleton_self c)
    cases c with
    | normal n =>
      refine ⟨n, ?_⟩
      rw [Path.hops, hcs, List.filterMap_append]
      exact List.getLast?_concat
    | parentDir => exact absurd rfl (hdots _ hmem)
    | rootDir | curDir =>
      cases cs with
      | nil =>
        rw [isEmptyOrRoot, hcs] at hroot
        cases hroot
      | cons c' cs' => cases hinner (List.cons_ne_nil c' cs')

theorem splitLast_of_getLast? {hops : List (Hop OsString)} {n : OsString}
    (h : hops.getLast? = some (.name n)) :
    FileSystem.splitLast hops = (hops.dropLast, some n) := by
  rw [FileSystem.splitLast, h]

theorem removes_of_removeDirAll (hguard : guardRemovalPath removed = true)
    (h : removeDirAll fs cwd stopped removed = (answer, fs')) (hanswer : ∀ err, answer ≠ .failed err) :
    Removes fs cwd removed fs' := by
  obtain ⟨n, hn⟩ := getLast?_hops_of_guard hguard
  rw [Removes, if_pos hguard]
  simp only [FileSystem.Remains, FileSystem.Denotes, splitLast_of_getLast? hn, Option.toList_some,
    List.singleton_append]
  rw [removeDirAll, hn] at h
  simp only [removeEntry] at h
  split at h
  next hparent =>
    cases h
    refine Or.inr ⟨rfl, ?_⟩
    rintro ⟨-, ⟨parent, hleads, -⟩, -⟩
    exact FileSystem.not_leads_of_resolve hparent rfl parent hleads
  next => cases h; exact absurd rfl (hanswer _)
  next parent hparent =>
    have hleads := FileSystem.leads_of_resolve hparent
    split at h
    next =>
      split at h
      next hnone =>
        cases h
        refine Or.inr ⟨rfl, ?_⟩
        rintro ⟨-, ⟨parent', hleads', rfl⟩, hnode⟩
        exact hnode (hleads'.unique hleads ▸ hnone)
      next => cases h; exact absurd rfl (hanswer _)
      next node _ hnode =>
        split at h
        next => cases h; exact absurd rfl (hanswer _)
        next =>
          cases h
          exact Or.inl ⟨n :: parent, List.cons_ne_nil n parent, ⟨parent, hleads, rfl⟩,
            hnode ▸ Option.some_ne_none node, rfl⟩
    next => cases h; exact absurd rfl (hanswer _)

theorem present_of_removes (h : Removes fs cwd removed fs') :
    Present fs' cwd path ↔ Present fs cwd path ∧ ¬ Takes fs cwd removed path := by
  unfold Removes at h
  split at h
  next hguard =>
    rcases h with ⟨e, he, hdenotes, hnode, rfl⟩ | ⟨rfl, hnot⟩
    · rw [Present, Present, FileSystem.remove, FileSystem.remains_prune, and_assoc]
      refine and_congr_right fun _ => and_congr_right fun _ => ?_
      constructor
      · rintro hstays ⟨-, e', he', -, x, hx, hsuffix⟩
        rw [he'.unique hdenotes] at hsuffix
        exact (FileSystem.stays_remove he).mp (hstays x hx) hsuffix
      · intro hnot x hx
        exact (FileSystem.stays_remove he).mpr fun hsuffix =>
          hnot ⟨hguard, e, hdenotes, hnode, x, hx, hsuffix⟩
    · refine (and_iff_left ?_).symm
      rintro ⟨-, e, hdenotes, hnode, -⟩
      exact hnot ⟨e, hdenotes, hnode⟩
  next hguard =>
    obtain rfl := h
    exact (and_iff_left fun htakes => hguard htakes.1).symm

theorem onWay_of_removes (h : Removes fs cwd removed fs') {x : Location OsString}
    (hx : fs'.OnWay (path.start cwd) path.hops x) : fs.OnWay (path.start cwd) path.hops x := by
  unfold Removes at h
  split at h
  · rcases h with ⟨e, -, -, -, rfl⟩ | ⟨rfl, -⟩
    · exact hx.of_prune
    · exact hx
  · exact h ▸ hx

theorem onWay_removes (h : Removes fs cwd removed fs') (hpresent : Present fs' cwd path)
    {x : Location OsString} (hx : fs.OnWay (path.start cwd) path.hops x) :
    fs'.OnWay (path.start cwd) path.hops x := by
  unfold Removes at h
  split at h
  · rcases h with ⟨e, -, -, -, rfl⟩ | ⟨rfl, -⟩
    · exact hx.prune hpresent.2
    · exact hx
  · exact h ▸ hx

theorem denotes_of_removes (h : Removes fs cwd removed fs') {l e : Location OsString}
    {hops : List (Hop OsString)} (he : fs'.Denotes l hops e) : fs.Denotes l hops e := by
  unfold Removes at h
  split at h
  · rcases h with ⟨e, -, -, -, rfl⟩ | ⟨rfl, -⟩
    · exact he.of_prune
    · exact he
  · exact h ▸ he

theorem Takes.present (h : Takes fs cwd removed path) : Present fs cwd removed := by
  obtain ⟨hguard, e, hdenotes, hnode, -⟩ := h
  exact ⟨(Bool.or_eq_false_iff.mp (not_emptyOrRoot_of_guard hguard)).1, e, hdenotes, hnode⟩

theorem takes_of_removes (h : Removes fs cwd removed fs') (hpresent : Present fs' cwd path) :
    Takes fs' cwd path' path ↔ Takes fs cwd path' path ∧ ¬ Takes fs cwd removed path' := by
  constructor
  · intro htakes
    obtain ⟨⟨-, e', hdenotes', hnode'⟩, hnot⟩ := (present_of_removes h).mp htakes.present
    obtain ⟨hguard, e, hdenotes, -, x, hx, hsuffix⟩ := htakes
    obtain rfl := (denotes_of_removes h hdenotes).unique hdenotes'
    exact ⟨⟨hguard, e, hdenotes', hnode', x, onWay_of_removes h hx, hsuffix⟩, hnot⟩
  · rintro ⟨htakes, hnot⟩
    obtain ⟨-, e', hdenotes', hnode'⟩ := (present_of_removes h).mpr ⟨htakes.present, hnot⟩
    obtain ⟨hguard, e, hdenotes, -, x, hx, hsuffix⟩ := htakes
    obtain rfl := (denotes_of_removes h hdenotes').unique hdenotes
    exact ⟨hguard, e', hdenotes', hnode', x, onWay_removes h hpresent hx, hsuffix⟩

theorem present_of_two (h : RemovesAll cwd fs [removed, path'] fs') :
    Present fs' cwd path ↔ Present fs cwd path ∧ ¬ Takes fs cwd removed path ∧
      ¬ (Takes fs cwd path' path ∧ ¬ Takes fs cwd removed path') := by
  obtain ⟨fs₁, h₁, fs₂, h₂, rfl⟩ := h
  rw [present_of_removes h₂, ← and_assoc, ← present_of_removes h₁]
  exact and_congr_right fun hpresent => not_congr (takes_of_removes h₁ hpresent)

/-! ### The whole cleanup -/

theorem removesAll_of_plays {events : List Event} {paths : List FilePath}
    (h : Plays cwd fs events fs') (hall : ∀ e ∈ events, Succeeds e)
    (hevents : events.map Sigma.fst = (paths.filter guardRemovalPath).map .removeDirAll) :
    RemovesAll cwd fs paths fs' := by
  induction paths generalizing fs events with
  | nil =>
    obtain rfl := List.map_eq_nil_iff.mp hevents
    exact h
  | cons removed paths ih =>
    cases hguard : guardRemovalPath removed with
    | false =>
      rw [List.filter_cons_of_neg (Bool.eq_false_iff.mp hguard)] at hevents
      refine ⟨fs, ?_, ih h hall hevents⟩
      rw [Removes, if_neg (Bool.eq_false_iff.mp hguard)]
    | true =>
      rw [List.filter_cons_of_pos hguard, List.map_cons] at hevents
      obtain ⟨e, es, rfl, hhead, hrest⟩ := List.map_eq_cons_iff.mp hevents
      obtain ⟨removed', answer, stopped, fs₁, rfl, h₁, h₂⟩ := plays_cons h
      obtain rfl := Instr.removeDirAll.inj hhead
      exact ⟨fs₁, removes_of_removeDirAll hguard h₁ (hall _ List.mem_cons_self),
        ih h₂ (fun e he => hall e (List.mem_cons_of_mem _ he)) hrest⟩

theorem components_join_ofName (p : FilePath) (n : OsString) :
    (p.join (.ofName n)).components = p.components ++ [.normal n] := by
  rcases Path.components_join (p := p) (q := .ofName n) rfl with ⟨hempty, heq⟩ | ⟨-, heq⟩
  · rw [heq, hempty]
    rfl
  · exact heq

theorem parent_join_ofName (p : FilePath) (n : OsString) : (p.join (.ofName n)).parent = some p := by
  have hlast : (p.join (.ofName n)).components.getLast? = some (.normal n) := by
    rw [components_join_ofName, List.getLast?_concat]
  cases hparent : (p.join (.ofName n)).parent with
  | none =>
    unfold Path.parent at hparent
    split at hparent
    next hnone => cases hlast.symm.trans hnone
    next hroot => cases hlast.symm.trans hroot
    next => cases hparent
  | some q =>
    obtain ⟨-, hq⟩ := Path.parent_eq_some hparent
    rw [components_join_ofName, List.dropLast_concat] at hq
    rw [Lexical.Path.ext hq]

/-- The root is the directory of the password file, but it never lies below the installation
directory. -/
theorem cleanupPaths_atShutdown (dataDir root : FilePath) (version : Option OsString) :
    cleanupPaths .full (settingsAtShutdown dataDir root version) =
      [dataDir, (settingsAtShutdown dataDir root version).installationDir].filter
        guardRemovalPath := by
  have hparent : (settingsAtShutdown dataDir root version).passwordFile.parent = some root :=
    parent_join_ofName root _
  have hroot : shouldRemoveInstallRoot root (settingsAtShutdown dataDir root version) = false := by
    cases version with
    | none =>
      show (root != root && _ && _) = false
      rw [bne_self_eq_false, Bool.false_and, Bool.false_and]
    | some v =>
      have hstarts : root.startsWith (root.join (.ofName v)) = false := by
        rw [Bool.eq_false_iff]
        intro hstarts
        have hlength := (List.isPrefixOf_iff_prefix.mp hstarts).length_le
        rw [components_join_ofName, List.length_append, List.length_singleton] at hlength
        exact Nat.not_succ_le_self _ hlength
      show (_ && root.startsWith (root.join (.ofName v))) = false
      rw [hstarts, Bool.and_false]
  rw [cleanupPaths, hparent, funext removable_eq]
  simp only [shouldRemoveData, shouldRemoveInstall, if_true, Option.filter_some, hroot,
    Bool.false_eq_true, if_false, Option.toList_none]
  rfl

theorem instrs_workerCleanup_of_not_utf8 (os : Nat → (i : Instr) → i.Answer) {settings : Settings}
    (h : utf8Paths settings = false) : instrs os 0 (workerCleanup .full settings) = [] := by
  show instrs os 0 (runWorkerCleanup true settings) = []
  cases hdata : isUtf8Path settings.dataDir with
  | false => simp [runWorkerCleanup, extractDataDir, extractPath, hdata, instrs]
  | true =>
    cases hinstall : isUtf8Path settings.installationDir with
    | false =>
      simp [runWorkerCleanup, extractDataDir, extractInstallDir, extractPath, hdata, hinstall, instrs]
    | true =>
      have hpassword : ¬ isUtf8Path settings.passwordFile = true := by
        rw [utf8Paths, hdata, hinstall, Bool.true_and, Bool.true_and] at h
        exact Bool.eq_false_iff.mp h
      simp only [runWorkerCleanup, extractDataDir, extractInstallDir, extractInstallRoot,
        extractPath, if_pos hdata, if_pos hinstall, if_neg hpassword]
      rfl

theorem plays_append {es es' : List Event} (h : Plays cwd fs (es ++ es') fs') :
    ∃ fs₁, Plays cwd fs es fs₁ ∧ Plays cwd fs₁ es' fs' := by
  induction es generalizing fs with
  | nil => exact ⟨fs, rfl, h⟩
  | cons e es ih =>
    obtain ⟨path, answer, stopped, fs₂, rfl, h₁, h₂⟩ := plays_cons h
    obtain ⟨fs₁, hes, hes'⟩ := ih h₂
    exact ⟨fs₁, ⟨stopped, fs₂, h₁, hes⟩, hes'⟩

/-- The shutdown removes the data directory and what the installation directory is then, whoever
manages the cluster. -/
theorem removesAll_of_fullCleanup {dataDir root : FilePath} {version : Option OsString}
    {managed : Bool} {worker os : Nat → (i : Instr) → i.Answer}
    (h : Plays cwd fs (fullCleanup managed (settingsAtShutdown dataDir root version) worker os) fs')
    (hall : ∀ e ∈ fullCleanup managed (settingsAtShutdown dataDir root version) worker os,
      Succeeds e) :
    RemovesAll cwd fs
      [dataDir, (settingsAtShutdown dataDir root version).installationDir] fs' := by
  have hdirs := cleanupPaths_atShutdown dataDir root version
  generalize settingsAtShutdown dataDir root version = settings at h hall hdirs ⊢
  have hpaths : ∀ os', instrs os' 0 (cleanupInProcess .full settings) =
      ([dataDir, settings.installationDir].filter guardRemovalPath).map .removeDirAll := fun os' => by
    rw [instrs_cleanupInProcess, hdirs]
  obtain ⟨fs₁, hworker, hprocess⟩ := plays_append h
  have hall' := fun e he => hall e (List.mem_append_right _ he)
  by_cases hmade : managed = true ∧ utf8Paths settings = true
  · -- The worker has removed everything, and nothing is left for the process.
    obtain ⟨rfl, hutf8⟩ := hmade
    rw [if_pos rfl] at hworker
    have hsame : instrs worker 0 (workerCleanup .full settings) =
        instrs os 0 (cleanupInProcess .full settings) := by
      rw [instrs_workerCleanup worker 0 .full hutf8, instrs_cleanupInProcess]
    have hall₁ : ∀ e ∈ (workerCleanup .full settings).trace worker 0, Succeeds e :=
      fun e he => hall e (List.mem_append_left _ he)
    obtain rfl : fs' = fs₁ := plays_of_gone hprocess fun path answer hmem => by
      have hpath : Instr.removeDirAll path ∈ instrs worker 0 (workerCleanup .full settings) :=
        hsame ▸ List.mem_map.mpr ⟨_, hmem, rfl⟩
      obtain ⟨⟨i, answer'⟩, hevent, rfl⟩ := List.mem_map.mp hpath
      exact gone_of_plays hworker hall₁ ⟨answer', hevent⟩
    exact removesAll_of_plays hworker hall₁ (hsame.trans (hpaths os))
  · have hnone : (if managed then (workerCleanup .full settings).trace worker 0 else []) = [] := by
      split
      next hmanaged =>
        exact List.map_eq_nil_iff.mp (instrs_workerCleanup_of_not_utf8 worker
          (Bool.eq_false_iff.mpr fun hutf8 => hmade ⟨hmanaged, hutf8⟩))
      next => rfl
    rw [hnone] at hworker
    obtain rfl : fs₁ = fs := hworker
    exact removesAll_of_plays hprocess hall' (hpaths os)

theorem takes_self (hguard : guardRemovalPath path = true) (h : Present fs cwd path) :
    Takes fs cwd path path := by
  obtain ⟨-, e, hdenotes, hnode⟩ := h
  exact ⟨hguard, e, hdenotes, hnode, e, Or.inr hdenotes, List.suffix_rfl⟩

/-- **The root goes with a full cleanup** just when nothing was there, or the data directory takes it, or
the installation directory of the shutdown takes it and is not itself gone with the data directory. An
installation directory that still is the root takes it, if the guard lets it pass. -/
theorem full_cleanup_root_iff {dataDir root : FilePath} {version : Option OsString}
    {managed : Bool} {worker os : Nat → (i : Instr) → i.Answer} {installDir : FilePath}
    (hinstall : installDir = (settingsAtShutdown dataDir root version).installationDir)
    (h : Plays cwd fs (fullCleanup managed (settingsAtShutdown dataDir root version) worker os) fs')
    (hall : ∀ e ∈ fullCleanup managed (settingsAtShutdown dataDir root version) worker os,
      Succeeds e) :
    (¬ Present fs' cwd root ↔ ¬ Present fs cwd root ∨ Takes fs cwd dataDir root ∨
      Takes fs cwd installDir root ∧ ¬ Takes fs cwd dataDir installDir) ∧
    (version = none → guardRemovalPath root = true → ¬ Present fs' cwd root) := by
  subst hinstall
  have hpresent : Present fs' cwd root ↔ _ := present_of_two (removesAll_of_fullCleanup h hall)
  refine ⟨?_, ?_⟩
  · rw [hpresent, not_and_or, not_and_or, not_not, not_not]
  · rintro rfl hguard
    rw [hpresent]
    rintro ⟨hroot, hdata, hnot⟩
    exact hnot ⟨takes_self hguard hroot, hdata⟩

/-! ### A root that stays -/

/-- The data directory `/d`, the root `/i` with its `.pgpass`, and a version `/i/v`. -/
def resolvedTree : FileSystem OsString :=
  .ofList [([], .dir 0), ([[100]], .dir 0), ([[105]], .dir 0),
    ([[46, 112, 103, 112, 97, 115, 115], [105]], .file 0 []), ([[118], [105]], .dir 0)]

def cleanedTree : FileSystem OsString := (resolvedTree.remove [[100]]).remove [[118], [105]]

def bothRemoved (_ : Nat) : (i : Instr) → i.Answer
  | .removeDirAll _ => .removed
  | _ => default

theorem plays_resolvedTree : Plays [] resolvedTree
    (fullCleanup false (settingsAtShutdown (Path.absolute [[100]]) (Path.absolute [[105]])
      (some [118])) bothRemoved bothRemoved) cleanedTree := by
  rw [fullCleanup, if_neg Bool.false_ne_true, List.nil_append, trace_eq_mapIdx,
    instrs_cleanupInProcess, cleanupPaths_atShutdown]
  exact ⟨none, _, rfl, none, _, rfl, rfl⟩

theorem succeeds_resolvedTree : ∀ e ∈ fullCleanup false (settingsAtShutdown (Path.absolute [[100]])
    (Path.absolute [[105]]) (some [118])) bothRemoved bothRemoved, Succeeds e := by
  intro e he
  obtain ⟨path, hpath⟩ : ∃ path, e = ⟨.removeDirAll path, .removed⟩ := by
    rw [fullCleanup, if_neg Bool.false_ne_true, List.nil_append, trace_eq_mapIdx,
      instrs_cleanupInProcess] at he
    obtain ⟨k, hk, rfl⟩ := List.mem_mapIdx.mp he
    rw [List.getElem_map]
    exact ⟨_, rfl⟩
  subst hpath
  exact nofun

/-- The version goes, and the root with the password file stays. -/
theorem full_cleanup_root_resolved : ¬ ∀ (dataDir root : FilePath) (version : Option OsString)
    (managed : Bool) (worker os : Nat → (i : Instr) → i.Answer) (cwd : Location OsString)
    (fs fs' : FileSystem OsString),
    Plays cwd fs (fullCleanup managed (settingsAtShutdown dataDir root version) worker os) fs' →
      (∀ e ∈ fullCleanup managed (settingsAtShutdown dataDir root version) worker os, Succeeds e) →
        ¬ Present fs' cwd root := by
  intro h
  exact h _ _ _ _ _ _ _ _ _ plays_resolvedTree succeeds_resolvedTree
    ⟨rfl, [[105]], ⟨[], .here [], rfl⟩, by decide⟩

theorem full_cleanup_root_iff_resolved :
    ¬ Present cleanedTree [] (Path.absolute [[105]]) ↔
      ¬ Present resolvedTree [] (Path.absolute [[105]]) ∨
        Takes resolvedTree [] (Path.absolute [[100]]) (Path.absolute [[105]]) ∨
        Takes resolvedTree [] (Path.absolute [[105], [118]]) (Path.absolute [[105]]) ∧
          ¬ Takes resolvedTree [] (Path.absolute [[100]]) (Path.absolute [[105], [118]]) :=
  (full_cleanup_root_iff rfl plays_resolvedTree succeeds_resolvedTree).1

end PgEmbeddedSetup.Worker
