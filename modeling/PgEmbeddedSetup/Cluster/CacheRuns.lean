import PgEmbeddedSetup.Cluster.CacheSharing

/-!
# What the processes of a shared cache do

The programs are followed call by call, with what the process knows. A process that ends has no lock,
and after a hit it knows that its installation directory holds a whole tree (`wp_process`).
-/

namespace PgEmbeddedSetup.CacheIntegration

open Program Posix FileSystem Lexical Cache Installation Fs Interleave Transition LockTable
open Cluster (FilePath)
open Env (OsString)
open Worker (isUtf8Path)

namespace Site

variable {T V R : Type} {site : Site T V R} {fs : FileTree} {α : Type}

theorem spec_monotone : (site.spec fs).Monotone := by
  intro i k Q Q' hQ h
  cases i with
  | call c =>
    cases c with
    | io i =>
      intro s hsteady hs x
      obtain ⟨nodes, hq, hrest⟩ := h s hsteady hs x
      exact ⟨nodes, hQ _ _ hq, hrest⟩
    | openLock path =>
      obtain ⟨version, hversion, hpath, hfailed, hopened⟩ := h
      exact ⟨version, hversion, hpath, fun e => hQ _ _ (hfailed e), hQ _ _ hopened⟩
    | flock file type =>
      obtain ⟨hlock, version, hversion, hfile, hfailed, htaken⟩ := h
      exact ⟨hlock, version, hversion, hfile, fun e => hQ _ _ (hfailed e),
        fun nodes hhome hok => hQ _ _ (htaken nodes hhome hok)⟩
    | close file =>
      obtain ⟨hold, hlock, hfile, hok, hq⟩ := h
      exact ⟨hold, hlock, hfile, hok, hQ _ _ hq⟩
  | setup cacheHit =>
    cases cacheHit with
    | true => exact ⟨h.1, fun succeeds => hQ _ _ (h.2 succeeds)⟩
    | false => exact ⟨h.1, fun succeeds nodes hnodes => hQ _ _ (h.2 succeeds nodes hnodes)⟩

/-- The spec of the calls of the cache. -/
def callSpec (site : Site T V R) (fs : FileTree) : Spec Call Call.Reply (Knowledge T) :=
  fun c k Q => site.spec fs (.call c) k Q

theorem callSpec_monotone : (site.callSpec fs).Monotone :=
  fun c k Q Q' hQ h => spec_monotone (.call c) k Q Q' hQ h

theorem wp_onCache (p : Routine α) (k : Knowledge T) (Q : α → Knowledge T → Prop) :
    wp (site.spec fs) (onCache p) k Q = wp (site.callSpec fs) p k Q :=
  wp_interp p k Q

/-! ### Calls of files -/

section Files

variable {t : T} {lock : Option Hold} {nodes : Nodes}

theorem callSpec_io (hfit : site.Fit fs) (hversion : ∀ h, lock = some h → site.IsVersion h.version)
    {i : Instr} {Q : i.Reply → Nodes → Prop}
    (h : (site.territory fs t lock).spec site.umask i nodes Q) :
    site.callSpec fs (.io i) ⟨t, nodes, lock⟩ fun r k =>
      ∃ nodes', k = ⟨t, nodes', lock⟩ ∧ Q r nodes' := by
  have hlocks : ∀ l, (site.territory fs t lock).mine l → ¬ (locksSubdir :: site.entries) <:+ l := by
    rintro l (hhome | ⟨hold, hlock, -, hentry⟩)
    · exact home_not_locks hfit hhome
    · exact entry_not_locks hfit (hversion hold hlock) hentry
  intro s hsteady hs x
  obtain ⟨nodes', hq, hs', hframe⟩ := h s hs x
  have hsame : ∀ l, (locksSubdir :: site.entries) <:+ l →
      (unfailing site.umask s i x).2.node l = s.node l := fun l hl =>
    hframe l fun hmine => hlocks l hmine hl
  refine ⟨nodes', ⟨nodes', rfl, hq⟩, hs', ⟨?_, fun version node hversion hnode => ?_⟩,
    fun l hl _ => hframe l hl⟩
  · rw [IsDir, hsame _ List.suffix_rfl]
    exact hsteady.dir
  · refine hsteady.file version node hversion ((hsame _ ?_).symm.trans hnode)
    exact List.suffix_cons _ _

theorem wp_io (hfit : site.Fit fs) (hversion : ∀ h, lock = some h → site.IsVersion h.version)
    {p : Code α} {Q : α → Nodes → Prop}
    (h : Surely ((site.territory fs t lock).spec site.umask) Q p nodes) :
    wp (site.callSpec fs) (io p) ⟨t, nodes, lock⟩ fun r k =>
      ∃ nodes', k = ⟨t, nodes', lock⟩ ∧ ∃ a, r = .ok a ∧ Q a nodes' := by
  unfold io
  rw [wp_interp]
  exact wp_embed (fun i k Q Q' hQ hi => callSpec_monotone (.io i) k Q Q' hQ hi)
    (fun nodes => (⟨t, nodes, lock⟩ : Knowledge T)) (fun _ _ _ hi => callSpec_io hfit hversion hi) h

/-- A call that only reads. -/
def Reads : Call → Prop
  | .io (.stat _) | .io (.fileType _) | .io (.readDir _) | .io (.readLink _)
  | .io (.openRead _) => True
  | _ => False

theorem reads_spec (c : Call) (k : Knowledge T) (Q : c.Reply → Knowledge T → Prop) (hc : Reads c)
    (hQ : ∀ r, Q r k) : site.callSpec fs c k Q := by
  have hreads : ∀ i : Instr, Reads (.io i) → ∀ s x, (unfailing site.umask s i x).2 = s := by
    intro i hi s x
    cases i with
    | stat _ | fileType _ | readDir _ | readLink _ | openRead _ => rfl
    | mkdir _ | symlink _ _ | create _ _ | fchmod _ _ | copyRange _ _ | chmod _ _ => exact hi.elim
  cases c with
  | io i =>
    intro s hsteady hs x
    refine ⟨k.nodes, hQ _, ?_⟩
    rw [hreads i hc s x]
    exact ⟨hs, hsteady, fun _ _ _ => rfl⟩
  | openLock _ | flock _ _ | close _ => exact hc.elim

theorem wp_reads {p : Routine α} {Q : α → Prop} (hp : p.Meets Reads Q) (k : Knowledge T) :
    wp (site.callSpec fs) p k fun a k' => Q a ∧ k' = k :=
  wp_of_meets reads_spec hp k

end Files

/-! ### The lookup -/

section Lookup

variable [LinearOrder V]

theorem reads_pathIsDirectory (path : FsPath) :
    (pathIsDirectory path).run.All fun i => Reads (.io i) := by
  refine ⟨trivial, fun r => ?_⟩
  cases r with
  | ok found =>
    obtain ⟨kind, mode⟩ := found
    cases kind <;> trivial
  | error e => trivial

theorem reads_isCacheEntryComplete (path : FsPath) :
    (isCacheEntryComplete path).run.All fun i => Reads (.io i) := by
  refine ⟨trivial, fun r => ?_⟩
  cases r with
  | ok found => exact reads_pathIsDirectory _
  | error e => trivial

theorem reads_io {p : Code α} (hp : p.run.All fun i => Reads (.io i)) :
    (io p).Meets Reads fun _ => True := by
  have hcall : ∀ i, Reads (.io i) →
      (Prog.call (Call.io i) : Routine (Call.Reply (.io i))).All Reads :=
    fun i hi => ⟨hi, fun _ => trivial⟩
  exact (hp.interp hcall).meets

/-- The version that is found was parsed from a name, and the requirement accepts it. -/
def Accepted (semver : Semver V R) (req : R) (version : String) : Prop :=
  ∃ v, semver.parse version = some v ∧ semver.accepts req v = true

theorem meets_findMatching {semver : Semver V R}
    (hdisplay : ∀ text v, semver.parse text = some v → semver.display v = text) (cacheDir : FsPath)
    (req : R) : (findMatchingCachedVersion semver cacheDir req).Meets Reads
      fun found => ∀ version path, found = some (version, path) → Accepted semver req version := by
  have hentry : ∀ name, (tryParseCacheEntry semver cacheDir req name).Meets Reads
      fun e => ∀ v path, e = some (v, path) → Accepted semver req (semver.display v) := by
    intro name
    unfold tryParseCacheEntry
    cases hname : toStr name with
    | none => exact fun v path h => by cases h
    | some text =>
      simp only
      split
      next => exact fun v path h => by cases h
      next =>
        cases hparse : semver.parse text with
        | none => exact fun v path h => by cases h
        | some version =>
          simp only
          split
          next haccepts =>
            refine (reads_io (reads_isCacheEntryComplete _)).bind fun complete _ => ?_
            split
            next =>
              intro v path h
              cases h
              rw [hdisplay text version hparse]
              exact ⟨version, hparse, haccepts⟩
            next => exact fun v path h => by cases h
          next => exact fun v path h => by cases h
  refine ⟨trivial, fun listing => ?_⟩
  cases listing with
  | error e => exact fun version path h => by cases h
  | ok listing =>
    show (List.foldlM (maxByVersion semver cacheDir req) none listing.1 >>= fun best =>
      pure (best.map fun entry => (semver.display entry.1, entry.2))).Meets Reads _
    have hnone : ∀ v path, (none : Option (V × FsPath)) = some (v, path) →
        Accepted semver req (semver.display v) := fun v path h => by cases h
    refine Prog.Meets.bind (Prog.Meets.foldlM (Q := fun best : Option (V × FsPath) => ∀ v path,
      best = some (v, path) → Accepted semver req (semver.display v)) (fun best name hbest => ?_)
      hnone) fun best hbest => ?_
    · refine (hentry name).bind fun e he => ?_
      cases e with
      | none => exact hbest
      | some entry =>
        intro v path h
        cases best with
        | none =>
          cases h
          exact he v path rfl
        | some b =>
          rw [List.later, Option.elim_some, Option.some.injEq] at h
          split at h
          next =>
            cases h
            exact he v path rfl
          next => exact hbest v path (congrArg some h)
    · rintro version path h
      obtain ⟨⟨v, path'⟩, hv, heq⟩ := Option.map_eq_some_iff.mp h
      cases heq
      exact hbest v path' hv

end Lookup

/-! ### The lock -/

section Locks

variable {t : T} {nodes : Nodes} {version : OsString} {type : LockType}

theorem wp_makeLocks (hfit : site.Fit fs) :
    wp (site.callSpec fs) (io (createDirAll (.name locksSubdir :: site.cacheDir t)))
      ⟨t, nodes, none⟩ fun _ k => k = ⟨t, nodes, none⟩ := by
  have hrest : ∀ e, wp (site.callSpec fs)
      (io (orDirectory (.name locksSubdir :: site.cacheDir t) (.error e))) ⟨t, nodes, none⟩
      fun _ k => k = ⟨t, nodes, none⟩ := by
    intro e
    refine reads_spec _ _ _ trivial fun r => ?_
    cases r with
    | ok found =>
      obtain ⟨kind, mode⟩ := found
      cases kind <;> rfl
    | error e => rfl
  intro s hsteady hs x
  have hbound := (hfit.cacheBound t).grows hs.grown
  have hact := makeEntry_bound hbound locksSubdir (.dir (madeMode site.umask))
  rcases hsteady.dir with hnone | hdir
  · rw [hnone] at hact
    have heq : unfailing site.umask s (.mkdir (.name locksSubdir :: site.cacheDir t)) x =
        (.ok (), s.set (locksSubdir :: site.entries) (.dir (madeMode site.umask))) := hact
    have hwrites := writes_new hnone hbound.isDir (.dir (madeMode site.umask))
    rw [heq]
    refine ⟨nodes, rfl, ⟨hs.grown.trans (hwrites.grows_new hnone), fun l hl => ?_⟩,
      ⟨Or.inr (isDir_iff.mpr ⟨_, hwrites.self⟩), fun version node hversion hnode => ?_⟩,
      fun l _ hne => hwrites.other hne⟩
    · rcases hl with hhome | ⟨hold, hsome, -⟩
      · refine (hwrites.other ?_).trans (hs.node l (Or.inl hhome))
        rintro rfl
        exact home_not_locks hfit hhome List.suffix_rfl
      · cases hsome
    · refine hsteady.file version node hversion ((hwrites.other fun heq => ?_).symm.trans hnode)
      have hlength := congrArg List.length heq
      simp [lockFile] at hlength
  · obtain ⟨mode, hmode⟩ := isDir_iff.mp hdir
    rw [hmode] at hact
    have heq : unfailing site.umask s (.mkdir (.name locksSubdir :: site.cacheDir t)) x =
        (.error .alreadyExists, s) := hact
    rw [heq]
    exact ⟨nodes, hrest _, hs, hsteady, fun _ _ _ => rfl⟩

theorem wp_acquire (hfit : site.Fit fs) (hversion : site.IsVersion version)
    {Q : Except Errno Place → Knowledge T → Prop} (hfailed : ∀ e, Q (.error e) ⟨t, nodes, none⟩)
    (htaken : ∀ nodes', (∀ l, site.home t <:+ l → nodes' l = nodes l) →
      site.EntryOk version (subtree nodes' (site.entry version)) →
      Q (.ok (site.lockFile version))
        ⟨t, nodes', some ⟨version, type, (nodes' (site.entry version)).isNone⟩⟩) :
    wp (site.callSpec fs) (acquire (site.cacheDir t) version type) ⟨t, nodes, none⟩ Q := by
  unfold acquire
  split
  next =>
    rw [wp_bind]
    refine wp_mono callSpec_monotone (fun r k hk => ?_) (wp_makeLocks hfit)
    subst hk
    cases r with
    | error e => exact hfailed e
    | ok _ =>
      refine ⟨version, hversion, rfl, hfailed, rfl, version, hversion, rfl, hfailed, htaken⟩
  next => exact hfailed _

end Locks

/-! ### Entries -/

section Entries

variable {t : T} {nodes : Nodes} {version : OsString} {tree : Nodes} {mode : Nat}

theorem fsPath_child (cwd : Place) (path : FilePath) (name : OsString) :
    fsPath cwd (path.join (.ofName name)) = .name name :: fsPath cwd path := by
  unfold fsPath
  rw [hops_join rfl, Path.isAbsolute_join rfl, List.reverse_append]
  rfl

theorem withMarker_bin (tree : Nodes) : withMarker mode tree [binDir] = tree [binDir] :=
  Function.update_of_ne (by decide +kernel) ..

theorem withMarker_top (tree : Nodes) : withMarker mode tree [] = tree [] :=
  Function.update_of_ne (List.cons_ne_nil _ _).symm ..

theorem deep_marked {depth : Nat} (h : Whole depth tree) (y : Place)
    (hy : withMarker mode tree y ≠ none) : y.length < depth := by
  by_cases heq : y = [completionMarker]
  · subst heq
    obtain ⟨mode', hmode'⟩ := h.bin
    exact h.deep [binDir] (hmode' ▸ Option.some_ne_none _)
  · rw [withMarker, Function.update_of_ne heq] at hy
    exact h.deep y hy

theorem wp_checkCache (hfit : site.Fit fs) {hold : Hold} (hversion : site.IsVersion hold.version)
    (hok : site.EntryOk hold.version (subtree nodes (site.entry hold.version))) :
    wp (site.callSpec fs) (io (checkCache (site.cacheDir t) hold.version)) ⟨t, nodes, some hold⟩
      fun r k => k = ⟨t, nodes, some hold⟩ ∧
        r = .ok (nodes (site.entry hold.version)).isSome := by
  have hknown : ∀ y, (site.territory fs t (some hold)).known (y ++ site.entry hold.version) :=
    fun y => Or.inr ⟨hold, rfl, List.suffix_append y _⟩
  have hcache : (site.territory fs t (some hold)).Leads nodes (site.cacheDir t) site.entries :=
    .start (hfit.cacheBound t)
  have hhold : ∀ h, some hold = some h → site.IsVersion h.version := by
    rintro h ⟨⟩
    exact hversion
  rcases hok with hnone | ⟨mode, source, hgenuine, htree⟩
  · have hentry : nodes (site.entry hold.version) = none := hnone []
    refine wp_mono callSpec_monotone ?_
      (wp_io hfit hhold (Territory.surely_checkCache_missing hcache (hknown []) hentry))
    rintro r k ⟨nodes', rfl, hit, rfl, rfl, rfl⟩
    exact ⟨rfl, by rw [hentry]; rfl⟩
  · obtain ⟨topMode, htop⟩ := hgenuine.1.top
    obtain ⟨binMode, hbin⟩ := hgenuine.1.bin
    have hnode : ∀ y, nodes (y ++ site.entry hold.version) = withMarker mode source y :=
      fun y => congrFun htree y
    have hentry : nodes (site.entry hold.version) = some (.dir topMode) :=
      (hnode []).trans ((withMarker_top source).trans htop)
    have hmarker : nodes (completionMarker :: site.entry hold.version) = some (.file mode []) :=
      (hnode [completionMarker]).trans (Function.update_self ..)
    have hbin' : nodes (binDir :: site.entry hold.version) = some (.dir binMode) :=
      (hnode [binDir]).trans ((withMarker_bin source).trans hbin)
    refine wp_mono callSpec_monotone ?_ (wp_io hfit hhold
      (Territory.surely_checkCache_complete (.child hcache (hknown []) hentry) hknown hmarker rfl
        hbin'))
    rintro r k ⟨nodes', rfl, hit, rfl, rfl, rfl⟩
    exact ⟨rfl, by rw [hentry]; rfl⟩

theorem apart_entry (hfit : site.Fit fs) (t : T) (version version' : OsString) :
    Apart (site.entry version) (version' :: site.home t) :=
  Territory.apart_cons ⟨(hfit.outside t).2, (hfit.outside t).1⟩ version version'

theorem copying_use (hfit : site.Fit fs) {hold : Hold} {source : Nodes}
    (hwhole : Whole site.depth source)
    (htree : subtree nodes (site.entry hold.version) = withMarker mode source)
    (hvacant : ∀ y, nodes (y ++ hold.version :: site.home t) = none) :
    (site.territory fs t (some hold)).Copying nodes (.name hold.version :: site.cacheDir t)
      (.name hold.version :: fsPath (site.cwd t) (site.settings t).installationDir)
      (site.entry hold.version) (hold.version :: site.home t) site.depth := by
  have hknown : ∀ y, (site.territory fs t (some hold)).known (y ++ site.entry hold.version) :=
    fun y => Or.inr ⟨hold, rfl, List.suffix_append y _⟩
  have hhome : ∀ y, site.home t <:+ y ++ hold.version :: site.home t := fun y =>
    (List.suffix_cons hold.version (site.home t)).trans (List.suffix_append y _)
  obtain ⟨topMode, htop⟩ := hwhole.top
  have hentry : nodes (site.entry hold.version) = some (.dir topMode) :=
    (congrFun htree []).trans ((withMarker_top source).trans htop)
  exact {
    apart := apart_entry hfit t hold.version hold.version
    source := .child (.start (hfit.cacheBound t)) (hknown []) hentry
    dir := ⟨topMode, hentry⟩
    target := .missing (.start (hfit.homeBound t)) (hvacant [])
    read := hknown
    known := fun y => Or.inl (hhome y)
    mine := fun y => Or.inl (hhome y)
    empty := fun y _ => hvacant y
    deep := fun y hy => deep_marked hwhole y (by rwa [← congrFun htree y]) }

/-- What `try_use_binary_cache` leaves when it returns true. -/
def Used (site : Site T V R) (t : T) (settings : Settings R) (nodes : Nodes) : Prop :=
  ∃ version mode source, Accepted site.semver (site.settings t).version version ∧
    settings.installationDir = (site.settings t).installationDir.join (.ofName (osString version)) ∧
    site.Genuine (osString version) source ∧
    subtree nodes (osString version :: site.home t) = withMarker mode source

/-- The result of the lookup, and what the process knows then. -/
def TriedUse (site : Site T V R) (t : T) (nodes : Nodes) (r : Bool × Settings R)
    (nodes' : Nodes) : Prop :=
  (r.1 = true → site.Used t r.2 nodes') ∧
    (r.1 = false → r.2 = site.settings t ∧ ∀ l, site.home t <:+ l → nodes' l = nodes l)

theorem tried_miss (hhome : ∀ l, site.home t <:+ l → tree l = nodes l) :
    site.TriedUse t nodes (false, site.settings t) tree :=
  ⟨fun h => (by cases h), fun _ => ⟨rfl, hhome⟩⟩

theorem setExactVersion_dir [LinearOrder V] (semver : Semver V R) (settings : Settings R)
    (version : String) :
    (setExactVersion semver settings version).installationDir = settings.installationDir := by
  unfold setExactVersion
  split <;> rfl

theorem wp_useEntry [LinearOrder V] (hfit : site.Fit fs) {text : String} {hold : Hold}
    (hversion : site.IsVersion hold.version) (htext : osString text = hold.version)
    (haccepted : Accepted site.semver (site.settings t).version text)
    (hok : site.EntryOk hold.version (subtree nodes (site.entry hold.version)))
    (hvacant : ∀ y, nodes (y ++ hold.version :: site.home t) = none) :
    wp (site.callSpec fs)
      (useEntry site.semver (site.cwd t) site.depth (site.cacheDir t) text (site.settings t))
      ⟨t, nodes, some hold⟩ fun r k => ∃ nodes', k = ⟨t, nodes', some hold⟩ ∧
        site.TriedUse t nodes r nodes' ∧
        site.EntryOk hold.version (subtree nodes' (site.entry hold.version)) := by
  unfold useEntry
  rw [wp_bind, htext]
  refine wp_mono callSpec_monotone ?_ (wp_checkCache hfit hversion hok)
  rintro r k ⟨rfl, rfl⟩
  have hmiss : ∃ nodes', (⟨t, nodes, some hold⟩ : Knowledge T) = ⟨t, nodes', some hold⟩ ∧
      site.TriedUse t nodes (false, site.settings t) nodes' ∧
      site.EntryOk hold.version (subtree nodes' (site.entry hold.version)) :=
    ⟨nodes, rfl, tried_miss fun _ _ => rfl, hok⟩
  rcases hok with hnone | ⟨mode, source, hgenuine, htree⟩
  · have hentry : nodes (site.entry hold.version) = none := hnone []
    rw [hentry]
    exact hmiss
  · obtain ⟨topMode, htop⟩ := hgenuine.1.top
    have hentry : nodes (site.entry hold.version) = some (.dir topMode) :=
      (congrFun htree []).trans ((withMarker_top source).trans htop)
    rw [hentry]
    show wp _ (applyCachedBinaries site.semver (site.cwd t) site.depth
      (.name hold.version :: site.cacheDir t) text (site.settings t)) _ _
    unfold applyCachedBinaries copyCachedBinaries
    split
    next =>
      have hcopy := copying_use (t := t) hfit hgenuine.1 htree hvacant
      rw [wp_bind, wp_bind, htext, fsPath_child]
      have hhold : ∀ h, some hold = some h → site.IsVersion h.version := by
        rintro h ⟨⟩
        exact hversion
      refine wp_mono callSpec_monotone ?_
        (wp_io hfit hhold (Territory.surely_copyFromCache hcopy))
      rintro r k ⟨nodes', rfl, _, rfl, hfilled⟩
      refine ⟨nodes', rfl, ⟨fun _ => ⟨text, mode, source, haccepted, ?_, ?_, ?_⟩,
        fun h => by cases h⟩, Or.inr ⟨mode, source, hgenuine, ?_⟩⟩
      · rw [setExactVersion_dir, htext]
      · rw [htext]
        exact hgenuine
      · rw [htext, ← htree]
        funext y
        exact hfilled.equal y
      · rw [← htree]
        funext y
        exact hfilled.frame _ (by simpa using hcopy.apart.not_suffix y [])
    next => exact hmiss


theorem above_home (hhome : ∀ l, site.home t <:+ l → tree l = nodes l) (y : Place)
    (version : OsString) :
    tree (y ++ version :: site.home t) = nodes (y ++ version :: site.home t) :=
  hhome _ ((List.suffix_cons version (site.home t)).trans (List.suffix_append y _))

theorem wp_tryUse [LinearOrder V] (hfit : site.Fit fs)
    (hvacant : ∀ version, site.IsVersion version → ∀ y, nodes (y ++ version :: site.home t) = none) :
    wp (site.callSpec fs)
      (tryUseBinaryCache site.semver (site.cwd t) site.depth (site.cacheDir t)
        (site.settings t).version (site.settings t))
      ⟨t, nodes, none⟩ fun r k => ∃ nodes', k = ⟨t, nodes', none⟩ ∧
        site.TriedUse t nodes r nodes' := by
  have hmiss : ∀ tree, (∀ l, site.home t <:+ l → tree l = nodes l) →
      ∃ nodes', (⟨t, tree, none⟩ : Knowledge T) = ⟨t, nodes', none⟩ ∧
        site.TriedUse t nodes (false, site.settings t) nodes' :=
    fun tree htree => ⟨tree, rfl, tried_miss htree⟩
  unfold tryUseBinaryCache
  rw [wp_bind]
  refine wp_mono callSpec_monotone ?_ (wp_reads (meets_findMatching hfit.display _ _) _)
  rintro found k ⟨hfound, rfl⟩
  cases found with
  | none => exact hmiss nodes fun _ _ => rfl
  | some found =>
    obtain ⟨text, path⟩ := found
    have haccepted := hfound text path rfl
    have hversion : site.IsVersion (osString text) := by
      obtain ⟨v, hparse, -⟩ := haccepted
      exact ⟨text, v, hparse, rfl⟩
    simp only
    rw [wp_bind]
    refine wp_acquire hfit hversion (fun e => hmiss nodes fun _ _ => rfl) fun tree htree hok => ?_
    simp only
    rw [wp_bind]
    let hold : Hold := ⟨osString text, .shared, (tree (site.entry (osString text))).isNone⟩
    have hheld : site.IsVersion hold.version := hversion
    refine wp_mono callSpec_monotone ?_ (wp_useEntry hfit hheld rfl haccepted hok fun y => ?_)
    · rintro r k ⟨nodes', rfl, htried, hok'⟩
      refine ⟨_, rfl, rfl, hok', nodes', rfl, htried.1, fun hfalse => ?_⟩
      obtain ⟨hsettings, hhome⟩ := htried.2 hfalse
      exact ⟨hsettings, fun l hl => (hhome l hl).trans (htree l hl)⟩
    · exact (above_home htree y _).trans (hvacant _ hversion y)


end Entries

/-! ### What was installed -/

section Installed

variable {t : T} {nodes : Nodes}

/-- The entry is in `pack`, as far as the lookup says. -/
def EntryFits (site : Site T V R) (t : T) (entry : DirEntry) : Prop :=
  entry.isDir = some true → (site.pack t).IsDir (entry.name :: site.base t) ∧
    (entry.hasBin = true → (site.pack t).node (binDir :: entry.name :: site.base t) ≠ none)

/-- So is what the lookup finds. -/
structure ViewFits (site : Site T V R) (t : T) (view : View) : Prop where
  hasBin : view.hasBin = true → (site.pack t).node (binDir :: site.base t) ≠ none
  entries : ∀ listing, view.listing = some listing → ∀ entry, some entry ∈ listing →
    site.EntryFits t entry

/-- The installation directory holds what was installed. -/
def Holds (site : Site T V R) (t : T) (nodes : Nodes) : Prop :=
  ∀ y, nodes (y ++ site.home t) = (site.pack t).node y

theorem known_home (lock : Option Hold) (y : Place) :
    (site.territory fs t lock).known (y ++ site.home t) :=
  Or.inl (List.suffix_append y _)

theorem leads_installed (hfit : site.Fit fs) (lock : Option Hold) (hholds : site.Holds t nodes)
    {rel : Place} (hdir : (site.pack t).IsDir rel) :
    (site.territory fs t lock).Leads nodes
      (rel.map .name ++ fsPath (site.cwd t) (site.settings t).installationDir)
      (rel ++ site.home t) := by
  induction rel with
  | nil => exact .start (hfit.homeBound t)
  | cons n rel ih =>
    obtain ⟨mode, hmode⟩ := isDir_iff.mp hdir
    exact .child (ih (isDir_tail hdir)) (known_home lock (n :: rel)) ((hholds (n :: rel)).trans hmode)

theorem leads_base (hfit : site.Fit fs) (lock : Option Hold) (hholds : site.Holds t nodes) :
    (site.territory fs t lock).Leads nodes (fsPath (site.cwd t) (site.installed t))
      (site.base t ++ site.home t) := by
  rw [hfit.installed t]
  exact leads_installed hfit lock hholds (hfit.base t)

theorem no_lock {site : Site T V R} : ∀ h, (none : Option Hold) = some h → site.IsVersion h.version :=
  fun _ h => by cases h

theorem wp_readInstalled (hfit : site.Fit fs) (hholds : site.Holds t nodes) (name : OsString) :
    wp (site.callSpec fs) (readInstalled (site.cwd t) (site.installed t) name) ⟨t, nodes, none⟩
      fun entry k => (∀ e, entry = some e → site.EntryFits t e) ∧ k = ⟨t, nodes, none⟩ := by
  have hbase := leads_base hfit none hholds
  have hknown : (site.territory fs t none).known (name :: site.base t ++ site.home t) :=
    known_home none (name :: site.base t)
  have hother : ∀ isDir, isDir ≠ some true → (∀ e, some (⟨name, isDir, false⟩ : DirEntry) = some e →
      site.EntryFits t e) ∧ (⟨t, nodes, none⟩ : Knowledge T) = ⟨t, nodes, none⟩ := by
    refine fun isDir hne => ⟨fun e he => ?_, rfl⟩
    cases he
    exact fun h => absurd h hne
  refine callSpec_monotone _ _ _ _ ?_ (callSpec_io
    (i := .fileType (.name name :: fsPath (site.cwd t) (site.installed t)))
    (Q := fun reply nodes' => nodes' = nodes ∧
    ∀ kind, reply = .ok kind → (nodes (name :: (site.base t ++ site.home t))).map FileType.of =
      some kind) hfit no_lock
    (Territory.spec_fileType_entry hbase hknown fun reply hreply => ⟨rfl, hreply⟩))
  rintro reply k ⟨_, rfl, rfl, hreply⟩
  cases reply with
  | error e => exact hother none nofun
  | ok kind =>
    cases kind with
    | file | symlink => exact hother (some false) (by decide)
    | dir =>
      have hdir : (site.pack t).IsDir (name :: site.base t) := by
        have hkind := hreply _ rfl
        have hsame := hholds (name :: site.base t)
        rw [List.cons_append] at hsame
        rw [hsame] at hkind
        obtain ⟨node, hnode, hof⟩ := Option.map_eq_some_iff.mp hkind
        cases node with
        | dir mode => exact isDir_iff.mpr ⟨mode, hnode⟩
        | file _ _ => cases hof
        | symlink _ => cases hof
      obtain ⟨mode, hmode⟩ := isDir_iff.mp hdir
      have hchild := hbase.child hknown ((hholds (name :: site.base t)).trans hmode)
      show wp _ (io (pathIsDirectory (.name binDir :: .name name ::
        fsPath (site.cwd t) (site.installed t))) >>= _) _ _
      rw [wp_bind]
      refine wp_mono callSpec_monotone ?_ (wp_io hfit no_lock
        (Territory.surely_pathIsDirectory_entry hchild
          (known_home none (binDir :: name :: site.base t))))
      rintro r k ⟨_, rfl, found, rfl, rfl, hfound⟩
      cases found with
      | false =>
        refine ⟨fun e he => ?_, rfl⟩
        cases he
        exact fun _ => ⟨hdir, nofun⟩
      | true =>
        refine ⟨fun e he => ?_, rfl⟩
        cases he
        exact fun _ => ⟨hdir, fun _ hnone => hfound rfl
          ((hholds (binDir :: name :: site.base t)).trans hnone)⟩


theorem wp_lookUpInstalled (hfit : site.Fit fs) (hholds : site.Holds t nodes) :
    wp (site.callSpec fs)
      (lookUpInstalled (site.cwd t) (installedIn (site.settings t) (site.installed t)))
      ⟨t, nodes, none⟩ fun view k => site.ViewFits t view ∧ k = ⟨t, nodes, none⟩ := by
  have hbase := leads_base hfit none hholds
  have hnothing : site.ViewFits t ⟨false, none⟩ :=
    ⟨fun h => (by cases h), fun listing h => by cases h⟩
  unfold lookUpInstalled
  rw [wp_bind]
  refine wp_mono callSpec_monotone ?_ (wp_io hfit no_lock
    (Territory.surely_pathIsDirectory_entry hbase (known_home none (binDir :: site.base t))))
  rintro r k ⟨_, rfl, found, rfl, rfl, hfound⟩
  cases found with
  | true =>
    refine ⟨⟨fun _ hnone => hfound rfl ((hholds (binDir :: site.base t)).trans hnone), ?_⟩, rfl⟩
    exact fun listing h => by cases h
  | false =>
    simp only
    split
    next => exact ⟨hnothing, rfl⟩
    next =>
      refine reads_spec _ _ _ trivial fun reply => ?_
      cases reply with
      | error e => exact ⟨hnothing, rfl⟩
      | ok listing =>
        show wp _ (List.mapM (readInstalled (site.cwd t) (site.installed t)) listing.1 >>=
          fun entries => (pure ⟨false, some (entries ++ listing.2.toList.map fun _ => none)⟩ :
            Routine View)) _ _
        rw [wp_bind]
        refine wp_mono callSpec_monotone ?_ (wp_mapM (K := (· = ⟨t, _, none⟩))
          (P := fun entry => ∀ e, entry = some e → site.EntryFits t e) callSpec_monotone
          (fun name _ k hk => ?_) rfl)
        · rintro entries k ⟨hentries, rfl⟩
          refine ⟨⟨fun h => (by cases h), fun all hall entry hmem => ?_⟩, rfl⟩
          cases hall
          rcases List.mem_append.mp hmem with hmem | hmem
          · exact hentries _ hmem entry rfl
          · obtain ⟨_, -, h⟩ := List.mem_map.mp hmem
            cases h
        · subst hk
          exact wp_readInstalled hfit hholds name

theorem resolved_source [LinearOrder V] (hfit : site.Fit fs) {view : View}
    (hview : site.ViewFits t view) {path : FilePath}
    (hresolved : resolveInstalledDir site.semver (installedIn (site.settings t) (site.installed t))
      view = some path) :
    ∃ rel, site.Source t path rel ∧ (site.pack t).IsDir rel ∧
      Whole site.depth (subtree (site.pack t).node rel) := by
  suffices h : ∃ rel, site.Source t path rel ∧ (site.pack t).IsDir rel ∧
      ((site.pack t).node (binDir :: rel) ≠ none ∨
        (site.settings t).trustInstallationDir = true ∧ rel = site.base t) by
    obtain ⟨rel, hsource, hdir, hbin⟩ := h
    exact ⟨rel, hsource, hdir, hfit.whole t path rel hsource hdir hbin⟩
  unfold resolveInstalledDir at hresolved
  split at hresolved
  next hbin =>
    cases hresolved
    exact ⟨_, .base, hfit.base t, Or.inl (hview.hasBin hbin)⟩
  next =>
    split at hresolved
    next htrust =>
      cases hresolved
      exact ⟨_, .base, hfit.base t, Or.inr ⟨htrust, rfl⟩⟩
    next =>
      obtain ⟨listing, hlisting, hlast⟩ := Option.bind_eq_some_iff.mp hresolved
      have hmem := (List.getLast?_sortBy (ranks_compareInstalled site.semver) hlast).1
      obtain ⟨dirEntry, hentry, hpath⟩ := List.mem_filterMap.mp hmem
      obtain ⟨entry, rfl, hentryPath⟩ := Option.bind_eq_some_iff.mp hpath
      obtain ⟨isDir, hisDir, hchild⟩ := Option.bind_eq_some_iff.mp hentryPath
      rw [Option.ite_none_right_eq_some, Bool.and_eq_true] at hchild
      obtain ⟨⟨rfl, hbin⟩, heq⟩ := hchild
      cases heq
      obtain ⟨hdir, hnode⟩ := hview.entries listing hlisting entry hentry hisDir
      exact ⟨_, .child entry.name, hdir, Or.inl (hnode hbin)⟩


theorem source_path (hfit : site.Fit fs) {path : FilePath} {rel : Place}
    (h : site.Source t path rel) : fsPath (site.cwd t) path =
      rel.map .name ++ fsPath (site.cwd t) (site.settings t).installationDir := by
  cases h with
  | base => exact hfit.installed t
  | child m => rw [fsPath_child, hfit.installed t, List.map_cons, List.cons_append]

theorem extracted_version {semver : Semver V R} {path : FilePath} {text : String}
    (h : extractVersionFromPath semver path = some text) :
    fileName path = some (osString text) ∧ ∃ v, semver.parse text = some v := by
  obtain ⟨name, hname, hrest⟩ := Option.bind_eq_some_iff.mp h
  obtain ⟨text', htext, hlast⟩ := Option.bind_eq_some_iff.mp hrest
  obtain ⟨v, hparse, heq⟩ := Option.bind_eq_some_iff.mp hlast
  cases heq
  exact ⟨by rw [hname, osString_eq, toByteArray_toStr htext], v, hparse⟩

theorem copying_populate (hfit : site.Fit fs) (hholds : site.Holds t nodes) {path : FilePath}
    {rel : Place} {version : OsString} (hsource : site.Source t path rel)
    (hdir : (site.pack t).IsDir rel) (hwhole : Whole site.depth (subtree (site.pack t).node rel))
    (hempty : ∀ y, nodes (y ++ site.entry version) = none) :
    (site.territory fs t (some ⟨version, .exclusive, true⟩)).Copying nodes
      (fsPath (site.cwd t) path) (.name version :: site.cacheDir t) (rel ++ site.home t)
      (site.entry version) site.depth := by
  obtain ⟨mode, hmode⟩ := isDir_iff.mp hdir
  exact {
    apart := by
      constructor
      · rintro ⟨z, hz⟩
        exact (hfit.outside t).ne (z ++ rel) [version] (by rw [List.append_assoc]; exact hz)
      · rintro ⟨z, hz⟩
        refine (hfit.outside t).ne rel (z ++ [version]) ?_
        rw [List.append_assoc]
        exact hz.symm
    source := by
      rw [source_path hfit hsource]
      exact leads_installed hfit _ hholds hdir
    dir := ⟨mode, (hholds rel).trans hmode⟩
    target := .missing (.start (hfit.cacheBound t)) (hempty [])
    read := fun y => by
      rw [← List.append_assoc]
      exact known_home _ (y ++ rel)
    known := fun y => Or.inr ⟨_, rfl, List.suffix_append y _⟩
    mine := fun y => Or.inr ⟨_, rfl, ⟨rfl, rfl⟩, List.suffix_append y _⟩
    empty := fun y _ => hempty y
    deep := fun y hy => hwhole.deep y (by
      rw [← List.append_assoc, hholds] at hy
      exact hy) }

theorem wp_populateEntry (hfit : site.Fit fs) (hholds : site.Holds t nodes) {path : FilePath}
    {rel : Place} {text : String} (hversion : site.IsVersion (osString text))
    (hname : fileName path = some (osString text)) (hsource : site.Source t path rel)
    (hdir : (site.pack t).IsDir rel) (hwhole : Whole site.depth (subtree (site.pack t).node rel))
    (hok : site.EntryOk (osString text) (subtree nodes (site.entry (osString text)))) :
    wp (site.callSpec fs) (populateEntry (site.cwd t) site.depth (site.cacheDir t) path text)
      ⟨t, nodes, some ⟨osString text, .exclusive, (nodes (site.entry (osString text))).isNone⟩⟩
      fun _ k => ∃ nodes' vacant, k = ⟨t, nodes', some ⟨osString text, .exclusive, vacant⟩⟩ ∧
        site.EntryOk (osString text) (subtree nodes' (site.entry (osString text))) := by
  unfold populateEntry
  rw [wp_bind]
  let hold : Hold := ⟨osString text, .exclusive, (nodes (site.entry (osString text))).isNone⟩
  have hheld : site.IsVersion hold.version := hversion
  refine wp_mono callSpec_monotone ?_ (wp_checkCache hfit hheld hok)
  rintro r k ⟨rfl, rfl⟩
  cases hentry : nodes (site.entry (osString text)) with
  | some node => exact ⟨nodes, _, rfl, hok⟩
  | none =>
    have hempty : ∀ y, nodes (y ++ site.entry (osString text)) = none := by
      rcases hok with hnone | ⟨mode, source, hgenuine, htree⟩
      · exact hnone
      · obtain ⟨topMode, htop⟩ := hgenuine.1.top
        have htop' := (congrFun htree []).trans ((withMarker_top source).trans htop)
        cases hentry.symm.trans htop'
    show wp _ (if isUtf8Path path then _ else _) _ _
    split
    next =>
      have hcopy := copying_populate hfit hholds hsource hdir hwhole hempty
      have hhold : ∀ h, some (⟨osString text, .exclusive, true⟩ : Hold) = some h →
          site.IsVersion h.version := by
        intro h heq
        cases heq
        exact hversion
      have hsame : subtree nodes (rel ++ site.home t) = subtree (site.pack t).node rel := by
        funext y
        rw [subtree, ← List.append_assoc, hholds]
        rfl
      rw [wp_bind]
      refine wp_mono callSpec_monotone ?_ (wp_io hfit hhold (Territory.surely_populateCache hcopy
        fun old hold => hwhole.marker old ((congrFun hsame [completionMarker]).symm.trans hold)))
      rintro r k ⟨nodes', rfl, _, rfl, hpopulated⟩
      obtain ⟨mode, hmode⟩ := hpopulated.entry
      rw [hsame] at hmode
      exact ⟨nodes', true, rfl, Or.inr ⟨mode, _, ⟨hwhole, Or.inr ⟨t, path, rel, hsource, hname, rfl⟩⟩,
        hmode⟩⟩
    next => exact ⟨nodes, _, rfl, hok⟩


theorem wp_populateVersion (hfit : site.Fit fs) (hholds : site.Holds t nodes) {path : FilePath}
    {rel : Place} {text : String} (hversion : site.IsVersion (osString text))
    (hname : fileName path = some (osString text)) (hsource : site.Source t path rel)
    (hdir : (site.pack t).IsDir rel) (hwhole : Whole site.depth (subtree (site.pack t).node rel)) :
    wp (site.callSpec fs) (populateVersion (site.cwd t) site.depth (site.cacheDir t) path text)
      ⟨t, nodes, none⟩ fun _ k => k.lock = none := by
  unfold populateVersion
  rw [wp_bind]
  refine wp_mono callSpec_monotone ?_ (wp_reads (reads_io (reads_isCacheEntryComplete _)) _)
  rintro hit k ⟨-, rfl⟩
  -- The first lookup is without the lock, and may find anything.
  split
  next => rfl
  next =>
    rw [wp_bind]
    refine wp_acquire hfit hversion (fun e => rfl) fun tree htree hok => ?_
    have hholds' : site.Holds t tree :=
      fun y => (htree _ (List.suffix_append y _)).trans (hholds y)
    show wp _ (populateEntry (site.cwd t) site.depth (site.cacheDir t) path text >>= _) _ _
    rw [wp_bind]
    refine wp_mono callSpec_monotone ?_
      (wp_populateEntry hfit hholds' hversion hname hsource hdir hwhole hok)
    rintro _ k ⟨nodes', vacant, rfl, hok'⟩
    exact ⟨_, rfl, rfl, hok', rfl⟩

theorem wp_tryPopulate [LinearOrder V] (hfit : site.Fit fs) (hholds : site.Holds t nodes) :
    wp (site.callSpec fs)
      (tryPopulateBinaryCache site.semver (site.cwd t) site.depth (site.cacheDir t)
        (installedIn (site.settings t) (site.installed t)))
      ⟨t, nodes, none⟩ fun _ k => k.lock = none := by
  unfold tryPopulateBinaryCache
  rw [wp_bind]
  refine wp_mono callSpec_monotone ?_ (wp_lookUpInstalled hfit hholds)
  rintro view k ⟨hview, rfl⟩
  split
  next => rfl
  next path hresolved =>
    split
    next => rfl
    next text hextracted =>
      obtain ⟨hname, v, hparse⟩ := extracted_version hextracted
      obtain ⟨rel, hsource, hdir, hwhole⟩ := resolved_source hfit hview hresolved
      exact wp_populateVersion hfit hholds ⟨text, v, hparse, rfl⟩ hname hsource hdir hwhole

end Installed

/-! ### The processes -/

section Runs

variable [LinearOrder V] {t : T}

/-- What a process knows at its end. -/
def Ended (site : Site T V R) (t : T) (r : Option (Bool × Settings R)) (k : Knowledge T) : Prop :=
  k.lock = none ∧ ∀ settings, r = some (true, settings) → site.Used t settings k.nodes

theorem wp_process (hfit : site.Fit fs) (t : T) :
    wp (site.spec fs) (site.process t) ⟨t, fs.node, none⟩ (site.Ended t) := by
  unfold process startPostgres
  rw [wp_bind, wp_onCache]
  refine wp_mono callSpec_monotone ?_ (wp_tryUse hfit (hfit.vacant t))
  rintro ⟨cacheHit, settings⟩ k ⟨nodes, rfl, hhit, hmiss⟩
  cases cacheHit with
  | true =>
    refine ⟨rfl, fun succeeds => ?_⟩
    cases succeeds with
    | false => exact ⟨rfl, nofun⟩
    | true =>
      refine ⟨rfl, fun settings' h => ?_⟩
      cases h
      exact hhit rfl
  | false =>
    obtain ⟨rfl, -⟩ := hmiss rfl
    refine ⟨rfl, fun succeeds nodes' hnodes' => ?_⟩
    cases succeeds with
    | false => exact ⟨rfl, nofun⟩
    | true =>
      show wp _ (onCache (tryPopulateBinaryCache site.semver (site.cwd t) site.depth
        (site.cacheDir t) (installedIn (site.settings t) (site.installed t))) >>= _) _ _
      rw [wp_bind, wp_onCache]
      refine wp_mono callSpec_monotone ?_ (wp_tryPopulate hfit (hnodes' rfl))
      intro _ k hk
      exact ⟨hk, nofun⟩

end Runs

end Site

end PgEmbeddedSetup.CacheIntegration
