import PgEmbeddedSetup.Base.Transition
import PgEmbeddedSetup.Cache.Repair

/-!
# What a hit says about an entry

One version of the cache over time: populates from any sources, each of which may fail or be killed at
any call, and changes elsewhere. `hit_is_complete`: if every populate is careful, an entry that
`check_cache` reports as a hit contains a tree whose populate has returned.

`.complete` and `bin` may be copied from the source, in any order, and `populate_cache` takes no marker
away before it writes. So a populate is careful if neither the source nor the entry brings a marker, or
neither brings a `bin`, or the entry holds a complete tree of which nothing is written again.
-/

namespace PgEmbeddedSetup.Cache

open Env Fs Posix FileSystem Program Crash

/-! ### A hit -/

/-- `check_cache` can report a hit. -/
def Hit (cacheDir : FsPath) (version : OsString) (fs : FileTree) : Prop :=
  ∃ umask choices,
    (Crash.finish (exec umask) choices (checkCache cacheDir version).run fs).1 = .ok true

section Checks

variable {s : FileTree} {path : FsPath} {n : OsString}

theorem stat_finds {r : Regime} {α : Type} {Q : α → FileTree → Prop} {E C : FileTree → Prop}
    {k : Except Errno (FileType × Nat) → Code α} (hC : C s)
    (hfound : ∀ l node, s.follow false path = .ok l → s.node l = some node →
      Safely r.sem Q E C (k (.ok (FileType.of node, modeOf node))) s)
    (hfailed : ∀ e, Safely r.sem Q E C (k (.error e)) s) :
    Safely r.sem Q E C (ask (.stat path) >>= k) s := by
  refine safely_step nofun hC (fun x _ => ?_) fun f _ => hfailed _
  simp only [act]
  cases hfollow : s.follow false path with
  | error e => exact hfailed e
  | ok l =>
    cases hnode : s.node l with
    | none => simpa only [hnode] using hfailed .notFound
    | some node => simpa only [hnode] using hfound l node hfollow hnode

theorem pathExists_finds {r : Regime} {E C : FileTree → Prop} (hC : C s) :
    Safely r.sem (fun b s' => s' = s ∧ (b = true → ∃ l, s.follow false path = .ok l)) E C
      (pathExists path) s :=
  stat_finds hC (fun l _ hfollow _ => safely_pure ⟨rfl, fun _ => ⟨l, hfollow⟩⟩)
    fun _ => safely_pure ⟨rfl, fun h => absurd h Bool.false_ne_true⟩

theorem pathIsDirectory_finds {r : Regime} {E C : FileTree → Prop} (hC : C s) :
    Safely r.sem (fun b s' => s' = s ∧ (b = true → ∃ l, s.follow false path = .ok l ∧ s.IsDir l)) E C
      (pathIsDirectory path) s := by
  refine stat_finds hC (fun l node hfollow hnode => ?_)
    fun _ => safely_pure ⟨rfl, fun h => absurd h Bool.false_ne_true⟩
  cases node with
  | dir mode => exact safely_pure ⟨rfl, fun _ => ⟨l, hfollow, isDir_iff.mpr ⟨mode, hnode⟩⟩⟩
  | file mode content => exact safely_pure ⟨rfl, fun h => absurd h Bool.false_ne_true⟩
  | symlink target => exact safely_pure ⟨rfl, fun h => absurd h Bool.false_ne_true⟩

theorem isCacheEntryComplete_finds (r : Regime) (s : FileTree) (path : FsPath) :
    Safely r.sem (fun b s' => s' = s ∧ (b = true →
      (∃ l, s.follow false (.name completionMarker :: path) = .ok l) ∧
        ∃ l, s.follow false (.name binDir :: path) = .ok l ∧ s.IsDir l))
      (fun _ => False) (fun _ => True) (isCacheEntryComplete path) s := by
  refine Safely.bind (pathExists_finds trivial) fun b s' hb => ?_
  obtain ⟨rfl, hmarker⟩ := hb
  cases b with
  | true =>
    exact (pathIsDirectory_finds trivial).mono (fun _ s'' hs'' => ⟨hs''.1, fun h =>
      ⟨hmarker rfl, hs''.2 h⟩⟩) (fun _ h => h) fun _ h => h
  | false => exact safely_pure ⟨rfl, fun h => absurd h Bool.false_ne_true⟩

theorem Aims.entry {V l : Place} (h : Aims s path V)
    (hfollow : s.follow false (.name n :: path) = .ok l) :
    s.Bound path V ∧ s.node (n :: V) ≠ none ∧
      ∀ node, s.node (n :: V) = some node → node.isSymlink = false → l = n :: V := by
  obtain ⟨d, hd, hnode⟩ := follow_parent hfollow
  have hbound : s.Bound path V := by
    cases h with
    | there h => exact h
    | missing h hnone =>
      have hmissing := hd.follow
      rw [h.follow_missing hnone] at hmissing
      cases hmissing
  obtain rfl : V = d := Except.ok.inj (hbound.follow.symm.trans hd.follow)
  refine ⟨hbound, hnode, fun node hsome hlink => ?_⟩
  have hentry := hbound.follow_entry hsome hlink false
  exact Except.ok.inj (hfollow.symm.trans hentry)

theorem Hit.entry {cacheDir : FsPath} {version : OsString} {V : Place} (hhit : Hit cacheDir version s)
    (h : Aims s (.name version :: cacheDir) V) :
    s.node (completionMarker :: V) ≠ none ∧
      ∃ node, s.node (binDir :: V) = some node ∧ node.isFile = false := by
  obtain ⟨umask, choices, hok⟩ := hhit
  have hfinds := isCacheEntryComplete_finds (anyFailure ⟨false, umask⟩ V) s (.name version :: cacheDir)
  rcases hfinds.finish choices with ⟨b, hb, -, hcomplete⟩ | ⟨_, -, hfalse⟩
  · obtain rfl : b = true := Except.ok.inj (hb.symm.trans hok)
    obtain ⟨⟨lm, hmarker⟩, lb, hbin, hdir⟩ := hcomplete rfl
    refine ⟨(h.entry hmarker).2.1, ?_⟩
    obtain ⟨-, hne, hplain⟩ := h.entry hbin
    obtain ⟨node, hnode⟩ := Option.ne_none_iff_exists'.mp hne
    refine ⟨node, hnode, ?_⟩
    cases node with
    | dir mode => rfl
    | symlink target => rfl
    | file mode content =>
      obtain rfl := hplain _ hnode rfl
      rw [IsDir, hnode] at hdir
      cases hdir
  · exact hfalse.elim

end Checks

/-! ### The entry over time -/

/-- The nodes of a tree at their places in it. -/
abbrev Tree := Place → Option (Node OsString)

def treeAt (fs : FileTree) (S : Place) : Tree := fun y => fs.node (y ++ S)

/-- Every file, directory and link of the tree is in the entry, with its content. The content of the
marker is not looked at. -/
def Contains (V : Place) (tree : Tree) (fs : FileTree) : Prop :=
  ∀ y g, tree y = some g →
    ∃ c, fs.node (y ++ V) = some c ∧ (y = [completionMarker] ∨ c.body = g.body)

/-- The file system, and the source trees whose populate has returned. -/
structure History where
  fs : FileTree
  completed : List Tree

inductive Event where
  /-- A populate from this source, which stops where its choices end. -/
  | populate (source : FsPath) (attempt : Attempt)
  /-- Anything else in the file system. -/
  | elsewhere (after : FileTree)

section Slots

variable (cacheDir : FsPath) (version : OsString) (d : Place)

/-- The cache directory is at `d`, and a change elsewhere keeps it there and the entry as it is. -/
def keepsEntry (fs after : FileTree) : Prop :=
  (after.follow false cacheDir = .ok d ∧ after.IsDir d) ∧
    ∀ l ∈ fs.table.keys ++ after.table.keys, version :: d <:+ l → after.node l = fs.node l

instance (fs after : FileTree) : Decidable (keepsEntry cacheDir version d fs after) :=
  inferInstanceAs (Decidable (_ ∧ _))

/-- The tree that a path leads to. -/
def sourceTree (fs : FileTree) (source : FsPath) : Tree :=
  match fs.follow false source with
  | .ok S => treeAt fs S
  | .error _ => fun _ => none

def History.step (h : History) : Event → Option History
  | .populate source a =>
    let ended := Crash.run (exec a.umask) a.choices
      (populateCache a.depth source cacheDir version).run h.fs
    some ⟨ended.2, match ended.1 with
      | some (.ok ()) => sourceTree h.fs source :: h.completed
      | _ => h.completed⟩
  | .elsewhere after =>
    if keepsEntry cacheDir version d h.fs after then some ⟨after, h.completed⟩ else none

/-- What an entry that is a hit is supposed to be. -/
def Sound (h : History) : Prop :=
  Hit cacheDir version h.fs → ∃ tree ∈ h.completed, Contains (version :: d) tree h.fs

/-- Neither the source nor the entry brings a marker. -/
def BringsNoMarker (source entry : Tree) : Prop :=
  source [completionMarker] = none ∧ entry [completionMarker] = none

/-- Neither brings a `bin` that is not a file. -/
def BringsNoBin (source entry : Tree) : Prop :=
  (∀ node, source [binDir] = some node → node.isFile = true) ∧
    ∀ node, entry [binDir] = some node → node.isFile = true

/-- The entry has its marker and a complete tree, of which no file but the marker is one of the
source. -/
def KeepsComplete (source : Tree) (h : History) : Prop :=
  (∃ marker, treeAt h.fs (version :: d) [completionMarker] = some marker ∧ marker.isSymlink = false) ∧
    ∃ tree ∈ h.completed, Contains (version :: d) tree h.fs ∧
      ∀ y g, y ≠ [completionMarker] → source y = some g → g.isFile = true → tree y = none

/-- A populate from a tree apart from the entry, with which it agrees in kinds. -/
def Careful (h : History) : Event → Prop
  | .populate source _ => ∃ S, h.fs.Bound source S ∧ Apart S (version :: d) ∧
    Fits S (version :: d) [] h.fs ∧
      (BringsNoMarker (treeAt h.fs S) (treeAt h.fs (version :: d)) ∨
        BringsNoBin (treeAt h.fs S) (treeAt h.fs (version :: d)) ∨
        KeepsComplete version d (treeAt h.fs S) h)
  | .elsewhere _ => True

end Slots

/-! ### What one populate keeps -/

section Populates

variable {cacheDir : FsPath} {version : OsString} {d S : Place} {fs s s' : FileTree} {source : FsPath}

/-- The cache directory is at `d`, and the entry is missing or a directory. -/
structure InCache (cacheDir : FsPath) (version : OsString) (d : Place) (fs : FileTree) : Prop where
  base : fs.Bound cacheDir d
  entry : fs.node (version :: d) = none ∨ fs.IsDir (version :: d)

theorem InCache.aims (h : InCache cacheDir version d fs) :
    Aims fs (.name version :: cacheDir) (version :: d) :=
  aims_entry h.base h.entry

theorem InCache.part (h : InCache cacheDir version d fs) (hsrc : fs.IsDir S)
    (hpart : Partial S (version :: d) [] fs s) : InCache cacheDir version d s :=
  ⟨h.base.grows hpart.grows, hpart.none_or_dir hsrc h.entry⟩

theorem InCache.marked (h : InCache cacheDir version d fs) (hdir : s.IsDir (version :: d))
    (hpart : Partial S (version :: d) [] fs s) (hmarked : Marked (version :: d) s s') :
    InCache cacheDir version d s' :=
  ⟨(h.base.grows hpart.grows).grows hmarked.grows, Or.inr (hmarked.grows.isDir hdir)⟩

/-- The marker and a `bin` that is not a file are in the entry. -/
def Shows (entry : Tree) : Prop :=
  entry [completionMarker] ≠ none ∧ ∃ node, entry [binDir] = some node ∧ node.isFile = false

theorem site_of_part (hpart : Partial S (version :: d) [] fs s) (y : Place) :
    Site (treeAt fs S y) (treeAt fs (version :: d) y) (treeAt s (version :: d) y) :=
  hpart.site_top y

theorem BringsNoMarker.part (h : BringsNoMarker (treeAt fs S) (treeAt fs (version :: d)))
    (hpart : Partial S (version :: d) [] fs s) :
    treeAt s (version :: d) [completionMarker] = none := by
  have hsite := site_of_part hpart [completionMarker]
  rw [h.1, h.2] at hsite
  exact hsite

theorem BringsNoBin.part (h : BringsNoBin (treeAt fs S) (treeAt fs (version :: d)))
    (hpart : Partial S (version :: d) [] fs s) (node : Node OsString)
    (hnode : treeAt s (version :: d) [binDir] = some node) : node.isFile = true := by
  have hsite := site_of_part hpart [binDir]
  cases hold : treeAt fs (version :: d) [binDir] with
  | none =>
    cases hg : treeAt fs S [binDir] with
    | none =>
      rw [hg, hold, hnode] at hsite
      cases hsite
    | some g =>
      rw [hg, hold] at hsite
      rw [Node.isFile_of_shape (hsite node hnode)]
      exact h.1 g hg
  | some old =>
    obtain ⟨node', hnode', hshape⟩ := hpart.grows _ old hold
    obtain rfl := Option.some.inj (hnode'.symm.trans hnode)
    rw [Node.isFile_of_shape hshape]
    exact h.2 old hold

theorem Marked.bin {T : Place} (h : Marked T s s')
    (hfile : ∀ node, treeAt s T [binDir] = some node → node.isFile = true) (node : Node OsString)
    (hnode : treeAt s' T [binDir] = some node) : node.isFile = true := by
  rcases h.1 with rfl | ⟨l, mode, hwrites, -⟩
  · exact hfile node hnode
  · by_cases hl : [binDir] ++ T = l
    · subst hl
      obtain rfl := Option.some.inj (hwrites.self.symm.trans hnode)
      rfl
    · exact hfile node ((hwrites.other hl).symm.trans hnode)

/-- A complete tree stays in the entry, if no file of it is one of the source. -/
theorem contains_part {tree : Tree} (h : Contains (version :: d) tree fs)
    (hapart : ∀ y g, y ≠ [completionMarker] → treeAt fs S y = some g → g.isFile = true → tree y = none)
    (hpart : Partial S (version :: d) [] fs s) : Contains (version :: d) tree s := by
  intro y t ht
  obtain ⟨c, hc, hbody⟩ := h y t ht
  have hsite := site_of_part hpart y
  have hc' : treeAt fs (version :: d) y = some c := hc
  cases hg : treeAt fs S y with
  | none =>
    rw [hg] at hsite
    exact ⟨c, Eq.trans hsite hc', hbody⟩
  | some g =>
    rw [hg, hc'] at hsite
    obtain ⟨c', hnew, -, hkept⟩ := hsite
    refine ⟨c', hnew, ?_⟩
    by_cases hy : y = [completionMarker]
    · exact Or.inl hy
    · rcases hkept with hkept | hfile
      · exact Or.inr (hkept.trans (hbody.resolve_left hy))
      · rw [hapart y g hy hg hfile] at ht
        cases ht

theorem contains_marked {tree : Tree} (h : Contains (version :: d) tree s) {mode : Nat}
    (hwrites : Writes s s' (completionMarker :: version :: d) (.file mode [])) :
    Contains (version :: d) tree s' := by
  intro y t ht
  by_cases hy : y = [completionMarker]
  · subst hy
    exact ⟨_, hwrites.self, Or.inl rfl⟩
  · obtain ⟨c, hc, hbody⟩ := h y t ht
    refine ⟨c, (hwrites.other fun heq => hy ?_).trans hc, hbody⟩
    have heq' : y ++ version :: d = [completionMarker] ++ version :: d := heq
    exact List.append_cancel_right heq'

theorem contains_mirrored (hmirrors : Mirrors S (version :: d) [] fs s) :
    Contains (version :: d) (treeAt fs S) s := by
  intro y g hg
  obtain ⟨c, hc, hbody⟩ := hmirrors y g (by rwa [List.append_nil])
  rw [List.append_nil] at hc
  exact ⟨c, hc, Or.inr hbody⟩

end Populates

/-! ### Runs -/

section Histories

variable {cacheDir : FsPath} {version : OsString} {d S : Place} {fs : FileTree} {source : FsPath}

/-- What holds after every event. -/
def Covered (cacheDir : FsPath) (version : OsString) (d : Place) (completed : List Tree)
    (fs : FileTree) : Prop :=
  InCache cacheDir version d fs ∧ (Shows (treeAt fs (version :: d)) →
    ∃ tree ∈ completed, Contains (version :: d) tree fs)

theorem populate_covered (u : User) (depth : Nat) {completed : List Tree} (hsrc : fs.Bound source S)
    (hapart : Apart S (version :: d)) (hfits : Fits S (version :: d) [] fs)
    (hin : InCache cacheDir version d fs)
    (hcareful : BringsNoMarker (treeAt fs S) (treeAt fs (version :: d)) ∨
      BringsNoBin (treeAt fs S) (treeAt fs (version :: d)) ∨
      KeepsComplete version d (treeAt fs S) ⟨fs, completed⟩) :
    Safely (anyFailure u (version :: d)).sem
      (fun _ => Covered cacheDir version d (treeAt fs S :: completed))
      (Covered cacheDir version d completed) (Covered cacheDir version d completed)
      (populateCache depth source cacheDir version) fs := by
  have hdir := hsrc.isDir
  refine populateCache_safely (r := anyFailure u (version :: d)) hapart hsrc hin.aims hfits
    (fun hhonest => hhonest.elim) (fun s hpart => ⟨hin.part hdir hpart, fun hshows => ?_⟩)
    fun s s' hpart hcopied htop hmarked => ⟨hin.marked htop hpart hmarked, fun hshows => ?_⟩
  · rcases hcareful with hmarker | hbin | ⟨-, tree, htree, hcontains, hkeeps⟩
    · exact absurd (hmarker.part hpart) hshows.1
    · obtain ⟨node, hnode, hfile⟩ := hshows.2
      rw [hbin.part hpart node hnode] at hfile
      cases hfile
    · exact ⟨tree, htree, contains_part hcontains hkeeps hpart⟩
  · rcases hcareful with hmarker | hbin | ⟨⟨marker, hmarker, hlink⟩, tree, htree, hcontains, hkeeps⟩
    · have hnone := hmarker.part hpart
      obtain ⟨mode, hwrites, -⟩ := hmarked.2 fun old hold => by
        have hsome : treeAt s (version :: d) [completionMarker] = some old := hold
        rw [hnone] at hsome
        cases hsome
      exact ⟨_, List.mem_cons_self, contains_marked (contains_mirrored hcopied.mirrors) hwrites⟩
    · obtain ⟨node, hnode, hfile⟩ := hshows.2
      rw [hmarked.bin (hbin.part hpart) node hnode] at hfile
      cases hfile
    · obtain ⟨mode, hwrites, -⟩ := hmarked.2 fun old hold => by
        obtain ⟨node, hnode, hshape⟩ := hpart.grows _ marker hmarker
        obtain rfl := Option.some.inj (hnode.symm.trans hold)
        rw [Node.isSymlink_of_shape hshape, hlink]
      exact ⟨tree, List.mem_cons_of_mem _ htree,
        contains_marked (contains_part hcontains hkeeps hpart) hwrites⟩

theorem covered_elsewhere {after : FileTree} {completed : List Tree}
    (hkeeps : keepsEntry cacheDir version d fs after)
    (h : Covered cacheDir version d completed fs) : Covered cacheDir version d completed after := by
  have hsame : ∀ y, after.node (y ++ version :: d) = fs.node (y ++ version :: d) := by
    intro y
    have hmem : ∀ {fs : FileTree} {l : Place}, fs.node l ≠ none → l ∈ fs.table.keys :=
      fun hnode => forall_node (fun l hl => hl) hnode
    by_cases hbefore : fs.node (y ++ version :: d) = none
    · by_cases hafter : after.node (y ++ version :: d) = none
      · rw [hbefore, hafter]
      · exact hkeeps.2 _ (List.mem_append_right _ (hmem hafter)) (List.suffix_append y _)
    · exact hkeeps.2 _ (List.mem_append_left _ (hmem hbefore)) (List.suffix_append y _)
  have htree : treeAt after (version :: d) = treeAt fs (version :: d) := funext hsame
  have htop : after.node (version :: d) = fs.node (version :: d) := hsame []
  refine ⟨⟨⟨hkeeps.1.1, hkeeps.1.2⟩, ?_⟩, fun hshows => ?_⟩
  · unfold IsDir
    rw [htop]
    exact h.1.entry
  · obtain ⟨tree, hmem, hcontains⟩ := h.2 (htree ▸ hshows)
    refine ⟨tree, hmem, fun y g hg => ?_⟩
    rw [hsame]
    exact hcontains y g hg

theorem covered_step {h h' : History} {e : Event}
    (hcovered : Covered cacheDir version d h.completed h.fs)
    (hcareful : Careful version d h e) (hstep : h.step cacheDir version d e = some h') :
    Covered cacheDir version d h'.completed h'.fs := by
  cases e with
  | elsewhere after =>
    simp only [History.step, Option.ite_none_right_eq_some, Option.some.injEq] at hstep
    obtain ⟨hkeeps, rfl⟩ := hstep
    exact covered_elsewhere hkeeps hcovered
  | populate source a =>
    obtain ⟨S, hsrc, hapart, hfits, hcareful⟩ := hcareful
    have hrun := populate_covered ⟨false, a.umask⟩ a.depth hsrc hapart hfits hcovered.1 hcareful
    have htree : sourceTree h.fs source = treeAt h.fs S := by
      rw [sourceTree, hsrc.follow]
    obtain rfl := Option.some.inj hstep
    rcases hrun.run a.choices with ⟨u, hended, hend⟩ | ⟨e, hended, hend⟩ | ⟨hended, hend⟩
    · simp only [show (Crash.run (exec a.umask) a.choices
        (populateCache a.depth source cacheDir version).run h.fs).1 = some (.ok u) from hended, htree]
      exact hend
    · simp only [show (Crash.run (exec a.umask) a.choices
        (populateCache a.depth source cacheDir version).run h.fs).1 = some (.error e) from hended]
      exact hend
    · simp only [show (Crash.run (exec a.umask) a.choices
        (populateCache a.depth source cacheDir version).run h.fs).1 = none from hended]
      exact hend

/-- **A hit is a complete entry.** From a version directory that is missing or empty, after any run
of populates and of changes elsewhere, each populate from any tree, in any order of its entries, stopped
by any failure or killed at any call: if the populates are careful, an entry that is reported as a hit
contains a tree whose populate has returned. -/
theorem hit_is_complete {h : History} {events : List Event} (hin : InCache cacheDir version d fs)
    (hfresh : ∀ n, fs.node (n :: version :: d) = none)
    (hrun : Transition.run (History.step cacheDir version d) events ⟨fs, []⟩ = some h)
    (hcareful : Transition.Along (History.step cacheDir version d) (Careful version d) events ⟨fs, []⟩)
    (hhit : Hit cacheDir version h.fs) :
    ∃ tree ∈ h.completed, Contains (version :: d) tree h.fs := by
  have hstart : Covered cacheDir version d [] fs :=
    ⟨hin, fun hshows => absurd (hfresh completionMarker) hshows.1⟩
  have hend : Covered cacheDir version d h.completed h.fs :=
    Transition.run_invariant (fun _ _ _ hcovered hcond hstep => covered_step hcovered hcond hstep)
      hstart hcareful hrun
  exact hend.2 (hhit.entry hend.1.aims)

end Histories

/-! ### A populate that returns and one that is killed -/

def extractedTree : FileTree :=
  .ofList [([osString "cache"], .dir 0o755),
    ([osString "extracted"], .dir 0o755),
    ([osString "bin", osString "extracted"], .dir 0o755),
    ([osString "postgres", osString "bin", osString "extracted"], .file 0o755 [1, 2])]

theorem returned_populate_hits :
    let step := History.step [.name (osString "cache")] (osString "17.4.0") [osString "cache"]
    let finished := Event.populate [.name (osString "extracted")] ⟨0o022, 3, List.replicate 40 calm⟩
    ∃ h, Transition.run step [finished] ⟨extractedTree, []⟩ = some h ∧
      Hit [.name (osString "cache")] (osString "17.4.0") h.fs ∧
      ∃ tree ∈ h.completed, Contains [osString "17.4.0", osString "cache"] tree h.fs := by
  intro step finished
  have hin : InCache [.name (osString "cache")] (osString "17.4.0") [osString "cache"] extractedTree :=
    ⟨(bound_root _).child (by decide +kernel), Or.inl (by decide +kernel)⟩
  have hnothing : ∀ y, extractedTree.node (y ++ [osString "17.4.0", osString "cache"]) = none := by
    intro y
    by_contra hnode
    have hkeys : ∀ l ∈ extractedTree.table.keys, ¬ [osString "17.4.0", osString "cache"] <:+ l := by
      decide +kernel
    exact forall_node hkeys hnode (List.suffix_append y _)
  have hcareful : Careful (osString "17.4.0") [osString "cache"] ⟨extractedTree, []⟩ finished := by
    refine ⟨[osString "extracted"], (bound_root _).child (by decide +kernel),
      ⟨by decide +kernel, by decide +kernel⟩, fun z g o _ ho => ?_,
      Or.inl ⟨by decide +kernel, hnothing _⟩⟩
    rw [List.append_nil, hnothing] at ho
    cases ho
  have hstep : step ⟨extractedTree, []⟩ finished = some ((step ⟨extractedTree, []⟩ finished).get rfl) :=
    (Option.some_get _).symm
  have hhit : Hit [.name (osString "cache")] (osString "17.4.0")
      ((step ⟨extractedTree, []⟩ finished).get rfl).fs := ⟨0o022, fun _ => calm, by decide +kernel⟩
  have hrun : Transition.run step [finished] ⟨extractedTree, []⟩ =
      some ((step ⟨extractedTree, []⟩ finished).get rfl) := hstep
  exact ⟨_, hrun, hhit, hit_is_complete hin (fun n => hnothing [n]) hrun
    ⟨hcareful, fun _ _ => trivial⟩ hhit⟩

/-- An installation that was copied from the cache has the marker of its entry. -/
def installedFromCache : FileTree :=
  .ofList [([osString "cache"], .dir 0o755),
    ([osString "installed"], .dir 0o755),
    ([osString "lib", osString "installed"], .dir 0o755),
    ([osString "bin", osString "installed"], .dir 0o755),
    ([osString ".complete", osString "installed"], .file 0o644 [])]

/-- The populate is killed when it has copied the marker and made `bin`. -/
theorem killed_populate_hits :
    let step := History.step [.name (osString "cache")] (osString "17.4.0") [osString "cache"]
    let killed := Event.populate [.name (osString "installed")] ⟨0o022, 3, List.replicate 13 calm⟩
    ∃ h, Transition.run step [killed] ⟨installedFromCache, []⟩ = some h ∧
      Hit [.name (osString "cache")] (osString "17.4.0") h.fs ∧
      h.fs.node [osString "lib", osString "17.4.0", osString "cache"] = none ∧
      ¬ ∃ tree ∈ h.completed, Contains [osString "17.4.0", osString "cache"] tree h.fs := by
  intro step killed
  have hended : (Crash.run (exec 0o022) (List.replicate 13 calm) (populateCache 3
      [.name (osString "installed")] [.name (osString "cache")] (osString "17.4.0")).run
        installedFromCache).1 = none := by
    decide +kernel
  have hrun : Transition.run step [killed] ⟨installedFromCache, []⟩ = some
      ⟨(Crash.run (exec 0o022) (List.replicate 13 calm) (populateCache 3
        [.name (osString "installed")] [.name (osString "cache")] (osString "17.4.0")).run
          installedFromCache).2, []⟩ := by
    show (step _ killed).bind _ = _
    simp only [step, killed, History.step, hended]
    rfl
  refine ⟨_, hrun, ⟨0o022, fun _ => calm, by decide +kernel⟩, by decide +kernel, ?_⟩
  rintro ⟨tree, hmem, -⟩
  cases hmem

end PgEmbeddedSetup.Cache
