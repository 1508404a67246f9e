import PgEmbeddedSetup.Cache.CopyTree

/-!
# Copying again

A target that attempts of the same copy have left, each of which may have failed or been killed at any
call, is copied to once more, and now no call fails that is not refused. `repaired_iff`: the copy then
returns and the target equals the source just where every place can be filled. A symbolic link that an
attempt has made cannot be made again, and a file without owner write permission cannot be written
again by a user who is bound by permissions.

`Leftover` is what the attempts keep (`leftover_attempt`).
-/

namespace PgEmbeddedSetup.Cache

open Env Fs Posix FileSystem Program Crash

inductive Operation where
  | copyFromCache (target : FsPath)
  | populateCache (cacheDir : FsPath) (version : OsString)

def Operation.target : Operation → FsPath
  | .copyFromCache target => target
  | .populateCache cacheDir version => .name version :: cacheDir

def Operation.code (op : Operation) (depth : Nat) (source : FsPath) : Code Unit :=
  match op with
  | .copyFromCache target => Cache.copyFromCache depth source target
  | .populateCache cacheDir version => Cache.populateCache depth source cacheDir version

/-- The place of the marker in the target, which a populated entry has besides the source. -/
def Operation.marker : Operation → Option Place
  | .copyFromCache _ => none
  | .populateCache _ _ => some [completionMarker]

/-- The target equals the tree that was the source, and a populated entry has the marker. -/
def Operation.Restores (op : Operation) (S T : Place) (fs s : FileTree) : Prop :=
  (∀ y, op.marker ≠ some y → s.node (y ++ T) = fs.node (y ++ S)) ∧
    ∀ y, op.marker = some y → ∃ mode, s.node (y ++ T) = some (.file mode [])

def nodeMode (node : Option (Node OsString)) : Nat := node.elim 0 modeOf

/-- The marker can be written in a directory of this mode, where this node is. -/
def User.marks (u : User) (mode : Nat) : Option (Node OsString) → Bool
  | none => u.privileged || (grants mode ownerSearch && grants mode ownerWrite)
  | some (.file mode' _) => u.privileged || (grants mode ownerSearch && grants mode' ownerWrite)
  | some _ => false

/-- What the next run needs: the places of the source can be filled, and then the marker be written. -/
def Operation.Repairable (op : Operation) (u : User) (S T : Place) (fs : FileTree) : Prop :=
  Ready u S T [] fs ∧ ∀ y, op.marker = some y →
    u.marks (nodeMode (fs.node S)) ((fs.node (y ++ S)).or (fs.node (y ++ T))) = true

/-! ### The copy to a target -/

section Targets

variable {r : Regime} {S : Place} {s : FileTree} {src dst : FsPath} {depth : Nat}

theorem copyFromCache_safely (hapart : Apart S r.top) (hsrc : s.Bound src S) (hdst : Aims s dst r.top)
    (hfits : Fits S r.top [] s)
    (hdepth : r.honest → ∀ z, s.node (z ++ S) ≠ none → z.length < depth) :
    Safely r.sem (fun _ s' => Partial S r.top [] s s' ∧ Copied r S [] s s') (Failed r S [] s)
      (Partial S r.top [] s) (copyFromCache depth src dst) s := by
  have hdir : s.IsDir ([] ++ S) := hsrc.isDir
  have hdst' : Aims s dst ([] ++ r.top) := hdst
  obtain ⟨mode, hmode⟩ := isDir_iff.mp hdir
  have hpart₁ := made_part (r := r) hdst' hdir
  have hsource : ∀ y, (r.user.made s r.top).node (y ++ S) = s.node (y ++ S) := hpart₁.source hapart
  refine Safely.bind (createDirAll_safely hdst (Partial.refl [] s) fun henters => ?_) fun _ s₁ hs₁ => ?_
  · refine ⟨Partial.refl [] s, fun hhonest _ => ?_⟩
    have htop : r.user.enters r.top s r.top = true := enters_top
    rw [henters hhonest] at htop
    cases htop
  · obtain ⟨rfl, henters⟩ := hs₁
    refine (copyDirRecursive_safely hapart depth [] src dst _ (hsrc.grows hpart₁.grows)
      (.there (hdst.made r.user)) (fits_made hapart hdst' hdir hfits) fun hhonest z hz => ?_).mono
      (fun _ s' hs' => ?_) (fun s' hs' => ?_) fun s' hs' => hpart₁.trans hapart hs'
    · rw [List.append_nil] at hz
      exact hdepth hhonest z fun hnone => hz ((hsource z).trans hnone)
    · refine ⟨hpart₁.trans hapart hs'.1, ?_, fun hhonest => ?_, fun hhonest => ?_, ?_⟩
      · exact (mirrors_congr fun z => hsource _).mp hs'.2.mirrors
      · exact (equals_congr fun z => hsource _).mp (hs'.2.equals hhonest)
      · exact ready_made_of_ready hapart hdst' hdir (henters hhonest) fun n _ =>
          ready_below (hs'.2.ready hhonest)
      · intro z g hg hlink
        have hnone := hs'.2.links z g ((hsource _).trans hg) hlink
        rcases made_stands hdst r.user (z ++ [] ++ r.top) with heq | ⟨hnode, -⟩
        · exact heq.symm.trans hnone
        · exact hnode
    · exact ⟨hpart₁.trans hapart hs'.1, fun hhonest hready =>
        hs'.2 hhonest (ready_made hapart hdst' hdir hready)⟩

theorem populateCache_eq (depth : Nat) (source cacheDir : FsPath) (version : OsString) :
    populateCache depth source cacheDir version =
      copyFromCache depth source (.name version :: cacheDir) >>= fun _ =>
        writeCompletionMarker (.name version :: cacheDir) := by
  unfold populateCache copyFromCache
  rw [bind_assoc]

end Targets

/-! ### The marker -/

section Markers

variable {r : Regime} {s : FileTree} {dst : FsPath} {n : OsString}

theorem marks_eq {u : User} {T : Place} {mode : Nat} (htop : s.node T = some (.dir mode))
    (hfile : ∀ old, s.node (n :: T) = some old → old.isFile = true) :
    u.marks mode (s.node (n :: T)) = u.overwrites T s (n :: T) := by
  have hmay : ∀ bits, u.may T s bits T = (u.privileged || grants mode bits) := by
    intro bits
    unfold User.may
    rw [decide_eq_true (List.suffix_refl T), htop]
    simp
  unfold User.overwrites User.enters
  rw [User.reaches, reaches_top, hmay, List.tail_cons, hmay]
  cases hnode : s.node (n :: T) with
  | none =>
    rw [User.marks]
    cases u.privileged <;> simp
  | some old =>
    cases old with
    | dir mode' => cases hfile _ hnode
    | symlink target => cases hfile _ hnode
    | file mode' content =>
      have hold : u.may T s ownerWrite (n :: T) = (u.privileged || grants mode' ownerWrite) := by
        unfold User.may
        rw [decide_eq_true (List.suffix_cons n T), hnode]
        simp
      rw [hold, User.marks]
      cases u.privileged <;> simp

theorem writeEmpty_safely {E C : FileTree → Prop} (hdst : s.Bound dst r.top)
    (hlink : ∀ old, s.node (n :: r.top) = some old → old.isSymlink = false) (hC : C s)
    (hE : (r.honest → (∀ old, s.node (n :: r.top) = some old → old.isFile = true) →
      r.user.overwrites r.top s (n :: r.top) = false) → E s) :
    Safely r.sem (fun _ s' => (∃ mode, Writes s s' (n :: r.top) (.file mode [])) ∧
      (∀ old, s.node (n :: r.top) = some old → old.isFile = true) ∧
      (r.honest → r.user.overwrites r.top s (n :: r.top) = true)) E C
      (writeEmpty (.name n :: dst)) s := by
  have hdenied : r.user.denied r.top s (.create (.name n :: dst) 0o666) =
      !r.user.overwrites r.top s (n :: r.top) := by
    cases hnode : s.node (n :: r.top) with
    | none => simp only [User.denied, hdst.follow_missing hnode, if_true]
    | some old => simp only [User.denied, hdst.follow_entry hnode (hlink old hnode)]
  refine safely_step (fun _ _ h => by cases h) hC (fun x hx => ?_) fun f hf => ?_
  · by_cases hfile : ∀ old, s.node (n :: r.top) = some old → old.isFile = true
    · obtain ⟨s', mode, hact, hwrites⟩ := act_create r.user.umask x hdst hfile 0o666
      rw [hact]
      refine safely_pure ⟨⟨mode, hwrites⟩, hfile, fun hhonest => ?_⟩
      simpa using hdenied.symm.trans (hx hhonest).1
    · have hdir : ∃ mode, s.node (n :: r.top) = some (.dir mode) := by
        push Not at hfile
        obtain ⟨old, hold, hnot⟩ := hfile
        have := hlink old hold
        cases old with
        | dir mode => exact ⟨mode, hold⟩
        | file mode content => exact absurd rfl hnot
        | symlink target => cases this
      obtain ⟨mode, hmode⟩ := hdir
      simp only [act, openCreate, hdst.follow_entry hmode rfl, hmode]
      exact safely_throw (hE fun _ h => absurd h hfile)
  · exact safely_throw (hE fun hhonest _ => by simpa using hdenied.symm.trans (hf hhonest))

theorem writeEmpty_linked {E C : FileTree → Prop} {path : FsPath} (hC : C s) (hE : E s) :
    Safely r.sem (fun _ s' => s' = s ∨ ∃ l mode, Writes s s' l (.file mode []) ∧
      ∀ old, s.node l = some old → old.isFile = true) E C (writeEmpty path) s := by
  refine safely_step nofun hC (fun x _ => ?_) fun f _ => safely_throw hE
  simp only [act, openCreate]
  cases hfollow : s.follow true path with
  | error e => exact safely_throw hE
  | ok l =>
    cases hnode : s.node l with
    | none =>
      simp only [hnode]
      by_cases hadmits : s.Admits l (.file (maskMode r.user.umask 0o666) [])
      · refine safely_pure (Or.inr ⟨l, _, node_set hadmits, fun old hold => ?_⟩)
        rw [hnode] at hold
        cases hold
      · rw [set_of_not_admits hadmits]
        exact safely_pure (Or.inl rfl)
    | some old =>
      simp only [hnode]
      cases old with
      | dir mode => exact safely_throw hE
      | symlink target => exact safely_throw hE
      | file mode content =>
        refine safely_pure (Or.inr ⟨l, mode, writes_set hnode rfl, fun old hold => ?_⟩)
        obtain rfl := Option.some.inj (hnode.symm.trans hold)
        rfl

end Markers

/-- The marker has been written in the directory at `T`, where it is or where a link there leads. -/
def Marked (T : Place) (s s' : FileTree) : Prop :=
  (s' = s ∨ ∃ l mode, Writes s s' l (.file mode []) ∧ ∀ old, s.node l = some old → old.isFile = true) ∧
    ((∀ old, s.node (completionMarker :: T) = some old → old.isSymlink = false) →
      ∃ mode, Writes s s' (completionMarker :: T) (.file mode []) ∧
        ∀ old, s.node (completionMarker :: T) = some old → old.isFile = true)

theorem Marked.grows {T : Place} {s s' : FileTree} (h : Marked T s s') : s.Grows s' := by
  rcases h.1 with rfl | ⟨l, mode, hwrites, hfile⟩
  · exact FileSystem.Grows.refl s'
  · refine hwrites.grows fun old hold => ?_
    have hf := hfile old hold
    cases old <;> first | rfl | cases hf

theorem marked_safely {r : Regime} {s : FileTree} {dst : FsPath} {E C : FileTree → Prop}
    (hdst : s.Bound dst r.top) (hC : C s) (hE : E s) :
    Safely r.sem (fun _ => Marked r.top s) E C (writeCompletionMarker dst) s := by
  by_cases hlink : ∀ old, s.node (completionMarker :: r.top) = some old → old.isSymlink = false
  · refine (writeEmpty_safely hdst hlink hC fun _ => hE).mono (fun _ s' hs' => ?_) (fun _ h => h)
      fun _ h => h
    obtain ⟨⟨mode, hwrites⟩, hfile, -⟩ := hs'
    exact ⟨Or.inr ⟨_, mode, hwrites, hfile⟩, fun _ => ⟨mode, hwrites, hfile⟩⟩
  · exact (writeEmpty_linked hC hE).mono (fun _ s' hs' => ⟨hs', fun h => absurd h hlink⟩)
      (fun _ h => h) fun _ h => h

/-- What holds of every partial copy holds wherever a populate stops, and what the marker leaves in a
target that mirrors the source holds where it returns. -/
theorem populateCache_safely {r : Regime} {S : Place} {fs : FileTree} {source cacheDir : FsPath}
    {version : OsString} {depth : Nat} {I Q : FileTree → Prop} (hapart : Apart S r.top)
    (hsrc : fs.Bound source S) (hdst : Aims fs (.name version :: cacheDir) r.top)
    (hfits : Fits S r.top [] fs)
    (hdepth : r.honest → ∀ z, fs.node (z ++ S) ≠ none → z.length < depth)
    (hpart : ∀ s, Partial S r.top [] fs s → I s)
    (hmark : ∀ s s', Partial S r.top [] fs s → Copied r S [] fs s → s.IsDir r.top →
      Marked r.top s s' → Q s') :
    Safely r.sem (fun _ => Q) I I (populateCache depth source cacheDir version) fs := by
  rw [populateCache_eq]
  refine Safely.bind ((copyFromCache_safely hapart hsrc hdst hfits hdepth).mono (fun _ s hs => hs)
    (fun s hs => hpart s hs.1) hpart) fun _ s hs => ?_
  obtain ⟨mode, hmode⟩ := isDir_iff.mp hsrc.isDir
  obtain ⟨c, hc, hbody⟩ := hs.2.mirrors [] _ hmode
  have hdir : s.IsDir r.top := by
    have hc' : s.node r.top = some c := hc
    rw [IsDir, hc', Option.any_some, Node.isDir_of_shape (Node.shape_of_body hbody)]
    rfl
  exact (marked_safely (hdst.bound hs.1.grows hdir) (hpart s hs.1) (hpart s hs.1)).mono
    (fun _ s' hs' => hmark s s' hs.1 hs.2 hdir hs') (fun _ h => h) fun _ h => h

/-! ### What attempts leave -/

/-- An attempt has made the link that is the marker of the source, and may have written through it. -/
def Operation.Linked (op : Operation) (S T : Place) (fs : FileTree) : Prop :=
  ∃ y g, op.marker = some y ∧ fs.node (y ++ S) = some g ∧ g.isSymlink = true ∧ fs.node (y ++ T) ≠ none

/-- Where both trees have a node the kinds agree, links with their text, and the target has no node
besides but for the marker. -/
structure Operation.Leftover (op : Operation) (S T : Place) (fs : FileTree) : Prop where
  shapes : ∀ y g o, fs.node (y ++ S) = some g → fs.node (y ++ T) = some o → g.shape = o.shape
  extras : ∀ y o, fs.node (y ++ S) = none → fs.node (y ++ T) = some o →
    op.marker = some y ∧ o.isFile = true ∨ op.Linked S T fs

section Leftovers

variable {op : Operation} {S T : Place} {fs s : FileTree}

theorem Operation.Leftover.fits (h : op.Leftover S T fs) : Fits S T [] fs := by
  intro z g o hg ho
  rw [List.append_nil] at hg ho
  exact Or.inr (h.shapes z g o hg ho)

theorem not_linked {r : Regime} (h : Copied r S [] fs s) : ¬ op.Linked S r.top fs := by
  rintro ⟨y, g, -, hg, hlink, hnode⟩
  have hnone := h.links y g (by rwa [List.append_nil]) hlink
  rw [List.append_nil] at hnone
  exact hnode hnone

theorem copied_node {r : Regime} (hhonest : r.honest) (hpart : Partial S r.top [] fs s)
    (h : Copied r S [] fs s) (y : Place) :
    s.node (y ++ r.top) = (fs.node (y ++ S)).or (fs.node (y ++ r.top)) := by
  cases hg : fs.node (y ++ S) with
  | none =>
    have hsite := hpart.site y
    rw [List.append_nil, hg] at hsite
    exact hsite
  | some g =>
    have hequal := h.equals hhonest y g (by rwa [List.append_nil])
    rw [List.append_nil] at hequal
    exact hequal

variable {u : User} {source : FsPath} {depth : Nat}

theorem restores_copied (hleft : op.Leftover S T fs) (hpart : Partial S T [] fs s)
    (h : Copied (refusals u T) S [] fs s) (y : Place) (hy : op.marker ≠ some y) :
    s.node (y ++ T) = fs.node (y ++ S) := by
  have hnode := copied_node (r := refusals u T) trivial hpart h y
  cases hg : fs.node (y ++ S) with
  | some g =>
    rw [hg] at hnode
    exact hnode
  | none =>
    rw [hg] at hnode
    refine hnode.trans ?_
    cases ho : fs.node (y ++ T) with
    | none => exact ho
    | some o =>
      rcases hleft.extras y o hg ho with ⟨hmarker, -⟩ | hlinked
      · exact absurd hmarker hy
      · exact absurd hlinked (not_linked (r := refusals u T) h)

theorem marker_safely {n : OsString} {dst : FsPath} (hmarker : op.marker = some [n])
    (hleft : op.Leftover S T fs) (hdst : s.Bound dst T) (hsrc : fs.IsDir S)
    (hpart : Partial S T [] fs s) (h : Copied (refusals u T) S [] fs s) :
    Safely (refusals u T).sem (fun _ s' => op.Restores S T fs s' ↔ op.Repairable u S T fs)
      (fun _ => ¬ op.Repairable u S T fs) (fun _ => True) (writeEmpty (.name n :: dst)) s := by
  have hready : Ready u S T [] fs := h.ready trivial
  obtain ⟨mode, hmode⟩ := isDir_iff.mp hsrc
  have htop : s.node T = some (.dir mode) := by
    have hnode : s.node T = (fs.node S).or (fs.node T) :=
      copied_node (r := refusals u T) trivial hpart h []
    rw [hmode] at hnode
    exact hnode
  have hnode : s.node (n :: T) = (fs.node (n :: S)).or (fs.node (n :: T)) :=
    copied_node (r := refusals u T) trivial hpart h [n]
  have hrepairable : op.Repairable u S T fs ↔ u.marks mode (s.node (n :: T)) = true := by
    unfold Operation.Repairable
    rw [hmode, hnode]
    refine ⟨fun hrep => hrep.2 [n] hmarker, fun hmarks => ⟨hready, fun y hy => ?_⟩⟩
    obtain rfl := Option.some.inj (hmarker.symm.trans hy)
    exact hmarks
  by_cases hlink : ∀ old, s.node (n :: T) = some old → old.isSymlink = false
  · refine (writeEmpty_safely (r := refusals u T) hdst hlink trivial fun hrefused hrep => ?_).mono
      (fun _ s' hs' => ?_) (fun _ h => h) fun _ h => h
    · have hmarks := hrepairable.mp hrep
      have hfile : ∀ old, s.node (n :: T) = some old → old.isFile = true := by
        intro old hold
        rw [hold] at hmarks
        cases old with
        | file mode' content => rfl
        | dir mode' => cases hmarks
        | symlink target => cases hmarks
      rw [marks_eq htop hfile] at hmarks
      exact absurd (hmarks.symm.trans (hrefused trivial hfile)) Bool.noConfusion
    · obtain ⟨⟨mode', hwrites⟩, hfile, hoverwrites⟩ := hs'
      refine iff_of_true ⟨fun y hy => ?_, fun y hy => ?_⟩
        (hrepairable.mpr ((marks_eq htop hfile).trans (hoverwrites trivial)))
      · rw [hwrites.other fun heq => hy ?_]
        · exact restores_copied hleft hpart h y hy
        · have heq' : y ++ T = [n] ++ T := heq
          rw [hmarker, List.append_cancel_right heq']
      · obtain rfl := Option.some.inj (hmarker.symm.trans hy)
        exact ⟨mode', hwrites.self⟩
  · push Not at hlink
    obtain ⟨old, hold, hsymlink⟩ := hlink
    have hnot : ¬ op.Repairable u S T fs := by
      rw [hrepairable, hold]
      cases old with
      | symlink target => exact Bool.false_ne_true
      | dir mode' => exact absurd rfl hsymlink
      | file mode' content => exact absurd rfl hsymlink
    refine (writeEmpty_linked trivial hnot).mono (fun _ s' hs' => iff_of_false (fun hrest => ?_) hnot)
      (fun _ h => h) fun _ h => h
    obtain ⟨mode', hfinal⟩ := hrest.2 [n] hmarker
    have hkept : s'.node (n :: T) = some old := by
      rcases hs' with rfl | ⟨l, mode'', hwrites, hfile⟩
      · exact hold
      · rw [hwrites.other ?_, hold]
        rintro rfl
        have hf := hfile old hold
        cases old with
        | symlink target => cases hf
        | dir mode' => exact hsymlink rfl
        | file mode' content => exact hsymlink rfl
    have heq : some old = some (.file mode' []) := hkept.symm.trans hfinal
    obtain rfl := Option.some.inj heq
    exact hsymlink rfl

/-- **Copying again.** From what attempts leave, a run in which no call fails that is not refused
returns with the target restored just where the copy can be repaired. -/
theorem again_safely (hapart : Apart S T) (hsrc : fs.Bound source S) (hdst : Aims fs op.target T)
    (hleft : op.Leftover S T fs) (hdepth : ∀ z, fs.node (z ++ S) ≠ none → z.length < depth) :
    Safely (refusals u T).sem (fun _ s => op.Restores S T fs s ↔ op.Repairable u S T fs)
      (fun _ => ¬ op.Repairable u S T fs) (fun _ => True) (op.code depth source) fs := by
  have hcopy := copyFromCache_safely (r := refusals u T) hapart hsrc hdst hleft.fits fun _ => hdepth
  have hrun : Safely (refusals u T).sem (fun _ s => Partial S T [] fs s ∧
      Copied (refusals u T) S [] fs s) (fun _ => ¬ op.Repairable u S T fs) (fun _ => True)
      (copyFromCache depth source op.target) fs :=
    hcopy.mono (fun _ s hs => hs) (fun s hs hrep => hs.2 trivial hrep.1) fun _ _ => trivial
  cases op with
  | copyFromCache target =>
    refine hrun.mono (fun _ s hs => iff_of_true ⟨fun y hy => ?_, nofun⟩ ⟨hs.2.ready trivial, nofun⟩)
      (fun _ h => h) fun _ h => h
    exact restores_copied hleft hs.1 hs.2 y hy
  | populateCache cacheDir version =>
    rw [Operation.code, populateCache_eq]
    refine Safely.bind hrun fun _ s hs => ?_
    obtain ⟨mode, hmode⟩ := isDir_iff.mp hsrc.isDir
    have htop : s.node T = some (.dir mode) := hs.2.equals trivial [] _ hmode
    exact marker_safely rfl hleft (hdst.bound hs.1.grows (isDir_iff.mpr ⟨mode, htop⟩)) hsrc.isDir
      hs.1 hs.2

end Leftovers

/-! ### Attempts -/

/-- What holds before and after every attempt. -/
structure Operation.Ground (op : Operation) (source : FsPath) (S T : Place) (fs : FileTree) : Prop where
  source : fs.Bound source S
  target : Aims fs op.target T
  left : op.Leftover S T fs

section Attempts

variable {op : Operation} {S T : Place} {fs s s' : FileTree} {source : FsPath}

theorem Operation.Linked.grows (h : op.Linked S T fs)
    (hsource : ∀ y g, fs.node (y ++ S) = some g → g.isSymlink = true → s.node (y ++ S) = some g)
    (hgrows : fs.Grows s) : op.Linked S T s := by
  obtain ⟨y, g, hmarker, hg, hlink, hnode⟩ := h
  obtain ⟨o, ho⟩ := Option.ne_none_iff_exists'.mp hnode
  obtain ⟨o', ho', -⟩ := hgrows _ o ho
  exact ⟨y, g, hmarker, hsource y g hg hlink, hlink, ho' ▸ Option.some_ne_none _⟩

theorem aims_part {path : FsPath} (h : Aims fs path T) (hpart : Partial S T [] fs s)
    (hdir : fs.IsDir S) : Aims s path T := by
  cases h with
  | there hb => exact .there (hb.grows hpart.grows)
  | @missing path d n hb hnone =>
    exact aims_entry (hb.grows hpart.grows) (hpart.none_or_dir hdir (Or.inl hnone))

theorem Operation.Ground.part (hapart : Apart S T) (h : op.Ground source S T fs)
    (hpart : Partial S T [] fs s) : op.Ground source S T s := by
  have hgrows := hpart.grows
  have hsource := hpart.source hapart
  refine ⟨h.source.grows hgrows, aims_part h.target hpart h.source.isDir,
    fun y g o hg ho => ?_, fun y o hg ho => ?_⟩
  · rw [hsource] at hg
    have htop := hpart.site_top y
    rw [hg, ho] at htop
    cases hold : fs.node (y ++ T) with
    | none =>
      rw [hold] at htop
      exact (htop o rfl).symm
    | some old =>
      rw [hold] at htop
      obtain ⟨c, hc, hshape, -⟩ := htop
      obtain rfl := Option.some.inj hc
      exact (h.left.shapes y g old hg hold).trans hshape.symm
  · rw [hsource] at hg
    have htop := hpart.site_top y
    rw [hg] at htop
    rcases h.left.extras y o hg (htop.symm.trans ho) with hmarker | hlinked
    · exact Or.inl hmarker
    · exact Or.inr (hlinked.grows (fun y g hg _ => (hsource y).trans hg) hgrows)

/-- The copy has been made: nothing of the source is missing in the target, and there is nothing
besides but the marker. -/
structure Operation.Filled (op : Operation) (S T : Place) (s : FileTree) : Prop where
  top : s.IsDir T
  full : ∀ y, s.node (y ++ T) = none → s.node (y ++ S) = none
  only : ∀ y, s.node (y ++ S) = none → s.node (y ++ T) ≠ none →
    op.marker = some y ∧ ∀ old, s.node (y ++ T) = some old → old.isFile = true

theorem filled_of_copied {u : User} (hapart : Apart S T) (h : op.Ground source S T fs)
    (hpart : Partial S T [] fs s) (hcopied : Copied (anyFailure u T) S [] fs s) :
    op.Filled S T s := by
  have hsource := hpart.source hapart
  refine ⟨?_, fun y hnone => ?_, fun y hg hnode => ?_⟩
  · obtain ⟨mode, hmode⟩ := isDir_iff.mp h.source.isDir
    obtain ⟨c, hc, hbody⟩ := hcopied.mirrors [] _ hmode
    have hc' : s.node T = some c := hc
    rw [IsDir, hc', Option.any_some, Node.isDir_of_shape (Node.shape_of_body hbody)]
    rfl
  · rw [hsource]
    by_contra hne
    obtain ⟨g, hg⟩ := Option.ne_none_iff_exists'.mp hne
    obtain ⟨c, hc, -⟩ := hcopied.mirrors y g (by rwa [List.append_nil])
    rw [List.append_nil] at hc
    exact Option.some_ne_none c (hc.symm.trans hnone)
  · rw [hsource] at hg
    have hsite := hpart.site y
    rw [List.append_nil, hg] at hsite
    have hsame : s.node (y ++ T) = fs.node (y ++ T) := hsite
    rw [hsame] at hnode ⊢
    obtain ⟨o, ho⟩ := Option.ne_none_iff_exists'.mp hnode
    rcases h.left.extras y o hg ho with ⟨hmarker, hfile⟩ | hlinked
    · refine ⟨hmarker, fun old hold => ?_⟩
      obtain rfl := Option.some.inj (ho.symm.trans hold)
      exact hfile
    · exact absurd hlinked (not_linked (r := anyFailure u T) hcopied)

theorem Operation.Ground.marked (hapart : Apart S T) (h : op.Ground source S T s)
    (hfilled : op.Filled S T s) {l : Place} {mode : Nat} (hwrites : Writes s s' l (.file mode []))
    (hold : ∀ old, s.node l = some old → old.isFile = true)
    (hplace : (∃ y, op.marker = some y ∧ l = y ++ T) ∨ ∃ y target, op.marker = some y ∧
      s.node (y ++ T) = some (.symlink target)) : op.Ground source S T s' := by
  have hgrows := hwrites.grows fun old hnode => by
    have hfile := hold old hnode
    cases old <;> first | rfl | cases hfile
  have hshape : ∀ l' new, s'.node l' = some new → ∀ old, s.node l' = some old →
      new.shape = old.shape := by
    intro l' new hnew old hnode
    obtain ⟨new', hnew', hshape⟩ := hgrows l' old hnode
    obtain rfl := Option.some.inj (hnew'.symm.trans hnew)
    exact hshape
  have hother : ∀ l', s'.node l' ≠ none → s.node l' = none → l' = l := by
    intro l' hnew hnone
    by_contra hne
    exact hnew ((hwrites.other hne).trans hnone)
  have hsourceLink : ∀ y g, s.node (y ++ S) = some g → g.isSymlink = true →
      s'.node (y ++ S) = some g := by
    intro y g hg hlink
    rw [hwrites.other fun heq => ?_, hg]
    have hfile := hold g (heq ▸ hg)
    cases g with
    | dir mode' => cases hlink
    | file mode' content => cases hlink
    | symlink target => cases hfile
  refine ⟨h.source.grows hgrows, .there (h.target.bound hgrows (hgrows.isDir hfilled.top)),
    fun y g o hg ho => ?_, fun y o hg ho => ?_⟩
  · cases hg' : s.node (y ++ S) with
    | some g' =>
      cases ho' : s.node (y ++ T) with
      | none =>
        rw [hfilled.full y ho'] at hg'
        cases hg'
      | some o' =>
        rw [hshape _ g hg g' hg', hshape _ o ho o' ho']
        exact h.left.shapes y g' o' hg' ho'
    | none =>
      have hl : y ++ S = l := hother _ (hg ▸ Option.some_ne_none _) hg'
      have ho' : s.node (y ++ T) = some o := by
        rw [← hwrites.other fun heq => hapart.ne y y (hl.trans heq.symm), ho]
      obtain ⟨hmarker, hfile⟩ := hfilled.only y hg' (ho' ▸ Option.some_ne_none _)
      rcases hplace with ⟨y', -, hl'⟩ | ⟨y', target, hmarker', hlink⟩
      · exact absurd (hl.trans hl') (hapart.ne y y')
      · obtain rfl := Option.some.inj (hmarker.symm.trans hmarker')
        cases hfile _ hlink
  · have hg' : s.node (y ++ S) = none := by
      by_contra hne
      obtain ⟨g, hsome⟩ := Option.ne_none_iff_exists'.mp hne
      obtain ⟨g', hg', -⟩ := hgrows _ g hsome
      exact Option.some_ne_none g' (hg'.symm.trans hg)
    rcases hplace with ⟨y', hmarker, rfl⟩ | ⟨y', target, hmarker, hlink⟩
    · by_cases hy : y = y'
      · subst hy
        obtain rfl := Option.some.inj (hwrites.self.symm.trans ho)
        exact Or.inl ⟨hmarker, rfl⟩
      · have ho' : s.node (y ++ T) = some o := by
          rw [← hwrites.other fun heq => hy (List.append_cancel_right heq), ho]
        obtain ⟨hmarker', hfile⟩ := hfilled.only y hg' (ho' ▸ Option.some_ne_none _)
        exact Or.inl ⟨hmarker', hfile o ho'⟩
    · refine Or.inr ⟨y', ?_⟩
      cases hsource : s.node (y' ++ S) with
      | none =>
        obtain ⟨-, hfile⟩ := hfilled.only y' hsource (hlink ▸ Option.some_ne_none _)
        cases hfile _ hlink
      | some g =>
        have hsymlink : g.isSymlink = true :=
          Node.isSymlink_of_shape (h.left.shapes y' g _ hsource hlink)
        obtain ⟨o', ho', -⟩ := hgrows _ _ hlink
        exact ⟨g, hmarker, hsourceLink y' g hsource hsymlink, hsymlink, ho' ▸ Option.some_ne_none _⟩

/-- **What an attempt leaves**, however its calls fail and wherever it is killed. -/
theorem leftover_attempt (u : User) (depth : Nat) (hapart : Apart S T)
    (h : op.Ground source S T fs) :
    Safely (anyFailure u T).sem (fun _ => op.Ground source S T) (op.Ground source S T)
      (op.Ground source S T) (op.code depth source) fs := by
  cases op with
  | copyFromCache target =>
    exact (copyFromCache_safely (r := anyFailure u T) hapart h.source h.target h.left.fits
      fun hhonest => hhonest.elim).mono (fun _ s hs => h.part hapart hs.1)
      (fun s hs => h.part hapart hs.1) fun s hs => h.part hapart hs
  | populateCache cacheDir version =>
    refine populateCache_safely (r := anyFailure u T) hapart h.source h.target h.left.fits
      (fun hhonest => hhonest.elim) (fun s hs => h.part hapart hs)
      fun s s' hpart hcopied _ hmarked => ?_
    have hground := h.part hapart hpart
    have hfilled := filled_of_copied hapart h hpart hcopied
    by_cases hlink : ∀ old, s.node (completionMarker :: T) = some old → old.isSymlink = false
    · obtain ⟨mode, hwrites, hfile⟩ := hmarked.2 hlink
      exact hground.marked hapart hfilled hwrites hfile (Or.inl ⟨_, rfl, rfl⟩)
    · push Not at hlink
      obtain ⟨old, hold, hsymlink⟩ := hlink
      rcases hmarked.1 with rfl | ⟨l, mode, hwrites, hfile⟩
      · exact hground
      · refine hground.marked hapart hfilled hwrites hfile (Or.inr ⟨[completionMarker], ?_⟩)
        cases old with
        | symlink target => exact ⟨target, rfl, hold⟩
        | dir mode' => exact absurd rfl hsymlink
        | file mode' content => exact absurd rfl hsymlink

end Attempts

/-! ### The next run -/

/-- An earlier run of the same operation, by a user with this umask, which stopped where its choices
end. -/
structure Attempt where
  umask : Nat
  depth : Nat
  choices : List Choice

def Operation.attempt (op : Operation) (source : FsPath) (fs : FileTree) (a : Attempt) : FileTree :=
  (Crash.run (exec a.umask) a.choices (op.code a.depth source).run fs).2

/-- What is left after the attempts. -/
def Operation.leaves (op : Operation) (source : FsPath) (fs : FileTree) (attempts : List Attempt) :
    FileTree :=
  attempts.foldl (op.attempt source) fs

section Runs

variable {op : Operation} {S T : Place} {fs : FileTree} {source : FsPath}

theorem ground_fresh (hsrc : fs.Bound source S) (hdst : Aims fs op.target T)
    (hfresh : ∀ y, fs.node (y ++ T) ≠ none → y = []) : op.Ground source S T fs := by
  obtain ⟨mode, hmode⟩ := isDir_iff.mp hsrc.isDir
  refine ⟨hsrc, hdst, fun y g o hg ho => ?_, fun y o hg ho => ?_⟩
  · obtain rfl := hfresh y (ho ▸ Option.some_ne_none _)
    obtain rfl := Option.some.inj (hmode.symm.trans hg)
    obtain ⟨mode', hmode'⟩ := isDir_iff.mp (aims_dir hdst ho)
    obtain rfl := Option.some.inj (hmode'.symm.trans ho)
    rfl
  · obtain rfl := hfresh y (ho ▸ Option.some_ne_none _)
    exact absurd (hmode.symm.trans hg) (Option.some_ne_none _)

theorem ground_attempt (hapart : Apart S T) (h : op.Ground source S T fs) (a : Attempt) :
    op.Ground source S T (op.attempt source fs a) := by
  rcases (leftover_attempt ⟨false, a.umask⟩ a.depth hapart h).run a.choices with
    ⟨_, -, h⟩ | ⟨_, -, h⟩ | ⟨-, h⟩
  · exact h
  · exact h
  · exact h

theorem ground_leaves (hapart : Apart S T) (h : op.Ground source S T fs) (attempts : List Attempt) :
    op.Ground source S T (op.leaves source fs attempts) := by
  induction attempts generalizing fs with
  | nil => exact h
  | cons a attempts ih => exact ih (ground_attempt hapart h a)

/-- **When the next run repairs the target.** For every source tree and target that are apart, every
list of attempts from a missing or empty target, each killed at any call and with any failures, and
every order in which the directories are then listed: if no call fails that is not refused, the next
run returns with the target equal to the source just where the copy can be repaired. -/
theorem repaired_iff (u : User) {depth : Nat} (hapart : Apart S T) (hsrc : fs.Bound source S)
    (hdst : Aims fs op.target T) (hfresh : ∀ y, fs.node (y ++ T) ≠ none → y = [])
    (attempts : List Attempt)
    (hdepth : ∀ z, (op.leaves source fs attempts).node (z ++ S) ≠ none → z.length < depth)
    (choices : Nat → Choice) :
    let left := op.leaves source fs attempts
    let ended := Crash.finish (refusals u T).sem choices (op.code depth source).run left
    ended.1 = .ok () ∧ op.Restores S T left ended.2 ↔ op.Repairable u S T left := by
  intro left ended
  have hground := ground_leaves hapart (ground_fresh hsrc hdst hfresh) attempts
  have hrun := again_safely (u := u) hapart hground.source hground.target hground.left hdepth
  rcases hrun.finish choices with ⟨a, hok, hiff⟩ | ⟨e, herror, hnot⟩
  · exact (and_iff_right hok).trans hiff
  · refine iff_of_false (fun h => ?_) hnot
    have heq := herror.symm.trans h.1
    cases heq

end Runs

/-! ### A link and a file that are copied again -/

section Keys

variable {S T : Place} {fs : FileTree}

theorem fresh_of_keys (h : ∀ l ∈ fs.table.keys, T <:+ l → l = T) (y : Place)
    (hnode : fs.node (y ++ T) ≠ none) : y = [] :=
  List.append_left_eq_self.mp (forall_node h hnode (List.suffix_append y T))

theorem depth_of_keys {depth : Nat} (h : ∀ l ∈ fs.table.keys, l.length < depth) (z : Place)
    (hnode : fs.node (z ++ S) ≠ none) : z.length < depth := by
  have hlt := forall_node h hnode
  rw [List.length_append] at hlt
  exact Nat.lt_of_le_of_lt (Nat.le_add_right _ _) hlt

theorem ready_of_keys {u : User} (h : ∀ l ∈ fs.table.keys, S <:+ l →
    (fs.node l).all (u.fills T fs (l.take (l.length - S.length) ++ T)) = true) :
    Ready u S T [] fs := by
  intro z g hg
  rw [List.append_nil] at hg ⊢
  have hall := forall_node h (hg ▸ Option.some_ne_none g) (List.suffix_append z S)
  rw [hg, Option.all_some, List.length_append, Nat.add_sub_cancel, List.take_left] at hall
  exact hall

end Keys

/-- No failure, and entries in the order of the table. -/
def calm : Choice := ⟨none, [], none, 0⟩

def installedLink : FileTree :=
  .ofList [([osString "installed"], .dir 0o755),
    ([osString "libpq.so.5", osString "installed"], .file 0o644 [1, 2]),
    ([osString "libpq.so", osString "installed"],
      .symlink ⟨false, [.name (osString "libpq.so.5")]⟩)]

/-- The first copy returns, and the next one, by root, fails at the link that is there. -/
theorem link_not_copied_again :
    let op := Operation.copyFromCache [.name (osString "target")]
    let source := [Hop.name (osString "installed")]
    let S := [osString "installed"]
    let T := [osString "target"]
    let finished : Attempt := ⟨0o022, 2, List.replicate 30 calm⟩
    (Apart S T ∧ installedLink.Bound source S ∧ Aims installedLink op.target T ∧
        ∀ y, installedLink.node (y ++ T) ≠ none → y = []) ∧
      (Crash.run (exec 0o022) finished.choices (op.code 2 source).run installedLink).1 =
        some (.ok ()) ∧
      (Crash.finish (refusals ⟨true, 0o022⟩ T).sem (fun _ => calm) (op.code 2 source).run
        (op.leaves source installedLink [finished])).1 = .error .alreadyExists := by
  have hapart : Apart [osString "installed"] [osString "target"] :=
    ⟨by decide +kernel, by decide +kernel⟩
  have hsrc : installedLink.Bound [.name (osString "installed")] [osString "installed"] :=
    (bound_root _).child (by decide +kernel)
  have hdst : Aims installedLink [.name (osString "target")] [osString "target"] :=
    .missing (bound_root _) (by decide +kernel)
  exact ⟨⟨hapart, hsrc, hdst, fresh_of_keys (by decide +kernel)⟩, by decide +kernel,
    by decide +kernel⟩

def installedFile : FileTree :=
  .ofList [([osString "installed"], .dir 0o755),
    ([osString "postgres", osString "installed"], .file 0o755 [1, 2]),
    ([osString "cache"], .dir 0o755)]

/-- A populate has been killed when it had made the file, and the next one fills it. -/
theorem truncated_file_repaired :
    let op := Operation.populateCache [.name (osString "cache")] (osString "17.4.0")
    let source := [Hop.name (osString "installed")]
    let T := [osString "17.4.0", osString "cache"]
    let left := op.leaves source installedFile [⟨0o022, 2, List.replicate 6 calm⟩]
    let ended := Crash.finish (refusals ⟨false, 0o022⟩ T).sem (fun _ => calm) (op.code 4 source).run left
    left.node (osString "postgres" :: T) = some (.file 0o755 []) ∧ ended.1 = .ok () ∧
      op.Restores [osString "installed"] T left ended.2 := by
  have hapart : Apart [osString "installed"] [osString "17.4.0", osString "cache"] :=
    ⟨by decide +kernel, by decide +kernel⟩
  have hsrc : installedFile.Bound [.name (osString "installed")] [osString "installed"] :=
    (bound_root _).child (by decide +kernel)
  have hdst : Aims installedFile
      (Operation.populateCache [.name (osString "cache")] (osString "17.4.0")).target
      [osString "17.4.0", osString "cache"] :=
    .missing ((bound_root _).child (by decide +kernel)) (by decide +kernel)
  refine ⟨by decide +kernel, ?_⟩
  refine (repaired_iff
    ⟨false, 0o022⟩ hapart hsrc hdst (fresh_of_keys (by decide +kernel)) _
    (depth_of_keys (by decide +kernel)) (fun _ => calm)).mpr ⟨ready_of_keys (by decide +kernel), ?_⟩
  intro y hy
  obtain rfl := Option.some.inj hy
  decide +kernel

end PgEmbeddedSetup.Cache
