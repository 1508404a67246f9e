import PgEmbeddedSetup.Cache.Calls

/-!
# What a recursive copy does

`copyDirRecursive_safely`: however its calls fail and wherever it is killed, the copy leaves a partial
copy and nothing else changed. If it returns, the tree is mirrored. In a run in which calls fail only
where they are refused it returns if all places can be filled, and then the modes are right as well; if
one cannot, it fails.

The proof follows the recursion. `Loop` is what holds between two entries of a directory: those that
are done are copied, and those to come are as they were.
-/

namespace PgEmbeddedSetup.Cache

open Env Posix FileSystem Program Crash

/-- What a copy that returns has done at `x` since `fs`. -/
structure Copied (r : Regime) (S : Place) (x : Place) (fs s : FileTree) : Prop where
  mirrors : Mirrors S r.top x fs s
  equals : r.honest → Equals S r.top x fs s
  ready : r.honest → Ready r.user S r.top x fs
  links : ∀ z g, fs.node (z ++ x ++ S) = some g → g.isSymlink = true → fs.node (z ++ x ++ r.top) = none

/-- What a copy that fails leaves. -/
def Failed (r : Regime) (S : Place) (x : Place) (fs s : FileTree) : Prop :=
  Partial S r.top x fs s ∧ (r.honest → ¬ Ready r.user S r.top x fs)

/-! ### Changes elsewhere -/

section Congruence

variable {u : User} {S T x : Place} {fs s : FileTree}

theorem fills_stands {l : Place} (h : ∀ l', l' <:+ l → l' ≠ l → Stands u fs s l')
    (hnode : s.node l = fs.node l) (g : Node OsString) : u.fills T s l g = u.fills T fs l g := by
  cases g with
  | dir mode => exact enters_stands h hnode
  | file mode content => exact overwrites_stands h hnode
  | symlink target =>
    unfold User.fills
    rw [enters_stands h hnode, hnode]

theorem ready_congr (hsource : ∀ z, s.node (z ++ x ++ S) = fs.node (z ++ x ++ S))
    (htarget : ∀ z, s.node (z ++ x ++ T) = fs.node (z ++ x ++ T))
    (hup : ∀ l, l <:+ x ++ T → l ≠ x ++ T → Stands u fs s l) :
    Ready u S T x s ↔ Ready u S T x fs := by
  have hfills : ∀ z g, u.fills T s (z ++ x ++ T) g = u.fills T fs (z ++ x ++ T) g := by
    intro z g
    refine fills_stands (fun l hl hne => ?_) (htarget z) g
    rw [List.append_assoc] at hl
    rcases List.suffix_or_suffix_of_suffix hl (List.suffix_append z (x ++ T)) with hup' | ⟨w, rfl⟩
    · by_cases heq : l = x ++ T
      · subst heq
        exact Or.inl (htarget [])
      · exact hup l hup' heq
    · rw [← List.append_assoc]
      exact Or.inl (htarget w)
  simp only [Ready, hsource, hfills]

theorem mirrors_congr {s' : FileTree} (hsource : ∀ z, s.node (z ++ x ++ S) = fs.node (z ++ x ++ S)) :
    Mirrors S T x s s' ↔ Mirrors S T x fs s' := by
  simp only [Mirrors, hsource]

theorem equals_congr {s' : FileTree} (hsource : ∀ z, s.node (z ++ x ++ S) = fs.node (z ++ x ++ S)) :
    Equals S T x s s' ↔ Equals S T x fs s' := by
  simp only [Equals, hsource]

theorem ready_below {n : OsString} (h : Ready u S T x fs) : Ready u S T (n :: x) fs := by
  intro z g hg
  have heq : z ++ n :: x = z ++ [n] ++ x := by simp
  rw [heq] at hg ⊢
  exact h _ g hg

end Congruence

/-! ### Leaves -/

section Leaves

variable {r : Regime} {S x : Place} {s s' : FileTree}

theorem copied_leaf {g : Node OsString} (hg : s.node (x ++ S) = some g) (hdir : g.isDir = false)
    (hlink : g.isSymlink = true → s.node (x ++ r.top) = none) (h : Writes s s' (x ++ r.top) g)
    (hfills : r.honest → r.user.fills r.top s (x ++ r.top) g = true) : Copied r S x s s' := by
  have hleaf : ∀ z node, s.node (z ++ x ++ S) = some node → z = [] ∧ node = g := by
    intro z node hnode
    have hnot : ¬ s.IsDir (x ++ S) := by
      rw [IsDir, hg, Option.any_some, hdir]
      exact Bool.false_ne_true
    have hz : z = [] := by
      rw [List.append_assoc] at hnode
      exact eq_nil_of_leaf hnot (hnode ▸ Option.some_ne_none _)
    subst hz
    exact ⟨rfl, Option.some.inj (hnode.symm.trans hg)⟩
  constructor
  · intro z node hnode
    obtain ⟨rfl, rfl⟩ := hleaf z node hnode
    exact ⟨node, h.self, rfl⟩
  · intro _ z node hnode
    obtain ⟨rfl, rfl⟩ := hleaf z node hnode
    exact h.self
  · intro hhonest z node hnode
    obtain ⟨rfl, rfl⟩ := hleaf z node hnode
    exact hfills hhonest
  · intro z node hnode hsymlink
    obtain ⟨rfl, rfl⟩ := hleaf z node hnode
    exact hlink hsymlink

theorem failed_leaf {g : Node OsString} (hg : s.node (x ++ S) = some g)
    (hfills : r.honest → r.user.fills r.top s (x ++ r.top) g = false) : Failed r S x s s := by
  refine ⟨Partial.refl x s, fun hhonest hready => ?_⟩
  have hfill := hready [] g hg
  rw [List.nil_append, hfills hhonest] at hfill
  cases hfill

end Leaves

/-! ### The programs of one entry -/

section Entries

variable {r : Regime} {S x : Place} {s : FileTree} {E C : FileTree → Prop} {src dst : FsPath}

theorem copyPermissions_safely {a l : Place} {g node : Node OsString} (hsrc : Finds s src a g)
    (hdst : Finds s dst l node) (hC : C s) :
    Safely r.sem (fun _ s' => (s' = s ∨ Writes s s' l (withMode (modeOf g) node)) ∧
      (r.honest → r.user.reaches r.top s a = true → r.user.reaches r.top s l = true →
        Writes s s' l (withMode (modeOf g) node))) E C (copyPermissions src dst) s := by
  have hstat : r.user.denied r.top s (.stat src) = !r.user.reaches r.top s a := by
    simp only [User.denied, hsrc.follow]
  have hchmod : r.user.denied r.top s (.chmod dst (modeOf g)) = !r.user.reaches r.top s l := by
    simp only [User.denied, hdst.follow]
  refine safely_step (fun _ _ h => by cases h) hC (fun x _ => ?_) fun f hf => ?_
  · rw [hsrc.stat]
    refine safely_step (fun _ _ h => by cases h) hC (fun x _ => ?_) fun f hf => ?_
    · rw [act_chmod hdst]
      have hwrites := writes_changeMode hdst.node (modeOf g)
      exact safely_pure ⟨Or.inr hwrites, fun _ _ _ => hwrites⟩
    · refine safely_pure ⟨Or.inl rfl, fun hhonest _ hreaches => ?_⟩
      have hdenied := hf hhonest
      rw [hchmod, hreaches] at hdenied
      cases hdenied
  · refine safely_pure ⟨Or.inl rfl, fun hhonest hreaches _ => ?_⟩
    have hdenied := hf hhonest
    rw [hstat, hreaches] at hdenied
    cases hdenied

variable {n : OsString}

theorem copySymlink_safely {target : Link OsString}
    (hsrc : s.Bound src (x ++ S)) (hdst : s.Bound dst (x ++ r.top))
    (hnode : s.node (n :: x ++ S) = some (.symlink target)) :
    Safely r.sem (fun _ s' => Partial S r.top (n :: x) s s' ∧ Copied r S (n :: x) s s')
      (Failed r S (n :: x) s) (Partial S r.top (n :: x) s)
      (copySymlink (.name n :: src) (.name n :: dst)) s := by
  have hC := Partial.refl (S := S) (T := r.top) (n :: x) s
  have hdenied : r.user.denied r.top s (.symlink target (.name n :: dst)) =
      !r.user.enters r.top s (n :: (x ++ r.top)) := by
    simp only [User.denied, hdst.locate]
  refine safely_step (fun _ _ h => by cases h) hC (fun c _ => ?_) fun f hf => ?_
  · simp only [List.cons_append] at hnode
    simp only [act, hsrc.locate, hnode]
    refine safely_step (fun _ _ h => by cases h) hC (fun c hc => ?_) fun f hf => ?_
    · rw [act, makeEntry_bound hdst]
      cases hold : s.node (n :: (x ++ r.top)) with
      | none =>
        have hwrites := writes_new hold hdst.isDir (.symlink target)
        refine safely_pure ⟨hwrites.part ?_,
          copied_leaf hnode rfl (fun _ => hold) hwrites fun hhonest => ?_⟩
        · simp only [List.cons_append, hnode, hold]
          exact fun c hc => by rw [Option.some.inj hc]
        · have henters : r.user.enters r.top s (n :: (x ++ r.top)) = true := by
            simpa using hdenied.symm.trans (hc hhonest).1
          simp only [User.fills, List.cons_append, henters, hold]
          rfl
      | some old =>
        refine safely_throw (failed_leaf hnode fun _ => ?_)
        simp only [User.fills, List.cons_append, hold, Option.isNone_some, Bool.and_false]
    · refine safely_throw (failed_leaf hnode fun hhonest => ?_)
      have henters : r.user.enters r.top s (n :: (x ++ r.top)) = false := by
        simpa using hdenied.symm.trans (hf hhonest)
      simp only [User.fills, List.cons_append, henters, Bool.false_and]
  · exact safely_throw ⟨hC, fun hhonest => by cases hf hhonest⟩

theorem copyFile_safely {mode : Nat} {content : List UInt8} (hapart : Apart S r.top)
    (hsrc : s.Bound src (x ++ S)) (hdst : s.Bound dst (x ++ r.top))
    (hnode : s.node (n :: x ++ S) = some (.file mode content))
    (hold : ∀ old, s.node (n :: x ++ r.top) = some old → old.isFile = true) :
    Safely r.sem (fun _ s' => Partial S r.top (n :: x) s s' ∧ Copied r S (n :: x) s s')
      (Failed r S (n :: x) s) (Partial S r.top (n :: x) s)
      (copyFileWithPermissions (.name n :: src) (.name n :: dst)) s := by
  have hC := Partial.refl (S := S) (T := r.top) (n :: x) s
  have hne : n :: (x ++ S) ≠ n :: (x ++ r.top) := hapart.ne (n :: x) (n :: x)
  have hwritten : ∀ s' mode' content', Writes s s' (n :: x ++ r.top) (.file mode' content') →
      Partial S r.top (n :: x) s s' := by
    intro s' mode' content' hwrites
    refine hwrites.part ?_
    rw [hnode]
    cases hnodeT : s.node (n :: x ++ r.top) with
    | none => exact fun c hc => by rw [← Option.some.inj hc]; rfl
    | some old =>
      have hfile := hold old hnodeT
      refine ⟨_, rfl, ?_, Or.inr rfl⟩
      cases old <;> first | rfl | cases hfile
  have hfinds : Finds s (.name n :: src) (n :: (x ++ S)) (.file mode content) :=
    finds_entry hsrc hnode rfl
  refine Safely.bind (copy_safely hfinds hdst hne hold hC hwritten ?_ ?_) fun _ s' hs' => ?_
  · exact fun hoverwrites => failed_leaf hnode hoverwrites
  · exact fun s' mode' content' hnot hwrites =>
      ⟨hwritten s' mode' content' hwrites, fun hhonest => absurd hhonest hnot⟩
  · obtain ⟨hwrites, hfills⟩ := hs'
    have hgrows := (hwritten _ _ _ hwrites).grows
    have hsrc' : Finds s' (.name n :: src) (n :: (x ++ S)) (.file mode content) :=
      finds_entry (hsrc.grows hgrows) ((hwrites.other hne).trans hnode) rfl
    have hdst' : Finds s' (.name n :: dst) (n :: (x ++ r.top)) (.file mode content) :=
      finds_entry (hdst.grows hgrows) hwrites.self rfl
    refine (copyPermissions_safely hsrc' hdst' (hwritten _ _ _ hwrites)).mono (fun _ s'' hs'' => ?_)
      (fun _ h => h) fun _ h => h
    have hwrites'' : Writes s s'' (n :: x ++ r.top) (.file mode content) := by
      rcases hs''.1 with rfl | h
      · exact hwrites
      · exact hwrites.trans h
    exact ⟨hwritten _ _ _ hwrites'', copied_leaf hnode rfl nofun hwrites'' hfills⟩

end Entries

/-! ### The loop over a directory -/

/-- The copy of a directory keeps to what is asked of it, at depths up to the one given. -/
def Copies (r : Regime) (S : Place) (depth : Nat) (copyDir : FsPath → FsPath → Code Unit) : Prop :=
  ∀ x src dst s, s.Bound src (x ++ S) → Aims s dst (x ++ r.top) → Fits S r.top x s →
    (r.honest → ∀ z, s.node (z ++ x ++ S) ≠ none → z.length < depth) →
    Safely r.sem (fun _ s' => Partial S r.top x s s' ∧ Copied r S x s s') (Failed r S x s)
      (Partial S r.top x s) (copyDir src dst) s

section Loops

variable {r : Regime} {S x : Place} {fs s : FileTree} {src dst : FsPath} {depth : Nat}
  {copyDir : FsPath → FsPath → Code Unit}

theorem aims_fits {T : Place} {n : OsString} {mode : Nat} (hdst : s.Bound dst (x ++ T))
    (hfits : Fits S T (n :: x) s) (hnode : s.node (n :: x ++ S) = some (.dir mode)) :
    Aims s (.name n :: dst) (n :: x ++ T) := by
  have hentry : s.node (n :: (x ++ T)) = none ∨ s.IsDir (n :: (x ++ T)) := by
    cases hold : s.node (n :: (x ++ T)) with
    | none => exact Or.inl rfl
    | some old =>
      have heq := (hfits [] _ old hnode hold).resolve_left Bool.false_ne_true
      rw [IsDir, hold, Option.any_some, ← Node.isDir_of_shape heq]
      exact Or.inr rfl
  exact aims_entry hdst hentry

theorem copyEntry_safely {n : OsString} (hapart : Apart S r.top) (hcopy : Copies r S depth copyDir)
    (hsrc : s.Bound src (x ++ S)) (hdst : s.Bound dst (x ++ r.top))
    (hn : s.node (n :: x ++ S) ≠ none) (hfits : Fits S r.top (n :: x) s)
    (hdepth : r.honest → ∀ z, s.node (z ++ n :: x ++ S) ≠ none → z.length < depth) :
    Safely r.sem (fun _ s' => Partial S r.top (n :: x) s s' ∧ Copied r S (n :: x) s s')
      (Failed r S (n :: x) s) (Partial S r.top (n :: x) s) (copyEntry copyDir src dst n) s := by
  have hC := Partial.refl (S := S) (T := r.top) (n :: x) s
  obtain ⟨g, hg⟩ := Option.ne_none_iff_exists'.mp hn
  have hshape : ∀ old, s.node (n :: x ++ r.top) = some old → g.isSymlink = true ∨ g.shape = old.shape :=
    fun old hold => hfits [] g old hg hold
  have hnode : s.node (n :: (x ++ S)) = some g := hg
  refine safely_step nofun hC (fun c _ => ?_) fun f hf => ?_
  · simp only [act, hsrc.locate, hnode]
    cases g with
    | dir mode =>
      exact hcopy (n :: x) _ _ s (hsrc.child (isDir_iff.mpr ⟨mode, hnode⟩))
        (aims_fits hdst hfits hg) hfits hdepth
    | file mode content =>
      refine copyFile_safely hapart hsrc hdst hg fun old hold => ?_
      have heq := (hshape old hold).resolve_left Bool.false_ne_true
      exact (Node.isFile_of_shape heq).symm
    | symlink target => exact copySymlink_safely hsrc hdst hg
  · exact safely_throw ⟨hC, fun hhonest => by cases hf hhonest⟩

/-- What holds between two entries, where the directories at `x` are those of `fs`. -/
structure Loop (r : Regime) (S x : Place) (fs : FileTree) (done : List OsString) (s : FileTree) :
    Prop where
  part : Partial S r.top x fs s
  top : s.node (x ++ r.top) = fs.node (x ++ r.top)
  copied : ∀ n ∈ done, Copied r S (n :: x) fs s
  todo : ∀ n, n ∉ done → ∀ z, s.node (z ++ n :: x ++ r.top) = fs.node (z ++ n :: x ++ r.top)

theorem loop_start : Loop r S x fs [] fs :=
  ⟨Partial.refl x fs, rfl, nofun, fun _ _ _ => rfl⟩

theorem Loop.source (hapart : Apart S r.top) {done : List OsString} (h : Loop r S x fs done s)
    (y : Place) : s.node (y ++ S) = fs.node (y ++ S) :=
  h.part.source hapart y

theorem Loop.stands {done : List OsString} (h : Loop r S x fs done s) {n : OsString} (l : Place)
    (hl : l <:+ n :: x ++ r.top) (hne : l ≠ n :: x ++ r.top) : Stands r.user fs s l := by
  have hup : l <:+ x ++ r.top := (List.suffix_cons_iff.mp hl).resolve_left hne
  by_cases heq : l = x ++ r.top
  · exact Or.inl (heq ▸ h.top)
  · refine Or.inl (h.part.frame l fun hdown => heq ?_)
    exact hup.eq_of_length_le hdown.length_le

theorem Loop.ready (hapart : Apart S r.top) {done : List OsString} (h : Loop r S x fs done s)
    {n : OsString} (hn : n ∉ done) :
    Ready r.user S r.top (n :: x) s ↔ Ready r.user S r.top (n :: x) fs :=
  ready_congr (fun z => h.source hapart (z ++ n :: x)) (h.todo n hn) h.stands

theorem not_below {n m : OsString} (hne : m ≠ n) (z : Place) {T : Place} :
    ¬ (n :: x ++ T) <:+ (z ++ m :: x ++ T) := by
  rintro ⟨w, hw⟩
  have hlast : (w ++ [n]) ++ (x ++ T) = (z ++ [m]) ++ (x ++ T) := by simpa using hw
  have heq := List.append_cancel_right hlast
  exact hne (List.append_inj_right' heq rfl |> List.cons.inj).1.symm

theorem copied_frame {s' : FileTree} (h : Copied r S x fs s)
    (hframe : ∀ z, s'.node (z ++ x ++ r.top) = s.node (z ++ x ++ r.top)) : Copied r S x fs s' := by
  refine ⟨fun z g hg => ?_, fun hhonest z g hg => ?_, h.ready, h.links⟩
  · rw [hframe]
    exact h.mirrors z g hg
  · rw [hframe]
    exact h.equals hhonest z g hg

theorem below_entry (z : Place) (n : OsString) (x l : Place) :
    z ++ n :: x ++ l = z ++ [n] ++ x ++ l := by simp

theorem Loop.fits (hapart : Apart S r.top) {done : List OsString} (h : Loop r S x fs done s)
    (hfits : Fits S r.top x fs) {n : OsString} (hn : n ∉ done) : Fits S r.top (n :: x) s := by
  intro z g o hg ho
  rw [h.source hapart, below_entry] at hg
  rw [h.todo n hn, below_entry] at ho
  exact hfits (z ++ [n]) g o hg ho

theorem Loop.step (hapart : Apart S r.top) {done : List OsString} (h : Loop r S x fs done s)
    {n : OsString} (hn : n ∉ done) {s' : FileTree} (hpart : Partial S r.top (n :: x) s s')
    (hcopied : Copied r S (n :: x) s s') : Loop r S x fs (done ++ [n]) s' := by
  have hother : ∀ m, m ≠ n → ∀ z, s'.node (z ++ m :: x ++ r.top) = s.node (z ++ m :: x ++ r.top) :=
    fun m hne z => hpart.frame _ (not_below hne z)
  have hsource : ∀ z, s.node (z ++ n :: x ++ S) = fs.node (z ++ n :: x ++ S) :=
    fun z => h.source hapart (z ++ n :: x)
  refine ⟨h.part.trans hapart (Partial.up (y := [n]) hpart), ?_, fun m hm => ?_, fun m hm z => ?_⟩
  · rw [hpart.frame _ fun hdown => ?_, h.top]
    exact absurd hdown.length_le (by simp)
  · rcases List.mem_append.mp hm with hdone | hlast
    · exact copied_frame (h.copied m hdone) (hother m fun heq => hn (heq ▸ hdone))
    · obtain rfl := List.mem_singleton.mp hlast
      exact ⟨(mirrors_congr hsource).mp hcopied.mirrors,
        fun hhonest => (equals_congr hsource).mp (hcopied.equals hhonest),
        fun hhonest => (h.ready hapart hn).mp (hcopied.ready hhonest),
        fun z g hg hlink => (h.todo m hn z).symm.trans
          (hcopied.links z g ((hsource z).trans hg) hlink)⟩
  · have hne : m ≠ n := fun heq => hm (heq ▸ List.mem_append_right _ List.mem_cons_self)
    exact (hother m hne z).trans (h.todo m (fun hdone => hm (List.mem_append_left _ hdone)) z)

theorem Loop.failed (hapart : Apart S r.top) {done : List OsString} (h : Loop r S x fs done s)
    {n : OsString} (hn : n ∉ done) {s' : FileTree} (hfailed : Failed r S (n :: x) s s') :
    Failed r S x fs s' :=
  ⟨h.part.trans hapart (Partial.up (y := [n]) hfailed.1), fun hhonest hready =>
    hfailed.2 hhonest ((h.ready hapart hn).mpr (ready_below hready))⟩

variable (hapart : Apart S r.top) (hcopy : Copies r S depth copyDir) (hsrc : fs.Bound src (x ++ S))
  (hdst : fs.Bound dst (x ++ r.top)) (hfits : Fits S r.top x fs)
  (hdepth : r.honest → ∀ z, fs.node (z ++ x ++ S) ≠ none → z.length < depth + 1)

include hapart hcopy hsrc hdst hfits hdepth

theorem copyEntry_loop {done : List OsString} (h : Loop r S x fs done s) {n : OsString}
    (hn : n ∉ done) (hnode : fs.node (n :: x ++ S) ≠ none) :
    Safely r.sem (fun _ => Loop r S x fs (done ++ [n])) (Failed r S x fs) (Partial S r.top x fs)
      (copyEntry copyDir src dst n) s := by
  have hentry : s.node (n :: x ++ S) ≠ none := by
    rw [h.source hapart]
    exact hnode
  have hbelow : r.honest → ∀ z, s.node (z ++ n :: x ++ S) ≠ none → z.length < depth := by
    intro hhonest z hz
    rw [h.source hapart, below_entry] at hz
    have hlt := hdepth hhonest (z ++ [n]) hz
    rw [List.length_append, List.length_singleton] at hlt
    exact Nat.lt_of_succ_lt_succ hlt
  refine (copyEntry_safely hapart hcopy (hsrc.grows h.part.grows) (hdst.grows h.part.grows) hentry
    (h.fits hapart hfits hn) hbelow).mono ?_ ?_ ?_
  · exact fun _ s' hs' => h.step hapart hn hs'.1 hs'.2
  · exact fun s' hs' => h.failed hapart hn hs'
  · exact fun s' hs' => h.part.trans hapart (Partial.up (y := [n]) hs')

theorem copyEntries_safely {listing : List OsString × Option Fault} (hnodup : listing.1.Nodup)
    (hmem : ∀ n ∈ listing.1, fs.node (n :: x ++ S) ≠ none) (hwhole : r.honest → listing.2 = none) :
    Safely r.sem (fun _ s => Loop r S x fs listing.1 s ∧ listing.2 = none) (Failed r S x fs)
      (Partial S r.top x fs) (copyEntries copyDir src dst listing) fs := by
  have hloop : Safely r.sem (fun _ => Loop r S x fs listing.1) (Failed r S x fs)
      (Partial S r.top x fs) (listing.1.forM (copyEntry copyDir src dst)) fs := by
    refine safely_forM (fun before n after s heq hs => ?_) loop_start
    have hn : n ∉ before := by
      rw [heq] at hnodup
      exact fun h => (List.nodup_append.mp hnodup).2.2 n h n List.mem_cons_self rfl
    have hnode : n ∈ listing.1 := heq ▸ List.mem_append_right _ List.mem_cons_self
    exact copyEntry_loop hapart hcopy hsrc hdst hfits hdepth hs hn (hmem n hnode)
  refine Safely.bind hloop fun _ s hs => ?_
  cases hbroken : listing.2 with
  | none => exact safely_pure ⟨hs, rfl⟩
  | some f =>
    refine safely_throw ⟨hs.part, fun hhonest => ?_⟩
    rw [hwhole hhonest] at hbroken
    cases hbroken

end Loops

/-! ### The recursion -/

section Directories

variable {r : Regime} {S x : Place} {s s₁ s₂ s₃ : FileTree} {src dst : FsPath}

theorem made_cases {path : FsPath} {l : Place} (h : Aims s path l) (u : User) :
    s.node l ≠ none ∧ u.made s l = s ∨
      s.node l = none ∧ Writes s (u.made s l) l (.dir u.dirMode) := by
  cases h with
  | there h =>
    exact Or.inl ⟨h.isDir.ne_none, made_of_ne_none h.isDir.ne_none u⟩
  | missing h hnone =>
    refine Or.inr ⟨hnone, ?_⟩
    simp only [User.made, hnone]
    exact writes_new hnone h.isDir _

theorem made_stands {path : FsPath} {l : Place} (h : Aims s path l) (u : User) (l' : Place) :
    Stands u s (u.made s l) l' := by
  rcases made_cases h u with ⟨-, heq⟩ | ⟨hnone, hwrites⟩
  · exact Or.inl (by rw [heq])
  · by_cases hl : l' = l
    · subst hl
      exact Or.inr ⟨hnone, hwrites.self⟩
    · exact Or.inl (hwrites.other hl)

theorem made_other {path : FsPath} {l : Place} (h : Aims s path l) (u : User) {l' : Place}
    (hne : l' ≠ l) : (u.made s l).node l' = s.node l' := by
  rcases made_cases h u with ⟨-, heq⟩ | ⟨-, hwrites⟩
  · rw [heq]
  · exact hwrites.other hne

variable (hapart : Apart S r.top) (hdst : Aims s dst (x ++ r.top)) (hdir : s.IsDir (x ++ S))

include hdst hdir in
theorem made_part : Partial S r.top x s (r.user.made s (x ++ r.top)) := by
  rcases made_cases hdst r.user with ⟨-, heq⟩ | ⟨hnone, hwrites⟩
  · rw [heq]
    exact Partial.refl x s
  · obtain ⟨mode, hmode⟩ := isDir_iff.mp hdir
    refine hwrites.part ?_
    rw [hmode, hnone]
    exact fun c hc => by rw [← Option.some.inj hc]; rfl

include hapart hdst hdir in
theorem made_ready (n : OsString) :
    Ready r.user S r.top (n :: x) (r.user.made s (x ++ r.top)) ↔ Ready r.user S r.top (n :: x) s := by
  refine ready_congr (fun z => (made_part hdst hdir).source hapart _) (fun z => ?_)
    fun l _ _ => made_stands hdst r.user l
  refine made_other hdst r.user fun heq => ?_
  rw [below_entry, List.append_assoc (z ++ [n])] at heq
  simpa using List.append_left_eq_self.mp heq

theorem at_or_below {P : Place → Prop} (hself : P []) (hbelow : ∀ z n, P (z ++ [n])) (z : Place) :
    P z := by
  rcases List.eq_nil_or_concat z with rfl | ⟨z, n, rfl⟩
  · exact hself
  · rw [List.concat_eq_append]
    exact hbelow z n

include hapart hdst hdir in
theorem ready_made_of_ready (henters : r.user.enters r.top s (x ++ r.top) = true)
    (h : ∀ n, s.node (n :: x ++ S) ≠ none →
      Ready r.user S r.top (n :: x) (r.user.made s (x ++ r.top))) : Ready r.user S r.top x s := by
  refine at_or_below (fun g hg => ?_) fun z n g hg => ?_
  · obtain ⟨mode, hmode⟩ := isDir_iff.mp hdir
    obtain rfl := Option.some.inj (hmode.symm.trans hg)
    exact henters
  · rw [← below_entry] at hg ⊢
    have hchild : s.node (n :: x ++ S) ≠ none := by
      rw [List.append_assoc] at hg
      exact ne_none_of_below (hg ▸ Option.some_ne_none _)
    exact (made_ready hapart hdst hdir n).mp (h n hchild) z g hg

include hapart hdst hdir in
theorem copied_dir {names : List OsString} {mode : Nat} (hmode : s.node (x ++ S) = some (.dir mode))
    (henters : r.honest → r.user.enters r.top s (x ++ r.top) = true)
    (hall : ∀ n, s.node (n :: x ++ S) ≠ none → n ∈ names)
    (hloop : Loop r S x (r.user.made s (x ++ r.top)) names s₂)
    (hlast : s₃ = s₂ ∧ ¬ r.honest ∨ Writes s₂ s₃ (x ++ r.top) (.dir mode))
    (htop : s₂.IsDir (x ++ r.top)) : Partial S r.top x s s₃ ∧ Copied r S x s s₃ := by
  have hpart₁ := made_part (r := r) hdst hdir
  have hpart₂ := hpart₁.trans hapart hloop.part
  have hsource := fun y => hpart₁.source hapart y
  obtain ⟨mode', hmode'⟩ := isDir_iff.mp htop
  have hpart₃ : Partial S r.top x s s₃ := by
    rcases hlast with ⟨rfl, -⟩ | hwrites
    · exact hpart₂
    · refine hpart₂.trans hapart (hwrites.part ?_)
      rw [hpart₂.source hapart, hmode, hmode']
      exact ⟨_, rfl, rfl, Or.inl rfl⟩
  have hself : ∃ mode'', s₃.node (x ++ r.top) = some (.dir mode'') ∧ (r.honest → mode'' = mode) := by
    rcases hlast with ⟨rfl, hnot⟩ | hwrites
    · exact ⟨mode', hmode', fun hhonest => absurd hhonest hnot⟩
    · exact ⟨mode, hwrites.self, fun _ => rfl⟩
  have hbelow : ∀ z n, s₃.node (z ++ n :: x ++ r.top) = s₂.node (z ++ n :: x ++ r.top) := by
    intro z n
    rcases hlast with ⟨rfl, -⟩ | hwrites
    · rfl
    · refine hwrites.other fun heq => ?_
      rw [below_entry, List.append_assoc (z ++ [n])] at heq
      simpa using List.append_left_eq_self.mp heq
  have hentry : ∀ z n g, s.node (z ++ n :: x ++ S) = some g → n ∈ names := by
    intro z n g hg
    rw [List.append_assoc] at hg
    exact hall n (ne_none_of_below (hg ▸ Option.some_ne_none _))
  refine ⟨hpart₃, at_or_below (fun g hg => ?_) fun z n g hg => ?_, fun hhonest => ?_, fun hhonest => ?_,
    at_or_below (fun g hg hlink => ?_) fun z n g hg hlink => ?_⟩
  · obtain ⟨mode'', hnode, -⟩ := hself
    obtain rfl := Option.some.inj (hmode.symm.trans hg)
    exact ⟨_, hnode, rfl⟩
  · rw [← below_entry] at hg ⊢
    rw [hbelow]
    exact (hloop.copied n (hentry z n g hg)).mirrors z g ((hsource _).trans hg)
  · refine at_or_below (fun g hg => ?_) fun z n g hg => ?_
    · obtain ⟨mode'', hnode, heq⟩ := hself
      obtain rfl := Option.some.inj (hmode.symm.trans hg)
      exact heq hhonest ▸ hnode
    · rw [← below_entry] at hg ⊢
      rw [hbelow]
      exact (hloop.copied n (hentry z n g hg)).equals hhonest z g ((hsource _).trans hg)
  · exact ready_made_of_ready hapart hdst hdir (henters hhonest) fun n hn =>
      (hloop.copied n (hall n hn)).ready hhonest
  · obtain rfl := Option.some.inj (hmode.symm.trans hg)
    cases hlink
  · rw [← below_entry] at hg ⊢
    have hnone := (hloop.copied n (hentry z n g hg)).links z g ((hsource _).trans hg) hlink
    rcases made_stands hdst r.user (z ++ n :: x ++ r.top) with heq | ⟨hnode, -⟩
    · exact heq.symm.trans hnone
    · exact hnode

end Directories

theorem ready_made {r : Regime} {S x : Place} {s : FileTree} {dst : FsPath} (hapart : Apart S r.top)
    (hdst : Aims s dst (x ++ r.top)) (hdir : s.IsDir (x ++ S)) (h : Ready r.user S r.top x s) :
    Ready r.user S r.top x (r.user.made s (x ++ r.top)) := by
  have hsource := (made_part (r := r) hdst hdir).source hapart
  refine at_or_below (fun g hg => ?_) fun z n g hg => ?_
  · obtain ⟨mode, hmode⟩ := isDir_iff.mp hdir
    obtain ⟨mode', hmode'⟩ := isDir_iff.mp (hdst.made r.user).isDir
    obtain rfl := Option.some.inj (((hsource x).trans hmode).symm.trans hg)
    have henters := h [] _ hmode
    rw [List.nil_append, User.fills, User.enters, Bool.and_eq_true] at henters
    rw [List.nil_append, User.fills, User.enters, hmode', reaches_stands fun l _ _ =>
      made_stands hdst r.user l, henters.1]
    rfl
  · rw [← below_entry] at hg ⊢
    exact (made_ready hapart hdst hdir n).mpr (ready_below h) z g hg

theorem fits_made {r : Regime} {S x : Place} {s : FileTree} {dst : FsPath} (hapart : Apart S r.top)
    (hdst : Aims s dst (x ++ r.top)) (hdir : s.IsDir (x ++ S)) (h : Fits S r.top x s) :
    Fits S r.top x (r.user.made s (x ++ r.top)) := by
  intro z g o hg ho
  rw [(made_part (r := r) hdst hdir).source hapart] at hg
  rcases made_stands hdst r.user (z ++ x ++ r.top) with heq | ⟨hnone, hmade⟩
  · exact h z g o hg (heq ▸ ho)
  · have hz : z = [] := by
      by_contra hz
      have hne : z ++ x ++ r.top ≠ x ++ r.top := fun heq => by
        rw [List.append_assoc] at heq
        exact hz (List.append_left_eq_self.mp heq)
      rw [made_other hdst r.user hne, hnone] at hmade
      cases hmade
    subst hz
    obtain ⟨mode, hmode⟩ := isDir_iff.mp hdir
    obtain rfl := Option.some.inj (hmode.symm.trans hg)
    obtain rfl := Option.some.inj (hmade.symm.trans ho)
    exact Or.inr rfl

theorem readDir_safely {r : Regime} {s : FileTree} {src : FsPath} {d : Place} {α : Type}
    {Q : α → FileTree → Prop} {E C : FileTree → Prop}
    {k : Except Errno (List OsString × Option Fault) → Code α} (hsrc : s.Bound src d) (hC : C s)
    (hlisting : ∀ listing : List OsString × Option Fault, listing.1.Nodup →
      (∀ n ∈ listing.1, s.node (n :: d) ≠ none) →
      (listing.2 = none → ∀ n, s.node (n :: d) ≠ none → n ∈ listing.1) →
      (r.honest → listing.2 = none) → Safely r.sem Q E C (k (.ok listing)) s)
    (hfailed : ∀ e, ¬ r.honest → Safely r.sem Q E C (k (.error e)) s) :
    Safely r.sem Q E C (ask (.readDir src) >>= k) s := by
  refine safely_step (fun _ _ h => by cases h) hC (fun c hc => ?_) fun f hf => hfailed _ fun hhonest => by
    cases hf hhonest
  have hperm := arrange_perm c.order (s.children d)
  have hnodup := hperm.nodup_iff.mpr (s.nodup_children d)
  have hmem : ∀ n, n ∈ arrange c.order (s.children d) ↔ s.node (n :: d) ≠ none :=
    fun n => hperm.mem_iff.trans mem_children
  simp only [act, hsrc.follow, if_pos hsrc.isDir]
  cases hcut : c.cut with
  | none => exact hlisting _ hnodup (fun n => (hmem n).mp) (fun _ n => (hmem n).mpr) fun _ => rfl
  | some cut =>
    refine hlisting _ (hnodup.sublist (List.take_sublist _ _)) (fun n hn => ?_) 
      (fun h => by cases h) fun hhonest => ?_
    · exact (hmem n).mp (List.mem_of_mem_take hn)
    · rw [(hc hhonest).2] at hcut
      cases hcut

/-- **What a recursive copy does.** Up to the depth given, a copy of the tree at `S` to `r.top` that
returns has copied it, and one that fails or is killed leaves a partial copy. -/
theorem copyDirRecursive_safely {r : Regime} {S : Place} (hapart : Apart S r.top) (depth : Nat) :
    Copies r S depth (copyDirRecursive depth) := by
  induction depth with
  | zero =>
    intro x src dst s hsrc _ _ hdepth
    refine safely_throw ⟨Partial.refl x s, fun hhonest => ?_⟩
    exact absurd (hdepth hhonest [] hsrc.isDir.ne_none) (Nat.not_lt_zero _)
  | succ depth ih =>
    intro x src dst s hsrc hdst hfits hdepth
    have hdir := hsrc.isDir
    obtain ⟨mode, hmode⟩ := isDir_iff.mp hdir
    have hpart₁ := made_part (r := r) hdst hdir
    have hkill : ∀ s', Partial S r.top x (r.user.made s (x ++ r.top)) s' → Partial S r.top x s s' :=
      fun s' h => hpart₁.trans hapart h
    refine Safely.bind (createIfMissing_safely hdst (Partial.refl x s) fun henters => ?_)
      fun _ s₁ hs₁ => ?_
    · refine ⟨Partial.refl x s, fun hhonest hready => ?_⟩
      have hfills := hready [] _ hmode
      rw [List.nil_append, User.fills, henters hhonest] at hfills
      cases hfills
    obtain ⟨rfl, henters⟩ := hs₁
    have hsrc₁ := hsrc.grows hpart₁.grows
    have hdst₁ := hdst.made r.user
    have hnode₁ : ∀ y, (r.user.made s (x ++ r.top)).node (y ++ S) = s.node (y ++ S) :=
      hpart₁.source hapart
    refine readDir_safely hsrc₁ hpart₁ (fun listing hnodup hmem hall hwhole => ?_) fun e hnot => ?_
    swap
    · exact safely_throw ⟨hpart₁, fun hhonest => absurd hhonest hnot⟩
    have hfits₁ := fits_made hapart hdst hdir hfits
    have hdepth₁ : r.honest → ∀ z, (r.user.made s (x ++ r.top)).node (z ++ x ++ S) ≠ none →
        z.length < depth + 1 := fun hhonest z hz => hdepth hhonest z (hnode₁ _ ▸ hz)
    have hentries := copyEntries_safely hapart ih hsrc₁ hdst₁ hfits₁ hdepth₁ hnodup hmem hwhole
    refine Safely.bind (p := copyEntries (copyDirRecursive depth) src dst listing)
      (hentries.mono (fun _ _ h => h) (fun s' hs' => ?_) hkill) fun _ s₂ hs₂ => ?_
    · exact ⟨hkill s' hs'.1, fun hhonest hready =>
        hs'.2 hhonest (ready_made hapart hdst hdir hready)⟩
    obtain ⟨hloop, hend⟩ := hs₂
    have hpart₂ := hpart₁.trans hapart hloop.part
    have hdst₂ := hdst₁.grows hloop.part.grows
    have hsrcF : Finds s₂ src (x ++ S) (.dir mode) :=
      ⟨(hsrc.grows hpart₂.grows).follow_any, (hpart₂.source hapart x).trans hmode⟩
    obtain ⟨mode', hdstF⟩ := finds_dir hdst₂
    refine (copyPermissions_safely hsrcF hdstF hpart₂).mono (fun _ s₃ hs₃ => ?_) (fun _ h => h)
      fun _ h => h
    refine copied_dir hapart hdst hdir hmode henters (fun n hn => ?_) hloop ?_ hdst₂.isDir
    · exact hall hend n ((hnode₁ (n :: x)).symm ▸ hn)
    · by_cases hhonest : r.honest
      · refine Or.inr (hs₃.2 hhonest (reaches_source hapart x) ?_)
        have hreaches := henters hhonest
        rw [User.enters, Bool.and_eq_true] at hreaches
        rw [← hreaches.1]
        refine reaches_stands fun l hl hne => Or.inl (hpart₂.frame l fun hdown => hne ?_)
        exact hl.eq_of_length_le hdown.length_le
      · rcases hs₃.1 with rfl | hwrites
        · exact Or.inl ⟨rfl, hhonest⟩
        · exact Or.inr hwrites

end PgEmbeddedSetup.Cache
