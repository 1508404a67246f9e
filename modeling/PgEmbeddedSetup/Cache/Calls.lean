import PgEmbeddedSetup.Cache.Copy
import PgEmbeddedSetup.Cache.Permissions

/-!
# What the calls of a copy do

The calls are met at paths whose directories are known. A `Regime` says how the calls of a run may
fail: in any way, or, in an honest one, just where they are refused. For each program of the standard
library there is one lemma, which says for both what it leaves behind.
-/

namespace PgEmbeddedSetup.Cache

open Env Posix FileSystem Program Crash

/-! ### Paths and places -/

/-- The path leads to the directory at `l`, or to where one can be made. -/
inductive Aims (fs : FileTree) : FsPath → Place → Prop
  | there {path : FsPath} {l : Place} (h : fs.Bound path l) : Aims fs path l
  | missing {path : FsPath} {d : Place} {n : OsString} (h : fs.Bound path d)
      (hnone : fs.node (n :: d) = none) : Aims fs (.name n :: path) (n :: d)

section Acts

variable {fs : FileTree} {path : FsPath} {d l : Place} {n : OsString} {umask : Nat} {x : Choice}

theorem Aims.follow (h : Aims fs path l) : fs.follow true path = .ok l := by
  cases h with
  | there h => exact h.follow_any true
  | missing h hnone =>
    rw [h.follow_missing hnone]
    rfl

theorem Aims.bound {fs' : FileTree} (h : Aims fs path l) (hgrows : fs.Grows fs')
    (hdir : fs'.IsDir l) : fs'.Bound path l := by
  cases h with
  | there h => exact h.grows hgrows
  | missing h hnone => exact (h.grows hgrows).child hdir

theorem aims_dir {node : Node OsString} (h : Aims fs path l) (hnode : fs.node l = some node) :
    fs.IsDir l := by
  cases h with
  | there h => exact h.isDir
  | missing h hnone => exact absurd (hnone.symm.trans hnode) (Option.some_ne_none _).symm

theorem aims_entry (h : fs.Bound path d)
    (hentry : fs.node (n :: d) = none ∨ fs.IsDir (n :: d)) : Aims fs (.name n :: path) (n :: d) := by
  rcases hentry with hnone | hdir
  · exact .missing h hnone
  · exact .there (h.child hdir)

theorem makeEntry_bound (h : fs.Bound path d) (n : OsString) (new : Node OsString) :
    makeEntry fs (.name n :: path) new =
      match fs.node (n :: d) with
      | some _ => (.error .alreadyExists, fs)
      | none => (.ok (), fs.set (n :: d) new) := by
  cases hnode : fs.node (n :: d) with
  | none => simp only [makeEntry, h.locate n, hnode]
  | some node => simp only [makeEntry, h.locate n, hnode]

theorem makeEntry_there (h : fs.Bound path d) (new : Node OsString) :
    makeEntry fs path new = (.error .alreadyExists, fs) := by
  obtain ⟨mode, hmode⟩ := isDir_iff.mp h.isDir
  cases path with
  | nil =>
    unfold makeEntry
    rw [FileSystem.locate, h.follow]
    · simp only [hmode]
    · intro n x h
      cases h
  | cons hop path =>
    cases hop with
    | up =>
      unfold makeEntry
      rw [FileSystem.locate, h.follow]
      · simp only [hmode]
      · intro n x h
        cases h
    | name n =>
      obtain ⟨d', hd', hnode⟩ := follow_parent h.follow
      rw [makeEntry_bound hd']
      cases hentry : fs.node (n :: d') with
      | none => exact absurd hentry hnode
      | some node => rfl

/-- The path leads to the node at `l`, which is there. -/
structure Finds (fs : FileTree) (path : FsPath) (l : Place) (node : Node OsString) : Prop where
  follow : ∀ create, fs.follow create path = .ok l
  node : fs.node l = some node

theorem finds_dir (h : fs.Bound path d) : ∃ mode, Finds fs path d (.dir mode) := by
  obtain ⟨mode, hmode⟩ := isDir_iff.mp h.isDir
  exact ⟨mode, h.follow_any, hmode⟩

theorem finds_entry {node : Node OsString} (h : fs.Bound path d)
    (hnode : fs.node (n :: d) = some node) (hlink : node.isSymlink = false) :
    Finds fs (.name n :: path) (n :: d) node :=
  ⟨h.follow_entry hnode hlink, hnode⟩

theorem Finds.stat {node : Node OsString} (h : Finds fs path l node) :
    act umask fs x (.stat path) = (.ok (FileType.of node, modeOf node), fs) := by
  simp only [act, h.follow, h.node]

theorem stat_missing (h : fs.Bound path d) (hnone : fs.node (n :: d) = none) :
    act umask fs x (.stat (.name n :: path)) = (.error .notFound, fs) := by
  simp only [act, h.follow_missing hnone]
  rfl

end Acts

/-! ### What is written -/

section Writing

variable {fs fs' : FileTree} {l : Place} {node : Node OsString}

theorem shape_withMode (mode : Nat) (node : Node OsString) :
    (withMode mode node).shape = node.shape := by
  cases node <;> rfl

theorem writes_changeMode (hnode : fs.node l = some node) (mode : Nat) :
    Writes fs (changeMode fs l mode) l (withMode mode node) := by
  unfold changeMode
  simp only [hnode]
  exact writes_set hnode (shape_withMode mode node)

theorem writes_copyContent {source : Place} {mode mode' : Nat} {content content' : List UInt8}
    (hsource : fs.node source = some (.file mode content))
    (hfile : fs.node l = some (.file mode' content')) (cut : List UInt8 → List UInt8) :
    Writes fs (copyContent fs source l cut) l (.file mode' (cut content)) := by
  unfold copyContent
  simp only [hsource, hfile]
  exact writes_set hfile rfl

end Writing

/-! ### How calls may fail -/

/-- In an honest run a call fails just where it is refused. -/
structure Regime where
  user : User
  top : Place
  honest : Prop
  settle : FileTree → Instr → Choice → Choice
  sound : honest → ∀ s i x,
    (settle s i x).fault.isSome = user.denied top s i ∧ (settle s i x).cut = none

/-- Any call may fail at any time. -/
def anyFailure (u : User) (T : Place) : Regime := ⟨u, T, False, fun _ _ x => x, False.elim⟩

/-- No call fails that is not refused. -/
def refusals (u : User) (T : Place) : Regime where
  user := u
  top := T
  honest := True
  settle := u.settle T
  sound := fun _ s i x => by
    unfold User.settle
    cases u.denied T s i <;> exact ⟨rfl, rfl⟩

def Regime.sem (r : Regime) (s : FileTree) (i : Instr) (x : Choice) : i.Reply × FileTree :=
  exec r.user.umask s i (r.settle s i x)

/-- What the user leaves at `l` who makes a directory unless there is an entry. -/
def User.made (u : User) (fs : FileTree) (l : Place) : FileTree :=
  match fs.node l with
  | some _ => fs
  | none => fs.set l (.dir u.dirMode)

theorem made_of_ne_none {fs : FileTree} {l : Place} (h : fs.node l ≠ none) (u : User) :
    u.made fs l = fs := by
  obtain ⟨node, hnode⟩ := Option.ne_none_iff_exists'.mp h
  rw [User.made, hnode]

theorem Aims.made {fs : FileTree} {path : FsPath} {l : Place} (h : Aims fs path l) (u : User) :
    (u.made fs l).Bound path l := by
  cases h with
  | there h =>
    rw [made_of_ne_none h.isDir.ne_none]
    exact h
  | missing h hnone =>
    rw [User.made, hnone]
    have hwrites := writes_new hnone h.isDir (.dir u.dirMode)
    exact (h.grows (hwrites.grows_new hnone)).child (isDir_iff.mpr ⟨_, hwrites.self⟩)

section Rules

variable {r : Regime} {s : FileTree} {α : Type} {Q : α → FileTree → Prop} {E C : FileTree → Prop}

theorem safely_step {i : Instr} {k : i.Reply → Code α} (hcopy : ∀ a b, i ≠ .copyRange a b) (hC : C s)
    (hdone : ∀ x, (r.honest → r.user.denied r.top s i = false ∧ x.cut = none) →
      Safely r.sem Q E C (k (act r.user.umask s x i).1) (act r.user.umask s x i).2)
    (hfailed : ∀ f, (r.honest → r.user.denied r.top s i = true) →
      Safely r.sem Q E C (k (failed (.fault f) i)) s) :
    Safely r.sem Q E C (ask i >>= k) s := by
  refine safely_call hC fun x => ?_
  show Safely r.sem Q E C (k (exec _ s i (r.settle s i x)).1) (exec _ s i (r.settle s i x)).2
  unfold exec
  cases hfault : (r.settle s i x).fault with
  | none =>
    refine hdone _ fun h => ⟨?_, (r.sound h s i x).2⟩
    rw [← (r.sound h s i x).1, hfault]
    rfl
  | some f =>
    have hdenied : r.honest → r.user.denied r.top s i = true := by
      intro h
      rw [← (r.sound h s i x).1, hfault]
      rfl
    cases i with
    | copyRange a b => exact absurd rfl (hcopy a b)
    | _ => exact hfailed f hdenied

theorem stat_safely {path : FsPath} {l : Place} {k : Except Errno (FileType × Nat) → Code α}
    (h : Aims s path l) (hC : C s)
    (hfound : ∀ mode, s.node l = some (.dir mode) →
      (r.honest → r.user.reaches r.top s l = true) → Safely r.sem Q E C (k (.ok (.dir, mode))) s)
    (hmissing : ∀ e, (r.honest → s.node l ≠ none → r.user.reaches r.top s l = false) →
      Safely r.sem Q E C (k (.error e)) s) :
    Safely r.sem Q E C (ask (.stat path) >>= k) s := by
  have hdenied : r.user.denied r.top s (.stat path) = !r.user.reaches r.top s l := by
    simp only [User.denied, h.follow]
  refine safely_step nofun hC (fun x hx => ?_) fun f hf => ?_
  · cases h with
    | there h =>
      obtain ⟨mode, hfinds⟩ := finds_dir h
      rw [hfinds.stat]
      exact hfound mode hfinds.node fun hhonest => by simpa using hdenied.symm.trans (hx hhonest).1
    | missing h hnone =>
      rw [stat_missing h hnone]
      exact hmissing _ fun _ hne => absurd hnone hne
  · exact hmissing _ fun hhonest _ => by simpa using hdenied.symm.trans (hf hhonest)

/-- What a test for a directory at `l` tells. -/
def Tells (r : Regime) (s : FileTree) (l : Place) (b : Bool) (s' : FileTree) : Prop :=
  s' = s ∧ (b = true → s.node l ≠ none) ∧
    (r.honest → s.node l ≠ none → b = r.user.reaches r.top s l)

theorem tells_found {l : Place} {mode : Nat} (hnode : s.node l = some (.dir mode))
    (hreaches : r.honest → r.user.reaches r.top s l = true) : Tells r s l true s :=
  ⟨rfl, fun _ => hnode ▸ Option.some_ne_none _, fun hhonest _ => (hreaches hhonest).symm⟩

theorem tells_missing {l : Place}
    (hreaches : r.honest → s.node l ≠ none → r.user.reaches r.top s l = false) :
    Tells r s l false s :=
  ⟨rfl, fun h => absurd h Bool.false_ne_true, fun hhonest hne => (hreaches hhonest hne).symm⟩

theorem pathExists_safely {path : FsPath} {l : Place} (h : Aims s path l) (hC : C s) :
    Safely r.sem (Tells r s l) E C (pathExists path) s :=
  stat_safely h hC (fun _ hnode hreaches => safely_pure (tells_found hnode hreaches))
    fun _ hreaches => safely_pure (tells_missing hreaches)

theorem pathIsDirectory_safely {path : FsPath} {l : Place} (h : Aims s path l) (hC : C s) :
    Safely r.sem (Tells r s l) E C (pathIsDirectory path) s :=
  stat_safely h hC (fun _ hnode hreaches => safely_pure (tells_found hnode hreaches))
    fun _ hreaches => safely_pure (tells_missing hreaches)

/-- What is left when a directory has been made or was there. -/
def MadeDir (r : Regime) (s : FileTree) (l : Place) (s' : FileTree) : Prop :=
  s' = r.user.made s l ∧ (r.honest → r.user.enters r.top s l = true)

theorem madeDir_there {l : Place} (hnode : s.node l ≠ none)
    (hreaches : r.honest → r.user.reaches r.top s l = true) : MadeDir r s l s := by
  refine ⟨(made_of_ne_none hnode r.user).symm, fun hhonest => ?_⟩
  obtain ⟨node, hsome⟩ := Option.ne_none_iff_exists'.mp hnode
  rw [User.enters, hreaches hhonest, hsome]
  rfl

theorem orDirectory_safely {path : FsPath} {l : Place} {e : Errno} (h : Aims s path l) (hC : C s)
    (hE : (r.honest → r.user.enters r.top s l = false) → E s)
    (hnone : r.honest → s.node l = none → r.user.enters r.top s l = false) :
    Safely r.sem (fun _ => MadeDir r s l) E C (orDirectory path (.error e)) s := by
  refine Safely.bind (pathIsDirectory_safely h hC) fun b s' hb => ?_
  obtain ⟨rfl, hsome, hreaches⟩ := hb
  cases b with
  | true =>
    have hnode := hsome rfl
    exact safely_pure (madeDir_there hnode fun hhonest => (hreaches hhonest hnode).symm)
  | false =>
    refine safely_throw (hE fun hhonest => ?_)
    by_cases hnode : s'.node l = none
    · exact hnone hhonest hnode
    · rw [User.enters, ← hreaches hhonest hnode]
      rfl

theorem mkdir_safely {path : FsPath} {l : Place} {k : Except Errno Unit → Code α}
    (h : Aims s path l) (hC : C s)
    (hmade : s.node l = none → (r.honest → r.user.enters r.top s l = true) →
      Safely r.sem Q E C (k (.ok ())) (r.user.made s l))
    (hother : ∀ e, e ≠ .notFound →
      (r.honest → s.node l = none → r.user.enters r.top s l = false) →
      Safely r.sem Q E C (k (.error e)) s) :
    Safely r.sem Q E C (ask (.mkdir path) >>= k) s := by
  cases h with
  | there h =>
    have hpresent : s.node l ≠ none := h.isDir.ne_none
    refine safely_step nofun hC (fun x _ => ?_) fun f _ => ?_
    · rw [act, makeEntry_there h]
      exact hother _ nofun fun _ hnone => absurd hnone hpresent
    · exact hother _ nofun fun _ hnone => absurd hnone hpresent
  | @missing path d n h hnone =>
    have hdenied : r.user.denied r.top s (.mkdir (.name n :: path)) =
        !r.user.enters r.top s (n :: d) := by
      simp only [User.denied, h.locate]
    refine safely_step nofun hC (fun x hx => ?_) fun f hf => ?_
    · have hset : r.user.made s (n :: d) = s.set (n :: d) (.dir r.user.dirMode) := by
        simp only [User.made, hnone]
      rw [act, makeEntry_bound h]
      simp only [hnone]
      rw [← User.dirMode, ← hset]
      exact hmade hnone fun hhonest => by simpa using hdenied.symm.trans (hx hhonest).1
    · exact hother _ nofun fun hhonest _ => by simpa using hdenied.symm.trans (hf hhonest)

theorem createDirAll_safely {path : FsPath} {l : Place} (h : Aims s path l) (hC : C s)
    (hE : (r.honest → r.user.enters r.top s l = false) → E s) :
    Safely r.sem (fun _ => MadeDir r s l) E C (createDirAll path) s := by
  cases path with
  | nil =>
    exact mkdir_safely h hC (fun _ henters => safely_pure ⟨rfl, henters⟩)
      fun e _ hnone => orDirectory_safely h hC hE hnone
  | cons hop parent =>
    refine mkdir_safely h hC (fun _ henters => safely_pure ⟨rfl, henters⟩) fun e he hnone => ?_
    cases e with
    | notFound => exact absurd rfl he
    | _ => exact orDirectory_safely h hC hE hnone

theorem createIfMissing_safely {path : FsPath} {l : Place} (h : Aims s path l) (hC : C s)
    (hE : (r.honest → r.user.enters r.top s l = false) → E s) :
    Safely r.sem (fun _ => MadeDir r s l) E C (createIfMissing path) s := by
  refine Safely.bind (pathExists_safely h hC) fun b s' hb => ?_
  obtain ⟨rfl, hsome, hreaches⟩ := hb
  cases b with
  | true =>
    have hnode := hsome rfl
    exact safely_pure (madeDir_there hnode fun hhonest => (hreaches hhonest hnode).symm)
  | false => exact createDirAll_safely h hC hE

end Rules

section Files

variable {r : Regime} {s : FileTree} {E C : FileTree → Prop}

theorem act_openRead {umask : Nat} {x : Choice} {path : FsPath} {l : Place} {mode : Nat}
    {content : List UInt8} (h : Finds s path l (.file mode content)) :
    act umask s x (.openRead path) = (.ok (l, mode), s) := by
  simp only [act, h.follow, h.node]

theorem act_chmod {umask : Nat} {x : Choice} {path : FsPath} {l : Place} {node : Node OsString}
    (h : Finds s path l node) (mode : Nat) :
    act umask s x (.chmod path mode) = (.ok (), changeMode s l mode) := by
  simp only [act, h.follow]

theorem act_create (umask : Nat) (x : Choice) {path : FsPath} {d : Place} {n : OsString}
    (h : s.Bound path d) (hold : ∀ old, s.node (n :: d) = some old → old.isFile = true) (mode : Nat) :
    ∃ s' mode', act umask s x (.create (.name n :: path) mode) = (.ok (n :: d), s') ∧
      Writes s s' (n :: d) (.file mode' []) := by
  rw [act, openCreate]
  cases hnode : s.node (n :: d) with
  | none =>
    rw [h.follow_missing hnode]
    simp only [if_true, hnode]
    exact ⟨_, _, rfl, writes_new hnode h.isDir _⟩
  | some old =>
    cases old with
    | file mode' content =>
      rw [h.follow_entry hnode rfl]
      simp only [hnode]
      exact ⟨_, _, rfl, writes_set hnode rfl⟩
    | dir mode' => cases hold _ hnode
    | symlink target => cases hold _ hnode

theorem copyRange_safely {α : Type} {Q : α → FileTree → Prop} {k : Except Errno Unit → Code α}
    {a b : Place} {mode mode' : Nat} {content content' : List UInt8}
    (hsource : s.node a = some (.file mode content)) (hfile : s.node b = some (.file mode' content'))
    (hC : C s)
    (hdone : ∀ s', Writes s s' b (.file mode' content) → Safely r.sem Q E C (k (.ok ())) s')
    (hfailed : ∀ s' e part, ¬ r.honest → Writes s s' b (.file mode' part) →
      Safely r.sem Q E C (k (.error e)) s') :
    Safely r.sem Q E C (ask (.copyRange a b) >>= k) s := by
  refine safely_call hC fun x => ?_
  unfold Regime.sem exec
  cases hfault : (r.settle s (.copyRange a b) x).fault with
  | none => exact hdone _ (writes_copyContent hsource hfile id)
  | some f =>
    refine hfailed _ _ _ (fun hhonest => ?_) (writes_copyContent hsource hfile _)
    have hsound := (r.sound hhonest s (.copyRange a b) x).1
    rw [hfault] at hsound
    cases hsound

theorem copy_safely {src dst : FsPath} {a d : Place} {n : OsString} {mode : Nat}
    {content : List UInt8} (hsrc : Finds s src a (.file mode content)) (hdst : s.Bound dst d)
    (hne : a ≠ n :: d) (hold : ∀ old, s.node (n :: d) = some old → old.isFile = true) (hC : C s)
    (hCw : ∀ s' mode' content', Writes s s' (n :: d) (.file mode' content') → C s')
    (hE : (r.honest → r.user.overwrites r.top s (n :: d) = false) → E s)
    (hEw : ∀ s' mode' content', ¬ r.honest → Writes s s' (n :: d) (.file mode' content') → E s') :
    Safely r.sem (fun _ s' => Writes s s' (n :: d) (.file mode content) ∧
      (r.honest → r.user.overwrites r.top s (n :: d) = true)) E C
      (copy src (.name n :: dst)) s := by
  have hdenied : r.user.denied r.top s (.create (.name n :: dst) mode) =
      !r.user.overwrites r.top s (n :: d) := by
    cases hnode : s.node (n :: d) with
    | none => simp only [User.denied, hdst.follow_missing hnode, if_true]
    | some old =>
      have hlink : old.isSymlink = false := by
        have := hold old hnode
        cases old <;> first | rfl | cases this
      simp only [User.denied, hdst.follow_entry hnode hlink]
  refine safely_step nofun hC (fun x _ => ?_) fun f hf => ?_
  · rw [act_openRead hsrc]
    refine safely_step nofun hC (fun x hx => ?_) fun f hf => ?_
    · obtain ⟨s₁, mode₁, hact, h₁⟩ := act_create r.user.umask x hdst hold mode
      rw [hact]
      refine safely_step nofun (hCw _ _ _ h₁) (fun x _ => ?_) fun f hf => ?_
      · have h₂ : Writes s (changeMode s₁ (n :: d) mode) (n :: d) (.file mode []) :=
          h₁.trans (writes_changeMode h₁.self mode)
        have hsource : (changeMode s₁ (n :: d) mode).node a = some (.file mode content) := by
          rw [h₂.other hne, hsrc.node]
        refine copyRange_safely hsource h₂.self (hCw _ _ _ h₂) (fun s₃ h₃ => ?_) fun s₃ e _ hnot h₃ => ?_
        · refine safely_pure ⟨h₂.trans h₃, fun hhonest => ?_⟩
          simpa using hdenied.symm.trans (hx hhonest).1
        · exact safely_throw (hEw _ _ _ hnot (h₂.trans h₃))
      · exact safely_throw (hEw _ _ _ (fun h => by cases hf h) h₁)
    · exact safely_throw (hE fun hhonest => by simpa using hdenied.symm.trans (hf hhonest))
  · exact safely_throw (hE fun hhonest => by cases hf hhonest)

end Files

end PgEmbeddedSetup.Cache
