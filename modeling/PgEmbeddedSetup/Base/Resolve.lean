import PgEmbeddedSetup.Base.FileSystem
import PgEmbeddedSetup.Base.Path

/-!
# Where a path leads

`resolve` follows a path as the kernel does: `..` goes to the parent, a symbolic link is replaced by
its text, and after forty links the path is given up. With a jail it follows the path as a sandbox
does, which refuses to leave the directory it was opened at. A call that creates its last entry
resolves a path whose last entry may be missing.

`Leads` is the same without a bound on the links and without a jail. It is a function of the path
(`Leads.unique`), and it is a composition on paths that are put together (`leads_append`). `resolve`
finds what the path leads to, and where it says that something is missing, the path leads nowhere
(`resolve_spec`). So two calls that look at one path with different jails agree on what they find.
-/

namespace Posix

/-- A failure that says nothing about what the tree holds. -/
inductive Fault where
  | permissionDenied
  | io
  deriving DecidableEq

inductive Errno where
  | notFound
  | notDirectory
  | isDirectory
  | alreadyExists
  | loop
  | escape
  | invalid
  | fault (f : Fault)
  deriving DecidableEq

/-- The error shows that nothing is there. -/
def Errno.isAbsence : Errno → Bool
  | .notFound | .notDirectory => true
  | _ => false

/-- Where a link in the directory at `l` starts. -/
def Link.start {N : Type} (target : Link N) (l : Location N) : Location N :=
  if target.absolute then [] else l

variable {N : Type} [DecidableEq N]

namespace FileSystem

/-! ### Resolution -/

/-- The path up to its first link, which is handed to `follow` with what comes after it. -/
def followHops (fs : FileSystem N) (jail : Option (Location N)) (create : Bool)
    (follow : Location N → Link N → List (Hop N) → Except Errno (Location N)) :
    Location N → List (Hop N) → Except Errno (Location N)
  | l, [] => .ok l
  | l, .up :: rest =>
    if jail = some l then .error .escape
    else followHops fs jail create follow l.tail rest
  | l, .name n :: rest =>
    match fs.node (n :: l) with
    | none => if create ∧ rest = [] then .ok (n :: l) else .error .notFound
    | some (.dir _) => followHops fs jail create follow (n :: l) rest
    | some (.file _ _) => if rest = [] then .ok (n :: l) else .error .notDirectory
    | some (.symlink target) => follow l target rest

def resolveLinks (fs : FileSystem N) (jail : Option (Location N)) (create : Bool) :
    Nat → Location N → List (Hop N) → Except Errno (Location N)
  | 0, l, hops => fs.followHops jail create (fun _ _ _ => .error .loop) l hops
  | links + 1, l, hops =>
    fs.followHops jail create (fun l target rest =>
      if target.absolute then
        if jail.isSome then .error .escape
        else fs.resolveLinks jail create links [] (target.hops ++ rest)
      else fs.resolveLinks jail create links l (target.hops ++ rest)) l hops

def maxLinks : Nat := 40

/-- Where a path leads that starts at `l`. -/
def resolve (fs : FileSystem N) (jail : Option (Location N)) (create : Bool) (l : Location N)
    (hops : List (Hop N)) : Except Errno (Location N) :=
  fs.resolveLinks jail create maxLinks l hops

/-! ### The relation -/

/-- From `l` the path leads to the entry at `r`. -/
inductive Leads (fs : FileSystem N) : Location N → List (Hop N) → Location N → Prop
  | here (l : Location N) : Leads fs l [] l
  | up {l r : Location N} {rest : List (Hop N)} (h : Leads fs l.tail rest r) :
      Leads fs l (.up :: rest) r
  | dir {l r : Location N} {n : N} {rest : List (Hop N)} {mode : Nat}
      (hnode : fs.node (n :: l) = some (.dir mode)) (h : Leads fs (n :: l) rest r) :
      Leads fs l (.name n :: rest) r
  | file {l : Location N} {n : N} {mode : Nat} {content : List UInt8}
      (hnode : fs.node (n :: l) = some (.file mode content)) : Leads fs l [.name n] (n :: l)
  | link {l r : Location N} {n : N} {rest : List (Hop N)} {target : Link N}
      (hnode : fs.node (n :: l) = some (.symlink target))
      (h : Leads fs (target.start l) (target.hops ++ rest) r) : Leads fs l (.name n :: rest) r

section Cases

variable {fs : FileSystem N} {l r : Location N} {n : N} {rest : List (Hop N)}

theorem leads_nil : fs.Leads l [] r ↔ r = l := by
  constructor
  · intro h
    cases h
    rfl
  · rintro rfl
    exact .here r

theorem leads_up : fs.Leads l (.up :: rest) r ↔ fs.Leads l.tail rest r := by
  constructor
  · intro h
    cases h with
    | up h => exact h
  · exact .up

theorem not_leads_missing (hnode : fs.node (n :: l) = none) : ¬ fs.Leads l (.name n :: rest) r := by
  intro h
  cases h with
  | dir hnode' _ => simp [hnode] at hnode'
  | file hnode' => simp [hnode] at hnode'
  | link hnode' _ => simp [hnode] at hnode'

theorem leads_dir {mode : Nat} (hnode : fs.node (n :: l) = some (.dir mode)) :
    fs.Leads l (.name n :: rest) r ↔ fs.Leads (n :: l) rest r := by
  refine ⟨fun h => ?_, .dir hnode⟩
  cases h with
  | dir hnode' h => exact h
  | file hnode' => simp [hnode] at hnode'
  | link hnode' h => simp [hnode] at hnode'

theorem leads_file {mode : Nat} {content : List UInt8}
    (hnode : fs.node (n :: l) = some (.file mode content)) :
    fs.Leads l (.name n :: rest) r ↔ rest = [] ∧ r = n :: l := by
  constructor
  · intro h
    cases h with
    | dir hnode' h => simp [hnode] at hnode'
    | file hnode' => exact ⟨rfl, rfl⟩
    | link hnode' h => simp [hnode] at hnode'
  · rintro ⟨rfl, rfl⟩
    exact .file hnode

theorem leads_link {target : Link N} (hnode : fs.node (n :: l) = some (.symlink target)) :
    fs.Leads l (.name n :: rest) r ↔ fs.Leads (target.start l) (target.hops ++ rest) r := by
  refine ⟨fun h => ?_, .link hnode⟩
  cases h with
  | dir hnode' h => simp [hnode] at hnode'
  | file hnode' => simp [hnode] at hnode'
  | link hnode' h =>
    obtain rfl := Node.symlink.inj (Option.some.inj (hnode.symm.trans hnode'))
    exact h

end Cases

theorem Leads.unique {fs : FileSystem N} {l r r' : Location N} {hops : List (Hop N)}
    (h : fs.Leads l hops r) (h' : fs.Leads l hops r') : r = r' := by
  induction h with
  | here l => exact (leads_nil.mp h').symm
  | up h ih => exact ih (leads_up.mp h')
  | dir hnode h ih => exact ih ((leads_dir hnode).mp h')
  | file hnode => exact ((leads_file hnode).mp h').2.symm
  | link hnode h ih => exact ih ((leads_link hnode).mp h')

theorem Leads.node {fs : FileSystem N} {l r : Location N} {hops : List (Hop N)}
    (h : fs.Leads l hops r) (hl : fs.IsDir l) :
    ∃ node, fs.node r = some node ∧ node.isSymlink = false := by
  induction h with
  | here l =>
    obtain ⟨mode, hmode⟩ := isDir_iff.mp hl
    exact ⟨_, hmode, rfl⟩
  | up h ih => exact ih (isDir_tail hl)
  | dir hnode h ih => exact ih (isDir_iff.mpr ⟨_, hnode⟩)
  | file hnode => exact ⟨_, hnode, rfl⟩
  | @link l r n rest target hnode h ih =>
    apply ih
    unfold Link.start
    split
    · exact fs.isDir_root
    · exact hl

theorem leads_append {fs : FileSystem N} {l r : Location N} {hops hops' : List (Hop N)}
    (h : fs.Leads l (hops ++ hops') r) : ∃ r', fs.Leads l hops r' ∧ fs.Leads r' hops' r := by
  generalize heq : hops ++ hops' = all at h
  induction h generalizing hops with
  | here l =>
    obtain ⟨rfl, rfl⟩ := List.append_eq_nil_iff.mp heq
    exact ⟨l, .here l, .here l⟩
  | @up l r rest h ih =>
    rcases List.append_eq_cons_iff.mp heq with ⟨rfl, rfl⟩ | ⟨hops₁, rfl, rfl⟩
    · exact ⟨l, .here l, .up h⟩
    · obtain ⟨r', h₁, h₂⟩ := ih rfl
      exact ⟨r', .up h₁, h₂⟩
  | @dir l r n rest mode hnode h ih =>
    rcases List.append_eq_cons_iff.mp heq with ⟨rfl, rfl⟩ | ⟨hops₁, rfl, rfl⟩
    · exact ⟨l, .here l, .dir hnode h⟩
    · obtain ⟨r', h₁, h₂⟩ := ih rfl
      exact ⟨r', .dir hnode h₁, h₂⟩
  | @file l n mode content hnode =>
    rcases List.append_eq_cons_iff.mp heq with ⟨rfl, rfl⟩ | ⟨hops₁, rfl, hnil⟩
    · exact ⟨l, .here l, .file hnode⟩
    · obtain ⟨rfl, rfl⟩ := List.append_eq_nil_iff.mp hnil.symm
      exact ⟨n :: l, .file hnode, .here _⟩
  | @link l r n rest target hnode h ih =>
    rcases List.append_eq_cons_iff.mp heq with ⟨rfl, rfl⟩ | ⟨hops₁, rfl, rfl⟩
    · exact ⟨l, .here l, .link hnode h⟩
    · obtain ⟨r', h₁, h₂⟩ := ih (List.append_assoc target.hops hops₁ hops')
      exact ⟨r', .link hnode h₁, h₂⟩

theorem Leads.append {fs : FileSystem N} {l r r' : Location N} {hops hops' : List (Hop N)}
    (h : fs.Leads l hops r') (hdir : fs.IsDir r') (h' : fs.Leads r' hops' r) :
    fs.Leads l (hops ++ hops') r := by
  induction h with
  | here l => exact h'
  | up h ih => exact .up (ih hdir h')
  | dir hnode h ih => exact .dir hnode (ih hdir h')
  | file hnode =>
    obtain ⟨mode, hmode⟩ := isDir_iff.mp hdir
    simp [hnode] at hmode
  | @link l r n rest target hnode h ih =>
    refine .link hnode ?_
    show fs.Leads _ (target.hops ++ (rest ++ hops')) _
    rw [← List.append_assoc]
    exact ih hdir h'

theorem leads_append_iff {fs : FileSystem N} {l r r' : Location N} {hops hops' : List (Hop N)}
    (h : fs.Leads l hops r') (hdir : fs.IsDir r') :
    fs.Leads l (hops ++ hops') r ↔ fs.Leads r' hops' r := by
  refine ⟨fun hall => ?_, h.append hdir⟩
  obtain ⟨r'', h₁, h₂⟩ := leads_append hall
  rwa [h.unique h₁]

theorem Leads.mono {fs fs' : FileSystem N} (hsub : ∀ l node, fs.node l = some node →
    fs'.node l = some node) {l r : Location N} {hops : List (Hop N)} (h : fs.Leads l hops r) :
    fs'.Leads l hops r := by
  induction h with
  | here l => exact .here l
  | up h ih => exact .up ih
  | dir hnode h ih => exact .dir (hsub _ _ hnode) ih
  | file hnode => exact .file (hsub _ _ hnode)
  | link hnode h ih => exact .link (hsub _ _ hnode) ih

/-! ### What resolution says about the relation -/

/-- What an outcome of a resolution says: where the path leads, or that it leads nowhere. -/
def Verdict (fs : FileSystem N) (l : Location N) (hops : List (Hop N)) :
    Except Errno (Location N) → Prop
  | .ok r => fs.Leads l hops r
  | .error e => e.isAbsence = true → ∀ r, ¬ fs.Leads l hops r

theorem Verdict.congr {fs : FileSystem N} {l l' : Location N} {hops hops' : List (Hop N)}
    {res : Except Errno (Location N)} (hiff : ∀ r, fs.Leads l hops r ↔ fs.Leads l' hops' r)
    (h : fs.Verdict l' hops' res) : fs.Verdict l hops res := by
  cases res with
  | ok r => exact (hiff r).mpr h
  | error e => exact fun he r hr => h he r ((hiff r).mp hr)

theorem verdict_error {fs : FileSystem N} {l : Location N} {hops : List (Hop N)} {e : Errno}
    (he : e.isAbsence = false) : fs.Verdict l hops (.error e) :=
  fun h => absurd h (he ▸ Bool.false_ne_true)

theorem followHops_spec {fs : FileSystem N} {jail : Option (Location N)}
    {follow : Location N → Link N → List (Hop N) → Except Errno (Location N)}
    (hfollow : ∀ l n target rest, fs.node (n :: l) = some (.symlink target) →
      fs.Verdict l (.name n :: rest) (follow l target rest)) (l : Location N)
    (hops : List (Hop N)) : fs.Verdict l hops (fs.followHops jail false follow l hops) := by
  induction hops generalizing l with
  | nil => exact .here l
  | cons hop rest ih =>
    cases hop with
    | up =>
      rw [followHops]
      split
      · exact verdict_error rfl
      · exact (ih l.tail).congr fun r => leads_up
    | name n =>
      rw [followHops]
      split
      next hnode =>
        rw [if_neg (fun h => Bool.false_ne_true h.1)]
        exact fun _ r => not_leads_missing hnode
      next mode hnode => exact (ih (n :: l)).congr fun r => leads_dir hnode
      next mode content hnode =>
        split
        next hrest => exact (leads_file hnode).mpr ⟨hrest, rfl⟩
        next hrest => exact fun _ r h => hrest ((leads_file hnode).mp h).1
      next target hnode => exact hfollow l n target rest hnode

theorem resolveLinks_spec (fs : FileSystem N) (jail : Option (Location N)) (links : Nat)
    (l : Location N) (hops : List (Hop N)) :
    fs.Verdict l hops (fs.resolveLinks jail false links l hops) := by
  induction links generalizing l hops with
  | zero => exact followHops_spec (fun _ _ _ _ _ => verdict_error rfl) l hops
  | succ links ih =>
    refine followHops_spec (fun l n target rest hnode => ?_) l hops
    have hlink := (ih (target.start l) (target.hops ++ rest)).congr fun r => leads_link hnode
    unfold Link.start at hlink
    split
    next habsolute =>
      split
      · exact verdict_error rfl
      · rwa [if_pos habsolute] at hlink
    next habsolute => rwa [if_neg habsolute] at hlink

/-- **Resolution and the relation agree**, whatever the jail: the path leads where it resolves to, and
nowhere if something on it is missing. -/
theorem resolve_spec (fs : FileSystem N) (jail : Option (Location N)) (l : Location N)
    (hops : List (Hop N)) : fs.Verdict l hops (fs.resolve jail false l hops) :=
  resolveLinks_spec fs jail maxLinks l hops

theorem leads_of_resolve {fs : FileSystem N} {jail : Option (Location N)} {l r : Location N}
    {hops : List (Hop N)} (h : fs.resolve jail false l hops = .ok r) : fs.Leads l hops r := by
  have hspec := resolve_spec fs jail l hops
  rwa [h] at hspec

theorem not_leads_of_resolve {fs : FileSystem N} {jail : Option (Location N)} {l : Location N}
    {hops : List (Hop N)} {e : Errno} (h : fs.resolve jail false l hops = .error e)
    (he : e.isAbsence = true) (r : Location N) : ¬ fs.Leads l hops r := by
  have hspec := resolve_spec fs jail l hops
  rw [h] at hspec
  exact hspec he r

/-! ### Paths without links -/

theorem followHops_dirs {fs : FileSystem N} {jail : Option (Location N)} {create : Bool}
    {follow : Location N → Link N → List (Hop N) → Except Errno (Location N)} {l rel : Location N}
    (h : fs.IsDir (rel ++ l)) (rest : List (Hop N)) :
    fs.followHops jail create follow l (rel.reverse.map .name ++ rest) =
      fs.followHops jail create follow (rel ++ l) rest := by
  induction rel generalizing rest with
  | nil => rfl
  | cons n rel ih =>
    obtain ⟨mode, hmode⟩ := isDir_iff.mp h
    have hparent : fs.IsDir (rel ++ l) := isDir_of_node h.ne_none
    rw [List.reverse_cons, List.map_append, List.append_assoc]
    rw [ih hparent, List.map_singleton, List.singleton_append, followHops]
    rw [List.cons_append] at hmode
    rw [hmode, List.cons_append]

theorem followHops_append {fs : FileSystem N} {jail : Option (Location N)} {create : Bool}
    {follow follow' : Location N → Link N → List (Hop N) → Except Errno (Location N)}
    {r : Location N} {hops' : List (Hop N)} {res : Except Errno (Location N)} (hr : fs.IsDir r)
    (hplain : fs.followHops jail create follow' r hops' = res)
    (hfollow : ∀ l target rest, follow l target rest = .ok r →
      follow' l target (rest ++ hops') = res) {l : Location N} {hops : List (Hop N)}
    (h : fs.followHops jail false follow l hops = .ok r) :
    fs.followHops jail create follow' l (hops ++ hops') = res := by
  induction hops generalizing l with
  | nil =>
    obtain rfl := Except.ok.inj h
    exact hplain
  | cons hop rest ih =>
    cases hop with
    | up =>
      rw [followHops] at h
      rw [List.cons_append, followHops]
      split at h
      next => cases h
      next hjail =>
        rw [if_neg hjail]
        exact ih h
    | name n =>
      rw [followHops] at h
      rw [List.cons_append, followHops]
      cases hnode : fs.node (n :: l) with
      | none =>
        rw [hnode] at h
        simp at h
      | some node =>
        rw [hnode] at h
        cases node with
        | dir mode => exact ih h
        | file mode content =>
          simp only at h
          split at h
          next =>
            obtain rfl := Except.ok.inj h
            obtain ⟨mode', hmode'⟩ := isDir_iff.mp hr
            simp [hnode] at hmode'
          next => cases h
        | symlink target => exact hfollow l target rest h

theorem resolve_append {fs : FileSystem N} {jail : Option (Location N)} {create : Bool}
    {l r : Location N} {hops hops' : List (Hop N)} {res : Except Errno (Location N)}
    (h : fs.resolve jail false l hops = .ok r) (hr : fs.IsDir r)
    (hplain : ∀ follow, fs.followHops jail create follow r hops' = res) :
    fs.resolve jail create l (hops ++ hops') = res := by
  unfold resolve at h ⊢
  generalize maxLinks = links at h ⊢
  induction links generalizing l hops with
  | zero =>
    rw [resolveLinks] at h ⊢
    exact followHops_append hr (hplain _) (fun _ _ _ h => by cases h) h
  | succ links ih =>
    rw [resolveLinks] at h ⊢
    refine followHops_append hr (hplain _) (fun l target rest h => ?_) h
    rw [← List.append_assoc]
    split at h
    next habsolute =>
      rw [if_pos habsolute]
      split at h
      next => cases h
      next hjail =>
        rw [if_neg hjail]
        exact ih h
    next habsolute =>
      rw [if_neg habsolute]
      exact ih h

theorem followHops_prefix {fs : FileSystem N} {jail : Option (Location N)}
    {follow follow' : Location N → Link N → List (Hop N) → Except Errno (Location N)}
    {hops' : List (Hop N)} (hfollow : ∀ l target rest r, follow' l target (rest ++ hops') = .ok r →
      ∃ r', follow l target rest = .ok r') {l r : Location N} {hops : List (Hop N)}
    (h : fs.followHops jail false follow' l (hops ++ hops') = .ok r) :
    ∃ r', fs.followHops jail false follow l hops = .ok r' := by
  induction hops generalizing l with
  | nil => exact ⟨l, rfl⟩
  | cons hop rest ih =>
    cases hop with
    | up =>
      rw [List.cons_append, followHops] at h
      rw [followHops]
      split at h
      next => cases h
      next hjail =>
        rw [if_neg hjail]
        exact ih h
    | name n =>
      rw [List.cons_append, followHops] at h
      rw [followHops]
      cases hnode : fs.node (n :: l) with
      | none =>
        rw [hnode] at h
        simp at h
      | some node =>
        rw [hnode] at h
        cases node with
        | dir mode => exact ih h
        | file mode content =>
          simp only at h ⊢
          split at h
          next hnil =>
            rw [if_pos (List.append_eq_nil_iff.mp hnil).1]
            exact ⟨_, rfl⟩
          next => cases h
        | symlink target => exact hfollow l target rest r h

theorem resolve_prefix {fs : FileSystem N} {jail : Option (Location N)} {l r : Location N}
    {hops hops' : List (Hop N)} (h : fs.resolve jail false l (hops ++ hops') = .ok r) :
    ∃ r', fs.resolve jail false l hops = .ok r' := by
  unfold resolve at h ⊢
  generalize maxLinks = links at h ⊢
  induction links generalizing l r hops with
  | zero => exact followHops_prefix (fun _ _ _ _ h => by cases h) h
  | succ links ih =>
    refine followHops_prefix (fun l target rest r h => ?_) h
    rw [← List.append_assoc] at h
    split at h
    next habsolute =>
      rw [if_pos habsolute]
      split at h
      next => cases h
      next hjail =>
        rw [if_neg hjail]
        exact ih h
    next habsolute =>
      rw [if_neg habsolute]
      exact ih h

theorem resolve_dirs {fs : FileSystem N} {jail : Option (Location N)} {l r rel : Location N}
    {hops : List (Hop N)} (h : fs.resolve jail false l hops = .ok r) (hr : fs.IsDir r)
    (hrel : fs.IsDir (rel ++ r)) :
    fs.resolve jail false l (hops ++ rel.reverse.map .name) = .ok (rel ++ r) := by
  refine resolve_append h hr fun follow => ?_
  rw [← List.append_nil (rel.reverse.map Hop.name), followHops_dirs hrel]
  rfl

theorem resolve_entry {fs : FileSystem N} {jail : Option (Location N)} {l r rel : Location N}
    {hops : List (Hop N)} {n : N} {node : Node N} (h : fs.resolve jail false l hops = .ok r)
    (hr : fs.IsDir r) (hnode : fs.node (n :: (rel ++ r)) = some node)
    (hlink : node.isSymlink = false) :
    fs.resolve jail false l (hops ++ (n :: rel).reverse.map .name) = .ok (n :: (rel ++ r)) := by
  have hdir : fs.IsDir (rel ++ r) := isDir_of_node (hnode ▸ Option.some_ne_none _)
  refine resolve_append h hr fun follow => ?_
  rw [List.reverse_cons, List.map_append, followHops_dirs hdir, List.map_singleton, followHops,
    hnode]
  cases node with
  | dir mode => rfl
  | file mode content => rfl
  | symlink target => cases hlink

end FileSystem

end Posix

namespace Lexical

open Posix

variable {N : Type}

def Component.hop : Component N → Option (Hop N)
  | .normal n => some (.name n)
  | .parentDir => some .up
  | .rootDir | .curDir => none

/-- The path as the kernel follows it. -/
def Path.hops (p : Path N) : List (Hop N) := p.components.filterMap (·.hop)

/-- Where the path starts in a process whose working directory is `cwd`. -/
def Path.start (p : Path N) (cwd : Location N) : Location N :=
  if p.isAbsolute then [] else cwd

theorem filterMap_hop_normal (names : List N) :
    (names.map Component.normal).filterMap (·.hop) = names.map .name := by
  rw [List.filterMap_map, ← List.filterMap_eq_map]
  rfl

theorem Path.hops_absolute (names : List N) : (Path.absolute names).hops = names.map .name :=
  filterMap_hop_normal names

theorem Path.hops_part_absolute (names : List N) (k n : Nat) :
    (((Path.absolute names).dropComponents (k + 1)).takeComponents n).hops =
      ((names.drop k).take n).map .name := by
  rw [← filterMap_hop_normal, List.map_take, List.map_drop]
  rfl

theorem Path.hops_takeComponents (p : Path N) (k n : Nat) :
    (p.takeComponents (k + n)).hops =
      (p.takeComponents k).hops ++ ((p.dropComponents k).takeComponents n).hops := by
  show (p.components.take (k + n)).filterMap _ = _
  rw [List.take_add, List.filterMap_append]
  rfl

theorem Path.start_takeComponents (p : Path N) (n : Nat) (cwd : Location N) :
    (p.takeComponents (n + 1)).start cwd = p.start cwd := by
  have habsolute : (p.takeComponents (n + 1)).isAbsolute = p.isAbsolute := by
    obtain ⟨components, inner⟩ := p
    cases components with
    | nil => rfl
    | cons c cs => cases c <;> rfl
  rw [Path.start, habsolute, Path.start]

end Lexical
