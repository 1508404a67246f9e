import PgEmbeddedSetup.Base.Resolve
import PgEmbeddedSetup.Env.State

/-!
# Ambient paths and directory handles

The calls on the file system that the worker and the ownership walk make: those of the standard
library follow a path from the root or from the working directory, and those of a `cap_std` directory
handle follow it from the handle and refuse to leave it. A call may fail for a reason of its own, a
`Fault`, which is an argument of the call.

`ambient_dir_and_path` splits a path into the handle of its parent directory and the rest. What it
splits is put together again by `ambientDirAndPath_ok`: from the handle, the rest leads where the path
leads.
-/

namespace PgEmbeddedSetup.Fs

open Env Lexical Posix

/-- Names are bytes. Those of a `Utf8Path` are UTF-8, which nothing here depends on. -/
abbrev Utf8Path := Path OsString

def osString (text : String) : OsString := text.toUTF8.toList

theorem toList_loop (bytes : ByteArray) (i : Nat) (read : List UInt8) :
    ByteArray.toList.loop bytes i read = read.reverse ++ bytes.data.toList.drop i := by
  fun_induction ByteArray.toList.loop bytes i read with
  | case1 i read h ih =>
    have hsize : i < bytes.data.toList.length := h
    have hget : bytes.get! i = bytes.data.toList[i] := by
      show bytes.data[i]! = _
      rw [getElem!_pos bytes.data i h, Array.getElem_toList]
    rw [ih, List.drop_eq_getElem_cons hsize, hget, List.reverse_cons, List.append_assoc]
    rfl
  | case2 i read h =>
    have hsize : bytes.data.toList.length ≤ i := Nat.le_of_not_lt h
    rw [List.drop_eq_nil_of_le hsize, List.append_nil]

theorem osString_eq (text : String) : osString text = text.toByteArray.data.toList :=
  toList_loop text.toByteArray 0 []

theorem osString_inj {a b : String} : osString a = osString b ↔ a = b := by
  rw [osString_eq, osString_eq, Array.toList_inj]
  exact ⟨fun h => String.toByteArray_inj.mp (ByteArray.ext h), fun h => h ▸ rfl⟩

/-- What a path leads to that is looked up from the directory at `l`. The empty path names
nothing. -/
def lookup (fs : FileSystem OsString) (jail : Option (Location OsString)) (l : Location OsString)
    (fault : Option Fault) (path : Utf8Path) : Except Errno (Location OsString) :=
  match fault with
  | some f => .error (.fault f)
  | none => if path.isEmpty then .error .notFound else fs.resolve jail false l path.hops

/-! ### The standard library -/

def metadata (fs : FileSystem OsString) (cwd : Location OsString) (fault : Option Fault)
    (path : Utf8Path) : Except Errno (Location OsString) :=
  lookup fs none (path.start cwd) fault path

/-- `Path::exists`: every failure counts as absence. -/
def pathExists (fs : FileSystem OsString) (cwd : Location OsString) (fault : Option Fault)
    (path : Utf8Path) : Bool :=
  (metadata fs cwd fault path).isOk

/-- `Path::is_dir`, with the same convention. -/
def pathIsDir (fs : FileSystem OsString) (cwd : Location OsString) (fault : Option Fault)
    (path : Utf8Path) : Bool :=
  match metadata fs cwd fault path with
  | .ok l => decide (fs.IsDir l)
  | .error _ => false

/-! ### Directory handles -/

/-- `Dir::open_ambient_dir`. A handle is the location of its directory. -/
def openAmbientDir (fs : FileSystem OsString) (cwd : Location OsString) (fault : Option Fault)
    (path : Utf8Path) : Except Errno (Location OsString) := do
  let l ← metadata fs cwd fault path
  if fs.IsDir l then .ok l else .error .notDirectory

/-- The metadata call behind `Dir::exists`. -/
def dirMetadata (fs : FileSystem OsString) (dir : Location OsString) (fault : Option Fault)
    (rel : Utf8Path) : Except Errno (Location OsString) :=
  lookup fs (some dir) dir fault rel

def dirExists (fs : FileSystem OsString) (dir : Location OsString) (fault : Option Fault)
    (rel : Utf8Path) : Bool :=
  (dirMetadata fs dir fault rel).isOk

/-- `Dir::read_dir`: the names of the entries. -/
def dirReadDir (fs : FileSystem OsString) (dir : Location OsString) (fault : Option Fault)
    (rel : Utf8Path) : Except Errno (List OsString) := do
  let l ← lookup fs (some dir) dir fault rel
  if fs.IsDir l then .ok (fs.children l) else .error .notDirectory

/-- `Dir::remove_dir_all`: a directory goes with what is below it, a link goes alone. A removal that
is stopped leaves a part of what is below. What `.` or `..` at the end leads to is emptied, but
cannot itself be removed by that name. -/
def dirRemoveDirAll (fs : FileSystem OsString) (dir : Location OsString)
    (stopped : Option (Fault × (Location OsString → Bool))) (rel : Utf8Path) :
    Except Errno Unit × FileSystem OsString :=
  match rel.hops.getLast? with
  | some (.name n) =>
    match fs.resolve (some dir) false dir rel.hops.dropLast with
    | .error e => (.error e, fs)
    | .ok parent =>
      if fs.IsDir parent then
        match fs.node (n :: parent) with
        | none => (.error .notFound, fs)
        | some (.file _ _) => (.error .notDirectory, fs)
        | some _ =>
          match stopped with
          | some (f, left) => (.error (.fault f), fs.removePart (n :: parent) left)
          | none => (.ok (), fs.remove (n :: parent))
      else (.error .notDirectory, fs)
  | _ =>
    match lookup fs (some dir) dir none rel with
    | .error e => (.error e, fs)
    | .ok l =>
      match stopped with
      | some (f, left) => (.error (.fault f), fs.removePart l left)
      | none => (.error .invalid, fs.removePart l fun _ => false)

/-! ### `ambient_dir_and_path` -/

/-- An absolute path is opened relative to its parent directory, and a relative one to the working
directory. -/
def ambientDirAndPath (fs : FileSystem OsString) (cwd : Location OsString) (fault : Option Fault)
    (path : Utf8Path) : Except Errno (Location OsString × Utf8Path) :=
  if path.isAbsolute then
    match path.parent with
    | some parent =>
      match path.stripPrefix parent with
      | some relative => do
        let dir ← openAmbientDir fs cwd fault parent
        .ok (dir, relative)
      | none => .error .invalid
    -- the root has no parent
    | none => do
      let dir ← openAmbientDir fs cwd fault path
      .ok (dir, ⟨[], nofun⟩)
  else do
    let dir ← openAmbientDir fs cwd fault ⟨[.curDir], nofun⟩
    .ok (dir, path)

/-! ### What the calls find -/

/-- From `l`, the path names the entry at `r`. -/
def Names (fs : FileSystem OsString) (l : Location OsString) (path : Utf8Path)
    (r : Location OsString) : Prop :=
  path.isEmpty = false ∧ fs.Leads l path.hops r

theorem Names.unique {fs : FileSystem OsString} {l r r' : Location OsString} {path : Utf8Path}
    (h : Names fs l path r) (h' : Names fs l path r') : r = r' :=
  h.2.unique h'.2

theorem names_of_lookup {fs : FileSystem OsString} {jail : Option (Location OsString)}
    {l r : Location OsString} {fault : Option Fault} {path : Utf8Path}
    (h : lookup fs jail l fault path = .ok r) : Names fs l path r := by
  unfold lookup at h
  split at h
  next => cases h
  next =>
    split at h
    next => cases h
    next hempty => exact ⟨Bool.eq_false_iff.mpr hempty, FileSystem.leads_of_resolve h⟩

theorem not_names_of_lookup {fs : FileSystem OsString} {jail : Option (Location OsString)}
    {l : Location OsString} {fault : Option Fault} {path : Utf8Path} {e : Errno}
    (h : lookup fs jail l fault path = .error e) (he : e.isAbsence = true)
    (r : Location OsString) : ¬ Names fs l path r := by
  unfold lookup at h
  split at h
  next =>
    cases h
    cases he
  next =>
    split at h
    next hempty => exact fun hr => Bool.noConfusion (hr.1.symm.trans hempty)
    next => exact fun hr => FileSystem.not_leads_of_resolve h he r hr.2

theorem openAmbientDir_ok {fs : FileSystem OsString} {cwd dir : Location OsString}
    {fault : Option Fault} {path : Utf8Path} (h : openAmbientDir fs cwd fault path = .ok dir) :
    Names fs (path.start cwd) path dir ∧ fs.IsDir dir := by
  unfold openAmbientDir at h
  obtain ⟨l, hl, h⟩ := Outcome.except_bind_eq_ok.mp h
  split at h
  next hdir =>
    cases h
    exact ⟨names_of_lookup hl, hdir⟩
  next => cases h

theorem openAmbientDir_calm {fs : FileSystem OsString} {cwd dir : Location OsString}
    {fault : Option Fault} {path : Utf8Path} (h : openAmbientDir fs cwd fault path = .ok dir) :
    openAmbientDir fs cwd none path = .ok dir := by
  cases fault with
  | none => exact h
  | some f => cases h

/-! ### Paths put together -/

theorem hops_join {p q : Utf8Path} (hq : q.isAbsolute = false) :
    (p.join q).hops = p.hops ++ q.hops := by
  have hinner : ∀ cs : List (Component OsString),
      (cs.filter (·.isInner)).filterMap (·.hop) = cs.filterMap (·.hop) := by
    intro cs
    rw [List.filterMap_filter]
    congr 1
    funext c
    cases c <;> rfl
  rcases Path.components_join (p := p) hq with ⟨hempty, heq⟩ | ⟨-, heq⟩
  · simp only [Path.hops, heq, hempty, List.filterMap_nil, List.nil_append]
  · rw [Path.hops, heq, List.filterMap_append, hinner, Path.hops, Path.hops]

theorem start_join {p q : Utf8Path} (hq : q.isAbsolute = false) (cwd : Location OsString) :
    (p.join q).start cwd = p.start cwd := by
  rw [Path.start, Path.isAbsolute_join hq, Path.start]

theorem isEmpty_of_hops {path : Utf8Path} (h : path.hops ≠ []) : path.isEmpty = false := by
  rw [Path.isEmpty, List.isEmpty_eq_false_iff]
  rintro heq
  exact h (by rw [Path.hops, heq]; rfl)

theorem ambientDirAndPath_ok {fs : FileSystem OsString} {cwd dir : Location OsString}
    {fault : Option Fault} {path relative : Utf8Path}
    (h : ambientDirAndPath fs cwd fault path = .ok (dir, relative)) :
    fs.IsDir dir ∧ ∃ prior, path.hops = prior ++ relative.hops ∧
      fs.Leads (path.start cwd) prior dir := by
  unfold ambientDirAndPath at h
  split at h
  next habsolute =>
    split at h
    next parent hparent =>
      split at h
      next relative' hrelative =>
        obtain ⟨dir', hdir', h⟩ := Outcome.except_bind_eq_ok.mp h
        cases h
        obtain ⟨hnames, hdir⟩ := openAmbientDir_ok hdir'
        refine ⟨hdir, parent.hops, ?_, ?_⟩
        · rw [Path.hops, Path.stripPrefix_eq_some hrelative, List.filterMap_append]
          rfl
        rw [Path.start, if_pos habsolute]
        rw [Path.start, if_pos (Path.parent_isAbsolute hparent habsolute)] at hnames
        exact hnames.2
      next => cases h
    next =>
      obtain ⟨dir', hdir', h⟩ := Outcome.except_bind_eq_ok.mp h
      cases h
      obtain ⟨hnames, hdir⟩ := openAmbientDir_ok hdir'
      exact ⟨hdir, path.hops, (List.append_nil _).symm, hnames.2⟩
  next habsolute =>
    obtain ⟨dir', hdir', h⟩ := Outcome.except_bind_eq_ok.mp h
    cases h
    obtain ⟨hnames, hdir⟩ := openAmbientDir_ok hdir'
    refine ⟨hdir, [], rfl, ?_⟩
    rw [Path.start, if_neg habsolute]
    exact hnames.2

/-! ### Removal -/

theorem dirRemoveDirAll_ok {fs fs' : FileSystem OsString} {dir : Location OsString}
    {stopped : Option (Fault × (Location OsString → Bool))} {rel : Utf8Path}
    (h : dirRemoveDirAll fs dir stopped rel = (.ok (), fs')) :
    ∃ init n parent, rel.hops = init ++ [.name n] ∧ fs.Leads dir init parent ∧ fs.IsDir parent ∧
      fs' = fs.remove (n :: parent) := by
  unfold dirRemoveDirAll at h
  split at h
  next n hlast =>
    split at h
    next => cases h
    next parent hparent =>
      split at h
      next hdir =>
        split at h
        next => cases h
        next => cases h
        next =>
          split at h
          next => cases h
          next =>
            cases h
            exact ⟨_, n, parent, (List.dropLast_append_getLast? _ hlast).symm,
              FileSystem.leads_of_resolve hparent, hdir, rfl⟩
      next => cases h
  next =>
    split at h
    next => cases h
    next => split at h <;> cases h

theorem dirRemoveDirAll_notFound {fs fs' : FileSystem OsString} {dir : Location OsString}
    {stopped : Option (Fault × (Location OsString → Bool))} {rel : Utf8Path}
    (h : dirRemoveDirAll fs dir stopped rel = (.error .notFound, fs')) :
    fs' = fs ∧ ∀ r, ¬ Names fs dir rel r := by
  unfold dirRemoveDirAll at h
  split at h
  next n hlast =>
    have hhops := (List.dropLast_append_getLast? _ hlast).symm
    split at h
    next e hparent =>
      cases h
      refine ⟨rfl, fun r hr => ?_⟩
      have hleads := hr.2
      rw [hhops] at hleads
      obtain ⟨r', h₁, -⟩ := FileSystem.leads_append hleads
      exact FileSystem.not_leads_of_resolve hparent rfl r' h₁
    next parent hparent =>
      split at h
      next hdir =>
        split at h
        next hnone =>
          cases h
          refine ⟨rfl, fun r hr => ?_⟩
          have hleads := hr.2
          rw [hhops, FileSystem.leads_append_iff (FileSystem.leads_of_resolve hparent) hdir]
            at hleads
          exact FileSystem.not_leads_missing hnone hleads
        next => cases h
        next => split at h <;> cases h
      next => cases h
  next =>
    split at h
    next e hlookup =>
      cases h
      exact ⟨rfl, not_names_of_lookup hlookup rfl⟩
    next => split at h <;> cases h

theorem not_leads_remove {fs : FileSystem OsString} {l dir parent : Location OsString}
    {prior init : List (Hop OsString)} {n : OsString} (hprior : fs.Leads l prior dir)
    (hdir : fs.IsDir dir) (hinit : fs.Leads dir init parent) (r : Location OsString) :
    ¬ (fs.remove (n :: parent)).Leads l (prior ++ (init ++ [.name n])) r := by
  intro h
  rw [← List.append_assoc] at h
  obtain ⟨parent', h₁, h₂⟩ := FileSystem.leads_append h
  have hparent : parent' = parent :=
    (h₁.mono fun _ _ => FileSystem.node_of_node_prune).unique (hprior.append hdir hinit)
  subst hparent
  exact FileSystem.not_leads_missing (FileSystem.node_remove_self fs n parent') h₂

end PgEmbeddedSetup.Fs
