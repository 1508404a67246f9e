import PgEmbeddedSetup.Worker.Exchange

/-!
# The calls of a parent

`ParentMove` is what one call of a parent changes: its own file, its own worker, and nothing of the other
requests. Each call makes such a move (`parent_moves`), and such a move keeps the invariant
(`Inv.parent`).
-/

namespace PgEmbeddedSetup.Request

open Program Env Worker WorkerProcess Interleave Transition UndoLog
open Cluster (WorkerOperation)
open Fs (osString)

variable {R V : Type} {ex : Exchange R V} {calm : Prop} {nobody : R → Nat × Nat → Prop} {r : R}
  {path : OsString}
  {start : OsString → Option File} {s s' : State R V} {progress : R → Progress} {stage : R → Stage}

namespace Exchange

/-! ### A step of a parent -/

theorem held_file {p : Progress} (h : ex.ParentFits nobody s r p) (hpath : p.path = some path) :
    ∃ file, s.files path = some file := by
  cases p with
  | made path' =>
    obtain rfl := Option.some.inj hpath
    obtain ⟨-, content, hfile⟩ := h
    exact ⟨_, hfile⟩
  | whole path' =>
    obtain rfl := Option.some.inj hpath
    obtain ⟨-, content, -, hfile⟩ := h
    exact ⟨_, hfile⟩
  | owned path' identity =>
    obtain rfl := Option.some.inj hpath
    obtain ⟨-, ⟨content, -, hfile⟩, -⟩ := h
    exact ⟨_, hfile⟩
  | launched path' dead =>
    obtain rfl := Option.some.inj hpath
    obtain ⟨_, _, ⟨_, _, _, _, hfile⟩, _⟩ := h
    exact ⟨_, hfile⟩
  | reaped path' status =>
    obtain rfl := Option.some.inj hpath
    obtain ⟨_, _, ⟨_, _, _, _, hfile⟩, _⟩ := h
    exact ⟨_, hfile⟩
  | idle => cases hpath
  | done status => cases hpath
  | abandoned => cases hpath

theorem ParentFits.congr {p : Progress} (h : ex.ParentFits nobody s r p)
    (hfiles : ∀ path, p.path = some path → s'.files path = s.files path)
    (hchildren : s'.children r = s.children r) (hskipped : s.skipped r = true → s'.skipped r = true) :
    ex.ParentFits nobody s' r p := by
  cases p with
  | idle => exact hchildren.trans h
  | made path => exact ⟨hchildren.trans h.1, h.2.imp fun _ hfile => (hfiles path rfl).trans hfile⟩
  | whole path =>
    exact ⟨hchildren.trans h.1, h.2.imp fun _ hfile => ⟨hfile.1, (hfiles path rfl).trans hfile.2⟩⟩
  | owned path identity =>
    exact ⟨hchildren.trans h.1, h.2.1.imp fun _ hfile => ⟨hfile.1, (hfiles path rfl).trans hfile.2⟩,
      fun hnone => hskipped (h.2.2.1 hnone), h.2.2.2⟩
  | launched path dead =>
    obtain ⟨child, hchild, ⟨identity, hcommand, content, hwritten, hfile⟩, hdead⟩ := h
    exact ⟨child, hchildren.trans hchild,
      ⟨identity, hcommand, content, hwritten, (hfiles path rfl).trans hfile⟩, hdead⟩
  | reaped path status =>
    obtain ⟨child, hchild, ⟨identity, hcommand, content, hwritten, hfile⟩, hstatus⟩ := h
    exact ⟨child, hchildren.trans hchild,
      ⟨identity, hcommand, content, hwritten, (hfiles path rfl).trans hfile⟩, hstatus⟩
  | done status =>
    cases status with
    | none => exact fun child hchild => h child (hchildren.symm.trans hchild)
    | some status => exact h.imp fun child hchild => ⟨hchildren.trans hchild.1, hchild.2⟩
  | abandoned => trivial

/-- What becomes of the worker in one call of its parent: nothing, a kill, or its start. -/
def ChildMoves (ex : Exchange R V) (calm : Prop) (nobody : R → Nat × Nat → Prop)
    (s s' : State R V) (r : R) : Prop :=
  s'.children r = s.children r ∨
    (∃ child, s.children r = some child ∧ ¬ calm ∧
      s'.children r = some { child with status := some sigkill }) ∨
    s.children r = none ∧ ∃ path identity env, Demoted nobody s' r identity ∧
      (calm → (fromPathBuf path).isSome) ∧
      s'.children r = some ⟨commandFor (ex.request r) path identity, env, env, none, []⟩

/-- What one call of a parent changes. -/
structure ParentMove (ex : Exchange R V) (calm : Prop) (nobody : R → Nat × Nat → Prop)
    (s s' : State R V) (r : R) (p p' : Progress) : Prop where
  fits : ex.ParentFits nobody s' r p'
  files : ∀ path, p.path ≠ some path → p'.path ≠ some path → s'.files path = s.files path
  gained : ∀ path, p'.path = some path → p.path = some path ∨
    s.files path = none ∧ (calm → (fromPathBuf path).isSome)
  released : ∀ path, p.path = some path → p'.path = some path ∨ s'.files path = none ∨ path ∈ s'.left
  kept : ∀ path ∈ s.left, path ∈ s'.left
  left : ∀ path ∈ s'.left, path ∈ s.left ∨
    p.path = some path ∧ p'.path = none ∧ (s'.files path).isSome = true
  others : ∀ r', r' ≠ r → s'.children r' = s.children r'
  skipped : ∀ r', s.skipped r' = true → s'.skipped r' = true
  child : ex.ChildMoves calm nobody s s' r
  before : p ≠ .abandoned
  after : calm → p' ≠ .abandoned

theorem Commanded.congr {child child' : Child V} (h : ex.Commanded calm nobody s r child)
    (hcommand : child'.command = child.command) (hskipped : s.skipped r = true → s'.skipped r = true) :
    ex.Commanded calm nobody s' r child' := by
  obtain ⟨path, identity, heq, ⟨hnone, hnobody⟩, hutf8⟩ := h
  exact ⟨path, identity, hcommand.trans heq, ⟨fun h' => hskipped (hnone h'), hnobody⟩, hutf8⟩

theorem StageFits.kill {child : Child V} {w : Stage} {status : ExitStatus}
    (h : ex.StageFits r child w) :
    ex.StageFits r { child with status := some status } w := by
  cases w <;> exact h

theorem ChildFits.kill {child : Child V} {n : Nat} (h : ex.ChildFits calm r child) (hfault : ¬ calm) :
    ex.ChildFits calm r { child with status := some (.signal n) } where
  once := h.once
  success := fun hcode => by cases hcode
  calm := fun hcalm => absurd hcalm hfault

theorem childFits_start {command : Command} {env : OsString → Option OsString} :
    ex.ChildFits calm r ⟨command, env, env, none, []⟩ where
  once := Or.inl rfl
  success := fun hcode => by cases hcode
  calm := fun _ _ hstatus => by cases hstatus

section Moves

variable {p' : Progress} (h : ex.Inv calm nobody start s progress stage)
  (hmove : ex.ParentMove calm nobody s s' r (progress r) p')
include h hmove

theorem ParentMove.foreign {r' : R} (hne : r' ≠ r) (hpath : (progress r').path = some path) :
    (progress r).path ≠ some path ∧ p'.path ≠ some path := by
  have hold : (progress r).path ≠ some path := fun h' => hne (h.distinct r' r path hpath h')
  refine ⟨hold, fun h' => ?_⟩
  obtain ⟨file, hfile⟩ := held_file (h.parents r') hpath
  rcases hmove.gained path h' with h' | ⟨hnone, -⟩
  · exact hold h'
  · cases hfile.symm.trans hnone

theorem ParentMove.commands {child : Child V} (hsome : s'.children r = some child) :
    ex.Commanded calm nobody s' r child := by
  rcases hmove.child with heq | ⟨old, hold, hfault, heq⟩ |
    ⟨hnone, path, identity, env, hskip, hutf8, heq⟩
  · exact (h.commands r child (heq.symm.trans hsome)).congr rfl (hmove.skipped r)
  · obtain rfl := Option.some.inj (heq.symm.trans hsome)
    exact (h.commands r old hold).congr rfl (hmove.skipped r)
  · obtain rfl := Option.some.inj (heq.symm.trans hsome)
    exact ⟨path, identity, rfl, hskip, hutf8⟩

theorem ParentMove.children {child : Child V} (hsome : s'.children r = some child) :
    ex.ChildFits calm r child ∧ ex.StageFits r child (stage r) := by
  rcases hmove.child with heq | ⟨old, hold, hfault, heq⟩ | ⟨hnone, path, identity, env, -, -, heq⟩
  · exact (h.children r child (heq.symm.trans hsome)).resolve_left hmove.before
  · obtain rfl := Option.some.inj (heq.symm.trans hsome)
    obtain ⟨hfits, hstage⟩ := (h.children r old hold).resolve_left hmove.before
    exact ⟨hfits.kill hfault, hstage.kill⟩
  · obtain rfl := Option.some.inj (heq.symm.trans hsome)
    refine ⟨childFits_start, ?_⟩
    rw [h.unspawned r hnone]
    exact ⟨rfl, rfl⟩

theorem ParentMove.unspawned (hnone : s'.children r = none) : stage r = .unread := by
  rcases hmove.child with heq | ⟨old, hold, hfault, heq⟩ |
    ⟨hold, path, identity, env, hskip, hutf8, heq⟩
  · exact h.unspawned r (heq.symm.trans hnone)
  · cases heq.symm.trans hnone
  · cases heq.symm.trans hnone

theorem ParentMove.fresh (hpath : p'.path = some path) :
    start path = none ∧ (calm → (fromPathBuf path).isSome) := by
  rcases hmove.gained path hpath with hold | ⟨hnone, hutf8⟩
  · exact h.fresh r path hold
  refine ⟨?_, hutf8⟩
  rcases h.files path with hstart | ⟨r', hheld⟩ | hleft
  · exact hstart.symm.trans hnone
  · obtain ⟨file, hfile⟩ := held_file (h.parents r') hheld
    cases hfile.symm.trans hnone
  · have hsome := (h.left path hleft).2.1
    rw [hnone] at hsome
    cases hsome

variable [DecidableEq R]

theorem ParentMove.allFiles (path : OsString) : s'.files path = start path ∨
    (∃ r', (Function.update progress r p' r').path = some path) ∨ path ∈ s'.left := by
  by_cases hnew : p'.path = some path
  · exact Or.inr (Or.inl ⟨r, by rw [Function.update_self]; exact hnew⟩)
  by_cases hold : (progress r).path = some path
  · rcases hmove.released path hold with h' | hnone | hleft
    · exact absurd h' hnew
    · exact Or.inl (hnone.trans (h.fresh r path hold).1.symm)
    · exact Or.inr (Or.inr hleft)
  rw [hmove.files path hold hnew]
  rcases h.files path with hstart | ⟨r', hpath⟩ | hleft
  · exact Or.inl hstart
  · have hne : r' ≠ r := fun heq => hold (heq ▸ hpath)
    exact Or.inr (Or.inl ⟨r', by rw [Function.update_of_ne hne]; exact hpath⟩)
  · exact Or.inr (Or.inr (hmove.kept path hleft))

theorem ParentMove.allLeft (hleft : path ∈ s'.left) : start path = none ∧
    (s'.files path).isSome = true ∧ ∀ r', (Function.update progress r p' r').path ≠ some path := by
  rcases hmove.left path hleft with hold | ⟨hpath, hnone, hsome⟩
  · obtain ⟨hstart, hsome, hfree⟩ := h.left path hold
    have hnew : p'.path ≠ some path := by
      intro hpath
      rcases hmove.gained path hpath with hpath | ⟨hnone, -⟩
      · exact hfree r hpath
      · rw [hnone] at hsome
        cases hsome
    refine ⟨hstart, by rw [hmove.files path (hfree r) hnew]; exact hsome, fun r' => ?_⟩
    by_cases hr : r' = r
    · subst hr
      rw [Function.update_self]
      exact hnew
    · rw [Function.update_of_ne hr]
      exact hfree r'
  · refine ⟨(h.fresh r path hpath).1, hsome, fun r' => ?_⟩
    by_cases hr : r' = r
    · subst hr
      rw [Function.update_self, hnone]
      exact (Option.some_ne_none path).symm
    · rw [Function.update_of_ne hr]
      exact fun h' => hr (h.distinct r' r path h' hpath)

/-- A call of a parent keeps the invariant. -/
theorem Inv.parent : ex.Inv calm nobody start s' (Function.update progress r p') stage := by
  have hother : ∀ r', r' ≠ r → Function.update progress r p' r' = progress r' :=
    fun r' hne => Function.update_of_ne hne p' progress
  have hself : Function.update progress r p' r = p' := Function.update_self r p' progress
  constructor
  case parents =>
    intro r'
    by_cases hr : r' = r
    · rw [hr, hself]
      exact hmove.fits
    · rw [hother r' hr]
      refine (h.parents r').congr (fun path hpath => ?_) (hmove.others r' hr) (hmove.skipped r')
      obtain ⟨hold, hnew⟩ := ParentMove.foreign h hmove hr hpath
      exact hmove.files path hold hnew
  case unspawned =>
    intro r' hnone
    by_cases hr : r' = r
    · rw [hr] at hnone ⊢
      exact ParentMove.unspawned h hmove hnone
    · exact h.unspawned r' ((hmove.others r' hr).symm.trans hnone)
  case children =>
    intro r' child hsome
    by_cases hr : r' = r
    · rw [hr] at hsome ⊢
      exact Or.inr (ParentMove.children h hmove hsome)
    · rw [hother r' hr]
      exact h.children r' child ((hmove.others r' hr).symm.trans hsome)
  case commands =>
    intro r' child hsome
    by_cases hr : r' = r
    · rw [hr] at hsome ⊢
      exact ParentMove.commands h hmove hsome
    · exact (h.commands r' child ((hmove.others r' hr).symm.trans hsome)).congr rfl (hmove.skipped r')
  case fresh =>
    intro r' path hpath
    by_cases hr : r' = r
    · rw [hr, hself] at hpath
      exact ParentMove.fresh h hmove hpath
    · rw [hother r' hr] at hpath
      exact h.fresh r' path hpath
  case distinct =>
    intro r₁ r₂ path h₁ h₂
    by_cases hr₁ : r₁ = r <;> by_cases hr₂ : r₂ = r
    · exact hr₁.trans hr₂.symm
    · rw [hr₁, hself] at h₁
      rw [hother r₂ hr₂] at h₂
      exact absurd h₁ (ParentMove.foreign h hmove hr₂ h₂).2
    · rw [hother r₁ hr₁] at h₁
      rw [hr₂, hself] at h₂
      exact absurd h₂ (ParentMove.foreign h hmove hr₁ h₁).2
    · rw [hother r₁ hr₁] at h₁
      rw [hother r₂ hr₂] at h₂
      exact h.distinct r₁ r₂ path h₁ h₂
  case files => exact ParentMove.allFiles h hmove
  case left => exact fun path => ParentMove.allLeft h hmove
  case calm =>
    intro hcalm r'
    by_cases hr : r' = r
    · rw [hr, hself]
      exact hmove.after hcalm
    · rw [hother r' hr]
      exact h.calm hcalm r'

end Moves

/-! ### The calls of a parent -/

section Calls

variable {p p' : Progress} {x : Choice}

theorem setFile_self {file : Option File} : (s.setFile path file).files path = file := by
  unfold State.setFile
  exact Function.update_self path file s.files

theorem setFile_of_ne {file : Option File} {path' : OsString} (hne : path' ≠ path) :
    (s.setFile path file).files path' = s.files path' := by
  unfold State.setFile
  exact Function.update_of_ne hne file s.files

theorem ParentMove.stay (hfits : ex.ParentFits nobody s r p') (hpath : p'.path = p.path)
    (hbefore : p ≠ .abandoned) (hafter : p' ≠ .abandoned) : ex.ParentMove calm nobody s s r p p' where
  fits := hfits
  files _ _ _ := rfl
  gained _ h := Or.inl (hpath ▸ h)
  released _ h := Or.inl (hpath.trans h)
  kept _ h := h
  left _ h := Or.inl h
  others _ _ := rfl
  skipped _ h := h
  child := Or.inl rfl
  before := hbefore
  after _ := hafter

theorem ParentMove.change {file : Option File} (hfits : ex.ParentFits nobody (s.setFile path file) r p')
    (hold : p.path = some path) (hnew : p'.path = some path) (hbefore : p ≠ .abandoned)
    (hafter : p' ≠ .abandoned) : ex.ParentMove calm nobody s (s.setFile path file) r p p' where
  fits := hfits
  files _ hne _ := setFile_of_ne fun h => hne (h ▸ hold)
  gained _ h := Or.inl (hold.trans (hnew.symm.trans h))
  released _ h := Or.inl (hnew.trans (hold.symm.trans h))
  kept _ h := h
  left _ h := Or.inl h
  others _ _ := rfl
  skipped _ h := h
  child := Or.inl rfl
  before := hbefore
  after _ := hafter

theorem ParentMove.remove (hfits : ex.ParentFits nobody (s.setFile path none) r p')
    (hold : p.path = some path) (hnew : p'.path = none) (hbefore : p ≠ .abandoned)
    (hafter : calm → p' ≠ .abandoned) : ex.ParentMove calm nobody s (s.setFile path none) r p p' where
  fits := hfits
  files _ hne _ := setFile_of_ne fun h => hne (h ▸ hold)
  gained _ h := by
    rw [hnew] at h
    cases h
  released _ h := by
    obtain rfl := Option.some.inj (hold.symm.trans h)
    exact Or.inr (Or.inl setFile_self)
  kept _ h := h
  left _ h := Or.inl h
  others _ _ := rfl
  skipped _ h := h
  child := Or.inl rfl
  before := hbefore
  after := hafter

theorem ParentMove.leave (hfits : ex.ParentFits nobody s r p') (hthere : ∃ file, s.files path = some file)
    (hold : p.path = some path) (hnew : p'.path = none) (hbefore : p ≠ .abandoned)
    (hafter : calm → p' ≠ .abandoned) :
    ex.ParentMove calm nobody s { s with left := path :: s.left } r p p' where
  fits := hfits.congr (fun _ _ => rfl) rfl fun h => h
  files _ _ _ := rfl
  gained _ h := by
    rw [hnew] at h
    cases h
  released _ h := by
    obtain rfl := Option.some.inj (hold.symm.trans h)
    exact Or.inr (Or.inr List.mem_cons_self)
  kept _ h := List.mem_cons_of_mem _ h
  left _ h := by
    rcases List.mem_cons.mp h with rfl | h
    · exact Or.inr ⟨hold, hnew, Option.isSome_iff_exists.mpr hthere⟩
    · exact Or.inl h
  others _ _ := rfl
  skipped _ h := h
  child := Or.inl rfl
  before := hbefore
  after := hafter

theorem unlink_moves {uid : Nat} {a : Except String Unit} (hfits : ex.ParentFits nobody s r p)
    (hfits' : ex.ParentFits nobody s r p') (hold : p.path = some path) (hnew : p'.path = none)
    (hbefore : p ≠ .abandoned) (hafter : calm → p' ≠ .abandoned) [DecidableEq R]
    (hdo : doParent uid s r x (.unlink path) = some (a, s')) : ex.ParentMove calm nobody s s' r p p' := by
  cases hfault : x.fault with
  | some f =>
    simp only [doParent, hfault, Option.some.injEq, Prod.mk.injEq] at hdo
    obtain ⟨rfl, rfl⟩ := hdo
    exact .leave hfits' (held_file hfits hold) hold hnew hbefore hafter
  | none =>
    simp only [doParent, hfault, Option.some.injEq, Prod.mk.injEq] at hdo
    obtain ⟨rfl, rfl⟩ := hdo
    refine .remove (hfits'.congr (fun path' h => ?_) rfl fun h => h) hold hnew hbefore hafter
    rw [hnew] at h
    cases h

variable [DecidableEq R]

theorem setChild_self {child : Child V} : (s.setChild r child).children r = some child := by
  unfold State.setChild
  exact Function.update_self r (some child) s.children

theorem setChild_of_ne {child : Child V} {r' : R} (hne : r' ≠ r) :
    (s.setChild r child).children r' = s.children r' := by
  unfold State.setChild
  exact Function.update_of_ne hne (some child) s.children

theorem ParentMove.skip {skip : Bool}
    (hfits : ex.ParentFits nobody { s with skipped := Function.update s.skipped r (s.skipped r || skip) } r p')
    (hpath : p'.path = p.path) (hbefore : p ≠ .abandoned) (hafter : p' ≠ .abandoned) :
    ex.ParentMove calm nobody s { s with skipped := Function.update s.skipped r (s.skipped r || skip) } r p
      p' where
  fits := hfits
  files _ _ _ := rfl
  gained _ h := Or.inl (hpath ▸ h)
  released _ h := Or.inl (hpath.trans h)
  kept _ h := h
  left _ h := Or.inl h
  others _ _ := rfl
  skipped r' h := by
    by_cases hr : r' = r
    · subst hr
      simp [h]
    · simpa [Function.update_of_ne hr] using h
  child := Or.inl rfl
  before := hbefore
  after _ := hafter

theorem ParentMove.setChild {child : Child V} (hfits : ex.ParentFits nobody (s.setChild r child) r p')
    (hpath : p'.path = p.path) (hmoves : ex.ChildMoves calm nobody s (s.setChild r child) r)
    (hbefore : p ≠ .abandoned) (hafter : p' ≠ .abandoned) :
    ex.ParentMove calm nobody s (s.setChild r child) r p p' where
  fits := hfits
  files _ _ _ := rfl
  gained _ h := Or.inl (hpath ▸ h)
  released _ h := Or.inl (hpath.trans h)
  kept _ h := h
  left _ h := Or.inl h
  others _ hne := setChild_of_ne hne
  skipped _ h := h
  child := hmoves
  before := hbefore
  after _ := hafter

/-! ### One call after the other -/

section Child

variable {command : Command} (hfits : ex.ParentFits nobody s r p)
include hfits

omit [DecidableEq R] in
theorem fault_moves {α : Type} {a : α} {Q : α → Progress → Prop} (hp : p ≠ .abandoned) (hq : Q a p) :
    ∃ p', Q a p' ∧ ex.ParentMove calm nobody s s r p p' :=
  ⟨p, hq, .stay hfits rfl hp hp⟩

theorem spawn_moves {a : Except String Unit} {Q : Except String Unit → Progress → Prop}
    (hutf8 : ∀ path, p.path = some path → calm → (fromPathBuf path).isSome)
    (hcalm : calm → x.fault = none) (hdo : doChild s r command x .spawn = some (a, s'))
    (hspec : ex.parentSpec r calm nobody (.child command .spawn) p Q) :
    ∃ p', Q a p' ∧ ex.ParentMove calm nobody s s' r p p' := by
  cases p with
  | owned path identity =>
    obtain ⟨rfl, hfault', hok⟩ := hspec
    cases hfault : x.fault with
    | some f =>
      simp only [doChild, hfault, Option.some.injEq, Prod.mk.injEq] at hdo
      obtain ⟨rfl, rfl⟩ := hdo
      exact fault_moves hfits (fun h => by cases h) (hfault' f fun h => by
        cases (hcalm h).symm.trans hfault)
    | none =>
      simp only [doChild, hfault, Option.some.injEq, Prod.mk.injEq] at hdo
      obtain ⟨rfl, rfl⟩ := hdo
      obtain ⟨hnone, hsent, hdemoted⟩ := hfits
      refine ⟨.launched path false, hok, .setChild
        ⟨_, setChild_self, ⟨identity, rfl, hsent⟩, fun h => by cases h⟩ rfl
        (Or.inr (Or.inr ⟨hnone, path, identity, x.env, hdemoted, hutf8 path rfl, setChild_self⟩))
        (fun h => by cases h) fun h => by cases h⟩
  | _ => exact hspec.elim

theorem waitTimeout_moves {timeout : Nat} {a : Except String (Option ExitStatus)}
    {Q : Except String (Option ExitStatus) → Progress → Prop}
    (hcalm : calm → x.fault = none ∧ x.timedOut = false)
    (hdo : doChild s r command x (.waitTimeout timeout) = some (a, s'))
    (hspec : ex.parentSpec r calm nobody (.child command (.waitTimeout timeout)) p Q) :
    ∃ p', Q a p' ∧ ex.ParentMove calm nobody s s' r p p' := by
  cases p with
  | launched path dead =>
    obtain ⟨hfault', htimeout, hok⟩ := hspec
    cases hfault : x.fault with
    | some f =>
      simp only [doChild, hfault, Option.some.injEq, Prod.mk.injEq] at hdo
      obtain ⟨rfl, rfl⟩ := hdo
      exact fault_moves hfits (fun h => by cases h) (hfault' f fun h => by
        cases (hcalm h).1.symm.trans hfault)
    | none =>
      obtain ⟨child, hchild, hlaunched, hdead⟩ := hfits
      cases hstatus : child.status with
      | some status =>
        simp only [doChild, hfault, hchild, hstatus, Option.some.injEq, Prod.mk.injEq] at hdo
        obtain ⟨rfl, rfl⟩ := hdo
        exact ⟨.launched path true, hok status, .stay ⟨child, hchild, hlaunched, fun _ => by
          simp [hstatus]⟩ rfl (fun h => by cases h) fun h => by cases h⟩
      | none =>
        simp only [doChild, hfault, hchild, hstatus, Option.ite_none_right_eq_some, Option.some.injEq,
          Prod.mk.injEq] at hdo
        obtain ⟨htime, rfl, rfl⟩ := hdo
        refine ⟨.launched path dead, htimeout fun h => ?_, .stay ⟨child, hchild, hlaunched, hdead⟩ rfl
          (fun h => by cases h) fun h => by cases h⟩
        cases (hcalm h).2.symm.trans htime
  | _ => exact hspec.elim

theorem kill_moves {a : Except KillError Unit} {Q : Except KillError Unit → Progress → Prop}
    (hdo : doChild s r command x .kill = some (a, s'))
    (hspec : ex.parentSpec r calm nobody (.child command .kill) p Q) :
    ∃ p', Q a p' ∧ ex.ParentMove calm nobody s s' r p p' := by
  cases p with
  | launched path dead =>
    obtain ⟨hnot, hother, hinvalid, hok⟩ := hspec
    cases hfault : x.fault with
    | some f =>
      simp only [doChild, hfault, Option.some.injEq, Prod.mk.injEq] at hdo
      obtain ⟨rfl, rfl⟩ := hdo
      exact fault_moves hfits (fun h => by cases h) (hother f)
    | none =>
      obtain ⟨child, hchild, ⟨identity, hcommand, hsent⟩, hdead⟩ := hfits
      cases hstatus : child.status with
      | some status =>
        simp only [doChild, hfault, hchild, hstatus, Option.some.injEq, Prod.mk.injEq] at hdo
        obtain ⟨rfl, rfl⟩ := hdo
        refine ⟨.launched path true, ?_, .stay ⟨child, hchild, ⟨identity, hcommand, hsent⟩,
          fun _ => by simp [hstatus]⟩ rfl (fun h => by cases h) fun h => by cases h⟩
        split
        next => exact hinvalid
        next => exact hok
      | none =>
        simp only [doChild, hfault, hchild, hstatus, Option.some.injEq, Prod.mk.injEq] at hdo
        obtain ⟨rfl, rfl⟩ := hdo
        exact ⟨.launched path true, hok, .setChild
          ⟨_, setChild_self, ⟨identity, hcommand, hsent⟩, fun _ => rfl⟩ rfl
          (Or.inr (Or.inl ⟨child, hchild, hnot, setChild_self⟩))
          (fun h => by cases h) fun h => by cases h⟩
  | _ => exact hspec.elim

theorem waitWithOutput_moves {a : Except String Output} {Q : Except String Output → Progress → Prop}
    (hcalm : calm → x.fault = none) (hdo : doChild s r command x .waitWithOutput = some (a, s'))
    (hspec : ex.parentSpec r calm nobody (.child command .waitWithOutput) p Q) :
    ∃ p', Q a p' ∧ ex.ParentMove calm nobody s s' r p p' := by
  cases p with
  | launched path dead =>
    obtain ⟨hfault', hok⟩ := hspec
    cases hfault : x.fault with
    | some f =>
      simp only [doChild, hfault, Option.some.injEq, Prod.mk.injEq] at hdo
      obtain ⟨rfl, rfl⟩ := hdo
      exact fault_moves hfits (fun h => by cases h) (hfault' f fun h => by
        cases (hcalm h).symm.trans hfault)
    | none =>
      obtain ⟨child, hchild, hlaunched, hdead⟩ := hfits
      simp only [doChild, hfault, hchild, Option.map_eq_some_iff] at hdo
      obtain ⟨status, hstatus, hdo⟩ := hdo
      cases hdo
      exact ⟨.reaped path status, hok ⟨status, x.stdout, x.stderr⟩,
        .stay ⟨child, hchild, hlaunched, hstatus⟩ rfl (fun h => by cases h) fun h => by cases h⟩
  | _ => exact hspec.elim

end Child

section Files

variable {uid : Nat} (hfits : ex.ParentFits nobody s r p)
include hfits

theorem createTemp_moves {a : Except String OsString} {Q : Except String OsString → Progress → Prop}
    (hcalm : calm → x.fault = none ∧ (fromPathBuf x.path).isSome)
    (hdo : doParent uid s r x .createTemp = some (a, s')) (huid : uid = ex.uid)
    (hspec : ex.parentSpec r calm nobody .createTemp p Q) :
    ∃ p', Q a p' ∧ ex.ParentMove calm nobody s s' r p p' := by
  cases p with
  | idle =>
    cases hfault : x.fault with
    | some f =>
      simp only [doParent, hfault, Option.some.injEq, Prod.mk.injEq] at hdo
      obtain ⟨rfl, rfl⟩ := hdo
      exact fault_moves hfits (fun h => by cases h) (hspec.1 f fun h => by
        cases (hcalm h).1.symm.trans hfault)
    | none =>
      cases hfile : s.files x.path with
      | some file => simp [doParent, hfault, hfile] at hdo
      | none =>
        simp only [doParent, hfault, hfile, Option.some.injEq, Prod.mk.injEq] at hdo
        obtain ⟨rfl, rfl⟩ := hdo
        subst huid
        refine ⟨.made x.path, hspec.2 x.path fun h => (hcalm h).2, ?_⟩
        exact {
          fits := ⟨hfits, [], setFile_self⟩
          files := fun path _ hne => setFile_of_ne fun h => hne (h ▸ rfl)
          gained := fun path h => by
            obtain rfl := Option.some.inj h
            exact Or.inr ⟨hfile, fun h => (hcalm h).2⟩
          released := fun _ h => by cases h
          kept := fun _ h => h
          left := fun _ h => Or.inl h
          others := fun _ _ => rfl
          skipped := fun _ h => h
          child := Or.inl rfl
          before := fun h => by cases h
          after := fun _ h => by cases h }
  | _ => exact hspec.elim

theorem writeAll_moves {content : List UInt8} {a : Except String Unit}
    {Q : Except String Unit → Progress → Prop} (hcalm : calm → x.fault = none)
    (hdo : doParent uid s r x (.writeAll path content) = some (a, s'))
    (hspec : ex.parentSpec r calm nobody (.writeAll path content) p Q) :
    ∃ p', Q a p' ∧ ex.ParentMove calm nobody s s' r p p' := by
  cases p with
  | made path' =>
    obtain ⟨rfl, hwritten, hfault', hok⟩ := hspec
    obtain ⟨hnone, old, hfile⟩ := hfits
    cases hfault : x.fault with
    | some f =>
      simp only [doParent, hfault, hfile, Option.map_some, Option.some.injEq, Prod.mk.injEq] at hdo
      obtain ⟨rfl, rfl⟩ := hdo
      refine ⟨.made path, hfault' f fun h => ?_, .change ⟨hnone, _, setFile_self⟩ rfl rfl
        (fun h => by cases h) fun h => by cases h⟩
      cases (hcalm h).symm.trans hfault
    | none =>
      simp only [doParent, hfault, hfile, Option.map_some, Option.some.injEq, Prod.mk.injEq] at hdo
      obtain ⟨rfl, rfl⟩ := hdo
      exact ⟨.whole path, hok, .change ⟨hnone, content, hwritten, setFile_self⟩ rfl rfl
        (fun h => by cases h) fun h => by cases h⟩
  | _ => exact hspec.elim

theorem flush_moves {a : Except String Unit} {Q : Except String Unit → Progress → Prop}
    (hcalm : calm → x.fault = none) (hdo : doParent uid s r x (.flush path) = some (a, s'))
    (hspec : ex.parentSpec r calm nobody (.flush path) p Q) :
    ∃ p', Q a p' ∧ ex.ParentMove calm nobody s s' r p p' := by
  cases p with
  | whole path' =>
    cases hfault : x.fault with
    | some f =>
      simp only [doParent, hfault, Option.some.injEq, Prod.mk.injEq] at hdo
      obtain ⟨rfl, rfl⟩ := hdo
      exact fault_moves hfits (fun h => by cases h) (hspec.1 f fun h => by
        cases (hcalm h).symm.trans hfault)
    | none =>
      simp only [doParent, hfault, Option.some.injEq, Prod.mk.injEq] at hdo
      obtain ⟨rfl, rfl⟩ := hdo
      exact ⟨.whole path', hspec.2, .stay hfits rfl (fun h => by cases h) fun h => by cases h⟩
  | _ => exact hspec.elim

theorem unlink_unspawned {a : Except String Unit} {Q : Except String Unit → Progress → Prop}
    (hnone : s.children r = none) (hold : p.path = some path) (hp : p ≠ .abandoned)
    (hdo : doParent uid s r x (.unlink path) = some (a, s')) (hq : ∀ a, Q a (.done none)) :
    ∃ p', Q a p' ∧ ex.ParentMove calm nobody s s' r p p' := by
  refine ⟨.done none, hq a, unlink_moves hfits (fun child hchild => ?_) hold rfl hp
    (fun _ h => by cases h) hdo⟩
  cases hnone.symm.trans hchild

theorem unlink_launched {dead : Bool} {a : Except String Unit}
    {Q : Except String Unit → Progress → Prop} (hp : p = .launched path dead) (hfault : ¬ calm)
    (hdo : doParent uid s r x (.unlink path) = some (a, s'))
    (hq : ∀ a, Q a (if dead then .done none else .abandoned)) :
    ∃ p', Q a p' ∧ ex.ParentMove calm nobody s s' r p p' := by
  subst hp
  cases dead with
  | true =>
    refine ⟨.done none, hq a, unlink_moves hfits (fun child hchild => ?_) rfl rfl
      (fun h => by cases h) (fun _ h => by cases h) hdo⟩
    obtain ⟨child', hchild', -, hdead⟩ := hfits
    obtain rfl := Option.some.inj (hchild'.symm.trans hchild)
    exact hdead rfl
  | false =>
    exact ⟨.abandoned, hq a, unlink_moves hfits trivial rfl rfl
      (fun h => by cases h) (fun h => absurd h hfault) hdo⟩

theorem unlink_reaped {status : ExitStatus} {a : Except String Unit}
    {Q : Except String Unit → Progress → Prop} (hp : p = .reaped path status)
    (hcalm : calm → x.fault = none) (hdo : doParent uid s r x (.unlink path) = some (a, s'))
    (hfault : ∀ e, ¬ calm → Q (.error e) (.done (some status))) (hok : Q (.ok ()) (.done (some status))) :
    ∃ p', Q a p' ∧ ex.ParentMove calm nobody s s' r p p' := by
  subst hp
  have hfits' : ex.ParentFits nobody s r (.done (some status)) := by
    obtain ⟨child, hchild, -, hstatus⟩ := hfits
    exact ⟨child, hchild, hstatus⟩
  refine ⟨.done (some status), ?_, unlink_moves hfits hfits' rfl rfl
    (fun h => by cases h) (fun _ h => by cases h) hdo⟩
  cases a with
  | error e =>
    refine hfault e fun h => ?_
    simp [doParent, hcalm h] at hdo
  | ok _ => exact hok

theorem unlinked_moves {a : Except String Unit} {Q : Except String Unit → Progress → Prop}
    (hcalm : calm → x.fault = none) (hdo : doParent uid s r x (.unlink path) = some (a, s'))
    (hspec : ex.parentSpec r calm nobody (.unlink path) p Q) :
    ∃ p', Q a p' ∧ ex.ParentMove calm nobody s s' r p p' := by
  cases p with
  | made path' =>
    obtain ⟨rfl, hq⟩ := hspec
    exact unlink_unspawned hfits hfits.1 rfl (fun h => by cases h) hdo hq
  | whole path' =>
    obtain ⟨rfl, hq⟩ := hspec
    exact unlink_unspawned hfits hfits.1 rfl (fun h => by cases h) hdo hq
  | owned path' identity =>
    obtain ⟨rfl, hq⟩ := hspec
    exact unlink_unspawned hfits hfits.1 rfl (fun h => by cases h) hdo hq
  | launched path' dead =>
    obtain ⟨rfl, hfault, hq⟩ := hspec
    exact unlink_launched hfits rfl hfault hdo hq
  | reaped path' status =>
    obtain ⟨rfl, hfault, hok⟩ := hspec
    exact unlink_reaped hfits rfl hcalm hdo hfault hok
  | _ => exact hspec.elim

end Files

section Privileges

variable {uid : Nat} (hfits : ex.ParentFits nobody s r p)
include hfits

theorem skipPrivilegeDrop_moves {a : Bool} {Q : Bool → Progress → Prop}
    (hdo : doParent uid s r x .skipPrivilegeDrop = some (a, s'))
    (hspec : ex.parentSpec r calm nobody .skipPrivilegeDrop p Q) :
    ∃ p', Q a p' ∧ ex.ParentMove calm nobody s s' r p p' := by
  cases p with
  | whole path' =>
    simp only [doParent, Option.some.injEq, Prod.mk.injEq] at hdo
    obtain ⟨rfl, rfl⟩ := hdo
    cases hskip : x.skip with
    | true =>
      refine ⟨.owned path' none, hskip ▸ hspec.1, .skip ⟨hfits.1, hfits.2, fun _ => ?_, fun _ h => by
        cases h⟩ rfl (fun h => by cases h) fun h => by cases h⟩
      simp
    | false => exact ⟨.whole path', hskip ▸ hspec.2, .skip hfits rfl
        (fun h => by cases h) fun h => by cases h⟩
  | _ => exact hspec.elim

theorem userFromName_moves {name : String} {a : Except String (Option (Nat × Nat))}
    {Q : Except String (Option (Nat × Nat)) → Progress → Prop}
    (hcalm : calm → x.fault = none ∧ (x.users name).isSome) (hnamed : Named nobody (.parent r) x)
    (hdo : doParent uid s r x (.userFromName name) = some (a, s'))
    (hspec : ex.parentSpec r calm nobody (.userFromName name) p Q) :
    ∃ p', Q a p' ∧ ex.ParentMove calm nobody s s' r p p' := by
  cases p with
  | whole path' =>
    obtain ⟨rfl, hfault', hok⟩ := hspec
    cases hfault : x.fault with
    | some f =>
      simp only [doParent, hfault, Option.some.injEq, Prod.mk.injEq] at hdo
      obtain ⟨rfl, rfl⟩ := hdo
      exact fault_moves hfits (fun h => by cases h) (hfault' f fun h => by
        cases (hcalm h).1.symm.trans hfault)
    | none =>
      simp only [doParent, hfault, Option.some.injEq, Prod.mk.injEq] at hdo
      obtain ⟨rfl, rfl⟩ := hdo
      exact fault_moves hfits (fun h => by cases h)
        (hok (x.users "nobody") (fun h => (hcalm h).2) fun ids => hnamed r ids rfl)
  | _ => exact hspec.elim

theorem chown_moves {owner gid : Nat} {a : Except String Unit}
    {Q : Except String Unit → Progress → Prop} (hcalm : calm → x.fault = none)
    (hdo : doParent uid s r x (.chown path owner gid) = some (a, s'))
    (hspec : ex.parentSpec r calm nobody (.chown path owner gid) p Q) :
    ∃ p', Q a p' ∧ ex.ParentMove calm nobody s s' r p p' := by
  cases p with
  | whole path' =>
    obtain ⟨rfl, hids, hfault', hok⟩ := hspec
    cases hfault : x.fault with
    | some f =>
      simp only [doParent, hfault, Option.some.injEq, Prod.mk.injEq] at hdo
      obtain ⟨rfl, rfl⟩ := hdo
      exact fault_moves hfits (fun h => by cases h) (hfault' f fun h => by
        cases (hcalm h).symm.trans hfault)
    | none =>
      obtain ⟨hnone, content, hwritten, hfile⟩ := hfits
      simp only [doParent, hfault, hfile, Option.map_some, Option.some.injEq, Prod.mk.injEq] at hdo
      obtain ⟨rfl, rfl⟩ := hdo
      refine ⟨.owned path (some (owner, gid)), hok, .change ⟨hnone, ⟨content, hwritten, setFile_self⟩,
        (fun h => by cases h), fun ids h => ?_⟩ rfl rfl (fun h => by cases h) fun h => by cases h⟩
      obtain rfl := Option.some.inj h
      exact hids
  | _ => exact hspec.elim

end Privileges

/-- What a call of a parent changes, by the call. -/
theorem parent_moves {i : ParentInstr} {a : i.Answer} {Q : i.Answer → Progress → Prop}
    (hfits : ex.ParentFits nobody s r p)
    (hutf8 : ∀ path, p.path = some path → calm → (fromPathBuf path).isSome)
    (hcalm : calm → Calm (V := V) (Party.parent r) (.parent i) x) (hnamed : Named nobody (.parent r) x)
    (hdo : doParent ex.uid s r x i = some (a, s'))
    (hspec : ex.parentSpec r calm nobody i p Q) :
    ∃ p', Q a p' ∧ ex.ParentMove calm nobody s s' r p p' := by
  cases i with
  | createTemp => exact createTemp_moves hfits (fun h => (hcalm h).2) hdo rfl hspec
  | writeAll path content => exact writeAll_moves hfits (fun h => (hcalm h).2) hdo hspec
  | flush path => exact flush_moves hfits (fun h => (hcalm h).2) hdo hspec
  | unlink path => exact unlinked_moves hfits (fun h => (hcalm h).2) hdo hspec
  | skipPrivilegeDrop => exact skipPrivilegeDrop_moves hfits hdo hspec
  | userFromName name => exact userFromName_moves hfits (fun h => (hcalm h).2) hnamed hdo hspec
  | chown path uid gid => exact chown_moves hfits (fun h => (hcalm h).2) hdo hspec
  | child command i =>
    cases i with
    | spawn => exact spawn_moves hfits hutf8 (fun h => (hcalm h).2) hdo hspec
    | waitTimeout timeout => exact waitTimeout_moves hfits (fun h => (hcalm h).2) hdo hspec
    | kill => exact kill_moves hfits hdo hspec
    | waitWithOutput => exact waitWithOutput_moves hfits (fun h => (hcalm h).2) hdo hspec

end Calls

end Exchange

end PgEmbeddedSetup.Request
