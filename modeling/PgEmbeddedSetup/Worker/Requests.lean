import PgEmbeddedSetup.Worker.ParentMoves
import PgEmbeddedSetup.Worker.Parties

/-!
# What a request comes to

What holds after any interleaving of the requests. A worker performs nothing but what its request asks
for, and that once (`performs_only_request`); the parent reports success when it has been done
(`success_means_performed`), and where no call fails it reports what came of it (`result_of_operation`).
No payload is left behind, unless its removal fails (`payload_removed`).
-/

namespace PgEmbeddedSetup.Request

open Program Env Worker WorkerProcess Interleave Transition UndoLog
open Cluster (WorkerOperation)
open Fs (osString)

variable {R V : Type} {ex : Exchange R V} {calm : Prop} {nobody : R → Nat × Nat → Prop} {r : R}
  {path : OsString} {start : OsString → Option File} {s s' : State R V} {progress : R → Progress} {stage : R → Stage}

namespace Exchange

/-! ### A step of a worker -/

section Workers

variable {child child' : Child V} {w w' : Stage} {x : Choice}

theorem Inv.alive (h : ex.Inv calm nobody start s progress stage) (hchild : s.children r = some child)
    (halive : child.status = none) : progress r = .abandoned ∨
      ∃ path, progress r = .launched path false ∧ ex.Launched s r path child := by
  have hfits := h.parents r
  have hsame : ∀ child', s.children r = some child' → child' = child :=
    fun child' h' => Option.some.inj (h'.symm.trans hchild)
  cases hp : progress r with
  | abandoned => exact Or.inl rfl
  | launched path dead =>
    rw [hp] at hfits
    obtain ⟨child', hchild', hlaunched, hdead⟩ := hfits
    obtain rfl := hsame child' hchild'
    cases dead with
    | false => exact Or.inr ⟨path, rfl, hlaunched⟩
    | true =>
      have hsome := hdead rfl
      rw [halive] at hsome
      cases hsome
  | idle =>
    rw [hp] at hfits
    cases hchild.symm.trans hfits
  | made path =>
    rw [hp] at hfits
    cases hchild.symm.trans hfits.1
  | whole path =>
    rw [hp] at hfits
    cases hchild.symm.trans hfits.1
  | owned path identity =>
    rw [hp] at hfits
    cases hchild.symm.trans hfits.1
  | reaped path status =>
    rw [hp] at hfits
    obtain ⟨child', hchild', -, hstatus⟩ := hfits
    obtain rfl := hsame child' hchild'
    cases halive.symm.trans hstatus
  | done status =>
    rw [hp] at hfits
    cases status with
    | none =>
      have hsome := hfits child hchild
      rw [halive] at hsome
      cases hsome
    | some status =>
      obtain ⟨child', hchild', hstatus⟩ := hfits
      obtain rfl := hsame child' hchild'
      cases halive.symm.trans hstatus

theorem Inv.launched (h : ex.Inv calm nobody start s progress stage) (hchild : s.children r = some child)
    (hkept : ¬ (progress r = .abandoned ∨ ∃ status, progress r = .done status)) :
    ∃ path, ex.Launched s r path child := by
  have hfits := h.parents r
  cases hp : progress r with
  | abandoned => exact absurd (Or.inl hp) hkept
  | done status => exact absurd (Or.inr ⟨status, hp⟩) hkept
  | launched path dead =>
    rw [hp] at hfits
    obtain ⟨child', hchild', hlaunched, -⟩ := hfits
    obtain rfl := Option.some.inj (hchild'.symm.trans hchild)
    exact ⟨path, hlaunched⟩
  | reaped path status =>
    rw [hp] at hfits
    obtain ⟨child', hchild', hlaunched, -⟩ := hfits
    obtain rfl := Option.some.inj (hchild'.symm.trans hchild)
    exact ⟨path, hlaunched⟩
  | idle =>
    rw [hp] at hfits
    cases hchild.symm.trans hfits
  | made path =>
    rw [hp] at hfits
    cases hchild.symm.trans hfits.1
  | whole path =>
    rw [hp] at hfits
    cases hchild.symm.trans hfits.1
  | owned path identity =>
    rw [hp] at hfits
    cases hchild.symm.trans hfits.1

theorem commandFor_path {path' : OsString} {identity identity' : Option (Nat × Nat)}
    (h : commandFor (ex.request r) path identity = commandFor (ex.request r) path' identity') :
    path = path' :=
  (List.cons.inj (List.cons.inj (congrArg (·.args) h)).2).1

theorem Launched.sent {path' : OsString} {identity : Option (Nat × Nat)}
    (h : ex.Launched s r path' child) (hcommand : child.command = commandFor (ex.request r) path identity) :
    ex.Sent s r path identity := by
  obtain ⟨identity', hcommand', hsent⟩ := h
  have heq := hcommand.symm.trans hcommand'
  obtain rfl := commandFor_path heq
  obtain rfl : identity = identity' := congrArg (·.identity) heq
  exact hsent

theorem informed_path {path' : OsString} {dead : Bool}
    (hknown : progress r = .abandoned ∨ ex.ChildFits calm r child ∧
      ex.StageFits r child (.informed path'))
    (hp : progress r = .launched path dead) {identity : Option (Nat × Nat)}
    (hcommand : child.command = commandFor (ex.request r) path identity) : path = path' := by
  rcases hknown with habandoned | ⟨-, -, -, identity', hcommand'⟩
  · cases habandoned.symm.trans hp
  · exact commandFor_path (hcommand.symm.trans hcommand')

variable (calm) in
theorem performed_fits {settings : Settings V}
    (halive : child.status = none) (hperformed : child.performed = [])
    (henv : child.env = assignAll child.inherited (ex.vars r)) (hsettings : ex.SameSettings r settings)
    (succeeded : Bool) :
    ex.ChildFits calm r { child with
        performed := child.performed ++ [⟨(ex.request r).operation, settings, child.env, succeeded⟩] } ∧
      ex.StageFits r { child with
        performed := child.performed ++ [⟨(ex.request r).operation, settings, child.env, succeeded⟩] }
        (.after succeeded) := by
  rw [hperformed, List.nil_append]
  have hasked : ex.Asked r child.inherited ⟨(ex.request r).operation, settings, child.env, succeeded⟩ :=
    ⟨rfl, hsettings, henv⟩
  refine ⟨⟨Or.inr ⟨_, rfl, hasked⟩, fun hcode => ?_, fun _ _ hstatus => ?_⟩, _, rfl, hasked, rfl⟩
  · cases halive.symm.trans hcode
  · cases halive.symm.trans hstatus

theorem ChildFits.exit_early {status : ExitStatus} (hfits : ex.ChildFits calm r child) (hnot : ¬ calm)
    (hstatus : status ≠ .code 0) : ex.ChildFits calm r { child with status := some status } :=
  ⟨hfits.once, fun hcode => absurd (Option.some.inj hcode) hstatus, fun hc => absurd hc hnot⟩

theorem ChildFits.exit {status : ExitStatus} {p : Performed V} (hfits : ex.ChildFits calm r child)
    (hperformed : child.performed = [p])
    (hstatus : status = if p.succeeded then .code 0 else .code 1) :
    ex.ChildFits calm r { child with status := some status } := by
  refine ⟨hfits.once, fun hcode => ⟨p, hperformed, ?_⟩, fun _ st hst => ⟨p, hperformed, ?_⟩⟩
  · have hzero := hstatus.symm.trans (Option.some.inj hcode)
    by_contra hfalse
    rw [if_neg hfalse] at hzero
    cases hzero
  · rw [← hstatus]
    exact (Option.some.inj hst).symm

variable [DecidableEq R]

theorem Inv.worker (h : ex.Inv calm nobody start s progress stage) (hchild : s.children r = some child)
    (halive : child.status = none) (hcommand : child'.command = child.command)
    (hfits : progress r = .abandoned ∨ ex.ChildFits calm r child' ∧ ex.StageFits r child' w') :
    ex.Inv calm nobody start (s.setChild r child') progress (Function.update stage r w') := by
  constructor
  case parents =>
    intro r'
    by_cases hr : r' = r
    · subst hr
      rcases h.alive hchild halive with habandoned | ⟨path, hp, identity, heq, hsent⟩
      · rw [habandoned]
        trivial
      · rw [hp]
        exact ⟨child', setChild_self, ⟨identity, hcommand.trans heq, hsent⟩, fun h => by cases h⟩
    · exact (h.parents r').congr (fun _ _ => rfl) (setChild_of_ne hr) fun h => h
  case unspawned =>
    intro r' hnone
    by_cases hr : r' = r
    · subst hr
      cases setChild_self.symm.trans hnone
    · rw [Function.update_of_ne hr]
      exact h.unspawned r' ((setChild_of_ne hr).symm.trans hnone)
  case commands =>
    intro r' child'' hsome
    by_cases hr : r' = r
    · subst hr
      obtain rfl := Option.some.inj (setChild_self.symm.trans hsome)
      exact (h.commands r' child hchild).congr hcommand fun h => h
    · exact (h.commands r' child'' ((setChild_of_ne hr).symm.trans hsome)).congr rfl fun h => h
  case children =>
    intro r' child'' hsome
    by_cases hr : r' = r
    · subst hr
      obtain rfl := Option.some.inj (setChild_self.symm.trans hsome)
      rw [Function.update_self]
      exact hfits
    · rw [Function.update_of_ne hr]
      exact h.children r' child'' ((setChild_of_ne hr).symm.trans hsome)
  case fresh => exact h.fresh
  case distinct => exact h.distinct
  case files => exact h.files
  case left => exact h.left
  case calm => exact h.calm

theorem setChild_same (hchild : s.children r = some child) : s.setChild r child = s := by
  unfold State.setChild
  rw [← hchild, Function.update_eq_self]

theorem Inv.learns (h : ex.Inv calm nobody start s progress stage) (hchild : s.children r = some child)
    (halive : child.status = none)
    (hstage : progress r = .abandoned ∨ ex.StageFits r child w') :
    ex.Inv calm nobody start s progress (Function.update stage r w') := by
  have hinv : ex.Inv calm nobody start (s.setChild r child) progress (Function.update stage r w') := by
    refine h.worker hchild halive rfl ?_
    rcases hstage with habandoned | hstage
    · exact Or.inl habandoned
    · exact (h.children r child hchild).imp_right fun hfits => ⟨hfits.1, hstage⟩
  rwa [setChild_same hchild] at hinv

/-! Each of these is about the call of a worker that is alive. -/

theorem argsOs_moves {Q : List OsString → Stage → Prop} (h : ex.Inv calm nobody start s progress stage)
    (hchild : s.children r = some child) (halive : child.status = none)
    (hspec : ex.workerSpec r calm .argsOs (stage r) Q) :
    ∃ w', Q (child.command.program :: child.command.args) w' ∧
      ex.Inv calm nobody start s progress (Function.update stage r w') := by
  have hknown := h.children r child hchild
  generalize stage r = w at hspec hknown
  cases w with
  | unread =>
    obtain ⟨path, identity, hcommand, -, hutf8⟩ := h.commands r child hchild
    refine ⟨.informed path, ?_, h.learns hchild halive ?_⟩
    · rw [hcommand]
      exact hspec path identity hutf8
    · exact hknown.imp_right fun hfits => ⟨hfits.2.1, hfits.2.2, identity, hcommand⟩
  | _ => exact hspec.elim

theorem load_moves {Q : Except String (List UInt8) → Stage → Prop}
    (h : ex.Inv calm nobody start s progress stage) (hchild : s.children r = some child)
    (halive : child.status = none) (hcalm : calm → x.fault = none)
    (hspec : ex.workerSpec r calm (.load path) (stage r) Q) :
    ∃ w', Q (doWorker ex.uid s r child x (.load path)).1 w' ∧
      ex.Inv calm nobody start (doWorker ex.uid s r child x (.load path)).2 progress
        (Function.update stage r w') := by
  have hknown := h.children r child hchild
  generalize stage r = w at hspec hknown
  cases w with
  | informed path' =>
    obtain ⟨rfl, hfault', hok, hstray⟩ := hspec
    have hbefore : progress r = .abandoned ∨ ex.StageFits r child (.before []) :=
      hknown.imp_right fun hfits => ⟨hfits.2.1, hfits.2.2.1⟩
    cases hfault : x.fault with
    | some f =>
      simp only [doWorker, hfault]
      refine ⟨.before [], hfault' f fun hc => ?_, h.learns hchild halive hbefore⟩
      cases (hcalm hc).symm.trans hfault
    | none =>
      rcases h.alive hchild halive with habandoned |
        ⟨path', hp, identity, hcommand, content, hwritten, hfile⟩
      · have hnot : ¬ calm := fun hc => h.calm hc r habandoned
        cases hfile : s.files path with
        | none =>
          simp only [doWorker, hfault, hfile]
          exact ⟨.before [], hfault' _ hnot, h.learns hchild halive hbefore⟩
        | some file =>
          simp only [doWorker, hfault, hfile]
          split
          next => exact ⟨.astray, hstray _ hnot, h.learns hchild halive (Or.inl habandoned)⟩
          next => exact ⟨.before [], hfault' _ hnot, h.learns hchild halive hbefore⟩
      · obtain rfl := informed_path hknown hp hcommand
        have howner : uidOf ex.uid child.command.identity = uidOf ex.uid identity :=
          congrArg (fun command => uidOf ex.uid command.identity) hcommand
        simp only [doWorker, hfault, hfile, if_pos (Or.inr howner)]
        exact ⟨.before [], hok content hwritten, h.learns hchild halive hbefore⟩
  | _ => exact hspec.elim

theorem assign_moves {var : Var} {Q : Unit → Stage → Prop}
    (h : ex.Inv calm nobody start s progress stage) (hchild : s.children r = some child)
    (halive : child.status = none) (hspec : ex.workerSpec r calm (.assign var) (stage r) Q) :
    ∃ w', Q () w' ∧
      ex.Inv calm nobody start (s.setChild r { child with env := assign child.env var }) progress
        (Function.update stage r w') := by
  have hknown := h.children r child hchild
  generalize stage r = w at hspec hknown
  cases w with
  | before vars =>
    refine ⟨.before (vars ++ [var]), hspec, h.worker hchild halive rfl ?_⟩
    refine hknown.imp_right fun ⟨hfits, hperformed, henv⟩ =>
      ⟨⟨hfits.once, hfits.success, hfits.calm⟩, hperformed, ?_⟩
    rw [assignAll_append, ← henv]
    rfl
  | astray =>
    exact ⟨.astray, hspec, h.worker hchild halive rfl (hknown.imp_right fun hfits => hfits.2.elim)⟩
  | _ => exact hspec.elim

theorem perform_moves {operation : WorkerOperation} {settings : Settings V}
    {Q : Except String Unit → Stage → Prop} (h : ex.Inv calm nobody start s progress stage)
    (hchild : s.children r = some child) (halive : child.status = none)
    (hspec : ex.workerSpec r calm (.perform operation settings) (stage r) Q) :
    ∃ w', Q (doWorker ex.uid s r child x (.perform operation settings)).1 w' ∧
      ex.Inv calm nobody start (doWorker ex.uid s r child x (.perform operation settings)).2 progress
        (Function.update stage r w') := by
  have hknown := h.children r child hchild
  generalize stage r = w at hspec hknown
  cases w with
  | before vars =>
    obtain ⟨rfl, hsettings, rfl, herror, hok⟩ := hspec
    have hdone := fun succeeded => hknown.imp_right fun ⟨_, hperformed, henv⟩ =>
      performed_fits calm halive hperformed henv hsettings succeeded
    cases hfault : x.fault with
    | some f =>
      simp only [doWorker, hfault]
      exact ⟨.after false, herror f, h.worker hchild halive rfl (hdone false)⟩
    | none =>
      simp only [doWorker, hfault]
      exact ⟨.after true, hok, h.worker hchild halive rfl (hdone true)⟩
  | astray =>
    exact ⟨.astray, hspec _, h.worker hchild halive rfl (hknown.imp_right fun hfits => hfits.2.elim)⟩
  | _ => exact hspec.elim

theorem exit_moves {status : ExitStatus} {Q : Unit → Stage → Prop}
    (h : ex.Inv calm nobody start s progress stage) (hchild : s.children r = some child)
    (halive : child.status = none) (hspec : ex.workerSpec r calm (.exit status) (stage r) Q) :
    ∃ w', Q () w' ∧
      ex.Inv calm nobody start (s.setChild r { child with status := some status }) progress
        (Function.update stage r w') := by
  have hknown := h.children r child hchild
  generalize stage r = w at hspec hknown
  have hearly : ¬ calm → status ≠ .code 0 → ex.Inv calm nobody start
      (s.setChild r { child with status := some status }) progress
      (Function.update stage r .ended) := fun hnot hstatus =>
    h.worker hchild halive rfl
      (hknown.imp_right fun hfits => ⟨hfits.1.exit_early hnot hstatus, trivial⟩)
  cases w with
  | unread => exact ⟨.ended, hspec.2.2, hearly hspec.1 hspec.2.1⟩
  | informed path => exact ⟨.ended, hspec.2.2, hearly hspec.1 hspec.2.1⟩
  | before vars => exact ⟨.ended, hspec.2.2, hearly hspec.1 hspec.2.1⟩
  | after succeeded =>
    refine ⟨.ended, hspec.2, h.worker hchild halive rfl ?_⟩
    refine hknown.imp_right fun ⟨hfits, p, hperformed, _, hsucceeded⟩ =>
      ⟨hfits.exit hperformed ?_, trivial⟩
    rw [hsucceeded]
    exact hspec.1
  | astray =>
    exact ⟨.astray, hspec, h.worker hchild halive rfl (hknown.imp_right fun hfits => hfits.2.elim)⟩
  | ended => exact hspec.elim

/-- What a call of a worker changes, by the call. -/
theorem worker_moves {i : WorkerInstr V} {Q : i.Answer → Stage → Prop}
    (h : ex.Inv calm nobody start s progress stage) (hchild : s.children r = some child)
    (halive : child.status = none) (hcalm : calm → Calm (Party.worker r) (.worker i) x)
    (hspec : ex.workerSpec r calm i (stage r) Q) :
    ∃ w', Q (doWorker ex.uid s r child x i).1 w' ∧
      ex.Inv calm nobody start (doWorker ex.uid s r child x i).2 progress (Function.update stage r w') := by
  cases i with
  | argsOs => exact argsOs_moves h hchild halive hspec
  | load path => exact load_moves h hchild halive (fun hc => (hcalm hc).2) hspec
  | assign var => exact assign_moves h hchild halive hspec
  | perform operation settings => exact perform_moves h hchild halive hspec
  | exit status => exact exit_moves h hchild halive hspec

end Workers

/-! ### Runs -/

section Runs

variable [DecidableEq R]

theorem knowledge_parent (p : Progress) : Function.update (knowledge progress stage) (.parent r)
    (.parent r, .parent p) = knowledge (Function.update progress r p) stage := by
  funext t
  cases t with
  | parent r' =>
    by_cases hr : r' = r
    · subst hr
      simp [knowledge]
    · simp [knowledge, hr]
  | worker r' => simp [knowledge]
  | host r' => simp [knowledge]

theorem knowledge_worker (w : Stage) : Function.update (knowledge progress stage) (.worker r)
    (.worker r, .worker w) = knowledge progress (Function.update stage r w) := by
  funext t
  cases t with
  | worker r' =>
    by_cases hr : r' = r
    · subst hr
      simp [knowledge]
    · simp [knowledge, hr]
  | parent r' => simp [knowledge]
  | host r' => simp [knowledge]

/-- The invariant, of what the threads know. -/
def Fits (ex : Exchange R V) (calm : Prop) (nobody : R → Nat × Nat → Prop) (start : OsString → Option File) (s : State R V)
    (know : Party R → Party R × Know) : Prop :=
  ∃ progress stage, know = knowledge progress stage ∧ ex.Inv calm nobody start s progress stage

theorem sound : Sound ex.sem (ex.spec calm nobody) (ex.Fits calm nobody start)
    fun _ t i x => (calm → Calm t i x) ∧ Named nobody t x := by
  rintro t i x s know a s' ⟨progress, stage, rfl, hinv⟩ ⟨hcalm, hnamed⟩ hsem Q hspec
  cases t with
  | parent r =>
    cases i with
    | parent i =>
      obtain ⟨p', hq, hmove⟩ := parent_moves (hinv.parents r)
        (fun path hpath => (hinv.fresh r path hpath).2) hcalm hnamed hsem hspec
      refine ⟨_, hq, _, stage, knowledge_parent p', hinv.parent hmove⟩
    | worker i => cases hsem
    | interrupt => cases hsem
  | worker r =>
    cases i with
    | worker i =>
      cases hchild : s.children r with
      | none => simp [sem, hchild] at hsem
      | some child =>
        simp only [sem, hchild, Option.ite_none_right_eq_some, Option.isNone_iff_eq_none] at hsem
        obtain ⟨halive, hsem⟩ := hsem
        obtain ⟨w', hq, hinv'⟩ := worker_moves hinv hchild halive hcalm hspec
        rw [Option.some.inj hsem] at hq hinv'
        exact ⟨_, hq, progress, _, knowledge_worker w', hinv'⟩
    | parent i => cases hsem
    | interrupt => cases hsem
  | host r =>
    cases i with
    | interrupt =>
      cases hchild : s.children r with
      | none => simp [sem, hchild] at hsem
      | some child =>
        simp only [sem, hchild, Option.ite_none_right_eq_some, Option.isNone_iff_eq_none] at hsem
        obtain ⟨halive, hsem⟩ := hsem
        cases hsem
        refine ⟨_, hspec, progress, stage, ?_, ?_⟩
        · exact Function.update_eq_self _ _
        · have hnot : ¬ calm := fun hc => (hcalm hc).1 r rfl
          have hfits : progress r = .abandoned ∨
              ex.ChildFits calm r { child with status := some (.signal x.signal) } ∧
                ex.StageFits r { child with status := some (.signal x.signal) } (stage r) :=
            (hinv.children r child hchild).imp_right fun hfits => ⟨hfits.1.kill hnot, hfits.2.kill⟩
          have hinv' : ex.Inv calm nobody start (s.setChild r { child with status := some (.signal x.signal) })
              progress (Function.update stage r (stage r)) := hinv.worker hchild halive rfl hfits
          rwa [Function.update_eq_self] at hinv'
    | parent i => cases hsem
    | worker i => cases hsem

/-! ### The requests -/

omit [DecidableEq R] in
theorem inv_init (files : OsString → Option File) :
    ex.Inv calm nobody files ⟨files, fun _ => none, fun _ => false, []⟩ (fun _ => .idle) fun _ => .unread where
  parents _ := rfl
  unspawned _ _ := rfl
  commands _ _ h := by cases h
  children _ _ h := by cases h
  fresh _ _ h := by cases h
  distinct _ _ _ h := by cases h
  files _ := Or.inl rfl
  left _ h := by cases h
  calm _ _ h := by cases h

/-- What is asked for can be done: its payload can be made, and its variables can be set. -/
def Good (ex : Exchange R V) (r : R) : Prop :=
  (ex.request r).settings.Utf8Paths ∧ ∀ var ∈ ex.vars r, validVar var = true

omit [DecidableEq R] in
theorem wp_process (hfaithful : ex.Faithful) (hgood : calm → ∀ r, ex.Good r) (t : Party R) :
    wp (ex.spec calm nobody) (ex.process t)
      (knowledge (fun _ => .idle) (fun _ => .unread) t) (Ended calm t) := by
  cases t with
  | parent r =>
    have hpayload : calm → ∃ payload,
        WorkerPayload.new (ex.request r).settings (ex.request r).envVars = .ok payload := by
      intro hc
      cases hnew : WorkerPayload.new (ex.request r).settings (ex.request r).envVars with
      | error e => exact absurd (hgood hc r).1 ((new_error_iff _ _).mp ⟨e, hnew⟩)
      | ok payload => exact ⟨payload, rfl⟩
    unfold process
    rw [wp_bind]
    refine wp_mono (ex.spec_monotone calm nobody) ?_ (knows_run hpayload)
    rintro result k ⟨p, rfl, hsettled⟩
    exact hsettled
  | worker r =>
    unfold process
    rw [wp_bind]
    refine wp_mono (ex.spec_monotone calm nobody) ?_ (knows_workerMain hfaithful fun hc => (hgood hc r).2)
    rintro _ k ⟨w, rfl, -⟩
    trivial
  | host r => trivial

theorem known_run (calm : Prop) (nobody : R → Nat × Nat → Prop) (hfaithful : ex.Faithful) (hgood : calm → ∀ r, ex.Good r)
    {files : OsString → Option File} {es : List (Party R × Choice)} {c : System R V}
    (halong : Along ex.next (OnInstr fun _ t i x => (calm → Calm t i x) ∧ Named nobody t x) es
      (ex.init files))
    (hrun : Transition.run ex.next es (ex.init files) = some c) :
    ∃ progress stage, ex.Inv calm nobody files c.state progress stage ∧
      ∀ t, wp (ex.spec calm nobody) (c.threads t) (knowledge progress stage t) (Ended calm t) := by
  obtain ⟨know, ⟨progress, stage, rfl, hinv⟩, hwp⟩ := run_sound sound
    ⟨_, ⟨_, _, rfl, inv_init files⟩, wp_process hfaithful hgood⟩ halong hrun
  exact ⟨progress, stage, hinv, hwp⟩

omit [DecidableEq R] in
theorem settled_of_wp {c : System R V} (hwp : wp (ex.spec calm nobody) (c.threads (.parent r))
    (knowledge progress stage (.parent r)) (Ended calm (.parent r)))
    (hp : progress r = .abandoned ∨ ∃ status, progress r = .done status) :
    ∃ result, c.threads (.parent r) = .ret (.run result) ∧ Settled calm result (progress r) := by
  cases hthread : c.threads (.parent r) with
  | ret finish =>
    rw [hthread] at hwp
    cases finish with
    | run result => exact ⟨result, rfl, hwp⟩
    | worker => exact hwp.elim
    | host => exact hwp.elim
  | exec i k =>
    rw [hthread] at hwp
    refine absurd (show ex.spec calm nobody i (.parent r, .parent (progress r)) _ from hwp) ?_
    generalize progress r = p at hp
    cases i with
    | parent i =>
      rcases hp with rfl | ⟨status, rfl⟩
      · cases i with
        | child command i => cases i <;> exact id
        | _ => exact id
      · cases i with
        | child command i => cases i <;> exact id
        | _ => exact id
    | worker i => exact id
    | interrupt => exact id

end Runs

/-! ### What a request comes to -/

section Results

variable [DecidableEq R] {files : OsString → Option File} {es : List (Party R × Choice)}
  {c : System R V}

/-- **A worker performs only what it is asked for.** In every state that is reached, what the worker of a
request has performed is nothing, or the one operation of the request, with its settings, in the
environment that it asks for. This holds unless the parent has reported that it could not kill the
worker. The worker was started with the arguments of the request, as the user that the host has given for
`nobody`, unless the privilege drop was skipped. Until `run` returns, the path among the arguments holds
the payload of the request, and that user owns it. -/
theorem performs_only_request (hfaithful : ex.Faithful)
    (hrun : Transition.run ex.next es (ex.init files) = some c)
    (hchild : c.state.children r = some child)
    (hkilled : ∀ err, c.threads (.parent r) = .ret (.run (.error err)) → err.mayLive = false) :
    (∃ path identity, child.command = commandFor (ex.request r) path identity ∧
      (identity = none → c.state.skipped r = true) ∧
      (∀ ids, identity = some ids → ∃ x, (.parent r, x) ∈ es ∧ x.users "nobody" = some ids) ∧
      ((∀ result, c.threads (.parent r) ≠ .ret result) → ex.Sent c.state r path identity)) ∧
    (child.performed = [] ∨ ∃ p, child.performed = [p] ∧ ex.Asked r child.inherited p) := by
  obtain ⟨progress, stage, hinv, hwp⟩ := known_run False
    (fun r ids => ∃ x, (.parent r, x) ∈ es ∧ x.users "nobody" = some ids) hfaithful (fun h => h.elim)
    (along_of_mem (fun e he _ _ _ _ =>
      ⟨False.elim, fun r ids ht hids => ⟨e.2, ht ▸ he, hids⟩⟩) _) hrun
  constructor
  · obtain ⟨path, identity, hcommand, ⟨hskipped, hids⟩, -⟩ := hinv.commands r child hchild
    refine ⟨path, identity, hcommand, hskipped, hids, fun hrunning => ?_⟩
    obtain ⟨path', hlaunched⟩ := hinv.launched hchild fun hp => by
      obtain ⟨result, hthread, -⟩ := settled_of_wp (hwp (.parent r)) hp
      exact hrunning _ hthread
    exact hlaunched.sent hcommand
  · rcases hinv.children r child hchild with habandoned | ⟨hfits, -⟩
    · obtain ⟨result, hthread, hsettled⟩ := settled_of_wp (hwp (.parent r)) (Or.inl habandoned)
      rw [habandoned] at hsettled
      cases result with
      | ok _ => cases hsettled
      | error err => cases (hkilled err hthread).symm.trans (hsettled.2.1 rfl)
    · exact hfits.once

/-- **Success means that it was done.** When `run` returns `Ok`, the worker has exited with code 0, and it
has performed the operation of the request once, with success, and nothing else. -/
theorem success_means_performed (hfaithful : ex.Faithful)
    (hrun : Transition.run ex.next es (ex.init files) = some c)
    (hret : c.threads (.parent r) = .ret (.run (.ok ()))) :
    ∃ child p, c.state.children r = some child ∧ child.status = some (.code 0) ∧
      child.performed = [p] ∧ ex.Asked r child.inherited p ∧ p.succeeded = true := by
  obtain ⟨progress, stage, hinv, hwp⟩ := known_run False (fun _ _ => True) hfaithful
    (fun h => h.elim) (along_of_mem (fun _ _ _ _ _ _ => ⟨False.elim, fun _ _ _ _ => trivial⟩) _) hrun
  have hsettled := hwp (.parent r)
  rw [hret] at hsettled
  have hp : progress r = .done (some (.code 0)) := hsettled
  have hparent := hinv.parents r
  rw [hp] at hparent
  obtain ⟨child, hchild, hstatus⟩ := hparent
  obtain ⟨hfits, -⟩ := (hinv.children r child hchild).resolve_left fun h => by cases hp.symm.trans h
  obtain ⟨p, hperformed, hsucceeded⟩ := hfits.success hstatus
  refine ⟨child, p, hchild, hstatus, hperformed, ?_, hsucceeded⟩
  rcases hfits.once with hnone | ⟨p', hperformed', hasked⟩
  · cases hperformed.symm.trans hnone
  · obtain rfl := (List.cons.inj (hperformed.symm.trans hperformed')).1
    exact hasked

/-- **No payload is left behind.** A file that was there before is as it was. One that was not is the only
payload of a request whose `run` has not returned yet, or its removal has failed. -/
theorem payload_removed (hfaithful : ex.Faithful)
    (hrun : Transition.run ex.next es (ex.init files) = some c) :
    ∃ payload : R → Option OsString, ∀ path,
      c.state.files path = files path ∨ files path = none ∧
        ((∃ r, payload r = some path ∧ ∀ result, c.threads (.parent r) ≠ .ret result) ∨
          path ∈ c.state.left) := by
  obtain ⟨progress, stage, hinv, hwp⟩ := known_run False (fun _ _ => True) hfaithful
    (fun h => h.elim) (along_of_mem (fun _ _ _ _ _ _ => ⟨False.elim, fun _ _ _ _ => trivial⟩) _) hrun
  refine ⟨fun r => (progress r).path, fun path => ?_⟩
  rcases hinv.files path with hsame | ⟨r, hpath⟩ | hleft
  · exact Or.inl hsame
  · refine Or.inr ⟨(hinv.fresh r path hpath).1, Or.inl ⟨r, hpath, fun finish hthread => ?_⟩⟩
    have hsettled := hwp (.parent r)
    rw [hthread] at hsettled
    cases finish with
    | worker => exact hsettled.elim
    | host => exact hsettled.elim
    | run result =>
      cases result with
      | ok _ =>
        rw [show progress r = .done (some (.code 0)) from hsettled] at hpath
        cases hpath
      | error err => cases hsettled.1.symm.trans hpath
  · exact Or.inr ⟨(hinv.left path hleft).1, Or.inr hleft⟩

/-- **The parent reports what came of it.** Where no call fails, the time does not run out and no worker
is interrupted, a request that can be served is performed once by the time its `run` returns, and `run`
returns `Ok` exactly when the operation has succeeded. -/
theorem result_of_operation (hfaithful : ex.Faithful) (hgood : ∀ r, ex.Good r)
    (halong : Along ex.next (OnInstr fun _ t i x => Calm t i x) es (ex.init files))
    (hrun : Transition.run ex.next es (ex.init files) = some c) {result : Except RunFailure Unit}
    (hret : c.threads (.parent r) = .ret (.run result)) :
    ∃ child p, c.state.children r = some child ∧ child.performed = [p] ∧
      ex.Asked r child.inherited p ∧ (result = .ok () ↔ p.succeeded = true) := by
  obtain ⟨progress, stage, hinv, hwp⟩ := known_run True (fun _ _ => True) hfaithful
    (fun _ => hgood)
    (halong.mono fun _ _ h i k hthread => ⟨fun _ => h i k hthread, fun _ _ _ _ => trivial⟩) hrun
  have hsettled := hwp (.parent r)
  rw [hret] at hsettled
  have hended : ∃ status, progress r = .done (some status) ∧ (result = .ok () ↔ status = .code 0) := by
    cases result with
    | ok _ => exact ⟨_, hsettled, iff_of_true rfl rfl⟩
    | error err =>
      obtain ⟨status, hp, hstatus⟩ := hsettled.2.2 trivial
      exact ⟨status, hp, iff_of_false (fun h => by cases h) hstatus⟩
  obtain ⟨status, hp, hresult⟩ := hended
  have hparent := hinv.parents r
  rw [hp] at hparent
  obtain ⟨child, hchild, hstatus⟩ := hparent
  obtain ⟨hfits, -⟩ := (hinv.children r child hchild).resolve_left fun h => by cases hp.symm.trans h
  obtain ⟨p, hperformed, hcode⟩ := hfits.calm trivial status hstatus
  refine ⟨child, p, hchild, hperformed, ?_, hresult.trans ?_⟩
  · rcases hfits.once with hnone | ⟨p', hperformed', hasked⟩
    · cases hperformed.symm.trans hnone
    · obtain rfl := (List.cons.inj (hperformed.symm.trans hperformed')).1
      exact hasked
  · rw [hcode]
    cases p.succeeded <;> decide

end Results

end Exchange

/-! ### Two requests -/

namespace Sample

def settings : Settings Unit where
  releasesUrl := ""
  version := ()
  installationDir := [0x2F, 0x69]
  passwordFile := [0x2F, 0x70]
  dataDir := [0x2F, 0x64]
  host := "localhost"
  port := 5432
  username := "postgres"
  password := "secret"
  temporary := false
  timeout := some (.fromSecs 45)
  configuration := ∅
  trustInstallationDir := false
  socketDir := none

def request : WorkerRequest Unit where
  worker := osString "pg_worker"
  settings := settings
  envVars := [("PGUSER", none)]
  operation := .cleanup
  timeout := 60000

def payload : Json :=
  ((WorkerPayload.new request.settings request.envVars).toOption.map
    (·.serialize sampleCrates)).getD .null

/-- What `serde_json` writes. -/
def text : String :=
  "\x7b\"settings\":\x7b\"releases_url\":\"\",\"version\":\"=16.4.0\",\"installation_dir\":\"/i\"," ++
  "\"password_file\":\"/p\",\"data_dir\":\"/d\",\"host\":\"localhost\",\"port\":5432," ++
  "\"username\":\"postgres\",\"password\":\"secret\",\"temporary\":false,\"timeout_secs\":45," ++
  "\"configuration\":\x7b\x7d,\"trust_installation_dir\":false,\"socket_dir\":null\x7d," ++
  "\"environment\":[[\"PGUSER\",null]]\x7d"

/-- The text in UTF-8. -/
def bytes : List UInt8 := intoPathBuf text

/-- `serde_json` on one value. -/
def textsFor (bytes : List UInt8) (json : Json) : Texts Unit where
  toAdapters := sampleCrates
  toWriter _ := bytes
  fromSlice content := if content = bytes then some json else none

theorem fromSlice_textsFor (bytes : List UInt8) {json json' : Json} (h : json' = json) :
    (textsFor bytes json).fromSlice ((textsFor bytes json).toWriter json') = some json' :=
  h ▸ if_pos rfl

/-- Two requests for the same cluster. -/
def exchange : Exchange Bool Unit where
  texts := textsFor bytes payload
  uid := 0
  request := fun first => if first then request else { request with operation := .stop, timeout := 1 }

def noFiles : OsString → Option File := fun _ => none

def smoothly : Choice where
  fault := none
  path := [0x2F, 0x74]
  written := 0
  skip := false
  users := fun name => some (if name = "nobody" then (65534, 65533) else (0, 0))
  env := fun key => if key = osString "PGUSER" then some (osString "root") else none
  timedOut := false
  exited := false
  signal := 9
  stdout := []
  stderr := []

/-- The second request keeps its privileges. -/
def skipping : Choice := { smoothly with path := [0x2F, 0x75], skip := true }

def failing : Choice := { smoothly with fault := some "no server" }

/-- The choices of a run in which only the second operation fails. -/
def choice : Party Bool → Choice
  | .parent false => skipping
  | _ => smoothly

def turns (order : List (Party Bool)) : List (Party Bool × Choice) := order.map fun t => (t, choice t)

/-- The parents take turns up to the start of their workers, and so do the workers up to the second
operation. -/
def toWork : List (Party Bool) :=
  (List.replicate 5 [.parent true, .parent false]).flatten ++ List.replicate 2 (.parent true) ++
    (List.replicate 3 [.worker false, .worker true]).flatten ++ [.worker true]

def toEnd : List (Party Bool) :=
  [.worker false, .worker true] ++ (List.replicate 3 [.parent false, .parent true]).flatten

def served : List (Party Bool × Choice) :=
  turns toWork ++ ([(.worker false, failing)] ++ turns toEnd)

def running (c : System Bool Unit) (first : Bool) : Bool :=
  match c.threads (.parent first) with
  | .ret _ => false
  | .exec _ _ => true

def succeeded (c : System Bool Unit) (first : Bool) : Bool :=
  match c.threads (.parent first) with
  | .ret (.run (.ok ())) => true
  | _ => false

def failed (c : System Bool Unit) (first : Bool) : Bool :=
  match c.threads (.parent first) with
  | .ret (.run (.error _)) => true
  | _ => false

def performing (c : System Bool Unit) (first : Bool) : Bool :=
  match c.threads (.worker first) with
  | .exec (.worker (.perform _ _)) _ => true
  | _ => false

theorem serialize_payload {p : WorkerPayload Unit}
    (h : WorkerPayload.new request.settings request.envVars = .ok p) :
    p.serialize sampleCrates = payload := by
  unfold payload
  rw [h]
  rfl

theorem request_settings (first : Bool) : (exchange.request first).settings = request.settings := by
  cases first <;> rfl

theorem request_envVars (first : Bool) : (exchange.request first).envVars = request.envVars := by
  cases first <;> rfl

theorem faithful_exchange : exchange.Faithful where
  version _ := rfl
  json first p h := by
    rw [request_settings, request_envVars] at h
    exact fromSlice_textsFor bytes (serialize_payload h)

theorem good_exchange (first : Bool) : exchange.Good first := by
  refine ⟨fun path hpath => ?_, ?_⟩
  · have hpaths : settings.paths = [[0x2F, 0x69], [0x2F, 0x70], [0x2F, 0x64]] := rfl
    rw [request_settings, show request.settings.paths = _ from hpaths] at hpath
    have hvalid : ∀ path ∈ [[0x2F, 0x69], [0x2F, 0x70], [0x2F, 0x64]],
        ByteArray.validateUTF8 ⟨List.toArray path⟩ = true := by
      decide +kernel
    exact ByteArray.validateUTF8_eq_true_iff.mp (hvalid path hpath)
  · have hvalid : ∀ first, ∀ var ∈ exchange.vars first, validVar var = true := by decide +kernel
    exact hvalid first

theorem calm_choice (t : Party Bool) (ht : ∀ first, t ≠ .host first) (i : Instr Unit) :
    Exchange.Calm t i (choice t) := by
  have hcases : choice t = smoothly ∨ choice t = skipping := by
    cases t with
    | parent first =>
      cases first
      · exact Or.inr rfl
      · exact Or.inl rfl
    | _ => exact Or.inl rfl
  have hutf8 : ∀ path ∈ [smoothly.path, skipping.path], (fromPathBuf path).isSome = true := by
    decide +kernel
  have hpath : (fromPathBuf (choice t).path).isSome = true :=
    hutf8 _ (by rcases hcases with h | h <;> rw [h] <;> simp)
  have hfault : (choice t).fault = none := by rcases hcases with h | h <;> rw [h] <;> rfl
  have husers : (choice t).users = smoothly.users := by rcases hcases with h | h <;> exact h ▸ rfl
  have htime : (choice t).timedOut = false := by rcases hcases with h | h <;> rw [h] <;> rfl
  refine ⟨ht, ?_⟩
  cases i with
  | parent i =>
    cases i with
    | createTemp => exact ⟨hfault, hpath⟩
    | userFromName name => exact ⟨hfault, husers ▸ rfl⟩
    | child command i =>
      cases i with
      | waitTimeout timeout => exact ⟨hfault, htime⟩
      | _ => exact hfault
    | _ => exact hfault
  | worker i =>
    cases i with
    | load path => exact hfault
    | _ => trivial
  | interrupt => trivial

theorem calm_turns {order : List (Party Bool)} (h : ∀ t ∈ order, ∀ first, t ≠ .host first)
    (c : System Bool Unit) :
    Along exchange.next (OnInstr fun _ t i x => Exchange.Calm t i x) (turns order) c := by
  refine along_of_mem (fun e he _ i _ _ => ?_) c
  obtain ⟨t, ht, rfl⟩ := List.mem_map.mp he
  exact calm_choice t (h t ht) i

theorem performing_toWork {c : System Bool Unit}
    (h : Transition.run exchange.next (turns toWork) (exchange.init noFiles) = some c) :
    performing c false = true := by
  have hall : (Transition.run exchange.next (turns toWork) (exchange.init noFiles)).all
      (performing · false) = true := by
    decide +kernel
  rw [h] at hall
  exact hall

theorem calm_served : Along exchange.next (OnInstr fun _ t i x => Exchange.Calm t i x) served
    (exchange.init noFiles) := by
  refine along_append (calm_turns (by decide) _) fun c hrun =>
    along_append ⟨fun i k hthread => ?_, fun _ _ => trivial⟩ fun c' _ => calm_turns (by decide) c'
  have hperforming := performing_toWork hrun
  unfold performing at hperforming
  rw [show c.threads (.worker false) = .exec i k from hthread] at hperforming
  split at hperforming
  next h =>
    cases h
    exact ⟨(fun _ h => by cases h), trivial⟩
  next => cases hperforming

theorem working_run : ∃ c child,
    Transition.run exchange.next (turns toWork) (exchange.init noFiles) = some c ∧
      running c true = true ∧ running c false = true ∧ c.state.children true = some child := by
  have hany : (Transition.run exchange.next (turns toWork) (exchange.init noFiles)).any (fun c =>
      (running c true && running c false) && (c.state.children true).isSome) = true := by
    decide +kernel
  obtain ⟨c, hrun, hc⟩ := (Option.any_eq_true _ _).mp hany
  simp only [Bool.and_eq_true] at hc
  obtain ⟨child, hchild⟩ := Option.isSome_iff_exists.mp hc.2
  exact ⟨c, child, hrun, hc.1.1, hc.1.2, hchild⟩

theorem running_iff {c : System Bool Unit} {first : Bool} :
    running c first = true ↔ ∀ result, c.threads (.parent first) ≠ .ret result := by
  unfold running
  split
  next result h => exact iff_of_false (fun h => by cases h) fun h' => h' result h
  next i k h => exact iff_of_true rfl fun result h' => by cases h.symm.trans h'

theorem served_run : ∃ c err, Transition.run exchange.next served (exchange.init noFiles) = some c ∧
    c.threads (.parent true) = .ret (.run (.ok ())) ∧
    c.threads (.parent false) = .ret (.run (.error err)) := by
  have hany : (Transition.run exchange.next served (exchange.init noFiles)).any (fun c =>
      succeeded c true && failed c false) = true := by
    decide +kernel
  obtain ⟨c, hrun, hc⟩ := (Option.any_eq_true _ _).mp hany
  rw [Bool.and_eq_true] at hc
  obtain ⟨hsucceeded, hfailed⟩ := hc
  unfold succeeded at hsucceeded
  unfold failed at hfailed
  split at hsucceeded
  next htrue =>
    split at hfailed
    next err hfalse => exact ⟨c, err, hrun, htrue, hfalse⟩
    next => cases hfailed
  next => cases hsucceeded

end Sample

open Sample

theorem performs_only_request_sample : ∃ c child,
    Transition.run exchange.next (turns toWork) (exchange.init noFiles) = some c ∧
      c.state.children true = some child ∧
      (∃ path identity, child.command = commandFor (exchange.request true) path identity ∧
        (identity = none → c.state.skipped true = true) ∧
        (∀ ids, identity = some ids →
          ∃ x, (.parent true, x) ∈ turns toWork ∧ x.users "nobody" = some ids) ∧
        ((∀ result, c.threads (.parent true) ≠ .ret result) →
          exchange.Sent c.state true path identity)) ∧
      (child.performed = [] ∨
        ∃ p, child.performed = [p] ∧ exchange.Asked true child.inherited p) := by
  obtain ⟨c, child, hrun, hrunning, -, hchild⟩ := working_run
  exact ⟨c, child, hrun, hchild, Exchange.performs_only_request faithful_exchange hrun hchild
    fun err herr => absurd herr (running_iff.mp hrunning _)⟩

theorem success_means_performed_sample : ∃ c child p,
    Transition.run exchange.next served (exchange.init noFiles) = some c ∧
      c.threads (.parent true) = .ret (.run (.ok ())) ∧
      c.state.children true = some child ∧ child.status = some (.code 0) ∧
      child.performed = [p] ∧ exchange.Asked true child.inherited p ∧ p.succeeded = true := by
  obtain ⟨c, -, hrun, hret, -⟩ := served_run
  obtain ⟨child, p, h⟩ := Exchange.success_means_performed faithful_exchange hrun hret
  exact ⟨c, child, p, hrun, hret, h⟩

theorem payload_removed_sample : ∃ c,
    Transition.run exchange.next (turns toWork) (exchange.init noFiles) = some c ∧
      ∃ payload : Bool → Option OsString, ∀ path,
        c.state.files path = noFiles path ∨ noFiles path = none ∧
          ((∃ r, payload r = some path ∧ ∀ result, c.threads (.parent r) ≠ .ret result) ∨
            path ∈ c.state.left) := by
  obtain ⟨c, -, hrun, -⟩ := working_run
  exact ⟨c, hrun, Exchange.payload_removed faithful_exchange hrun⟩

theorem result_of_operation_sample : ∃ c err child p,
    Transition.run exchange.next served (exchange.init noFiles) = some c ∧
      c.threads (.parent false) = .ret (.run (.error err)) ∧
      c.state.children false = some child ∧ child.performed = [p] ∧
      exchange.Asked false child.inherited p ∧
      ((.error err : Except RunFailure Unit) = .ok () ↔ p.succeeded = true) := by
  obtain ⟨c, err, hrun, -, hret⟩ := served_run
  obtain ⟨child, p, h⟩ :=
    Exchange.result_of_operation faithful_exchange good_exchange calm_served hrun hret
  exact ⟨c, err, child, p, hrun, hret, h⟩

end PgEmbeddedSetup.Request
