import PgEmbeddedSetup.Base.Interleave
import PgEmbeddedSetup.Worker.Request

/-!
# Parents and workers

Any number of requests run at once, each with a parent and a worker, and their instructions are
interleaved in any order. All payloads are files of one temporary directory. A call may fail, the time
may run out, and the host may end a worker with a signal.

`Inv` relates the state to what the two sides of each request know. A worker that is alive has a parent
that still has the payload as it wrote it, unless the parent has given up on it without a kill; it may
then find nothing, or the payload of a later request under the same name.
-/

namespace PgEmbeddedSetup.Request

open Program Env Worker WorkerProcess Interleave Transition UndoLog
open Cluster (WorkerOperation)
open Fs (osString)

structure File where
  content : List UInt8
  owner : Nat
  deriving DecidableEq

/-- One operation, with the environment in which it was performed. -/
structure Performed (V : Type) where
  operation : WorkerOperation
  settings : Settings V
  env : OsString → Option OsString
  succeeded : Bool

/-- A worker, with the environment that it started with. -/
structure Child (V : Type) where
  command : Command
  inherited : OsString → Option OsString
  env : OsString → Option OsString
  status : Option ExitStatus
  performed : List (Performed V)

/-- `skipped` and `left` record that the privilege drop was skipped, and the paths whose removal
failed. -/
structure State (R V : Type) where
  files : OsString → Option File
  children : R → Option (Child V)
  skipped : R → Bool
  left : List OsString

inductive Party (R : Type) where
  | parent (r : R)
  | worker (r : R)
  | host (r : R)
  deriving DecidableEq

/-- What an instruction leaves open. -/
structure Choice where
  fault : Option String
  path : OsString
  written : Nat
  skip : Bool
  users : String → Option (Nat × Nat)
  env : OsString → Option OsString
  timedOut : Bool
  exited : Bool
  signal : Nat
  stdout : List UInt8
  stderr : List UInt8

inductive Finish where
  | run (result : Except RunFailure Unit)
  | worker
  | host

structure Exchange (R V : Type) where
  texts : Texts V
  uid : Nat
  request : R → WorkerRequest V

abbrev System (R V : Type) := Config (Party R) (Instr V) Instr.Answer Finish (State R V)

namespace State

variable {R V : Type} [DecidableEq R]

def setFile (s : State R V) (path : OsString) (file : Option File) : State R V :=
  { s with files := Function.update s.files path file }

def setChild (s : State R V) (r : R) (child : Child V) : State R V :=
  { s with children := Function.update s.children r (some child) }

end State

/-! ### What the instructions do -/

section Semantics

variable {R V : Type} [DecidableEq R]

def doChild (s : State R V) (r : R) (command : Command) (x : Choice) :
    (i : WorkerProcess.Instr) → Option (i.Answer × State R V)
  | .spawn =>
    match x.fault with
    | some f => some (.error f, s)
    | none => some (.ok (), s.setChild r ⟨command, x.env, x.env, none, []⟩)
  | .waitTimeout _ =>
    match x.fault, s.children r with
    | some f, _ => some (.error f, s)
    | none, none => none
    | none, some child =>
      match child.status with
      | some status => some (.ok (some status), s)
      | none => if x.timedOut then some (.ok none, s) else none
  | .kill =>
    match x.fault, s.children r with
    | some f, _ => some (.error (.other f), s)
    | none, none => none
    | none, some child =>
      match child.status with
      | some _ => some (if x.exited then .error .invalidInput else .ok (), s)
      | none => some (.ok (), s.setChild r { child with status := some sigkill })
  | .waitWithOutput =>
    match x.fault, s.children r with
    | some f, _ => some (.error f, s)
    | none, none => none
    | none, some child => child.status.map fun status => (.ok ⟨status, x.stdout, x.stderr⟩, s)

/-- A new file has a name that is free. -/
def doParent (uid : Nat) (s : State R V) (r : R) (x : Choice) :
    (i : ParentInstr) → Option (i.Answer × State R V)
  | .createTemp =>
    match x.fault, s.files x.path with
    | some f, _ => some (.error f, s)
    | none, some _ => none
    | none, none => some (.ok x.path, s.setFile x.path (some ⟨[], uid⟩))
  | .writeAll path content =>
    match x.fault with
    | some f =>
      some (.error f,
        s.setFile path ((s.files path).map ({ · with content := content.take x.written })))
    | none => some (.ok (), s.setFile path ((s.files path).map ({ · with content := content })))
  | .flush _ =>
    match x.fault with
    | some f => some (.error f, s)
    | none => some (.ok (), s)
  | .unlink path =>
    match x.fault with
    | some f => some (.error f, { s with left := path :: s.left })
    | none => some (.ok (), s.setFile path none)
  | .skipPrivilegeDrop =>
    some (x.skip, { s with skipped := Function.update s.skipped r (s.skipped r || x.skip) })
  | .userFromName name =>
    match x.fault with
    | some f => some (.error f, s)
    | none => some (.ok (x.users name), s)
  | .chown path uid' _ =>
    match x.fault with
    | some f => some (.error f, s)
    | none => some (.ok (), s.setFile path ((s.files path).map ({ · with owner := uid' })))
  | .child command i => doChild s r command x i

/-- The user that a child with this identity runs as. -/
def uidOf (uid : Nat) (identity : Option (Nat × Nat)) : Nat := (identity.map (·.1)).getD uid

def doWorker (uid : Nat) (s : State R V) (r : R) (child : Child V) (x : Choice) :
    (i : WorkerInstr V) → i.Answer × State R V
  | .argsOs => (child.command.program :: child.command.args, s)
  | .load path =>
    match x.fault, s.files path with
    | some f, _ => (.error f, s)
    | none, none => (.error "not found", s)
    | none, some file =>
      if uidOf uid child.command.identity = 0 ∨ uidOf uid child.command.identity = file.owner then
        (.ok file.content, s)
      else (.error "permission denied", s)
  | .assign var => ((), s.setChild r { child with env := assign child.env var })
  | .perform operation settings =>
    (match x.fault with
      | some f => .error f
      | none => .ok (),
     s.setChild r { child with
      performed := child.performed ++ [⟨operation, settings, child.env, x.fault.isNone⟩] })
  | .exit status => ((), s.setChild r { child with status := some status })

namespace Exchange

variable (ex : Exchange R V)

def sem : Semantics (Party R) (Instr V) Instr.Answer (State R V) Choice
  | .parent r, .parent i, x, s => doParent ex.uid s r x i
  | .worker r, .worker i, x, s =>
    match s.children r with
    | none => none
    | some child => if child.status.isNone then some (doWorker ex.uid s r child x i) else none
  | .host r, .interrupt, x, s =>
    match s.children r with
    | none => none
    | some child =>
      if child.status.isNone then
        some ((), s.setChild r { child with status := some (.signal x.signal) })
      else none
  | _, _, _, _ => none

def process : Party R → Code V Finish
  | .parent r => do
    let result ← run ex.texts (ex.request r)
    pure (.run result)
  | .worker _ => do
    workerMain ex.texts
    pure .worker
  | .host _ => do
    Prog.call Instr.interrupt
    pure .host

def init (files : OsString → Option File) : System R V :=
  ⟨⟨files, fun _ => none, fun _ => false, []⟩, ex.process⟩

abbrev next : System R V → Party R × Choice → Option (System R V) := step ex.sem

end Exchange

end Semantics

/-! ### What the two sides know -/

/-- Where a parent is. It has the file at the path as long as one is named. -/
inductive Progress where
  | idle
  | made (path : OsString)
  | whole (path : OsString)
  | owned (path : OsString) (identity : Option (Nat × Nat))
  | launched (path : OsString) (dead : Bool)
  | reaped (path : OsString) (status : ExitStatus)
  | done (status : Option ExitStatus)
  | abandoned

/-- Where a worker is. One that is astray has read what is not its payload. -/
inductive Stage where
  | unread
  | informed (path : OsString)
  | before (vars : List Var)
  | after (succeeded : Bool)
  | astray
  | ended

inductive Know where
  | parent (p : Progress)
  | worker (w : Stage)
  | host

def Progress.path : Progress → Option OsString
  | .made path | .whole path | .owned path _ | .launched path _ | .reaped path _ => some path
  | _ => none

variable {R V : Type}

namespace Exchange

variable (ex : Exchange R V)

/-- The bytes are the payload of the request. -/
def Written (r : R) (content : List UInt8) : Prop :=
  ∃ payload, WorkerPayload.new (ex.request r).settings (ex.request r).envVars = .ok payload ∧
    content = ex.texts.toWriter (payload.serialize ex.texts.toAdapters)

/-- The settings of the request, with a timeout in whole seconds. -/
def SameSettings (r : R) (settings : Settings V) : Prop :=
  settings.Same { (ex.request r).settings with
    timeout := (ex.request r).settings.timeout.map fun d => .fromSecs (ex.texts.seconds d) }

def vars (r : R) : List Var := (ex.request r).envVars.map varOf

/-- What was performed is what the request asks for. -/
structure Asked (r : R) (inherited : OsString → Option OsString) (p : Performed V) : Prop where
  operation : p.operation = (ex.request r).operation
  settings : ex.SameSettings r p.settings
  env : p.env = assignAll inherited (ex.vars r)

/-- What a call asks of a parent, and what it leaves it with. Where all is calm no call fails. The ids
that the host gives for `nobody` are among those of `nobody`. -/
def parentSpec (r : R) (calm : Prop) (nobody : R → Nat × Nat → Prop) :
    (i : ParentInstr) → Progress → (i.Answer → Progress → Prop) → Prop
  | .createTemp, .idle, Q => (∀ e, ¬ calm → Q (.error e) .idle) ∧
    ∀ path, (calm → (fromPathBuf path).isSome) → Q (.ok path) (.made path)
  | .writeAll path content, .made path', Q => path = path' ∧ ex.Written r content ∧
    (∀ e, ¬ calm → Q (.error e) (.made path)) ∧ Q (.ok ()) (.whole path)
  | .flush _, .whole path, Q => (∀ e, ¬ calm → Q (.error e) (.whole path)) ∧ Q (.ok ()) (.whole path)
  | .unlink path, .made path', Q | .unlink path, .whole path', Q | .unlink path, .owned path' _, Q =>
    path = path' ∧ ∀ a, Q a (.done none)
  | .unlink path, .launched path' dead, Q =>
    path = path' ∧ ¬ calm ∧ ∀ a, Q a (if dead then .done none else .abandoned)
  | .unlink path, .reaped path' status, Q => path = path' ∧
    (∀ e, ¬ calm → Q (.error e) (.done (some status))) ∧ Q (.ok ()) (.done (some status))
  | .skipPrivilegeDrop, .whole path, Q => Q true (.owned path none) ∧ Q false (.whole path)
  | .userFromName name, .whole path, Q => name = "nobody" ∧
    (∀ e, ¬ calm → Q (.error e) (.whole path)) ∧
      ∀ ids, (calm → ids.isSome) → (∀ id, ids = some id → nobody r id) → Q (.ok ids) (.whole path)
  | .chown path uid gid, .whole path', Q => path = path' ∧ nobody r (uid, gid) ∧
    (∀ e, ¬ calm → Q (.error e) (.whole path)) ∧ Q (.ok ()) (.owned path (some (uid, gid)))
  | .child command .spawn, .owned path identity, Q =>
    command = commandFor (ex.request r) path identity ∧
      (∀ e, ¬ calm → Q (.error e) (.owned path identity)) ∧ Q (.ok ()) (.launched path false)
  | .child _ (.waitTimeout _), .launched path dead, Q =>
    (∀ e, ¬ calm → Q (.error e) (.launched path dead)) ∧
      (¬ calm → Q (.ok none) (.launched path dead)) ∧
      ∀ status, Q (.ok (some status)) (.launched path true)
  | .child _ .kill, .launched path dead, Q =>
    ¬ calm ∧ (∀ e, Q (.error (.other e)) (.launched path dead)) ∧
      Q (.error .invalidInput) (.launched path true) ∧ Q (.ok ()) (.launched path true)
  | .child _ .waitWithOutput, .launched path dead, Q =>
    (∀ e, ¬ calm → Q (.error e) (.launched path dead)) ∧
      ∀ output, Q (.ok output) (.reaped path output.status)
  | _, _, _ => False

/-- What a call asks of a worker. One that is astray may do anything. -/
def workerSpec (r : R) (calm : Prop) :
    (i : WorkerInstr V) → Stage → (i.Answer → Stage → Prop) → Prop
  | .argsOs, .unread, Q => ∀ path identity, (calm → (fromPathBuf path).isSome) →
    Q ((ex.request r).worker :: (commandFor (ex.request r) path identity).args) (.informed path)
  | .load path, .informed path', Q => path = path' ∧ (∀ e, ¬ calm → Q (.error e) (.before [])) ∧
    (∀ content, ex.Written r content → Q (.ok content) (.before [])) ∧
      ∀ content, ¬ calm → Q (.ok content) .astray
  | .assign var, .before vars, Q => Q () (.before (vars ++ [var]))
  | .perform operation settings, .before vars, Q => operation = (ex.request r).operation ∧
    ex.SameSettings r settings ∧ vars = ex.vars r ∧ (∀ e, Q (.error e) (.after false)) ∧
      Q (.ok ()) (.after true)
  | .exit status, .unread, Q | .exit status, .informed _, Q | .exit status, .before _, Q =>
    ¬ calm ∧ status ≠ .code 0 ∧ Q () .ended
  | .exit status, .after succeeded, Q =>
    (status = if succeeded then .code 0 else .code 1) ∧ Q () .ended
  | .assign _, .astray, Q | .exit _, .astray, Q => Q () .astray
  | .perform _ _, .astray, Q => ∀ a, Q a .astray
  | _, _, _ => False

/-- What a thread knows is about its own request. -/
def spec (calm : Prop) (nobody : R → Nat × Nat → Prop) : Spec (Instr V) Instr.Answer (Party R × Know)
  | .parent i, (.parent r, .parent p), Q =>
    ex.parentSpec r calm nobody i p fun a p' => Q a (.parent r, .parent p')
  | .worker i, (.worker r, .worker w), Q =>
    ex.workerSpec r calm i w fun a w' => Q a (.worker r, .worker w')
  | .interrupt, (.host r, .host), Q => Q () (.host r, .host)
  | _, _, _ => False

/-! ### The invariant -/

/-- The payload of a request is there, for the user that its worker is to run as. -/
def Sent (s : State R V) (r : R) (path : OsString) (identity : Option (Nat × Nat)) : Prop :=
  ∃ content, ex.Written r content ∧ s.files path = some ⟨content, uidOf ex.uid identity⟩

/-- The worker was started with the payload. -/
def Launched (s : State R V) (r : R) (path : OsString) (child : Child V) : Prop :=
  ∃ identity, child.command = commandFor (ex.request r) path identity ∧ ex.Sent s r path identity

/-- The worker runs as `nobody`, unless the privilege drop was skipped. -/
def Demoted (nobody : R → Nat × Nat → Prop) (s : State R V) (r : R) (identity : Option (Nat × Nat)) :
    Prop :=
  (identity = none → s.skipped r = true) ∧ ∀ ids, identity = some ids → nobody r ids

def ParentFits (nobody : R → Nat × Nat → Prop) (s : State R V) (r : R) : Progress → Prop
  | .idle => s.children r = none
  | .made path => s.children r = none ∧ ∃ content, s.files path = some ⟨content, ex.uid⟩
  | .whole path => s.children r = none ∧ ex.Sent s r path none
  | .owned path identity => s.children r = none ∧ ex.Sent s r path identity ∧
    Demoted nobody s r identity
  | .launched path dead => ∃ child, s.children r = some child ∧ ex.Launched s r path child ∧
    (dead = true → child.status.isSome = true)
  | .reaped path status => ∃ child, s.children r = some child ∧ ex.Launched s r path child ∧
    child.status = some status
  | .done none => ∀ child, s.children r = some child → child.status.isSome = true
  | .done (some status) => ∃ child, s.children r = some child ∧ child.status = some status
  | .abandoned => True

/-- What a worker has done, with all that it knows of it. -/
def StageFits (r : R) (child : Child V) : Stage → Prop
  | .unread => child.performed = [] ∧ child.env = child.inherited
  | .informed path => child.performed = [] ∧ child.env = child.inherited ∧
    ∃ identity, child.command = commandFor (ex.request r) path identity
  | .before vars => child.performed = [] ∧ child.env = assignAll child.inherited vars
  | .after succeeded =>
    ∃ p, child.performed = [p] ∧ ex.Asked r child.inherited p ∧ p.succeeded = succeeded
  | .astray => False
  | .ended => True

/-- A worker was started by its parent, with the privileges dropped unless that was skipped. -/
def Commanded (calm : Prop) (nobody : R → Nat × Nat → Prop) (s : State R V) (r : R)
    (child : Child V) : Prop :=
  ∃ path identity, child.command = commandFor (ex.request r) path identity ∧
    Demoted nobody s r identity ∧ (calm → (fromPathBuf path).isSome)

/-- What can be told of a worker from outside. -/
structure ChildFits (calm : Prop) (r : R) (child : Child V) : Prop where
  once : child.performed = [] ∨ ∃ p, child.performed = [p] ∧ ex.Asked r child.inherited p
  success : child.status = some (.code 0) → ∃ p, child.performed = [p] ∧ p.succeeded = true
  calm : calm → ∀ status, child.status = some status →
    ∃ p, child.performed = [p] ∧ status = if p.succeeded then .code 0 else .code 1

/-- What holds between any two instructions. `start` are the files that were there before. -/
structure Inv (calm : Prop) (nobody : R → Nat × Nat → Prop) (start : OsString → Option File)
    (s : State R V) (progress : R → Progress) (stage : R → Stage) : Prop where
  parents : ∀ r, ex.ParentFits nobody s r (progress r)
  unspawned : ∀ r, s.children r = none → stage r = .unread
  commands : ∀ r child, s.children r = some child → ex.Commanded calm nobody s r child
  children : ∀ r child, s.children r = some child → progress r = .abandoned ∨
    ex.ChildFits calm r child ∧ ex.StageFits r child (stage r)
  fresh : ∀ r path, (progress r).path = some path →
    start path = none ∧ (calm → (fromPathBuf path).isSome)
  distinct : ∀ r r' path, (progress r).path = some path → (progress r').path = some path → r = r'
  files : ∀ path, s.files path = start path ∨ (∃ r, (progress r).path = some path) ∨ path ∈ s.left
  left : ∀ path ∈ s.left, start path = none ∧ (s.files path).isSome = true ∧
    ∀ r, (progress r).path ≠ some path
  calm : calm → ∀ r, progress r ≠ .abandoned

/-- The knowledge of the threads, put together. -/
def knowledge (progress : R → Progress) (stage : R → Stage) : Party R → Party R × Know
  | .parent r => (.parent r, .parent (progress r))
  | .worker r => (.worker r, .worker (stage r))
  | .host r => (.host r, .host)

/-- No call fails, the time does not run out, and nothing is interrupted. An operation may fail. -/
def Calm (t : Party R) (i : Instr V) (x : Choice) : Prop :=
  (∀ r, t ≠ .host r) ∧
    match i with
    | .parent .createTemp => x.fault = none ∧ (fromPathBuf x.path).isSome
    | .parent (.userFromName name) => x.fault = none ∧ (x.users name).isSome
    | .parent (.child _ (.waitTimeout _)) => x.fault = none ∧ x.timedOut = false
    | .parent _ | .worker (.load _) => x.fault = none
    | .worker _ | .interrupt => True

/-- The ids that the host gives for `nobody` are among those of `nobody`. -/
def Named (nobody : R → Nat × Nat → Prop) (t : Party R) (x : Choice) : Prop :=
  ∀ r ids, t = .parent r → x.users "nobody" = some ids → nobody r ids

/-! ### Lemmas -/

theorem parentSpec_mono (r : R) (calm : Prop) (nobody : R → Nat × Nat → Prop) (i : ParentInstr) (p : Progress)
    (Q Q' : i.Answer → Progress → Prop) (hQ : ∀ a p', Q a p' → Q' a p')
    (h : ex.parentSpec r calm nobody i p Q) : ex.parentSpec r calm nobody i p Q' := by
  cases i with
  | child command i => cases i <;> cases p <;> simp only [parentSpec] at h ⊢ <;> grind
  | _ => cases p <;> simp only [parentSpec] at h ⊢ <;> grind

theorem workerSpec_mono (r : R) (calm : Prop) (i : WorkerInstr V) (w : Stage)
    (Q Q' : i.Answer → Stage → Prop) (hQ : ∀ a w', Q a w' → Q' a w')
    (h : ex.workerSpec r calm i w Q) : ex.workerSpec r calm i w Q' := by
  cases i <;> cases w <;> simp only [workerSpec] at h ⊢ <;> grind

theorem spec_monotone (calm : Prop) (nobody : R → Nat × Nat → Prop) : (ex.spec calm nobody).Monotone := by
  rintro i ⟨t, k⟩ Q Q' hQ h
  cases i with
  | parent i =>
    cases t <;> cases k <;> first | exact h.elim | skip
    exact ex.parentSpec_mono _ calm nobody i _ _ _ (fun a p' => hQ a _) h
  | worker i =>
    cases t <;> cases k <;> first | exact h.elim | skip
    exact ex.workerSpec_mono _ calm i _ _ _ (fun a w' => hQ a _) h
  | interrupt =>
    cases t <;> cases k <;> first | exact h.elim | exact hQ _ _ h

end Exchange

end PgEmbeddedSetup.Request
