import PgEmbeddedSetup.Base.Program
import PgEmbeddedSetup.Base.Transition
import PgEmbeddedSetup.Cluster.Cleanup

/-!
# A worker and its output

`run_command_with_timeout` waits for the worker first and reads its output afterwards. Both ends of
the two pipes are modelled: the worker does its acts one by one and is blocked where a pipe is full, and
the caller executes its calls, in any order of their steps.

As long as the caller waits nobody reads. So the worker is never blocked there, and one that ends is
reported with its own status, just when everything that it writes to a stream fits into the pipe
(`waiting_safe_iff`).
-/

namespace PgEmbeddedSetup.WorkerProcess

open Program Transition Cluster

/-- How a process has ended. -/
inductive ExitStatus where
  | code (n : Nat)
  | signal (n : Nat)
  deriving DecidableEq, Repr

inductive Fd where
  | stdout
  | stderr
  deriving DecidableEq, Repr

/-- `std::process::Output`. -/
structure Output where
  status : ExitStatus
  stdout : List UInt8
  stderr : List UInt8

/-! ### The caller -/

inductive KillError where
  | invalidInput
  | other (err : String)
  deriving DecidableEq

/-- A timeout is in milliseconds. -/
inductive Instr where
  | spawn
  | waitTimeout (timeout : Nat)
  | kill
  | waitWithOutput

@[reducible] def Instr.Answer : Instr → Type
  | .spawn => Except String Unit
  | .waitTimeout _ => Except String (Option ExitStatus)
  | .kill => Except KillError Unit
  | .waitWithOutput => Except String Output

abbrev Code := Prog Instr Instr.Answer

def errorContext : WorkerOperation → String
  | .setup => "postgresql_embedded::setup() failed"
  | .start => "postgresql_embedded::start() failed"
  | .stop => "postgresql_embedded::stop() failed"
  | .cleanup => "pg_worker cleanup operation failed"
  | .cleanupFull => "pg_worker cleanup-full operation failed"

/-- `failure` is displayed with both outputs, each cut to 2048 characters. `wait` tells also of the
failures to terminate and to reap the worker. -/
inductive RunError where
  | spawn (err : String)
  | wait (err : String) (terminate : Option KillError) (reap : Option String)
  | terminate (seconds : Nat) (err : String)
  | collect (err : String)
  | failure (context : String) (output : Output)

def errorOf {ε α : Type} : Except ε α → Option ε
  | .error err => some err
  | .ok _ => none

def spawn : Code (Except String Unit) := Prog.call Instr.spawn

def waitTimeout (timeout : Nat) : Code (Except String (Option ExitStatus)) :=
  Prog.call (Instr.waitTimeout timeout)

def kill : Code (Except KillError Unit) := Prog.call Instr.kill

def waitWithOutput : Code (Except String Output) := Prog.call Instr.waitWithOutput

def handleWaitError (err : String) : Code (Except RunError Output) := do
  let killResult ← kill
  let waitResult ← waitWithOutput
  pure (.error (.wait err (errorOf killResult) (errorOf waitResult)))

def handleTimeout (timeout : Nat) : Code (Except RunError Unit) := do
  match ← kill with
  | .ok () | .error .invalidInput => pure (.ok ())
  | .error (.other err) => pure (.error (.terminate (timeout / 1000) err))

/-- The end of `run_command_with_timeout`. -/
def collectOutput (operation : WorkerOperation) (timeout : Nat) (timedOut : Bool) :
    Code (Except RunError Output) := do
  match ← waitWithOutput with
  | .error err => pure (.error (.collect err))
  | .ok output =>
    if timedOut then
      pure (.error (.failure
        (errorContext operation ++ " timed out after " ++ toString (timeout / 1000) ++ "s") output))
    else pure (.ok output)

/-- Its middle, for a worker that has been spawned. -/
def awaitWorker (operation : WorkerOperation) (timeout : Nat) : Code (Except RunError Output) := do
  match ← waitTimeout timeout with
  | .error err => handleWaitError err
  | .ok waitResult =>
    if waitResult.isNone then
      match ← handleTimeout timeout with
      | .error err => pure (.error err)
      | .ok () => collectOutput operation timeout true
    else collectOutput operation timeout false

def runCommandWithTimeout (operation : WorkerOperation) (timeout : Nat) :
    Code (Except RunError Output) := do
  match ← spawn with
  | .error err => pure (.error (.spawn err))
  | .ok () => awaitWorker operation timeout

/-! ### The worker and the pipes -/

/-- A write of many bytes writes them one after the other. -/
inductive Act where
  | work
  | write (fd : Fd) (byte : UInt8)
  | exit (status : ExitStatus)
  deriving DecidableEq

/-- What a worker does, one act after the other. It may never exit. -/
abbrev Script := Nat → Act

/-- `done` counts the acts of the worker. The bytes of a stream are first in the pipe, then read. -/
structure System where
  caller : Code (Except RunError Output)
  spawned : Bool
  done : Nat
  status : Option ExitStatus
  pipe : Fd → List UInt8
  read : Fd → List UInt8

/-- A step of the worker, a byte that `wait_with_output` reads, or the answer to a call. -/
inductive Event where
  | worker
  | read (fd : Fd)
  | answer (os : (i : Instr) → i.Answer)

def sigkill : ExitStatus := .signal 9

/-- The state after a call, where the answer is possible. The time may run out whenever the worker is
alive, and `wait_with_output` ends when the worker has and everything is read. -/
def answered (s : System) : (i : Instr) → i.Answer → Option System
  | .spawn, .ok () => some { s with spawned := true }
  | .waitTimeout _, .ok status => if s.status = status then some s else none
  | .kill, .ok () => some { s with status := some (s.status.getD sigkill) }
  | .kill, .error .invalidInput => if s.status.isSome then some s else none
  | .waitWithOutput, .ok output =>
    if s.status = some output.status ∧ s.pipe .stdout = [] ∧ s.pipe .stderr = [] ∧
      s.read .stdout = output.stdout ∧ s.read .stderr = output.stderr then some s else none
  | .spawn, .error _ | .waitTimeout _, .error _ | .kill, .error (.other _)
  | .waitWithOutput, .error _ => some s

variable (script : Script) (capacity : Fd → Nat)

/-- A write to a full pipe has to wait. -/
def act (s : System) : Act → Option System
  | .work => some { s with done := s.done + 1 }
  | .write fd byte =>
    if (s.pipe fd).length < capacity fd then
      some { s with
        done := s.done + 1
        pipe := Function.update s.pipe fd (s.pipe fd ++ [byte]) }
    else none
  | .exit status => some { s with status := some status }

def step (s : System) : Event → Option System
  | .worker => if s.spawned ∧ s.status = none then act capacity s (script s.done) else none
  | .read fd =>
    match s.caller, s.pipe fd with
    | .exec .waitWithOutput _, byte :: rest =>
      some { s with
        pipe := Function.update s.pipe fd rest
        read := Function.update s.read fd (s.read fd ++ [byte]) }
    | _, _ => none
  | .answer os =>
    match s.caller with
    | .exec i k => (answered s i (os i)).map fun s' => { s' with caller := k (os i) }
    | .ret _ => none

def start (operation : WorkerOperation) (timeout : Nat) : System where
  caller := runCommandWithTimeout operation timeout
  spawned := false
  done := 0
  status := none
  pipe := fun _ => []
  read := fun _ => []

/-! ### What is claimed of it -/

/-- The worker is alive and cannot write, since the pipe is full. -/
def Blocked (s : System) : Prop :=
  s.spawned = true ∧ s.status = none ∧
    ∃ fd byte, script s.done = .write fd byte ∧ capacity fd ≤ (s.pipe fd).length

/-- The caller waits for the end of the worker, and does not read. -/
def Waiting (s : System) : Prop := ∃ timeout k, s.caller = .exec (.waitTimeout timeout) k

/-- No order of the steps leads to a worker that is blocked while the caller waits for it. -/
def NeverStuck (operation : WorkerOperation) (timeout : Nat) : Prop :=
  ∀ es s, run (step script capacity) es (start operation timeout) = some s →
    ¬ (Blocked script capacity s ∧ Waiting s)

/-- The worker exits after `n` acts. -/
def Exits (n : Nat) (status : ExitStatus) : Prop :=
  script n = .exit status ∧ ∀ m < n, ∀ status', script m ≠ .exit status'

/-- What the first acts write to a stream. -/
def written (fd : Fd) : Nat → List UInt8
  | 0 => []
  | n + 1 =>
    match script n with
    | .write fd' byte => if fd' = fd then written fd n ++ [byte] else written fd n
    | _ => written fd n

/-- No call fails, and the time does not run out on a worker that can go on. -/
def Patient (s : System) : Event → Prop
  | .answer os => ∀ i k, s.caller = .exec i k →
    match i, os i with
    | .waitTimeout _, .ok none => Blocked script capacity s
    | .spawn, .error _ | .waitTimeout _, .error _ | .kill, .error _ | .waitWithOutput, .error _ => False
    | _, _ => True
  | _ => True

/-- A worker that exits is reported with its own status and output by every patient run that has ended,
and the others can be carried on to such an end. -/
def ReportsOwnStatus (operation : WorkerOperation) (timeout : Nat) : Prop :=
  ∀ n status, Exits script n status →
    ∀ es s, Along (step script capacity) (Patient script capacity) es (start operation timeout) →
      run (step script capacity) es (start operation timeout) = some s →
        (∀ result, s.caller = .ret result →
          result = .ok ⟨status, written script .stdout n, written script .stderr n⟩) ∧
        ∃ es' s' result, Along (step script capacity) (Patient script capacity) es' s ∧
          run (step script capacity) es' s = some s' ∧ s'.caller = .ret result

/-- All that the worker writes to a stream before it exits fits into the pipe. -/
def Fits : Prop :=
  ∀ fd n, (∀ m < n, ∀ status, script m ≠ .exit status) →
    (written script fd n).length ≤ capacity fd

/-! ### The calls of the caller -/

def Instr.isWait : Instr → Bool
  | .waitTimeout _ => true
  | _ => false

/-- The program does not wait again. -/
def WaitsNoMore (p : Code (Except RunError Output)) : Prop := p.All fun i => i.isWait = false

theorem collectOutput_waitsNoMore (operation : WorkerOperation) (timeout : Nat) (timedOut : Bool) :
    WaitsNoMore (collectOutput operation timeout timedOut) := by
  refine ⟨rfl, fun r => ?_⟩
  cases r with
  | error err => trivial
  | ok output => cases timedOut <;> trivial

theorem handleWaitError_waitsNoMore (err : String) : WaitsNoMore (handleWaitError err) :=
  ⟨rfl, fun _ => ⟨rfl, fun _ => trivial⟩⟩

theorem awaitWorker_waitsOnce (operation : WorkerOperation) (timeout : Nat) :
    ∃ k, awaitWorker operation timeout = .exec (.waitTimeout timeout) k ∧
      ∀ r, WaitsNoMore (k r) := by
  refine ⟨_, rfl, fun r => ?_⟩
  cases r with
  | error err => exact handleWaitError_waitsNoMore err
  | ok waitResult =>
    cases waitResult with
    | some status => exact collectOutput_waitsNoMore operation timeout false
    | none =>
      refine ⟨rfl, fun r => ?_⟩
      cases r with
      | ok u => exact collectOutput_waitsNoMore operation timeout true
      | error err =>
        cases err with
        | invalidInput => exact collectOutput_waitsNoMore operation timeout true
        | other err => trivial

section Runs

variable {script capacity} {operation : WorkerOperation} {timeout : Nat} {s s' : System}

/-! ### Every run -/

theorem written_succ_write {fd fd' : Fd} {byte : UInt8} {n : Nat} (h : script n = .write fd' byte) :
    written script fd (n + 1) =
      if fd' = fd then written script fd n ++ [byte] else written script fd n := by
  rw [written, h]

/-- What holds after every run. Nothing is read before the caller has waited. -/
structure Reached (script : Script) (operation : WorkerOperation) (timeout : Nat) (s : System) :
    Prop where
  acts : ∀ m < s.done, ∀ status, script m ≠ .exit status
  bytes : ∀ fd, s.read fd ++ s.pipe fd = written script fd s.done
  unread : WaitsNoMore s.caller ∨
    (s.caller = runCommandWithTimeout operation timeout ∨ s.caller = awaitWorker operation timeout) ∧
      ∀ fd, s.read fd = []

theorem reached_start : Reached script operation timeout (start operation timeout) where
  acts := nofun
  bytes := fun _ => rfl
  unread := Or.inr ⟨Or.inl rfl, fun _ => rfl⟩

theorem act_cases (h : act capacity s (script s.done) = some s') :
    (script s.done = .work ∧ s' = { s with done := s.done + 1 }) ∨
    (∃ fd byte, script s.done = .write fd byte ∧ (s.pipe fd).length < capacity fd ∧
      s' = { s with
        done := s.done + 1
        pipe := Function.update s.pipe fd (s.pipe fd ++ [byte]) }) ∨
    (∃ status, script s.done = .exit status ∧ s' = { s with status := some status }) := by
  cases hact : script s.done with
  | work =>
    rw [hact] at h
    exact Or.inl ⟨rfl, (Option.some.inj h).symm⟩
  | write fd byte =>
    rw [hact] at h
    simp only [act] at h
    split at h
    next hroom => exact Or.inr (Or.inl ⟨fd, byte, rfl, hroom, (Option.some.inj h).symm⟩)
    next => cases h
  | exit status =>
    rw [hact] at h
    exact Or.inr (Or.inr ⟨status, rfl, (Option.some.inj h).symm⟩)

theorem answered_keeps {i : Instr} {r : i.Answer} (h : answered s i r = some s') :
    s'.caller = s.caller ∧ s'.done = s.done ∧ s'.pipe = s.pipe ∧ s'.read = s.read := by
  unfold answered at h
  split at h
  all_goals first
    | (cases h; exact ⟨rfl, rfl, rfl, rfl⟩)
    | (split at h
       · cases h; exact ⟨rfl, rfl, rfl, rfl⟩
       · cases h)

theorem step_cases {e : Event} (h : step script capacity s e = some s') :
    (e = .worker ∧ s.spawned = true ∧ s.status = none ∧
      act capacity s (script s.done) = some s') ∨
    (∃ fd k byte rest, e = .read fd ∧ s.caller = .exec .waitWithOutput k ∧
      s.pipe fd = byte :: rest ∧
      s' = { s with
        pipe := Function.update s.pipe fd rest
        read := Function.update s.read fd (s.read fd ++ [byte]) }) ∨
    (∃ os i k s₁, e = .answer os ∧ s.caller = .exec i k ∧ answered s i (os i) = some s₁ ∧
      s' = { s₁ with caller := k (os i) }) := by
  cases e with
  | worker =>
    unfold step at h
    simp only at h
    split at h
    next hguard => exact Or.inl ⟨rfl, hguard.1, hguard.2, h⟩
    next => cases h
  | read fd =>
    unfold step at h
    simp only at h
    split at h
    next k byte rest hcaller hpipe =>
      exact Or.inr (Or.inl ⟨fd, k, byte, rest, rfl, hcaller, hpipe, (Option.some.inj h).symm⟩)
    next => cases h
  | answer os =>
    unfold step at h
    simp only at h
    split at h
    next i k hcaller =>
      obtain ⟨s₁, hs₁, rfl⟩ := Option.map_eq_some_iff.mp h
      exact Or.inr (Or.inr ⟨os, i, k, s₁, rfl, hcaller, hs₁, rfl⟩)
    next => cases h

theorem reached_act (hs : Reached script operation timeout s)
    (h : act capacity s (script s.done) = some s') : Reached script operation timeout s' := by
  have hgoes : (∀ status, script s.done ≠ .exit status) →
      ∀ m < s.done + 1, ∀ status, script m ≠ .exit status := by
    intro hnot m hm
    rcases Nat.lt_succ_iff_lt_or_eq.mp hm with hm | rfl
    · exact hs.acts m hm
    · exact hnot
  rcases act_cases h with ⟨hact, rfl⟩ | ⟨fd, byte, hact, -, rfl⟩ | ⟨status, -, rfl⟩
  · refine ⟨hgoes (fun _ heq => nomatch hact.symm.trans heq), fun fd => ?_, hs.unread⟩
    rw [written, hact]
    exact hs.bytes fd
  · refine ⟨hgoes (fun _ heq => nomatch hact.symm.trans heq), fun fd' => ?_, hs.unread⟩
    rw [written_succ_write hact]
    show s.read fd' ++ Function.update s.pipe fd (s.pipe fd ++ [byte]) fd' = _
    by_cases hfd : fd = fd'
    · subst hfd
      rw [Function.update_self, if_pos rfl, ← List.append_assoc, hs.bytes]
    · rw [Function.update_of_ne (Ne.symm hfd), if_neg hfd, hs.bytes]
  · exact ⟨hs.acts, hs.bytes, hs.unread⟩

theorem reached_step {e : Event} (hs : Reached script operation timeout s)
    (h : step script capacity s e = some s') : Reached script operation timeout s' := by
  rcases step_cases h with ⟨-, -, -, hact⟩ | ⟨fd, k, byte, rest, -, hcaller, hpipe, rfl⟩ |
    ⟨os, i, k, s₁, -, hcaller, hanswered, rfl⟩
  · exact reached_act hs hact
  · -- Who reads has waited before.
    refine ⟨hs.acts, fun fd' => ?_, Or.inl ?_⟩
    · show Function.update s.read fd (s.read fd ++ [byte]) fd' ++ Function.update s.pipe fd rest fd' = _
      by_cases hfd : fd' = fd
      · subst hfd
        rw [Function.update_self, Function.update_self, List.append_assoc, List.singleton_append,
          ← hpipe]
        exact hs.bytes fd'
      · rw [Function.update_of_ne hfd, Function.update_of_ne hfd]
        exact hs.bytes fd'
    · rcases hs.unread with hmore | ⟨hstart | hstart, -⟩
      · exact hmore
      · cases hcaller.symm.trans hstart
      · cases hcaller.symm.trans hstart
  · obtain ⟨-, hdone, hpipe, hread⟩ := answered_keeps hanswered
    refine ⟨by rw [hdone]; exact hs.acts, fun fd => ?_, ?_⟩
    · show s₁.read fd ++ s₁.pipe fd = written script fd s₁.done
      rw [hdone, hpipe, hread]
      exact hs.bytes fd
    · show WaitsNoMore (k (os i)) ∨ (k (os i) = _ ∨ k (os i) = _) ∧ ∀ fd, s₁.read fd = []
      rcases hs.unread with hmore | ⟨hstart | hstart, hunread⟩
      · rw [hcaller] at hmore
        exact Or.inl (hmore.2 (os i))
      · cases hcaller.symm.trans hstart
        cases os .spawn with
        | error err => exact Or.inl trivial
        | ok u => exact Or.inr ⟨Or.inr rfl, hread ▸ hunread⟩
      · obtain ⟨k', hk', hmore⟩ := awaitWorker_waitsOnce operation timeout
        cases hcaller.symm.trans (hstart.trans hk')
        exact Or.inl (hmore _)

theorem reached_run {es : List Event}
    (h : run (step script capacity) es (start operation timeout) = some s) :
    Reached script operation timeout s :=
  run_preserves (fun _ _ _ => reached_step) reached_start h

/-! ### What fits never blocks -/

theorem Reached.pipe_eq (hs : Reached script operation timeout s) (hwaiting : Waiting s) (fd : Fd) :
    s.pipe fd = written script fd s.done := by
  obtain ⟨timeout', k, hcaller⟩ := hwaiting
  rcases hs.unread with hmore | ⟨-, hunread⟩
  · rw [hcaller] at hmore
    cases hmore.1
  · rw [← hs.bytes fd, hunread fd, List.nil_append]

theorem not_blocked (hfits : Fits script capacity) (hs : Reached script operation timeout s)
    (hwaiting : Waiting s) : ¬ Blocked script capacity s := by
  rintro ⟨-, -, fd, byte, hact, hfull⟩
  have hnext := hfits fd (s.done + 1) fun m hm status => by
    rcases Nat.lt_succ_iff_lt_or_eq.mp hm with hm | rfl
    · exact hs.acts m hm status
    · exact fun heq => nomatch hact.symm.trans heq
  rw [written_succ_write hact, if_pos rfl, List.length_append, ← hs.pipe_eq hwaiting fd] at hnext
  exact Nat.not_succ_le_self _ (Nat.le_trans hnext hfull)

/-- The state in which the worker has done `n` acts and the caller still waits. -/
def waitingAt (script : Script) (operation : WorkerOperation) (timeout n : Nat) : System where
  caller := awaitWorker operation timeout
  spawned := true
  done := n
  status := none
  pipe := fun fd => written script fd n
  read := fun _ => []

/-- Every answer that does not fail. -/
def succeeding (status : Option ExitStatus) (output : Output) : (i : Instr) → i.Answer
  | .spawn => .ok ()
  | .waitTimeout _ => .ok status
  | .kill => .ok ()
  | .waitWithOutput => .ok output

def emptyOutput : Output := ⟨.code 0, [], []⟩

/-- If the worker never is stuck, it can do all its acts while the caller waits. -/
theorem run_waitingAt (hnever : NeverStuck script capacity operation timeout) {n : Nat}
    (hacts : ∀ m < n, ∀ status, script m ≠ .exit status) :
    (∃ es, run (step script capacity) es (start operation timeout) =
      some (waitingAt script operation timeout n)) ∧
    ∀ fd, (written script fd n).length ≤ capacity fd := by
  induction n with
  | zero =>
    exact ⟨⟨[.answer (succeeding none emptyOutput)], rfl⟩, fun fd => Nat.zero_le _⟩
  | succ n ih =>
    obtain ⟨⟨es, hes⟩, hlength⟩ := ih fun m hm => hacts m (Nat.lt_succ_of_lt hm)
    have hnot := hnever es _ hes
    have hstep : step script capacity (waitingAt script operation timeout n) .worker =
        act capacity (waitingAt script operation timeout n) (script n) := rfl
    have hgoes : ∀ s, act capacity (waitingAt script operation timeout n) (script n) = some s →
        run (step script capacity) (es ++ [.worker]) (start operation timeout) = some s := by
      intro s hs
      rw [run_append hes, run_cons (hstep.trans hs)]
      rfl
    cases hact : script n with
    | work =>
      have hwritten : ∀ fd, written script fd (n + 1) = written script fd n := fun fd => by
        rw [written, hact]
      refine ⟨⟨es ++ [.worker], hgoes _ ?_⟩, fun fd => hwritten fd ▸ hlength fd⟩
      rw [hact, waitingAt, waitingAt, funext hwritten]
      rfl
    | write fd byte =>
      have hroom : (written script fd n).length < capacity fd := by
        by_contra hfull
        exact hnot ⟨⟨rfl, rfl, fd, byte, hact, Nat.le_of_not_lt hfull⟩, timeout, _, rfl⟩
      refine ⟨⟨es ++ [.worker], hgoes _ ?_⟩, fun fd' => ?_⟩
      · have hpipe : Function.update (fun fd' => written script fd' n) fd
            (written script fd n ++ [byte]) = fun fd' => written script fd' (n + 1) := by
          funext fd'
          rw [written_succ_write hact]
          by_cases hfd : fd = fd'
          · subst hfd
            rw [Function.update_self, if_pos rfl]
          · rw [Function.update_of_ne (Ne.symm hfd), if_neg hfd]
        simp only [hact, act, waitingAt, if_pos hroom, hpipe]
      · rw [written_succ_write hact]
        split
        next hfd =>
          subst hfd
          rw [List.length_append]
          exact hroom
        next => exact hlength fd'
    | exit status => exact absurd hact (hacts n (Nat.lt_succ_self n) status)

/-! ### A worker that exits is reported -/

theorem Exits.unique {m n : Nat} {status status' : ExitStatus} (hn : Exits script n status)
    (hm : Exits script m status') : m = n ∧ status' = status := by
  have hmn : m = n := by
    rcases Nat.lt_trichotomy m n with hlt | heq | hgt
    · exact absurd hm.1 (hn.2 m hlt status')
    · exact heq
    · exact absurd hn.1 (hm.2 n hgt status)
  subst hmn
  exact ⟨rfl, Act.exit.inj (hm.1.symm.trans hn.1)⟩

/-- What holds of patient runs: the worker is not killed. -/
structure Undisturbed (script : Script) (operation : WorkerOperation) (timeout : Nat) (s : System) :
    Prop where
  reached : Reached script operation timeout s
  own : ∀ status, s.status = some status → script s.done = .exit status
  caller : (s.caller = runCommandWithTimeout operation timeout ∧ s.spawned = false ∧
      s.status = none) ∨
    (s.caller = awaitWorker operation timeout ∧ s.spawned = true) ∨
    (s.caller = collectOutput operation timeout false ∧ s.status ≠ none) ∨
    ∃ output, s.caller = .ret (.ok output) ∧ s.status = some output.status ∧
      (∀ fd, s.pipe fd = []) ∧ s.read .stdout = output.stdout ∧ s.read .stderr = output.stderr

theorem undisturbed_start : Undisturbed script operation timeout (start operation timeout) where
  reached := reached_start
  own := nofun
  caller := Or.inl ⟨rfl, rfl, rfl⟩

theorem undisturbed_act (hs : Undisturbed script operation timeout s) (hspawned : s.spawned = true)
    (halive : s.status = none) (h : act capacity s (script s.done) = some s') :
    Undisturbed script operation timeout s' := by
  have hcaller : s.caller = awaitWorker operation timeout := by
    rcases hs.caller with ⟨-, hnot, -⟩ | ⟨hwaits, -⟩ | ⟨-, hdead⟩ | ⟨output, -, hdead, -⟩
    · cases hnot.symm.trans hspawned
    · exact hwaits
    · exact absurd halive hdead
    · cases halive.symm.trans hdead
  refine ⟨reached_act hs.reached h, ?_, Or.inr (Or.inl ?_)⟩
  · rcases act_cases h with ⟨-, rfl⟩ | ⟨fd, byte, -, -, rfl⟩ | ⟨status, hact, rfl⟩
    · exact fun status heq => nomatch halive.symm.trans heq
    · exact fun status heq => nomatch halive.symm.trans heq
    · exact fun status' heq => Option.some.inj heq ▸ hact
  · rcases act_cases h with ⟨-, rfl⟩ | ⟨fd, byte, -, -, rfl⟩ | ⟨status, -, rfl⟩ <;>
      exact ⟨hcaller, hspawned⟩

theorem undisturbed_answer {os : (i : Instr) → i.Answer} {i : Instr}
    {k : i.Answer → Code (Except RunError Output)} {s₁ : System}
    (hfits : Fits script capacity) (hs : Undisturbed script operation timeout s)
    (hpatient : Patient script capacity s (.answer os)) (hcaller : s.caller = .exec i k)
    (h : answered s i (os i) = some s₁)
    (hreached : Reached script operation timeout { s₁ with caller := k (os i) }) :
    Undisturbed script operation timeout { s₁ with caller := k (os i) } := by
  have hanswer := hpatient i k hcaller
  obtain ⟨-, hdone, hpipe, hread⟩ := answered_keeps h
  rcases hs.caller with ⟨hstart, -, halive⟩ | ⟨hwaits, hspawned⟩ | ⟨hcollects, hdead⟩ |
    ⟨output, hret, -⟩
  · -- The worker has been spawned.
    cases hcaller.symm.trans hstart
    cases hos : os .spawn with
    | error err =>
      rw [hos] at hanswer
      exact hanswer.elim
    | ok u =>
      rw [hos] at h hreached
      cases h
      exact ⟨hreached, hs.own, Or.inr (Or.inl ⟨rfl, rfl⟩)⟩
  · -- The caller has waited, and not in vain.
    have hwaiting : Waiting s := ⟨timeout, _, hwaits⟩
    cases hcaller.symm.trans hwaits
    cases hos : os (.waitTimeout timeout) with
    | error err =>
      rw [hos] at hanswer
      exact hanswer.elim
    | ok waitResult =>
      cases waitResult with
      | none =>
        rw [hos] at hanswer
        exact absurd hanswer (not_blocked hfits hs.reached hwaiting)
      | some status =>
        rw [hos] at h hreached
        simp only [answered] at h
        split at h
        next hstatus =>
          cases h
          exact ⟨hreached, hs.own,
            Or.inr (Or.inr (Or.inl ⟨rfl, hstatus ▸ Option.some_ne_none status⟩))⟩
        next => cases h
  · -- The output has been read to its end.
    cases hcaller.symm.trans hcollects
    cases hos : os .waitWithOutput with
    | error err =>
      rw [hos] at hanswer
      exact hanswer.elim
    | ok output =>
      rw [hos] at h hreached
      simp only [answered] at h
      split at h
      next hend =>
        cases h
        obtain ⟨hstatus, hstdout, hstderr, hread, hread'⟩ := hend
        refine ⟨hreached, hs.own, Or.inr (Or.inr (Or.inr ⟨output, rfl, hstatus, ?_, hread, hread'⟩))⟩
        rintro (_ | _)
        · exact hstdout
        · exact hstderr
      next => cases h
  · cases hcaller.symm.trans hret

theorem undisturbed_step {e : Event} (hfits : Fits script capacity)
    (hs : Undisturbed script operation timeout s) (hpatient : Patient script capacity s e)
    (h : step script capacity s e = some s') : Undisturbed script operation timeout s' := by
  have hreached := reached_step hs.reached h
  rcases step_cases h with ⟨-, hspawned, halive, hact⟩ |
    ⟨fd, k, byte, rest, -, hcaller, -, rfl⟩ | ⟨os, i, k, s₁, rfl, hcaller, hanswered, rfl⟩
  · exact undisturbed_act hs hspawned halive hact
  · refine ⟨hreached, hs.own, Or.inr (Or.inr (Or.inl ?_))⟩
    rcases hs.caller with ⟨hstart, -⟩ | ⟨hwaits, -⟩ | hcollects | ⟨output, hret, -⟩
    · cases hcaller.symm.trans hstart
    · cases hcaller.symm.trans hwaits
    · exact hcollects
    · cases hcaller.symm.trans hret
  · exact undisturbed_answer hfits hs hpatient hcaller hanswered hreached

theorem result_own {n : Nat} {status : ExitStatus} {result : Except RunError Output}
    (hexits : Exits script n status) (hs : Undisturbed script operation timeout s)
    (hret : s.caller = .ret result) :
    result = .ok ⟨status, written script .stdout n, written script .stderr n⟩ := by
  rcases hs.caller with ⟨hstart, -⟩ | ⟨hwaits, -⟩ | ⟨hcollects, -⟩ |
    ⟨output, hcaller, hstatus, hpipe, hstdout, hstderr⟩
  · cases hret.symm.trans hstart
  · cases hret.symm.trans hwaits
  · cases hret.symm.trans hcollects
  · obtain ⟨hdone, hown⟩ := hexits.unique ⟨hs.own _ hstatus, hs.reached.acts⟩
    have hbytes : ∀ fd, s.read fd = written script fd n := fun fd => by
      rw [← hdone, ← hs.reached.bytes fd, hpipe fd, List.append_nil]
    cases hret.symm.trans hcaller
    rw [← hown, ← hbytes, ← hbytes, hstdout, hstderr]

/-! ### It can be carried on to an end -/

/-- Some patient run leads to an end. -/
def Finishes (script : Script) (capacity : Fd → Nat) (s : System) : Prop :=
  ∃ es s' result, Along (step script capacity) (Patient script capacity) es s ∧
    run (step script capacity) es s = some s' ∧ s'.caller = .ret result

theorem Finishes.of_step {e : Event} (hpatient : Patient script capacity s e)
    (h : step script capacity s e = some s') (hfinishes : Finishes script capacity s') :
    Finishes script capacity s := by
  obtain ⟨es, s₁, result, halong, hrun, hret⟩ := hfinishes
  exact ⟨e :: es, s₁, result, along_cons h hpatient halong, (run_cons h es).trans hrun, hret⟩

theorem finishes_ret {result : Except RunError Output} (h : s.caller = .ret result) :
    Finishes script capacity s :=
  ⟨[], s, result, trivial, rfl, h⟩

theorem finishes_collecting {status : ExitStatus} (hstatus : s.status = some status)
    (hcaller : s.caller = collectOutput operation timeout false) {left : Nat}
    (hleft : (s.pipe .stdout).length + (s.pipe .stderr).length = left) :
    Finishes script capacity s := by
  induction left generalizing s with
  | zero =>
    have hstdout : s.pipe .stdout = [] := List.length_eq_zero_iff.mp (by omega)
    have hstderr : s.pipe .stderr = [] := List.length_eq_zero_iff.mp (by omega)
    have hanswered : answered s .waitWithOutput
        (.ok ⟨status, s.read .stdout, s.read .stderr⟩) = some s :=
      if_pos ⟨hstatus, hstdout, hstderr, rfl, rfl⟩
    have hstep : step script capacity s
        (.answer (succeeding none ⟨status, s.read .stdout, s.read .stderr⟩)) =
          some { s with caller := .ret (.ok ⟨status, s.read .stdout, s.read .stderr⟩) } := by
      simp only [step, hcaller]
      exact congrArg (Option.map _) hanswered
    refine .of_step ?_ hstep (finishes_ret rfl)
    rintro i k hcaller'
    cases hcaller'.symm.trans hcaller
    trivial
  | succ left ih =>
    have hread : ∀ fd byte rest, s.pipe fd = byte :: rest →
        step script capacity s (.read fd) = some { s with
          pipe := Function.update s.pipe fd rest
          read := Function.update s.read fd (s.read fd ++ [byte]) } := by
      intro fd byte rest hpipe
      simp only [step, hcaller, collectOutput, waitWithOutput, Prog.call_bind, hpipe]
    cases hstdout : s.pipe .stdout with
    | cons byte rest =>
      refine .of_step (e := .read .stdout) trivial (hread .stdout byte rest hstdout)
        (ih hstatus hcaller ?_)
      rw [hstdout, List.length_cons] at hleft
      show rest.length + (s.pipe .stderr).length = left
      omega
    | nil =>
      cases hstderr : s.pipe .stderr with
      | cons byte rest =>
        refine .of_step (e := .read .stderr) trivial (hread .stderr byte rest hstderr)
          (ih hstatus hcaller ?_)
        rw [hstdout, hstderr, List.length_nil, List.length_cons] at hleft
        show (s.pipe .stdout).length + rest.length = left
        rw [hstdout, List.length_nil]
        omega
      | nil =>
        rw [hstdout, hstderr] at hleft
        cases hleft

theorem finishes_exited {status : ExitStatus} (hstatus : s.status = some status)
    (hcaller : s.caller = awaitWorker operation timeout) : Finishes script capacity s := by
  have hanswered : answered s (.waitTimeout timeout) (.ok (some status)) = some s := if_pos hstatus
  have hstep : step script capacity s (.answer (succeeding (some status) emptyOutput)) =
      some { s with caller := collectOutput operation timeout false } := by
    simp only [step, hcaller]
    exact congrArg (Option.map _) hanswered
  refine .of_step ?_ hstep (finishes_collecting hstatus rfl rfl)
  rintro i k hcaller'
  cases hcaller'.symm.trans hcaller
  trivial

theorem finishes_waiting (hfits : Fits script capacity) {n left : Nat} {status : ExitStatus}
    (hexits : Exits script n status) (hs : Reached script operation timeout s)
    (hcaller : s.caller = awaitWorker operation timeout) (hspawned : s.spawned = true)
    (halive : s.status = none) (hleft : s.done + left = n) : Finishes script capacity s := by
  have hstep : step script capacity s .worker = act capacity s (script s.done) :=
    if_pos ⟨hspawned, halive⟩
  have hnot := not_blocked hfits hs ⟨timeout, _, hcaller⟩
  induction left generalizing s with
  | zero =>
    obtain rfl : s.done = n := hleft
    rw [hexits.1] at hstep
    exact .of_step (e := .worker) trivial hstep (finishes_exited rfl hcaller)
  | succ left ih =>
    have hgoes : ∀ s₁, act capacity s (script s.done) = some s₁ → s₁.caller = s.caller →
        s₁.spawned = s.spawned → s₁.status = s.status → s₁.done = s.done + 1 →
        Finishes script capacity s := by
      intro s₁ hs₁ hcaller₁ hspawned₁ hstatus₁ hdone₁
      have hreached := reached_act hs hs₁
      have hcaller' := hcaller₁.trans hcaller
      exact .of_step (e := .worker) trivial (hstep.trans hs₁) (ih hreached hcaller'
        (hspawned₁.trans hspawned) (hstatus₁.trans halive) (by omega)
        (if_pos ⟨hspawned₁.trans hspawned, hstatus₁.trans halive⟩)
        (not_blocked hfits hreached ⟨timeout, _, hcaller'⟩))
    cases hact : script s.done with
    | work => exact hgoes { s with done := s.done + 1 } (by rw [hact]; rfl) rfl rfl rfl rfl
    | write fd byte =>
      have hroom : (s.pipe fd).length < capacity fd := by
        by_contra hfull
        exact hnot ⟨hspawned, halive, fd, byte, hact, Nat.le_of_not_lt hfull⟩
      have hwrite : act capacity s (script s.done) = some { s with
          done := s.done + 1
          pipe := Function.update s.pipe fd (s.pipe fd ++ [byte]) } := by
        rw [hact]
        exact if_pos hroom
      exact hgoes _ hwrite rfl rfl rfl rfl
    | exit status' => exact absurd hact (hexits.2 s.done (by omega) status')

theorem finishes_of_undisturbed (hfits : Fits script capacity) {n : Nat} {status : ExitStatus}
    (hexits : Exits script n status) (hs : Undisturbed script operation timeout s) :
    Finishes script capacity s := by
  have hwaits : ∀ s, Undisturbed script operation timeout s →
      s.caller = awaitWorker operation timeout → s.spawned = true → Finishes script capacity s := by
    intro s hs hcaller hspawned
    cases hstatus : s.status with
    | some status => exact finishes_exited hstatus hcaller
    | none =>
      have hdone : s.done ≤ n := by
        by_contra hgt
        exact hs.reached.acts n (Nat.lt_of_not_le hgt) status hexits.1
      exact finishes_waiting hfits hexits hs.reached hcaller hspawned hstatus
        (Nat.add_sub_of_le hdone)
  rcases hs.caller with ⟨hstart, -, -⟩ | ⟨hcaller, hspawned⟩ | ⟨hcollects, hdead⟩ |
    ⟨output, hret, -⟩
  · have hpatient : Patient script capacity s (.answer (succeeding none emptyOutput)) := by
      rintro i k hcaller'
      cases hcaller'.symm.trans hstart
      trivial
    have hstep : step script capacity s (.answer (succeeding none emptyOutput)) =
        some { s with spawned := true, caller := awaitWorker operation timeout } := by
      simp only [step, hstart]
      rfl
    exact .of_step hpatient hstep
      (hwaits _ (undisturbed_step hfits hs hpatient hstep) rfl rfl)
  · exact hwaits s hs hcaller hspawned
  · obtain ⟨status, hstatus⟩ := Option.ne_none_iff_exists'.mp hdead
    exact finishes_collecting hstatus hcollects rfl
  · exact finishes_ret hret

end Runs

/-- **Waiting before reading is safe just for a small output**: for any order of the steps the worker is
never blocked while the caller waits for it, and one that exits is reported with its own status, if and
only if everything that it writes to a stream fits into the pipe. -/
theorem waiting_safe_iff (operation : WorkerOperation) (timeout : Nat) :
    NeverStuck script capacity operation timeout ∧
      ReportsOwnStatus script capacity operation timeout ↔ Fits script capacity := by
  constructor
  · rintro ⟨hnever, -⟩ fd n hacts
    exact (run_waitingAt hnever hacts).2 fd
  · intro hfits
    refine ⟨fun es s hrun ⟨hblocked, hwaiting⟩ =>
      not_blocked hfits (reached_run hrun) hwaiting hblocked, ?_⟩
    intro n status hexits es s halong hrun
    have hs : Undisturbed script operation timeout s :=
      run_invariant (fun _ _ _ h hpatient hstep => undisturbed_step hfits h hpatient hstep)
        undisturbed_start halong hrun
    exact ⟨fun result => result_own hexits hs, finishes_of_undisturbed hfits hexits hs⟩

/-- A worker that writes 65537 bytes to its standard error, and exits. -/
def verbose : Script := fun n => if n < 65537 then .write .stderr 0 else .exit (.code 0)

theorem length_written_verbose {n : Nat} (h : n ≤ 65537) : (written verbose .stderr n).length = n := by
  induction n with
  | zero => rfl
  | succ n ih =>
    have hact : verbose n = .write .stderr 0 := if_pos h
    rw [written_succ_write hact, if_pos rfl, List.length_append, ih (Nat.le_of_succ_le h)]
    rfl

/-- It is stuck at a pipe of 65536 bytes. -/
theorem waiting_unsafe_verbose : ¬ ∀ (script : Script) (capacity : Fd → Nat)
    (operation : WorkerOperation) (timeout : Nat),
    NeverStuck script capacity operation timeout ∧
      ReportsOwnStatus script capacity operation timeout := by
  intro h
  have hacts : ∀ m < 65537, ∀ status, verbose m ≠ .exit status := fun m hm status heq =>
    nomatch (show verbose m = .write .stderr 0 from if_pos hm).symm.trans heq
  have hlength := (run_waitingAt (h verbose (fun _ => 65536) .setup 180000).1 hacts).2 .stderr
  rw [length_written_verbose (Nat.le_refl _)] at hlength
  omega

end PgEmbeddedSetup.WorkerProcess
