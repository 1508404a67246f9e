import PgEmbeddedSetup.Base.Crash
import PgEmbeddedSetup.Cluster.Jobs
import PgEmbeddedSetup.Cluster.PidFile

/-!
# What a failed start-up leaves running

A start-up is followed with every outcome of its steps, and with the server that it launches: in the
process or by a worker, which may fail or be killed after the launch. An error of `start_postgres`
drops the value in the process, and that is all. `failed_startup_iff` says for which outcomes a server
is left running.
-/

namespace PgEmbeddedSetup.Startup

open Program Lexical Postgres
open Cluster (FilePath OsString PidFileAnswer WorkerOperation)

/-! ### The worker -/

/-- What happens to a worker: its answers, of which each kind is asked for once, with none where it is
killed, whether its start has launched a server where no answer says so, and whether the status is
`Started` when its value is dropped. -/
structure WorkerOutcomes where
  answer : (i : WorkerInstr) → Option i.Answer
  launched : Bool
  started : Bool

/-- Whether a server that was launched runs after a start. -/
def runsAfterStart (answer : Option (Except String Unit)) (launched running : Bool) : Bool :=
  match answer with
  | some (.ok ()) => true
  | _ => running || launched

namespace WorkerOutcomes

variable {α : Type} (w : WorkerOutcomes)

def after (i : WorkerInstr) (running : Bool) : Bool :=
  match i with
  | .start => runsAfterStart (w.answer .start) w.launched running
  | .dropPostgres _ => running && !w.started
  | _ => running

/-- The result of the worker, or none if it is killed, and whether the server runs. -/
def play : WorkerCode α → Bool → Option α × Bool
  | .ret a, running => (some a, running)
  | .exec i k, running =>
    match w.answer i with
    | none => (none, w.after i running)
    | some answer => play (k answer) (w.after i running)

end WorkerOutcomes

/-! ### The start-up -/

/-- The outcome of each step. A worker comes with the error that the caller may have with it even so,
and the reads of `postmaster.pid` are numbered. -/
structure Outcomes where
  prepare : Except String Unit
  runtime : Except String Unit
  cached : Option OsString
  installedDir : Option FilePath
  setup : Except String FilePath
  start : Except String Unit
  launched : Bool
  started : Bool
  worker : WorkerOperation → WorkerOutcomes
  waitError : WorkerOperation → Option String
  reads : Nat → PidFileAnswer

/-- Whether the server runs that the start-up has launched, and how often the pid file was read. -/
structure System where
  running : Bool
  reads : Nat

/-- `invoke_as_root`, for a worker that has ended. -/
def invoked (waitError : Option String) (result : Option (Except String Unit)) :
    Except String Unit :=
  match waitError with
  | some err => .error err
  | none => result.getD (.error "worker killed")

/-- A value whose status is `Started` stops its server when it is dropped. -/
def serve (s : System) (i : Instr) (o : Outcomes) : i.Answer × System :=
  match i with
  | .cluster (.readPidFile _) => (o.reads s.reads, { s with reads := s.reads + 1 })
  | .cluster .buildRuntime => (o.runtime, s)
  | .cluster _ => (default, s)
  | .prepare => (o.prepare, s)
  | .useBinaryCache => (o.cached, s)
  | .resolveInstalledDir => (o.installedDir, s)
  | .setup _ => (o.setup, s)
  | .start _ =>
    (o.start, { s with running := runsAfterStart (some o.start) o.launched s.running })
  | .dropPostgres _ => ((), { s with running := s.running && !o.started })
  | .invokeAsRoot operation settings =>
    let ended := (o.worker operation).play (Operation.runWorker operation settings) s.running
    (invoked (o.waitError operation) ended.1, { s with running := ended.2 })
  | .readPort => (.ok (), s)
  | .worker _ => (none, s)
  | .populateBinaryCache | .spawn _ | .spawnBlocking _ => ((), s)

/-- The reader of the port in place of the request to it. -/
def refine (dataDir : FilePath) : (i : Instr) → Code i.Answer
  | .readPort => do
    match ← lift (Cluster.readPostmasterPortWithRetry dataDir) with
    | .error err => pure (.error err)
    | .ok _ => pure (.ok ())
  | i => call i

/-- A program of the start-up with these outcomes. -/
def playFrom {α : Type} (o : Outcomes) (dataDir : FilePath) (p : Code α) (s : System) : α × System :=
  Crash.finish serve (fun _ => o) (p.interp (refine dataDir)) s

/-- Before the start-up it has no server. -/
def System.init : System := ⟨false, 0⟩

/-- `start_postgres` and `new_split` leave no server running when they return an error. -/
def LeavesNothing (o : Outcomes) (bootstrap : TestBootstrapSettings) : Prop :=
  let started := playFrom o bootstrap.settings.dataDir (startPostgres bootstrap) .init
  let split := playFrom o bootstrap.settings.dataDir (newSplit false bootstrap) .init
  ((∃ err, started.1 = .error err) → started.2.running = false) ∧
    (split.1 = .nothing → split.2.running = false)

/-! ### When a server is left -/

/-- The bootstrap settings after the cache was tried. -/
def afterCache (cached : Option OsString) (bootstrap : TestBootstrapSettings) :
    TestBootstrapSettings :=
  match cached with
  | none => bootstrap
  | some version => { bootstrap with
      settings := { bootstrap.settings with
        installationDir := bootstrap.settings.installationDir.join (Path.ofName version) } }

namespace WorkerOutcomes

variable (w : WorkerOutcomes)

/-- The setup that is part of every start ends well. -/
def SetupDone (dataDir : FilePath) : Prop :=
  w.answer .isSetupComplete = some true ∨
    w.answer .isSetupComplete = some false ∧ w.answer .setup = some (.ok ()) ∧
      (w.answer .needsReset = some (.ok false) ∨ w.answer .needsReset = some (.ok true) ∧
        w.answer (.resetDataDir dataDir) = some (.ok ()))

/-- The worker comes to the end of a setup. -/
def SetsUp (settings : Settings) : Prop :=
  w.answer .load = some (.ok ()) ∧ w.SetupDone settings.dataDir ∧
    w.answer (.dropPostgres settings) = some ()

/-- The worker comes to start a server, as none is running. -/
def Starts (dataDir : FilePath) : Prop :=
  w.answer .load = some (.ok ()) ∧ w.SetupDone dataDir ∧ w.answer .isStarted = some false

/-- A start that fails has launched a server all the same, and the worker is killed in it, or drops its
value with another status than `Started`. -/
def FailsAfterLaunch : Prop :=
  w.launched = true ∧ (w.answer .start = none ∨
    (∃ err, w.answer .start = some (.error err)) ∧ w.started = false)

end WorkerOutcomes

/-- The pid file is not there, or has no port yet. -/
def NoPort (answer : PidFileAnswer) : Prop :=
  answer = .notFound ∨
    ∃ text, answer = .contents text ∧ Cluster.parsePortFromPidContents text = none

/-- One of so many reads of the pid file fails, and none before it gives the port. -/
def ReadFails (reads : Nat → PidFileAnswer) (attempts : Nat) : Prop :=
  ∃ j < attempts, (∃ err, reads j = .failed err) ∧ ∀ i < j, NoPort (reads i)

/-- Where a worker starts the server, the start is reported as failed, or else a read of the pid file
fails. In the process the start fails. -/
def FailsWithServer (o : Outcomes) (bootstrap : TestBootstrapSettings) : Prop :=
  match bootstrap.privileges with
  | .root =>
    (o.waitError .setup = none ∧
      (o.worker .setup).SetsUp (afterCache o.cached bootstrap).settings) ∧
    (o.worker .start).Starts bootstrap.settings.dataDir ∧
    ((o.worker .start).FailsAfterLaunch ∨ (o.worker .start).answer .start = some (.ok ()) ∧
      (o.waitError .start ≠ none ∨ ReadFails o.reads Cluster.postmasterPortAttempts))
  | .unprivileged =>
    (∃ dir, o.setup = .ok dir) ∧ (∃ err, o.start = .error err) ∧ o.launched = true ∧
      o.started = false

/-! ### The worker's part -/

namespace WorkerOutcomes

variable {w : WorkerOutcomes} {α β : Type} {running : Bool} {settings : Settings}

theorem play_bind (p : WorkerCode α) (f : α → WorkerCode β) (running : Bool) :
    w.play (p >>= f) running =
      match w.play p running with
      | (none, r) => (none, r)
      | (some a, r) => w.play (f a) r := by
  induction p generalizing running with
  | ret a => rfl
  | exec i k ih =>
    rw [Prog.exec_bind, play, play]
    cases w.answer i with
    | none => rfl
    | some answer => exact ih answer _

theorem play_call (i : WorkerInstr) (running : Bool) :
    w.play (Operation.call i) running = (w.answer i, w.after i running) := by
  unfold Operation.call Prog.call
  rw [play]
  cases w.answer i <;> rfl

theorem play_runPostgresSetup (w : WorkerOutcomes) (settings : Settings) (running : Bool) :
    (w.play (Operation.runPostgresSetup settings) running).2 = running ∧
      ((w.play (Operation.runPostgresSetup settings) running).1 = some (.ok ()) ↔
        w.SetupDone settings.dataDir) := by
  unfold Operation.runPostgresSetup SetupDone
  rw [play_bind, play_call]
  cases hcomplete : w.answer .isSetupComplete with
  | none => exact ⟨rfl, by simp⟩
  | some complete =>
    cases complete with
    | true => exact ⟨rfl, by simp [play]⟩
    | false =>
      simp only [Bool.false_eq_true, if_false]
      rw [play_bind, play_call]
      cases hreset : w.answer .needsReset with
      | none => exact ⟨rfl, by simp⟩
      | some needsReset =>
        cases needsReset with
        | error err => exact ⟨rfl, by simp [play]⟩
        | ok reset =>
          cases reset with
          | false =>
            show (w.play (Operation.call .setup) running).2 = running ∧
              ((w.play (Operation.call .setup) running).1 = some (.ok ()) ↔ _)
            rw [play_call]
            exact ⟨rfl, by simp⟩
          | true =>
            simp only
            rw [play_bind, play_call]
            cases hdone : w.answer (.resetDataDir settings.dataDir) with
            | none => exact ⟨rfl, by simp⟩
            | some done =>
              cases done with
              | error err => exact ⟨rfl, by simp [play]⟩
              | ok done =>
                show (w.play (Operation.call .setup) running).2 = running ∧
                  ((w.play (Operation.call .setup) running).1 = some (.ok ()) ↔ _)
                rw [play_call]
                exact ⟨rfl, by simp⟩

theorem play_setup (w : WorkerOutcomes) (settings : Settings) :
    (w.play (Operation.runWorker .setup settings) false).2 = false ∧
      ((w.play (Operation.runWorker .setup settings) false).1 = some (.ok ()) ↔
        w.SetsUp settings) := by
  obtain ⟨hrunning, hresult⟩ := play_runPostgresSetup w settings false
  unfold Operation.runWorker SetsUp
  rw [play_bind, play_call]
  cases hload : w.answer .load with
  | none => exact ⟨rfl, by simp⟩
  | some load =>
    cases load with
    | error err => exact ⟨rfl, by simp [play]⟩
    | ok load =>
      simp only [after, Operation.runSetupOp]
      rw [play_bind]
      cases hplay : w.play (Operation.runPostgresSetup settings) false with
      | mk result running =>
        rw [hplay] at hrunning hresult
        obtain rfl := hrunning
        cases result with
        | none =>
          rw [← hresult]
          exact ⟨rfl, by simp⟩
        | some result =>
          simp only
          rw [play_bind, play_call]
          cases hdrop : w.answer (.dropPostgres settings) with
          | none => exact ⟨rfl, by simp⟩
          | some _ =>
            rw [← hresult]
            exact ⟨rfl, by simp [play]⟩

/-- The end of a start operation: the start itself, and the drop after one that fails. -/
def startOrDrop (settings : Settings) : WorkerCode (Except String Unit) := do
  match ← Operation.call .start with
  | .error err => do
    Operation.call (.dropPostgres settings)
    pure (.error err)
  | .ok () => pure (.ok ())

theorem play_startOrDrop (w : WorkerOutcomes) (settings : Settings) :
    ((w.play (startOrDrop settings) false).2 = true ↔
      w.FailsAfterLaunch ∨ w.answer .start = some (.ok ())) ∧
    (w.answer .start = some (.ok ()) ↔
      (w.play (startOrDrop settings) false).1 = some (.ok ())) := by
  unfold startOrDrop
  rw [play_bind, play_call]
  unfold FailsAfterLaunch after runsAfterStart
  cases hstart : w.answer .start with
  | none => exact ⟨by simp, by simp⟩
  | some start =>
    cases start with
    | ok _ => exact ⟨by simp [play], by simp [play]⟩
    | error err =>
      simp only
      rw [play_bind, play_call]
      unfold after
      cases w.answer (.dropPostgres settings) <;> cases w.launched <;> cases w.started <;>
        simp [play]

/-- **What the worker leaves**: a server that it has started, or one that its failed start has launched
and that nothing stops. A failure is not reported as a success. -/
theorem play_start (w : WorkerOutcomes) (settings : Settings) :
    ((w.play (Operation.runWorker .start settings) false).2 = true ↔
      w.Starts settings.dataDir ∧ (w.FailsAfterLaunch ∨ w.answer .start = some (.ok ()))) ∧
    (w.Starts settings.dataDir → (w.answer .start = some (.ok ()) ↔
      (w.play (Operation.runWorker .start settings) false).1 = some (.ok ()))) := by
  obtain ⟨hrunning, hresult⟩ := play_runPostgresSetup w settings false
  unfold Operation.runWorker Starts
  rw [play_bind, play_call]
  cases hload : w.answer .load with
  | none => exact ⟨by simp [after], by simp⟩
  | some load =>
    cases load with
    | error err => exact ⟨by simp [play, after], by simp⟩
    | ok load =>
      simp only [after, Operation.runStartOp, Operation.ensurePostgresStarted]
      rw [play_bind, play_bind]
      cases hplay : w.play (Operation.runPostgresSetup settings) false with
      | mk result running =>
        rw [hplay] at hrunning hresult
        obtain rfl := hrunning
        rw [← hresult]
        cases result with
        | none => exact ⟨by simp, by simp⟩
        | some result =>
          cases result with
          | error err =>
            simp only [Prog.pure_eq, play]
            rw [play_bind, play_call]
            refine ⟨?_, fun h => by simp at h⟩
            cases w.answer (.dropPostgres settings) <;> simp [after, play]
          | ok _ =>
            simp only
            rw [play_bind, play_call]
            cases hstarted : w.answer .isStarted with
            | none => exact ⟨by simp [after], by simp⟩
            | some started =>
              cases started with
              | true => exact ⟨by simp [after, play], by simp⟩
              | false =>
                simp only [after, Bool.false_eq_true, if_false]
                have hlaunch := play_startOrDrop w settings
                unfold startOrDrop at hlaunch
                rw [play_bind] at hlaunch
                simp only [true_and, true_imp_iff]
                exact hlaunch

end WorkerOutcomes

/-! ### The port -/

section Port

variable {o : Outcomes} {s : System} {dataDir : FilePath}

def portAnswer : PidFileAnswer → Except String (Option Nat)
  | .contents text => .ok (Cluster.parsePortFromPidContents text)
  | .notFound => .ok none
  | .failed err => .error ("failed to read postmaster pid: " ++ err)

theorem readPostmasterPort_eq (dataDir : FilePath) : Cluster.readPostmasterPort dataDir =
    .exec (.readPidFile dataDir) fun (answer : PidFileAnswer) => .ret (portAnswer answer) := by
  unfold Cluster.readPostmasterPort Cluster.readPidFileContents
  rw [Prog.exec_bind]
  congr 1
  funext answer
  cases answer <;> rfl

theorem readFails_zero (reads : Nat → PidFileAnswer) : ¬ ReadFails reads 0 :=
  fun ⟨_, hj, _⟩ => Nat.not_lt_zero _ hj

theorem readFails_succ {reads : Nat → PidFileAnswer} {attempts : Nat} :
    ReadFails reads (attempts + 1) ↔ (∃ err, reads 0 = .failed err) ∨
      NoPort (reads 0) ∧ ReadFails (fun j => reads (j + 1)) attempts := by
  constructor
  · rintro ⟨j, hj, hfailed, hbefore⟩
    cases j with
    | zero => exact Or.inl hfailed
    | succ j =>
      exact Or.inr ⟨hbefore 0 (Nat.succ_pos j), j, Nat.lt_of_succ_lt_succ hj, hfailed,
        fun i hi => hbefore (i + 1) (Nat.succ_lt_succ hi)⟩
  · rintro (hfailed | ⟨hfirst, j, hj, hfailed, hbefore⟩)
    · exact ⟨0, Nat.succ_pos attempts, hfailed, fun i hi => absurd hi (Nat.not_lt_zero i)⟩
    · refine ⟨j + 1, Nat.succ_lt_succ hj, hfailed, fun i hi => ?_⟩
      cases i with
      | zero => exact hfirst
      | succ i => exact hbefore i (Nat.lt_of_succ_lt_succ hi)

/-- One attempt. -/
theorem finish_attempt (o : Outcomes) (dataDir : FilePath) (attempts : Nat) (s : System) :
    Crash.finish serve (fun _ => o) (lift (Cluster.readPortAttempts dataDir (attempts + 1))) s =
      match portAnswer (o.reads s.reads) with
      | .error err => (.error err, { s with reads := s.reads + 1 })
      | .ok (some port) => (.ok (some port), { s with reads := s.reads + 1 })
      | .ok none => Crash.finish serve (fun _ => o) (lift (Cluster.readPortAttempts dataDir attempts))
          { s with reads := s.reads + 1 } := by
  rw [Cluster.readPortAttempts, readPostmasterPort_eq]
  show Crash.finish serve (fun _ => o) (lift (match portAnswer (o.reads s.reads) with
    | .error err => pure (.error err)
    | .ok (some port) => pure (.ok (some port))
    | .ok none => .exec (.sleep Cluster.postmasterPortDelay) fun _ =>
        Cluster.readPortAttempts dataDir attempts)) { s with reads := s.reads + 1 } = _
  cases portAnswer (o.reads s.reads) with
  | error err => rfl
  | ok port => cases port <;> rfl

theorem finish_readPortAttempts (o : Outcomes) (dataDir : FilePath) (attempts : Nat) (s : System) :
    (Crash.finish serve (fun _ => o) (lift (Cluster.readPortAttempts dataDir attempts)) s).2.running =
        s.running ∧
      ((∃ err, (Crash.finish serve (fun _ => o)
        (lift (Cluster.readPortAttempts dataDir attempts)) s).1 = .error err) ↔
        ReadFails (fun j => o.reads (s.reads + j)) attempts) := by
  induction attempts generalizing s with
  | zero => exact ⟨rfl, iff_of_false (fun ⟨_, h⟩ => by cases h) (readFails_zero _)⟩
  | succ attempts ih =>
    obtain ⟨hrunning, hfails⟩ := ih { s with reads := s.reads + 1 }
    have hshift : (fun j => o.reads (s.reads + 1 + j)) = fun j => o.reads (s.reads + (j + 1)) := by
      funext j
      rw [Nat.add_assoc, Nat.add_comm 1 j]
    rw [hshift] at hfails
    rw [finish_attempt, readFails_succ, Nat.add_zero]
    unfold NoPort
    cases hread : o.reads s.reads with
    | failed err => exact ⟨rfl, iff_of_true ⟨_, rfl⟩ (Or.inl ⟨err, rfl⟩)⟩
    | notFound =>
      refine ⟨hrunning, hfails.trans ?_⟩
      simp
    | contents text =>
      cases hport : Cluster.parsePortFromPidContents text with
      | none =>
        simp only [portAnswer, hport]
        refine ⟨hrunning, hfails.trans ?_⟩
        simp [hport]
      | some port =>
        simp only [portAnswer, hport]
        refine ⟨by trivial, iff_of_false (fun ⟨_, h⟩ => by cases h) ?_⟩
        simp [hport]

end Port

/-! ### The caller's part -/

section Caller

variable {o : Outcomes} {dataDir : FilePath} {α β : Type} {bootstrap : TestBootstrapSettings}
  {s : System}

theorem playFrom_bind (p : Code α) (f : α → Code β) (s : System) :
    playFrom o dataDir (p >>= f) s =
      playFrom o dataDir (f (playFrom o dataDir p s).1) (playFrom o dataDir p s).2 := by
  unfold playFrom
  rw [Prog.interp_bind, Crash.finish_bind]

theorem playFrom_call {i : Instr} (hi : i ≠ .readPort) (s : System) :
    playFrom o dataDir (call i) s = serve s i o := by
  unfold playFrom call Prog.call
  rw [Prog.interp, show refine dataDir i = call i by cases i <;> first | rfl | exact absurd rfl hi]
  rfl

theorem playFrom_readPort (o : Outcomes) (dataDir : FilePath) (s : System) :
    (playFrom o dataDir (call .readPort) s).2.running = s.running ∧
      ((∃ err, (playFrom o dataDir (call .readPort) s).1 = .error err) ↔
        ReadFails (fun j => o.reads (s.reads + j)) Cluster.postmasterPortAttempts) := by
  have hcode : (call .readPort).interp (refine dataDir) = refine dataDir .readPort :=
    Prog.bind_ret _
  obtain ⟨hrunning, hfails⟩ :=
    finish_readPortAttempts o dataDir Cluster.postmasterPortAttempts s
  unfold playFrom
  rw [hcode, refine, Crash.finish_bind, Cluster.readPostmasterPortWithRetry]
  rw [← hfails]
  cases hread : (Crash.finish serve (fun _ => o)
      (lift (Cluster.readPortAttempts dataDir Cluster.postmasterPortAttempts)) s).1 with
  | error err => exact ⟨hrunning, iff_of_true ⟨err, rfl⟩ ⟨err, rfl⟩⟩
  | ok port =>
    exact ⟨hrunning, iff_of_false (fun ⟨_, h⟩ => by cases h) (fun ⟨_, h⟩ => by cases h)⟩

theorem playFrom_refresh (o : Outcomes) (dataDir : FilePath) (hroot : bootstrap.privileges = .root)
    (s : System) :
    ∃ refreshed, playFrom o dataDir (refreshWorkerInstallationDir bootstrap) s = (refreshed, s) ∧
      refreshed.privileges = .root ∧ refreshed.settings.dataDir = bootstrap.settings.dataDir := by
  unfold refreshWorkerInstallationDir
  rw [if_neg (not_not_intro hroot), playFrom_bind, playFrom_call (by nofun), serve]
  cases o.installedDir with
  | none => exact ⟨bootstrap, rfl, hroot, rfl⟩
  | some installedDir => exact ⟨_, rfl, hroot, rfl⟩

theorem invoked_eq_ok {waitError : Option String} {result : Option (Except String Unit)} :
    invoked waitError result = .ok () ↔ waitError = none ∧ result = some (.ok ()) := by
  unfold invoked
  cases waitError with
  | some err => simp
  | none =>
    cases result with
    | none => simp
    | some result => simp

theorem ok_or_error (result : Except String Unit) : result = .ok () ∨ ∃ err, result = .error err := by
  cases result with
  | ok _ => exact Or.inl rfl
  | error err => exact Or.inr ⟨err, rfl⟩

/-- The last part of `invoke_lifecycle_root`. -/
def startRoot (bootstrap : TestBootstrapSettings) : Code (Except String TestBootstrapSettings) := do
  match ← Postgres.invokeAsRoot .start bootstrap with
  | .error err => pure (.error err)
  | .ok () => do
    match ← refreshWorkerPort bootstrap with
    | .error err => pure (.error err)
    | .ok () => pure (.ok bootstrap)

/-- It fails where the start is reported as failed, or the port cannot be read. The server is what the
worker has left. -/
theorem playFrom_startRoot (o : Outcomes) (dataDir : FilePath)
    (hroot : bootstrap.privileges = .root) (hs : s.running = false) (hreads : s.reads = 0) :
    ((playFrom o dataDir (startRoot bootstrap) s).2.running =
      ((o.worker .start).play (Operation.runWorker .start bootstrap.settings) false).2) ∧
    ((∃ err, (playFrom o dataDir (startRoot bootstrap) s).1 = .error err) ↔
      (o.waitError .start = none →
        ((o.worker .start).play (Operation.runWorker .start bootstrap.settings) false).1 ≠
          some (.ok ())) ∨ ReadFails o.reads Cluster.postmasterPortAttempts) := by
  unfold startRoot
  rw [playFrom_bind, Postgres.invokeAsRoot, playFrom_call (by nofun), serve, hs]
  generalize (o.worker .start).play (Operation.runWorker .start bootstrap.settings) false = ended
  simp only
  rcases ok_or_error (invoked (o.waitError .start) ended.1) with hok | ⟨err, herr⟩
  · rw [hok]
    obtain ⟨hwait, hresult⟩ := invoked_eq_ok.mp hok
    simp only
    rw [playFrom_bind, refreshWorkerPort, if_neg (not_not_intro hroot)]
    obtain ⟨hrunning, hfails⟩ := playFrom_readPort o dataDir ⟨ended.2, s.reads⟩
    have hindex : (fun j => o.reads (s.reads + j)) = o.reads := by
      funext j
      rw [hreads, Nat.zero_add]
    rw [hindex] at hfails
    rw [or_iff_right fun h => h hwait hresult, ← hfails]
    cases hread : (playFrom o dataDir (call .readPort) ⟨ended.2, s.reads⟩).1 with
    | error err => exact ⟨hrunning, iff_of_true ⟨err, rfl⟩ ⟨err, rfl⟩⟩
    | ok _ => exact ⟨hrunning, iff_of_false (fun ⟨_, h⟩ => by cases h) (fun ⟨_, h⟩ => by cases h)⟩
  · rw [herr]
    refine ⟨rfl, iff_of_true ⟨err, rfl⟩ (Or.inl fun hwait hresult => ?_)⟩
    cases herr.symm.trans (invoked_eq_ok.mpr ⟨hwait, hresult⟩)

theorem WorkerOutcomes.FailsAfterLaunch.not_ok {w : WorkerOutcomes} (h : w.FailsAfterLaunch) :
    w.answer .start ≠ some (.ok ()) := by
  intro hok
  rcases h.2 with hnone | ⟨⟨err, herr⟩, -⟩
  · cases hok.symm.trans hnone
  · cases hok.symm.trans herr

/-- The lifecycle with workers fails with a server running just in these cases. -/
theorem playFrom_invokeLifecycleRoot (o : Outcomes) (dataDir : FilePath)
    (hroot : bootstrap.privileges = .root) (hs : s.running = false) (hreads : s.reads = 0) :
    ((∃ err, (playFrom o dataDir (invokeLifecycleRoot bootstrap) s).1 = .error err) ∧
      (playFrom o dataDir (invokeLifecycleRoot bootstrap) s).2.running = true) ↔
    (o.waitError .setup = none ∧ (o.worker .setup).SetsUp bootstrap.settings) ∧
      (o.worker .start).Starts bootstrap.settings.dataDir ∧
      ((o.worker .start).FailsAfterLaunch ∨ (o.worker .start).answer .start = some (.ok ()) ∧
        (o.waitError .start ≠ none ∨ ReadFails o.reads Cluster.postmasterPortAttempts)) := by
  unfold invokeLifecycleRoot
  rw [playFrom_bind, Postgres.invokeAsRoot, playFrom_call (by nofun), serve, hs]
  obtain ⟨hquiet, hsets⟩ := (o.worker .setup).play_setup bootstrap.settings
  rw [← hsets, ← invoked_eq_ok]
  generalize (o.worker .setup).play (Operation.runWorker .setup bootstrap.settings) false =
    ended at hquiet
  rcases ok_or_error (invoked (o.waitError .setup) ended.1) with hok | ⟨err, herr⟩
  · simp only [hok, true_and]
    rw [playFrom_bind]
    obtain ⟨refreshed, hrefreshed, hroot', hdataDir⟩ :=
      playFrom_refresh o dataDir hroot ⟨ended.2, s.reads⟩
    rw [hrefreshed]
    obtain ⟨hrunning, herror⟩ :=
      playFrom_startRoot (s := ⟨ended.2, s.reads⟩) o dataDir hroot' hquiet hreads
    obtain ⟨hleft, hreported⟩ := (o.worker .start).play_start refreshed.settings
    show (∃ err, (playFrom o dataDir (startRoot refreshed) _).1 = .error err) ∧
      (playFrom o dataDir (startRoot refreshed) _).2.running = true ↔ _
    rw [hrunning, herror, hleft, hdataDir]
    rw [hdataDir] at hreported
    constructor
    · rintro ⟨hfails, hstarts, hlaunched | hstarted⟩
      · exact ⟨hstarts, Or.inl hlaunched⟩
      · refine ⟨hstarts, Or.inr ⟨hstarted, hfails.imp_left fun h hwait => ?_⟩⟩
        exact h hwait ((hreported hstarts).mp hstarted)
    · rintro ⟨hstarts, hlaunched | ⟨hstarted, hfails⟩⟩
      · refine ⟨Or.inl fun _ hresult => ?_, hstarts, Or.inl hlaunched⟩
        exact hlaunched.not_ok ((hreported hstarts).mpr hresult)
      · exact ⟨hfails.imp_left fun h hwait => absurd hwait h, hstarts, Or.inr hstarted⟩
  · simp only [herr]
    refine iff_of_false (fun h => ?_) fun h => by cases h.1
    cases hquiet.symm.trans h.2

theorem playFrom_setupEmbedded (embedded : Settings) (s : System) :
    playFrom o dataDir (setupEmbedded embedded) s =
      match o.setup with
      | .error err => ((embedded, .error err), s)
      | .ok installationDir => (({ embedded with installationDir }, .ok ()), s) := by
  unfold setupEmbedded
  rw [playFrom_bind, playFrom_call (by nofun), serve]
  cases o.setup <;> rfl

theorem playFrom_invokeLifecycle (hroot : bootstrap.privileges ≠ .root) (embedded : Settings)
    (s : System) :
    playFrom o dataDir (invokeLifecycle bootstrap embedded) s =
      match o.setup with
      | .error err => ((embedded, .error err), s)
      | .ok installationDir => (({ embedded with installationDir }, o.start),
          { s with running := runsAfterStart (some o.start) o.launched s.running }) := by
  unfold invokeLifecycle refreshWorkerInstallationDir refreshWorkerPort
  rw [if_pos hroot, playFrom_bind, playFrom_setupEmbedded]
  cases o.setup with
  | error err => rfl
  | ok installationDir =>
    simp only [if_pos hroot, Prog.pure_eq, Prog.ret_bind]
    rw [playFrom_bind, playFrom_call (by nofun), serve]
    cases o.start <;> rfl

theorem playFrom_lifecycle_unprivileged (hprivileges : bootstrap.privileges = .unprivileged)
    (hs : s.running = false) :
    ((∃ err, (playFrom o dataDir (handlePrivilegeLifecycle bootstrap) s).1 = .error err) ∧
      (playFrom o dataDir (handlePrivilegeLifecycle bootstrap) s).2.running = true) ↔
    (∃ dir, o.setup = .ok dir) ∧ (∃ err, o.start = .error err) ∧ o.launched = true ∧
      o.started = false := by
  have hroot : bootstrap.privileges ≠ .root := by
    rw [hprivileges]
    nofun
  unfold handlePrivilegeLifecycle
  rw [if_neg hroot, playFrom_bind, playFrom_invokeLifecycle hroot]
  cases hsetup : o.setup with
  | error err =>
    simp only
    rw [playFrom_bind, playFrom_call (by nofun), serve, hs]
    exact iff_of_false (fun h => by cases h.2) fun h => by cases h.1.choose_spec
  | ok installationDir =>
    cases hstart : o.start with
    | error err =>
      simp only
      rw [playFrom_bind, playFrom_call (by nofun), serve, hs]
      simp [runsAfterStart, playFrom, Prog.interp, Crash.finish]
    | ok _ =>
      exact iff_of_false (fun h => by cases h.1.choose_spec) fun h => by cases h.2.1.choose_spec

theorem playFrom_tryUseBinaryCache (o : Outcomes) (dataDir : FilePath)
    (bootstrap : TestBootstrapSettings) (s : System) :
    playFrom o dataDir (tryUseBinaryCache bootstrap) s =
      ((o.cached.isSome, afterCache o.cached bootstrap), s) := by
  unfold tryUseBinaryCache afterCache
  rw [playFrom_bind, playFrom_call (by nofun), serve]
  cases o.cached <;> rfl

theorem afterCache_privileges (cached : Option OsString) (bootstrap : TestBootstrapSettings) :
    (afterCache cached bootstrap).privileges = bootstrap.privileges := by
  cases cached <;> rfl

theorem afterCache_dataDir (cached : Option OsString) (bootstrap : TestBootstrapSettings) :
    (afterCache cached bootstrap).settings.dataDir = bootstrap.settings.dataDir := by
  cases cached <;> rfl

theorem playFrom_lifecycle (o : Outcomes) (dataDir : FilePath) (bootstrap : TestBootstrapSettings)
    (hs : s.running = false) (hreads : s.reads = 0) :
    ((∃ err, (playFrom o dataDir
        (handlePrivilegeLifecycle (afterCache o.cached bootstrap)) s).1 = .error err) ∧
      (playFrom o dataDir
        (handlePrivilegeLifecycle (afterCache o.cached bootstrap)) s).2.running = true) ↔
    FailsWithServer o bootstrap := by
  have hprivileges := afterCache_privileges o.cached bootstrap
  unfold FailsWithServer
  cases hcase : bootstrap.privileges with
  | root =>
    rw [hcase] at hprivileges
    have hlifecycle := playFrom_invokeLifecycleRoot o dataDir hprivileges hs hreads
    rw [afterCache_dataDir] at hlifecycle
    simp only
    rw [← hlifecycle, handlePrivilegeLifecycle, if_pos hprivileges, playFrom_bind]
    cases (playFrom o dataDir (invokeLifecycleRoot (afterCache o.cached bootstrap)) s).1 with
    | error err => exact and_congr_left' (iff_of_true ⟨err, rfl⟩ ⟨err, rfl⟩)
    | ok started =>
      exact and_congr_left' (iff_of_false (fun ⟨_, h⟩ => by cases h) fun ⟨_, h⟩ => by cases h)
  | unprivileged =>
    rw [hcase] at hprivileges
    exact playFrom_lifecycle_unprivileged hprivileges hs

theorem playFrom_startPostgres (o : Outcomes) (dataDir : FilePath)
    (bootstrap : TestBootstrapSettings) (hs : s.running = false) (hreads : s.reads = 0) :
    ((∃ err, (playFrom o dataDir (startPostgres bootstrap) s).1 = .error err) ∧
      (playFrom o dataDir (startPostgres bootstrap) s).2.running = true) ↔
    FailsWithServer o bootstrap := by
  have hlifecycle := playFrom_lifecycle o dataDir bootstrap hs hreads
  rw [← hlifecycle, startPostgres, playFrom_bind, playFrom_tryUseBinaryCache]
  simp only
  rw [playFrom_bind]
  cases (playFrom o dataDir (handlePrivilegeLifecycle (afterCache o.cached bootstrap)) s).1 with
  | error err => exact and_congr_left' (iff_of_true ⟨err, rfl⟩ ⟨err, rfl⟩)
  | ok outcome =>
    refine iff_of_false (fun ⟨⟨_, h⟩, _⟩ => ?_) fun ⟨⟨_, h⟩, _⟩ => by cases h
    simp only at h
    rw [playFrom_bind] at h
    cases h

theorem playFrom_newSplit (hs : s.running = false)
    (hstart : (∃ err, (playFrom o dataDir (startPostgres bootstrap) s).1 = .error err) →
      (playFrom o dataDir (startPostgres bootstrap) s).2.running = false)
    (hnothing : (playFrom o dataDir (newSplit false bootstrap) s).1 = .nothing) :
    (playFrom o dataDir (newSplit false bootstrap) s).2.running = false := by
  unfold newSplit buildRuntime at hnothing ⊢
  rw [playFrom_bind, playFrom_call (by nofun), serve] at hnothing ⊢
  cases hprepare : o.prepare with
  | error err => exact hs
  | ok _ =>
    rw [hprepare] at hnothing
    simp only [Bool.false_eq_true, if_false] at hnothing ⊢
    rw [playFrom_bind, playFrom_call (by nofun), serve] at hnothing ⊢
    cases hruntime : o.runtime with
    | error err => exact hs
    | ok _ =>
      rw [hruntime] at hnothing
      simp only at hnothing ⊢
      rw [playFrom_bind] at hnothing ⊢
      cases hstarted : (playFrom o dataDir (startPostgres bootstrap) s).1 with
      | error err => exact hstart ⟨err, hstarted⟩
      | ok outcome =>
        rw [hstarted] at hnothing
        cases hnothing

end Caller

/-- **A failed start-up leaves its server running** just where `FailsWithServer` says so: the start of a
worker is taken for a failure, or the port cannot be read, and nothing stops the server then; or a
start in the process fails with a server that the drop of the value does not stop. -/
theorem failed_startup_iff (o : Outcomes) (bootstrap : TestBootstrapSettings) :
    LeavesNothing o bootstrap ↔ ¬ FailsWithServer o bootstrap := by
  have hstart := playFrom_startPostgres (s := .init) o bootstrap.settings.dataDir bootstrap rfl rfl
  unfold LeavesNothing
  rw [← hstart]
  constructor
  · rintro ⟨hstopped, -⟩ ⟨herror, hrunning⟩
    cases (hstopped herror).symm.trans hrunning
  · intro hnot
    have hstopped : (∃ err, (playFrom o bootstrap.settings.dataDir (startPostgres bootstrap)
        .init).1 = .error err) →
        (playFrom o bootstrap.settings.dataDir (startPostgres bootstrap) .init).2.running = false :=
      fun herror => Bool.eq_false_iff.mpr fun hrunning => hnot ⟨herror, hrunning⟩
    exact ⟨hstopped, playFrom_newSplit rfl hstopped⟩

/-! ### A port that cannot be read -/

/-- All goes well but that `postmaster.pid` cannot be read after the start. -/
def sampleOutcomes : Outcomes where
  prepare := .ok ()
  runtime := .ok ()
  cached := none
  installedDir := none
  setup := .ok (Lexical.Path.absolute [])
  start := .ok ()
  launched := true
  started := true
  worker _ := {
    answer := fun
      | .load | .setup | .start | .stop | .resetDataDir _ => some (.ok ())
      | .isSetupComplete => some true
      | .needsReset => some (.ok false)
      | .isStarted => some false
      | .cleanup _ => none
      | .dropPostgres _ => some ()
    launched := true
    started := true }
  waitError _ := none
  reads _ := .failed "EIO"

def sampleBootstrap : TestBootstrapSettings :=
  ⟨.root, ⟨⟨.absolute [], .absolute [], .absolute []⟩, false⟩, .none, 0⟩

theorem unread_port_leaves_server : ¬ LeavesNothing sampleOutcomes sampleBootstrap :=
  fun h => Bool.noConfusion (h.1 ⟨_, rfl⟩)

end PgEmbeddedSetup.Startup
