import Mathlib.Tactic
import PgEmbeddedSetup.Cluster.CleanupPaths
import PgEmbeddedSetup.Cluster.Shutdown

/-!
# Directories are removed after the server has stopped

Each shutdown path is followed with every behaviour of the operating system. A removal of the data
directory should come after the observation that the server does not run: a stop that returned `Ok`,
a missing `postmaster.pid`, or a probe that finds no process. All paths but the exit hook do so. The
hook removes the directory also after a pid file it cannot make sense of and after a `SIGKILL` whose
effect it does not check; `data_dir_removal_observed_iff` says for which behaviours it does not.
-/

namespace PgEmbeddedSetup.Cluster

open Program Lexical

/-- The instruction removes the data directory, with a directory above it or by the worker. -/
def RemovesDataDir (dataDir : FilePath) : Instr → Prop
  | .removeDirAll path => dataDir.startsWith path = true
  | .invokeAsRoot .cleanup | .invokeAsRoot .cleanupFull => True
  | _ => False

/-- The event shows that the server does not run. -/
def ObservesExit : Event → Prop
  | ⟨.stopPostgres _, answer⟩ => answer = .stopped
  | ⟨.invokeAsRoot .stop, answer⟩ => answer = .ok ()
  | ⟨.readPidFile _, answer⟩ => answer = .notFound
  | ⟨.kill _ .probe, answer⟩ => answer = .esrch
  | _ => False

/-! ### What is removed -/

/-- The cleanup in the process reaches the data directory. -/
def CleanupRemovesData (mode : CleanupMode) (settings : Settings) : Prop :=
  ∃ path ∈ cleanupPaths mode settings, settings.dataDir.startsWith path = true

section Traces

variable (os : Nat → (i : Instr) → i.Answer)

theorem not_removesDataDir_cleanup {mode : CleanupMode} {settings : Settings} (n : Nat)
    (h : ¬ CleanupRemovesData mode settings) :
    ∀ e ∈ (cleanupInProcess mode settings).trace os n, ¬ RemovesDataDir settings.dataDir e.1 := by
  intro e he hremoves
  have hmem : e.1 ∈ instrs os n (cleanupInProcess mode settings) :=
    List.mem_map.mpr ⟨e, he, rfl⟩
  rw [instrs_cleanupInProcess, List.mem_map] at hmem
  obtain ⟨path, hpath, heq⟩ := hmem
  rw [← heq] at hremoves
  exact h ⟨path, hpath, hremoves⟩

theorem not_precedes_cleanup {mode : CleanupMode} {settings : Settings} (n : Nat)
    (h : CleanupRemovesData mode settings) :
    ¬ Precedes ObservesExit (fun e => RemovesDataDir settings.dataDir e.1)
      ((cleanupInProcess mode settings).trace os n) := by
  obtain ⟨path, hpath, hstarts⟩ := h
  have hinstrs := instrs_cleanupInProcess os n mode settings
  have hmem : Instr.removeDirAll path ∈ instrs os n (cleanupInProcess mode settings) := by
    rw [hinstrs]
    exact List.mem_map_of_mem hpath
  obtain ⟨e, he, heq⟩ := List.mem_map.mp hmem
  obtain ⟨pre, post, hsplit⟩ := List.append_of_mem he
  intro hprecedes
  have hremoves : RemovesDataDir settings.dataDir e.1 := by
    rw [heq]
    exact hstarts
  obtain ⟨o, ho, hobserves⟩ := hprecedes pre e post hsplit hremoves
  have hremoval : o.1 ∈ instrs os n (cleanupInProcess mode settings) :=
    List.mem_map.mpr ⟨o, hsplit ▸ List.mem_append_left _ ho, rfl⟩
  rw [hinstrs, List.mem_map] at hremoval
  obtain ⟨path', -, heq'⟩ := hremoval
  obtain ⟨i, answer⟩ := o
  obtain rfl : Instr.removeDirAll path' = i := heq'
  exact hobserves

end Traces

/-! ### The paths that wait for a stop -/

section Cleared

variable {dataDir : FilePath}

theorem cleared_stopWorkerManaged (bootstrap : TestBootstrapSettings) {β : Type}
    {f : Except String Unit → Code β}
    (hf : ∀ err, (f (.error err)).Cleared ObservesExit (RemovesDataDir dataDir)) :
    (stopWorkerManagedWithRuntime bootstrap >>= f).Cleared ObservesExit
      (RemovesDataDir dataDir) := by
  refine ⟨id, fun answer => ?_⟩
  cases answer with
  | ok u => exact Or.inl rfl
  | error err => exact Or.inr (hf err)

theorem cleared_stopPostgres {timeout : Nat} {β : Type} {f : StopAnswer → Code β}
    (hf : ∀ answer, answer ≠ .stopped →
      (f answer).Cleared ObservesExit (RemovesDataDir dataDir)) :
    (Prog.exec (.stopPostgres timeout) f).Cleared ObservesExit (RemovesDataDir dataDir) := by
  refine ⟨id, fun answer => ?_⟩
  by_cases h : answer = .stopped
  · exact Or.inl h
  · exact Or.inr (hf answer h)

theorem cleared_task (task : Task) :
    task.run.Cleared ObservesExit (RemovesDataDir dataDir) := by
  cases task with
  | workerStop bootstrap =>
    refine ⟨id, fun answer => Or.inr ?_⟩
    cases answer with
    | error err => trivial
    | ok u => exact cleared_stopWorkerManaged bootstrap fun err => trivial
  | asyncCleanup bootstrap =>
    refine cleared_stopPostgres fun answer hanswer => ?_
    cases answer with
    | stopped => exact absurd rfl hanswer
    | failed err => trivial
    | timedOut => trivial
    | interrupted => trivial

theorem cleared_stopViaWorkerSync (bootstrap : TestBootstrapSettings) :
    (stopViaWorkerSync bootstrap).Cleared ObservesExit (RemovesDataDir dataDir) := by
  refine ⟨id, fun answer => Or.inr ?_⟩
  cases answer with
  | error err => trivial
  | ok u =>
    refine ⟨id, fun answer => ?_⟩
    cases answer with
    | error err => exact Or.inr trivial
    | ok u => exact Or.inl rfl

theorem cleared_spawnOnCurrent (task : Task) :
    (ClusterGuard.spawnOnCurrent task).Cleared ObservesExit (RemovesDataDir dataDir) := by
  refine ⟨id, fun answer => Or.inr ?_⟩
  cases answer with
  | false => trivial
  | true => exact ⟨id, fun _ => Or.inr trivial⟩

theorem cleared_drop (guard : ClusterGuard) :
    guard.drop.Cleared ObservesExit (RemovesDataDir dataDir) := by
  unfold ClusterGuard.drop ClusterGuard.performShutdown
  split
  · trivial
  split
  · unfold ClusterGuard.dropAsyncCluster
    split
    · exact cleared_spawnOnCurrent _
    split
    · exact cleared_spawnOnCurrent _
    · trivial
  · unfold ClusterGuard.dropSyncCluster
    split
    · exact cleared_stopWorkerManaged guard.bootstrap fun err => trivial
    split
    · refine cleared_stopPostgres fun answer hanswer => ?_
      cases answer with
      | stopped => exact absurd rfl hanswer
      | failed err => trivial
      | timedOut => trivial
      | interrupted => trivial
    · trivial

theorem cleared_drop_bind {β : Type} (guard : ClusterGuard) (b : β) :
    (guard.drop >>= fun _ => pure b).Cleared ObservesExit (RemovesDataDir dataDir) :=
  (cleared_drop guard).bind fun _ => trivial

theorem cleared_stopAsync (guard : ClusterGuard) :
    (stopAsync guard).Cleared ObservesExit (RemovesDataDir dataDir) := by
  unfold stopAsync
  cases (stopAsyncPath guard).1 with
  | workerManaged =>
    refine ⟨id, fun _ => Or.inr ⟨id, fun answer => Or.inr ?_⟩⟩
    cases answer <;> exact cleared_drop_bind _ _
  | inProcess =>
    refine cleared_stopPostgres fun answer hanswer => ?_
    cases answer with
    | stopped => exact absurd rfl hanswer
    | failed err => exact cleared_drop_bind _ _
    | timedOut => exact cleared_drop_bind _ _
    | interrupted => exact cleared_drop_bind _ _
  | noop => exact cleared_drop_bind _ _

end Cleared

/-! ### The exit hook -/

section Hook

variable (os : Nat → (i : Instr) → i.Answer)

/-- The time between two readings of the clock that was not slept. -/
def passed (n : Nat) : Nat := os n .elapsed

/-- The time since the start at the `i`-th reading of the clock. The first reading is the instruction
after the `n`-th, and there are three for each poll. -/
def waited (n : Nat) : Nat → Nat
  | 0 => passed os (n + 1)
  | i + 1 => passed os (n + 1) + pollInterval + waited (n + 3) i

/-- A poll finds that the process is gone, and at each reading of the clock before it less than the
timeout had passed. The polls are the instructions `n`, `n + 3` and so on. -/
def ExitPolled (pid : Int) (timeout n : Nat) : Prop :=
  ∃ j, os (n + 3 * j) (.kill pid .probe) = .esrch ∧ ∀ i < j, waited os n i < timeout

theorem exitPolled_iff {pid : Int} {timeout n : Nat}
    (hprobe : os n (.kill pid .probe) ≠ .esrch) :
    ExitPolled os pid timeout n ↔ passed os (n + 1) < timeout ∧
      ExitPolled os pid (timeout - passed os (n + 1) - pollInterval) (n + 3) := by
  constructor
  · rintro ⟨j, hj, hwaited⟩
    cases j with
    | zero => exact absurd hj hprobe
    | succ j =>
      refine ⟨hwaited 0 (Nat.succ_pos j), j, ?_, fun i hi => ?_⟩
      · rwa [show n + 3 + 3 * j = n + 3 * (j + 1) by omega]
      · have hlt : passed os (n + 1) + pollInterval + waited os (n + 3) i < timeout :=
          hwaited (i + 1) (Nat.succ_lt_succ hi)
        omega
  · rintro ⟨hfirst, j, hj, hwaited⟩
    refine ⟨j + 1, ?_, fun i hi => ?_⟩
    · rwa [show n + 3 * (j + 1) = n + 3 + 3 * j by omega]
    · cases i with
      | zero => exact hfirst
      | succ i =>
        have hlt := hwaited i (Nat.lt_of_succ_lt_succ hi)
        show passed os (n + 1) + pollInterval + waited os (n + 3) i < timeout
        omega

theorem processIsRunning_eq {pid : Int} (hpid : 0 < pid) :
    processIsRunning pid =
      .exec (.kill pid .probe) fun (answer : KillAnswer) => .ret (decide (answer ≠ .esrch)) := by
  rw [processIsRunning, if_neg (by omega)]
  congr 1
  funext answer
  cases answer <;> rfl

variable {os} {dataDir : FilePath} {β : Type}

theorem precedes_probe {pid : Int} (hpid : 0 < pid) (n : Nat) (K : Bool → Code β) :
    Precedes ObservesExit (fun e => RemovesDataDir dataDir e.1)
        ((processIsRunning pid >>= K).trace os n) ↔
      os n (.kill pid .probe) = .esrch ∨
        Precedes ObservesExit (fun e => RemovesDataDir dataDir e.1) ((K true).trace os (n + 1)) := by
  rw [processIsRunning_eq hpid, Prog.exec_bind, Prog.trace_exec, precedes_cons]
  by_cases h : os n (.kill pid .probe) = .esrch
  · exact iff_of_true ⟨id, Or.inl h⟩ (Or.inl h)
  · have htrue : decide (os n (.kill pid .probe) ≠ .esrch) = true := decide_eq_true h
    rw [Prog.ret_bind]
    simp only [htrue]
    exact ⟨fun hp => hp.2, fun hp => ⟨id, hp⟩⟩

/-- Waiting observes the exit if a poll in time does, where a removal follows a wait that fails. -/
theorem precedes_waitForExit {pid : Int} (hpid : 0 < pid) {K : Bool → Code β}
    (hK : ∀ n, ¬ Precedes ObservesExit (fun e => RemovesDataDir dataDir e.1)
      ((K false).trace os n)) (remaining n : Nat) :
    Precedes ObservesExit (fun e => RemovesDataDir dataDir e.1)
      ((waitForExit pid remaining >>= K).trace os n) ↔ ExitPolled os pid remaining n := by
  induction remaining using Nat.strong_induction_on generalizing n with
  | _ remaining ih =>
    rw [waitForExit, Prog.bind_assoc, precedes_probe hpid]
    by_cases hprobe : os n (.kill pid .probe) = .esrch
    · exact iff_of_true (Or.inl hprobe) ⟨0, hprobe, fun i hi => absurd hi (Nat.not_lt_zero i)⟩
    rw [or_iff_right hprobe, exitPolled_iff os hprobe]
    simp only [if_true, Prog.exec_bind, Prog.trace_exec]
    rw [precedes_cons_neutral id id]
    show Precedes _ _ (Prog.trace os (n + 1 + 1)
      ((if _ : remaining ≤ passed os (n + 1) then _ else _) >>= K)) ↔ _
    by_cases htime : remaining ≤ passed os (n + 1)
    · rw [dif_pos htime, Prog.pure_eq, Prog.ret_bind]
      exact iff_of_false (hK _) fun h => absurd h.1 (by omega)
    · rw [dif_neg htime, Prog.exec_bind, Prog.trace_exec, precedes_cons_neutral id id]
      have hpoll : 0 < pollInterval := by decide
      rw [ih _ (by omega)]
      exact ⟨fun h => ⟨by omega, h⟩, fun h => h.2⟩

theorem all_processIsRunning {P : Instr → Prop} {pid : Int} (hP : ∀ signal, P (.kill pid signal)) :
    (processIsRunning pid).All P := by
  unfold processIsRunning
  split
  · trivial
  · refine ⟨hP _, fun answer => ?_⟩
    cases answer <;> trivial

theorem all_waitForExit {P : Instr → Prop} {pid : Int} (hP : ∀ signal, P (.kill pid signal))
    (hclock : P .elapsed) (hsleep : ∀ duration, P (.sleep duration)) (remaining : Nat) :
    (waitForExit pid remaining).All P := by
  induction remaining using Nat.strong_induction_on with
  | _ remaining ih =>
    rw [waitForExit]
    refine (all_processIsRunning hP).bind fun running => ?_
    cases running with
    | false => trivial
    | true =>
      refine ⟨hclock, fun passed => ?_⟩
      show (if _ : remaining ≤ passed then _ else _ : Code Bool).All P
      by_cases htime : remaining ≤ passed
      · rw [dif_pos htime]
        trivial
      · rw [dif_neg htime]
        have hpoll : 0 < pollInterval := by decide
        exact ⟨hsleep _, fun _ => ih _ (by omega)⟩

theorem all_stopPostmaster {P : Instr → Prop} {pid : Int} (hP : ∀ signal, P (.kill pid signal))
    (hclock : P .elapsed) (hsleep : ∀ duration, P (.sleep duration)) (state : ShutdownState) :
    (stopPostmaster pid state).All P := by
  refine ⟨hP _, fun _ => (all_waitForExit hP hclock hsleep _).bind fun exited => ?_⟩
  cases exited with
  | true => trivial
  | false => exact ⟨hP _, fun _ => ⟨hsleep _, fun _ => trivial⟩⟩

variable (os)

/-- The hook does nothing, or it does not reach the data directory, or there is no pid file, or the
pid file names a process and a probe in time finds it gone. -/
def HookObserves (state : ShutdownState) : Prop :=
  os 0 .tryLockState = false ∨
    ¬ CleanupRemovesData state.cleanupMode state.settings ∨
    os 1 (.readPidFile state.settings.dataDir) = .notFound ∨
    ∃ text pid, os 1 (.readPidFile state.settings.dataDir) = .contents text ∧
      parsePostmasterPid text = some pid ∧
      (os 2 (.kill pid .probe) = .esrch ∨ ExitPolled os pid state.shutdownTimeout 4)

variable {os}

theorem parsePostmasterPid_pos {text : List Char} {pid : Int}
    (h : parsePostmasterPid text = some pid) : 0 < pid := by
  simp only [parsePostmasterPid, Option.bind_eq_bind, Option.bind_eq_some_iff] at h
  obtain ⟨line, -, pid', -, h⟩ := h
  split at h
  next hpos =>
    cases h
    exact hpos
  next => cases h

theorem precedes_stop (os : Nat → (i : Instr) → i.Answer) {state : ShutdownState}
    (hremoves : CleanupRemovesData state.cleanupMode state.settings) {pid : Int} (hpid : 0 < pid) :
    Precedes ObservesExit (fun e => RemovesDataDir state.settings.dataDir e.1)
        (Prog.trace os 2 (do
          if ← processIsRunning pid then
            stopPostmaster pid state
            bestEffortCleanup state
          else bestEffortCleanup state)) ↔
      os 2 (.kill pid .probe) = .esrch ∨ ExitPolled os pid state.shutdownTimeout 4 := by
  rw [precedes_probe hpid]
  refine or_congr_right ?_
  simp only [if_true]
  rw [stopPostmaster, Prog.exec_bind, Prog.trace_exec, precedes_cons_neutral id id, Prog.bind_assoc]
  refine precedes_waitForExit hpid (fun n => ?_) _ 4
  simp only [Bool.false_eq_true, if_false, Prog.exec_bind, Prog.trace_exec]
  rw [precedes_cons_neutral id id, precedes_cons_neutral id id]
  exact not_precedes_cleanup os _ hremoves

theorem not_removes_shutdownCallback {state : ShutdownState}
    (h : ¬ CleanupRemovesData state.cleanupMode state.settings) (n : Nat) :
    ∀ e ∈ (shutdownCallback (some state)).trace os n,
      ¬ RemovesDataDir state.settings.dataDir e.1 := by
  have hcleanup : ∀ n, ∀ e ∈ (bestEffortCleanup state).trace os n,
      ¬ RemovesDataDir state.settings.dataDir e.1 := fun n => not_removesDataDir_cleanup os n h
  have hpid : ∀ pid n, ∀ e ∈ (Prog.trace os n (do
      if ← processIsRunning pid then
        stopPostmaster pid state
        bestEffortCleanup state
      else bestEffortCleanup state)), ¬ RemovesDataDir state.settings.dataDir e.1 := by
    intro pid n
    have hprobe : (processIsRunning pid).All fun i => ¬ RemovesDataDir state.settings.dataDir i :=
      all_processIsRunning fun _ => id
    have hstop : (stopPostmaster pid state).All fun i => ¬ RemovesDataDir state.settings.dataDir i :=
      all_stopPostmaster (fun _ => id) id (fun _ => id) state
    refine Prog.forall_trace_bind (hprobe.trace n) fun running m => ?_
    cases running with
    | true => exact Prog.forall_trace_bind (hstop.trace m) fun _ m' => hcleanup m'
    | false => exact hcleanup m
  intro e he
  rcases List.mem_cons.mp he with rfl | he
  · exact id
  cases hlock : os n .tryLockState with
  | false =>
    rw [hlock] at he
    exact absurd he List.not_mem_nil
  | true =>
    rw [hlock] at he
    rcases List.mem_cons.mp he with rfl | he
    · exact id
    cases hread : os (n + 1) (.readPidFile state.settings.dataDir) with
    | notFound =>
      rw [hread] at he
      exact hcleanup _ e he
    | failed err =>
      rw [hread] at he
      exact hcleanup _ e he
    | contents text =>
      rw [hread] at he
      simp only [Prog.pure_eq] at he
      cases hparse : parsePostmasterPid text with
      | none =>
        rw [hparse] at he
        exact hcleanup _ e he
      | some pid =>
        rw [hparse] at he
        exact hpid pid _ e he

theorem precedes_shutdownCallback (state : ShutdownState) :
    Precedes ObservesExit (fun e => RemovesDataDir state.settings.dataDir e.1)
      ((shutdownCallback (some state)).trace os 0) ↔ HookObserves os state := by
  by_cases hremoves : CleanupRemovesData state.cleanupMode state.settings
  swap
  · exact iff_of_true (precedes_of_forall_not (not_removes_shutdownCallback hremoves 0))
      (Or.inr (Or.inl hremoves))
  rw [HookObserves, or_iff_right (not_not_intro hremoves), shutdownCallback, Prog.trace_exec,
    precedes_cons_neutral id id]
  cases hlock : os 0 .tryLockState with
  | false =>
    exact iff_of_true (precedes_of_forall_not fun e he => absurd he List.not_mem_nil)
      (Or.inl rfl)
  | true =>
    rw [or_iff_right (by decide)]
    simp only [readPostmasterPid, Prog.exec_bind, Prog.trace_exec]
    rw [precedes_cons]
    cases hread : os 1 (.readPidFile state.settings.dataDir) with
    | notFound => exact iff_of_true ⟨id, Or.inl rfl⟩ (Or.inl rfl)
    | failed err =>
      refine iff_of_false (fun h => ?_) (by rintro (h | ⟨text, pid, h, -⟩) <;> cases h)
      rcases h.2 with h | h
      · cases h
      · exact not_precedes_cleanup os _ hremoves h
    | contents text =>
      have hclears : ¬ ObservesExit ⟨.readPidFile state.settings.dataDir, .contents text⟩ := nofun
      rw [or_iff_right hclears]
      simp only [Prog.pure_eq, Prog.ret_bind]
      cases hparse : parsePostmasterPid text with
      | none =>
        refine iff_of_false (fun h => not_precedes_cleanup os _ hremoves h.2) ?_
        rintro (h | ⟨text', pid, h, hpid, -⟩)
        · cases h
        · cases h
          cases hparse.symm.trans hpid
      | some pid =>
        have hstop := precedes_stop os hremoves (parsePostmasterPid_pos hparse)
        constructor
        · rintro ⟨-, h⟩
          exact Or.inr ⟨text, pid, rfl, hparse, hstop.1 h⟩
        · rintro (h | ⟨text', pid', h, hpid, hexit⟩)
          · cases h
          · cases h
            obtain rfl : pid = pid' := Option.some.inj (hparse.symm.trans hpid)
            exact ⟨id, hstop.2 hexit⟩

end Hook

/-! ### All paths -/

inductive ShutdownPath where
  | drop (guard : ClusterGuard)
  | stopAsync (guard : ClusterGuard)
  | workerManaged (bootstrap : TestBootstrapSettings)
  | task (task : Task)
  | atexit (state : Option ShutdownState)

def ShutdownPath.run : ShutdownPath → Code Unit
  | .drop guard => guard.drop
  | .stopAsync guard => do
    let _ ← Cluster.stopAsync guard
    pure ()
  | .workerManaged bootstrap => do
    let _ ← stopViaWorkerSync bootstrap
    pure ()
  | .task t => t.run
  | .atexit state => shutdownCallback state

def Task.bootstrap : Task → TestBootstrapSettings
  | .workerStop bootstrap | .asyncCleanup bootstrap => bootstrap

/-- The data directory of the cluster, if the path is about one. -/
def ShutdownPath.dataDir : ShutdownPath → Option FilePath
  | .drop guard | .stopAsync guard => some guard.bootstrap.settings.dataDir
  | .workerManaged bootstrap => some bootstrap.settings.dataDir
  | .task t => some t.bootstrap.settings.dataDir
  | .atexit state => state.map (·.settings.dataDir)

/-- Each removal of the data directory comes after an observation that the server does not run. -/
def RemovalObserved (path : ShutdownPath) (os : Nat → (i : Instr) → i.Answer) : Prop :=
  ∀ dataDir ∈ path.dataDir,
    Precedes ObservesExit (fun e => RemovesDataDir dataDir e.1) (path.run.trace os 0)

/-- The path is not the exit hook, or the hook observes the exit or removes nothing. -/
def ExitObservable (path : ShutdownPath) (os : Nat → (i : Instr) → i.Answer) : Prop :=
  ∀ state, path = .atexit (some state) → HookObserves os state

/-- **Removals follow an observed exit, except in the exit hook.** On each shutdown path and for each
behaviour of the operating system, the data directory is removed only after the server was observed
not to run if and only if the path is not the exit hook, or the hook does nothing, does not reach the
data directory, finds no pid file, or reads a pid of which a probe before the timeout finds no
process. -/
theorem data_dir_removal_observed_iff (path : ShutdownPath)
    (os : Nat → (i : Instr) → i.Answer) : RemovalObserved path os ↔ ExitObservable path os := by
  cases path with
  | drop guard =>
    exact iff_of_true (fun dataDir _ => (cleared_drop guard).trace os 0) nofun
  | stopAsync guard =>
    refine iff_of_true (fun dataDir _ => Prog.Cleared.trace ?_ os 0) nofun
    exact (cleared_stopAsync guard).bind fun _ => trivial
  | workerManaged bootstrap =>
    refine iff_of_true (fun dataDir _ => Prog.Cleared.trace ?_ os 0) nofun
    exact (cleared_stopViaWorkerSync bootstrap).bind fun _ => trivial
  | task t => exact iff_of_true (fun dataDir _ => (cleared_task t).trace os 0) nofun
  | atexit state =>
    cases state with
    | none => exact iff_of_true (fun dataDir h => absurd h (Option.not_mem_none _)) nofun
    | some state =>
      constructor
      · rintro h state' heq
        cases heq
        exact (precedes_shutdownCallback state).1 (h _ rfl)
      · rintro h dataDir hdataDir
        cases hdataDir
        exact (precedes_shutdownCallback state).2 (h state rfl)

/-- A process that no signal ends: every probe finds it, and time passes between the polls. -/
def immortal (_ : Nat) : (i : Instr) → i.Answer
  | .buildRuntime => .ok ()
  | .tryCurrent => true
  | .join => .interrupted
  | .invokeAsRoot _ => .ok ()
  | .stopPostgres _ => .timedOut
  | .removeDirAll _ => .removed
  | .tryLockState => true
  | .readPidFile _ => .contents "42\n".toList
  | .kill _ _ => .ok
  | .elapsed => 1
  | .spawn _ | .spawnBlocking _ | .sleep _ => ()

/-- The hook removes the data directory of a server that is still there after `SIGKILL` and the
grace. -/
theorem data_dir_removed_while_running :
    ∃ state : ShutdownState, (∀ n pid signal, immortal n (.kill pid signal) = .ok) ∧
      ¬ RemovalObserved (.atexit (some state)) immortal := by
  let dataDir : FilePath := ⟨[.rootDir, .normal [100]], by decide⟩
  let state : ShutdownState := ⟨⟨dataDir, dataDir, dataDir⟩, 0, .dataOnly⟩
  have hremoves : CleanupRemovesData state.cleanupMode state.settings :=
    ⟨dataDir, List.mem_filter.mpr ⟨List.mem_cons_self, rfl⟩, dataDir.startsWith_self⟩
  refine ⟨state, fun n pid signal => rfl, fun h => ?_⟩
  rcases (precedes_shutdownCallback state).1 (h dataDir rfl) with
    h | h | h | ⟨text, pid, -, -, h | ⟨j, h, -⟩⟩
  · cases h
  · exact h hremoves
  · cases h
  · cases h
  · cases h

end PgEmbeddedSetup.Cluster
