import PgEmbeddedSetup.Cluster.Licensed
import PgEmbeddedSetup.Cluster.Observed

/-!
# Who gets the signals of the exit hook

The exit hook knows the server by the number in `postmaster.pid` only, and it probes that number,
sends `SIGTERM` to it and may send `SIGKILL` to it in separate steps, while processes exit and their
numbers are given to others. `signals_writer_iff` says for which evolutions of the process table only
the server that wrote the file gets a signal.
-/

namespace PgEmbeddedSetup.Signals

open Program Cluster

/-- A process, which the caller may signal or not. -/
structure Process (P : Type) where
  id : P
  permitted : Bool

/-- The processes by their pids, and the pid file with the process that wrote it. -/
structure World (P : Type) where
  table : Int → Option (Process P)
  pidFile : PidFileAnswer
  writer : P

variable {P : Type}

def killAnswer (process : Option (Process P)) : KillAnswer :=
  match process with
  | none => .esrch
  | some process => if process.permitted then .ok else .eperm

/-- The answers in these worlds, one for each instruction. What they do not decide is up to `rest`. -/
def answers (worlds : Nat → World P) (rest : Nat → (i : Instr) → i.Answer) (n : Nat) :
    (i : Instr) → i.Answer
  | .kill pid _ => killAnswer ((worlds n).table pid)
  | .readPidFile _ => (worlds n).pidFile
  | i => rest n i

/-- The process that gets a signal. A probe delivers none. -/
def recipient (world : World P) : Instr → Option P
  | .kill pid .sigterm | .kill pid .sigkill =>
    (world.table pid).bind fun process => if process.permitted then some process.id else none
  | _ => none

/-- The hook signals no process but the one that wrote the file it has read. -/
def SignalsWriter (worlds : Nat → World P) (rest : Nat → (i : Instr) → i.Answer)
    (state : Option ShutdownState) : Prop :=
  (shutdownCallback state).EachStep (answers worlds rest)
    (fun n i => ∀ p, recipient (worlds n) i = some p → p = (worlds 1).writer) 0

/-! ### Polls -/

section Polls

variable (worlds : Nat → World P) (rest : Nat → (i : Instr) → i.Answer) (pid : Int)

/-- Every poll finds a process with the pid, and at the `k`-th reading of the clock, not before, the
timeout has passed. The polls are the instructions `n`, `n + 3` and so on. -/
def PollsTimeOut (timeout n k : Nat) : Prop :=
  (∀ i ≤ k, (worlds (n + 3 * i)).table pid ≠ none) ∧ (∀ i < k, waited rest n i < timeout) ∧
    timeout ≤ waited rest n k

variable {worlds} {rest} {pid}

theorem probe_eq_esrch {n : Nat} :
    answers worlds rest n (.kill pid .probe) = .esrch ↔ (worlds n).table pid = none := by
  show killAnswer _ = _ ↔ _
  cases htable : (worlds n).table pid with
  | none => exact iff_of_true rfl rfl
  | some process =>
    refine iff_of_false ?_ (Option.some_ne_none process)
    show (if process.permitted then KillAnswer.ok else .eperm) ≠ .esrch
    split <;> exact nofun

theorem not_pollsTimeOut {timeout n k : Nat} (h : (worlds n).table pid = none) :
    ¬ PollsTimeOut worlds rest pid timeout n k := fun hk => hk.1 0 (Nat.zero_le k) h

theorem pollsTimeOut_zero {timeout n : Nat} (h : (worlds n).table pid ≠ none) :
    PollsTimeOut worlds rest pid timeout n 0 ↔ timeout ≤ passed rest (n + 1) := by
  constructor
  · exact fun hk => hk.2.2
  · intro htime
    refine ⟨fun i hi => ?_, fun i hi => absurd hi (Nat.not_lt_zero i), htime⟩
    obtain rfl := Nat.le_zero.mp hi
    exact h

theorem pollsTimeOut_succ {timeout n k : Nat} (h : (worlds n).table pid ≠ none) :
    PollsTimeOut worlds rest pid timeout n (k + 1) ↔ passed rest (n + 1) < timeout ∧
      PollsTimeOut worlds rest pid (timeout - passed rest (n + 1) - pollInterval) (n + 3) k := by
  have hwaited : ∀ i, waited rest n (i + 1) =
      passed rest (n + 1) + pollInterval + waited rest (n + 3) i := fun _ => rfl
  have hindex : ∀ i, n + 3 * (i + 1) = n + 3 + 3 * i := fun i => by omega
  constructor
  · rintro ⟨hheld, hearly, hlate⟩
    have hfirst : passed rest (n + 1) < timeout := hearly 0 (Nat.succ_pos k)
    refine ⟨hfirst, fun i hi => ?_, fun i hi => ?_, ?_⟩
    · rw [← hindex]
      exact hheld (i + 1) (Nat.succ_le_succ hi)
    · have hlt := hearly (i + 1) (Nat.succ_lt_succ hi)
      rw [hwaited] at hlt
      omega
    · rw [hwaited] at hlate
      omega
  · rintro ⟨hfirst, hheld, hearly, hlate⟩
    refine ⟨fun i hi => ?_, fun i hi => ?_, ?_⟩
    · cases i with
      | zero => exact h
      | succ i =>
        rw [hindex]
        exact hheld i (Nat.le_of_succ_le_succ hi)
    · cases i with
      | zero => exact hfirst
      | succ i =>
        have hlt := hearly i (Nat.lt_of_succ_lt_succ hi)
        rw [hwaited]
        omega
    · rw [hwaited]
      omega

variable {Q : Nat → Instr → Prop} {β : Type}

theorem eachStep_probe (hpid : 0 < pid) (hprobe : ∀ n, Q n (.kill pid .probe)) (n : Nat)
    (K : Bool → Code β) :
    (processIsRunning pid >>= K).EachStep (answers worlds rest) Q n ↔
      (K (decide ((worlds n).table pid ≠ none))).EachStep (answers worlds rest) Q (n + 1) := by
  rw [processIsRunning_eq hpid, Prog.exec_bind, Prog.EachStep, and_iff_right (hprobe n),
    Prog.ret_bind, decide_eq_decide.mpr (not_congr probe_eq_esrch)]

theorem eachStep_waitForExit (hpid : 0 < pid) (hprobe : ∀ n, Q n (.kill pid .probe))
    (hclock : ∀ n, Q n .elapsed) (hsleep : ∀ n duration, Q n (.sleep duration))
    {K : Bool → Code β} (hK : ∀ n, (K true).EachStep (answers worlds rest) Q n) (remaining n : Nat) :
    (waitForExit pid remaining >>= K).EachStep (answers worlds rest) Q n ↔
      ∀ k, PollsTimeOut worlds rest pid remaining n k →
        (K false).EachStep (answers worlds rest) Q (n + 3 * k + 2) := by
  induction remaining using Nat.strong_induction_on generalizing n with
  | _ remaining ih =>
    rw [waitForExit, Prog.bind_assoc, eachStep_probe hpid hprobe]
    by_cases hheld : (worlds n).table pid = none
    · simp only [hheld, ne_eq, not_true_eq_false, decide_false]
      exact iff_of_true (hK _) fun k hk => absurd hk (not_pollsTimeOut hheld)
    simp only [ne_eq, hheld, not_false_eq_true, decide_true, if_true, Prog.exec_bind, Prog.EachStep]
    rw [and_iff_right (hclock _)]
    show Prog.EachStep _ _ (n + 1 + 1)
      ((if _ : remaining ≤ passed rest (n + 1) then _ else _) >>= K) ↔ _
    by_cases htime : remaining ≤ passed rest (n + 1)
    · rw [dif_pos htime, Prog.pure_eq, Prog.ret_bind]
      constructor
      · intro h k hk
        cases k with
        | zero => exact h
        | succ k => exact absurd ((pollsTimeOut_succ hheld).mp hk).1 (Nat.not_lt.mpr htime)
      · exact fun h => h 0 ((pollsTimeOut_zero hheld).mpr htime)
    · rw [dif_neg htime, Prog.exec_bind, Prog.EachStep, and_iff_right (hsleep _ _)]
      have hpoll : 0 < pollInterval := by decide
      rw [ih _ (by omega)]
      constructor
      · intro h k hk
        cases k with
        | zero => exact absurd ((pollsTimeOut_zero hheld).mp hk) htime
        | succ k =>
          have hrest := h k ((pollsTimeOut_succ hheld).mp hk).2
          rwa [show n + 1 + 1 + 1 + 3 * k + 2 = n + 3 * (k + 1) + 2 by omega] at hrest
      · intro h k hk
        have hrest := h (k + 1) ((pollsTimeOut_succ hheld).mpr ⟨Nat.lt_of_not_le htime, hk⟩)
        rwa [show n + 3 * (k + 1) + 2 = n + 1 + 1 + 1 + 3 * k + 2 by omega] at hrest

end Polls

/-! ### The hook -/

section Hook

variable (worlds : Nat → World P) (rest : Nat → (i : Instr) → i.Answer)

/-- No other process has the pid then that the caller may signal. -/
def WriterOrNobody (pid : Int) (n : Nat) : Prop :=
  ∀ process, (worlds n).table pid = some process → process.permitted = true →
    process.id = (worlds 1).writer

def pidInFile : PidFileAnswer → Option Int
  | .contents text => parsePostmasterPid text
  | .notFound | .failed _ => none

/-- If the pid is held at the first probe, it is the writer's or free at the next step, and if then all
polls find it held until the timeout has passed, it is also so right after the last of them. -/
def KeepsPid (pid : Int) (timeout : Nat) : Prop :=
  (worlds 2).table pid ≠ none → WriterOrNobody worlds pid 3 ∧
    ∀ k, PollsTimeOut worlds rest pid timeout 4 k → WriterOrNobody worlds pid (4 + 3 * k + 2)

/-- Whom the signals may reach. -/
def ReachesWriter (n : Nat) (i : Instr) : Prop :=
  ∀ p, recipient (worlds n) i = some p → p = (worlds 1).writer

variable {worlds} {rest} {pid : Int}

theorem reachesWriter_signal {signal : Signal} (h : signal ≠ .probe) (n : Nat) :
    ReachesWriter worlds n (.kill pid signal) ↔ WriterOrNobody worlds pid n := by
  have hrecipient : recipient (worlds n) (.kill pid signal) =
      ((worlds n).table pid).bind fun process =>
        if process.permitted then some process.id else none := by
    cases signal with
    | probe => exact absurd rfl h
    | sigterm => rfl
    | sigkill => rfl
  unfold ReachesWriter WriterOrNobody
  rw [hrecipient]
  constructor
  · intro hreach process htable hpermitted
    exact hreach process.id (by rw [htable, Option.bind_some, if_pos hpermitted])
  · intro hwriter p hp
    obtain ⟨process, htable, hprocess⟩ := Option.bind_eq_some_iff.mp hp
    split at hprocess
    next hpermitted =>
      obtain rfl := Option.some.inj hprocess
      exact hwriter process htable hpermitted
    next => cases hprocess

/-- What reaches nobody reaches nobody else. -/
theorem reachesWriter_quiet {n : Nat} {i : Instr} (h : recipient (worlds n) i = none) :
    ReachesWriter worlds n i := by
  intro p hp
  cases h.symm.trans hp

theorem pidInFile_pos {file : PidFileAnswer} (h : pidInFile file = some pid) : 0 < pid := by
  cases file with
  | contents text => exact parsePostmasterPid_pos h
  | notFound => cases h
  | failed err => cases h

theorem readPostmasterPid_eq (dataDir : FilePath) : readPostmasterPid dataDir =
    .exec (.readPidFile dataDir) fun (answer : PidFileAnswer) => .ret (pidInFile answer) := by
  unfold readPostmasterPid
  congr 1
  funext answer
  cases answer <;> rfl

theorem eachStep_cleanup (state : ShutdownState) (n : Nat) :
    (bestEffortCleanup state).EachStep (answers worlds rest) (ReachesWriter worlds) n :=
  Prog.All.eachStep (Postgres.all_cleanupInProcess (fun _ _ => nofun) fun _ _ _ _ => nofun) n

theorem eachStep_stopPostmaster (hpid : 0 < pid) (state : ShutdownState) :
    (stopPostmaster pid state >>= fun _ => bestEffortCleanup state).EachStep (answers worlds rest)
        (ReachesWriter worlds) 3 ↔
      WriterOrNobody worlds pid 3 ∧ ∀ k, PollsTimeOut worlds rest pid state.shutdownTimeout 4 k →
        WriterOrNobody worlds pid (4 + 3 * k + 2) := by
  rw [stopPostmaster, Prog.exec_bind, Prog.EachStep, reachesWriter_signal (by decide),
    Prog.bind_assoc]
  refine and_congr_right fun _ => (eachStep_waitForExit hpid (fun _ => reachesWriter_quiet rfl)
    (fun _ => reachesWriter_quiet rfl) (fun _ _ => reachesWriter_quiet rfl)
    (fun n => eachStep_cleanup state n) _ 4).trans ?_
  refine forall_congr' fun k => imp_congr_right fun _ => ?_
  simp only [Bool.false_eq_true, if_false, Prog.exec_bind, Prog.EachStep]
  rw [reachesWriter_signal (by decide)]
  exact and_iff_left ⟨reachesWriter_quiet rfl, eachStep_cleanup state _⟩

theorem signalsWriter_idle {state : Option ShutdownState}
    (h : rest 0 .tryLockState = false ∨ state = none) : SignalsWriter worlds rest state := by
  unfold SignalsWriter shutdownCallback
  refine ⟨reachesWriter_quiet rfl, ?_⟩
  rw [show answers worlds rest 0 .tryLockState = rest 0 .tryLockState from rfl]
  rcases h with hlock | rfl
  · rw [hlock]
    trivial
  · cases rest 0 .tryLockState <;> trivial

theorem signalsWriter_locked {s : ShutdownState} (hlock : rest 0 .tryLockState = true) :
    SignalsWriter worlds rest (some s) ↔
      ∀ pid, pidInFile (worlds 1).pidFile = some pid → KeepsPid worlds rest pid s.shutdownTimeout := by
  show (shutdownCallback (some s)).EachStep (answers worlds rest) (ReachesWriter worlds) 0 ↔ _
  unfold shutdownCallback
  rw [Prog.EachStep, and_iff_right (reachesWriter_quiet rfl),
    show answers worlds rest 0 .tryLockState = true from hlock]
  simp only
  rw [readPostmasterPid_eq, Prog.exec_bind, Prog.EachStep,
    and_iff_right (reachesWriter_quiet rfl), Prog.ret_bind,
    show answers worlds rest (0 + 1) (.readPidFile s.settings.dataDir) = (worlds 1).pidFile from rfl]
  cases hfile : pidInFile (worlds 1).pidFile with
  | none => exact iff_of_true (eachStep_cleanup s 2) fun _ h => by cases h
  | some pid =>
    have hpid : 0 < pid := pidInFile_pos hfile
    simp only
    rw [eachStep_probe hpid fun _ => reachesWriter_quiet rfl]
    simp only [Option.some.injEq, forall_eq', KeepsPid]
    by_cases hheld : (worlds 2).table pid = none
    · simp only [hheld, ne_eq, not_true_eq_false, decide_false]
      exact iff_of_true (eachStep_cleanup s 3) fun h => h.elim
    · simp only [ne_eq, hheld, not_false_eq_true, decide_true, forall_const]
      exact eachStep_stopPostmaster hpid s

/-- **The hook signals only the process that wrote the pid file**, if and only if the pid in it is that
process's or free whenever the steps before have found it held: at the `SIGTERM`, and at the `SIGKILL`
after the timeout. -/
theorem signals_writer_iff (worlds : Nat → World P) (rest : Nat → (i : Instr) → i.Answer)
    (state : Option ShutdownState) :
    SignalsWriter worlds rest state ↔ ∀ s pid, state = some s → rest 0 .tryLockState = true →
      pidInFile (worlds 1).pidFile = some pid → KeepsPid worlds rest pid s.shutdownTimeout := by
  cases hlock : rest 0 .tryLockState with
  | false => exact iff_of_true (signalsWriter_idle (Or.inl hlock)) fun _ _ _ h => by cases h
  | true =>
    cases state with
    | none => exact iff_of_true (signalsWriter_idle (Or.inr rfl)) fun _ _ h => by cases h
    | some s =>
      rw [signalsWriter_locked hlock]
      constructor
      · rintro h s' pid hs - hfile
        obtain rfl := Option.some.inj hs
        exact h pid hfile
      · exact fun h pid hfile => h s pid rfl rfl hfile

/-- The pid is kept in every run that finds it with the writer, or free, and in which no step gives it
to another process. -/
theorem keepsPid_of_noReuse {timeout : Nat} (hstart : WriterOrNobody worlds pid 1)
    (hstep : ∀ n, 1 ≤ n → WriterOrNobody worlds pid n → WriterOrNobody worlds pid (n + 1)) :
    KeepsPid worlds rest pid timeout := by
  have hall : ∀ n, WriterOrNobody worlds pid (n + 1) := by
    intro n
    induction n with
    | zero => exact hstart
    | succ n ih => exact hstep (n + 1) (Nat.le_add_left 1 n) ih
  exact fun _ => ⟨hall 2, fun k _ => hall _⟩

end Hook

/-! ### A file that was left behind -/

/-- The server has crashed, and another process of the user has its pid. -/
def reusedWorld : World Bool where
  table pid := if pid = 4711 then some ⟨false, true⟩ else none
  pidFile := .contents ['4', '7', '1', '1', '\n']
  writer := true

/-- The hook signals the other process. -/
theorem other_process_signalled : ¬ ∀ (P : Type) (worlds : Nat → World P)
    (rest : Nat → (i : Instr) → i.Answer) (state : Option ShutdownState),
    SignalsWriter worlds rest state := by
  intro h
  have hkeeps := (signalsWriter_locked rfl).mp
    (h Bool (fun _ => reusedWorld) immortal (some ⟨⟨Lexical.Path.absolute [],
      Lexical.Path.absolute [], Lexical.Path.absolute []⟩, 0, .none⟩)) 4711 (by decide +kernel)
  exact Bool.noConfusion ((hkeeps nofun).1 ⟨false, true⟩ rfl rfl)

end PgEmbeddedSetup.Signals
