import Mathlib.Tactic
import PgEmbeddedSetup.Cluster.Succession

/-!
# A cluster is stopped once

While `stop_async` is not called on a worker-managed cluster, nor on the cluster that the exit hook is
registered for, each cluster is asked to stop once at most, and after `stop_async` has returned `Ok`
nothing more is executed for it (`stopped_once_unless_worker_managed`). On a worker-managed cluster
`stop_async` stops the server, and the guard that it drops afterwards stops it once more: the flag
`is_managed_via_worker` is still set.

The invariant gives the programs of a cluster a budget. Asking for a stop costs one, and so does
starting a program, which has a budget of one itself.
-/

namespace PgEmbeddedSetup.Cluster

open Program Transition

def Instr.cost (i : Instr) : Nat :=
  match i with
  | .spawn _ | .spawnBlocking _ => 1
  | i => if i.isStop then 1 else 0

/-- The instruction starts no other program. -/
def Instr.Local : Instr → Prop
  | .spawn _ | .spawnBlocking _ => False
  | _ => True

/-! ### Costs of the programs -/

theorem cost_cleanupInProcess (mode : CleanupMode) (settings : Settings) :
    (cleanupInProcess mode settings).All fun i => i.cost = 0 ∧ i.Local := by
  have hremove : ∀ path, (removeDirAllIfExists path).All fun i => i.cost = 0 ∧ i.Local := by
    intro path
    unfold removeDirAllIfExists
    split
    · trivial
    · unfold tryRemoveDirAll
      split
      · refine ⟨⟨rfl, trivial⟩, fun answer => ?_⟩
        cases answer <;> trivial
      · trivial
  unfold cleanupInProcess
  split
  · trivial
  · refine Prog.All.bind ?_ fun _ => ?_
    · unfold cleanupDataDir
      split
      · exact hremove _
      · trivial
    · unfold cleanupInstallDir
      split
      · refine (hremove _).bind fun _ => ?_
        split
        · trivial
        · split
          · exact hremove _
          · trivial
      · trivial

theorem cost_cleanupWorkerManaged (bootstrap : TestBootstrapSettings) :
    (cleanupWorkerManagedWithRuntime bootstrap).All fun i => i.cost = 0 := by
  unfold cleanupWorkerManagedWithRuntime
  cases bootstrap.cleanupMode with
  | none => trivial
  | dataOnly => exact ⟨rfl, fun _ => trivial⟩
  | full => exact ⟨rfl, fun _ => trivial⟩

theorem cost_cleanup_free {mode : CleanupMode} {settings : Settings} (n : Nat) :
    (cleanupInProcess mode settings).CostAtMost Instr.cost n :=
  Prog.All.costAtMost ((cost_cleanupInProcess mode settings).imp fun _ h => h.1) n

theorem cost_stopWorkerManaged (bootstrap : TestBootstrapSettings) :
    (stopWorkerManagedWithRuntime bootstrap).CostAtMost Instr.cost 1 := by
  refine ⟨le_rfl, fun answer => ?_⟩
  cases answer with
  | error err => trivial
  | ok u =>
    show (cleanupWorkerManagedWithRuntime bootstrap >>= fun _ => _).CostAtMost _ _
    refine Prog.CostAtMost.bind ((cost_cleanupWorkerManaged bootstrap).costAtMost _) fun _ m => ?_
    exact (cost_cleanup_free m).bind fun _ _ => trivial

theorem cost_stopViaWorkerSync (bootstrap : TestBootstrapSettings) :
    (stopViaWorkerSync bootstrap).CostAtMost Instr.cost 1 := by
  refine ⟨Nat.zero_le 1, fun answer => ?_⟩
  cases answer with
  | error err => trivial
  | ok u => exact cost_stopWorkerManaged bootstrap

theorem cost_task (task : Task) : task.run.CostAtMost Instr.cost 1 := by
  cases task with
  | workerStop bootstrap =>
    refine ⟨Nat.zero_le 1, fun answer => ?_⟩
    cases answer with
    | error err => trivial
    | ok u => exact (cost_stopWorkerManaged bootstrap).bind fun _ _ => trivial
  | asyncCleanup bootstrap =>
    refine ⟨le_rfl, fun answer => ?_⟩
    cases answer with
    | stopped => exact cost_cleanup_free _
    | failed err => trivial
    | timedOut => trivial
    | interrupted => trivial

theorem cost_spawnOnCurrent (task : Task) :
    (ClusterGuard.spawnOnCurrent task).CostAtMost Instr.cost 1 := by
  refine ⟨Nat.zero_le 1, fun answer => ?_⟩
  cases answer with
  | false => trivial
  | true => exact ⟨le_rfl, fun _ => trivial⟩

theorem cost_drop (guard : ClusterGuard) : guard.drop.CostAtMost Instr.cost 1 := by
  unfold ClusterGuard.drop ClusterGuard.performShutdown
  split
  · trivial
  split
  · unfold ClusterGuard.dropAsyncCluster
    split
    · exact cost_spawnOnCurrent _
    split
    · exact cost_spawnOnCurrent _
    · trivial
  · unfold ClusterGuard.dropSyncCluster
    split
    · exact (cost_stopWorkerManaged _).bind fun _ _ => trivial
    split
    · refine ⟨le_rfl, fun answer => ?_⟩
      cases answer with
      | stopped => exact cost_cleanup_free _
      | failed err => trivial
      | timedOut => trivial
      | interrupted => trivial
    · trivial

theorem drop_stopAsyncPath {guard : ClusterGuard} (h : guard.isManagedViaWorker = false) :
    (stopAsyncPath guard).2.drop = .ret () := by
  unfold stopAsyncPath
  cases hpg : guard.postgres <;>
    simp [h, hpg, ClusterGuard.drop, ClusterGuard.shouldSkipShutdown]

theorem stopAsync_inProcess {guard : ClusterGuard} (h : guard.isManagedViaWorker = false) :
    stopAsync guard = stopInProcessAsync guard.bootstrap ∨
      stopAsync guard = .ret (some (.ok ())) := by
  unfold stopAsync
  rw [drop_stopAsyncPath h]
  cases hpg : guard.postgres with
  | true =>
    refine Or.inl ?_
    simp only [stopAsyncPath, h, hpg, Bool.false_eq_true, if_false, if_true]
    exact Prog.bind_ret _
  | false =>
    refine Or.inr ?_
    simp only [stopAsyncPath, h, hpg, Bool.false_eq_true, if_false]
    rfl

theorem cost_stopInProcessAsync (bootstrap : TestBootstrapSettings) :
    (stopInProcessAsync bootstrap).CostAtMost Instr.cost 1 := by
  refine ⟨le_rfl, fun answer => ?_⟩
  cases answer with
  | stopped => exact (cost_cleanup_free _).bind fun _ _ => trivial
  | failed err => trivial
  | timedOut => trivial
  | interrupted => trivial

theorem local_stopInProcessAsync (bootstrap : TestBootstrapSettings) :
    (stopInProcessAsync bootstrap).All Instr.Local := by
  refine ⟨trivial, fun answer => ?_⟩
  cases answer with
  | stopped =>
    exact ((cost_cleanupInProcess _ _).imp fun _ h => h.2).bind fun _ => trivial
  | failed err => trivial
  | timedOut => trivial
  | interrupted => trivial

/-! ### One cluster -/

structure TestCluster.Inv (c : TestCluster) (registered : Prop) : Prop where
  budget : ∃ m b d, c.main.CostAtMost Instr.cost m ∧
    (∀ p, c.blocking = some p → p.CostAtMost Instr.cost b) ∧ c.detached.CostAtMost Instr.cost d ∧
    c.requests + m + b + d ≤ 1
  unconsumed : c.consumed = none →
    c.main = .ret none ∧ c.blocking = none ∧ c.detached = .ret () ∧ c.requests = 0
  stopped : c.consumed = some .stopAsync →
    c.main.All Instr.Local ∧ c.blocking = none ∧ c.detached = .ret () ∧ ¬ registered
  dropped : c.consumed = some .drop → c.main.Returns (· = none)

section Cluster

variable {c c' : TestCluster} {registered : Prop}

theorem TestCluster.inv_new (guard : ClusterGuard) : (TestCluster.new guard).Inv registered :=
  ⟨⟨0, 0, 0, trivial, nofun, trivial, Nat.zero_le 1⟩, fun _ => ⟨rfl, rfl, rfl, rfl⟩, nofun, nofun⟩

theorem TestCluster.Inv.consume (h : c.Inv registered) (hfree : c.consumed = none)
    (how : Consumption)
    (hstop : how = .stopAsync → c.guard.isManagedViaWorker = false ∧ ¬ registered) :
    TestCluster.Inv { c with consumed := some how, main := how.run c.guard } registered := by
  obtain ⟨-, hblocking, hdetached, hrequests⟩ := h.unconsumed hfree
  have hcost : (how.run c.guard).CostAtMost Instr.cost 1 := by
    cases how with
    | drop => exact (cost_drop c.guard).bind fun _ _ => trivial
    | stopAsync =>
      rcases stopAsync_inProcess (hstop rfl).1 with heq | heq
      · rw [Consumption.run, heq]
        exact cost_stopInProcessAsync _
      · rw [Consumption.run, heq]
        trivial
  refine ⟨⟨1, 0, 0, hcost, fun p hp => ?_, ?_, ?_⟩, nofun, fun heq => ?_, fun heq => ?_⟩
  · rw [hblocking] at hp
    cases hp
  · show c.detached.CostAtMost Instr.cost 0
    rw [hdetached]
    trivial
  · show c.requests + 1 + 0 + 0 ≤ 1
    omega
  · obtain rfl : how = .stopAsync := Option.some.inj heq
    refine ⟨?_, hblocking, hdetached, (hstop rfl).2⟩
    rcases stopAsync_inProcess (hstop rfl).1 with heq | heq
    · rw [Consumption.run, heq]
      exact local_stopInProcessAsync _
    · rw [Consumption.run, heq]
      trivial
  · obtain rfl : how = .drop := Option.some.inj heq
    exact Prog.Returns.bind (Q := fun r : StopResult => r = none) (f := fun _ => .ret none)
      (fun _ => (rfl : (none : StopResult) = none)) c.guard.drop

theorem launch_cases (c : TestCluster) (i : Instr) :
    (∃ task, i = .spawn task) ∨ (∃ bootstrap, i = .spawnBlocking bootstrap) ∨
      (i.cost = (if i.isStop then 1 else 0) ∧
        c.launch i = if i.isStop then { c with requests := c.requests + 1 } else c) := by
  cases i
  case spawn task => exact Or.inl ⟨task, rfl⟩
  case spawnBlocking bootstrap => exact Or.inr (Or.inl ⟨bootstrap, rfl⟩)
  all_goals exact Or.inr (Or.inr ⟨rfl, rfl⟩)

/-- The cost of an instruction is the request it makes or the budget of the program it starts, which
takes the place of the program of that kind. -/
theorem launch_budget (i : Instr) {b d : Nat}
    (hblocking : ∀ p, c.blocking = some p → p.CostAtMost Instr.cost b)
    (hdetached : c.detached.CostAtMost Instr.cost d) :
    ∃ b' d', (∀ p, (c.launch i).blocking = some p → p.CostAtMost Instr.cost b') ∧
      (c.launch i).detached.CostAtMost Instr.cost d' ∧
      (c.launch i).requests + b' + d' ≤ c.requests + b + d + i.cost ∧
      (c.launch i).requests + b' ≤ c.requests + b + i.cost ∧
      (c.launch i).requests + d' ≤ c.requests + d + i.cost := by
  rcases launch_cases c i with ⟨task, rfl⟩ | ⟨bootstrap, rfl⟩ | ⟨hcost, hlaunch⟩
  · have hrequests : (c.launch (.spawn task)).requests = c.requests := rfl
    have hcost : (Instr.spawn task).cost = 1 := rfl
    exact ⟨b, 1, hblocking, cost_task task, by omega, by omega, by omega⟩
  · have hrequests : (c.launch (.spawnBlocking bootstrap)).requests = c.requests := rfl
    have hcost : (Instr.spawnBlocking bootstrap).cost = 1 := rfl
    exact ⟨1, d, fun p hp => Option.some.inj hp ▸ cost_stopViaWorkerSync bootstrap, hdetached,
      by omega, by omega, by omega⟩
  · rw [hlaunch, hcost]
    split
    · refine ⟨b, d, hblocking, hdetached, ?_⟩
      show c.requests + 1 + b + d ≤ _ ∧ c.requests + 1 + b ≤ _ ∧ c.requests + 1 + d ≤ _
      omega
    · exact ⟨b, d, hblocking, hdetached, by omega, by omega, by omega⟩

theorem launch_consumed (c : TestCluster) (i : Instr) :
    (c.launch i).consumed = c.consumed ∧ (c.launch i).main = c.main ∧
      (i.Local → (c.launch i).blocking = c.blocking ∧ (c.launch i).detached = c.detached) := by
  rcases launch_cases c i with ⟨task, rfl⟩ | ⟨bootstrap, rfl⟩ | ⟨-, hlaunch⟩
  · exact ⟨rfl, rfl, False.elim⟩
  · exact ⟨rfl, rfl, False.elim⟩
  · rw [hlaunch]
    split <;> exact ⟨rfl, rfl, fun _ => ⟨rfl, rfl⟩⟩

/-- A cluster whose programs execute nothing more. -/
def TestCluster.Idle (c : TestCluster) : Prop :=
  (∃ a, c.main = .ret a) ∧ c.blocking = none ∧ c.detached = .ret ()

theorem advance_idle (hidle : c.Idle) (answers : (i : Instr) → i.Answer) (role : Role) :
    c.advance answers role = none := by
  obtain ⟨⟨a, hmain⟩, hblocking, hdetached⟩ := hidle
  cases role with
  | main => rw [TestCluster.advance, hmain]
  | blocking => rw [TestCluster.advance, hblocking]
  | detached => rw [TestCluster.advance, hdetached]

theorem TestCluster.Inv.idle_of_stoppedOk (h : c.Inv registered) (hok : c.stoppedOk = true) :
    c.Idle ∧ ¬ registered := by
  have hmain : c.main = .ret (some (.ok ())) := by
    unfold TestCluster.stoppedOk at hok
    split at hok
    next heq => exact heq
    next => cases hok
  cases hconsumed : c.consumed with
  | none =>
    rw [(h.unconsumed hconsumed).1] at hmain
    cases hmain
  | some how =>
    cases how with
    | drop =>
      have hret := h.dropped hconsumed
      rw [hmain] at hret
      cases hret
    | stopAsync =>
      obtain ⟨-, hblocking, hdetached, hregistered⟩ := h.stopped hconsumed
      exact ⟨⟨⟨_, hmain⟩, hblocking, hdetached⟩, hregistered⟩

theorem TestCluster.Inv.advance (h : c.Inv registered) {answers : (i : Instr) → i.Answer}
    {role : Role} {i : Instr} (hadvance : c.advance answers role = some (i, c')) :
    c'.Inv registered := by
  obtain ⟨m, b, d, hmain, hblocking, hdetached, hbudget⟩ := h.budget
  obtain ⟨b', d', hblocking', hdetached', hle, hleb, hled⟩ :=
    launch_budget i hblocking hdetached
  obtain ⟨hconsumed, hsame, hlocal⟩ := launch_consumed c i
  have hbusy : c.consumed ≠ none := fun hnone => by
    obtain ⟨hret, hno, hdone, -⟩ := h.unconsumed hnone
    rw [advance_idle ⟨⟨_, hret⟩, hno, hdone⟩] at hadvance
    cases hadvance
  cases role with
  | main =>
    rw [TestCluster.advance] at hadvance
    split at hadvance
    next j k hexec =>
      obtain ⟨answer, -, heq⟩ := Option.map_eq_some_iff.mp hadvance
      cases heq
      rw [hexec] at hmain
      refine ⟨⟨m - i.cost, b', d', hmain.2 answer, hblocking', hdetached', ?_⟩, fun heq => ?_,
        fun heq => ?_, fun heq => ?_⟩
      · have hcost := hmain.1
        show (c.launch i).requests + (m - i.cost) + b' + d' ≤ 1
        omega
      · exact absurd (hconsumed.symm.trans heq) hbusy
      · obtain ⟨hall, hno, hdone, hregistered⟩ := h.stopped (hconsumed.symm.trans heq)
        rw [hexec] at hall
        obtain ⟨hb, hd⟩ := hlocal hall.1
        exact ⟨hall.2 answer, hb.trans hno, hd.trans hdone, hregistered⟩
      · have hret := h.dropped (hconsumed.symm.trans heq)
        rw [hexec] at hret
        exact hret answer
    next => cases hadvance
  | blocking =>
    rw [TestCluster.advance] at hadvance
    split at hadvance
    next j k hexec =>
      cases hadvance
      have hcost := hblocking _ hexec
      refine ⟨⟨m, b - i.cost, d', hsame ▸ hmain, fun p hp => ?_, hdetached', ?_⟩, fun heq => ?_,
        fun heq => ?_, fun heq => ?_⟩
      · exact Option.some.inj hp ▸ hcost.2 _
      · have hle := hcost.1
        show (c.launch i).requests + m + (b - i.cost) + d' ≤ 1
        omega
      · exact absurd (hconsumed.symm.trans heq) hbusy
      · have hno := (h.stopped (hconsumed.symm.trans heq)).2.1
        rw [hexec] at hno
        cases hno
      · exact hsame ▸ h.dropped (hconsumed.symm.trans heq)
    next => cases hadvance
  | detached =>
    rw [TestCluster.advance] at hadvance
    split at hadvance
    next j k hexec =>
      cases hadvance
      rw [hexec] at hdetached
      refine ⟨⟨m, b', d - i.cost, hsame ▸ hmain, hblocking', hdetached.2 _, ?_⟩, fun heq => ?_,
        fun heq => ?_, fun heq => ?_⟩
      · have hle := hdetached.1
        show (c.launch i).requests + m + b' + (d - i.cost) ≤ 1
        omega
      · exact absurd (hconsumed.symm.trans heq) hbusy
      · have hdone := (h.stopped (hconsumed.symm.trans heq)).2.2.1
        rw [hexec] at hdone
        cases hdone
      · exact hsame ▸ h.dropped (hconsumed.symm.trans heq)
    next => cases hadvance

end Cluster

/-! ### All clusters -/

/-- `stop_async` is called on clusters in the process only, and not on the one of the exit hook. -/
def StopsInProcess (s : State) : Action → Prop
  | .consume cluster .stopAsync => ∀ c, s.clusters[cluster]? = some c →
      c.guard.isManagedViaWorker = false ∧ s.hook ≠ some cluster
  | .register cluster => s.hook = none → ∀ c, s.clusters[cluster]? = some c →
      c.consumed ≠ some .stopAsync
  | _ => True

/-- Each cluster is asked to stop once at most, and after `stop_async` has returned `Ok` for it no
instruction of its takes effect on a later cluster. -/
def StoppedOnce (s : State) : Prop :=
  (∀ c ∈ s.clusters, c.requests ≤ 1) ∧
    ∀ e ∈ s.log, e.afterOk = true → ∀ later, e.hit = some later → later ≤ e.issuer

structure State.Inv (s : State) : Prop where
  clusters : ∀ n (c : TestCluster), s.clusters[n]? = some c → c.Inv (s.hook = some n)
  hook : ∀ n, s.hook = some n → n < s.clusters.length
  log : ∀ e ∈ s.log, e.afterOk = false

theorem inv_init : State.init.Inv := ⟨nofun, nofun, nofun⟩

@[simp] theorem perform_clusters (s : State) (issuer : Nat) (afterOk : Bool) (i : Instr)
    (effective : Bool) : (s.perform issuer afterOk i effective).clusters = s.clusters := by
  unfold State.perform
  split
  · rfl
  · split <;> rfl

@[simp] theorem perform_hook (s : State) (issuer : Nat) (afterOk : Bool) (i : Instr)
    (effective : Bool) : (s.perform issuer afterOk i effective).hook = s.hook := by
  unfold State.perform
  split
  · rfl
  · split <;> rfl

theorem perform_log {s : State} (hlog : ∀ e ∈ s.log, e.afterOk = false) (issuer : Nat) (i : Instr)
    (effective : Bool) : ∀ e ∈ (s.perform issuer false i effective).log, e.afterOk = false := by
  have happend : ∀ e' : Entry, e'.afterOk = false → ∀ e ∈ s.log ++ [e'], e.afterOk = false := by
    intro e' he' e he
    rcases List.mem_append.mp he with he | he
    · exact hlog e he
    · exact List.mem_singleton.mp he ▸ he'
  unfold State.perform
  split
  · exact happend _ rfl
  · split
    · exact happend _ rfl
    · exact hlog

theorem State.Inv.perform {s : State} (h : s.Inv) (issuer : Nat) (i : Instr) (effective : Bool) :
    (s.perform issuer false i effective).Inv :=
  ⟨fun n c hc => by
      rw [perform_clusters] at hc
      rw [perform_hook]
      exact h.clusters n c hc,
    fun n hn => by
      rw [perform_hook] at hn
      rw [perform_clusters]
      exact h.hook n hn,
    perform_log h.log issuer i effective⟩

theorem State.Inv.set {s : State} (h : s.Inv) {n : Nat} {c : TestCluster}
    (hc : c.Inv (s.hook = some n)) : State.Inv { s with clusters := s.clusters.set n c } := by
  refine ⟨fun m c' hm => ?_, fun m hm => ?_, h.log⟩
  · rcases eq_or_ne n m with rfl | hne
    · obtain ⟨hlt, rfl⟩ := List.getElem?_eq_some_iff.mp hm
      rwa [List.getElem_set_self]
    · rw [List.getElem?_set_ne hne] at hm
      exact h.clusters m c' hm
  · rw [List.length_set]
    exact h.hook m hm

theorem State.Inv.start {s : State} (h : s.Inv) (guard : ClusterGuard) :
    State.Inv { s with
      clusters := s.clusters ++ [TestCluster.new guard]
      running := some s.clusters.length } := by
  refine ⟨fun n c hc => ?_, fun n hn => ?_, h.log⟩
  · rcases Nat.lt_or_ge n s.clusters.length with hlt | hge
    · rw [List.getElem?_append_left hlt] at hc
      exact h.clusters n c hc
    · rw [List.getElem?_append_right hge] at hc
      obtain rfl := List.mem_singleton.mp (List.mem_of_getElem? hc)
      exact TestCluster.inv_new guard
  · rw [List.length_append]
    exact Nat.lt_add_right 1 (h.hook n hn)

theorem State.Inv.register {s : State} (h : s.Inv) {cluster : Nat} (hlt : cluster < s.clusters.length)
    (hok : ∀ c, s.clusters[cluster]? = some c → c.consumed ≠ some .stopAsync) :
    State.Inv { s with hook := some cluster } := by
  refine ⟨fun n c hc => ?_, fun n hn => Option.some.inj hn ▸ hlt, h.log⟩
  have hinv := h.clusters n c hc
  refine ⟨hinv.budget, hinv.unconsumed, fun hstopped => ?_, hinv.dropped⟩
  obtain ⟨hall, hblocking, hdetached, -⟩ := hinv.stopped hstopped
  refine ⟨hall, hblocking, hdetached, fun hn => ?_⟩
  obtain rfl : cluster = n := Option.some.inj hn
  exact hok c hc hstopped

theorem step_inv {s s' : State} {a : Action} (h : s.Inv) (hcond : StopsInProcess s a)
    (hstep : step s a = some s') : s'.Inv := by
  cases a with
  | start guard =>
    rw [step] at hstep
    split at hstep
    next =>
      cases hstep
      exact h.start guard
    next => cases hstep
  | serverExit =>
    cases hstep
    exact ⟨h.clusters, h.hook, h.log⟩
  | consume cluster how =>
    rw [step] at hstep
    split at hstep
    next c hc =>
      split at hstep
      next hfree =>
        cases hstep
        refine h.set ((h.clusters cluster c hc).consume hfree how fun hstop => ?_)
        subst hstop
        exact hcond c hc
      next => cases hstep
    next => cases hstep
  | register cluster =>
    rw [step] at hstep
    split at hstep
    next hlt =>
      split at hstep
      next hnone =>
        cases hstep
        exact h.register hlt fun c hc => hcond hnone c hc
      next =>
        cases hstep
        exact h
    next => cases hstep
  | exit =>
    cases hstep
    exact ⟨h.clusters, h.hook, h.log⟩
  | advance cluster role answers effective =>
    rw [step] at hstep
    split at hstep
    next c hc =>
      obtain ⟨⟨i, c'⟩, hadvance, rfl⟩ := Option.map_eq_some_iff.mp hstep
      have hinv := h.clusters cluster c hc
      have hok : c.stoppedOk = false := by
        by_contra hok
        have hidle := (hinv.idle_of_stoppedOk (Bool.not_eq_false _ ▸ hok)).1
        rw [advance_idle hidle] at hadvance
        cases hadvance
      rw [hok]
      exact (h.set (hinv.advance hadvance)).perform cluster i effective
    next => cases hstep
  | advanceHook answers effective =>
    rw [step] at hstep
    split at hstep
    next i k cluster hexec hhook =>
      cases hstep
      have hok : (s.clusters[cluster]?).any (·.stoppedOk) = false := by
        cases hc : s.clusters[cluster]? with
        | none => rfl
        | some c =>
          by_contra hok
          exact ((h.clusters cluster c hc).idle_of_stoppedOk (Bool.not_eq_false _ ▸ hok)).2 hhook
      rw [hok]
      have hinv : State.Inv { s with exiting := k (answers i) } := ⟨h.clusters, h.hook, h.log⟩
      exact hinv.perform cluster i effective
    next =>
      cases hstep
      exact ⟨h.clusters, h.hook, h.log⟩
    next => cases hstep

/-- **A cluster is stopped once, unless a worker-managed one is stopped by `stop_async`.** In every
run over successive clusters on one data directory, with any scheduling of the programs that stop
them, in which `stop_async` is called on no worker-managed cluster and not on the cluster of the exit
hook, each cluster is asked to stop once at most, and after `stop_async` has returned `Ok` for a
cluster nothing that is executed for it takes effect on a later one. -/
theorem stopped_once_unless_worker_managed (actions : List Action) {s : State}
    (halong : Along step StopsInProcess actions State.init)
    (hrun : run step actions State.init = some s) : StoppedOnce s := by
  have hinv : s.Inv :=
    run_invariant (fun _ _ _ hs hcond h => step_inv hs hcond h) inv_init halong hrun
  refine ⟨fun c hc => ?_, fun e he hok => ?_⟩
  · obtain ⟨n, hn⟩ := List.mem_iff_getElem?.mp hc
    obtain ⟨m, b, d, -, -, -, hbudget⟩ := (hinv.clusters n c hn).budget
    omega
  · rw [hinv.log e he] at hok
    cases hok

/-- Answers with which every stop succeeds. -/
def obliging : (i : Instr) → i.Answer
  | .buildRuntime => .ok ()
  | .tryCurrent => true
  | .join => .finished (.ok ())
  | .invokeAsRoot _ => .ok ()
  | .stopPostgres _ => .stopped
  | .removeDirAll _ => .removed
  | .tryLockState => true
  | .readPidFile _ => .notFound
  | .kill _ _ => .ok
  | .elapsed => 1
  | .spawn _ | .spawnBlocking _ | .sleep _ => ()

/-- Settings that leave all directories in place. -/
def keepAll : TestBootstrapSettings :=
  ⟨⟨⟨[], nofun⟩, ⟨[], nofun⟩, ⟨[], nofun⟩⟩, .none, 0⟩

/-- A cluster in the process is stopped by `stop_async`, and a second one is started and dropped. -/
theorem stopped_once_in_process :
    ∃ s, run step [.start ⟨true, true, keepAll, false⟩, .consume 0 .stopAsync,
        .advance 0 .main obliging true, .start ⟨false, true, keepAll, false⟩, .consume 1 .drop,
        .advance 1 .main obliging true] State.init = some s ∧ StoppedOnce s := by
  refine ⟨_, rfl, stopped_once_unless_worker_managed
    [.start ⟨true, true, keepAll, false⟩, .consume 0 .stopAsync, .advance 0 .main obliging true,
      .start ⟨false, true, keepAll, false⟩, .consume 1 .drop, .advance 1 .main obliging true] ?_ rfl⟩
  exact along_cons rfl trivial <|
    along_cons rfl (fun c hc => by cases hc; exact ⟨rfl, nofun⟩) <| along_cons rfl trivial <|
    along_cons rfl trivial <| along_cons rfl trivial <| along_cons rfl trivial trivial

/-- `stop_async` on a worker-managed cluster returns `Ok`, and the task that its guard has left stops
the next cluster. -/
theorem stopped_twice_worker_managed :
    ∃ s, run step [.start ⟨true, false, keepAll, true⟩, .consume 0 .stopAsync,
        .advance 0 .main obliging true, .advance 0 .blocking obliging true,
        .advance 0 .blocking obliging true, .advance 0 .main obliging true,
        .advance 0 .main obliging true, .advance 0 .main obliging true,
        .start ⟨true, false, keepAll, true⟩, .advance 0 .detached obliging true,
        .advance 0 .detached obliging true] State.init = some s ∧
      s.clusters.map (·.requests) = [2, 0] ∧
      s.log.map (fun e => (e.issuer, e.hit, e.afterOk)) = [(0, some 0, false), (0, some 1, true)] ∧
      ¬ StoppedOnce s := by
  refine ⟨_, rfl, rfl, rfl, fun h => ?_⟩
  have htwice := h.1 _ List.mem_cons_self
  exact absurd htwice (by decide)

end PgEmbeddedSetup.Cluster
