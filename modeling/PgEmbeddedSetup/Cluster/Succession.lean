import PgEmbeddedSetup.Base.Transition
import PgEmbeddedSetup.Cluster.Shutdown

/-!
# Successive clusters on one data directory

Clusters are started one after the other on the same data directory, and the programs that stop them
are interleaved in any way: the client's call of `stop_async` or its drop of the guard, the blocking
thread that `stop_async` waits for, the task that a dropped guard leaves behind, and the exit hook.
The log records which cluster an instruction takes effect on.
-/

namespace PgEmbeddedSetup.Cluster

open Program

/-- What a client does with its cluster. One that is forgotten stays as it is. -/
inductive Consumption where
  | stopAsync
  | drop
  deriving DecidableEq, Repr

abbrev StopResult := Option (Except String Unit)

def Consumption.run : Consumption → ClusterGuard → Code StopResult
  | .stopAsync, guard => Cluster.stopAsync guard
  | .drop, guard => do
    guard.drop
    pure none

/-- A cluster with the programs that act for it. A guard is dropped once and `stop_async` awaits one
thread, so there is one program of each kind. `requests` counts the stops it was asked for. -/
structure TestCluster where
  guard : ClusterGuard
  consumed : Option Consumption
  main : Code StopResult
  blocking : Option (Code (Except String Unit))
  detached : Code Unit
  requests : Nat

def TestCluster.new (guard : ClusterGuard) : TestCluster :=
  ⟨guard, none, .ret none, none, .ret (), 0⟩

/-- `stop_async` has returned `Ok`. -/
def TestCluster.stoppedOk (c : TestCluster) : Bool :=
  match c.main with
  | .ret (some (.ok ())) => true
  | _ => false

/-- A request to stop the server of the data directory. -/
def Instr.isStop : Instr → Bool
  | .invokeAsRoot .stop | .stopPostgres _ => true
  | .kill _ .sigterm | .kill _ .sigkill => true
  | _ => false

def Instr.isRemoval : Instr → Bool
  | .removeDirAll _ | .invokeAsRoot .cleanup | .invokeAsRoot .cleanupFull => true
  | _ => false

/-- An instruction that was executed for the cluster `issuer`, the cluster it took effect on, and
whether `stop_async` of the issuer had returned `Ok` before. -/
structure Entry where
  issuer : Nat
  instr : Instr
  hit : Option Nat
  afterOk : Bool

/-- `running` is the cluster whose server runs on the directory, `hook` the one whose settings the
exit hook has. -/
structure State where
  clusters : List TestCluster
  running : Option Nat
  hook : Option Nat
  exiting : Code Unit
  log : List Entry

def State.init : State := ⟨[], none, none, .ret (), []⟩

/-- A program of a cluster. -/
inductive Role where
  | main
  | blocking
  | detached
  deriving DecidableEq, Repr

/-- The answers to the instructions are part of the event, and so is whether the instruction takes
effect. -/
inductive Action where
  | start (guard : ClusterGuard)
  | serverExit
  | consume (cluster : Nat) (how : Consumption)
  | register (cluster : Nat)
  | exit
  | advance (cluster : Nat) (role : Role) (answers : (i : Instr) → i.Answer) (effective : Bool)
  | advanceHook (answers : (i : Instr) → i.Answer) (effective : Bool)

/-- A stop takes effect on the running cluster, a removal on the last one that was started. -/
def State.perform (s : State) (issuer : Nat) (afterOk : Bool) (i : Instr) (effective : Bool) :
    State :=
  if i.isStop then
    { s with
      running := if effective then none else s.running
      log := s.log ++ [⟨issuer, i, if effective then s.running else none, afterOk⟩] }
  else if i.isRemoval then
    { s with
      log := s.log ++
        [⟨issuer, i, if effective then some (s.clusters.length - 1) else none, afterOk⟩] }
  else s

namespace TestCluster

/-- The programs that an instruction starts, and the requests it makes. -/
def launch (c : TestCluster) (i : Instr) : TestCluster :=
  match i with
  | .spawn task => { c with detached := task.run }
  | .spawnBlocking bootstrap => { c with blocking := some (stopViaWorkerSync bootstrap) }
  | i => if i.isStop then { c with requests := c.requests + 1 } else c

/-- The thread is joined when it has finished, and with its result. -/
def answer (c : TestCluster) (answers : (i : Instr) → i.Answer) : (i : Instr) → Option i.Answer
  | .join =>
    match answers .join with
    | .finished _ =>
      match c.blocking with
      | some (.ret result) => some (.finished result)
      | _ => none
    | other => some other
  | i => some (answers i)

/-- The next instruction of a program, and the cluster after it. -/
def advance (c : TestCluster) (answers : (i : Instr) → i.Answer) :
    Role → Option (Instr × TestCluster)
  | .main =>
    match c.main with
    | .exec i k => (c.answer answers i).map fun a => (i, { c.launch i with main := k a })
    | .ret _ => none
  | .blocking =>
    match c.blocking with
    | some (.exec i k) => some (i, { c.launch i with blocking := some (k (answers i)) })
    | _ => none
  | .detached =>
    match c.detached with
    | .exec i k => some (i, { c.launch i with detached := k (answers i) })
    | .ret _ => none

end TestCluster

def TestBootstrapSettings.shutdownState (bootstrap : TestBootstrapSettings) : ShutdownState :=
  ⟨bootstrap.settings, bootstrap.shutdownTimeout, bootstrap.cleanupMode⟩

/-- `register_shutdown_hook` keeps the first state. -/
def step (s : State) : Action → Option State
  | .start guard =>
    if s.running = none then
      some { s with
        clusters := s.clusters ++ [TestCluster.new guard]
        running := some s.clusters.length }
    else none
  | .serverExit => some { s with running := none }
  | .consume cluster how =>
    match s.clusters[cluster]? with
    | some c =>
      if c.consumed = none then
        some { s with
          clusters := s.clusters.set cluster
            { c with consumed := some how, main := how.run c.guard } }
      else none
    | none => none
  | .register cluster =>
    if cluster < s.clusters.length then
      some (if s.hook = none then { s with hook := some cluster } else s)
    else none
  | .exit =>
    some { s with exiting := shutdownCallback ((s.hook.bind (s.clusters[·]?)).map
      (·.guard.bootstrap.shutdownState)) }
  | .advance cluster role answers effective =>
    match s.clusters[cluster]? with
    | some c => (c.advance answers role).map fun a =>
        ({ s with clusters := s.clusters.set cluster a.2 } : State).perform cluster c.stoppedOk a.1
          effective
    | none => none
  | .advanceHook answers effective =>
    match s.exiting, s.hook with
    | .exec i k, some cluster =>
      some (({ s with exiting := k (answers i) } : State).perform cluster
        ((s.clusters[cluster]?).any (·.stoppedOk)) i effective)
    | .exec i k, none => some { s with exiting := k (answers i) }
    | .ret _, _ => none

end PgEmbeddedSetup.Cluster
