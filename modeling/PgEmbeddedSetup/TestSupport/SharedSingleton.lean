import PgEmbeddedSetup.Base.Deadlock

/-!
# The shared singletons

`shared_cluster_handle` and `shared_cluster` hold their mutex while they make a cluster, which takes
`ENV_LOCK` unless the thread holds it, and they leak the cluster with its environment guards. Threads
make and drop guards and clusters of their own on the side. Of an environment guard only its part in
`ENV_LOCK` is kept here: the number of live scopes of each thread, where the first takes the lock and
the last gives it back.
-/

namespace PgEmbeddedSetup.TestSupport

open Program Transition Interleave

/-- `SHARED_CLUSTER_HANDLE` and `SHARED_CLUSTER`. -/
inductive Singleton where
  | handle
  | cluster
  deriving DecidableEq, Repr

/-- `SharedHandleState` and `SharedClusterState`. -/
inductive SharedState where
  | uninitialised
  | initialised
  | failed
  deriving DecidableEq, Repr

inductive Outcome where
  | ok
  | err
  | panicked
  deriving DecidableEq, Repr

/-- `resolve_worker_path` finds that no worker is required, finds the worker, or panics. -/
inductive WorkerPath where
  | notRequired
  | found
  | missing
  deriving DecidableEq, Repr

inductive Lock where
  | env
  | shared (m : Singleton)
  deriving DecidableEq, Repr

/-- `getOrInit` is the call before the mutex is locked. `enterScope` is `enter_scope` up to `ENV_LOCK`,
which says whether the lock has to be taken, and `takeEnvLock` the rest of it. -/
inductive Instr where
  | getOrInit (m : Singleton)
  | lockShared (m : Singleton)
  | readShared (m : Singleton)
  | writeShared (m : Singleton) (state : SharedState)
  | unlockShared (m : Singleton)
  | resolveWorkerPath
  | bootstrapForTests
  | startPostgres
  | enterScope
  | takeEnvLock
  | exitScope
  | forget (guards : Nat)
  deriving DecidableEq, Repr

@[reducible] def Instr.Answer : Instr → Type
  | .readShared _ => SharedState
  | .resolveWorkerPath => WorkerPath
  | .bootstrapForTests => Outcome
  | .startPostgres => Outcome
  | .enterScope => Bool
  | _ => Unit

abbrev Code := Prog Instr Instr.Answer

def call (i : Instr) : Code i.Answer := Prog.call i

/-! ### The functions -/

/-- `ScopedEnv::apply`. -/
def ScopedEnv.apply : Code Unit := do
  if ← call .enterScope then
    call .takeEnvLock

def ScopedEnv.drop : Code Unit := call .exitScope

/-- Whether the helper made a guard, or none where it panics. -/
def ensureWorkerEnv : Code (Option Bool) := do
  match ← call .resolveWorkerPath with
  | .notRequired => pure (some false)
  | .found => do
    ScopedEnv.apply
    pure (some true)
  | .missing => pure none

/-- `TestCluster::new`. A cluster that it returns holds a guard. -/
def TestCluster.new : Code Outcome := do
  match ← call .bootstrapForTests with
  | .ok => do
    ScopedEnv.apply
    match ← call .startPostgres with
    | .ok => pure .ok
    | r => do
      ScopedEnv.drop
      pure r
  | r => pure r

def dropWorkerGuard (workerGuard : Bool) : Code Unit :=
  if workerGuard then ScopedEnv.drop else pure ()

/-- The arm of `Uninitialised`. A cluster is leaked with the worker guard that was attached to it. -/
def initialise (m : Singleton) : Code Outcome := do
  match ← ensureWorkerEnv with
  | none => pure .panicked
  | some workerGuard =>
    match ← TestCluster.new with
    | .ok => do
      let _ ← call (.forget (if workerGuard then 2 else 1))
      let _ ← call (.writeShared m .initialised)
      pure .ok
    | .err => do
      let _ ← call (.writeShared m .failed)
      dropWorkerGuard workerGuard
      pure .err
    | .panicked => do
      dropWorkerGuard workerGuard
      pure .panicked

/-- `shared_cluster_handle` and `shared_cluster`, which do the same on a mutex each. A poisoned mutex
is locked all the same. -/
def shared (m : Singleton) : Code Outcome := do
  let _ ← call (.getOrInit m)
  let _ ← call (.lockShared m)
  let r ← match ← call (.readShared m) with
    | .initialised => pure .ok
    | .failed => pure .err
    | .uninitialised => initialise m
  let _ ← call (.unlockShared m)
  pure r

def sharedClusterHandle : Code Outcome := shared .handle

def sharedCluster : Code Outcome := shared .cluster

/-- What a thread does, in any order and nesting. A cluster is dropped as the guards that it holds. -/
inductive Client where
  | finish
  | scopedEnv (next : Client)
  | newCluster (next : Outcome → Client)
  | drop (next : Client)
  | sharedClusterHandle (next : Outcome → Client)
  | sharedCluster (next : Outcome → Client)

def Client.run : Client → Code Unit
  | .finish => .ret ()
  | .scopedEnv next => ScopedEnv.apply >>= fun _ => next.run
  | .newCluster next => TestCluster.new >>= fun r => (next r).run
  | .drop next => ScopedEnv.drop >>= fun _ => next.run
  | .sharedClusterHandle next => TestSupport.sharedClusterHandle >>= fun r => (next r).run
  | .sharedCluster next => TestSupport.sharedCluster >>= fun r => (next r).run

/-! ### The shared state -/

/-- `waiting` is the lock that a thread has begun to wait for, `depth` the number of its live scopes
and `leaked` how many of them no guard ends any more. -/
structure State where
  envOwner : Option Nat
  mutexes : Singleton → Option Nat
  states : Singleton → SharedState
  waiting : Nat → Option Lock
  depth : Nat → Nat
  leaked : Nat → Nat

def State.init : State :=
  ⟨none, fun _ => none, fun _ => .uninitialised, fun _ => none, fun _ => 0, fun _ => 0⟩

/-- What the environment decides. -/
inductive Choice where
  | go
  | worker (path : WorkerPath)
  | ends (r : Outcome)
  deriving DecidableEq, Repr

def State.waitFor (s : State) (t : Nat) (l : Option Lock) : State :=
  { s with waiting := Function.update s.waiting t l }

def State.enter (s : State) (t : Nat) : State :=
  { s with depth := Function.update s.depth t (s.depth t + 1) }

def sem : Semantics Nat Instr Instr.Answer State Choice
  | t, .getOrInit m, _, s => some ((), s.waitFor t (some (.shared m)))
  | t, .lockShared m, _, s =>
    if s.mutexes m = none then
      some ((), { s.waitFor t none with mutexes := Function.update s.mutexes m (some t) })
    else none
  | _, .readShared m, _, s => some (s.states m, s)
  | _, .writeShared m state, _, s =>
    some ((), { s with states := Function.update s.states m state })
  | _, .unlockShared m, _, s =>
    some ((), { s with mutexes := Function.update s.mutexes m none })
  | _, .resolveWorkerPath, .worker path, s => some (path, s)
  | _, .bootstrapForTests, .ends r, s => some (r, s)
  | _, .startPostgres, .ends r, s => some (r, s)
  | t, .enterScope, _, s =>
    if s.depth t > 0 then some (false, s.enter t) else some (true, s.waitFor t (some .env))
  | t, .takeEnvLock, _, s =>
    if s.envOwner = none then some ((), { (s.waitFor t none).enter t with envOwner := some t })
    else none
  | t, .exitScope, _, s =>
    if s.leaked t < s.depth t then
      some ((), { s with
        depth := Function.update s.depth t (s.depth t - 1)
        envOwner := if s.depth t = 1 then none else s.envOwner })
    else none
  | t, .forget guards, _, s =>
    if s.leaked t + guards ≤ s.depth t then
      some ((), { s with leaked := Function.update s.leaked t (s.leaked t + guards) })
    else none
  | _, _, _, _ => none

abbrev System := Config Nat Instr Instr.Answer Unit State

def next : System → Nat × Choice → Option System := step sem

def start (clients : Nat → Client) : System := ⟨State.init, fun t => (clients t).run⟩

def locking : Locking Nat Instr State Lock where
  wants _ _
    | .lockShared m => some (.shared m)
    | .takeEnvLock => some .env
    | _ => none
  owner s
    | .env => s.envOwner
    | .shared m => s.mutexes m

/-- No thread waits for an owner that can never release its lock: there is no cycle of waits, and no
thread waits for `ENV_LOCK` while its owner has leaked a guard. -/
structure NeverStuck (c : System) : Prop where
  live : ¬ locking.Deadlocked c
  unleaked : ∀ t t', locking.Wants c t .env → c.state.envOwner = some t' → c.state.leaked t' = 0

/-- What keeps the threads from getting stuck, at each step. A thread without scopes begins to wait
for `ENV_LOCK` only while its owner has not leaked a guard and does not wait for a mutex that the
thread holds. A guard is leaked only while no thread waits for `ENV_LOCK`. The owner of `ENV_LOCK` calls
a singleton only while the holder of its mutex does not wait for `ENV_LOCK`. -/
def Safe (s : State) (t : Nat) (i : Instr) (_ : Choice) : Prop :=
  match i with
  | .enterScope => s.depth t = 0 → ∀ t', s.envOwner = some t' → s.leaked t' = 0 ∧
      ∀ m, s.mutexes m = some t → s.waiting t' ≠ some (.shared m)
  | .forget _ => ∀ t', s.waiting t' ≠ some .env
  | .getOrInit m => s.envOwner = some t →
      ∀ t', s.mutexes m = some t' → s.waiting t' ≠ some .env
  | _ => True

end PgEmbeddedSetup.TestSupport
