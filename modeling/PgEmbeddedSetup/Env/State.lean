import PgEmbeddedSetup.Base.Outcome
import PgEmbeddedSetup.Base.UndoLog

/-!
# The thread state behind scoped environment guards

`ThreadStateCore` of `env/state.rs`, with the process environment and `ENV_LOCK` it works on. The
vector `stack` is a list with the top entry last. A call that panics keeps what it had already done
to the state, as an unwinding Rust call does.

`OsString` is the Unix one: bytes. The standard library's part is that of `env::set_var` and
`env::remove_var`, which panic on an empty name, a name with `=` and on NUL bytes, and of `Mutex`,
whose guard poisons the lock when it is dropped by a thread that began to panic after locking.
-/

namespace PgEmbeddedSetup.Env

open Outcome

abbrev OsString := List UInt8

/-- `b'='`. -/
def equalsByte : UInt8 := 61

/-- The environment of a process. No C string holds a NUL byte, so no value does. -/
structure ProcessEnvironment where
  var : OsString → Option OsString
  noNul : ∀ key value, var key = some value → 0 ∉ value

/-- A name and the value to set it to, or `none` to unset it. -/
abbrev Var := OsString × Option OsString

/-- The guard of `ENV_LOCK`. Besides whether the thread was already panicking when it locked (which
`MutexGuard` keeps), it remembers the environment of that moment; no code reads this field. -/
structure LockGuard where
  panicking : Bool
  acquiredEnv : OsString → Option OsString

/-- `ENV_LOCK`. -/
structure EnvLock where
  held : Bool
  poisoned : Bool
  deriving DecidableEq, Repr

structure GuardState where
  saved : List Var
  finished : Bool
  deriving DecidableEq, Repr

structure ThreadStateCore where
  depth : Nat
  lock : Option LockGuard
  stack : List GuardState

def ThreadStateCore.new : ThreadStateCore := ⟨0, none, []⟩

/-- One record of `log_corruption`. -/
structure Corruption where
  reason : String
  depth : Nat
  stackLen : Nat
  hasLock : Bool
  index : Option Nat
  deriving DecidableEq, Repr

/-- What a thread's calls work on: its state, the environment and the lock shared with other
threads, whether the thread is unwinding, and the errors logged so far. -/
structure World where
  core : ThreadStateCore
  env : OsString → Option OsString
  envLock : EnvLock
  panicking : Bool
  corruptions : List Corruption

/-- How a call may stop: a panic, or a wait for `ENV_LOCK` while it is held. -/
inductive Stop where
  | panic (message : String)
  | blocked
  deriving DecidableEq, Repr

abbrev ScopeM := EStateM Stop World

/-- `assert!` and, in a debug build, `debug_assert!`. -/
def assertM (condition : Bool) (message : String) : ScopeM Unit :=
  if condition then pure () else throw (.panic message)

/-! ### `StdEnvLock` -/

def lockEnvMutex : ScopeM LockGuard := do
  let w ← get
  if w.envLock.held then throw .blocked
  modify fun w => { w with envLock := { w.envLock with held := true } }
  pure ⟨w.panicking, w.env⟩

def ensureLockIsClean : ScopeM Unit :=
  modify fun w =>
    if w.envLock.poisoned then { w with envLock := { w.envLock with poisoned := false } } else w

/-- Dropping the guard releases the lock, poisoning it when the thread started to panic while it
was held. -/
def dropGuard (guard : LockGuard) : ScopeM Unit :=
  modify fun w => { w with
    envLock := ⟨false, w.envLock.poisoned || (!guard.panicking && w.panicking)⟩ }

/-! ### The environment -/

def containsEquals (key : OsString) : Bool := key.contains equalsByte

/-- `env::set_var`. -/
def setVar (key value : OsString) : ScopeM Unit :=
  if key.isEmpty || containsEquals key || key.contains 0 || value.contains 0 then
    throw (.panic "failed to set environment variable")
  else modify fun w => { w with env := UndoLog.assign w.env (key, some value) }

/-- `env::remove_var`. -/
def removeVar (key : OsString) : ScopeM Unit :=
  if key.isEmpty || containsEquals key || key.contains 0 then
    throw (.panic "failed to remove environment variable")
  else modify fun w => { w with env := UndoLog.assign w.env (key, none) }

def validateEnvKey (key : OsString) : ScopeM Unit := do
  assertM (!key.isEmpty) "ScopedEnv received an empty environment variable name"
  assertM (!containsEquals key) "ScopedEnv received an environment variable name containing '='"

def applySingleVar (key : OsString) (newValue : Option OsString) : ScopeM (Option OsString) := do
  assertM (!key.isEmpty && !containsEquals key) "invalid env var name"
  let previous := (← get).env key
  match newValue with
  | some value => setVar key value
  | none => removeVar key
  pure previous

/-- The loop of `apply_env_vars`. -/
def applyEach : List Var → List Var → ScopeM (List Var)
  | [], saved => pure saved
  | (key, newValue) :: vars, saved => do
    validateEnvKey key
    let previous ← applySingleVar key newValue
    applyEach vars (saved ++ [(key, previous)])

def applyEnvVars (vars : List Var) : ScopeM (List Var) := do
  assertM (← get).core.lock.isSome
    "ScopedEnv must hold the mutex before mutating the environment"
  applyEach vars []

/-- The loop of `restore_saved`, over the reversed list. -/
def restoreEach : List Var → ScopeM Unit
  | [] => pure ()
  | (key, value) :: rest => do
    match value with
    | some previous => setVar key previous
    | none => removeVar key
    restoreEach rest

def restoreSaved (saved : List Var) : ScopeM Unit :=
  restoreEach saved.reverse

/-! ### `ThreadStateCore` -/

def modifyCore (f : ThreadStateCore → ThreadStateCore) : ScopeM Unit :=
  modify fun w => { w with core := f w.core }

def takeLock : ScopeM (Option LockGuard) := do
  let lock := (← get).core.lock
  modifyCore fun c => { c with lock := none }
  pure lock

def acquireLockIfNeeded : ScopeM Unit := do
  if (← get).core.depth > 0 then return ()
  assertM (← get).core.lock.isNone "ScopedEnv depth desynchronised: mutex still held"
  ensureLockIsClean
  let guard ← lockEnvMutex
  modifyCore fun c => { c with lock := some guard }

def enterScope (vars : List Var) : ScopeM Nat := do
  acquireLockIfNeeded
  modifyCore fun c => { c with depth := c.depth + 1 }
  let saved ← applyEnvVars vars
  let index := (← get).core.stack.length
  modifyCore fun c => { c with stack := c.stack ++ [⟨saved, false⟩] }
  pure index

def logCorruption (reason : String) (index : Option Nat) : ScopeM Unit :=
  modify fun w => { w with corruptions := w.corruptions ++
    [⟨reason, w.core.depth, w.core.stack.length, w.core.lock.isSome, index⟩] }

def ensureLockForRestore : ScopeM Unit := do
  if (← get).core.lock.isNone then
    ensureLockIsClean
    let guard ← lockEnvMutex
    modifyCore fun c => { c with lock := some guard }

/-- The loop of `restore_all_scopes`, over the stack from the top. -/
def restoreEachScope : List GuardState → ScopeM Unit
  | [] => pure ()
  | state :: rest => do
    modifyCore fun c => { c with stack := rest.reverse }
    restoreSaved state.saved
    restoreEachScope rest

def restoreAllScopes : ScopeM Unit := do
  if (← get).core.stack.isEmpty then return ()
  ensureLockForRestore
  restoreEachScope (← get).core.stack.reverse

def resetDepthAndUnlock : ScopeM Unit := do
  modifyCore fun c => { c with depth := 0 }
  match ← takeLock with
  | some guard => dropGuard guard
  | none => pure ()

def forceRestoreAndReset (reason : String) (index : Option Nat) : ScopeM Unit := do
  logCorruption reason index
  let w ← get
  if w.core.stack.isEmpty then
    if w.core.lock.isSome then resetDepthAndUnlock
    else modifyCore fun c => { c with depth := 0 }
    return ()
  ensureLockForRestore
  restoreAllScopes
  resetDepthAndUnlock

/-- The loop of `restore_finished_scopes`, over the stack from the top: an unfinished entry is
pushed back and ends it. -/
def restoreWhileFinished : List GuardState → ScopeM Unit
  | [] => pure ()
  | guardState :: rest => do
    modifyCore fun c => { c with stack := rest.reverse }
    if !guardState.finished then
      modifyCore fun c => { c with stack := c.stack ++ [guardState] }
    else
      restoreSaved guardState.saved
      restoreWhileFinished rest

def restoreFinishedScopes : ScopeM Unit := do
  if (← get).core.stack.getLast?.any (·.finished) then ensureLockForRestore
  restoreWhileFinished (← get).core.stack.reverse

def finishScope (index : Nat) : ScopeM Bool := do
  match (← get).core.stack[index]? with
  | none =>
    forceRestoreAndReset "ScopedEnv finished out of order" (some index)
    pure false
  | some state =>
    if state.finished then
      forceRestoreAndReset "ScopedEnv finished twice" (some index)
      pure false
    else
      modifyCore fun c => { c with stack := c.stack.set index { state with finished := true } }
      restoreFinishedScopes
      pure true

def releaseOutermostLock : ScopeM Unit := do
  assertM (← get).core.stack.isEmpty
    "ScopedEnv stack must be empty once recursion depth reaches zero"
  match ← takeLock with
  | some guard => dropGuard guard
  | none => assertM false "ScopedEnv mutex guard missing at depth zero"

def exitScope (index : Nat) : ScopeM Unit := do
  if (← get).core.depth = 0 then
    forceRestoreAndReset "ScopedEnv drop without matching apply" none
    return ()
  modifyCore fun c => { c with depth := c.depth - 1 }
  if !(← finishScope index) then return ()
  if (← get).core.depth = 0 then releaseOutermostLock

end PgEmbeddedSetup.Env
