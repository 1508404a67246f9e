import PgEmbeddedSetup.Env.Spec
import PgEmbeddedSetup.Fs.Ambient
import PgEmbeddedSetup.Worker.Payload
import PgEmbeddedSetup.Worker.Process

/-!
# Requests to a worker

Both sides of a privileged operation. The parent writes the payload to a temporary file, hands it to the
user that the worker will run as, starts the worker with the operation and the path as arguments, waits
for it, and removes the file. The worker reads its arguments and the payload, sets its environment, and
performs the operation.

The JSON text is a parameter. The file is known by its path: `tempfile` makes it absolute, and both sides
follow it from the same root. What an operation does is the subject of other modules, and is one
instruction here.
-/

namespace PgEmbeddedSetup.Request

open Program Env Worker WorkerProcess
open Cluster (WorkerOperation)
open Fs (osString)

/-- `WorkerRequest`. The timeout is in milliseconds. -/
structure WorkerRequest (V : Type) where
  worker : OsString
  settings : Settings V
  envVars : List (String × Option String)
  operation : WorkerOperation
  timeout : Nat

/-- The texts of version requirements and of JSON values. -/
structure Texts (V : Type) extends Adapters V where
  toWriter : Json → List UInt8
  fromSlice : List UInt8 → Option Json

def asStr : WorkerOperation → String
  | .setup => "setup"
  | .start => "start"
  | .stop => "stop"
  | .cleanup => "cleanup"
  | .cleanupFull => "cleanup-full"

/-- A `Command`, with the user and the group to which the child is demoted before `exec`. -/
structure Command where
  program : OsString
  args : List OsString
  identity : Option (Nat × Nat)
  deriving DecidableEq

/-! ### Instructions -/

/-- `child` is a call of `run_command_with_timeout`. -/
inductive ParentInstr where
  | createTemp
  | writeAll (path : OsString) (content : List UInt8)
  | flush (path : OsString)
  | unlink (path : OsString)
  | skipPrivilegeDrop
  | userFromName (name : String)
  | chown (path : OsString) (uid gid : Nat)
  | child (command : Command) (i : WorkerProcess.Instr)

@[reducible] def ParentInstr.Answer : ParentInstr → Type
  | .createTemp => Except String OsString
  | .writeAll _ _ | .flush _ | .unlink _ | .chown _ _ _ => Except String Unit
  | .skipPrivilegeDrop => Bool
  | .userFromName _ => Except String (Option (Nat × Nat))
  | .child _ i => i.Answer

/-- `load` opens a file and reads it to the end. What is at the path may change later, but not what the
handle reads. -/
inductive WorkerInstr (V : Type) where
  | argsOs
  | load (path : OsString)
  | assign (var : Var)
  | perform (operation : WorkerOperation) (settings : Settings V)
  | exit (status : ExitStatus)

@[reducible] def WorkerInstr.Answer {V : Type} : WorkerInstr V → Type
  | .argsOs => List OsString
  | .load _ => Except String (List UInt8)
  | .assign _ | .exit _ => Unit
  | .perform _ _ => Except String Unit

/-- The host may end a worker with a signal. -/
inductive Instr (V : Type) where
  | parent (i : ParentInstr)
  | worker (i : WorkerInstr V)
  | interrupt

@[reducible] def Instr.Answer {V : Type} : Instr V → Type
  | .parent i => i.Answer
  | .worker i => i.Answer
  | .interrupt => Unit

variable {V : Type}

abbrev Code (V : Type) := Prog (Instr V) Instr.Answer

def ask (i : ParentInstr) : Code V i.Answer := Prog.call (Instr.parent i)

def tell (i : WorkerInstr V) : Code V i.Answer := Prog.call (Instr.worker i)

/-! ### The parent -/

inductive RunFailure where
  | message (text : String)
  | context (text err : String)
  | worker (err : RunError)
  | combined (primary cleanup : RunFailure)

/-- A `NamedTempFile` that is dropped is removed, and a failure of that is ignored. -/
def writePayload (texts : Texts V) (request : WorkerRequest V) :
    Code V (Except RunFailure OsString) := do
  match WorkerPayload.new request.settings request.envVars with
  | .error err => pure (.error (.message err))
  | .ok payload =>
    match ← ask .createTemp with
    | .error err => pure (.error (.context "failed to create worker payload file" err))
    | .ok path =>
      match ← ask (.writeAll path (texts.toWriter (payload.serialize texts.toAdapters))) with
      | .error err => do
        let _ ← ask (.unlink path)
        pure (.error (.context "failed to serialise worker payload" err))
      | .ok () =>
        match ← ask (.flush path) with
        | .error err => do
          let _ ← ask (.unlink path)
          pure (.error (.context "failed to flush worker payload" err))
        | .ok () => pure (.ok path)

def resolveNobodyIds : Code V (Except RunFailure (Nat × Nat)) := do
  match ← ask (.userFromName "nobody") with
  | .error err => pure (.error (.context "failed to resolve user 'nobody'" err))
  | .ok none => pure (.error (.message "user 'nobody' not found"))
  | .ok (some ids) => pure (.ok ids)

def chownPayload (path : OsString) (ids : Nat × Nat) : Code V (Except RunFailure Unit) := do
  match ← ask (.chown path ids.1 ids.2) with
  | .error err => pure (.error (.context "failed to chown worker payload to nobody" err))
  | .ok () => pure (.ok ())

def applyPrivilegeDrop (path : OsString) : Code V (Except RunFailure (Option (Nat × Nat))) := do
  match ← resolveNobodyIds with
  | .error err => pure (.error err)
  | .ok ids =>
    match ← chownPayload path ids with
    | .error err => pure (.error err)
    | .ok () => pure (.ok (some ids))

/-- `privileges::apply`, with what it adds to the command. -/
def apply (path : OsString) : Code V (Except RunFailure (Option (Nat × Nat))) := do
  if ← ask .skipPrivilegeDrop then pure (.ok none) else applyPrivilegeDrop path

def commandFor (request : WorkerRequest V) (path : OsString) (identity : Option (Nat × Nat)) :
    Command :=
  ⟨request.worker, [osString (asStr request.operation), path], identity⟩

def configureCommand (request : WorkerRequest V) (path : OsString) :
    Code V (Except RunFailure Command) := do
  match ← apply path with
  | .error err => pure (.error err)
  | .ok identity => pure (.ok (commandFor request path identity))

/-- `run_command_with_timeout`. -/
def runCommand (request : WorkerRequest V) (command : Command) : Code V (Except RunError Output) :=
  (runCommandWithTimeout request.operation request.timeout).interp fun i => ask (.child command i)

def closePayload (path : OsString) : Code V (Except RunFailure Unit) := do
  match ← ask (.unlink path) with
  | .error err => pure (.error (.context "failed to clean up worker payload file" err))
  | .ok () => pure (.ok ())

def combine : Except RunError Output → Except RunFailure Unit → Except RunFailure Output
  | .ok output, .ok () => .ok output
  | .error err, .ok () => .error (.worker err)
  | .ok _, .error err => .error err
  | .error runErr, .error cleanupErr => .error (.combined (.worker runErr) cleanupErr)

/-- `run_worker` of the parent. -/
def launch (request : WorkerRequest V) (path : OsString) (command : Command) :
    Code V (Except RunFailure Output) := do
  let runResult ← runCommand request command
  let cleanupResult ← closePayload path
  pure (combine runResult cleanupResult)

def handleExit (operation : WorkerOperation) (output : Output) : Except RunFailure Unit :=
  if output.status = .code 0 then .ok ()
  else .error (.worker (.failure (errorContext operation) output))

def run (texts : Texts V) (request : WorkerRequest V) : Code V (Except RunFailure Unit) := do
  match ← writePayload texts request with
  | .error err => pure (.error err)
  | .ok path =>
    match ← configureCommand request path with
    | .error err => do
      let _ ← ask (.unlink path)
      pure (.error err)
    | .ok command =>
      match ← launch request path command with
      | .error err => pure (.error err)
      | .ok output => pure (handleExit request.operation output)

/-! ### The worker -/

inductive WorkerError where
  | missingOperation
  | unknownOperation (arg : OsString)
  | missingConfigPath
  | configPathNotUtf8 (path : OsString)
  | unexpectedArgument (arg : OsString)
  | configRead (err : String)
  | configParse (err : Option DecodeError)
  | settingsConversion (err : String)
  | operation (err : String)

/-- The argument is decoded with replacements, so one that is not UTF-8 is none of the texts. -/
def Operation.parse (arg : OsString) : Except WorkerError WorkerOperation :=
  if arg = osString "setup" then .ok .setup
  else if arg = osString "start" then .ok .start
  else if arg = osString "stop" then .ok .stop
  else if arg = osString "cleanup" then .ok .cleanup
  else if arg = osString "cleanup-full" then .ok .cleanupFull
  else .error (.unknownOperation arg)

/-- The arguments after the name of the program and the operation. -/
def parsePath : List OsString → Except WorkerError OsString
  | [] => .error .missingConfigPath
  | path :: rest =>
    if (fromPathBuf path).isNone then .error (.configPathNotUtf8 path)
    else
      match rest with
      | [] => .ok path
      | arg :: _ => .error (.unexpectedArgument arg)

def parseArgs (args : List OsString) : Except WorkerError (WorkerOperation × OsString) :=
  match args.tail with
  | [] => .error .missingOperation
  | arg :: rest => do
    let operation ← Operation.parse arg
    let path ← parsePath rest
    return (operation, path)

def decode (texts : Texts V) (content : List UInt8) : Except WorkerError (WorkerPayload V) :=
  match texts.fromSlice content with
  | none => .error (.configParse none)
  | some json =>
    match WorkerPayload.deserialize texts.toAdapters json with
    | .error err => .error (.configParse (some err))
    | .ok payload => .ok payload

def loadPayload (texts : Texts V) (path : OsString) : Code V (Except WorkerError (WorkerPayload V)) := do
  match ← tell (.load path) with
  | .error err => pure (.error (.configRead err))
  | .ok content => pure (decode texts content)

/-- The variable that an entry of the payload sets or unsets. -/
def varOf (entry : String × Option String) : Var := (osString entry.1, entry.2.map osString)

/-- False if `set_var` or `remove_var` panics. -/
def applyWorkerEnvironment : List (String × Option PlainSecret) → Code V Bool
  | [] => pure true
  | (key, value) :: rest =>
    if validVar (varOf (key, value.map (·.expose))) then do
      tell (.assign (varOf (key, value.map (·.expose))))
      applyWorkerEnvironment rest
    else pure false

inductive WorkerEnd where
  | returned (result : Except WorkerError Unit)
  | panicked

/-- From the payload on. `perform` is the match on the operation. -/
def performPayload (operation : WorkerOperation) (payload : WorkerPayload V) : Code V WorkerEnd := do
  let settings := payload.settings.intoSettings
  match utf8Path "data_dir" settings.dataDir with
  | .error err => pure (.returned (.error (.settingsConversion err)))
  | .ok _ =>
    if ← applyWorkerEnvironment payload.environment then
      match ← tell (.perform operation settings) with
      | .error err => pure (.returned (.error (.operation err)))
      | .ok () => pure (.returned (.ok ()))
    else pure .panicked

def runWorker (texts : Texts V) (args : List OsString) : Code V WorkerEnd := do
  match parseArgs args with
  | .error err => pure (.returned (.error err))
  | .ok (operation, path) =>
    match ← loadPayload texts path with
    | .error err => pure (.returned (.error err))
    | .ok payload => performPayload operation payload

def WorkerEnd.status : WorkerEnd → ExitStatus
  | .returned (.ok ()) => .code 0
  | .returned (.error _) => .code 1
  | .panicked => .code 101

/-- `main` of `pg_worker`, up to its exit status. -/
def workerMain (texts : Texts V) : Code V Unit := do
  let args ← tell .argsOs
  let finished ← runWorker texts args
  tell (.exit finished.status)

/-! ### Arguments -/

theorem parse_asStr (operation : WorkerOperation) :
    Operation.parse (osString (asStr operation)) = .ok operation := by
  cases operation <;> simp [Operation.parse, asStr, Fs.osString_inj]

theorem parseArgs_commandFor (request : WorkerRequest V) (path : OsString)
    (identity : Option (Nat × Nat)) :
    parseArgs (request.worker :: (commandFor request path identity).args) =
      if (fromPathBuf path).isNone then .error (.configPathNotUtf8 path)
      else .ok (request.operation, path) := by
  unfold parseArgs commandFor parsePath
  simp only [List.tail_cons, parse_asStr]
  split <;> rfl

end PgEmbeddedSetup.Request
