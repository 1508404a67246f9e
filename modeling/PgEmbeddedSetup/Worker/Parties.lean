import PgEmbeddedSetup.Worker.Exchange

/-!
# The programs of a request

The parent and the worker followed call by call, from what their calls ask for to what they know in the
end (`knows_run`, `knows_workerMain`).
-/

namespace PgEmbeddedSetup.Request

open Program Env Worker WorkerProcess Interleave
open Cluster (WorkerOperation)

variable {R V : Type}

/-- The failures after which the worker may be alive. -/
def RunFailure.mayLive : RunFailure → Bool
  | .worker (.terminate _ _) | .worker (.wait _ (some _) (some _)) => true
  | .combined primary _ => primary.mayLive
  | _ => false

/-- How the parent has left the payload and the worker. -/
def Settled (calm : Prop) : Except RunFailure Unit → Progress → Prop
  | .ok (), p => p = .done (some (.code 0))
  | .error err, p => p.path = none ∧ (p = .abandoned → err.mayLive = true) ∧
    (calm → ∃ status, p = .done (some status) ∧ status ≠ .code 0)

def Ended {R : Type} (calm : Prop) : Party R → Finish → Party R × Know → Prop
  | .parent _, .run result, (_, .parent p) => Settled calm result p
  | .worker _, .worker, _ | .host _, .host, _ => True
  | _, _, _ => False

namespace Exchange

section Programs

variable {ex : Exchange R V} {calm : Prop} {nobody : R → Nat × Nat → Prop} {K : Type} {know : K → Party R × Know} {α β : Type}

/-- What holds of the result of a program, and of what its thread knows then. -/
def Knows (ex : Exchange R V) (calm : Prop) (nobody : R → Nat × Nat → Prop) (know : K → Party R × Know) (p : Code V α) (before : K)
    (Q : α → K → Prop) : Prop :=
  wp (ex.spec calm nobody) p (know before) fun a k => ∃ after, k = know after ∧ Q a after

theorem Knows.bind {p : Code V α} {f : α → Code V β} {before : K} {M : α → K → Prop}
    {Q : β → K → Prop} (h : ex.Knows calm nobody know p before M)
    (hf : ∀ a after, M a after → ex.Knows calm nobody know (f a) after Q) :
    ex.Knows calm nobody know (p >>= f) before Q := by
  unfold Knows
  rw [wp_bind]
  refine wp_mono (ex.spec_monotone calm nobody) ?_ h
  rintro a k ⟨after, rfl, hM⟩
  exact hf a after hM

theorem Knows.mono {p : Code V α} {before : K} {Q Q' : α → K → Prop}
    (h : ex.Knows calm nobody know p before Q) (hQ : ∀ a after, Q a after → Q' a after) :
    ex.Knows calm nobody know p before Q' := by
  refine wp_mono (ex.spec_monotone calm nobody) ?_ h
  rintro a k ⟨after, rfl, hq⟩
  exact ⟨after, rfl, hQ a after hq⟩

theorem knows_pure {a : α} {before : K} {Q : α → K → Prop} (h : Q a before) :
    ex.Knows calm nobody know (pure a) before Q :=
  ⟨before, rfl, h⟩

end Programs

def asParent (r : R) (p : Progress) : Party R × Know := (.parent r, .parent p)

def asWorker (r : R) (w : Stage) : Party R × Know := (.worker r, .worker w)

/-! ### The parent -/

section Parent

variable {ex : Exchange R V} {calm : Prop} {nobody : R → Nat × Nat → Prop} {r : R} {path : OsString}

theorem knows_ask {α : Type} {i : ParentInstr} {k : i.Answer → Code V α} {before : Progress}
    {Q : α → Progress → Prop}
    (h : ex.parentSpec r calm nobody i before fun a p => ex.Knows calm nobody (asParent r) (k a) p Q) :
    ex.Knows calm nobody (asParent r) (ask i >>= k) before Q :=
  h

/-- A value, or a failure that leaves nothing behind. -/
def Yields {ε α : Type} (calm : Prop) (Q : α → Progress → Prop) (lost : Progress → Prop) :
    Except ε α → Progress → Prop
  | .ok a, p => Q a p
  | .error _, p => ¬ calm ∧ lost p

theorem knows_writePayload (hpayload : calm → ∃ payload,
      WorkerPayload.new (ex.request r).settings (ex.request r).envVars = .ok payload) :
    ex.Knows calm nobody (asParent r) (writePayload ex.texts (ex.request r)) .idle
      (Yields calm (fun path p => p = .whole path) fun p => p = .idle ∨ p = .done none) := by
  unfold writePayload
  cases hnew : WorkerPayload.new (ex.request r).settings (ex.request r).envVars with
  | error err =>
    refine knows_pure ⟨fun hcalm => ?_, Or.inl rfl⟩
    obtain ⟨payload, hok⟩ := hpayload hcalm
    cases hnew.symm.trans hok
  | ok payload =>
    refine knows_ask ⟨fun err hfault => knows_pure ⟨hfault, Or.inl rfl⟩, fun path _ => ?_⟩
    refine knows_ask ⟨rfl, ⟨payload, hnew, rfl⟩, fun err hfault => ?_, ?_⟩
    · exact knows_ask ⟨rfl, fun _ => knows_pure ⟨hfault, Or.inr rfl⟩⟩
    refine knows_ask ⟨fun err hfault => ?_, knows_pure rfl⟩
    exact knows_ask ⟨rfl, fun _ => knows_pure ⟨hfault, Or.inr rfl⟩⟩

theorem knows_resolveNobodyIds :
    ex.Knows calm nobody (asParent r) resolveNobodyIds (.whole path)
      (Yields calm (fun ids p => nobody r ids ∧ p = .whole path) fun p => p = .whole path) := by
  refine knows_ask ⟨rfl, fun err hfault => knows_pure ⟨hfault, rfl⟩, fun ids hids hnamed => ?_⟩
  cases ids with
  | none => exact knows_pure ⟨fun hcalm => Bool.noConfusion (hids hcalm), rfl⟩
  | some ids => exact knows_pure ⟨hnamed ids rfl, rfl⟩

theorem knows_chownPayload {ids : Nat × Nat} (hids : nobody r ids) :
    ex.Knows calm nobody (asParent r) (chownPayload path ids) (.whole path)
      (Yields calm (fun _ p => p = .owned path (some ids)) fun p => p = .whole path) :=
  knows_ask ⟨rfl, hids, fun _ hfault => knows_pure ⟨hfault, rfl⟩, knows_pure rfl⟩

theorem knows_apply :
    ex.Knows calm nobody (asParent r) (apply path) (.whole path)
      (Yields calm (fun identity p => p = .owned path identity) fun p => p = .whole path) := by
  refine knows_ask ⟨knows_pure rfl, ?_⟩
  refine knows_resolveNobodyIds.bind fun result p hresult => ?_
  cases result with
  | error err => exact knows_pure hresult
  | ok ids =>
    obtain ⟨hids, rfl⟩ := hresult
    refine (knows_chownPayload hids).bind fun result p hresult => ?_
    cases result with
    | error err => exact knows_pure hresult
    | ok _ => exact knows_pure hresult

theorem knows_configureCommand :
    ex.Knows calm nobody (asParent r) (configureCommand (ex.request r) path) (.whole path)
      (Yields calm (fun command p => ∃ identity, command = commandFor (ex.request r) path identity ∧
        p = .owned path identity) fun p => p = .whole path) := by
  refine knows_apply.bind fun result p hresult => ?_
  cases result with
  | error err => exact knows_pure hresult
  | ok identity => exact knows_pure ⟨identity, rfl, hresult⟩

theorem knows_child {α : Type} {command : Command} {i : WorkerProcess.Instr}
    {k : i.Answer → WorkerProcess.Code α} {before : Progress} {Q : α → Progress → Prop}
    (h : ex.parentSpec r calm nobody (.child command i) before fun a p =>
      ex.Knows calm nobody (asParent r) ((k a).interp fun i => ask (.child command i)) p Q) :
    ex.Knows calm nobody (asParent r) ((Prog.call i >>= k).interp fun i => ask (.child command i)) before Q :=
  h

/-- After the command: the worker has ended and been reaped, or it may be alive. -/
def Ran (calm : Prop) (path : OsString) : Except RunError Output → Progress → Prop
  | .ok output, p => p = .reaped path output.status
  | .error err, p => ¬ calm ∧ ((∃ identity, p = .owned path identity) ∨
    (∃ status, p = .reaped path status) ∨ p = .launched path true ∨
      p = .launched path false ∧ (RunFailure.worker err).mayLive = true)

theorem knows_handleWaitError {command : Command} (hfault : ¬ calm) (err : String) :
    ex.Knows calm nobody (asParent r) ((handleWaitError err).interp fun i => ask (.child command i))
      (.launched path false) (Ran calm path) := by
  have hreap : ∀ (killResult : Except KillError Unit) dead,
      (dead = true ∨ (errorOf killResult).isSome) →
      ex.Knows calm nobody (asParent r) (((do
        let waitResult ← waitWithOutput
        pure (.error (.wait err (errorOf killResult) (errorOf waitResult))) :
          WorkerProcess.Code (Except RunError Output))).interp fun i => ask (.child command i))
        (.launched path dead) (Ran calm path) := by
    intro killResult dead hdead
    refine knows_child ⟨fun e he => knows_pure ⟨hfault, ?_⟩, fun output => knows_pure ⟨hfault, ?_⟩⟩
    · rcases hdead with rfl | hkill
      · exact Or.inr (Or.inr (Or.inl rfl))
      · obtain ⟨e', he'⟩ := Option.isSome_iff_exists.mp hkill
        cases dead with
        | true => exact Or.inr (Or.inr (Or.inl rfl))
        | false =>
          refine Or.inr (Or.inr (Or.inr ⟨rfl, ?_⟩))
          rw [he']
          rfl
    · exact Or.inr (Or.inl ⟨output.status, rfl⟩)
  refine knows_child ⟨hfault, fun e => ?_, ?_, ?_⟩
  · exact hreap (.error (.other e)) false (Or.inr rfl)
  · exact hreap (.error .invalidInput) true (Or.inl rfl)
  · exact hreap (.ok ()) true (Or.inl rfl)

theorem knows_collectOutput {command : Command} (operation : WorkerOperation) (timeout : Nat)
    {timedOut : Bool} (htime : calm → timedOut = false) :
    ex.Knows calm nobody (asParent r)
      ((collectOutput operation timeout timedOut).interp fun i => ask (.child command i))
      (.launched path true) (Ran calm path) := by
  refine knows_child ⟨fun e hfault => ?_, fun output => ?_⟩
  · exact knows_pure ⟨hfault, Or.inr (Or.inr (Or.inl rfl))⟩
  cases timedOut with
  | false => exact knows_pure rfl
  | true =>
    exact knows_pure ⟨fun hcalm => Bool.noConfusion (htime hcalm), Or.inr (Or.inl ⟨_, rfl⟩)⟩

theorem knows_awaitWorker {command : Command} (operation : WorkerOperation) (timeout : Nat) :
    ex.Knows calm nobody (asParent r) ((awaitWorker operation timeout).interp fun i => ask (.child command i))
      (.launched path false) (Ran calm path) := by
  refine knows_child ⟨fun e hfault => knows_handleWaitError hfault e, fun hfault => ?_, fun status => ?_⟩
  · have hcollect : ex.Knows calm nobody (asParent r) ((collectOutput operation timeout true).interp fun i =>
        ask (.child command i)) (.launched path true) (Ran calm path) :=
      knows_collectOutput operation timeout fun hcalm => absurd hcalm hfault
    refine knows_child ⟨hfault, fun e => knows_pure ⟨hfault, ?_⟩, hcollect, hcollect⟩
    exact Or.inr (Or.inr (Or.inr ⟨rfl, rfl⟩))
  · exact knows_collectOutput operation timeout fun _ => rfl

theorem knows_runCommand (identity : Option (Nat × Nat)) :
    ex.Knows calm nobody (asParent r) (runCommand (ex.request r) (commandFor (ex.request r) path identity))
      (.owned path identity) (Ran calm path) := by
  refine knows_child ⟨rfl, fun e hfault => knows_pure ⟨hfault, Or.inl ⟨identity, rfl⟩⟩, ?_⟩
  exact knows_awaitWorker _ _

/-- After the payload has been removed, or its removal has failed. -/
def Closed (calm : Prop) : Except RunFailure Output → Progress → Prop
  | .ok output, p => p = .done (some output.status)
  | .error err, p => ¬ calm ∧ p.path = none ∧ (p = .abandoned → err.mayLive = true)

theorem knows_close {runResult : Except RunError Output} {p : Progress}
    (h : Ran calm path runResult p) :
    ex.Knows calm nobody (asParent r) (do
      let cleanupResult ← closePayload path
      pure (combine runResult cleanupResult)) p (Closed calm) := by
  cases runResult with
  | ok output =>
    obtain rfl : p = .reaped path output.status := h
    refine knows_ask ⟨rfl, fun e hfault => knows_pure ⟨hfault, rfl, ?_⟩, knows_pure rfl⟩
    exact fun h => by cases h
  | error err =>
    obtain ⟨hfault, hp⟩ := h
    have hclosed : ∀ (cleanup : Except RunFailure Unit) (p : Progress), p.path = none →
        (p = .abandoned → (RunFailure.worker err).mayLive = true) →
        ex.Knows calm nobody (asParent r) (pure (combine (.error err) cleanup)) p (Closed calm) := by
      intro cleanup p hpath hlive
      cases cleanup with
      | error e => exact knows_pure ⟨hfault, hpath, hlive⟩
      | ok _ => exact knows_pure ⟨hfault, hpath, hlive⟩
    rcases hp with ⟨identity, rfl⟩ | ⟨status, rfl⟩ | rfl | ⟨rfl, hlive⟩
    · refine knows_ask ⟨rfl, fun a => ?_⟩
      cases a with
      | error e => exact hclosed (.error _) _ rfl fun h => by cases h
      | ok _ => exact hclosed (.ok ()) _ rfl fun h => by cases h
    · refine knows_ask ⟨rfl, fun e _ => ?_, ?_⟩
      · exact hclosed (.error _) _ rfl fun h => by cases h
      · exact hclosed (.ok ()) _ rfl fun h => by cases h
    · refine knows_ask ⟨rfl, hfault, fun a => ?_⟩
      cases a with
      | error e => exact hclosed (.error _) _ rfl fun h => by cases h
      | ok _ => exact hclosed (.ok ()) _ rfl fun h => by cases h
    · refine knows_ask ⟨rfl, hfault, fun a => ?_⟩
      cases a with
      | error e => exact hclosed (.error _) _ rfl fun _ => hlive
      | ok _ => exact hclosed (.ok ()) _ rfl fun _ => hlive

theorem settled_of_closed {operation : WorkerOperation} {result : Except RunFailure Output}
    {p : Progress} (h : Closed calm result p) :
    Settled calm (result.bind (handleExit operation)) p := by
  cases result with
  | error err => exact ⟨h.2.1, h.2.2, fun hcalm => absurd hcalm h.1⟩
  | ok output =>
    obtain rfl : p = .done (some output.status) := h
    show Settled calm (handleExit operation output) _
    unfold handleExit
    split
    next hcode => exact congrArg (Progress.done ∘ some) hcode
    next hcode => exact ⟨rfl, (fun h => by cases h), fun _ => ⟨_, rfl, hcode⟩⟩

theorem knows_run (hpayload : calm → ∃ payload,
      WorkerPayload.new (ex.request r).settings (ex.request r).envVars = .ok payload) :
    ex.Knows calm nobody (asParent r) (run ex.texts (ex.request r)) .idle (Settled calm) := by
  refine (knows_writePayload hpayload).bind fun result p hresult => ?_
  cases result with
  | error err =>
    obtain ⟨hfault, rfl | rfl⟩ := hresult
    · exact knows_pure ⟨rfl, (fun h => by cases h), fun hcalm => absurd hcalm hfault⟩
    · exact knows_pure ⟨rfl, (fun h => by cases h), fun hcalm => absurd hcalm hfault⟩
  | ok path =>
    subst hresult
    refine knows_configureCommand.bind fun result p hresult => ?_
    cases result with
    | error err =>
      obtain ⟨hfault, rfl⟩ := hresult
      refine knows_ask ⟨rfl, fun _ => knows_pure ?_⟩
      exact ⟨rfl, (fun h => by cases h), fun hcalm => absurd hcalm hfault⟩
    | ok command =>
      obtain ⟨identity, rfl, rfl⟩ := hresult
      refine Knows.bind (M := Closed calm) ?_ fun result p hresult => ?_
      · exact (knows_runCommand identity).bind fun runResult p h => knows_close h
      · have hsettled : Settled calm (result.bind (handleExit (ex.request r).operation)) p :=
          settled_of_closed hresult
        cases result with
        | error err => exact knows_pure hsettled
        | ok output => exact knows_pure hsettled

end Parent

/-! ### The worker -/

section Worker

variable {ex : Exchange R V} {calm : Prop} {nobody : R → Nat × Nat → Prop} {r : R} {path : OsString}

theorem knows_tell {α : Type} {i : WorkerInstr V} {k : i.Answer → Code V α} {before : Stage}
    {Q : α → Stage → Prop}
    (h : ex.workerSpec r calm i before fun a w => ex.Knows calm nobody (asWorker r) (k a) w Q) :
    ex.Knows calm nobody (asWorker r) (tell i >>= k) before Q :=
  h

/-- The variable of an entry of the payload. -/
abbrev varIn (entry : String × Option PlainSecret) : Var := varOf (entry.1, entry.2.map (·.expose))

theorem knows_applyWorkerEnvironment (entries : List (String × Option PlainSecret)) (done : List Var) :
    ex.Knows calm nobody (asWorker r) (applyWorkerEnvironment entries) (.before done) fun ok w =>
      if ok then w = .before (done ++ entries.map varIn)
      else (∃ vars, w = .before vars) ∧ ∃ entry ∈ entries, validVar (varIn entry) = false := by
  induction entries generalizing done with
  | nil => exact knows_pure (by simp)
  | cons entry entries ih =>
    unfold applyWorkerEnvironment
    split
    next hvalid =>
      refine knows_tell ?_
      refine (ih (done ++ [varIn entry])).mono fun ok w hw => ?_
      cases ok with
      | true =>
        obtain rfl : w = _ := hw
        exact congrArg Stage.before (by simp)
      | false =>
        obtain ⟨hvars, bad, hmem, hbad⟩ := hw
        exact ⟨hvars, bad, List.mem_cons_of_mem _ hmem, hbad⟩
    next hinvalid =>
      refine knows_pure ⟨⟨done, rfl⟩, entry, List.mem_cons_self, ?_⟩
      exact Bool.eq_false_iff.mpr hinvalid

theorem astray_applyWorkerEnvironment (entries : List (String × Option PlainSecret)) :
    ex.Knows calm nobody (asWorker r) (applyWorkerEnvironment entries) .astray fun _ w => w = .astray := by
  induction entries with
  | nil => exact knows_pure rfl
  | cons entry entries ih =>
    unfold applyWorkerEnvironment
    split
    next => exact knows_tell ih
    next => exact knows_pure rfl

theorem astray_performPayload (operation : WorkerOperation) (payload : WorkerPayload V) :
    ex.Knows calm nobody (asWorker r) (performPayload operation payload) .astray fun _ w => w = .astray := by
  unfold performPayload
  simp only
  split
  next => exact knows_pure rfl
  next =>
    refine (astray_applyWorkerEnvironment payload.environment).bind fun ok w hw => ?_
    subst hw
    cases ok with
    | false => exact knows_pure rfl
    | true =>
      refine knows_tell fun a => ?_
      cases a with
      | error e => exact knows_pure rfl
      | ok _ => exact knows_pure rfl

/-- What the worker knows when it exits. -/
def Finished (calm : Prop) (finished : WorkerEnd) : Stage → Prop
  | .unread | .informed _ | .before _ => ¬ calm ∧ finished.status ≠ .code 0
  | .after succeeded => finished.status = if succeeded then .code 0 else .code 1
  | .astray => True
  | .ended => False

theorem knows_performPayload {payload : WorkerPayload V}
    (hsettings : ex.SameSettings r payload.settings.intoSettings)
    (henvironment : payload.environment.map (fun entry => (entry.1, entry.2.map (·.expose))) =
      (ex.request r).envVars)
    (hvalid : calm → ∀ var ∈ ex.vars r, validVar var = true) :
    ex.Knows calm nobody (asWorker r) (performPayload (ex.request r).operation payload) (.before [])
      (Finished calm) := by
  have hvars : payload.environment.map varIn = ex.vars r := by
    rw [vars, ← henvironment, List.map_map]
    rfl
  unfold performPayload
  obtain ⟨text, htext, -⟩ := utf8Path_of_valid "data_dir"
    (isValidUTF8_intoPathBuf payload.settings.dataDir)
  have hdata : utf8Path "data_dir" payload.settings.intoSettings.dataDir = .ok text := htext
  simp only [hdata]
  refine (knows_applyWorkerEnvironment payload.environment []).bind fun ok w hw => ?_
  cases ok with
  | false =>
    obtain ⟨⟨vars, rfl⟩, entry, hmem, hbad⟩ := hw
    refine knows_pure ⟨fun hcalm => ?_, by simp [WorkerEnd.status]⟩
    have hgood := hvalid hcalm (varIn entry) (hvars ▸ List.mem_map_of_mem hmem)
    cases hgood.symm.trans hbad
  | true =>
    obtain rfl : w = .before ([] ++ payload.environment.map varIn) := hw
    exact knows_tell ⟨rfl, hsettings, hvars, fun e => knows_pure rfl, knows_pure rfl⟩

/-- A version requirement can be read from its text, and a payload from the file that it was written
to. -/
structure Faithful (ex : Exchange R V) : Prop where
  version : ∀ version, ex.texts.fromStr (ex.texts.display version) = some version
  json : ∀ r payload, WorkerPayload.new (ex.request r).settings (ex.request r).envVars = .ok payload →
    ex.texts.fromSlice (ex.texts.toWriter (payload.serialize ex.texts.toAdapters)) =
      some (payload.serialize ex.texts.toAdapters)

theorem decode_written (hfaithful : ex.Faithful) {content : List UInt8}
    (h : ex.Written r content) : ∃ payload, decode ex.texts content = .ok payload ∧
      ex.SameSettings r payload.settings.intoSettings ∧
      payload.environment.map (fun entry => (entry.1, entry.2.map (·.expose))) =
        (ex.request r).envVars := by
  obtain ⟨payload, hnew, rfl⟩ := h
  obtain ⟨decoded, hdecoded, hsettings, henvironment⟩ := decoded_of_new hfaithful.version hnew
  refine ⟨decoded, ?_, hsettings, henvironment⟩
  unfold decode
  rw [hfaithful.json r payload hnew]
  simp only [hdecoded]

/-- What has come of the payload of a worker. -/
def Loaded (ex : Exchange R V) (calm : Prop) (r : R) :
    Except WorkerError (WorkerPayload V) → Stage → Prop
  | .error _, .before [] => ¬ calm
  | .ok payload, .before [] => ex.SameSettings r payload.settings.intoSettings ∧
    payload.environment.map (fun entry => (entry.1, entry.2.map (·.expose))) =
      (ex.request r).envVars
  | _, .astray => True
  | _, _ => False

theorem knows_loadPayload (hfaithful : ex.Faithful) (path : OsString) :
    ex.Knows calm nobody (asWorker r) (loadPayload ex.texts path) (.informed path) (ex.Loaded calm r) := by
  refine knows_tell ⟨rfl, fun e hfault => knows_pure hfault, fun content hwritten => knows_pure ?_,
    fun content _ => knows_pure ?_⟩
  · obtain ⟨payload, hdecode, hpayload⟩ := decode_written hfaithful hwritten
    rw [hdecode]
    exact hpayload
  · cases decode ex.texts content <;> trivial

theorem knows_workerMain (hfaithful : ex.Faithful)
    (hvalid : calm → ∀ var ∈ ex.vars r, validVar var = true) :
    ex.Knows calm nobody (asWorker r) (workerMain ex.texts) .unread fun _ _ => True := by
  refine knows_tell fun path identity hutf8 => ?_
  refine Knows.bind (M := Finished calm) ?_ fun finished w hw => ?_
  · unfold runWorker
    rw [parseArgs_commandFor]
    by_cases hpath : (fromPathBuf path).isNone
    · rw [if_pos hpath]
      refine knows_pure ⟨fun hcalm => ?_, by simp [WorkerEnd.status]⟩
      rw [Option.isNone_iff_eq_none.mp hpath] at hutf8
      exact Bool.noConfusion (hutf8 hcalm)
    · rw [if_neg hpath]
      refine (knows_loadPayload hfaithful path).bind fun result w hw => ?_
      cases result with
      | error err =>
        cases w with
        | before vars =>
          cases vars with
          | nil => exact knows_pure ⟨hw, by simp [WorkerEnd.status]⟩
          | cons => exact hw.elim
        | astray => exact knows_pure trivial
        | _ => exact hw.elim
      | ok payload =>
        cases w with
        | before vars =>
          cases vars with
          | nil => exact knows_performPayload hw.1 hw.2 hvalid
          | cons => exact hw.elim
        | astray =>
          refine (astray_performPayload _ payload).mono fun finished w hw => ?_
          subst hw
          trivial
        | _ => exact hw.elim
  · cases w with
    | ended => exact hw.elim
    | after succeeded => exact knows_tell (k := pure) ⟨hw, knows_pure trivial⟩
    | astray => exact knows_tell (k := pure) (knows_pure trivial)
    | unread => exact knows_tell (k := pure) ⟨hw.1, hw.2, knows_pure trivial⟩
    | informed path => exact knows_tell (k := pure) ⟨hw.1, hw.2, knows_pure trivial⟩
    | before vars => exact knows_tell (k := pure) ⟨hw.1, hw.2, knows_pure trivial⟩

end Worker

end Exchange

end PgEmbeddedSetup.Request
