import PgEmbeddedSetup.Base.Transition
import PgEmbeddedSetup.Env.Scoped

/-!
# Threads that share the environment

Any number of threads make and drop `ScopedEnv` guards on one environment and one `ENV_LOCK`. A call
that enters an outermost scope is two steps: it clears the poison and starts to wait, and it takes
the lock once that is free. In between other threads go on, and may poison the lock again. What a
call does while it holds the lock is one step, since no other thread touches the environment or the
state of the thread meanwhile.

`threads_serialised` says that the threads take turns: only the owner of the lock has scopes, the
environment is the initial one under the owner's assignments, and no call fails.
-/

namespace PgEmbeddedSetup.Env

open Outcome UndoLog Transition

/-! ### The two steps of `enter_scope` -/

/-- `acquire_lock_if_needed` up to the lock, and whether the lock has to be taken. -/
def prepareToLock : ScopeM Bool := do
  if (← get).core.depth > 0 then return false
  assertM (← get).core.lock.isNone "ScopedEnv depth desynchronised: mutex still held"
  ensureLockIsClean
  pure true

def takeEnvLock : ScopeM Unit := do
  let guard ← lockEnvMutex
  modifyCore fun c => { c with lock := some guard }

/-- `enter_scope` after `acquire_lock_if_needed`. -/
def enterLocked (vars : List Var) : ScopeM Nat := do
  modifyCore fun c => { c with depth := c.depth + 1 }
  let saved ← applyEnvVars vars
  let index := (← get).core.stack.length
  modifyCore fun c => { c with stack := c.stack ++ [⟨saved, false⟩] }
  pure index

theorem enterScope_steps (vars : List Var) :
    enterScope vars = (do
      if ← prepareToLock then takeEnvLock
      enterLocked vars) := by
  funext w
  obtain ⟨⟨depth, lock, stack⟩, env, ⟨held, poisoned⟩, panicking, corruptions⟩ := w
  cases depth with
  | succ depth => rfl
  | zero => cases lock <;> cases held <;> cases poisoned <;> rfl

/-! ### Threads -/

/-- `entering` is the list of an outermost `apply` that waits for the lock. -/
structure Thread where
  core : ThreadStateCore
  guards : List ScopedEnv
  entering : Option (List Var)

structure Process where
  threads : Nat → Thread
  env : OsString → Option OsString
  envLock : EnvLock
  corruptions : List Corruption
  panics : List String

inductive Move where
  | apply (vars : List Var)
  | lock
  | drop (position : Nat)
  deriving DecidableEq, Repr

/-- A move of a thread, which may be unwinding from a panic. -/
structure Event where
  thread : Nat
  panicking : Bool
  move : Move
  deriving DecidableEq, Repr

def Move.Valid : Move → Prop
  | .apply vars => ∀ a ∈ vars, validVar a = true
  | _ => True

def Thread.enter (th : Thread) (vars : List Var) : ScopeM Thread := do
  let index ← enterLocked vars
  pure { th with guards := th.guards ++ [⟨index, vars.length⟩], entering := none }

/-- A move that the thread cannot make now is blocked. -/
def Thread.run (th : Thread) : Move → ScopeM Thread
  | .apply vars =>
    match th.entering with
    | some _ => throw .blocked
    | none => do
      if ← prepareToLock then pure { th with entering := some vars }
      else th.enter vars
  | .lock =>
    match th.entering with
    | some vars => do
      takeEnvLock
      th.enter vars
    | none => throw .blocked
  | .drop position =>
    match th.entering, th.guards[position]? with
    | none, some guard => do
      guard.drop
      pure { th with guards := th.guards.eraseIdx position }
    | _, _ => throw .blocked

namespace Process

def init (env₀ : ProcessEnvironment) (poisoned : Bool) : Process :=
  ⟨fun _ => ⟨ThreadStateCore.new, [], none⟩, env₀.var, ⟨false, poisoned⟩, [], []⟩

def world (p : Process) (t : Nat) (panicking : Bool) : World :=
  ⟨(p.threads t).core, p.env, p.envLock, panicking, p.corruptions⟩

def put (p : Process) (t : Nat) (th : Thread) (w : World) : Process :=
  ⟨Function.update p.threads t { th with core := w.core }, w.env, w.envLock, w.corruptions, p.panics⟩

def step (p : Process) (e : Event) : Option Process :=
  match (p.threads e.thread).run e.move (p.world e.thread e.panicking) with
  | .ok th w => some (p.put e.thread th w)
  | .error (.panic message) w =>
    some { p.put e.thread (p.threads e.thread) w with panics := p.panics ++ [message] }
  | .error .blocked _ => none

end Process

/-! ### What the events say -/

/-- What the events of a thread come to, without any state of the program: its calls in their order,
the places in the ledger of the scopes whose guards it has not dropped, and the list it waits with. -/
structure Past where
  calls : List Call
  live : List Nat
  waiting : Option (List Var)
  deriving DecidableEq, Repr

namespace Past

def new : Past := ⟨[], [], none⟩

def enter (past : Past) (vars : List Var) (panicking : Bool) : Past :=
  ⟨past.calls ++ [⟨.enter vars, panicking⟩], past.live ++ [(ledgerOf past.calls).length], none⟩

/-- A thread without guards waits for the lock with its list; with one it goes on at once. -/
def after (past : Past) (e : Event) : Past :=
  match e.move with
  | .apply vars =>
    if past.live = [] then { past with waiting := some vars } else past.enter vars e.panicking
  | .lock =>
    match past.waiting with
    | some vars => past.enter vars e.panicking
    | none => past
  | .drop position =>
    match past.live[position]? with
    | some index => { past with
        calls := past.calls ++ [⟨.exit index, e.panicking⟩]
        live := past.live.eraseIdx position }
    | none => past

end Past

def pastOf (events : List Event) (t : Nat) : Past :=
  (events.filter (·.thread = t)).foldl Past.after .new

theorem pastOf_concat (events : List Event) (e : Event) :
    pastOf (events ++ [e]) =
      Function.update (pastOf events) e.thread ((pastOf events e.thread).after e) := by
  funext t
  unfold pastOf
  rw [List.filter_append, List.foldl_append]
  by_cases ht : t = e.thread
  · subst ht
    rw [Function.update_self, List.filter_singleton, decide_eq_true rfl]
    rfl
  · rw [Function.update_of_ne ht, List.filter_singleton, decide_eq_false (Ne.symm ht)]
    rfl

/-! ### One thread -/

/-- What holds of a thread that owns the lock, or could take it. -/
structure ThreadSound (base : OsString → Option OsString) (past : Past) (th : Thread) (w : World) :
    Prop where
  sound : Sound w
  refines : Refines base (ledgerOf past.calls) w
  guards_match : GuardsMatch th.guards w.core.stack
  live : th.guards.map (·.index) = past.live

/-- The thread has no scopes, and by its events it has none. -/
structure Idle (past : Past) (th : Thread) : Prop where
  core : th.core = ThreadStateCore.new
  guards : th.guards = []
  ledger : ledgerOf past.calls = []
  live : past.live = []

section ThreadSound

variable {base : OsString → Option OsString} {past : Past} {th : Thread} {w : World}
  {vars : List Var}

theorem ThreadSound.congr (h : ThreadSound base past th w) {w' : World} (hcore : w'.core = w.core)
    (henv : w'.env = w.env) (hheld : w'.envLock.held = w.envLock.held) :
    ThreadSound base past th w' := by
  obtain ⟨core, env, envLock, panicking, corruptions⟩ := w
  obtain rfl : w'.core = core := hcore
  obtain rfl : w'.env = env := henv
  refine ⟨⟨h.sound.lock, hheld.trans h.sound.held, h.sound.saved, h.sound.env, h.sound.unfinished_le,
    h.sound.top⟩, ⟨h.refines.stack, h.refines.env, h.refines.depth, h.refines.acquired,
    h.refines.valid⟩, h.guards_match, h.live⟩

theorem ThreadSound.depth (h : ThreadSound base past th w) : w.core.depth = past.live.length := by
  rw [← h.live, List.length_map, h.guards_match.length, h.refines.depth, h.refines.stack,
    Ledger.unfinished_entries]

theorem ledgerOf_concat (calls : List Call) (c : Call) :
    ledgerOf (calls ++ [c]) = (ledgerOf calls).after c.op := by
  rw [ledgerOf, List.foldl_append]
  rfl

theorem ThreadSound.entered (h : ThreadSound base past th w) (hvars : ∀ a ∈ vars, validVar a = true)
    (panicking : Bool) :
    ThreadSound base (past.enter vars panicking)
      { th with guards := th.guards ++ [⟨w.core.stack.length, vars.length⟩], entering := none }
      (w.entered vars) := by
  refine ⟨h.sound.entered hvars, ledgerOf_concat .. ▸ h.refines.entered h.sound hvars,
    h.guards_match.entered vars vars.length, ?_⟩
  rw [List.map_append, h.live, h.refines.stack, Ledger.length_entries]
  rfl

theorem enterLocked_valid (hvars : ∀ a ∈ vars, validVar a = true) (hlock : w.core.lock.isSome = true) :
    enterLocked vars w = .ok w.core.stack.length { w with
      core := { w.core with
        depth := w.core.depth + 1
        stack := w.core.stack ++ [⟨undoLog w.env vars, false⟩] }
      env := assignAll w.env vars } := by
  rw [enterLocked, modifyCore, bind_ok (modify_apply _ w)]
  exact (bind_ok (applyEnvVars_valid
    (w := { w with core := { w.core with depth := w.core.depth + 1 } }) hvars hlock)).trans rfl

theorem Thread.enter_valid (h : ThreadSound base past th w) (hvars : ∀ a ∈ vars, validVar a = true)
    {w₁ : World} (hcore : w₁.core = w.locked.core) (henv : w₁.env = w.env)
    (hheld : w₁.envLock.held = true) :
    ∃ th' w', th.enter vars w₁ = .ok th' w' ∧
      (∀ panicking, ThreadSound base (past.enter vars panicking) th' w') ∧
      0 < w'.core.depth ∧ th'.entering = none ∧ w'.corruptions = w₁.corruptions := by
  have hlock : w₁.core.lock.isSome = true := hcore ▸ locked_lock h.sound
  refine ⟨_, _, bind_ok (enterLocked_valid hvars hlock), fun panicking => ?_, Nat.succ_pos _, rfl,
    rfl⟩
  have hentered := h.entered hvars panicking
  have hstack : w₁.core.stack = w.core.stack := hcore ▸ locked_stack w
  have hdepth : w₁.core.depth = w.core.depth := hcore ▸ locked_depth w
  rw [← hstack] at hentered
  refine hentered.congr ?_ ?_ ?_
  · simp only [World.entered, hcore, henv, locked_depth, locked_stack]
  · simp only [World.entered, henv]
  · exact hheld.trans (locked_held h.sound).symm

theorem ThreadSound.dropped (h : ThreadSound base past th w) {position : Nat} {guard : ScopedEnv}
    (hguard : th.guards[position]? = some guard) :
    ∃ w', guard.drop w = .ok () w' ∧
      (∀ panicking, ThreadSound base { past with
          calls := past.calls ++ [⟨.exit guard.index, panicking⟩]
          live := past.live.eraseIdx position }
        { th with guards := th.guards.eraseIdx position } w') ∧
      w'.corruptions = w.corruptions := by
  obtain ⟨w', hdrop, hsound, hrefines, hmatch, hcorruptions⟩ :=
    drop_valid h.sound h.refines h.guards_match hguard
  refine ⟨w', hdrop, fun panicking => ⟨hsound, ledgerOf_concat .. ▸ hrefines, hmatch, ?_⟩,
    hcorruptions⟩
  rw [← h.live]
  exact (List.eraseIdx_map ..).symm

theorem ThreadSound.idle (h : ThreadSound base past th w) (hzero : w.core.depth = 0) :
    Idle past { th with core := w.core } ∧ w.envLock.held = false ∧ w.env = base := by
  have hlock := h.sound.lock_none hzero
  have hstack := h.sound.stack_nil hzero
  have hnil := h.refines.nil_of_depth h.sound hzero
  refine ⟨⟨?_, ?_, hnil, ?_⟩, ?_, ?_⟩
  · obtain ⟨⟨depth, lock, stack⟩, env, envLock, panicking, corruptions⟩ := w
    obtain rfl : depth = 0 := hzero
    obtain rfl : lock = none := hlock
    obtain rfl : stack = [] := hstack
    rfl
  · show th.guards = []
    rw [← List.length_eq_zero_iff, h.guards_match.length, hstack]
    rfl
  · rw [← List.length_eq_zero_iff, ← h.depth, hzero]
  · rw [h.sound.held, hlock]
    rfl
  · rw [h.refines.env, hnil]
    rfl

theorem Idle.threadSound (h : Idle past th) (hcore : w.core = th.core) (hheld : w.envLock.held = false)
    (henv : w.env = base) (hbase : NoNul base) : ThreadSound base past th w := by
  obtain ⟨core, env, envLock, panicking, corruptions⟩ := w
  obtain rfl : core = ThreadStateCore.new := hcore.trans h.core
  obtain rfl : env = base := henv
  refine ⟨⟨by simp [ThreadStateCore.new], hheld, nofun, hbase, Nat.le_refl _, topUnfinished_nil⟩,
    ?_, ?_, by rw [h.guards, h.live]; rfl⟩
  · rw [h.ledger]
    exact refines_nil rfl rfl rfl rfl
  · rw [h.guards]
    exact ⟨List.nodup_nil, fun index => by simp [ThreadStateCore.new]⟩

end ThreadSound

/-! ### Threads take turns -/

/-- The owner of the lock has scopes, no other thread does, and the environment is the initial one
if there is no owner. -/
structure Turns (env₀ : ProcessEnvironment) (owner : Option Nat) (past : Nat → Past) (p : Process) :
    Prop where
  owner_sound : ∀ t, owner = some t →
    (∀ panicking, ThreadSound env₀.var (past t) (p.threads t) (p.world t panicking)) ∧
      0 < (p.threads t).core.depth ∧ (p.threads t).entering = none
  others : ∀ t, owner ≠ some t → Idle (past t) (p.threads t)
  free : owner = none → p.envLock.held = false ∧ p.env = env₀.var
  entering : ∀ t vars, (p.threads t).entering = some vars → ∀ a ∈ vars, validVar a = true
  waiting : ∀ t, (p.threads t).entering = (past t).waiting
  clean : p.corruptions = [] ∧ p.panics = []

section Turns

variable {env₀ : ProcessEnvironment} {owner : Option Nat} {past : Nat → Past} {p : Process} {t : Nat}

theorem turns_init (env₀ : ProcessEnvironment) (poisoned : Bool) :
    Turns env₀ none (pastOf []) (Process.init env₀ poisoned) :=
  ⟨nofun, fun _ _ => ⟨rfl, rfl, rfl, rfl⟩, fun _ => ⟨rfl, rfl⟩, nofun, fun _ => rfl, rfl, rfl⟩

theorem Turns.threadSound (h : Turns env₀ owner past p) (hturn : owner = none ∨ owner = some t)
    (panicking : Bool) : ThreadSound env₀.var (past t) (p.threads t) (p.world t panicking) := by
  rcases hturn with hnone | hsome
  · obtain ⟨hheld, henv⟩ := h.free hnone
    exact (h.others t (by rw [hnone]; nofun)).threadSound rfl hheld henv env₀.noNul
  · exact (h.owner_sound t hsome).1 panicking

theorem Turns.held_iff (h : Turns env₀ owner past p) : p.envLock.held = true ↔ owner ≠ none := by
  cases owner with
  | none => simp [(h.free rfl).1]
  | some t =>
    obtain ⟨hs, hdepth, -⟩ := h.owner_sound t rfl
    have hheld : p.envLock.held = (p.threads t).core.lock.isSome := (hs false).sound.held
    have hlock : (p.threads t).core.lock.isSome = true := (hs false).sound.lock.2 hdepth
    simp [hheld, hlock]

theorem Turns.owner_of_depth (h : Turns env₀ owner past p) (hdepth : 0 < (p.threads t).core.depth) :
    owner = some t := by
  by_contra hne
  rw [(h.others t hne).core] at hdepth
  exact absurd hdepth (Nat.lt_irrefl 0)

theorem Turns.not_owner (h : Turns env₀ owner past p) (hdepth : (p.threads t).core.depth = 0) :
    owner ≠ some t := by
  rintro rfl
  have := (h.owner_sound t rfl).2.1
  omega

theorem Turns.depth (h : Turns env₀ owner past p) (t : Nat) :
    (p.threads t).core.depth = (past t).live.length := by
  by_cases ht : owner = some t
  · exact ((h.owner_sound t ht).1 false).depth
  · obtain ⟨hcore, -, -, hlive⟩ := h.others t ht
    rw [hcore, hlive]
    rfl

theorem Turns.moved (h : Turns env₀ owner past p) (hturn : owner = none ∨ owner = some t)
    {past' : Past} {th : Thread} {w : World} (hs : ThreadSound env₀.var past' th w)
    (hentering : th.entering = none) (hwaiting : past'.waiting = none) (hclean : w.corruptions = []) :
    ∃ owner', Turns env₀ owner' (Function.update past t past') (p.put t th w) := by
  have hself : (p.put t th w).threads t = { th with core := w.core } := Function.update_self ..
  have hother : ∀ t', t' ≠ t → (p.put t th w).threads t' = p.threads t' :=
    fun t' ht => Function.update_of_ne ht ..
  have hpast : Function.update past t past' t = past' := Function.update_self ..
  have hpasts : ∀ t', t' ≠ t → Function.update past t past' t' = past t' :=
    fun t' ht => Function.update_of_ne ht ..
  have hothers : ∀ t', t' ≠ t → Idle (past t') (p.threads t') := by
    refine fun t' ht => h.others t' fun howner => ht ?_
    rcases hturn with hnone | hsome
    · rw [hnone] at howner
      cases howner
    · exact Option.some.inj (howner.symm.trans hsome)
  have hvalid : ∀ t' vars, ((p.put t th w).threads t').entering = some vars →
      ∀ a ∈ vars, validVar a = true := by
    intro t' vars hvars
    by_cases ht : t' = t
    · subst ht
      rw [hself] at hvars
      exact absurd (hentering.symm.trans hvars) nofun
    · rw [hother t' ht] at hvars
      exact h.entering t' vars hvars
  have hwaits : ∀ t', ((p.put t th w).threads t').entering =
      (Function.update past t past' t').waiting := by
    intro t'
    by_cases ht : t' = t
    · subst ht
      rw [hself, hpast]
      exact hentering.trans hwaiting.symm
    · rw [hother t' ht, hpasts t' ht]
      exact h.waiting t'
  by_cases hzero : w.core.depth = 0
  · obtain ⟨hidle, hheld, henv⟩ := hs.idle hzero
    refine ⟨none, nofun, fun t' _ => ?_, fun _ => ⟨hheld, henv⟩, hvalid, hwaits, hclean, h.clean.2⟩
    by_cases ht : t' = t
    · subst ht
      rw [hself, hpast]
      exact hidle
    · rw [hother t' ht, hpasts t' ht]
      exact hothers t' ht
  · refine ⟨some t, fun t' ht => ?_, fun t' ht => ?_, nofun, hvalid, hwaits, hclean, h.clean.2⟩
    · cases ht
      rw [hself, hpast]
      refine ⟨fun panicking => ?_, Nat.pos_of_ne_zero hzero, hentering⟩
      have hs' : ThreadSound env₀.var past' { th with core := w.core } w :=
        ⟨hs.sound, hs.refines, hs.guards_match, hs.live⟩
      refine hs'.congr ?_ ?_ ?_
      · exact congrArg Thread.core hself
      · rfl
      · rfl
    · have hne : t' ≠ t := fun heq => ht (congrArg some heq.symm)
      rw [hother t' hne, hpasts t' hne]
      exact hothers t' hne

theorem Turns.began (h : Turns env₀ owner past p) (hne : owner ≠ some t) {vars : List Var}
    (hvars : ∀ a ∈ vars, validVar a = true) {w : World} (hcore : w.core = (p.threads t).core)
    (henv : w.env = p.env) (hheld : w.envLock.held = p.envLock.held)
    (hclean : w.corruptions = p.corruptions) :
    Turns env₀ owner (Function.update past t { past t with waiting := some vars })
      (p.put t { p.threads t with entering := some vars } w) := by
  set p' := p.put t { p.threads t with entering := some vars } w with hp'
  have hself : p'.threads t = { p.threads t with entering := some vars, core := w.core } :=
    Function.update_self ..
  have hother : ∀ t', t' ≠ t → p'.threads t' = p.threads t' :=
    fun t' ht => Function.update_of_ne ht ..
  have hpast : Function.update past t { past t with waiting := some vars } t =
      { past t with waiting := some vars } := Function.update_self ..
  have hpasts : ∀ t', t' ≠ t →
      Function.update past t { past t with waiting := some vars } t' = past t' :=
    fun t' ht => Function.update_of_ne ht ..
  refine ⟨fun t' ht => ?_, fun t' ht => ?_, fun hnone => ?_, fun t' vs hvs => ?_, fun t' => ?_,
    hclean.trans h.clean.1, h.clean.2⟩
  · have ht' : t' ≠ t := fun heq => hne (ht.trans (congrArg some heq))
    obtain ⟨hs, hdepth, hentering⟩ := h.owner_sound t' ht
    rw [hother t' ht', hpasts t' ht']
    refine ⟨fun panicking => ?_, hdepth, hentering⟩
    exact (hs panicking).congr (congrArg Thread.core (hother t' ht')) henv hheld
  · have hidle := h.others t' ht
    by_cases ht' : t' = t
    · subst ht'
      rw [hself, hpast]
      exact ⟨hcore.trans hidle.core, hidle.guards, hidle.ledger, hidle.live⟩
    · rw [hother t' ht', hpasts t' ht']
      exact hidle
  · exact ⟨hheld.trans (h.free hnone).1, henv.trans (h.free hnone).2⟩
  · by_cases ht' : t' = t
    · subst ht'
      rw [hself] at hvs
      cases hvs
      exact hvars
    · rw [hother t' ht'] at hvs
      exact h.entering t' vs hvs
  · by_cases ht' : t' = t
    · subst ht'
      rw [hself, hpast]
    · rw [hother t' ht', hpasts t' ht']
      exact h.waiting t'

/-! ### Moves -/

theorem prepareToLock_nested {w : World} (h : 0 < w.core.depth) :
    prepareToLock w = .ok false w := by
  rw [prepareToLock, bind_ok (get_apply w)]
  simp only [h, if_true]
  rfl

theorem prepareToLock_outermost {w : World} (h : w.core = ThreadStateCore.new) :
    ∃ w', prepareToLock w = .ok true w' ∧ w'.core = w.core ∧ w'.env = w.env ∧
      w'.envLock.held = w.envLock.held ∧ w'.corruptions = w.corruptions := by
  obtain ⟨core, env, ⟨held, poisoned⟩, panicking, corruptions⟩ := w
  obtain rfl : core = ThreadStateCore.new := h
  cases poisoned <;> exact ⟨_, rfl, rfl, rfl, rfl, rfl⟩

theorem takeEnvLock_free {w : World} (h : w.core = ThreadStateCore.new)
    (hfree : w.envLock.held = false) :
    ∃ w', takeEnvLock w = .ok () w' ∧ w'.core = w.locked.core ∧ w'.env = w.env ∧
      w'.envLock.held = true ∧ w'.corruptions = w.corruptions := by
  obtain ⟨core, env, ⟨held, poisoned⟩, panicking, corruptions⟩ := w
  obtain rfl : core = ThreadStateCore.new := h
  obtain rfl : held = false := hfree
  exact ⟨_, rfl, rfl, rfl, rfl, rfl⟩

theorem takeEnvLock_held {w : World} (hheld : w.envLock.held = true) :
    takeEnvLock w = .error .blocked w := by
  rw [takeEnvLock, lockEnvMutex]
  simp only [bind_apply, get_apply, hheld, if_true]
  rfl

theorem Process.step_of_ok {panicking : Bool} {move : Move} {th : Thread} {w : World}
    (h : (p.threads t).run move (p.world t panicking) = .ok th w) :
    p.step ⟨t, panicking, move⟩ = some (p.put t th w) := by
  simp only [Process.step, h]

theorem Turns.apply_step (h : Turns env₀ owner past p) {vars : List Var} (panicking : Bool)
    (hentering : (p.threads t).entering = none) (hvars : ∀ a ∈ vars, validVar a = true) :
    ∃ owner' p', p.step ⟨t, panicking, .apply vars⟩ = some p' ∧
      Turns env₀ owner' (Function.update past t ((past t).after ⟨t, panicking, .apply vars⟩)) p' := by
  by_cases hdepth : 0 < (p.threads t).core.depth
  · have hturn := h.owner_of_depth hdepth
    have hs := h.threadSound (Or.inr hturn) panicking
    have hlocked : (p.world t panicking).locked = p.world t panicking := if_pos hdepth
    obtain ⟨th', w', hrun, hs', -, hnone, hclean⟩ := Thread.enter_valid hs hvars
      (congrArg World.core hlocked.symm) rfl (hs.sound.held.trans (hs.sound.lock.2 hdepth))
    have hlive : (past t).live ≠ [] := by
      rw [h.depth t] at hdepth
      exact List.length_pos_iff.mp hdepth
    have hafter : (past t).after ⟨t, panicking, .apply vars⟩ = (past t).enter vars panicking :=
      if_neg hlive
    rw [hafter]
    obtain ⟨owner', h'⟩ :=
      h.moved (Or.inr hturn) (hs' panicking) hnone rfl (hclean.trans h.clean.1)
    refine ⟨owner', _, Process.step_of_ok ?_, h'⟩
    simp only [Thread.run, hentering]
    exact (bind_ok (prepareToLock_nested hdepth)).trans hrun
  · have hne := h.not_owner (Nat.eq_zero_of_not_pos hdepth)
    have hidle := h.others t hne
    obtain ⟨w', hrun, hcore, henv, hheld, hclean⟩ :=
      prepareToLock_outermost (w := p.world t panicking) hidle.core
    have hafter : (past t).after ⟨t, panicking, .apply vars⟩ =
        { past t with waiting := some vars } := if_pos hidle.live
    rw [hafter]
    refine ⟨owner, _, Process.step_of_ok ?_, h.began hne hvars hcore henv hheld hclean⟩
    simp only [Thread.run, hentering]
    exact (bind_ok hrun).trans rfl

theorem Turns.lock_step (h : Turns env₀ owner past p) {vars : List Var} (panicking : Bool)
    (hentering : (p.threads t).entering = some vars) (hfree : p.envLock.held = false) :
    ∃ owner' p', p.step ⟨t, panicking, .lock⟩ = some p' ∧
      Turns env₀ owner' (Function.update past t ((past t).after ⟨t, panicking, .lock⟩)) p' ∧
      0 < (p'.threads t).core.depth := by
  have hturn : owner = none := by
    by_contra hne
    exact absurd (hfree.symm.trans (h.held_iff.2 hne)) nofun
  have hs := h.threadSound (t := t) (Or.inl hturn) panicking
  have hidle := (h.others t (by rw [hturn]; nofun)).core
  obtain ⟨w₁, hlock, hcore, henv, hheld, hsame⟩ :=
    takeEnvLock_free (w := p.world t panicking) hidle hfree
  obtain ⟨th', w', hrun, hs', hdepth, hnone, hclean⟩ :=
    Thread.enter_valid hs (h.entering t vars hentering) hcore henv hheld
  have hafter : (past t).after ⟨t, panicking, .lock⟩ = (past t).enter vars panicking := by
    simp only [Past.after, ← h.waiting t, hentering]
  rw [hafter]
  obtain ⟨owner', h'⟩ :=
    h.moved (Or.inl hturn) (hs' panicking) hnone rfl (hclean.trans (hsame.trans h.clean.1))
  refine ⟨owner', _, Process.step_of_ok ?_, h', ?_⟩
  · simp only [Thread.run, hentering]
    exact (bind_ok hlock).trans hrun
  · rw [show (p.put t th' w').threads t = _ from Function.update_self ..]
    exact hdepth

theorem Turns.drop_step (h : Turns env₀ owner past p) {position : Nat} {guard : ScopedEnv}
    (panicking : Bool) (hentering : (p.threads t).entering = none)
    (hguard : (p.threads t).guards[position]? = some guard) :
    ∃ owner' p', p.step ⟨t, panicking, .drop position⟩ = some p' ∧
      Turns env₀ owner' (Function.update past t ((past t).after ⟨t, panicking, .drop position⟩)) p' := by
  have hturn : owner = some t := by
    by_contra hne
    rw [(h.others t hne).guards] at hguard
    cases hguard
  have hs := h.threadSound (Or.inr hturn) panicking
  obtain ⟨w', hrun, hs', hclean⟩ := hs.dropped hguard
  have hlive : (past t).live[position]? = some guard.index := by
    rw [← hs.live, List.getElem?_map, hguard]
    rfl
  have hafter : (past t).after ⟨t, panicking, .drop position⟩ = { past t with
      calls := (past t).calls ++ [⟨.exit guard.index, panicking⟩]
      live := (past t).live.eraseIdx position } := by
    simp only [Past.after, hlive]
  rw [hafter]
  obtain ⟨owner', h'⟩ := h.moved (Or.inr hturn) (hs' panicking) hentering
    ((h.waiting t).symm.trans hentering) (hclean.trans h.clean.1)
  refine ⟨owner', _, Process.step_of_ok ?_, h'⟩
  simp only [Thread.run, hentering, hguard]
  exact (bind_ok hrun).trans rfl

/-- Every move that a thread makes keeps the turns. -/
theorem Turns.step (h : Turns env₀ owner past p) {e : Event} (hvalid : e.move.Valid) {p' : Process}
    (hstep : p.step e = some p') :
    ∃ owner', Turns env₀ owner' (Function.update past e.thread ((past e.thread).after e)) p' := by
  obtain ⟨t, panicking, move⟩ := e
  -- a move that cannot be made now is none
  have hblocked : ∀ w, (p.threads t).run move (p.world t panicking) ≠ .error .blocked w := by
    intro w hrun
    simp only [Process.step, hrun] at hstep
    cases hstep
  cases move with
  | apply vars =>
    cases hentering : (p.threads t).entering with
    | some vs => exact absurd (by simp only [Thread.run, hentering]; rfl) (hblocked _)
    | none =>
      obtain ⟨owner', p'', hstep', h'⟩ := h.apply_step panicking hentering hvalid
      exact ⟨owner', Option.some.inj (hstep'.symm.trans hstep) ▸ h'⟩
  | lock =>
    cases hentering : (p.threads t).entering with
    | none => exact absurd (by simp only [Thread.run, hentering]; rfl) (hblocked _)
    | some vars =>
      cases hheld : p.envLock.held with
      | false =>
        obtain ⟨owner', p'', hstep', h', -⟩ := h.lock_step panicking hentering hheld
        exact ⟨owner', Option.some.inj (hstep'.symm.trans hstep) ▸ h'⟩
      | true =>
        refine absurd ?_ (hblocked (p.world t panicking))
        simp only [Thread.run, hentering]
        exact bind_error (takeEnvLock_held hheld)
  | drop position =>
    cases hentering : (p.threads t).entering with
    | some vs => exact absurd (by simp only [Thread.run, hentering]; rfl) (hblocked _)
    | none =>
      cases hguard : (p.threads t).guards[position]? with
      | none => exact absurd (by simp only [Thread.run, hentering, hguard]; rfl) (hblocked _)
      | some guard =>
        obtain ⟨owner', p'', hstep', h'⟩ := h.drop_step panicking hentering hguard
        exact ⟨owner', Option.some.inj (hstep'.symm.trans hstep) ▸ h'⟩

end Turns

/-! ### The contract -/

/-- What the callers of `ScopedEnv` rely on after the events of a run: one thread at a time has
scopes, one for each guard that it has not dropped, in an environment that only it has changed, and
every `apply` goes through, at once or when the lock is free. -/
structure Serialised (env₀ : ProcessEnvironment) (events : List Event) (p : Process) : Prop where
  exclusive : ∀ t t', 0 < (p.threads t).core.depth → 0 < (p.threads t').core.depth → t = t'
  held : p.envLock.held = true ↔ ∃ t, 0 < (p.threads t).core.depth
  depth : ∀ t, (p.threads t).core.depth = (pastOf events t).live.length
  env : ∀ t, 0 < (p.threads t).core.depth →
    p.env = assignAll env₀.var (ledgerOf (pastOf events t).calls).assignments
  free : p.envLock.held = false → p.env = env₀.var
  no_panic : p.panics = []
  apply_begins : ∀ t vars panicking, (p.threads t).entering = none →
    (∀ a ∈ vars, validVar a = true) →
    ∃ p', p.step ⟨t, panicking, .apply vars⟩ = some p' ∧ p'.panics = []
  lock_taken : ∀ t vars panicking, (p.threads t).entering = some vars → p.envLock.held = false →
    ∃ p', p.step ⟨t, panicking, .lock⟩ = some p' ∧ 0 < (p'.threads t).core.depth ∧ p'.panics = []

theorem Turns.serialised {env₀ : ProcessEnvironment} {owner : Option Nat} {events : List Event}
    {p : Process} (h : Turns env₀ owner (pastOf events) p) : Serialised env₀ events p := by
  refine ⟨fun t t' ht ht' => ?_, ?_, h.depth, fun t ht => ?_, fun hfree => ?_, h.clean.2, ?_, ?_⟩
  · exact Option.some.inj ((h.owner_of_depth ht).symm.trans (h.owner_of_depth ht'))
  · rw [h.held_iff]
    constructor
    · intro hne
      obtain ⟨t, rfl⟩ := Option.ne_none_iff_exists'.mp hne
      exact ⟨t, (h.owner_sound t rfl).2.1⟩
    · rintro ⟨t, ht⟩
      rw [h.owner_of_depth ht]
      nofun
  · exact ((h.owner_sound t (h.owner_of_depth ht)).1 false).refines.env
  · refine (h.free ?_).2
    by_contra hne
    exact absurd (hfree.symm.trans (h.held_iff.2 hne)) nofun
  · intro t vars panicking hentering hvars
    obtain ⟨owner', p', hstep, h'⟩ := h.apply_step panicking hentering hvars
    exact ⟨p', hstep, h'.clean.2⟩
  · intro t vars panicking hentering hfree
    obtain ⟨owner', p', hstep, h', hdepth⟩ := h.lock_step panicking hentering hfree
    exact ⟨p', hstep, hdepth, h'.clean.2⟩

/-- **Threads take turns with the environment.** After any interleaving of `apply` and guard drops
of any number of threads, with valid lists, each guard dropped at most once and in any order, also
by threads that unwind: at most one thread has scopes, the environment is the initial one under the
assignments of that thread that are not reverted, and the initial one while the lock is free, and
neither the poison nor anything else makes a call panic. -/
theorem threads_serialised (env₀ : ProcessEnvironment) (poisoned : Bool) (events : List Event)
    (hvalid : ∀ e ∈ events, e.move.Valid) {p : Process}
    (hrun : run Process.step events (Process.init env₀ poisoned) = some p) :
    Serialised env₀ events p := by
  have hstep : ∀ before q e q', (∃ owner, Turns env₀ owner (pastOf before) q) → e.move.Valid →
      Process.step q e = some q' → ∃ owner', Turns env₀ owner' (pastOf (before ++ [e])) q' := by
    rintro before q e q' ⟨owner, h⟩ hmove hq'
    rw [pastOf_concat]
    exact h.step hmove hq'
  have halong : Along Process.step (fun _ e => e.move.Valid) events
      (Process.init env₀ poisoned) := along_of_mem (fun e he _ => hvalid e he) _
  obtain ⟨owner, h⟩ := run_recorded hstep ⟨none, turns_init env₀ poisoned⟩ halong hrun
  exact h.serialised

/-- Thread 1 waits when thread 0 panics and poisons the lock, and takes the poisoned lock. -/
def poisonedRun : List Event :=
  [⟨0, false, .apply [([65], some [49])]⟩, ⟨0, false, .lock⟩, ⟨1, false, .apply [([66], some [50])]⟩,
    ⟨0, true, .drop 0⟩, ⟨1, false, .lock⟩]

theorem threads_serialised_poisoned :
    ∃ env₀ : ProcessEnvironment, ∃ p, run Process.step poisonedRun (Process.init env₀ false) = some p ∧
      p.envLock = ⟨true, true⟩ ∧ (ledgerOf (pastOf poisonedRun 1).calls).assignments = [([66], some [50])] ∧
      Serialised env₀ poisonedRun p := by
  refine ⟨⟨fun _ => none, fun _ _ h => by cases h⟩, _, rfl, rfl, by decide,
    threads_serialised _ false poisonedRun ?_ rfl⟩
  simp only [poisonedRun, List.forall_mem_cons, List.not_mem_nil, false_implies, implies_true,
    and_true, Move.Valid]
  decide

end PgEmbeddedSetup.Env
