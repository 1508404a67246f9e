import PgEmbeddedSetup.Env.State

/-!
# What the thread state's operations do

One equation for each operation of `Env.State`, under the conditions its callers meet: names and
values that `setenv` accepts, and a lock that is held exactly while the depth is positive (`Sound`).
From here on no proof looks inside the operations. `enterScope_valid` says what a call with a valid
list does; `exitScope_zero`, `exitScope_recover` and `exitScope_finish` are the three ways an exit can
go, all of them total.
-/

namespace PgEmbeddedSetup.Env

open Outcome UndoLog

/-! ### Valid assignments -/

/-- A name that `setenv` takes. -/
def validName (key : OsString) : Bool := !key.isEmpty && !containsEquals key && !key.contains 0

/-- A valid name with a value that is a C string, if it has one. -/
def validVar (a : Var) : Bool := validName a.1 && a.2.all fun value => !value.contains 0

theorem validVar_name {key : OsString} {value : Option OsString} (h : validVar (key, value) = true) :
    key.isEmpty = false ∧ containsEquals key = false ∧ key.contains 0 = false := by
  simp only [validVar, validName, Bool.and_eq_true, Bool.not_eq_true'] at h
  exact ⟨h.1.1.1, h.1.1.2, h.1.2⟩

theorem validVar_value {key value : OsString} (h : validVar (key, some value) = true) :
    value.contains 0 = false := by
  simp only [validVar, Bool.and_eq_true, Option.all_some, Bool.not_eq_true'] at h
  exact h.2

theorem validVar_of {key : OsString} {value : Option OsString} (hkey : validName key = true)
    (hvalue : ∀ v, value = some v → 0 ∉ v) : validVar (key, value) = true := by
  simp only [validVar, hkey, Bool.true_and]
  cases value with
  | none => rfl
  | some v => simpa using hvalue v rfl

/-- The environment holds C strings only. -/
def NoNul (env : OsString → Option OsString) : Prop := ∀ key value, env key = some value → 0 ∉ value

theorem noNul_assignAll {env : OsString → Option OsString} {vars : List Var} (henv : NoNul env)
    (hvars : ∀ a ∈ vars, validVar a = true) : NoNul (assignAll env vars) := by
  refine assignAll_preserves henv fun a ha v hv => ?_
  obtain ⟨key, value⟩ := a
  obtain rfl : value = some v := hv
  simpa using validVar_value (hvars _ ha)

theorem validVar_undoLog {env : OsString → Option OsString} {vars : List Var} (henv : NoNul env)
    (hvars : ∀ a ∈ vars, validVar a = true) : ∀ a ∈ undoLog env vars, validVar a = true := by
  intro a ha
  have hlog := undoLog_forall henv (fun b hb v hv => by
    obtain ⟨key, value⟩ := b
    obtain rfl : value = some v := hv
    simpa using validVar_value (hvars _ hb)) a ha
  obtain ⟨⟨b, hb, hkey⟩, hvalue⟩ := hlog
  have hname := hvars b hb
  simp only [validVar, Bool.and_eq_true] at hname
  exact validVar_of (hkey ▸ hname.1) hvalue

/-! ### The environment operations -/

theorem assertM_true (message : String) (w : World) : assertM true message w = .ok () w := rfl

theorem assertM_false (message : String) (w : World) :
    assertM false message w = .error (.panic message) w := rfl

theorem setVar_valid {key value : OsString} (h : validVar (key, some value) = true) (w : World) :
    setVar key value w = .ok () { w with env := assign w.env (key, some value) } := by
  obtain ⟨h1, h2, h3⟩ := validVar_name h
  simp only [setVar, h1, h2, h3, validVar_value h, Bool.or_false, Bool.false_eq_true, if_false,
    modify_apply]

theorem removeVar_valid {key : OsString} {value : Option OsString}
    (h : validVar (key, value) = true) (w : World) :
    removeVar key w = .ok () { w with env := assign w.env (key, none) } := by
  obtain ⟨h1, h2, h3⟩ := validVar_name h
  simp only [removeVar, h1, h2, h3, Bool.or_false, Bool.false_eq_true, if_false, modify_apply]

theorem validateEnvKey_valid {key : OsString} {value : Option OsString}
    (h : validVar (key, value) = true) (w : World) : validateEnvKey key w = .ok () w := by
  obtain ⟨h1, h2, -⟩ := validVar_name h
  simp only [validateEnvKey, h1, h2, Bool.not_false, bind_ok (assertM_true _ w), assertM_true]

theorem applySingleVar_valid {key : OsString} {newValue : Option OsString}
    (h : validVar (key, newValue) = true) (w : World) :
    applySingleVar key newValue w =
      .ok (w.env key) { w with env := assign w.env (key, newValue) } := by
  obtain ⟨h1, h2, -⟩ := validVar_name h
  unfold applySingleVar
  rw [h1, h2, Bool.not_false, Bool.and_self, bind_ok (assertM_true _ w), bind_ok (get_apply w)]
  cases newValue with
  | none => exact bind_ok (removeVar_valid h w)
  | some value => exact bind_ok (setVar_valid h w)

theorem applyEach_valid {vars : List Var} (h : ∀ a ∈ vars, validVar a = true) (saved : List Var)
    (w : World) :
    applyEach vars saved w =
      .ok (saved ++ undoLog w.env vars) { w with env := assignAll w.env vars } := by
  induction vars generalizing saved w with
  | nil => simp [applyEach, undoLog]
  | cons a vars ih =>
    obtain ⟨key, newValue⟩ := a
    have ha := h _ List.mem_cons_self
    rw [applyEach, bind_ok (validateEnvKey_valid ha w), bind_ok (applySingleVar_valid ha w),
      ih (fun b hb => h b (List.mem_cons_of_mem _ hb))]
    simp [undoLog]

theorem applyEnvVars_valid {vars : List Var} (h : ∀ a ∈ vars, validVar a = true) {w : World}
    (hlock : w.core.lock.isSome = true) :
    applyEnvVars vars w = .ok (undoLog w.env vars) { w with env := assignAll w.env vars } := by
  rw [applyEnvVars, bind_ok (get_apply w), hlock, bind_ok (assertM_true _ w), applyEach_valid h]
  rfl

theorem restoreEach_valid {l : List Var} (h : ∀ a ∈ l, validVar a = true) (w : World) :
    restoreEach l w = .ok () { w with env := assignAll w.env l } := by
  induction l generalizing w with
  | nil => rfl
  | cons a l ih =>
    obtain ⟨key, value⟩ := a
    have ha := h _ List.mem_cons_self
    have ih' := ih (fun b hb => h b (List.mem_cons_of_mem _ hb))
    cases value with
    | none =>
      rw [restoreEach]
      exact (bind_ok (removeVar_valid ha w)).trans (ih' _)
    | some value =>
      rw [restoreEach]
      exact (bind_ok (setVar_valid ha w)).trans (ih' _)

theorem restoreSaved_valid {saved : List Var} (h : ∀ a ∈ saved, validVar a = true) (w : World) :
    restoreSaved saved w = .ok () { w with env := undo w.env saved } := by
  rw [restoreSaved, restoreEach_valid (fun a ha => h a (List.mem_reverse.mp ha))]
  simp only [assignAll, undo, List.foldl_reverse]

/-! ### Undoing stack entries -/

/-- The logs of the entries of a stack. -/
abbrev savedOf (stack : List GuardState) : List (List Var) := stack.map (·.saved)

def SavedValid (stack : List GuardState) : Prop :=
  ∀ g ∈ stack, ∀ a ∈ g.saved, validVar a = true

theorem SavedValid.of_cons {g : GuardState} {stack : List GuardState}
    (h : SavedValid (g :: stack)) : (∀ a ∈ g.saved, validVar a = true) ∧ SavedValid stack :=
  ⟨h g List.mem_cons_self, fun g' hg' => h g' (List.mem_cons_of_mem _ hg')⟩

theorem savedValid_reverse {stack : List GuardState} (h : SavedValid stack) :
    SavedValid stack.reverse :=
  fun g hg => h g (List.mem_reverse.mp hg)

theorem SavedValid.set {stack : List GuardState} {index : Nat} {g : GuardState}
    (h : SavedValid stack) (hget : stack[index]? = some g) (finished : Bool) :
    SavedValid (stack.set index { g with finished := finished }) := by
  intro g' hg' a ha
  rcases List.mem_or_eq_of_mem_set hg' with hmem | rfl
  · exact h g' hmem a ha
  · exact h g (List.mem_of_getElem? hget) a ha

theorem restoreEachScope_valid {rev : List GuardState} (h : SavedValid rev) {w : World}
    (hstack : w.core.stack = rev.reverse) :
    restoreEachScope rev w = .ok () { w with
      core := { w.core with stack := [] }
      env := undoStack w.env (savedOf rev.reverse) } := by
  induction rev generalizing w with
  | nil =>
    obtain ⟨⟨depth, lock, stack⟩, env, envLock, panicking, corruptions⟩ := w
    obtain rfl : stack = [] := hstack
    rfl
  | cons g rest ih =>
    obtain ⟨hg, hrest⟩ := h.of_cons
    rw [restoreEachScope, modifyCore, bind_ok (modify_apply _ w), bind_ok (restoreSaved_valid hg _),
      ih hrest rfl]
    simp [undoStack]

theorem restoreWhileFinished_valid {rev : List GuardState} (h : SavedValid rev) {w : World}
    (hstack : w.core.stack = rev.reverse) :
    restoreWhileFinished rev w = .ok () { w with
      core := { w.core with stack := rev.reverse.rdropWhile (·.finished) }
      env := undoStack w.env (savedOf (rev.reverse.rtakeWhile (·.finished))) } := by
  induction rev generalizing w with
  | nil =>
    obtain ⟨⟨depth, lock, stack⟩, env, envLock, panicking, corruptions⟩ := w
    obtain rfl : stack = [] := hstack
    rfl
  | cons g rest ih =>
    obtain ⟨hg, hrest⟩ := h.of_cons
    rw [restoreWhileFinished, modifyCore, bind_ok (modify_apply _ w), List.reverse_cons]
    by_cases hfin : g.finished = true
    · simp only [hfin, Bool.not_true, Bool.false_eq_true, if_false]
      rw [bind_ok (restoreSaved_valid hg _), ih hrest rfl,
        List.rdropWhile_concat_pos _ _ _ hfin, List.rtakeWhile_concat_pos _ _ _ hfin]
      simp [undoStack]
    · simp only [hfin, Bool.not_false, if_true]
      rw [List.rdropWhile_concat_neg _ _ _ hfin, List.rtakeWhile_concat_neg _ _ _ hfin, modifyCore,
        modify_apply]
      rfl

/-! ### The lock -/

/-- The world once the thread has dropped its lock guard, if it had one. -/
def World.released (w : World) : World :=
  match w.core.lock with
  | some guard => { w with
      core := { w.core with lock := none }
      envLock := ⟨false, w.envLock.poisoned || (!guard.panicking && w.panicking)⟩ }
  | none => w

@[simp] theorem released_depth (w : World) : w.released.core.depth = w.core.depth := by
  unfold World.released; split <;> rfl

@[simp] theorem released_stack (w : World) : w.released.core.stack = w.core.stack := by
  unfold World.released; split <;> rfl

@[simp] theorem released_env (w : World) : w.released.env = w.env := by
  unfold World.released; split <;> rfl

@[simp] theorem released_corruptions (w : World) : w.released.corruptions = w.corruptions := by
  unfold World.released; split <;> rfl

@[simp] theorem released_lock (w : World) : w.released.core.lock = none := by
  unfold World.released
  split
  · rfl
  · assumption

theorem released_held {w : World} (h : w.envLock.held = w.core.lock.isSome) :
    w.released.envLock.held = false := by
  unfold World.released
  split
  · rfl
  · rename_i hnone
    rw [h, hnone]
    rfl

theorem ensureLockForRestore_held {w : World} (h : w.core.lock.isSome = true) :
    ensureLockForRestore w = .ok () w := by
  rw [ensureLockForRestore, bind_ok (get_apply w), Option.isNone_eq_false_iff.2 h]
  rfl

theorem releaseOutermostLock_eq {w : World} (hstack : w.core.stack = [])
    (hlock : w.core.lock.isSome = true) : releaseOutermostLock w = .ok () w.released := by
  obtain ⟨⟨depth, lock, stack⟩, env, envLock, panicking, corruptions⟩ := w
  obtain rfl : stack = [] := hstack
  obtain ⟨guard, rfl⟩ : ∃ guard, lock = some guard := Option.isSome_iff_exists.mp hlock
  rfl

theorem resetDepthAndUnlock_eq (w : World) :
    resetDepthAndUnlock w =
      .ok () { w with core := { w.core with depth := 0 } : World }.released := by
  obtain ⟨⟨depth, lock, stack⟩, env, envLock, panicking, corruptions⟩ := w
  cases lock <;> rfl

/-! ### Recovery -/

def World.logged (w : World) (reason : String) (index : Option Nat) : World :=
  { w with corruptions := w.corruptions ++
      [⟨reason, w.core.depth, w.core.stack.length, w.core.lock.isSome, index⟩] }

/-- Every entry undone, depth zero, lock released. -/
def World.reset (w : World) : World :=
  { w with
    core := { w.core with depth := 0, stack := [] }
    env := undoStack w.env (savedOf w.core.stack) : World }.released

theorem restoreAllScopes_eq {w : World} (hsaved : SavedValid w.core.stack)
    (hlock : w.core.lock.isSome = true) :
    restoreAllScopes w = .ok () { w with
      core := { w.core with stack := [] }
      env := undoStack w.env (savedOf w.core.stack) } := by
  rw [restoreAllScopes, bind_ok (get_apply w)]
  by_cases hempty : w.core.stack.isEmpty = true
  · obtain ⟨⟨depth, lock, stack⟩, env, envLock, panicking, corruptions⟩ := w
    obtain rfl : stack = [] := List.isEmpty_iff.mp hempty
    rfl
  · simp only [hempty, Bool.false_eq_true, if_false]
    refine (bind_ok (ensureLockForRestore_held hlock)).trans ?_
    rw [bind_ok (get_apply w),
      restoreEachScope_valid (savedValid_reverse hsaved) (List.reverse_reverse _).symm,
      List.reverse_reverse]

theorem forceRestoreAndReset_eq (reason : String) (index : Option Nat) {w : World}
    (hsaved : SavedValid w.core.stack) (hlock : w.core.stack ≠ [] → w.core.lock.isSome = true) :
    forceRestoreAndReset reason index w = .ok () (w.logged reason index).reset := by
  have hlog : logCorruption reason index w = .ok () (w.logged reason index) := rfl
  rw [forceRestoreAndReset, bind_ok hlog, bind_ok (get_apply _)]
  by_cases hempty : w.core.stack = []
  · obtain ⟨⟨depth, lock, stack⟩, env, envLock, panicking, corruptions⟩ := w
    obtain rfl : stack = [] := hempty
    cases lock <;> rfl
  · have hne : (w.logged reason index).core.stack.isEmpty = false := by
      simpa [World.logged] using hempty
    simp only [hne, Bool.false_eq_true, if_false]
    have hheld : (w.logged reason index).core.lock.isSome = true := hlock hempty
    refine (bind_ok (ensureLockForRestore_held hheld)).trans ?_
    refine (bind_ok (restoreAllScopes_eq (w := w.logged reason index) hsaved hheld)).trans ?_
    rw [resetDepthAndUnlock_eq]
    rfl

/-! ### Finishing an entry -/

theorem restoreFinishedScopes_eq {w : World} (hsaved : SavedValid w.core.stack)
    (hlock : w.core.lock.isSome = true) :
    restoreFinishedScopes w = .ok () { w with
      core := { w.core with stack := w.core.stack.rdropWhile (·.finished) }
      env := undoStack w.env (savedOf (w.core.stack.rtakeWhile (·.finished))) } := by
  have hloop := restoreWhileFinished_valid (savedValid_reverse hsaved)
    (List.reverse_reverse w.core.stack).symm
  rw [List.reverse_reverse] at hloop
  rw [restoreFinishedScopes, bind_ok (get_apply w)]
  by_cases htop : w.core.stack.getLast?.any (·.finished) = true
  · simp only [htop, if_true]
    exact (bind_ok (ensureLockForRestore_held hlock)).trans ((bind_ok (get_apply w)).trans hloop)
  · simp only [htop]
    exact (bind_ok (get_apply w)).trans hloop

theorem finishScope_finish {w : World} (hsaved : SavedValid w.core.stack)
    (hlock : w.core.lock.isSome = true) {index : Nat} {g : GuardState}
    (hget : w.core.stack[index]? = some g) (hfin : g.finished = false) :
    finishScope index w = .ok true { w with
      core := { w.core with stack :=
        (w.core.stack.set index { g with finished := true }).rdropWhile (·.finished) }
      env := undoStack w.env (savedOf
        ((w.core.stack.set index { g with finished := true }).rtakeWhile (·.finished))) } := by
  rw [finishScope, bind_ok (get_apply w)]
  simp only [hget, hfin, Bool.false_eq_true, if_false]
  rw [modifyCore, bind_ok (modify_apply _ w)]
  exact (bind_ok (restoreFinishedScopes_eq (w := { w with core := { w.core with
    stack := w.core.stack.set index { g with finished := true } } })
    (hsaved.set hget true) hlock)).trans rfl

/-! ### Sound states and the exit of a scope -/

def unfinished (stack : List GuardState) : Nat := stack.countP (!·.finished)

/-- The stack is empty or its top entry is unfinished. -/
def TopUnfinished (stack : List GuardState) : Prop :=
  ∀ g, stack.getLast? = some g → g.finished = false

/-- What holds of the thread state between calls, also after calls that panicked: the lock is held
exactly while the depth is positive, the depth counts at least the unfinished entries, and every
saved value can be assigned back. -/
structure Sound (w : World) : Prop where
  lock : w.core.lock.isSome = true ↔ 0 < w.core.depth
  held : w.envLock.held = w.core.lock.isSome
  saved : SavedValid w.core.stack
  env : NoNul w.env
  unfinished_le : unfinished w.core.stack ≤ w.core.depth
  top : TopUnfinished w.core.stack

theorem topUnfinished_nil : TopUnfinished [] := by
  intro g hg
  cases hg

theorem topUnfinished_rdropWhile (stack : List GuardState) :
    TopUnfinished (stack.rdropWhile (·.finished)) := by
  intro g hg
  have hne : stack.rdropWhile (·.finished) ≠ [] := by
    intro h
    rw [h] at hg
    cases hg
  have hlast := List.rdropWhile_last_not (·.finished) stack hne
  rw [List.getLast?_eq_getLast_of_ne_nil hne, Option.some_inj] at hg
  rw [hg] at hlast
  simpa using hlast

theorem TopUnfinished.eq_nil {stack : List GuardState} (htop : TopUnfinished stack)
    (hzero : unfinished stack = 0) : stack = [] := by
  rcases List.eq_nil_or_concat stack with rfl | ⟨rest, g, rfl⟩
  · rfl
  · have hg := htop g (by simp)
    simp [unfinished, hg] at hzero

theorem unfinished_rdropWhile (stack : List GuardState) :
    unfinished (stack.rdropWhile (·.finished)) = unfinished stack := by
  conv_rhs => rw [← List.rdropWhile_append_rtakeWhile (p := (·.finished)) (l := stack)]
  have htaken : unfinished (stack.rtakeWhile (·.finished)) = 0 := by
    rw [unfinished, List.countP_eq_zero]
    intro g hg
    simp [List.mem_rtakeWhile_imp hg]
  rw [unfinished] at htaken
  rw [unfinished, unfinished, List.countP_append, htaken, Nat.add_zero]

theorem unfinished_set {stack : List GuardState} {index : Nat} {g : GuardState}
    (hget : stack[index]? = some g) (hfin : g.finished = false) :
    unfinished (stack.set index { g with finished := true }) + 1 = unfinished stack := by
  induction stack generalizing index with
  | nil => cases hget
  | cons g' stack ih =>
    cases index with
    | zero =>
      obtain rfl : g' = g := by simpa using hget
      simp [unfinished, hfin]
    | succ index =>
      have h := ih (by simpa using hget)
      simp only [unfinished, List.set_cons_succ, List.countP_cons] at h ⊢
      omega

theorem noNul_undoStack {env : OsString → Option OsString} {stack : List GuardState}
    (henv : NoNul env) (h : SavedValid stack) : NoNul (undoStack env (savedOf stack)) := by
  induction stack with
  | nil => exact henv
  | cons g rest ih =>
    obtain ⟨hg, hrest⟩ := h.of_cons
    show NoNul (undo (undoStack env (savedOf rest)) g.saved)
    rw [show undo (undoStack env (savedOf rest)) g.saved =
      assignAll (undoStack env (savedOf rest)) g.saved.reverse by
        simp only [assignAll, undo, List.foldl_reverse]]
    exact noNul_assignAll (ih hrest) fun a ha => hg a (List.mem_reverse.mp ha)

/-- The world after the unfinished entry `g` at `index` was finished: the finished entries on top
are popped and undone, and the last exit releases the lock. -/
def World.finish (w : World) (index : Nat) (g : GuardState) : World :=
  let marked := w.core.stack.set index { g with finished := true }
  let w' : World := { w with
    core := { w.core with
      depth := w.core.depth - 1
      stack := marked.rdropWhile (·.finished) }
    env := undoStack w.env (savedOf (marked.rtakeWhile (·.finished))) }
  if w.core.depth - 1 = 0 then w'.released else w'

/-- The world after `exit_scope` was called with an index that names no unfinished entry. -/
def World.recover (w : World) (reason : String) (index : Nat) : World :=
  ({ w with core := { w.core with depth := w.core.depth - 1 } : World }.logged reason
    (some index)).reset

theorem Sound.lock_none {w : World} (hs : Sound w) (h : w.core.depth = 0) :
    w.core.lock = none := by
  have := hs.lock
  rw [h] at this
  simpa using this

theorem Sound.stack_nil {w : World} (hs : Sound w) (h : w.core.depth = 0) :
    w.core.stack = [] :=
  hs.top.eq_nil (Nat.le_zero.mp (h ▸ hs.unfinished_le))

theorem exitScope_zero {w : World} (hs : Sound w) (h : w.core.depth = 0) (index : Nat) :
    exitScope index w =
      .ok () (w.logged "ScopedEnv drop without matching apply" none) := by
  have hstack := hs.stack_nil h
  have hlock := hs.lock_none h
  rw [exitScope, bind_ok (get_apply w)]
  simp only [h, if_true]
  refine (bind_ok (forceRestoreAndReset_eq _ _ hs.saved (fun hne => absurd hstack hne))).trans ?_
  obtain ⟨⟨depth, lock, stack⟩, env, envLock, panicking, corruptions⟩ := w
  obtain rfl : depth = 0 := h
  obtain rfl : stack = [] := hstack
  obtain rfl : lock = none := hlock
  rfl

/-- An exit with an index that names no unfinished entry undoes everything. -/
theorem exitScope_recover {w : World} (hs : Sound w) (h : 0 < w.core.depth) (index : Nat)
    (hbad : ∀ g, w.core.stack[index]? = some g → g.finished = true) :
    ∃ reason, exitScope index w = .ok () (w.recover reason index) := by
  have hlock := hs.lock.2 h
  have hforce := fun reason => forceRestoreAndReset_eq reason (some index)
    (w := { w with core := { w.core with depth := w.core.depth - 1 } }) hs.saved (fun _ => hlock)
  refine ⟨if w.core.stack[index]?.isSome then "ScopedEnv finished twice"
    else "ScopedEnv finished out of order", ?_⟩
  rw [exitScope, bind_ok (get_apply w)]
  simp only [Nat.pos_iff_ne_zero.mp h, if_false]
  rw [modifyCore, bind_ok (modify_apply _ w)]
  suffices hfinish : finishScope index
      { w with core := { w.core with depth := w.core.depth - 1 } } =
        .ok false (w.recover _ index) from (bind_ok hfinish).trans rfl
  rw [finishScope, bind_ok (get_apply _)]
  cases hget : w.core.stack[index]? with
  | none => exact bind_ok (hforce _)
  | some g =>
    simp only [hbad g hget, if_true]
    exact bind_ok (hforce _)

theorem exitScope_finish {w : World} (hs : Sound w) {index : Nat} {g : GuardState}
    (hget : w.core.stack[index]? = some g) (hfin : g.finished = false) :
    exitScope index w = .ok () (w.finish index g) := by
  have hcount := unfinished_set hget hfin
  have hle := hs.unfinished_le
  have hpos : 0 < w.core.depth := by omega
  have hlock := hs.lock.2 hpos
  rw [exitScope, bind_ok (get_apply w)]
  simp only [Nat.pos_iff_ne_zero.mp hpos, if_false]
  rw [modifyCore, bind_ok (modify_apply _ w)]
  refine (bind_ok (finishScope_finish
    (w := { w with core := { w.core with depth := w.core.depth - 1 } })
    hs.saved hlock hget hfin)).trans ?_
  simp only [Bool.not_true, Bool.false_eq_true, if_false]
  rw [bind_ok (get_apply _)]
  by_cases hlast : w.core.depth - 1 = 0
  · -- the last exit: no unfinished entry is left, so the stack is empty
    have hnil : (w.core.stack.set index { g with finished := true }).rdropWhile (·.finished) = [] :=
      (topUnfinished_rdropWhile _).eq_nil (by rw [unfinished_rdropWhile]; omega)
    simp only [World.finish, hlast, if_true, hnil]
    exact releaseOutermostLock_eq rfl hlock
  · simp only [World.finish, hlast, if_false]
    rfl

/-! ### Entering a scope -/

/-- The world after `acquire_lock_if_needed`. -/
def World.locked (w : World) : World :=
  if 0 < w.core.depth then w else { w with
    core := { w.core with lock := some ⟨w.panicking, w.env⟩ }
    envLock := ⟨true, false⟩ }

theorem acquireLockIfNeeded_eq {w : World} (hs : Sound w) :
    acquireLockIfNeeded w = .ok () w.locked := by
  by_cases hpos : 0 < w.core.depth
  · rw [acquireLockIfNeeded, bind_ok (get_apply w)]
    simp only [hpos, if_true, World.locked]
    rfl
  · have hlock := hs.lock_none (by omega)
    have hheld := hs.held
    obtain ⟨⟨depth, lock, stack⟩, env, ⟨held, poisoned⟩, panicking, corruptions⟩ := w
    obtain rfl : depth = 0 := Nat.eq_zero_of_not_pos hpos
    obtain rfl : lock = none := hlock
    obtain rfl : held = false := hheld
    cases poisoned <;> rfl

/-- The world after `enter_scope` applied all of `vars`. -/
def World.entered (w : World) (vars : List Var) : World :=
  { w.locked with
    core := { w.locked.core with
      depth := w.core.depth + 1
      stack := w.core.stack ++ [⟨undoLog w.env vars, false⟩] }
    env := assignAll w.env vars }

@[simp] theorem locked_depth (w : World) : w.locked.core.depth = w.core.depth := by
  unfold World.locked; split <;> rfl

@[simp] theorem locked_stack (w : World) : w.locked.core.stack = w.core.stack := by
  unfold World.locked; split <;> rfl

@[simp] theorem locked_env (w : World) : w.locked.env = w.env := by
  unfold World.locked; split <;> rfl

@[simp] theorem locked_corruptions (w : World) : w.locked.corruptions = w.corruptions := by
  unfold World.locked; split <;> rfl

theorem locked_lock {w : World} (hs : Sound w) : w.locked.core.lock.isSome = true := by
  unfold World.locked
  split
  · rename_i hpos
    exact hs.lock.2 hpos
  · rfl

theorem locked_held {w : World} (hs : Sound w) : w.locked.envLock.held = true := by
  unfold World.locked
  split
  · rename_i hpos
    rw [hs.held, hs.lock.2 hpos]
  · rfl

theorem enterScope_valid {w : World} (hs : Sound w) {vars : List Var}
    (h : ∀ a ∈ vars, validVar a = true) :
    enterScope vars w = .ok w.core.stack.length (w.entered vars) := by
  rw [enterScope, bind_ok (acquireLockIfNeeded_eq hs), modifyCore, bind_ok (modify_apply _ _)]
  refine (bind_ok (applyEnvVars_valid (w := { w.locked with
    core := { w.locked.core with depth := w.locked.core.depth + 1 } }) h (locked_lock hs))).trans ?_
  rw [bind_ok (get_apply _), modifyCore, bind_ok (modify_apply _ _), pure_apply]
  simp only [World.entered, locked_depth, locked_stack, locked_env]

theorem validateEnvKey_cases (key : OsString) (w : World) :
    validateEnvKey key w = .ok () w ∨ ∃ message, validateEnvKey key w = .error (.panic message) w := by
  unfold validateEnvKey
  cases key.isEmpty with
  | true => exact Or.inr ⟨_, bind_error (assertM_false _ w)⟩
  | false =>
    cases containsEquals key with
    | true => exact Or.inr ⟨_, (bind_ok (assertM_true _ w)).trans (assertM_false _ w)⟩
    | false => exact Or.inl ((bind_ok (assertM_true _ w)).trans (assertM_true _ w))

theorem setVar_invalid {key value : OsString} (h : ¬ validVar (key, some value) = true)
    (w : World) : ∃ message, setVar key value w = .error (.panic message) w := by
  refine ⟨"failed to set environment variable", ?_⟩
  have hbad : (key.isEmpty || containsEquals key || key.contains 0 || value.contains 0) = true := by
    by_contra hgood
    exact h (by simpa [validVar, validName, and_assoc] using hgood)
  rw [setVar, if_pos hbad, throw_apply]

theorem removeVar_invalid {key : OsString} (h : ¬ validVar (key, none) = true) (w : World) :
    ∃ message, removeVar key w = .error (.panic message) w := by
  refine ⟨"failed to remove environment variable", ?_⟩
  have hbad : (key.isEmpty || containsEquals key || key.contains 0) = true := by
    by_contra hgood
    exact h (by simpa [validVar, validName, and_assoc] using hgood)
  rw [removeVar, if_pos hbad, throw_apply]

theorem applySingleVar_invalid {key : OsString} {newValue : Option OsString}
    (h : ¬ validVar (key, newValue) = true) (w : World) :
    ∃ message, applySingleVar key newValue w = .error (.panic message) w := by
  unfold applySingleVar
  cases !key.isEmpty && !containsEquals key with
  | false => exact ⟨_, bind_error (assertM_false _ w)⟩
  | true =>
    rw [bind_ok (assertM_true _ w), bind_ok (get_apply w)]
    cases newValue with
    | none =>
      obtain ⟨message, hrun⟩ := removeVar_invalid h w
      exact ⟨message, bind_error hrun⟩
    | some value =>
      obtain ⟨message, hrun⟩ := setVar_invalid h w
      exact ⟨message, bind_error hrun⟩

theorem applyEach_invalid {vars : List Var} (h : ¬ ∀ a ∈ vars, validVar a = true)
    (saved : List Var) (w : World) :
    ∃ message applied, applied <+: vars ∧ (∀ a ∈ applied, validVar a = true) ∧
      applyEach vars saved w =
        .error (.panic message) { w with env := assignAll w.env applied } := by
  induction vars generalizing saved w with
  | nil => exact absurd (fun a ha => absurd ha List.not_mem_nil) h
  | cons a vars ih =>
    obtain ⟨key, newValue⟩ := a
    by_cases ha : validVar (key, newValue) = true
    · have hrest : ¬ ∀ a ∈ vars, validVar a = true := fun hall =>
        h (List.forall_mem_cons.mpr ⟨ha, hall⟩)
      obtain ⟨message, applied, hprefix, hvalid, hrun⟩ :=
        ih hrest (saved ++ [(key, w.env key)]) { w with env := assign w.env (key, newValue) }
      refine ⟨message, (key, newValue) :: applied, (List.cons_prefix_cons).mpr ⟨rfl, hprefix⟩,
        List.forall_mem_cons.mpr ⟨ha, hvalid⟩, ?_⟩
      rw [applyEach, bind_ok (validateEnvKey_valid ha w), bind_ok (applySingleVar_valid ha w), hrun,
        assignAll_cons]
    · suffices hpanic : ∃ message, applyEach ((key, newValue) :: vars) saved w =
          .error (.panic message) w by
        obtain ⟨message, hrun⟩ := hpanic
        exact ⟨message, [], List.nil_prefix, fun b hb => absurd hb List.not_mem_nil, hrun⟩
      rw [applyEach]
      by_cases hkey : validateEnvKey key w = .ok () w
      · obtain ⟨message, hsingle⟩ := applySingleVar_invalid ha w
        exact ⟨message, (bind_ok hkey).trans (bind_error hsingle)⟩
      · obtain ⟨message, hpanic⟩ := (validateEnvKey_cases key w).resolve_left hkey
        exact ⟨message, bind_error hpanic⟩

/-- A call with an invalid entry panics with the lock taken, the depth counted up and the entries
before the invalid one assigned. -/
theorem enterScope_invalid {w : World} (hs : Sound w) {vars : List Var}
    (h : ¬ ∀ a ∈ vars, validVar a = true) :
    ∃ message applied, applied <+: vars ∧ (∀ a ∈ applied, validVar a = true) ∧
      enterScope vars w = .error (.panic message) { w.locked with
        core := { w.locked.core with depth := w.core.depth + 1 }
        env := assignAll w.env applied } := by
  obtain ⟨message, applied, hprefix, hvalid, hrun⟩ := applyEach_invalid h [] { w.locked with
    core := { w.locked.core with depth := w.locked.core.depth + 1 } }
  refine ⟨message, applied, hprefix, hvalid, ?_⟩
  rw [enterScope, bind_ok (acquireLockIfNeeded_eq hs), modifyCore, bind_ok (modify_apply _ _)]
  refine (bind_error (e := .panic message) ?_).trans rfl
  rw [applyEnvVars, bind_ok (get_apply _), locked_lock hs, bind_ok (assertM_true _ _), hrun]
  simp only [locked_depth, locked_env]

end PgEmbeddedSetup.Env
