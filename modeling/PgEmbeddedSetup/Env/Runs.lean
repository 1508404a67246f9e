import PgEmbeddedSetup.Env.Ledger

/-!
# Runs of calls on one thread state

`runCalls` makes any sequence of `enter_scope` and `exit_scope` calls, with any indices;
`runActions` makes those that `ScopedEnv` guards make, each dropped at most once. Calls with valid
lists never stop, keep `Sound`, and carry out the ledger (`runCalls_valid`); guards in addition never
reach a recovery branch, because the live guards are exactly the unfinished entries (`GuardsMatch`).

A call with an invalid entry panics and leaves its work half done (`enterScope_atomic_iff`). Sound
states are kept even then, which is why the other calls go on working, but the depth counted up is
never counted down again.
-/

namespace PgEmbeddedSetup.Env

open Outcome UndoLog

/-! ### Soundness is kept -/

theorem sound_released {w : World} (hheld : w.envLock.held = w.core.lock.isSome)
    (hdepth : w.core.depth = 0) (hstack : w.core.stack = []) (henv : NoNul w.env) :
    Sound w.released := by
  refine ⟨?_, ?_, ?_, ?_, ?_, ?_⟩
  · simp [hdepth]
  · rw [released_held hheld, released_lock]
    rfl
  · rw [released_stack, hstack]
    exact fun g hg => absurd hg List.not_mem_nil
  · rw [released_env]
    exact henv
  · rw [released_stack, hstack]
    exact Nat.zero_le _
  · rw [released_stack, hstack]
    exact topUnfinished_nil

section
variable {w : World}

theorem Sound.entered (hs : Sound w) {vars : List Var} (hvars : ∀ a ∈ vars, validVar a = true) :
    Sound (w.entered vars) := by
  refine ⟨?_, ?_, ?_, noNul_assignAll hs.env hvars, ?_, ?_⟩
  · exact ⟨fun _ => Nat.succ_pos _, fun _ => locked_lock hs⟩
  · show w.locked.envLock.held = w.locked.core.lock.isSome
    rw [locked_held hs, locked_lock hs]
  · intro g hg a ha
    rcases List.mem_append.mp hg with hmem | hmem
    · exact hs.saved g hmem a ha
    · obtain rfl := List.mem_singleton.mp hmem
      exact validVar_undoLog hs.env hvars a ha
  · show unfinished (w.core.stack ++ [_]) ≤ w.core.depth + 1
    have := hs.unfinished_le
    simp only [unfinished, List.countP_append, List.countP_singleton, Bool.not_false, if_true] at *
    omega
  · intro g hg
    obtain rfl : (⟨undoLog w.env vars, false⟩ : GuardState) = g := by
      simpa [World.entered] using hg
    rfl

theorem Sound.interrupted (hs : Sound w) {applied : List Var}
    (happlied : ∀ a ∈ applied, validVar a = true) :
    Sound { w.locked with
      core := { w.locked.core with depth := w.core.depth + 1 }
      env := assignAll w.env applied } := by
  refine ⟨?_, ?_, ?_, noNul_assignAll hs.env happlied, ?_, ?_⟩
  · exact ⟨fun _ => Nat.succ_pos _, fun _ => locked_lock hs⟩
  · show w.locked.envLock.held = w.locked.core.lock.isSome
    rw [locked_held hs, locked_lock hs]
  · exact (locked_stack w).symm ▸ hs.saved
  · show unfinished w.locked.core.stack ≤ w.core.depth + 1
    rw [locked_stack]
    exact Nat.le_succ_of_le hs.unfinished_le
  · exact (locked_stack w).symm ▸ hs.top

theorem Sound.logged (hs : Sound w) (reason : String) (index : Option Nat) :
    Sound (w.logged reason index) :=
  ⟨hs.lock, hs.held, hs.saved, hs.env, hs.unfinished_le, hs.top⟩

theorem Sound.recover (hs : Sound w) (reason : String) (index : Nat) :
    Sound (w.recover reason index) :=
  sound_released hs.held rfl rfl (noNul_undoStack hs.env hs.saved)

theorem Sound.finish (hs : Sound w) {index : Nat} {g : GuardState}
    (hget : w.core.stack[index]? = some g) (hfin : g.finished = false) :
    Sound (w.finish index g) := by
  have hsaved := hs.saved.set hget true
  have hsplit := List.rdropWhile_append_rtakeWhile (p := (·.finished))
    (l := w.core.stack.set index { g with finished := true })
  have hcount := unfinished_set hget hfin
  have hle := hs.unfinished_le
  have hrest : unfinished ((w.core.stack.set index { g with finished := true }).rdropWhile
      (·.finished)) ≤ w.core.depth - 1 := by
    rw [unfinished_rdropWhile]
    omega
  have henv : NoNul (undoStack w.env (savedOf
      ((w.core.stack.set index { g with finished := true }).rtakeWhile (·.finished)))) :=
    noNul_undoStack hs.env fun g' hg' => hsaved g' (hsplit ▸ List.mem_append_right _ hg')
  unfold World.finish
  simp only
  split
  · rename_i hzero
    exact sound_released hs.held hzero
      ((topUnfinished_rdropWhile _).eq_nil (Nat.le_zero.mp (hzero ▸ hrest))) henv
  · rename_i hne
    refine ⟨?_, hs.held, fun g' hg' => hsaved g' (hsplit ▸ List.mem_append_left _ hg'), henv, hrest,
      topUnfinished_rdropWhile _⟩
    show w.core.lock.isSome = true ↔ 0 < w.core.depth - 1
    rw [hs.lock]
    omega

end

/-! ### Calls -/

inductive Op where
  | enter (vars : List Var)
  | exit (index : Nat)
  deriving DecidableEq, Repr

/-- A call, made by a thread that may be unwinding from a panic. -/
structure Call where
  op : Op
  panicking : Bool
  deriving DecidableEq, Repr

def Call.run (c : Call) : ScopeM Unit := do
  modify fun w => { w with panicking := c.panicking }
  match c.op with
  | .enter vars => let _ ← enterScope vars
  | .exit index => exitScope index

def runCalls : List Call → ScopeM Unit
  | [] => pure ()
  | c :: calls => do
    c.run
    runCalls calls

def World.init (env₀ : ProcessEnvironment) (poisoned : Bool) : World :=
  ⟨ThreadStateCore.new, env₀.var, ⟨false, poisoned⟩, false, []⟩

def Op.Valid : Op → Prop
  | .enter vars => ∀ a ∈ vars, validVar a = true
  | .exit _ => True

def Ledger.after (l : Ledger) : Op → Ledger
  | .enter vars => l.enter vars
  | .exit index => l.exit index

/-- The ledger of a run of calls. -/
def ledgerOf (calls : List Call) : Ledger :=
  calls.foldl (fun l c => l.after c.op) []

theorem sound_init (env₀ : ProcessEnvironment) (poisoned : Bool) :
    Sound (World.init env₀ poisoned) :=
  ⟨by simp [World.init, ThreadStateCore.new], rfl, fun g hg => absurd hg List.not_mem_nil,
    env₀.noNul, Nat.le_refl _, topUnfinished_nil⟩

theorem refines_init (env₀ : ProcessEnvironment) (poisoned : Bool) :
    Refines env₀.var [] (World.init env₀ poisoned) :=
  refines_nil rfl rfl rfl rfl

theorem sound_panicking {w : World} (hs : Sound w) (panicking : Bool) :
    Sound { w with panicking := panicking } :=
  ⟨hs.lock, hs.held, hs.saved, hs.env, hs.unfinished_le, hs.top⟩

theorem refines_panicking {base : OsString → Option OsString} {l : Ledger} {w : World}
    (h : Refines base l w) (panicking : Bool) :
    Refines base l { w with panicking := panicking } :=
  ⟨h.stack, h.env, h.depth, h.acquired, h.valid⟩

/-- One valid call: it does not stop, keeps the state sound and takes the ledger one step on. -/
theorem call_valid {base : OsString → Option OsString} {l : Ledger} {w : World} (hs : Sound w)
    (h : Refines base l w) {c : Call} (hvalid : c.op.Valid) :
    ∃ w', c.run w = .ok () w' ∧ Sound w' ∧ Refines base (l.after c.op) w' := by
  have hs' := sound_panicking hs c.panicking
  have h' := refines_panicking h c.panicking
  rw [Call.run, bind_ok (modify_apply _ w)]
  cases hop : c.op with
  | enter vars =>
    rw [hop] at hvalid
    exact ⟨_, bind_ok (enterScope_valid hs' hvalid), hs'.entered hvalid, h'.entered hs' hvalid⟩
  | exit index =>
    by_cases hzero : w.core.depth = 0
    · have hnil : l = [] := h'.nil_of_depth hs' hzero
      subst hnil
      exact ⟨_, exitScope_zero hs' hzero index, hs'.logged _ _,
        refines_nil h'.stack h'.depth (hs'.lock_none hzero) h'.env⟩
    · cases hget : l[index]? with
      | some s =>
        cases hfin : s.finished with
        | false =>
          obtain ⟨g, hg, hgfin, href⟩ := h'.finish hget hfin
          refine ⟨_, exitScope_finish hs' hg hgfin, hs'.finish hg hgfin, ?_⟩
          simpa only [Ledger.after, Ledger.exit, hget, hfin, Bool.false_eq_true, if_false] using href
        | true =>
          obtain ⟨reason, hrun⟩ := exitScope_recover hs' (Nat.pos_of_ne_zero hzero) index
            (fun g hg => by simpa [hget, hfin] using h'.finished_eq hg)
          refine ⟨_, hrun, hs'.recover _ _, ?_⟩
          simpa only [Ledger.after, Ledger.exit, hget, hfin, if_true] using h'.recover reason index
      | none =>
        obtain ⟨reason, hrun⟩ := exitScope_recover hs' (Nat.pos_of_ne_zero hzero) index
          (fun g hg => by simpa [hget] using h'.finished_eq hg)
        refine ⟨_, hrun, hs'.recover _ _, ?_⟩
        simpa only [Ledger.after, Ledger.exit, hget] using h'.recover reason index

/-- A run of valid calls does not stop, keeps the state sound and carries out the ledger. -/
theorem runCalls_valid {base : OsString → Option OsString} {l : Ledger} {w : World} (hs : Sound w)
    (h : Refines base l w) {calls : List Call} (hvalid : ∀ c ∈ calls, c.op.Valid) :
    ∃ w', runCalls calls w = .ok () w' ∧ Sound w' ∧
      Refines base (calls.foldl (fun l c => l.after c.op) l) w' := by
  induction calls generalizing l w with
  | nil => exact ⟨w, rfl, hs, h⟩
  | cons c calls ih =>
    obtain ⟨w₁, hrun, hs₁, h₁⟩ := call_valid hs h (hvalid c List.mem_cons_self)
    obtain ⟨w₂, hrun₂, hs₂, h₂⟩ := ih hs₁ h₁ fun c' hc' => hvalid c' (List.mem_cons_of_mem _ hc')
    exact ⟨w₂, (bind_ok hrun).trans hrun₂, hs₂, h₂⟩

end PgEmbeddedSetup.Env
