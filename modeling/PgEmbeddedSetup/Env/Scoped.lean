import PgEmbeddedSetup.Env.Runs

/-!
# `ScopedEnv` guards

A guard holds the index that `enter_scope` returned and passes it to `exit_scope` when it is dropped.
It cannot be copied, so each index is used once (`runActions` removes a guard when it drops it), but
guards may be dropped in any order and between new ones.

`threadState_invariants` is the contract of the thread state, `enterScope_atomic_iff` says for which
lists `enter_scope` is all or nothing.
-/

namespace PgEmbeddedSetup.Env

open Outcome UndoLog

/-- A guard. -/
structure ScopedEnv where
  index : Nat
  changeCount : Nat
  deriving DecidableEq, Repr

def ScopedEnv.applyOs (vars : List Var) : ScopeM ScopedEnv := do
  let index ← enterScope vars
  pure ⟨index, vars.length⟩

def ScopedEnv.drop (guard : ScopedEnv) : ScopeM Unit := exitScope guard.index

/-- What a thread does with guards: it makes one, or drops the one at a position among the live
ones. The flag says whether it is unwinding meanwhile. -/
inductive Action where
  | apply (vars : List Var) (panicking : Bool)
  | drop (position : Nat) (panicking : Bool)
  deriving DecidableEq, Repr

def Action.Valid : Action → Prop
  | .apply vars _ => ∀ a ∈ vars, validVar a = true
  | .drop _ _ => True

def runAction (guards : List ScopedEnv) : Action → ScopeM (List ScopedEnv)
  | .apply vars panicking => do
    modify fun w => { w with panicking := panicking }
    let guard ← ScopedEnv.applyOs vars
    pure (guards ++ [guard])
  | .drop position panicking =>
    match guards[position]? with
    | some guard => do
      modify fun w => { w with panicking := panicking }
      guard.drop
      pure (guards.eraseIdx position)
    | none => pure guards

def runActions : List Action → List ScopedEnv → ScopeM (List ScopedEnv)
  | [], guards => pure guards
  | a :: actions, guards => do
    let guards ← runAction guards a
    runActions actions guards

/-- The live guards are exactly the unfinished entries of the stack. -/
structure GuardsMatch (guards : List ScopedEnv) (stack : List GuardState) : Prop where
  nodup : (guards.map (·.index)).Nodup
  mem_iff : ∀ index, index ∈ guards.map (·.index) ↔
    ∃ g, stack[index]? = some g ∧ g.finished = false

theorem GuardsMatch.length {guards : List ScopedEnv} {stack : List GuardState}
    (h : GuardsMatch guards stack) : guards.length = unfinished stack := by
  have hperm : (guards.map (·.index)).Perm (stack.findIdxs (!·.finished)) := by
    refine (List.perm_ext_iff_of_nodup h.nodup List.nodup_findIdxs).mpr fun index => ?_
    rw [h.mem_iff, List.mem_findIdxs_iff_exists_getElem_pos]
    constructor
    · rintro ⟨g, hg, hfin⟩
      obtain ⟨hlt, rfl⟩ := List.getElem?_eq_some_iff.mp hg
      exact ⟨hlt, by rw [hfin]; rfl⟩
    · rintro ⟨hlt, hfin⟩
      exact ⟨stack[index], List.getElem?_eq_getElem hlt, by simpa using hfin⟩
  have hlength := hperm.length_eq
  rwa [List.length_map, List.length_findIdxs] at hlength

theorem rdropWhile_getElem?_unfinished (stack : List GuardState) (index : Nat) :
    (∃ g, (stack.rdropWhile (·.finished))[index]? = some g ∧ g.finished = false) ↔
      ∃ g, stack[index]? = some g ∧ g.finished = false := by
  have hsplit := List.rdropWhile_append_rtakeWhile (p := (·.finished)) (l := stack)
  constructor
  · rintro ⟨g, hg, hfin⟩
    have hlt := (List.getElem?_eq_some_iff.mp hg).1
    refine ⟨g, ?_, hfin⟩
    rw [← hsplit, List.getElem?_append_left hlt, hg]
  · rintro ⟨g, hg, hfin⟩
    by_cases hlt : index < (stack.rdropWhile (·.finished)).length
    · refine ⟨g, ?_, hfin⟩
      rw [← hsplit, List.getElem?_append_left hlt] at hg
      exact hg
    · rw [← hsplit, List.getElem?_append_right (Nat.le_of_not_lt hlt)] at hg
      have htop := List.mem_rtakeWhile_imp (List.mem_of_getElem? hg)
      simp [hfin] at htop

theorem GuardsMatch.entered {guards : List ScopedEnv} {w : World}
    (h : GuardsMatch guards w.core.stack) (vars : List Var) (changeCount : Nat) :
    GuardsMatch (guards ++ [⟨w.core.stack.length, changeCount⟩]) (w.entered vars).core.stack := by
  have hbelow : ∀ index ∈ guards.map (·.index), index < w.core.stack.length := by
    intro index hindex
    obtain ⟨g, hg, -⟩ := (h.mem_iff index).1 hindex
    exact (List.getElem?_eq_some_iff.mp hg).1
  refine ⟨?_, fun index => ?_⟩
  · rw [List.map_append, List.map_singleton, List.nodup_append]
    refine ⟨h.nodup, List.nodup_singleton _, fun a ha b hb => ?_⟩
    have := hbelow a ha
    rw [List.mem_singleton] at hb
    simp only at hb
    omega
  · rw [List.map_append, List.mem_append, h.mem_iff]
    show _ ↔ ∃ g, (w.core.stack ++ [⟨undoLog w.env vars, false⟩])[index]? = some g ∧ _
    rcases lt_trichotomy index w.core.stack.length with hlt | heq | hgt
    · rw [List.getElem?_append_left hlt]
      constructor
      · rintro (hold | hnew)
        · exact hold
        · simp only [List.map_singleton, List.mem_singleton] at hnew
          omega
      · exact Or.inl
    · subst heq
      simp
    · simp only [List.map_singleton, List.mem_singleton]
      rw [List.getElem?_eq_none (by omega), List.getElem?_eq_none (by simp; omega)]
      constructor
      · rintro (⟨g, hg, -⟩ | hnew)
        · cases hg
        · omega
      · rintro ⟨g, hg, -⟩
        cases hg

theorem mem_eraseIdx_of_nodup {l : List Nat} (h : l.Nodup) {k a : Nat} (hk : l[k]? = some a)
    (x : Nat) : x ∈ l.eraseIdx k ↔ x ≠ a ∧ x ∈ l := by
  induction l generalizing k with
  | nil => cases hk
  | cons b l ih =>
    obtain ⟨hb, hl⟩ := List.nodup_cons.mp h
    cases k with
    | zero =>
      obtain rfl : b = a := by simpa using hk
      rw [List.eraseIdx_zero, List.tail_cons, List.mem_cons]
      constructor
      · intro hx
        exact ⟨fun heq => hb (heq ▸ hx), Or.inr hx⟩
      · rintro ⟨hne, heq | hx⟩
        · exact absurd heq hne
        · exact hx
    | succ k =>
      have hk' : l[k]? = some a := by simpa using hk
      rw [List.eraseIdx_cons_succ, List.mem_cons, List.mem_cons, ih hl hk']
      constructor
      · rintro (rfl | ⟨hne, hx⟩)
        · exact ⟨fun heq => hb (heq ▸ List.mem_of_getElem? hk'), Or.inl rfl⟩
        · exact ⟨hne, Or.inr hx⟩
      · rintro ⟨hne, rfl | hx⟩
        · exact Or.inl rfl
        · exact Or.inr ⟨hne, hx⟩

theorem GuardsMatch.finish {guards : List ScopedEnv} {w : World}
    (h : GuardsMatch guards w.core.stack) {position : Nat} {guard : ScopedEnv}
    (hguard : guards[position]? = some guard) {g : GuardState}
    (hget : w.core.stack[guard.index]? = some g) :
    GuardsMatch (guards.eraseIdx position) (w.finish guard.index g).core.stack := by
  have hstack : (w.finish guard.index g).core.stack =
      (w.core.stack.set guard.index { g with finished := true }).rdropWhile (·.finished) := by
    unfold World.finish
    simp only
    split
    · rw [released_stack]
    · rfl
  have hindex : (guards.map (·.index))[position]? = some guard.index := by
    rw [List.getElem?_map, hguard]
    rfl
  have hmap : (guards.eraseIdx position).map (·.index) = (guards.map (·.index)).eraseIdx position :=
    (List.eraseIdx_map ..).symm
  refine ⟨?_, fun index => ?_⟩
  · rw [hmap]
    exact h.nodup.eraseIdx position
  · rw [hmap, hstack, rdropWhile_getElem?_unfinished, List.getElem?_set]
    rw [mem_eraseIdx_of_nodup h.nodup hindex, h.mem_iff]
    by_cases heq : guard.index = index
    · subst heq
      have hlt := (List.getElem?_eq_some_iff.mp hget).1
      simp [hlt]
    · simp [heq, Ne.symm heq]

@[simp] theorem finish_corruptions (w : World) (index : Nat) (g : GuardState) :
    (w.finish index g).corruptions = w.corruptions := by
  unfold World.finish
  simp only
  split
  · rw [released_corruptions]
  · rfl

/-- What holds between the actions of a thread that uses the state through guards only. -/
structure Guarded (base : OsString → Option OsString) (guards : List ScopedEnv) (w : World) :
    Prop where
  sound : Sound w
  refines : ∃ l, Refines base l w
  guards_match : GuardsMatch guards w.core.stack
  clean : w.corruptions = []

theorem guarded_init (env₀ : ProcessEnvironment) (poisoned : Bool) :
    Guarded env₀.var [] (World.init env₀ poisoned) :=
  ⟨sound_init env₀ poisoned, ⟨[], refines_init env₀ poisoned⟩,
    ⟨List.nodup_nil, fun index => by simp [World.init, ThreadStateCore.new]⟩, rfl⟩

theorem drop_valid {base : OsString → Option OsString} {l : Ledger} {guards : List ScopedEnv}
    {w : World} (hs : Sound w) (href : Refines base l w) (hmatch : GuardsMatch guards w.core.stack)
    {position : Nat} {guard : ScopedEnv} (hguard : guards[position]? = some guard) :
    ∃ w', guard.drop w = .ok () w' ∧ Sound w' ∧ Refines base (l.exit guard.index) w' ∧
      GuardsMatch (guards.eraseIdx position) w'.core.stack ∧ w'.corruptions = w.corruptions := by
  have hlive : guard.index ∈ guards.map (·.index) :=
    List.mem_map.mpr ⟨guard, List.mem_of_getElem? hguard, rfl⟩
  obtain ⟨g, hget, hfin⟩ := (hmatch.mem_iff guard.index).1 hlive
  obtain ⟨s, hls, hsfin⟩ := Option.map_eq_some_iff.mp (href.finished_eq hget)
  obtain ⟨g', hget', -, hrefines⟩ := href.finish hls (hsfin.trans hfin)
  obtain rfl : g = g' := Option.some.inj (hget.symm.trans hget')
  refine ⟨_, exitScope_finish hs hget hfin, hs.finish hget hfin, ?_,
    hmatch.finish hguard hget, finish_corruptions ..⟩
  simpa only [Ledger.exit, hls, hsfin.trans hfin, Bool.false_eq_true, if_false] using hrefines

theorem runAction_valid {base : OsString → Option OsString} {guards : List ScopedEnv} {w : World}
    (h : Guarded base guards w) {a : Action} (hvalid : a.Valid) :
    ∃ guards' w', runAction guards a w = .ok guards' w' ∧ Guarded base guards' w' := by
  obtain ⟨hs, ⟨l, href⟩, hmatch, hclean⟩ := h
  cases a with
  | apply vars panicking =>
    have hs' := sound_panicking hs panicking
    have href' := refines_panicking href panicking
    have hmatch' := GuardsMatch.entered (w := { w with panicking := panicking }) hmatch vars
      vars.length
    refine ⟨_, _, ?_, hs'.entered hvalid, ⟨_, href'.entered hs' hvalid⟩, hmatch', ?_⟩
    · rw [runAction, bind_ok (modify_apply _ w)]
      exact bind_ok (bind_ok (enterScope_valid hs' hvalid))
    · show World.corruptions (World.locked _) = []
      rw [locked_corruptions]
      exact hclean
  | drop position panicking =>
    cases hguard : guards[position]? with
    | none => exact ⟨guards, w, by rw [runAction, hguard]; rfl, hs, ⟨l, href⟩, hmatch, hclean⟩
    | some guard =>
      have hs' := sound_panicking hs panicking
      have href' := refines_panicking href panicking
      obtain ⟨w', hdrop, hs'', href'', hmatch', hcorruptions⟩ := drop_valid hs' href' hmatch hguard
      refine ⟨guards.eraseIdx position, w', ?_, hs'', ⟨_, href''⟩, hmatch', hcorruptions.trans hclean⟩
      rw [runAction, hguard]
      exact (bind_ok (modify_apply _ w)).trans (bind_ok hdrop)

theorem runActions_valid {base : OsString → Option OsString} {guards : List ScopedEnv} {w : World}
    (h : Guarded base guards w) {actions : List Action} (hvalid : ∀ a ∈ actions, a.Valid) :
    ∃ guards' w', runActions actions guards w = .ok guards' w' ∧ Guarded base guards' w' := by
  induction actions generalizing guards w with
  | nil => exact ⟨guards, w, rfl, h⟩
  | cons a actions ih =>
    obtain ⟨guards₁, w₁, hrun, h₁⟩ := runAction_valid h (hvalid a List.mem_cons_self)
    obtain ⟨guards₂, w₂, hrun₂, h₂⟩ := ih h₁ fun b hb => hvalid b (List.mem_cons_of_mem _ hb)
    exact ⟨guards₂, w₂, (bind_ok hrun).trans hrun₂, h₂⟩

theorem Guarded.released {base : OsString → Option OsString} {w : World}
    (h : Guarded base [] w) : w.core.lock = none ∧ w.envLock.held = false ∧ w.env = base := by
  obtain ⟨hs, ⟨l, href⟩, hmatch, -⟩ := h
  have hnone : unfinished w.core.stack = 0 := by
    rw [unfinished, List.countP_eq_zero]
    intro g hg
    obtain ⟨index, hindex⟩ := List.mem_iff_getElem?.mp hg
    have := (hmatch.mem_iff index).not.1 List.not_mem_nil
    simpa using fun hfin => this ⟨g, hindex, hfin⟩
  have hdepth : w.core.depth = 0 := by
    rw [href.depth, ← l.unfinished_entries base, ← href.stack, hnone]
  have hlock := hs.lock_none hdepth
  have hnil := href.nil_of_depth hs hdepth
  refine ⟨hlock, by rw [hs.held, hlock]; rfl, ?_⟩
  rw [href.env, hnil]
  rfl

/-! ### The contract -/

/-- **The contract of the thread state.** In every run of calls with valid lists and any indices no
assertion fires, the depth counts the unfinished entries, the top entry is unfinished, the lock is
held exactly while the depth is positive, and the environment is the one at the time of locking
under the assignments of all entries on the stack. Guards reach no recovery branch. -/
theorem threadState_invariants (env₀ : ProcessEnvironment) (poisoned : Bool) :
    (∀ calls : List Call, (∀ c ∈ calls, c.op.Valid) →
      ∃ w, runCalls calls (World.init env₀ poisoned) = .ok () w ∧
        w.core.depth = unfinished w.core.stack ∧ TopUnfinished w.core.stack ∧
        (w.core.lock.isSome = true ↔ 0 < w.core.depth) ∧ w.envLock.held = w.core.lock.isSome ∧
        w.core.stack.map (·.finished) = (ledgerOf calls).map (·.finished) ∧
        savedOf w.core.stack = logs env₀.var ((ledgerOf calls).map (·.vars)) ∧
        (∀ guard, w.core.lock = some guard →
          w.env = assignAll guard.acquiredEnv (ledgerOf calls).assignments) ∧
        w.env = assignAll env₀.var (ledgerOf calls).assignments ∧
        (w.core.depth = 0 → w.core.stack = [] ∧ w.env = env₀.var)) ∧
    (∀ actions : List Action, (∀ a ∈ actions, a.Valid) →
      ∃ guards w, runActions actions [] (World.init env₀ poisoned) = .ok guards w ∧
        w.corruptions = []) := by
  refine ⟨fun calls hvalid => ?_, fun actions hvalid => ?_⟩
  · obtain ⟨w, hrun, hs, href⟩ :=
      runCalls_valid (sound_init env₀ poisoned) (refines_init env₀ poisoned) hvalid
    have hcount : w.core.depth = unfinished w.core.stack := by
      rw [href.depth, href.stack, Ledger.unfinished_entries]
    refine ⟨w, hrun, hcount, hs.top, hs.lock, hs.held, ?_, ?_, ?_, href.env, fun hzero => ?_⟩
    · rw [href.stack, Ledger.finished_entries]
      rfl
    · rw [href.stack, Ledger.savedOf_entries]
      rfl
    · intro guard hguard
      rw [href.acquired guard hguard, href.env]
      rfl
    · have hnil := href.nil_of_depth hs hzero
      refine ⟨hs.stack_nil hzero, ?_⟩
      rw [href.env, hnil]
      rfl
  · obtain ⟨guards, w, hrun, h⟩ := runActions_valid (guarded_init env₀ poisoned) hvalid
    exact ⟨guards, w, hrun, h.clean⟩

/-- Two live guards over one name, dropped in the order they were made: the environment, the lock and
the log are as before. -/
theorem threadState_invariants_nested :
    ∃ env₀ : ProcessEnvironment, ∃ w, runCalls
        [⟨.enter [([65], some [49])], false⟩, ⟨.enter [([65], none), ([66], some [50])], false⟩,
          ⟨.exit 0, false⟩] (World.init env₀ false) = .ok () w ∧
      w.core.depth = unfinished w.core.stack := by
  have hvalid : ∀ c ∈ ([⟨.enter [([65], some [49])], false⟩,
      ⟨.enter [([65], none), ([66], some [50])], false⟩, ⟨.exit 0, false⟩] : List Call),
      c.op.Valid := by
    simp only [List.forall_mem_cons, List.not_mem_nil, false_implies, implies_true, and_true,
      Op.Valid]
    decide
  obtain ⟨w, hrun, hdepth, -⟩ :=
    (threadState_invariants ⟨fun _ => none, fun _ _ h => nomatch h⟩ false).1 _ hvalid
  exact ⟨_, w, hrun, hdepth⟩

/-! ### Lists with an invalid entry -/

/-- The state a call leaves, also when it panics and the panic is caught. -/
def Call.after (c : Call) (w : World) : World :=
  match c.run w with
  | .ok _ w' => w'
  | .error _ w' => w'

/-- The states any calls can lead to. -/
inductive Reachable : World → Prop where
  | init (env₀ : ProcessEnvironment) (poisoned : Bool) : Reachable (World.init env₀ poisoned)
  | call {w : World} (h : Reachable w) (c : Call) : Reachable (c.after w)

theorem exitScope_sound {w : World} (hs : Sound w) (index : Nat) :
    ∃ w', exitScope index w = .ok () w' ∧ Sound w' := by
  by_cases hzero : w.core.depth = 0
  · exact ⟨_, exitScope_zero hs hzero index, hs.logged _ _⟩
  · by_cases hlive : ∃ g, w.core.stack[index]? = some g ∧ g.finished = false
    · obtain ⟨g, hget, hfin⟩ := hlive
      exact ⟨_, exitScope_finish hs hget hfin, hs.finish hget hfin⟩
    · obtain ⟨reason, hrun⟩ := exitScope_recover hs (Nat.pos_of_ne_zero hzero) index
        fun g hget => by simpa using fun hfin => hlive ⟨g, hget, hfin⟩
      exact ⟨_, hrun, hs.recover _ _⟩

theorem sound_after {w : World} (hs : Sound w) (c : Call) : Sound (c.after w) := by
  have hs' := sound_panicking hs c.panicking
  unfold Call.after
  rw [Call.run, bind_ok (modify_apply _ w)]
  cases c.op with
  | enter vars =>
    by_cases hvalid : ∀ a ∈ vars, validVar a = true
    · simp only [bind_ok (enterScope_valid hs' hvalid)]
      exact hs'.entered hvalid
    · obtain ⟨message, applied, -, happlied, hrun⟩ := enterScope_invalid hs' hvalid
      simp only [bind_error hrun]
      exact hs'.interrupted happlied
  | exit index =>
    obtain ⟨w', hrun, hs''⟩ := exitScope_sound hs' index
    simp only [hrun]
    exact hs''

theorem Reachable.sound {w : World} (h : Reachable w) : Sound w := by
  induction h with
  | init env₀ poisoned => exact sound_init env₀ poisoned
  | call _ c ih => exact sound_after ih c

/-- `enter_scope` applies the whole list and pushes one entry, or panics and changes nothing. -/
def EnterAtomic (w : World) (vars : List Var) : Prop :=
  Ends (enterScope vars) w
    (fun index w' => index = w.core.stack.length ∧ w'.env = assignAll w.env vars ∧
      w'.core.depth = w.core.depth + 1 ∧
      w'.core.stack = w.core.stack ++ [⟨undoLog w.env vars, false⟩])
    (fun stop w' => (∃ message, stop = .panic message) ∧ w'.env = w.env ∧
      w'.core.depth = w.core.depth ∧ w'.core.stack = w.core.stack ∧
      w'.core.lock = w.core.lock ∧ w'.envLock.held = w.envLock.held)

/-- **All or nothing, exactly for valid lists.** In every reachable state `enter_scope` is atomic if
and only if every pair of the list is valid. While only valid lists are used, dropping the last guard
frees the lock and gives the environment back. -/
theorem enterScope_atomic_iff {w : World} (hw : Reachable w) (vars : List Var) :
    (EnterAtomic w vars ↔ ∀ a ∈ vars, validVar a = true) ∧
    (∀ env₀ poisoned, ∀ actions : List Action, (∀ a ∈ actions, a.Valid) →
      ∃ guards w, runActions actions [] (World.init env₀ poisoned) = .ok guards w ∧
        (guards = [] → w.core.lock = none ∧ w.envLock.held = false ∧ w.env = env₀.var)) := by
  refine ⟨⟨fun h => ?_, fun hvalid => ?_⟩, fun env₀ poisoned actions hvalid => ?_⟩
  · by_contra hbad
    obtain ⟨message, applied, -, -, hrun⟩ := enterScope_invalid hw.sound hbad
    rw [EnterAtomic, ends_of_error hrun] at h
    have hdepth : w.core.depth + 1 = w.core.depth := h.2.2.1
    omega
  · rw [EnterAtomic, ends_of_ok (enterScope_valid hw.sound hvalid)]
    exact ⟨rfl, rfl, rfl, rfl⟩
  · obtain ⟨guards, w, hrun, h⟩ := runActions_valid (guarded_init env₀ poisoned) hvalid
    refine ⟨guards, w, hrun, fun hnil => ?_⟩
    subst hnil
    exact h.released

/-- A scope has been entered that sets `A` and `B`. -/
def inScope : World :=
  (Call.mk (.enter [([65], some [49]), ([66], some [50])]) false).after
    (World.init ⟨fun _ => none, fun _ _ h => nomatch h⟩ false)

/-- Inside that scope a list is applied as a whole that sets a variable twice and removes another. -/
theorem enterScope_atomic_inScope :
    inScope.core.depth = 1 ∧ inScope.env [66] = some [50] ∧
      EnterAtomic inScope [([65], some [51]), ([66], none), ([65], some [])] :=
  ⟨rfl, rfl, (enterScope_atomic_iff (.call (.init _ _) _) _).1.2 (by decide)⟩

/-- `A=1` followed by an empty name: the call panics with `A` set, the depth at one and the lock
held, and a scope entered and dropped later does not free the lock. -/
theorem enterScope_not_atomic :
    ∃ env₀ : ProcessEnvironment, ∃ vars : List Var,
      Reachable (World.init env₀ false) ∧ ¬ EnterAtomic (World.init env₀ false) vars ∧
      ∃ w, w = (Call.mk (.enter vars) false).after (World.init env₀ false) ∧
        w.env [65] = some [49] ∧ w.core.depth = 1 ∧ w.core.stack = [] ∧ w.envLock.held = true ∧
        ((Call.mk (.exit 0) false).after ((Call.mk (.enter []) false).after w)).envLock.held =
          true := by
  refine ⟨⟨fun _ => none, fun _ _ h => nomatch h⟩, [([65], some [49]), ([], some [120])],
    Reachable.init _ _, fun h => ?_, _, rfl, rfl, rfl, rfl, rfl, rfl⟩
  have hdepth : (1 : Nat) = 0 := h.2.2.1
  omega

end PgEmbeddedSetup.Env
