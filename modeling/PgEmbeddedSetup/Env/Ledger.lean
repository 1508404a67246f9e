import PgEmbeddedSetup.Env.Spec

/-!
# The ledger of scopes

What `ThreadStateCore` is for, without saved values, depth or lock: a list of scopes, each with its
assignments, in which a finished scope stays for as long as an unfinished one lies above it. The
environment is the base one under the assignments of every scope in the list (`Ledger.env`).

`Refines base l w` says that the thread state `w` carries out the ledger `l` over the environment
`base`. Every call keeps it (`Refines.entered`, `Refines.exit`): the saved values are exactly the undo
logs of the scopes, so popping entries gives the environment of the shorter ledger, in whatever order
the scopes were finished.
-/

namespace PgEmbeddedSetup.Env

open Outcome UndoLog

structure Scope where
  vars : List Var
  finished : Bool
  deriving DecidableEq, Repr

abbrev Ledger := List Scope

namespace Ledger

def enter (l : Ledger) (vars : List Var) : Ledger := l ++ [⟨vars, false⟩]

/-- Finishing a scope removes the finished scopes on top; a call that names no unfinished scope
removes all. -/
def exit (l : Ledger) (index : Nat) : Ledger :=
  match l[index]? with
  | some s =>
    if s.finished then [] else (l.set index { s with finished := true }).rdropWhile (·.finished)
  | none => []

/-- The assignments of all scopes, in the order they were made. -/
def assignments (l : Ledger) : List Var := (l.map (·.vars)).flatten

def env (base : OsString → Option OsString) (l : Ledger) : OsString → Option OsString :=
  assignAll base l.assignments

def unfinished (l : Ledger) : Nat := l.countP (!·.finished)

/-- The stack entries of the scopes. -/
def entries (base : OsString → Option OsString) : Ledger → List GuardState
  | [] => []
  | s :: l => ⟨undoLog base s.vars, s.finished⟩ :: entries (assignAll base s.vars) l

variable (base : OsString → Option OsString) (l : Ledger)

theorem savedOf_entries : savedOf (l.entries base) = logs base (l.map (·.vars)) := by
  induction l generalizing base with
  | nil => rfl
  | cons s l ih => simp [entries, logs, ih]

theorem finished_entries : (l.entries base).map (·.finished) = l.map (·.finished) := by
  induction l generalizing base with
  | nil => rfl
  | cons s l ih => simp [entries, ih]

theorem length_entries : (l.entries base).length = l.length := by
  have hlength := congrArg List.length (finished_entries base l)
  rwa [List.length_map, List.length_map] at hlength

theorem entries_append (l' : Ledger) :
    (l ++ l').entries base = l.entries base ++ Ledger.entries (l.env base) l' := by
  induction l generalizing base with
  | nil => rfl
  | cons s l ih =>
    simp only [List.cons_append, entries, ih, env, assignments, List.map_cons, List.flatten_cons,
      assignAll_append]

theorem entries_getElem? (index : Nat) :
    ((l.entries base)[index]?).map (·.finished) = l[index]?.map (·.finished) := by
  rw [← List.getElem?_map, ← List.getElem?_map, finished_entries]

theorem entries_set {s : Scope} {index : Nat} (hget : l[index]? = some s) (finished : Bool) :
    ∃ g, (l.entries base)[index]? = some g ∧
      (l.entries base).set index { g with finished := finished } =
        Ledger.entries base (l.set index { s with finished := finished }) := by
  induction l generalizing base index with
  | nil => cases hget
  | cons s' l ih =>
    cases index with
    | zero =>
      obtain rfl : s' = s := by simpa using hget
      exact ⟨_, rfl, rfl⟩
    | succ index =>
      obtain ⟨g, hg, hset⟩ := ih (assignAll base s'.vars) (by simpa using hget)
      refine ⟨g, by simpa [entries] using hg, ?_⟩
      simp only [entries, List.set_cons_succ, hset]

theorem entries_rdropWhile :
    (l.entries base).rdropWhile (·.finished) = Ledger.entries base (l.rdropWhile (·.finished)) := by
  induction l using List.reverseRecOn with
  | nil => rfl
  | append_singleton l s ih =>
    rw [entries_append]
    by_cases hfin : s.finished = true
    · rw [List.rdropWhile_concat_pos _ _ s hfin, ← ih]
      exact List.rdropWhile_concat_pos _ _ _ hfin
    · rw [List.rdropWhile_concat_neg _ _ s hfin, entries_append]
      exact List.rdropWhile_concat_neg _ _ _ hfin

/-- Undoing the finished entries on top gives the environment of the ledger without them. -/
theorem undoStack_rtakeWhile :
    undoStack (l.env base) (savedOf ((l.entries base).rtakeWhile (·.finished))) =
      Ledger.env base (l.rdropWhile (·.finished)) := by
  have hsplit := List.rdropWhile_append_rtakeWhile (p := (·.finished)) (l := l)
  have htaken : (l.entries base).rtakeWhile (·.finished) =
      Ledger.entries (Ledger.env base (l.rdropWhile (·.finished)))
        (l.rtakeWhile (·.finished)) := by
    have hentries := List.rdropWhile_append_rtakeWhile (p := (·.finished)) (l := l.entries base)
    rw [entries_rdropWhile] at hentries
    have hwhole := entries_append base (l.rdropWhile (·.finished)) (l.rtakeWhile (·.finished))
    rw [hsplit] at hwhole
    exact List.append_cancel_left (hentries.trans hwhole)
  have henv : l.env base = assignAll base ((l.rdropWhile (·.finished)).map (·.vars) ++
      (l.rtakeWhile (·.finished)).map (·.vars)).flatten := by
    rw [← List.map_append, hsplit, env, assignments]
  rw [htaken, savedOf_entries, henv]
  exact undoStack_logs base ((l.rdropWhile (·.finished)).map (·.vars))
    ((l.rtakeWhile (·.finished)).map (·.vars))

theorem undoStack_entries : undoStack (l.env base) (savedOf (l.entries base)) = base := by
  rw [savedOf_entries]
  have hlogs := undoStack_logs base [] (l.map (·.vars))
  simpa only [env, assignments, List.nil_append, List.flatten_nil, assignAll_nil] using hlogs

theorem unfinished_entries : Env.unfinished (l.entries base) = l.unfinished := by
  have hmap := congrArg (List.countP (!·)) (finished_entries base l)
  rw [List.countP_map, List.countP_map] at hmap
  exact hmap

theorem assignments_set {s : Scope} {index : Nat} (hget : l[index]? = some s) (finished : Bool) :
    Ledger.assignments (l.set index { s with finished := finished }) = l.assignments := by
  have hmap : (l.set index { s with finished := finished }).map (·.vars) = l.map (·.vars) := by
    apply List.ext_getElem?
    intro i
    rw [List.getElem?_map, List.getElem?_map, List.getElem?_set]
    split
    · rename_i hi
      subst hi
      obtain ⟨hlt, -⟩ := List.getElem?_eq_some_iff.mp hget
      rw [if_pos hlt, hget]
      rfl
    · rfl
  rw [assignments, hmap, assignments]

theorem unfinished_set {s : Scope} {index : Nat} (hget : l[index]? = some s)
    (hfin : s.finished = false) :
    Ledger.unfinished (l.set index { s with finished := true }) + 1 = l.unfinished := by
  obtain ⟨g, hg, hset⟩ := entries_set (fun _ => none) l hget true
  have hgfin : g.finished = false := by
    have := entries_getElem? (fun _ => none) l index
    rw [hg, hget] at this
    simpa [hfin] using this
  rw [← unfinished_entries (fun _ => none), ← unfinished_entries (fun _ => none), ← hset]
  exact Env.unfinished_set hg hgfin

theorem unfinished_rdropWhile :
    Ledger.unfinished (l.rdropWhile (·.finished)) = l.unfinished := by
  rw [← unfinished_entries (fun _ => none), ← unfinished_entries (fun _ => none),
    ← entries_rdropWhile]
  exact Env.unfinished_rdropWhile _

end Ledger

/-! ### The thread state carries out the ledger -/

structure Refines (base : OsString → Option OsString) (l : Ledger) (w : World) : Prop where
  stack : w.core.stack = l.entries base
  env : w.env = l.env base
  depth : w.core.depth = l.unfinished
  acquired : ∀ guard, w.core.lock = some guard → guard.acquiredEnv = base
  valid : ∀ s ∈ l, ∀ a ∈ s.vars, validVar a = true

section
variable {base : OsString → Option OsString} {l : Ledger} {w : World}

theorem Refines.nil_of_depth (h : Refines base l w) (hs : Sound w) (hzero : w.core.depth = 0) :
    l = [] := by
  have hstack := hs.stack_nil hzero
  rw [h.stack] at hstack
  cases l with
  | nil => rfl
  | cons s l => cases hstack

theorem Refines.entered (h : Refines base l w) (hs : Sound w) {vars : List Var}
    (hvars : ∀ a ∈ vars, validVar a = true) : Refines base (l.enter vars) (w.entered vars) := by
  refine ⟨?_, ?_, ?_, ?_, ?_⟩
  · simp only [World.entered, h.stack, h.env, Ledger.enter, Ledger.entries_append]
    rfl
  · simp only [World.entered, h.env, Ledger.env, Ledger.enter, Ledger.assignments, List.map_append,
      List.flatten_append, assignAll_append]
    simp
  · simp only [World.entered, h.depth, Ledger.enter, Ledger.unfinished, List.countP_append]
    rfl
  · intro guard hguard
    simp only [World.entered, World.locked] at hguard
    split at hguard
    · exact h.acquired guard hguard
    · -- the outermost scope: the lock was taken with an empty ledger
      rename_i hzero
      obtain rfl := Option.some.inj hguard
      have hnil := h.nil_of_depth hs (Nat.eq_zero_of_not_pos hzero)
      show w.env = base
      rw [h.env, hnil]
      rfl
  · intro s hs' a ha
    rcases List.mem_append.mp hs' with hmem | hmem
    · exact h.valid s hmem a ha
    · obtain rfl := List.mem_singleton.mp hmem
      exact hvars a ha

theorem Refines.finished_eq (h : Refines base l w) {index : Nat} {g : GuardState}
    (hg : w.core.stack[index]? = some g) : l[index]?.map (·.finished) = some g.finished := by
  rw [← l.entries_getElem? base index, ← h.stack, hg]
  rfl

/-- A world with an empty stack, depth zero, no guard and the base environment carries out the
empty ledger. -/
theorem refines_nil (hstack : w.core.stack = []) (hdepth : w.core.depth = 0)
    (hlock : w.core.lock = none) (henv : w.env = base) : Refines base [] w := by
  refine ⟨hstack, henv, hdepth, fun guard hguard => ?_, fun s hs => absurd hs List.not_mem_nil⟩
  rw [hlock] at hguard
  cases hguard

theorem Refines.recover (h : Refines base l w) (reason : String) (index : Nat) :
    Refines base [] (w.recover reason index) := by
  refine refines_nil ?_ ?_ ?_ ?_
  · simp [World.recover, World.reset]
  · simp [World.recover, World.reset]
  · simp [World.recover, World.reset]
  · simp only [World.recover, World.reset, World.logged, released_env, h.env, h.stack]
    exact l.undoStack_entries base

theorem Refines.finish (h : Refines base l w) {index : Nat} {s : Scope}
    (hget : l[index]? = some s) (hfin : s.finished = false) :
    ∃ g, w.core.stack[index]? = some g ∧ g.finished = false ∧
      Refines base ((l.set index { s with finished := true }).rdropWhile (·.finished))
        (w.finish index g) := by
  obtain ⟨g, hg, hset⟩ := l.entries_set base hget true
  have hgfin : g.finished = false := by
    have := l.entries_getElem? base index
    rw [hg, hget] at this
    simpa [hfin] using this
  refine ⟨g, h.stack ▸ hg, hgfin, ?_⟩
  set l' : Ledger := l.set index { s with finished := true } with hl'
  have henv' : w.env = l'.env base := by
    rw [h.env, Ledger.env, Ledger.env, hl', l.assignments_set hget true]
  have hcount : l'.unfinished + 1 = l.unfinished := l.unfinished_set hget hfin
  have hdepth' : w.core.depth - 1 = Ledger.unfinished (l'.rdropWhile (·.finished)) := by
    rw [Ledger.unfinished_rdropWhile, h.depth]
    omega
  have hvalid' : ∀ s ∈ l'.rdropWhile (·.finished), ∀ a ∈ s.vars, validVar a = true := by
    intro t ht a ha
    have hmem' : t ∈ l' := (List.rdropWhile_prefix _ l').subset ht
    rcases List.mem_or_eq_of_mem_set hmem' with hmem | rfl
    · exact h.valid t hmem a ha
    · exact h.valid s (List.mem_of_getElem? hget) a ha
  -- the state before the lock is looked at; releasing it changes no field but the lock
  have hbody : Refines base (l'.rdropWhile (·.finished)) { w with
      core := { w.core with
        depth := w.core.depth - 1
        stack := (w.core.stack.set index { g with finished := true }).rdropWhile (·.finished) }
      env := undoStack w.env (savedOf
        ((w.core.stack.set index { g with finished := true }).rtakeWhile (·.finished))) } := by
    refine ⟨?_, ?_, hdepth', h.acquired, hvalid'⟩
    · simp only [h.stack, hset]
      exact l'.entries_rdropWhile base
    · simp only [h.stack, hset, henv']
      exact l'.undoStack_rtakeWhile base
  unfold World.finish
  simp only
  split
  · refine ⟨by simpa using hbody.stack, by simpa using hbody.env, by simpa using hbody.depth, ?_,
      hvalid'⟩
    intro guard hguard
    rw [released_lock] at hguard
    cases hguard
  · exact hbody

end

end PgEmbeddedSetup.Env
