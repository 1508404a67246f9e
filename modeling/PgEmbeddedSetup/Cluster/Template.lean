import Mathlib.Tactic
import PgEmbeddedSetup.Base.Interleave
import PgEmbeddedSetup.Cluster.Database

/-!
# `ensure_template_exists`

Threads ensure templates and run arbitrary setup functions, which may ensure further templates. A
call locks its name, and creates the database and runs its setup function on it if the database does
not exist. That the database exists is the only record of the setup, so a call returns `Ok` for a
template whose setup failed before. `ensured_templates_ready` shows that this is the only way: while
no setup function fails on a database that it was given, each `Ok` is for a database on which one
setup function has completed, and no database sees two.

The proof gives each thread the list of the names it has locked, each with what it knows of the
database (`Frame`), and the names that it knows to be ready.
-/

namespace PgEmbeddedSetup.Template

open Program Transition Interleave Database

/-- How a call or a setup function ends. -/
inductive Outcome where
  | ok
  | err
  | panicked
  deriving DecidableEq, Repr

/-- `setupReturned` and `returned` are not calls of the source: they mark the end of a setup function
that was given a database and of a call of `ensure_template_exists`. -/
inductive Instr where
  | entry (name : DatabaseName)
  | lock (name : DatabaseName)
  | databaseExists (name : DatabaseName)
  | createDatabase (name : DatabaseName)
  | setupReturned (name : DatabaseName) (r : Outcome)
  | unlock (name : DatabaseName) (panicking : Bool)
  | release (name : DatabaseName)
  | returned (name : DatabaseName) (r : Outcome)
  deriving DecidableEq, Repr

/-- `database_exists` may fail, and so may `create_database`. -/
@[reducible] def Instr.Answer : Instr → Type
  | .databaseExists _ => Option Bool
  | .createDatabase _ => Bool
  | _ => Unit

abbrev Thread := Prog Instr Instr.Answer Outcome

def databaseExists (name : DatabaseName) : Prog Instr Instr.Answer (Option Bool) :=
  Prog.call (Instr.databaseExists name)

def createDatabase (name : DatabaseName) : Prog Instr Instr.Answer Bool :=
  Prog.call (Instr.createDatabase name)

/-- What `ensure_template_exists` does while it holds the lock of the name. -/
def createIfMissing (name : DatabaseName) (setupFn : Thread) : Thread := do
  match ← databaseExists name with
  | none => pure .err
  | some true => pure .ok
  | some false =>
    match ← createDatabase name with
    | false => pure .err
    | true => setupFn

/-- The guard of the mutex is dropped before the map entry, also when the setup function panics, and
a poisoned mutex is locked all the same. -/
def ensureTemplateExists (name : DatabaseName) (setupFn : Thread) : Thread := do
  let _ ← Prog.call (Instr.entry name)
  let _ ← Prog.call (Instr.lock name)
  let r ← createIfMissing name setupFn
  let _ ← Prog.call (Instr.unlock name (r == .panicked))
  let _ ← Prog.call (Instr.release name)
  let _ ← Prog.call (Instr.returned name r)
  pure r

/-- A setup function, as far as templates are concerned: it ends, or it ensures another template and
goes on with how that ended. -/
inductive Setup where
  | finish (r : Outcome)
  | ensure (name : DatabaseName) (setup : Setup) (next : Outcome → Setup)

/-- It is given a database, or it is the client that a thread runs. -/
def Setup.run : Setup → Option DatabaseName → Thread
  | .finish r, none => .ret r
  | .finish r, some name => do
    let _ ← Prog.call (Instr.setupReturned name r)
    pure r
  | .ensure name setup next, database => do
    let r ← ensureTemplateExists name (setup.run (some name))
    (next r).run database

/-! ### The shared state -/

/-- `completed` lists the databases on which a setup function has completed, one entry for each. -/
structure State where
  server : Server
  shards : Nat → Option Nat
  mutexes : DatabaseName → Option Nat
  poisoned : DatabaseName → Bool
  completed : List DatabaseId

/-- No template exists yet. -/
def State.init : State :=
  ⟨⟨fun _ => none, 0⟩, fun _ => none, fun _ => none, fun _ => false, []⟩

def State.complete (s : State) (name : DatabaseName) : State :=
  { s with completed := s.completed ++ (s.server.databases name).toList }

/-- The map entry of a name holds the lock of the shard that the name falls in. -/
def sem (shard : DatabaseName → Nat) : Semantics Nat Instr Instr.Answer State Reply
  | t, .entry name, _, s =>
    if s.shards (shard name) = none then
      some ((), { s with shards := Function.update s.shards (shard name) (some t) })
    else none
  | t, .lock name, _, s =>
    if s.mutexes name = none then
      some ((), { s with mutexes := Function.update s.mutexes name (some t) })
    else none
  | _, .databaseExists name, x, s =>
    some (if x = .done then some (s.server.databases name).isSome else none, s)
  | _, .createDatabase name, x, s =>
    (s.server.answer (.createDatabase name) x).map fun server =>
      (x == .done, { s with server := server })
  | _, .setupReturned name r, _, s => some ((), if r = .ok then s.complete name else s)
  | _, .unlock name panicking, _, s =>
    some ((), { s with
      mutexes := Function.update s.mutexes name none
      poisoned := Function.update s.poisoned name (s.poisoned name || panicking) })
  | _, .release name, _, s =>
    some ((), { s with shards := Function.update s.shards (shard name) none })
  | _, .returned _ _, _, s => some ((), s)

/-- A setup function that was given a database does not fail, and a `CREATE` that was executed is
reported as such. -/
def SetupSucceeds (_ : State) (_ : Nat) (i : Instr) (x : Reply) : Prop :=
  match i with
  | .setupReturned _ r => r = .ok
  | .createDatabase _ => x ≠ .lost
  | _ => True

def State.Ready (s : State) (name : DatabaseName) : Prop :=
  ∃ id, s.server.databases name = some id ∧ id ∈ s.completed

/-- A call that is about to return `Ok` is for a database on which a setup function has completed,
and on no database has more than one. -/
def TemplatesReady (c : Config Nat Instr Instr.Answer Outcome State) : Prop :=
  (∀ t name k, c.threads t = .exec (.returned name .ok) k → c.state.Ready name) ∧
    ∀ name id, c.state.server.databases name = some id → c.state.completed.count id ≤ 1

/-! ### What a thread knows -/

/-- What a thread knows of the database whose name it has locked: nothing, that it does not exist, or
that the thread has created it and its setup function has not ended. -/
inductive Frame where
  | locked
  | absent
  | created
  deriving DecidableEq, Repr

structure Knowledge where
  frames : List (DatabaseName × Frame)
  ready : List DatabaseName

def Knowledge.push (l : Knowledge) (name : DatabaseName) (f : Frame) : Knowledge :=
  { l with frames := (name, f) :: l.frames }

def Knowledge.learn (l : Knowledge) (name : DatabaseName) : Knowledge :=
  { l with ready := name :: l.ready }

def spec : Spec Instr Instr.Answer Knowledge
  | .entry _, l, Q => Q () l
  | .lock name, l, Q => Q () (l.push name .locked)
  | .databaseExists name, l, Q => ∃ l' : Knowledge, l = l'.push name .locked ∧
      Q (none : Option Bool) l ∧ Q (some true) ((l'.push name .locked).learn name) ∧
      Q (some false) (l'.push name .absent)
  | .createDatabase name, l, Q => ∃ l' : Knowledge, l = l'.push name .absent ∧
      Q true (l'.push name .created) ∧ Q false l
  | .setupReturned name _, l, Q => ∃ l' : Knowledge, l = l'.push name .created ∧
      Q () ((l'.push name .locked).learn name)
  | .unlock name _, l, Q => ∃ (l' : Knowledge) (f : Frame), l = l'.push name f ∧ f ≠ .created ∧ Q () l'
  | .release _, l, Q => Q () l
  | .returned name r, l, Q => (r = .ok → name ∈ l.ready) ∧ Q () l

theorem spec_monotone : Spec.Monotone spec := by
  intro i l Q Q' hQ h
  cases i with
  | entry name => exact hQ _ _ h
  | lock name => exact hQ _ _ h
  | databaseExists name =>
    obtain ⟨l', hl, hnone, htrue, hfalse⟩ := h
    exact ⟨l', hl, hQ _ _ hnone, hQ _ _ htrue, hQ _ _ hfalse⟩
  | createDatabase name =>
    obtain ⟨l', hl, htrue, hfalse⟩ := h
    exact ⟨l', hl, hQ _ _ htrue, hQ _ _ hfalse⟩
  | setupReturned name r =>
    obtain ⟨l', hl, h⟩ := h
    exact ⟨l', hl, hQ _ _ h⟩
  | unlock name panicking =>
    obtain ⟨l', f, hl, hf, h⟩ := h
    exact ⟨l', f, hl, hf, hQ _ _ h⟩
  | release name => exact hQ _ _ h
  | returned name r => exact ⟨h.1, hQ _ _ h.2⟩

/-- A call or a setup function leaves the locks as it found them and forgets nothing. -/
def Balanced (l : Knowledge) (_ : Outcome) (l' : Knowledge) : Prop :=
  l'.frames = l.frames ∧ l.ready ⊆ l'.ready

/-- A setup function on a database knows at its end that one has completed there. -/
def Completed (name : DatabaseName) (l : Knowledge) (_ : Outcome) (l' : Knowledge) : Prop :=
  l'.frames = (name, .locked) :: l.frames ∧ l.ready ⊆ l'.ready ∧ name ∈ l'.ready

theorem wp_createIfMissing {name : DatabaseName} {setupFn : Thread}
    (hsetup : ∀ l, wp spec setupFn (l.push name .created) (Completed name l)) (l : Knowledge) :
    wp spec (createIfMissing name setupFn) (l.push name .locked) fun r l' =>
      ∃ f, l'.frames = (name, f) :: l.frames ∧ f ≠ .created ∧ l.ready ⊆ l'.ready ∧
        (r = .ok → name ∈ l'.ready) := by
  show ∃ l' : Knowledge, l.push name .locked = l'.push name .locked ∧ _ ∧ _ ∧ _
  refine ⟨l, rfl, ?_, ?_, ?_⟩
  · exact ⟨.locked, rfl, nofun, List.Subset.refl _, nofun⟩
  · exact ⟨.locked, rfl, nofun, List.subset_cons_self _ _, fun _ => List.mem_cons_self⟩
  · show ∃ l' : Knowledge, l.push name .absent = l'.push name .absent ∧ _ ∧ _
    refine ⟨l, rfl, ?_, ?_⟩
    · refine wp_mono spec_monotone (fun r l' hl' => ?_) (hsetup l)
      exact ⟨.locked, hl'.1, nofun, hl'.2.1, fun _ => hl'.2.2⟩
    · exact ⟨.absent, rfl, nofun, List.Subset.refl _, nofun⟩

theorem wp_ensureTemplateExists {name : DatabaseName} {setupFn : Thread}
    (hsetup : ∀ l, wp spec setupFn (l.push name .created) (Completed name l)) (l : Knowledge) :
    wp spec (ensureTemplateExists name setupFn) l (Balanced l) := by
  show wp spec (createIfMissing name setupFn >>= _) (l.push name .locked) _
  rw [wp_bind]
  refine wp_mono spec_monotone (fun r l' hl' => ?_) (wp_createIfMissing hsetup l)
  obtain ⟨f, hframes, hf, hready, hok⟩ := hl'
  have hpush : l' = Knowledge.push ⟨l.frames, l'.ready⟩ name f := by
    cases l'
    subst hframes
    rfl
  exact ⟨_, f, hpush, hf, hok, rfl, hready⟩

def Knowledge.given (l : Knowledge) : Option DatabaseName → Knowledge
  | none => l
  | some name => l.push name .created

def Ended (l : Knowledge) : Option DatabaseName → Outcome → Knowledge → Prop
  | none => Balanced l
  | some name => Completed name l

theorem given_of_frames {l l' : Knowledge} {database : Option DatabaseName}
    (h : l'.frames = (l.given database).frames) :
    l' = Knowledge.given ⟨l.frames, l'.ready⟩ database := by
  cases l'
  cases h
  cases database <;> rfl

theorem Ended.mono {l : Knowledge} {ready : List DatabaseName} (h : l.ready ⊆ ready)
    {database : Option DatabaseName} {r : Outcome} {l' : Knowledge}
    (hl' : Ended ⟨l.frames, ready⟩ database r l') : Ended l database r l' := by
  cases database with
  | none => exact ⟨hl'.1, List.Subset.trans h hl'.2⟩
  | some name => exact ⟨hl'.1, List.Subset.trans h hl'.2.1, hl'.2.2⟩

theorem ready_given (l : Knowledge) (database : Option DatabaseName) :
    (l.given database).ready = l.ready := by
  cases database <;> rfl

theorem wp_setup (setup : Setup) (database : Option DatabaseName) (l : Knowledge) :
    wp spec (setup.run database) (l.given database) (Ended l database) := by
  induction setup generalizing database l with
  | finish r =>
    cases database with
    | none => exact ⟨rfl, List.Subset.refl _⟩
    | some name => exact ⟨l, rfl, rfl, List.subset_cons_self _ _, List.mem_cons_self⟩
  | ensure name setup next ihSetup ihNext =>
    show wp spec (ensureTemplateExists name (setup.run (some name)) >>= _) _ _
    rw [wp_bind]
    refine wp_mono spec_monotone (fun r l' hl' => ?_)
      (wp_ensureTemplateExists (ihSetup (some name)) (l.given database))
    obtain ⟨hframes, hready⟩ := hl'
    rw [ready_given] at hready
    rw [given_of_frames hframes]
    exact wp_mono spec_monotone (fun r' l'' hl'' => hl''.mono hready) (ihNext r database _)

end PgEmbeddedSetup.Template
