import Mathlib.Tactic
import PgEmbeddedSetup.Base.Program
import PgEmbeddedSetup.Base.Transition

/-!
# Databases and their temporary guards

The server is a map from names to databases. A database has an identity, the number of databases that
were created before it, so one that is created again under an old name is another database. Clients
share the server and each statement is atomic.

`TemporaryDatabase` knows its database by name only, and the methods that consume it take it by
value: they run their own `DROP DATABASE`, and then `Drop` runs a second one.
-/

namespace PgEmbeddedSetup.Database

open Program

abbrev DatabaseName := String

abbrev DatabaseId := Nat

structure Server where
  databases : DatabaseName → Option DatabaseId
  created : Nat

inductive Statement where
  | createDatabase (name : DatabaseName)
  | createDatabaseFromTemplate (name template : DatabaseName)
  | dropDatabase (name : DatabaseName)
  | terminateBackends (name : DatabaseName)
  deriving DecidableEq, Repr

/-- How a statement ends: the client is told that it was executed, or it was executed and the answer
is lost, or it had no effect because the server or the connection refused it. -/
inductive Reply where
  | done
  | lost
  | refused
  deriving DecidableEq, Repr

def Server.create (s : Server) (name : DatabaseName) : Server :=
  ⟨Function.update s.databases name (some s.created), s.created + 1⟩

def Server.drop (s : Server) (name : DatabaseName) : Server :=
  { s with databases := Function.update s.databases name none }

/-- The effect of a statement, or none where the server has to refuse it. -/
def Server.execute (s : Server) : Statement → Option Server
  | .createDatabase name =>
    if (s.databases name).isSome then none else some (s.create name)
  | .createDatabaseFromTemplate name template =>
    if (s.databases name).isSome || (s.databases template).isNone then none
    else some (s.create name)
  | .dropDatabase name => if (s.databases name).isSome then some (s.drop name) else none
  | .terminateBackends _ => some s

def Server.answer (s : Server) (q : Statement) : Reply → Option Server
  | .done | .lost => s.execute q
  | .refused => some s

/-- The name under which the statement creates a database. -/
def Statement.creates : Statement → Option DatabaseName
  | .createDatabase name | .createDatabaseFromTemplate name _ => some name
  | _ => none

theorem answer_cases {s s' : Server} {q : Statement} {r : Reply} (h : s.answer q r = some s') :
    (s' = s ∧ (r = .refused ∨ q.creates = none ∧ ∀ name, q ≠ .dropDatabase name)) ∨
      (∃ name, q.creates = some name ∧ r ≠ .refused ∧ s' = s.create name) ∨
      ∃ name id, q = .dropDatabase name ∧ r ≠ .refused ∧ s.databases name = some id ∧
        s' = s.drop name := by
  by_cases hr : r = .refused
  · subst hr
    exact Or.inl ⟨(Option.some.inj h).symm, Or.inl rfl⟩
  · have hexec : s.execute q = some s' := by
      cases r with
      | done => exact h
      | lost => exact h
      | refused => exact absurd rfl hr
    cases q with
    | createDatabase name =>
      rw [Server.execute] at hexec
      split at hexec
      · cases hexec
      · exact Or.inr (Or.inl ⟨name, rfl, hr, (Option.some.inj hexec).symm⟩)
    | createDatabaseFromTemplate name template =>
      rw [Server.execute] at hexec
      split at hexec
      · cases hexec
      · exact Or.inr (Or.inl ⟨name, rfl, hr, (Option.some.inj hexec).symm⟩)
    | dropDatabase name =>
      rw [Server.execute] at hexec
      split at hexec
      next hsome =>
        obtain ⟨id, hid⟩ := Option.isSome_iff_exists.mp hsome
        exact Or.inr (Or.inr ⟨name, id, rfl, hr, hid, (Option.some.inj hexec).symm⟩)
      next => cases hexec
    | terminateBackends name =>
      exact Or.inl ⟨(Option.some.inj hexec).symm, Or.inr ⟨rfl, fun _ => nofun⟩⟩

@[simp] theorem create_databases (s : Server) (name n : DatabaseName) :
    (s.create name).databases n = if n = name then some s.created else s.databases n :=
  Function.update_apply ..

@[simp] theorem drop_databases (s : Server) (name n : DatabaseName) :
    (s.drop name).databases n = if n = name then none else s.databases n :=
  Function.update_apply ..

theorem answer_created_le {s s' : Server} {q : Statement} {r : Reply}
    (h : s.answer q r = some s') : s.created ≤ s'.created := by
  rcases answer_cases h with ⟨rfl, -⟩ | ⟨name, -, -, rfl⟩ | ⟨name, id, -, -, -, rfl⟩
  · exact le_rfl
  · exact Nat.le_succ _
  · exact le_rfl

theorem answer_databases {s s' : Server} {q : Statement} {r : Reply} (h : s.answer q r = some s')
    {n : DatabaseName} (hn : r ≠ .refused → q.creates ≠ some n) {id : DatabaseId}
    (hid : s'.databases n = some id) : s.databases n = some id := by
  rcases answer_cases h with ⟨rfl, -⟩ | ⟨name, hname, hr, rfl⟩ | ⟨name, id', -, -, -, rfl⟩
  · exact hid
  · have hne : n ≠ name := fun heq => hn hr (heq ▸ hname)
    simpa [hne] using hid
  · rw [drop_databases] at hid
    split at hid
    · cases hid
    · exact hid

/-! ### The guard -/

/-- `created` is not a field of the source: it is the identity of the database whose creation made
the guard. -/
structure TemporaryDatabase where
  name : DatabaseName
  adminUrl : String
  databaseUrl : String
  created : DatabaseId
  deriving DecidableEq, Repr

/-- Client code: statements, answered with whether they were reported as executed. Each statement
here has a connection of its own or follows on one, so a failed connection is a refused statement. -/
abbrev Client := Prog Statement fun _ => Bool

namespace TemporaryDatabase

def tryDrop (self : TemporaryDatabase) : Client Bool :=
  Prog.call (.dropDatabase self.name)

def dropDatabase (self : TemporaryDatabase) : Client Bool :=
  self.tryDrop

def forceDrop (self : TemporaryDatabase) : Client Bool := do
  if ← Prog.call (.terminateBackends self.name) then
    Prog.call (.dropDatabase self.name)
  else
    pure false

/-- `Drop::drop`, which only logs a failure. -/
def drop (self : TemporaryDatabase) : Client Unit := do
  let _ ← self.tryDrop
  pure ()

end TemporaryDatabase

/-- The ways in which a guard is consumed. -/
inductive Consume where
  | dropDatabase
  | forceDrop
  | outOfScope
  deriving DecidableEq, Repr

/-- The methods own the guard, so `drop` runs when they return. -/
def Consume.run : Consume → TemporaryDatabase → Client Unit
  | .dropDatabase, guard => do
    let _ ← guard.dropDatabase
    guard.drop
  | .forceDrop, guard => do
    let _ ← guard.forceDrop
    guard.drop
  | .outOfScope, guard => guard.drop

/-! ### Clients of one server -/

/-- The calls of `TestClusterConnection`. Each executes one statement. -/
inductive Call where
  | createDatabase (name : DatabaseName)
  | createDatabaseFromTemplate (name template : DatabaseName)
  | dropDatabase (name : DatabaseName)
  | temporaryDatabase (name : DatabaseName)
  | temporaryDatabaseFromTemplate (name template : DatabaseName)
  deriving DecidableEq, Repr

def Call.statement : Call → Statement
  | .createDatabase name | .temporaryDatabase name => .createDatabase name
  | .createDatabaseFromTemplate name template
  | .temporaryDatabaseFromTemplate name template => .createDatabaseFromTemplate name template
  | .dropDatabase name => .dropDatabase name

/-- The name of the guard that the call returns when it succeeds. -/
def Call.guards : Call → Option DatabaseName
  | .temporaryDatabase name | .temporaryDatabaseFromTemplate name _ => some name
  | _ => none

/-- A guard and, once it is consumed, what is left to run of that. -/
structure Held where
  guard : TemporaryDatabase
  rest : Option (Client Unit)

/-- The guard may still execute a statement. -/
def Held.outstanding (g : Held) : Bool :=
  match g.rest with
  | some (.ret _) => false
  | _ => true

/-- A `DROP DATABASE` of a guard was executed. -/
structure Removal where
  guard : TemporaryDatabase
  removed : DatabaseId
  deriving DecidableEq, Repr

structure State where
  server : Server
  guards : List Held
  removals : List Removal

def State.init (server : Server) : State := ⟨server, [], []⟩

inductive Event where
  | call (c : Call) (adminUrl databaseUrl : String) (r : Reply)
  | consume (position : Nat) (how : Consume)
  | advance (position : Nat) (r : Reply)
  deriving DecidableEq, Repr

/-- The removal that a guard's statement carries out. -/
def removalOf (server : Server) (guard : TemporaryDatabase) (q : Statement) (r : Reply) :
    List Removal :=
  match q, r with
  | _, .refused => []
  | .dropDatabase name, _ => (server.databases name).toList.map (⟨guard, ·⟩)
  | _, _ => []

def step (s : State) : Event → Option State
  | .call c adminUrl databaseUrl r =>
    (s.server.answer c.statement r).map fun server =>
      { s with
        server := server
        guards :=
          match c.guards, r with
          | some name, .done =>
            s.guards ++ [⟨⟨name, adminUrl, databaseUrl, s.server.created⟩, none⟩]
          | _, _ => s.guards }
  | .consume position how =>
    match s.guards[position]? with
    | some ⟨guard, none⟩ =>
      some { s with guards := s.guards.set position ⟨guard, some (how.run guard)⟩ }
    | _ => none
  | .advance position r =>
    match s.guards[position]? with
    | some ⟨guard, some (.exec q k)⟩ =>
      (s.server.answer q r).map fun server =>
        { server := server
          guards := s.guards.set position ⟨guard, some (k (r == .done))⟩
          removals := s.removals ++ removalOf s.server guard q r }
    | _ => none

end PgEmbeddedSetup.Database
