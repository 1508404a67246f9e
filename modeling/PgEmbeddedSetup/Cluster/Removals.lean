import Mathlib.Tactic
import PgEmbeddedSetup.Cluster.Database

/-!
# What a guard removes

A guard removes the database it was made for, and no other, in every run in which no `CREATE`
succeeds on a name while a guard of that name can still execute a statement
(`removals_own_unless_reused`). A guard counts until its last `DROP DATABASE` is answered: after
`drop_database` has removed the database the `DROP DATABASE` of `Drop` is still to come, and it names
whatever database has the name by then. Each step that breaks the condition can be continued to a
removal of the new database.
-/

namespace PgEmbeddedSetup.Database

open Program Transition

/-- Each removal by a guard is of the database whose creation made the guard. -/
def OwnRemovals (s : State) : Prop :=
  ∀ r ∈ s.removals, r.removed = r.guard.created

/-- No `CREATE` takes effect on the name of an outstanding guard. -/
def NoReuse (s : State) : Event → Prop
  | .call c _ _ r => ∀ name, c.statement.creates = some name → r ≠ .refused →
      ∀ g ∈ s.guards, g.outstanding = true → g.guard.name ≠ name
  | _ => True

/-! ### What is left of a consumed guard -/

theorem run_outOfScope (guard : TemporaryDatabase) :
    Consume.outOfScope.run guard = .exec (.dropDatabase guard.name) fun _ => .ret () := rfl

theorem run_dropDatabase (guard : TemporaryDatabase) :
    Consume.dropDatabase.run guard =
      .exec (.dropDatabase guard.name) fun _ => Consume.outOfScope.run guard := rfl

theorem run_forceDrop (guard : TemporaryDatabase) :
    Consume.forceDrop.run guard = .exec (.terminateBackends guard.name) fun ok =>
      if ok then Consume.dropDatabase.run guard else Consume.outOfScope.run guard := by
  show Prog.exec _ _ = Prog.exec _ _
  congr 1
  funext ok
  cases ok <;> rfl

/-- The programs a consumed guard can be left with. -/
def Pending (guard : TemporaryDatabase) (p : Client Unit) : Prop :=
  p = .ret () ∨ ∃ how : Consume, p = how.run guard

theorem Pending.next {guard : TemporaryDatabase} {q : Statement} {k : Bool → Client Unit}
    (h : Pending guard (.exec q k)) :
    (q = .dropDatabase guard.name ∨
      q = .terminateBackends guard.name ∧ k false = Consume.outOfScope.run guard) ∧
      ∀ ok, Pending guard (k ok) := by
  rcases h with h | ⟨how, h⟩
  · cases h
  cases how with
  | outOfScope =>
    rw [run_outOfScope] at h
    cases h
    exact ⟨Or.inl rfl, fun _ => Or.inl rfl⟩
  | dropDatabase =>
    rw [run_dropDatabase] at h
    cases h
    exact ⟨Or.inl rfl, fun _ => Or.inr ⟨.outOfScope, rfl⟩⟩
  | forceDrop =>
    rw [run_forceDrop] at h
    cases h
    refine ⟨Or.inr ⟨rfl, rfl⟩, fun ok => ?_⟩
    cases ok with
    | true => exact Or.inr ⟨.dropDatabase, rfl⟩
    | false => exact Or.inr ⟨.outOfScope, rfl⟩

/-! ### Steps -/

/-- A guard is older than the databases still to come and is consumed in one of the three ways. -/
structure WellFormed (s : State) : Prop where
  older : ∀ g ∈ s.guards, g.guard.created < s.server.created
  pending : ∀ g ∈ s.guards, ∀ p, g.rest = some p → Pending g.guard p

/-- The name of an outstanding guard is free or still has the database of the guard. -/
def OwnName (server : Server) (g : Held) : Prop :=
  g.outstanding = true → ∀ id, server.databases g.guard.name = some id → id = g.guard.created

structure Owned (s : State) : Prop where
  wellFormed : WellFormed s
  own : ∀ g ∈ s.guards, OwnName s.server g
  removals : OwnRemovals s

theorem owned_init (server : Server) : Owned (State.init server) :=
  ⟨⟨fun _ h => absurd h List.not_mem_nil, fun _ h => absurd h List.not_mem_nil⟩,
    fun _ h => absurd h List.not_mem_nil, fun _ h => absurd h List.not_mem_nil⟩

theorem step_call {s s' : State} {c : Call} {adminUrl databaseUrl : String} {r : Reply}
    (h : step s (.call c adminUrl databaseUrl r) = some s') :
    ∃ server, s.server.answer c.statement r = some server ∧ s'.server = server ∧
      s'.removals = s.removals ∧
      (s'.guards = s.guards ∨ r = .done ∧ ∃ name, c.statement.creates = some name ∧
        s'.guards = s.guards ++ [⟨⟨name, adminUrl, databaseUrl, s.server.created⟩, none⟩]) := by
  simp only [step, Option.map_eq_some_iff] at h
  obtain ⟨server, hanswer, rfl⟩ := h
  refine ⟨server, hanswer, rfl, rfl, ?_⟩
  cases c <;> cases r <;> first | exact Or.inl rfl | exact Or.inr ⟨rfl, _, rfl, rfl⟩

theorem step_consume {s s' : State} {position : Nat} {how : Consume}
    (h : step s (.consume position how) = some s') :
    ∃ guard, s.guards[position]? = some ⟨guard, none⟩ ∧
      s' = { s with guards := s.guards.set position ⟨guard, some (how.run guard)⟩ } := by
  rw [step] at h
  split at h
  next guard hguard => exact ⟨guard, hguard, (Option.some.inj h).symm⟩
  next => cases h

theorem step_advance {s s' : State} {position : Nat} {r : Reply}
    (h : step s (.advance position r) = some s') :
    ∃ guard q k server, s.guards[position]? = some ⟨guard, some (.exec q k)⟩ ∧
      s.server.answer q r = some server ∧
      s' = { server := server
             guards := s.guards.set position ⟨guard, some (k (r == .done))⟩
             removals := s.removals ++ removalOf s.server guard q r } := by
  rw [step] at h
  split at h
  next guard q k hguard =>
    rw [Option.map_eq_some_iff] at h
    obtain ⟨server, hanswer, rfl⟩ := h
    exact ⟨guard, q, k, server, hguard, hanswer, rfl⟩
  next => cases h

theorem step_wellFormed {s s' : State} {e : Event} (hs : WellFormed s) (h : step s e = some s') :
    WellFormed s' := by
  cases e with
  | call c adminUrl databaseUrl r =>
    obtain ⟨server, hanswer, rfl, -, hguards⟩ := step_call h
    have hle := answer_created_le hanswer
    rcases hguards with hguards | ⟨rfl, name, hname, hguards⟩
    · refine ⟨fun g hg => ?_, fun g hg => ?_⟩ <;> rw [hguards] at hg
      · exact lt_of_lt_of_le (hs.older g hg) hle
      · exact hs.pending g hg
    · have hcreate : s'.server = s.server.create name := by
        rcases answer_cases hanswer with ⟨-, hno | ⟨hno, -⟩⟩ | ⟨n, hn, -, hs'⟩ | ⟨n, id, hq, -⟩
        · cases hno
        · rw [hname] at hno
          cases hno
        · rw [hs', Option.some.inj (hn.symm.trans hname)]
        · rw [hq] at hname
          cases hname
      refine ⟨fun g hg => ?_, fun g hg => ?_⟩ <;> rw [hguards, List.mem_append] at hg <;>
        rcases hg with hg | hg
      · exact lt_of_lt_of_le (hs.older g hg) hle
      · rw [List.mem_singleton.mp hg, hcreate]
        exact Nat.lt_succ_self _
      · exact hs.pending g hg
      · rw [List.mem_singleton.mp hg]
        intro p hp
        cases hp
  | consume position how =>
    obtain ⟨guard, hguard, rfl⟩ := step_consume h
    have holder := hs.older _ (List.mem_of_getElem? hguard)
    refine ⟨fun g hg => ?_, fun g hg => ?_⟩ <;>
      rcases List.mem_or_eq_of_mem_set hg with hg | rfl
    · exact hs.older g hg
    · exact holder
    · exact hs.pending g hg
    · intro p hp
      exact Or.inr ⟨how, (Option.some.inj hp).symm⟩
  | advance position r =>
    obtain ⟨guard, q, k, server, hguard, hanswer, rfl⟩ := step_advance h
    have hmem := List.mem_of_getElem? hguard
    have holder := hs.older _ hmem
    have hle := answer_created_le hanswer
    refine ⟨fun g hg => ?_, fun g hg => ?_⟩ <;>
      rcases List.mem_or_eq_of_mem_set hg with hg | rfl
    · exact lt_of_lt_of_le (hs.older g hg) hle
    · exact lt_of_lt_of_le holder hle
    · exact hs.pending g hg
    · intro p hp
      rw [← Option.some.inj hp]
      exact (hs.pending _ hmem _ rfl).next.2 _

theorem removalOf_own {server : Server} {guard : TemporaryDatabase} {q : Statement} {r : Reply}
    {k : Bool → Client Unit} (hq : Pending guard (.exec q k))
    (hown : ∀ id, server.databases guard.name = some id → id = guard.created) :
    ∀ removal ∈ removalOf server guard q r, removal.removed = removal.guard.created := by
  intro removal hremoval
  rcases hq.next.1 with rfl | ⟨rfl, -⟩
  · cases r with
    | refused => exact absurd hremoval List.not_mem_nil
    | done | lost =>
      rw [removalOf, List.mem_map] at hremoval
      · obtain ⟨id, hid, rfl⟩ := hremoval
        exact hown id (Option.mem_toList.mp hid)
      · nofun
  · cases r <;> exact absurd hremoval List.not_mem_nil

/-- One step under the condition. -/
theorem step_owned {s s' : State} {e : Event} (hs : Owned s) (hreuse : NoReuse s e)
    (h : step s e = some s') : Owned s' := by
  refine ⟨step_wellFormed hs.wellFormed h, ?_, ?_⟩
  · cases e with
    | call c adminUrl databaseUrl r =>
      obtain ⟨server, hanswer, rfl, -, hguards⟩ := step_call h
      have hold : ∀ g ∈ s.guards, OwnName s'.server g := fun g hg hout id hid =>
        hs.own g hg hout id (answer_databases hanswer
          (fun hr hname => hreuse _ hname hr g hg hout rfl) hid)
      rcases hguards with hguards | ⟨rfl, name, hname, hguards⟩
      · rwa [hguards]
      · intro g hg
        rw [hguards, List.mem_append] at hg
        rcases hg with hg | hg
        · exact hold g hg
        -- the new guard has the database that the statement has just created
        · rw [List.mem_singleton.mp hg]
          intro _ id hid
          rcases answer_cases hanswer with ⟨-, hno | ⟨hno, -⟩⟩ | ⟨n, hn, -, hs'⟩ | ⟨n, id, hq, -⟩
          · cases hno
          · rw [hname] at hno
            cases hno
          · rw [hs', Option.some.inj (hn.symm.trans hname), create_databases, if_pos rfl] at hid
            exact (Option.some.inj hid).symm
          · rw [hq] at hname
            cases hname
    | consume position how =>
      obtain ⟨guard, hguard, rfl⟩ := step_consume h
      have hown := hs.own _ (List.mem_of_getElem? hguard) rfl
      intro g hg
      rcases List.mem_or_eq_of_mem_set hg with hg | rfl
      · exact hs.own g hg
      · exact fun _ => hown
    | advance position r =>
      obtain ⟨guard, q, k, server, hguard, hanswer, rfl⟩ := step_advance h
      have hmem := List.mem_of_getElem? hguard
      have hown := hs.own _ hmem rfl
      have hcreates : ∀ n, q.creates ≠ some n := by
        rcases (hs.wellFormed.pending _ hmem _ rfl).next.1 with hq | ⟨hq, -⟩ <;> rw [hq] <;> nofun
      intro g hg hout id hid
      have hid' := answer_databases hanswer (fun _ => hcreates _) hid
      rcases List.mem_or_eq_of_mem_set hg with hg | rfl
      · exact hs.own g hg hout id hid'
      · exact hown id hid'
  · cases e with
    | call c adminUrl databaseUrl r =>
      obtain ⟨server, -, -, hremovals, -⟩ := step_call h
      rw [OwnRemovals, hremovals]
      exact hs.removals
    | consume position how =>
      obtain ⟨guard, -, rfl⟩ := step_consume h
      exact hs.removals
    | advance position r =>
      obtain ⟨guard, q, k, server, hguard, hanswer, rfl⟩ := step_advance h
      have hmem := List.mem_of_getElem? hguard
      intro removal hremoval
      rcases List.mem_append.mp hremoval with hremoval | hremoval
      · exact hs.removals removal hremoval
      · exact removalOf_own (hs.wellFormed.pending _ hmem _ rfl) (hs.own _ hmem rfl)
          removal hremoval

/-! ### Runs -/

/-- What is left of the guard at a position. -/
def State.leave (s : State) (position : Nat) (guard : TemporaryDatabase) (p : Client Unit) : State :=
  { s with guards := s.guards.set position ⟨guard, some p⟩ }

theorem drop_removes {s : State} {position : Nat} {guard : TemporaryDatabase}
    {k : Bool → Client Unit} {id : DatabaseId}
    (hg : s.guards[position]? = some ⟨guard, some (.exec (.dropDatabase guard.name) k)⟩)
    (hid : s.server.databases guard.name = some id) :
    ∃ s', step s (.advance position .done) = some s' ∧ ⟨guard, id⟩ ∈ s'.removals := by
  have hanswer : s.server.answer (.dropDatabase guard.name) .done =
      some (s.server.drop guard.name) := by
    rw [Server.answer, Server.execute, hid]
    rfl
  refine ⟨_, by simp only [step, hg, hanswer, Option.map_some]; rfl, ?_⟩
  simp [removalOf, hid]

theorem outstanding_removes {s : State} (hs : WellFormed s) {position : Nat}
    {guard : TemporaryDatabase} {rest : Option (Client Unit)}
    (hg : s.guards[position]? = some ⟨guard, rest⟩)
    (hout : Held.outstanding ⟨guard, rest⟩ = true) {id : DatabaseId}
    (hid : s.server.databases guard.name = some id) :
    ∃ events s', run step events s = some s' ∧ ⟨guard, id⟩ ∈ s'.removals := by
  have hlt := (List.getElem?_eq_some_iff.mp hg).1
  -- leaving the scope is one statement
  have hscope : ∃ s', step (s.leave position guard (Consume.outOfScope.run guard))
      (.advance position .done) = some s' ∧ ⟨guard, id⟩ ∈ s'.removals :=
    drop_removes (List.getElem?_set_self hlt) hid
  obtain ⟨s', hstep, hmem⟩ := hscope
  cases rest with
  | none =>
    have hconsume : step s (.consume position .outOfScope) =
        some (s.leave position guard (Consume.outOfScope.run guard)) := by
      simp only [step, hg, State.leave]
    exact ⟨[.consume position .outOfScope, .advance position .done], s',
      (run_cons hconsume _).trans (run_cons hstep []), hmem⟩
  | some p =>
    cases p with
    | ret a => cases hout
    | exec q k =>
      rcases (hs.pending _ (List.mem_of_getElem? hg) _ rfl).next.1 with hq | ⟨hq, hk⟩
      · rw [hq] at hg
        obtain ⟨s'', hstep', hmem'⟩ := drop_removes hg hid
        exact ⟨[.advance position .done], s'', run_cons hstep' [], hmem'⟩
      -- `force_drop` whose first statement fails goes on to `Drop`
      · have hfail : step s (.advance position .refused) =
            some (s.leave position guard (Consume.outOfScope.run guard)) := by
          have hk' : k (Reply.refused == .done) = Consume.outOfScope.run guard := hk
          simp only [step, hg, Server.answer, Option.map_some, removalOf, List.append_nil, hk',
            State.leave]
        exact ⟨[.advance position .refused, .advance position .done], s',
          (run_cons hfail _).trans (run_cons hstep []), hmem⟩

/-- A step that reuses the name of an outstanding guard leads to a foreign removal. -/
theorem reuse_violates {s s' : State} {e : Event} (hs : WellFormed s) (hreuse : ¬ NoReuse s e)
    (h : step s e = some s') :
    ∃ events s'', run step events s' = some s'' ∧ ¬ OwnRemovals s'' := by
  have hs' := step_wellFormed hs h
  cases e with
  | consume position how => exact absurd trivial hreuse
  | advance position r => exact absurd trivial hreuse
  | call c adminUrl databaseUrl r =>
    simp only [NoReuse, not_forall, not_not, exists_prop] at hreuse
    obtain ⟨name, hname, hr, g, hg, hout, rfl⟩ := hreuse
    obtain ⟨server, hanswer, hserver, -, hguards⟩ := step_call h
    have hcreate : server = s.server.create g.guard.name := by
      rcases answer_cases hanswer with ⟨-, hno | ⟨hno, -⟩⟩ | ⟨n, hn, -, hs'⟩ | ⟨n, id, hq, -⟩
      · exact absurd hno hr
      · rw [hname] at hno
        cases hno
      · rw [hs', Option.some.inj (hn.symm.trans hname)]
      · rw [hq] at hname
        cases hname
    obtain ⟨position, hposition⟩ := List.mem_iff_getElem?.mp hg
    have hposition' : s'.guards[position]? = some g := by
      rcases hguards with hguards | ⟨-, n, -, hguards⟩
      · rw [hguards, hposition]
      · rw [hguards, List.getElem?_append_left (List.getElem?_eq_some_iff.mp hposition).1,
          hposition]
    have hid : s'.server.databases g.guard.name = some s.server.created := by
      rw [hserver, hcreate, create_databases, if_pos rfl]
    obtain ⟨events, s'', hrun, hmem⟩ := outstanding_removes hs' hposition' hout hid
    refine ⟨events, s'', hrun, fun hown => ?_⟩
    have hforeign : s.server.created = g.guard.created := hown _ hmem
    exact absurd hforeign (Nat.ne_of_gt (hs.older g hg))

/-- **A guard removes its own database only, unless its name is reused while it is outstanding.** In
every run in which no `CREATE` takes effect on the name of an outstanding guard, each removal by a
guard is of the database whose creation made it. A step that breaks the condition, after any run, can
be continued to a removal of a database that was created later. -/
theorem removals_own_unless_reused (server : Server) (events : List Event) {s : State}
    (hrun : run step events (State.init server) = some s) :
    (Along step NoReuse events (State.init server) → OwnRemovals s) ∧
    (∀ e s', step s e = some s' → ¬ NoReuse s e →
      ∃ rest s'', run step rest s' = some s'' ∧ ¬ OwnRemovals s'') := by
  refine ⟨fun halong => ?_, fun e s' hstep hreuse => ?_⟩
  · have howned : Owned s := run_invariant (fun _ _ _ hs hreuse h => step_owned hs hreuse h)
      (owned_init server) halong hrun
    exact howned.removals
  · exact reuse_violates (run_preserves (fun _ _ _ hs h => step_wellFormed hs h)
      (owned_init server).wellFormed hrun) hreuse hstep

/-- An explicit drop of a temporary database on an empty server, and the second statement of its
guard. -/
theorem removals_own_drop_database :
    ∃ s, run step [.call (.temporaryDatabase "db") "admin" "db" .done, .consume 0 .dropDatabase,
        .advance 0 .done, .advance 0 .refused] (State.init ⟨fun _ => none, 0⟩) = some s ∧
      OwnRemovals s := by
  refine ⟨_, rfl, (removals_own_unless_reused ⟨fun _ => none, 0⟩
    [.call (.temporaryDatabase "db") "admin" "db" .done, .consume 0 .dropDatabase,
      .advance 0 .done, .advance 0 .refused] rfl).1 ?_⟩
  refine ⟨fun _ _ _ g hg => absurd hg List.not_mem_nil, fun s₁ _ => ⟨trivial, fun s₂ _ =>
    ⟨trivial, fun s₃ _ => ⟨trivial, fun s₄ _ => trivial⟩⟩⟩⟩

/-- `drop_database` removes the database of the guard, another client creates one under the name, and
the `DROP DATABASE` of `Drop` removes that. -/
theorem removals_foreign_after_drop_database :
    ∃ s, run step [.call (.temporaryDatabase "db") "admin" "db" .done, .consume 0 .dropDatabase,
        .advance 0 .done, .call (.createDatabase "db") "admin" "db" .done, .advance 0 .done]
        (State.init ⟨fun _ => none, 0⟩) = some s ∧
      s.removals = [⟨⟨"db", "admin", "db", 0⟩, 0⟩, ⟨⟨"db", "admin", "db", 0⟩, 1⟩] ∧
      ¬ OwnRemovals s := by
  refine ⟨_, rfl, rfl, fun h => ?_⟩
  have hforeign : (1 : Nat) = 0 := h ⟨⟨"db", "admin", "db", 0⟩, 1⟩ (by decide)
  omega

end PgEmbeddedSetup.Database
