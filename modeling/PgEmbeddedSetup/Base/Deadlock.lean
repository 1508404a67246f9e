import Mathlib.Logic.Relation
import Mathlib.Order.Defs.Unbundled
import PgEmbeddedSetup.Base.Interleave

/-!
# Locks and deadlocks

`Locking` says which lock an instruction has to take, and which thread owns a lock. A thread waits for
the owner of the lock that its next instruction has to take, and a deadlock is a cycle of waits.
Threads that wait in descending order of some rank are not deadlocked (`not_deadlocked`).

`Held` relates the owners of locks to what each thread holds: taking a free lock pushes it, and
releasing the lock taken last pops it.
-/

namespace Interleave

variable {I : Type} {R : I → Type} {α β σ χ T H Λ : Type}

/-- The lock an instruction has to take in a state, and the owner of each lock. -/
structure Locking (T I σ Λ : Type) where
  wants : σ → T → I → Option Λ
  owner : σ → Λ → Option T

namespace Locking

variable (locking : Locking T I σ Λ) (c : Config T I R α σ)

def Wants (t : T) (l : Λ) : Prop :=
  ∃ i k, c.threads t = .exec i k ∧ locking.wants c.state t i = some l

def WaitsFor (t t' : T) : Prop :=
  ∃ l, locking.Wants c t l ∧ locking.owner c.state l = some t'

/-- Some thread waits, over a chain of owners that wait themselves, for itself. -/
def Deadlocked : Prop := ∃ t, Relation.TransGen (locking.WaitsFor c) t t

variable {locking c}

theorem not_deadlocked {r : β → β → Prop} [IsStrictOrder β r] (rank : T → β)
    (h : ∀ t t' t'', locking.WaitsFor c t t' → locking.WaitsFor c t' t'' →
      r (rank t') (rank t)) : ¬ locking.Deadlocked c := by
  rintro ⟨t, hcycle⟩
  have hdescends : ∀ u, Relation.TransGen (locking.WaitsFor c) t u →
      ∀ v, locking.WaitsFor c u v → r (rank u) (rank t) := by
    intro u hu
    induction hu with
    | single hwait => exact fun v hv => h t _ v hwait hv
    | tail _ hwait ih => exact fun v hv => IsTrans.trans _ _ _ (h _ _ v hwait hv) (ih _ hwait)
  obtain ⟨v, hwait, -⟩ := Relation.TransGen.head'_iff.mp hcycle
  exact irrefl _ (hdescends t hcycle v hwait)

end Locking

/-! ### What threads hold -/

variable [DecidableEq T]

/-- Each thread holds the locks that it owns, and holds each of them once. -/
structure Held (owner : Λ → Option T) (held : T → List Λ) : Prop where
  nodup : ∀ t, (held t).Nodup
  owner_iff : ∀ t l, owner l = some t ↔ l ∈ held t

namespace Held

variable {owner : Λ → Option T} {K : Type} {know : T → K} {held : K → List Λ} {t : T} {l : Λ} {k : K}

omit [DecidableEq T] in
theorem nothing : Held (fun _ => none) (fun _ : T => ([] : List Λ)) :=
  ⟨fun _ => List.nodup_nil, fun _ _ => iff_of_false nofun List.not_mem_nil⟩

omit [DecidableEq T] in
theorem unique (h : Held owner fun t => held (know t)) {t' : T} (hl : l ∈ held (know t))
    (hl' : l ∈ held (know t')) : t' = t :=
  Option.some.inj (((h.owner_iff t' l).2 hl').symm.trans ((h.owner_iff t l).2 hl))

theorem keep (h : Held owner fun t => held (know t)) (hk : held k = held (know t)) :
    Held owner fun t' => held (Function.update know t k t') := by
  have hheld : ∀ t', held (Function.update know t k t') = held (know t') := by
    intro t'
    by_cases ht : t' = t
    · subst ht
      rw [Function.update_self, hk]
    · rw [Function.update_of_ne ht]
  exact ⟨fun t' => hheld t' ▸ h.nodup t', fun t' l' => hheld t' ▸ h.owner_iff t' l'⟩

theorem push [DecidableEq Λ] (h : Held owner fun t => held (know t)) (hfree : owner l = none)
    (hk : held k = l :: held (know t)) :
    Held (Function.update owner l (some t)) fun t' => held (Function.update know t k t') := by
  have hnew : ∀ t', l ∉ held (know t') := fun t' hmem => by
    rw [← h.owner_iff, hfree] at hmem
    cases hmem
  refine ⟨fun t' => ?_, fun t' l' => ?_⟩
  · by_cases ht : t' = t
    · subst ht
      rw [Function.update_self, hk]
      exact List.nodup_cons.mpr ⟨hnew t', h.nodup t'⟩
    · rw [Function.update_of_ne ht]
      exact h.nodup t'
  · by_cases hl : l' = l
    · subst hl
      rw [Function.update_self]
      by_cases ht : t' = t
      · subst ht
        rw [Function.update_self, hk]
        exact iff_of_true rfl List.mem_cons_self
      · rw [Function.update_of_ne ht]
        exact iff_of_false (fun heq => ht (Option.some.inj heq).symm) (hnew t')
    · rw [Function.update_of_ne hl, h.owner_iff]
      by_cases ht : t' = t
      · subst ht
        rw [Function.update_self, hk, List.mem_cons]
        exact (or_iff_right hl).symm
      · rw [Function.update_of_ne ht]

theorem pop [DecidableEq Λ] (h : Held owner fun t => held (know t))
    (hk : held (know t) = l :: held k) :
    Held (Function.update owner l none) fun t' => held (Function.update know t k t') := by
  have hnodup : (l :: held k).Nodup := hk ▸ h.nodup t
  have hheld : l ∈ held (know t) := hk ▸ List.mem_cons_self
  refine ⟨fun t' => ?_, fun t' l' => ?_⟩
  · by_cases ht : t' = t
    · subst ht
      rw [Function.update_self]
      exact (List.nodup_cons.mp hnodup).2
    · rw [Function.update_of_ne ht]
      exact h.nodup t'
  · by_cases hl : l' = l
    · subst hl
      rw [Function.update_self]
      refine iff_of_false nofun fun hmem => ?_
      by_cases ht : t' = t
      · subst ht
        rw [Function.update_self] at hmem
        exact (List.nodup_cons.mp hnodup).1 hmem
      · rw [Function.update_of_ne ht] at hmem
        exact ht (h.unique hheld hmem)
    · rw [Function.update_of_ne hl, h.owner_iff]
      by_cases ht : t' = t
      · subst ht
        rw [Function.update_self, hk, List.mem_cons]
        exact or_iff_right hl
      · rw [Function.update_of_ne ht]

end Held

/-! ### Histories -/

/-- The semantics that also keeps a history of the instructions that were executed. -/
def Semantics.recording (sem : Semantics T I R σ χ) (note : T → I → H → H) :
    Semantics T I R (σ × H) χ :=
  fun t i x s => (sem t i x s.1).map fun a => (a.1, a.2, note t i s.2)

end Interleave
