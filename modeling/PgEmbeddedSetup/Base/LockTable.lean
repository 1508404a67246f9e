import Mathlib.Data.List.Nodup
import Mathlib.Logic.Function.Basic

/-!
# Tables of shared and exclusive locks

For each lock the table lists its holders, with the mode in which they hold it. An exclusive lock is
given when nobody holds the lock, and a shared one when nobody holds it exclusively. `Proper` tables
have each holder once, and an exclusive holder alone; taking a lock that can be had, and releasing one,
keep a table proper.
-/

namespace LockTable

variable {F T M : Type} [DecidableEq F] [DecidableEq T]

abbrev Table (F T M : Type) := F → List (T × M)

def compatible (exclusive : M → Bool) (held : List (T × M)) (m : M) : Bool :=
  if exclusive m then held.isEmpty else held.all fun h => !exclusive h.2

def take (table : Table F T M) (f : F) (t : T) (m : M) : Table F T M :=
  Function.update table f ((t, m) :: table f)

def release (table : Table F T M) (f : F) (t : T) : Table F T M :=
  Function.update table f ((table f).eraseP fun h => h.1 = t)

structure Proper (exclusive : M → Bool) (table : Table F T M) : Prop where
  once : ∀ f, ((table f).map Prod.fst).Nodup
  alone : ∀ f t t' m m', (t, m) ∈ table f → exclusive m = true → (t', m') ∈ table f → t' = t

section Modes

variable {exclusive : M → Bool} {table : Table F T M} {f f' : F} {t t' : T} {m m' : M}

omit [DecidableEq F] [DecidableEq T] in
theorem proper_empty : Proper exclusive (fun _ => [] : Table F T M) :=
  ⟨fun _ => List.nodup_nil, fun _ _ _ _ _ h => by cases h⟩

omit [DecidableEq F] [DecidableEq T] in
theorem not_exclusive (h : compatible exclusive (table f) m = true) (hmem : (t, m') ∈ table f) :
    exclusive m' = false := by
  unfold compatible at h
  split at h
  next => rw [List.isEmpty_iff.mp h] at hmem; cases hmem
  next => simpa using List.all_eq_true.mp h _ hmem

omit [DecidableEq T] in
theorem mem_take : (t', m') ∈ take table f t m f' ↔
    (t' = t ∧ m' = m ∧ f' = f) ∨ (t', m') ∈ table f' := by
  unfold take
  rw [Function.update_apply]
  split
  next hf =>
    subst hf
    rw [List.mem_cons, Prod.mk.injEq]
    simp
  next hf => simp [hf]

theorem mem_release (h : Proper exclusive table) : (t', m') ∈ release table f t f' ↔
    ¬ (t' = t ∧ f' = f) ∧ (t', m') ∈ table f' := by
  unfold release
  rw [Function.update_apply]
  split
  next hf =>
    subst hf
    have honce := h.once f'
    generalize table f' = held at honce
    rw [and_iff_left rfl]
    induction held with
    | nil => simp
    | cons head held ih =>
      rw [List.map_cons, List.nodup_cons] at honce
      by_cases ht : head.1 = t
      · -- nobody is twice in the list
        rw [List.eraseP_cons_of_pos (by simpa using ht)]
        constructor
        · intro hmem
          refine ⟨?_, List.mem_cons_of_mem _ hmem⟩
          rintro rfl
          exact honce.1 (List.mem_map.mpr ⟨_, hmem, ht.symm⟩)
        · rintro ⟨hne, hmem⟩
          rcases List.mem_cons.mp hmem with rfl | hmem
          · exact absurd ht hne
          · exact hmem
      · have hrest := ih honce.2
        rw [List.eraseP_cons_of_neg (by simpa using ht), List.mem_cons, List.mem_cons]
        constructor
        · rintro (heq | hmem)
          · refine ⟨?_, Or.inl heq⟩
            rintro rfl
            exact ht (heq ▸ rfl)
          · exact ⟨(hrest.mp hmem).1, Or.inr (hrest.mp hmem).2⟩
        · rintro ⟨hne, heq | hmem⟩
          · exact Or.inl heq
          · exact Or.inr (hrest.mpr ⟨hne, hmem⟩)
  next hf => simp [hf]

omit [DecidableEq T] in
theorem Proper.take (h : Proper exclusive table) (hnot : ∀ m', (t, m') ∉ table f)
    (hcompatible : compatible exclusive (table f) m = true) :
    Proper exclusive (take table f t m) := by
  refine ⟨fun f' => ?_, fun f' t₁ t₂ m₁ m₂ h₁ hexclusive h₂ => ?_⟩
  · unfold LockTable.take
    rw [Function.update_apply]
    split
    next =>
      rw [List.map_cons, List.nodup_cons]
      refine ⟨fun hmem => ?_, h.once f⟩
      obtain ⟨⟨t', m'⟩, hmem', rfl⟩ := List.mem_map.mp hmem
      exact hnot m' hmem'
    next => exact h.once f'
  · rcases mem_take.mp h₁ with ⟨rfl, rfl, rfl⟩ | hheld₁
    · rcases mem_take.mp h₂ with ⟨rfl, -, -⟩ | hheld₂
      · rfl
      · unfold compatible at hcompatible
        rw [if_pos hexclusive, List.isEmpty_iff] at hcompatible
        rw [hcompatible] at hheld₂
        cases hheld₂
    · rcases mem_take.mp h₂ with ⟨rfl, rfl, rfl⟩ | hheld₂
      · rw [not_exclusive hcompatible hheld₁] at hexclusive
        cases hexclusive
      · exact h.alone f' t₁ t₂ m₁ m₂ hheld₁ hexclusive hheld₂

theorem Proper.release (h : Proper exclusive table) (f : F) (t : T) :
    Proper exclusive (release table f t) := by
  refine ⟨fun f' => ?_, fun f' t₁ t₂ m₁ m₂ h₁ hexclusive h₂ => ?_⟩
  · unfold LockTable.release
    rw [Function.update_apply]
    split
    next => exact (h.once f).sublist (List.Sublist.map Prod.fst List.eraseP_sublist)
    next => exact h.once f'
  · exact h.alone f' t₁ t₂ m₁ m₂ ((mem_release h).mp h₁).2 hexclusive ((mem_release h).mp h₂).2

end Modes

end LockTable
