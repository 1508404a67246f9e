import PgEmbeddedSetup.Base.Interleave

/-!
# What threads rely on

Each thread grants a relation between the states before and after its steps, and relies on what the
other threads grant. A predicate that the steps of the others keep is stable for a thread. `Ensures`
carries a predicate through the program of one thread: it holds before, each step is one that the
thread grants, and what is known between two steps is stable. Threads that keep to this can be put
together (`run_ensures`): after any interleaving the state has come about by granted steps, and a
thread that has returned has what its program ensures.

This is the knowledge of `Interleave` where to know is to know a stable predicate.
-/

namespace Interleave

open Program Transition

variable {I : Type} {R : I → Type} {α β σ χ T : Type}

/-- What the threads grant, under a condition on the steps of the run. -/
structure Contract (T I : Type) (R : I → Type) (σ χ : Type) where
  sem : Semantics T I R σ χ
  cond : σ → T → I → χ → Prop
  grants : T → σ → σ → Prop

namespace Contract

variable (ct : Contract T I R σ χ)

/-- The steps of the other threads keep the predicate. -/
def Stable (t : T) (P : σ → Prop) : Prop :=
  ∀ t', t' ≠ t → ∀ s s', ct.grants t' s s' → P s → P s'

/-- The steps of all threads keep the predicate. -/
def Lasting (P : σ → Prop) : Prop := ∀ t s s', ct.grants t s s' → P s → P s'

def Step (s s' : σ) : Prop := ∃ t, ct.grants t s s'

/-- An instruction asks for a predicate under which each of its steps is granted and leads to a stable
predicate. -/
def spec : Spec I R (T × (σ → Prop)) := fun i l Q =>
  ∀ x s r s', l.2 s → ct.cond s l.1 i x → ct.sem l.1 i x s = some (r, s') →
    ct.grants l.1 s s' ∧ ∃ P', ct.Stable l.1 P' ∧ P' s' ∧ Q r (l.1, P')

def Ensures (t : T) (p : Prog I R α) (P : σ → Prop) (Q : α → σ → Prop) : Prop :=
  wp ct.spec p (t, P) fun a l => l.1 = t ∧ ∀ s, l.2 s → Q a s

variable {ct} {t : T} {P P' F : σ → Prop} {Q Q' : α → σ → Prop}

theorem Lasting.stable (h : ct.Lasting F) (t : T) : ct.Stable t F := fun t' _ => h t'

theorem Stable.and (h : ct.Stable t P) (h' : ct.Stable t P') : ct.Stable t fun s => P s ∧ P' s :=
  fun t' ht s s' hgrants hs => ⟨h t' ht s s' hgrants hs.1, h' t' ht s s' hgrants hs.2⟩

theorem Lasting.and (h : ct.Lasting P) (h' : ct.Lasting P') : ct.Lasting fun s => P s ∧ P' s :=
  fun t s s' hgrants hs => ⟨h t s s' hgrants hs.1, h' t s s' hgrants hs.2⟩

theorem Lasting.steps {s s' : σ} (h : ct.Lasting F) (hsteps : Relation.ReflTransGen ct.Step s s')
    (hs : F s) : F s' := by
  induction hsteps with
  | refl => exact hs
  | tail _ hstep ih =>
    obtain ⟨t, hgrants⟩ := hstep
    exact h t _ _ hgrants ih

theorem lasting_pure {p : Prop} : ct.Lasting fun _ => p := fun _ _ _ _ h => h

theorem spec_monotone : ct.spec.Monotone := by
  rintro i ⟨t, P⟩ Q Q' hQ h x s r s' hs hcond hsem
  obtain ⟨hgrants, P', hstable, hP', hq⟩ := h x s r s' hs hcond hsem
  exact ⟨hgrants, P', hstable, hP', hQ _ _ hq⟩

/-! ### Rules -/

theorem Ensures.mono {p : Prog I R α} (h : ct.Ensures t p P Q) (hP : ∀ s, P' s → P s)
    (hQ : ∀ a s, Q a s → Q' a s) : ct.Ensures t p P' Q' := by
  cases p with
  | ret a => exact ⟨rfl, fun s hs => hQ a s (h.2 s (hP s hs))⟩
  | exec i k =>
    intro x s r s' hs hcond hsem
    obtain ⟨hgrants, M, hstable, hM, hk⟩ := h x s r s' (hP s hs) hcond hsem
    exact ⟨hgrants, M, hstable, hM,
      wp_mono spec_monotone (fun a l hl => ⟨hl.1, fun s hs => hQ a s (hl.2 s hs)⟩) hk⟩

theorem ensures_ret {a : α} (h : ∀ s, P s → Q a s) : ct.Ensures t (.ret a) P Q := ⟨rfl, h⟩

theorem Ensures.bind {Q : β → σ → Prop} {M : α → σ → Prop} {p : Prog I R α} {f : α → Prog I R β}
    (h : ct.Ensures t p P M) (hf : ∀ a, ct.Ensures t (f a) (M a) Q) :
    ct.Ensures t (p >>= f) P Q := by
  unfold Ensures
  rw [wp_bind]
  refine wp_mono spec_monotone ?_ h
  rintro a ⟨t', P'⟩ ⟨rfl, hP'⟩
  exact (hf a).mono hP' fun _ _ hq => hq

theorem ensures_exec {i : I} {k : R i → Prog I R α} {M : R i → σ → Prop}
    (h : ∀ x s r s', P s → ct.cond s t i x → ct.sem t i x s = some (r, s') →
      ct.grants t s s' ∧ M r s')
    (hstable : ∀ r, ct.Stable t (M r)) (hk : ∀ r, ct.Ensures t (k r) (M r) Q) :
    ct.Ensures t (.exec i k) P Q := by
  intro x s r s' hs hcond hsem
  obtain ⟨hgrants, hM⟩ := h x s r s' hs hcond hsem
  exact ⟨hgrants, M r, hstable r, hM, hk r⟩

theorem Ensures.frame {p : Prog I R α} (h : ct.Ensures t p P Q) (hF : ct.Lasting F) :
    ct.Ensures t p (fun s => P s ∧ F s) fun a s => Q a s ∧ F s := by
  induction p generalizing P with
  | ret a => exact ⟨rfl, fun s hs => ⟨h.2 s hs.1, hs.2⟩⟩
  | exec i k ih =>
    intro x s r s' hs hcond hsem
    obtain ⟨hgrants, M, hstable, hM, hk⟩ := h x s r s' hs.1 hcond hsem
    exact ⟨hgrants, fun s => M s ∧ F s, hstable.and (hF.stable t), ⟨hM, hF t s s' hgrants hs.2⟩,
      ih r hk⟩

theorem Ensures.and {p : Prog I R α} {Q' : α → σ → Prop} (h : ct.Ensures t p P Q)
    (h' : ct.Ensures t p P' Q') :
    ct.Ensures t p (fun s => P s ∧ P' s) fun a s => Q a s ∧ Q' a s := by
  induction p generalizing P P' with
  | ret a => exact ⟨rfl, fun s hs => ⟨h.2 s hs.1, h'.2 s hs.2⟩⟩
  | exec i k ih =>
    intro x s r s' hs hcond hsem
    obtain ⟨hgrants, M, hstable, hM, hk⟩ := h x s r s' hs.1 hcond hsem
    obtain ⟨-, M', hstable', hM', hk'⟩ := h' x s r s' hs.2 hcond hsem
    exact ⟨hgrants, fun s => M s ∧ M' s, hstable.and hstable', ⟨hM, hM'⟩, ih r hk hk'⟩

theorem ensures_exists {ι : Sort*} {p : Prog I R α} {P : ι → σ → Prop}
    (h : ∀ i, ct.Ensures t p (P i) Q) : ct.Ensures t p (fun s => ∃ i, P i s) Q := by
  cases p with
  | ret a => exact ⟨rfl, fun s ⟨i, hs⟩ => (h i).2 s hs⟩
  | exec i k =>
    rintro x s r s' ⟨j, hs⟩ hcond hsem
    exact h j x s r s' hs hcond hsem

theorem ensures_of_pre {φ : Prop} {p : Prog I R α} (hφ : ∀ s, P s → φ)
    (h : φ → ct.Ensures t p P Q) : ct.Ensures t p P Q := by
  have hexists : ct.Ensures t p (fun s => ∃ _ : φ, P s) Q := ensures_exists h
  exact hexists.mono (fun s hs => ⟨hφ s hs, hs⟩) fun _ _ hq => hq

theorem Ensures.of_ret {a : α} {s : σ} {p : Prog I R α} (h : ct.Ensures t p P Q) (hp : p = .ret a)
    (hs : P s) : Q a s := by
  subst hp
  exact h.2 s hs

/-- The contract for steps from states with a predicate. -/
def under (ct : Contract T I R σ χ) (F : σ → Prop) : Contract T I R σ χ :=
  { ct with cond := fun s t i x => F s ∧ ct.cond s t i x }

theorem Ensures.of_under {p : Prog I R α} (h : (ct.under F).Ensures t p P Q) (hF : ct.Lasting F) :
    ct.Ensures t p (fun s => P s ∧ F s) fun a s => Q a s ∧ F s := by
  induction p generalizing P with
  | ret a => exact ⟨rfl, fun s hs => ⟨h.2 s hs.1, hs.2⟩⟩
  | exec i k ih =>
    intro x s r s' hs hcond hsem
    obtain ⟨hgrants, M, hstable, hM, hk⟩ := h x s r s' hs.1 ⟨hs.2, hcond⟩ hsem
    have hstable' : ct.Stable t M := hstable
    exact ⟨hgrants, fun s => M s ∧ F s, hstable'.and (hF.stable t), ⟨hM, hF t s s' hgrants hs.2⟩,
      ih r hk⟩

/-- The contract under which one thread grants less. -/
def only (ct : Contract T I R σ χ) (t : T) (G : σ → σ → Prop) : Contract T I R σ χ :=
  { ct with grants := fun t' s s' => ct.grants t' s s' ∧ (t' = t → G s s') }

theorem stable_only {G : σ → σ → Prop} : (ct.only t G).Stable t P ↔ ct.Stable t P := by
  refine ⟨fun h t' ht s s' hgrants => h t' ht s s' ⟨hgrants, fun heq => absurd heq ht⟩, fun h => ?_⟩
  exact fun t' ht s s' hgrants => h t' ht s s' hgrants.1

theorem Ensures.of_only {G : σ → σ → Prop} {p : Prog I R α} (h : (ct.only t G).Ensures t p P Q) :
    ct.Ensures t p P Q := by
  induction p generalizing P with
  | ret a => exact h
  | exec i k ih =>
    intro x s r s' hs hcond hsem
    obtain ⟨hgrants, M, hstable, hM, hk⟩ := h x s r s' hs hcond hsem
    exact ⟨hgrants.1, M, stable_only.mp hstable, hM, ih r hk⟩

/-! ### Runs -/

section Runs

variable [DecidableEq T]

theorem sound (s₀ : σ) : Sound ct.sem ct.spec
    (fun s know => Relation.ReflTransGen ct.Step s₀ s ∧
      ∀ t, (know t).1 = t ∧ ct.Stable t (know t).2 ∧ (know t).2 s) ct.cond := by
  rintro t i x s know r s' ⟨hsteps, hknow⟩ hcond hsem Q hspec
  obtain ⟨ht, -, hP⟩ := hknow t
  have hstep := hspec x s r s' hP
  rw [ht] at hstep
  obtain ⟨hgrants, P', hstable', hP', hq⟩ := hstep hcond hsem
  refine ⟨(t, P'), hq, hsteps.tail ⟨t, hgrants⟩, fun t' => ?_⟩
  by_cases heq : t' = t
  · subst heq
    rw [Function.update_self]
    exact ⟨rfl, hstable', hP'⟩
  · obtain ⟨ht', hstable, hs⟩ := hknow t'
    rw [Function.update_of_ne heq]
    exact ⟨ht', hstable, hstable t (Ne.symm heq) s s' hgrants hs⟩

variable {P : T → σ → Prop} {Q : T → α → σ → Prop} {c c' : Config T I R α σ} {es : List (T × χ)}

theorem run_ensures (hthreads : ∀ t, ct.Ensures t (c.threads t) (P t) (Q t))
    (hstable : ∀ t, ct.Stable t (P t)) (hstart : ∀ t, P t c.state)
    (halong : Along (step ct.sem) (OnInstr ct.cond) es c) (hrun : run (step ct.sem) es c = some c') :
    Relation.ReflTransGen ct.Step c.state c'.state ∧
      ∀ t, ∃ P', ct.Stable t P' ∧ P' c'.state ∧ ct.Ensures t (c'.threads t) P' (Q t) := by
  have hknown : Known ct.spec
      (fun s know => Relation.ReflTransGen ct.Step c.state s ∧
        ∀ t, (know t).1 = t ∧ ct.Stable t (know t).2 ∧ (know t).2 s)
      (fun t a l => l.1 = t ∧ ∀ s, l.2 s → Q t a s) c :=
    ⟨fun t => (t, P t), ⟨.refl, fun t => ⟨rfl, hstable t, hstart t⟩⟩, hthreads⟩
  obtain ⟨know, ⟨hsteps, hknow⟩, hwp⟩ := run_sound (sound c.state) hknown halong hrun
  refine ⟨hsteps, fun t => ?_⟩
  obtain ⟨ht, hs, hP⟩ := hknow t
  refine ⟨(know t).2, hs, hP, ?_⟩
  have h := hwp t
  rw [show know t = (t, (know t).2) from Prod.ext ht rfl] at h
  exact h

end Runs

/-! ### Programs that return a value -/

section Values

open Crash (Fallible ask)

variable {ε : Type} {calm : Prop}

/-- Where the program ends with a value, `Q` holds, and where all is calm it does. -/
def Delivers (ct : Contract T I R σ χ) (calm : Prop) (t : T) (p : Fallible ε I R α) (P : σ → Prop)
    (Q : α → σ → Prop) : Prop :=
  ct.Ensures t p.run P fun r s => match r with
    | .ok a => Q a s
    | .error _ => ¬ calm

theorem Delivers.mono {p : Fallible ε I R α} (h : ct.Delivers calm t p P Q) (hP : ∀ s, P' s → P s)
    (hQ : ∀ a s, Q a s → Q' a s) : ct.Delivers calm t p P' Q' :=
  Ensures.mono h hP fun r s hr => by
    cases r with
    | ok a => exact hQ a s hr
    | error e => exact hr

theorem Delivers.bind {Q : β → σ → Prop} {M : α → σ → Prop} {p : Fallible ε I R α}
    {f : α → Fallible ε I R β} (h : ct.Delivers calm t p P M)
    (hf : ∀ a, ct.Delivers calm t (f a) (M a) Q) : ct.Delivers calm t (p >>= f) P Q := by
  show ct.Ensures t (p.run >>= ExceptT.bindCont f) P _
  refine Ensures.bind h fun r => ?_
  cases r with
  | ok a => exact hf a
  | error e => exact ensures_ret fun _ hs => hs

theorem delivers_pure {a : α} (h : ∀ s, P s → Q a s) :
    ct.Delivers calm t (pure a : Fallible ε I R α) P Q :=
  ensures_ret h

theorem delivers_throw {e : ε} (h : ∀ s, P s → ¬ calm) :
    ct.Delivers calm t (throw e : Fallible ε I R α) P Q :=
  ensures_ret h

theorem delivers_ask {i : I} {k : R i → Fallible ε I R α} {M : R i → σ → Prop}
    (h : ∀ x s r s', P s → ct.cond s t i x → ct.sem t i x s = some (r, s') →
      ct.grants t s s' ∧ M r s')
    (hstable : ∀ r, ct.Stable t (M r)) (hk : ∀ r, ct.Delivers calm t (k r) (M r) Q) :
    ct.Delivers calm t (ask i >>= k) P Q :=
  ensures_exec h hstable hk

theorem Delivers.frame {p : Fallible ε I R α} (h : ct.Delivers calm t p P Q) (hF : ct.Lasting F) :
    ct.Delivers calm t p (fun s => P s ∧ F s) fun a s => Q a s ∧ F s :=
  (Ensures.frame h hF).mono (fun _ hs => hs) fun r s hr => by
    cases r with
    | ok a => exact hr
    | error e => exact hr.1

theorem Delivers.of_only {G : σ → σ → Prop} {p : Fallible ε I R α}
    (h : (ct.only t G).Delivers calm t p P Q) : ct.Delivers calm t p P Q :=
  Ensures.of_only h

theorem delivers_exists {ι : Sort*} {p : Fallible ε I R α} {P : ι → σ → Prop}
    (h : ∀ i, ct.Delivers calm t p (P i) Q) : ct.Delivers calm t p (fun s => ∃ i, P i s) Q :=
  ensures_exists h

theorem delivers_of_pre {φ : Prop} {p : Fallible ε I R α} (hφ : ∀ s, P s → φ)
    (h : φ → ct.Delivers calm t p P Q) : ct.Delivers calm t p P Q :=
  ensures_of_pre hφ h

end Values

end Contract

end Interleave
