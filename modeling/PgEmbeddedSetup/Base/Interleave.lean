import PgEmbeddedSetup.Base.Crash
import PgEmbeddedSetup.Base.Transition

/-!
# Interleaved programs

Threads run programs over one shared state. An event names the thread that executes its next
instruction, and a choice that settles what the instruction leaves open. An instruction may have to
wait: then the event cannot happen.

Proofs follow the programs, not the interleavings. Each thread is given knowledge, a value that
changes only with its own instructions; `Spec` says which knowledge an instruction asks for and what
knowledge its reply leaves, and `wp` carries that through a program. If the spec of each instruction
is sound for an invariant that relates the shared state to the knowledge of all threads, then after
any interleaving the invariant holds and each thread knows what the rest of its program asks for
(`run_sound`).
-/

namespace Interleave

open Program Transition

variable {I : Type} {R : I → Type} {α β σ χ T L : Type}

structure Config (T I : Type) (R : I → Type) (α σ : Type) where
  state : σ
  threads : T → Prog I R α

/-- What an instruction does in a thread, or none where it has to wait or the choice does not
apply. -/
abbrev Semantics (T I : Type) (R : I → Type) (σ χ : Type) :=
  T → (i : I) → χ → σ → Option (R i × σ)

variable [DecidableEq T]

def step (sem : Semantics T I R σ χ) (c : Config T I R α σ) (e : T × χ) :
    Option (Config T I R α σ) :=
  match c.threads e.1 with
  | .ret _ => none
  | .exec i k => (sem e.1 i e.2 c.state).map fun a =>
      ⟨a.2, Function.update c.threads e.1 (k a.1)⟩

theorem step_cases {sem : Semantics T I R σ χ} {c c' : Config T I R α σ} {e : T × χ}
    (h : step sem c e = some c') :
    ∃ i k r s, c.threads e.1 = .exec i k ∧ sem e.1 i e.2 c.state = some (r, s) ∧
      c' = ⟨s, Function.update c.threads e.1 (k r)⟩ := by
  unfold step at h
  split at h
  next => cases h
  next i k hthread =>
    obtain ⟨⟨r, s⟩, hsem, rfl⟩ := Option.map_eq_some_iff.mp h
    exact ⟨i, k, r, s, hthread, hsem, rfl⟩

/-! ### Knowledge -/

/-- The knowledge an instruction asks for, given what must be known after each reply. -/
abbrev Spec (I : Type) (R : I → Type) (L : Type) :=
  (i : I) → L → (R i → L → Prop) → Prop

/-- The knowledge a program asks for, given what must be known when it returns. -/
def wp (spec : Spec I R L) : Prog I R α → L → (α → L → Prop) → Prop
  | .ret a, l, Q => Q a l
  | .exec i k, l, Q => spec i l fun r l' => wp spec (k r) l' Q

/-- More may be left open after an instruction than is needed. -/
def Spec.Monotone (spec : Spec I R L) : Prop :=
  ∀ i l (Q Q' : R i → L → Prop), (∀ r l', Q r l' → Q' r l') → spec i l Q → spec i l Q'

theorem wp_mono {spec : Spec I R L} (hspec : spec.Monotone) {p : Prog I R α} {l : L}
    {Q Q' : α → L → Prop} (hQ : ∀ a l', Q a l' → Q' a l') (h : wp spec p l Q) : wp spec p l Q' := by
  induction p generalizing l with
  | ret a => exact hQ a l h
  | exec i k ih => exact hspec i l _ _ (fun r l' => ih r) h

theorem wp_bind {spec : Spec I R L} (p : Prog I R α) (f : α → Prog I R β) (l : L)
    (Q : β → L → Prop) :
    wp spec (p >>= f) l Q = wp spec p l fun a l' => wp spec (f a) l' Q := by
  induction p generalizing l with
  | ret a => rfl
  | exec i k ih =>
    rw [Prog.exec_bind, wp, wp]
    congr 1
    funext r l'
    exact ih r l'

/-- In each state that the invariant relates to the knowledge of the threads, an instruction whose
spec is met gives the thread the knowledge that its spec promises, and keeps the invariant. -/
def Sound (sem : Semantics T I R σ χ) (spec : Spec I R L) (J : σ → (T → L) → Prop)
    (cond : σ → T → I → χ → Prop) : Prop :=
  ∀ t i x s know r s', J s know → cond s t i x → sem t i x s = some (r, s') →
    ∀ Q : R i → L → Prop, spec i (know t) Q →
      ∃ l, Q r l ∧ J s' (Function.update know t l)

/-- The condition of the instruction that an event executes. -/
def OnInstr (cond : σ → T → I → χ → Prop) (c : Config T I R α σ) (e : T × χ) : Prop :=
  ∀ i k, c.threads e.1 = .exec i k → cond c.state e.1 i e.2

omit [DecidableEq T] in
theorem OnInstr.of_eq {cond : σ → T → I → χ → Prop} {c : Config T I R α σ} {e : T × χ} {i : I}
    {k : R i → Prog I R α} (h : c.threads e.1 = .exec i k) (hcond : cond c.state e.1 i e.2) :
    OnInstr cond c e := by
  intro i' k' h'
  cases h.symm.trans h'
  exact hcond

/-- The threads know what the rest of their programs ask for. -/
def Known (spec : Spec I R L) (J : σ → (T → L) → Prop) (Q : T → α → L → Prop)
    (c : Config T I R α σ) : Prop :=
  ∃ know, J c.state know ∧ ∀ t, wp spec (c.threads t) (know t) (Q t)

theorem step_sound {sem : Semantics T I R σ χ} {spec : Spec I R L} {J : σ → (T → L) → Prop}
    {cond : σ → T → I → χ → Prop} (hsound : Sound sem spec J cond) {Q : T → α → L → Prop}
    {c c' : Config T I R α σ} {e : T × χ} (h : Known spec J Q c) (hcond : OnInstr cond c e)
    (hstep : step sem c e = some c') : Known spec J Q c' := by
  obtain ⟨know, hJ, hwp⟩ := h
  obtain ⟨i, k, r, s, hthread, hsem, rfl⟩ := step_cases hstep
  have hspec := hwp e.1
  rw [hthread] at hspec
  obtain ⟨l, hl, hJ'⟩ := hsound e.1 i e.2 c.state know r s hJ (hcond i k hthread) hsem _ hspec
  refine ⟨Function.update know e.1 l, hJ', fun t => ?_⟩
  by_cases ht : t = e.1
  · subst ht
    simpa only [Function.update_self] using hl
  · simpa only [Function.update_of_ne ht] using hwp t

theorem run_sound {sem : Semantics T I R σ χ} {spec : Spec I R L} {J : σ → (T → L) → Prop}
    {cond : σ → T → I → χ → Prop} (hsound : Sound sem spec J cond) {Q : T → α → L → Prop}
    {c c' : Config T I R α σ} {es : List (T × χ)} (h : Known spec J Q c)
    (halong : Along (step sem) (OnInstr cond) es c) (hrun : run (step sem) es c = some c') :
    Known spec J Q c' :=
  run_invariant (fun _ _ _ hc hcond hstep => step_sound hsound hc hcond hstep) h halong hrun

/-! ### Programs by their instructions -/

section Programs

omit [DecidableEq T]

variable {J : Type} {S : J → Type} {spec : Spec J S L} {h : (i : I) → Prog J S (R i)}

/-- An instruction that is replaced by a program asks for what the program asks for. -/
theorem wp_interp (p : Prog I R α) (l : L) (Q : α → L → Prop) :
    wp spec (p.interp h) l Q = wp (fun i l' Q' => wp spec (h i) l' Q') p l Q := by
  induction p generalizing l with
  | ret a => rfl
  | exec i k ih =>
    rw [Prog.interp, wp_bind, wp]
    congr 1
    funext r l'
    exact ih r l'

theorem wp_of_meets {spec : Spec I R L} {P : I → Prop} {Q : α → Prop}
    (hP : ∀ i l (Q' : R i → L → Prop), P i → (∀ r, Q' r l) → spec i l Q') {p : Prog I R α}
    (hp : p.Meets P Q) (l : L) : wp spec p l fun a l' => Q a ∧ l' = l := by
  induction p with
  | ret a => exact ⟨hp, rfl⟩
  | exec i k ih => exact hP i l _ hp.1 fun r => ih r (hp.2 r)

theorem wp_embed {K : Type} {spec : Spec I R L} {spec' : Spec I R K} (hspec : spec'.Monotone)
    (f : L → K) (h : ∀ i l (Q : R i → L → Prop), spec i l Q →
      spec' i (f l) fun r k => ∃ l', k = f l' ∧ Q r l') {p : Prog I R α} {l : L}
    {Q : α → L → Prop} (hp : wp spec p l Q) :
    wp spec' p (f l) fun a k => ∃ l', k = f l' ∧ Q a l' := by
  induction p generalizing l with
  | ret a => exact ⟨l, rfl, hp⟩
  | exec i k ih =>
    refine hspec i _ _ _ ?_ (h i l _ hp)
    rintro r _ ⟨l', rfl, hk⟩
    exact ih r hk

theorem wp_mapM {spec : Spec I R L} (hspec : spec.Monotone) {K : L → Prop} {P : β → Prop}
    {f : α → Prog I R β} {as : List α}
    (hf : ∀ a ∈ as, ∀ l, K l → wp spec (f a) l fun b l' => P b ∧ K l') {l : L} (hl : K l) :
    wp spec (as.mapM f) l fun bs l' => (∀ b ∈ bs, P b) ∧ K l' := by
  induction as generalizing l with
  | nil => exact ⟨fun b hb => absurd hb List.not_mem_nil, hl⟩
  | cons a as ih =>
    rw [List.mapM_cons, wp_bind]
    refine wp_mono hspec (fun b l' hb => ?_) (hf a List.mem_cons_self l hl)
    rw [wp_bind]
    refine wp_mono hspec (fun bs l'' hbs => ⟨fun b' hb' => ?_, hbs.2⟩)
      (ih (fun a' ha' => hf a' (List.mem_cons_of_mem a ha')) hb.2)
    rcases List.mem_cons.mp hb' with rfl | hb'
    · exact hb.1
    · exact hbs.1 b' hb'

end Programs

/-! ### Programs that return a value -/

section Values

omit [DecidableEq T]

open Crash (Fallible ask)

variable {ε : Type} {spec : Spec I R L} {Q Q' : α → L → Prop} {l : L}

/-- The program ends with a value, and `Q` holds then. -/
def Surely (spec : Spec I R L) (Q : α → L → Prop) (p : Fallible ε I R α) (l : L) : Prop :=
  wp spec p.run l fun r l' => ∃ a, r = .ok a ∧ Q a l'

theorem Surely.mono (hspec : spec.Monotone) {p : Fallible ε I R α} (h : Surely spec Q p l)
    (hQ : ∀ a l', Q a l' → Q' a l') : Surely spec Q' p l :=
  wp_mono hspec (fun _ l' ⟨a, ha, hq⟩ => ⟨a, ha, hQ a l' hq⟩) h

theorem Surely.bind (hspec : spec.Monotone) {Q : β → L → Prop} {M : α → L → Prop}
    {p : Fallible ε I R α} {f : α → Fallible ε I R β} (h : Surely spec M p l)
    (hf : ∀ a l', M a l' → Surely spec Q (f a) l') : Surely spec Q (p >>= f) l := by
  show wp spec (p.run >>= ExceptT.bindCont f) l _
  rw [wp_bind]
  refine wp_mono hspec (fun r l' hr => ?_) h
  obtain ⟨a, rfl, ha⟩ := hr
  exact hf a l' ha

theorem surely_pure {a : α} (h : Q a l) : Surely spec Q (pure a : Fallible ε I R α) l :=
  ⟨a, rfl, h⟩

theorem surely_call {i : I} {k : R i → Fallible ε I R α}
    (h : spec i l fun r l' => Surely spec Q (k r) l') : Surely spec Q (ask i >>= k) l :=
  h

/-- A loop over a list: `K` relates what has been done to the knowledge. -/
theorem surely_forM (hspec : spec.Monotone) {K : List α → L → Prop}
    {f : α → Fallible ε I R PUnit} {as : List α}
    (hf : ∀ before a after l', as = before ++ a :: after → K before l' →
      Surely spec (fun _ => K (before ++ [a])) (f a) l') (hl : K [] l) :
    Surely spec (fun _ => K as) (as.forM f) l := by
  suffices h : ∀ before after l', as = before ++ after → K before l' →
      Surely spec (fun _ => K as) (after.forM f) l' from h [] as l rfl hl
  intro before after
  induction after generalizing before with
  | nil =>
    intro l' heq hK
    rw [List.append_nil] at heq
    exact ⟨_, rfl, heq ▸ hK⟩
  | cons a after ih =>
    intro l' heq hK
    refine Surely.bind hspec (hf before a after l' heq hK) fun _ l'' hK' => ?_
    exact ih (before ++ [a]) l'' (by rw [heq]; simp) hK'

end Values

end Interleave
