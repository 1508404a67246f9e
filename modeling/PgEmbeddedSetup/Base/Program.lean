import Mathlib.Logic.Function.Basic
import Mathlib.Logic.Relation

/-!
# Programs over atomic instructions

A program is a tree: it has returned, or it has one instruction to execute next and goes on with the
reply. The instructions and their replies are parameters. What an instruction does is not part of the
program, so one program can be run alone (`Prog.trace`) or among others that are interleaved with it.
-/

namespace Program

/-- A program with instructions `I`, of which `i` is answered by an `R i`. -/
inductive Prog (I : Type) (R : I → Type) (α : Type) where
  | ret (a : α)
  | exec (i : I) (k : R i → Prog I R α)

variable {I : Type} {R : I → Type} {α β γ σ : Type}

namespace Prog

def bind : Prog I R α → (α → Prog I R β) → Prog I R β
  | .ret a, f => f a
  | .exec i k, f => .exec i fun r => (k r).bind f

instance : Monad (Prog I R) where
  pure := ret
  bind := bind

/-- The program of one instruction, which returns its reply. -/
def call (i : I) : Prog I R (R i) := .exec i .ret

@[simp] theorem pure_eq (a : α) : (pure a : Prog I R α) = .ret a := rfl

@[simp] theorem ret_bind (a : α) (f : α → Prog I R β) : (Prog.ret a >>= f) = f a := rfl

@[simp] theorem exec_bind (i : I) (k : R i → Prog I R α) (f : α → Prog I R β) :
    (Prog.exec i k >>= f) = .exec i fun r => k r >>= f := rfl

@[simp] theorem call_bind (i : I) (f : R i → Prog I R β) :
    (call i >>= f) = .exec i f := rfl

theorem bind_assoc (p : Prog I R α) (f : α → Prog I R β) (g : β → Prog I R γ) :
    (p >>= f) >>= g = p >>= fun a => f a >>= g := by
  induction p with
  | ret a => rfl
  | exec i k ih =>
    simp only [exec_bind]
    congr 1
    funext r
    exact ih r

theorem bind_ret (p : Prog I R α) : (p >>= ret) = p := by
  induction p with
  | ret a => rfl
  | exec i k ih =>
    rw [exec_bind]
    congr 1
    funext r
    exact ih r

instance : LawfulMonad (Prog I R) :=
  LawfulMonad.mk' (Prog I R) bind_ret (fun _ _ => rfl) bind_assoc

/-- Every instruction of the program has a property. -/
def All (P : I → Prop) : Prog I R α → Prop
  | .ret _ => True
  | .exec i k => P i ∧ ∀ r, (k r).All P

theorem All.bind {P : I → Prop} {p : Prog I R α} {f : α → Prog I R β} (hp : p.All P)
    (hf : ∀ a, (f a).All P) : (p >>= f).All P := by
  induction p with
  | ret a => exact hf a
  | exec i k ih => exact ⟨hp.1, fun r => ih r (hp.2 r)⟩

theorem All.imp {P P' : I → Prop} {p : Prog I R α} (h : p.All P) (hP : ∀ i, P i → P' i) :
    p.All P' := by
  induction p with
  | ret a => trivial
  | exec i k ih => exact ⟨hP i h.1, fun r => ih r (h.2 r)⟩

/-- The program in which each instruction is replaced by a program that answers it. -/
def interp {J : Type} {S : J → Type} (h : (i : I) → Prog J S (R i)) : Prog I R α → Prog J S α
  | .ret a => .ret a
  | .exec i k => h i >>= fun r => (k r).interp h

section Interp

variable {J : Type} {S : J → Type} {h : (i : I) → Prog J S (R i)}

theorem interp_bind (p : Prog I R α) (f : α → Prog I R β) :
    (p >>= f).interp h = p.interp h >>= fun a => (f a).interp h := by
  induction p with
  | ret a => rfl
  | exec i k ih =>
    rw [exec_bind, interp, interp, bind_assoc]
    congr 1
    funext r
    exact ih r

theorem All.interp {P : I → Prop} {P' : J → Prop} {p : Prog I R α} (hp : p.All P)
    (hh : ∀ i, P i → (h i).All P') : (p.interp h).All P' := by
  induction p with
  | ret a => trivial
  | exec i k ih => exact (hh i hp.1).bind fun r => ih r (hp.2 r)

end Interp

/-- Every value that the program can return has a property. -/
def Returns (Q : α → Prop) : Prog I R α → Prop
  | .ret a => Q a
  | .exec _ k => ∀ r, (k r).Returns Q

theorem Returns.bind {Q : β → Prop} {f : α → Prog I R β} (hf : ∀ a, (f a).Returns Q)
    (p : Prog I R α) : (p >>= f).Returns Q := by
  induction p with
  | ret a => exact hf a
  | exec i k ih => exact fun r => ih r

/-- Every instruction has one property and every value returned another. -/
def Meets (P : I → Prop) (Q : α → Prop) : Prog I R α → Prop
  | .ret a => Q a
  | .exec i k => P i ∧ ∀ r, (k r).Meets P Q

theorem Meets.bind {P : I → Prop} {Q : α → Prop} {Q' : β → Prop} {p : Prog I R α}
    {f : α → Prog I R β} (hp : p.Meets P Q) (hf : ∀ a, Q a → (f a).Meets P Q') :
    (p >>= f).Meets P Q' := by
  induction p with
  | ret a => exact hf a hp
  | exec i k ih => exact ⟨hp.1, fun r => ih r (hp.2 r)⟩

theorem All.meets {P : I → Prop} {p : Prog I R α} (hp : p.All P) : p.Meets P fun _ => True := by
  induction p with
  | ret a => trivial
  | exec i k ih => exact ⟨hp.1, fun r => ih r (hp.2 r)⟩

theorem Meets.interp {J : Type} {S : J → Type} {h : (i : I) → Prog J S (R i)} {P : I → Prop}
    {P' : J → Prop} {Q : α → Prop} {p : Prog I R α} (hp : p.Meets P Q)
    (hh : ∀ i, P i → (h i).All P') : (p.interp h).Meets P' Q := by
  induction p with
  | ret a => exact hp
  | exec i k ih => exact (hh i hp.1).meets.bind fun r _ => ih r (hp.2 r)

theorem Meets.foldlM {P : I → Prop} {Q : β → Prop} {f : β → α → Prog I R β} {as : List α}
    (hf : ∀ b a, Q b → (f b a).Meets P Q) {b : β} (hb : Q b) : (as.foldlM f b).Meets P Q := by
  induction as generalizing b with
  | nil => exact hb
  | cons a as ih => exact Meets.bind (hf b a hb) fun b' hb' => ih hb'

/-- Whatever the replies, the instructions of a run cost `n` together at most. -/
def CostAtMost (cost : I → Nat) : Nat → Prog I R α → Prop
  | _, .ret _ => True
  | n, .exec i k => cost i ≤ n ∧ ∀ r, (k r).CostAtMost cost (n - cost i)

theorem All.costAtMost {cost : I → Nat} {p : Prog I R α} (h : p.All fun i => cost i = 0) (n : Nat) :
    p.CostAtMost cost n := by
  induction p generalizing n with
  | ret a => trivial
  | exec i k ih =>
    refine ⟨by rw [h.1]; exact Nat.zero_le n, fun r => ?_⟩
    exact ih r (h.2 r) _

theorem CostAtMost.bind {cost : I → Nat} {n : Nat} {p : Prog I R α} {f : α → Prog I R β}
    (hp : p.CostAtMost cost n) (hf : ∀ a m, (f a).CostAtMost cost m) :
    (p >>= f).CostAtMost cost n := by
  induction p generalizing n with
  | ret a => exact hf a n
  | exec i k ih => exact ⟨hp.1, fun r => ih r (hp.2 r)⟩

/-! ### Runs of one program -/

/-- What a program executes when the `n`-th instruction from here on is answered by `os n`. -/
def trace (os : Nat → (i : I) → R i) : Nat → Prog I R α → List ((i : I) × R i)
  | _, .ret _ => []
  | n, .exec i k => ⟨i, os n i⟩ :: (k (os n i)).trace os (n + 1)

def result (os : Nat → (i : I) → R i) : Nat → Prog I R α → α
  | _, .ret a => a
  | n, .exec i k => (k (os n i)).result os (n + 1)

variable {os : Nat → (i : I) → R i}

@[simp] theorem trace_ret (n : Nat) (a : α) : (ret a : Prog I R α).trace os n = [] := rfl

@[simp] theorem trace_exec (n : Nat) (i : I) (k : R i → Prog I R α) :
    (exec i k).trace os n = ⟨i, os n i⟩ :: (k (os n i)).trace os (n + 1) := rfl

theorem trace_bind (n : Nat) (p : Prog I R α) (f : α → Prog I R β) :
    (p >>= f).trace os n =
      p.trace os n ++ (f (p.result os n)).trace os (n + (p.trace os n).length) := by
  induction p generalizing n with
  | ret a => rfl
  | exec i k ih =>
    rw [exec_bind, trace_exec, trace_exec, ih, List.cons_append, List.length_cons, Nat.add_right_comm,
      Nat.add_assoc, result]

theorem result_bind (n : Nat) (p : Prog I R α) (f : α → Prog I R β) :
    (p >>= f).result os n =
      (f (p.result os n)).result os (n + (p.trace os n).length) := by
  induction p generalizing n with
  | ret a => rfl
  | exec i k ih =>
    rw [exec_bind, result, result, ih, trace_exec, List.length_cons, Nat.add_right_comm,
      Nat.add_assoc]

theorem forall_trace_bind {P : (i : I) × R i → Prop} {n : Nat} {p : Prog I R α} {f : α → Prog I R β}
    (hp : ∀ e ∈ p.trace os n, P e) (hf : ∀ a m, ∀ e ∈ (f a).trace os m, P e) :
    ∀ e ∈ (p >>= f).trace os n, P e := by
  intro e he
  rw [trace_bind, List.mem_append] at he
  rcases he with he | he
  · exact hp e he
  · exact hf _ _ e he

theorem All.trace {P : I → Prop} {p : Prog I R α} (hp : p.All P) (n : Nat) :
    ∀ e ∈ p.trace os n, P e.1 := by
  induction p generalizing n with
  | ret a => exact fun e he => absurd he List.not_mem_nil
  | exec i k ih =>
    intro e he
    rcases List.mem_cons.mp he with rfl | he
    · exact hp.1
    · exact ih _ (hp.2 _) _ e he

/-- Each instruction of a run has a property at its number. -/
def EachStep (os : Nat → (i : I) → R i) (P : Nat → I → Prop) : Nat → Prog I R α → Prop
  | _, .ret _ => True
  | n, .exec i k => P n i ∧ (k (os n i)).EachStep os P (n + 1)

theorem All.eachStep {P : Nat → I → Prop} {p : Prog I R α} (hp : p.All fun i => ∀ n, P n i)
    (n : Nat) : p.EachStep os P n := by
  induction p generalizing n with
  | ret a => trivial
  | exec i k ih => exact ⟨hp.1 n, ih _ (hp.2 _) _⟩

end Prog

/-! ### One kind of event before another -/

section Precedes

variable {E : Type} {danger clears : E → Prop}

/-- Each dangerous event comes after one that clears it. -/
def Precedes (clears danger : E → Prop) (es : List E) : Prop :=
  ∀ pre e post, es = pre ++ e :: post → danger e → ∃ o ∈ pre, clears o

theorem precedes_of_forall_not {es : List E} (h : ∀ e ∈ es, ¬ danger e) :
    Precedes clears danger es := by
  intro pre e post hes hdanger
  refine absurd hdanger (h e ?_)
  rw [hes]
  exact List.mem_append_right _ List.mem_cons_self

theorem precedes_cons {e : E} {es : List E} :
    Precedes clears danger (e :: es) ↔ ¬ danger e ∧ (clears e ∨ Precedes clears danger es) := by
  constructor
  · intro h
    refine ⟨fun hdanger => ?_, or_iff_not_imp_left.mpr fun hclears pre e' post hes hdanger => ?_⟩
    · obtain ⟨o, ho, -⟩ := h [] e es rfl hdanger
      exact absurd ho List.not_mem_nil
    · obtain ⟨o, ho, hoc⟩ := h (e :: pre) e' post (by rw [hes]; rfl) hdanger
      rcases List.mem_cons.mp ho with rfl | ho
      · exact absurd hoc hclears
      · exact ⟨o, ho, hoc⟩
  · rintro ⟨hnot, hrest⟩ pre e' post hes hdanger
    cases pre with
    | nil =>
      cases hes
      exact absurd hdanger hnot
    | cons a pre =>
      rw [List.cons_append, List.cons.injEq] at hes
      obtain ⟨rfl, hes⟩ := hes
      rcases hrest with hclears | hrest
      · exact ⟨e, List.mem_cons_self, hclears⟩
      · obtain ⟨o, ho, hoc⟩ := hrest pre e' post hes hdanger
        exact ⟨o, List.mem_cons_of_mem _ ho, hoc⟩

theorem precedes_cons_neutral {e : E} {es : List E} (hdanger : ¬ danger e) (hclears : ¬ clears e) :
    Precedes clears danger (e :: es) ↔ Precedes clears danger es := by
  rw [precedes_cons]
  exact ⟨fun h => h.2.resolve_left hclears, fun h => ⟨hdanger, Or.inr h⟩⟩

/-- The program executes a dangerous instruction only after a clearing answer. -/
def Prog.Cleared (clears : (i : I) × R i → Prop) (danger : I → Prop) : Prog I R α → Prop
  | .ret _ => True
  | .exec i k => ¬ danger i ∧ ∀ r, clears ⟨i, r⟩ ∨ (k r).Cleared clears danger

theorem Prog.Cleared.bind {clears : (i : I) × R i → Prop} {danger : I → Prop} {p : Prog I R α}
    {f : α → Prog I R β} (hp : p.Cleared clears danger) (hf : ∀ a, (f a).Cleared clears danger) :
    (p >>= f).Cleared clears danger := by
  induction p with
  | ret a => exact hf a
  | exec i k ih => exact ⟨hp.1, fun r => (hp.2 r).imp_right (ih r)⟩

theorem Prog.Cleared.trace {clears : (i : I) × R i → Prop} {danger : I → Prop} {p : Prog I R α}
    (h : p.Cleared clears danger) (os : Nat → (i : I) → R i) (n : Nat) :
    Precedes clears (fun e => danger e.1) (p.trace os n) := by
  induction p generalizing n with
  | ret a => exact precedes_of_forall_not fun e he => absurd he List.not_mem_nil
  | exec i k ih => exact precedes_cons.mpr ⟨h.1, (h.2 _).imp_right fun hk => ih _ hk _⟩

end Precedes

end Program
