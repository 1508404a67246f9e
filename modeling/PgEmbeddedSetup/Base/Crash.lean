import PgEmbeddedSetup.Base.Program

/-!
# Programs that may be killed

A program of instructions is run by a function that carries out one instruction, with a choice that
settles what the instruction leaves open. The choices of a run are a list, and a run that comes to its
end stops there: so the runs of a program over all lists are its runs up to each point at which it may
be killed.

Programs here return an error or a value, and an error ends them. `Safely p s Q E C` says that a run of
`p` from `s` ends with a value in `Q`, or fails in a state of `E`, or is killed in a state of `C`. The
rules follow the program: an instruction is met in a state of `C`, and a loop keeps an invariant of
what it has done.
-/

namespace Crash

open Program

variable {I : Type} {R : I → Type} {α β ε σ χ : Type}

/-- The run with these choices, and none instead of a value if it is cut short. -/
def run (sem : σ → (i : I) → χ → R i × σ) : List χ → Prog I R α → σ → Option α × σ
  | _, .ret a, s => (some a, s)
  | [], .exec _ _, s => (none, s)
  | x :: xs, .exec i k, s => run sem xs (k (sem s i x).1) (sem s i x).2

/-- Each run ends with a value in `Q`, or is cut short in a state of `C`. -/
def wpc (sem : σ → (i : I) → χ → R i × σ) (Q : α → σ → Prop) (C : σ → Prop) :
    Prog I R α → σ → Prop
  | .ret a, s => Q a s
  | .exec i k, s => C s ∧ ∀ x, wpc sem Q C (k (sem s i x).1) (sem s i x).2

/-- The run with an endless supply of choices, which always comes to its end. -/
def finish (sem : σ → (i : I) → χ → R i × σ) : (Nat → χ) → Prog I R α → σ → α × σ
  | _, .ret a, s => (a, s)
  | xs, .exec i k, s => finish sem (fun n => xs (n + 1)) (k (sem s i (xs 0)).1) (sem s i (xs 0)).2

/-- The states before and after each instruction of that run. -/
def steps (sem : σ → (i : I) → χ → R i × σ) : (Nat → χ) → Prog I R α → σ → List (σ × σ)
  | _, .ret _, _ => []
  | xs, .exec i k, s =>
    (s, (sem s i (xs 0)).2) ::
      steps sem (fun n => xs (n + 1)) (k (sem s i (xs 0)).1) (sem s i (xs 0)).2

/-- The instructions of that run, with their replies. -/
def answers (sem : σ → (i : I) → χ → R i × σ) : (Nat → χ) → Prog I R α → σ → List ((i : I) × R i)
  | _, .ret _, _ => []
  | xs, .exec i k, s =>
    ⟨i, (sem s i (xs 0)).1⟩ ::
      answers sem (fun n => xs (n + 1)) (k (sem s i (xs 0)).1) (sem s i (xs 0)).2

variable {sem : σ → (i : I) → χ → R i × σ}

theorem finish_bind (x : χ) (p : Prog I R α) (f : α → Prog I R β) (s : σ) :
    finish sem (fun _ => x) (p >>= f) s =
      finish sem (fun _ => x) (f (finish sem (fun _ => x) p s).1) (finish sem (fun _ => x) p s).2 := by
  induction p generalizing s with
  | ret a => rfl
  | exec i k ih => exact ih _ _

theorem finish_foldlM {x : χ} {s : σ} {f : β → α → Prog I R β} {g : β → α → β}
    (h : ∀ b a, finish sem (fun _ => x) (f b a) s = (g b a, s)) (as : List α) (b : β) :
    finish sem (fun _ => x) (as.foldlM f b) s = (as.foldl g b, s) := by
  induction as generalizing b with
  | nil => rfl
  | cons a as ih => rw [List.foldlM_cons, finish_bind, h, ih, List.foldl_cons]

section Steps

variable {r : σ → σ → Prop}

end Steps

theorem finish_of_wpc {Q : α → σ → Prop} {C : σ → Prop} {p : Prog I R α} {s : σ}
    (h : wpc sem Q C p s) (xs : Nat → χ) : Q (finish sem xs p s).1 (finish sem xs p s).2 := by
  induction p generalizing s xs with
  | ret a => exact h
  | exec i k ih => exact ih _ (h.2 (xs 0)) _

theorem run_of_wpc {Q : α → σ → Prop} {C : σ → Prop} {p : Prog I R α} {s : σ}
    (h : wpc sem Q C p s) (xs : List χ) :
    (∃ a, (run sem xs p s).1 = some a ∧ Q a (run sem xs p s).2) ∨
      (run sem xs p s).1 = none ∧ C (run sem xs p s).2 := by
  induction p generalizing s xs with
  | ret a => exact Or.inl ⟨a, by cases xs <;> rfl, by cases xs <;> exact h⟩
  | exec i k ih =>
    cases xs with
    | nil => exact Or.inr ⟨rfl, h.1⟩
    | cons x xs => exact ih _ (h.2 x) xs

theorem wpc_mono {Q Q' : α → σ → Prop} {C C' : σ → Prop} (hQ : ∀ a s, Q a s → Q' a s)
    (hC : ∀ s, C s → C' s) {p : Prog I R α} {s : σ} (h : wpc sem Q C p s) : wpc sem Q' C' p s := by
  induction p generalizing s with
  | ret a => exact hQ a s h
  | exec i k ih => exact ⟨hC s h.1, fun x => ih _ (h.2 x)⟩

theorem wpc_bind {Q : β → σ → Prop} {C : σ → Prop} {p : Prog I R α} {f : α → Prog I R β} {s : σ}
    (h : wpc sem (fun a => wpc sem Q C (f a)) C p s) : wpc sem Q C (p >>= f) s := by
  induction p generalizing s with
  | ret a => exact h
  | exec i k ih => exact ⟨h.1, fun x => ih _ (h.2 x)⟩

/-! ### Programs that may fail -/

abbrev Fallible (ε : Type) (I : Type) (R : I → Type) (α : Type) := ExceptT ε (Prog I R) α

/-- An instruction with its reply. -/
def ask (i : I) : Fallible ε I R (R i) := ExceptT.lift (Prog.call i)

theorem finish_ask (x : χ) (i : I) (k : R i → Fallible ε I R α) (s : σ) :
    finish sem (fun _ => x) (ask i >>= k).run s =
      finish sem (fun _ => x) (k (sem s i x).1).run (sem s i x).2 :=
  rfl

theorem finish_ok {x : χ} {p : Fallible ε I R α} {a : α} {s s' : σ}
    (h : finish sem (fun _ => x) p.run s = (.ok a, s')) (f : α → Fallible ε I R β) :
    finish sem (fun _ => x) (p >>= f).run s = finish sem (fun _ => x) (f a).run s' := by
  show finish sem _ (p.run >>= ExceptT.bindCont f) s = _
  rw [finish_bind, h]
  rfl

/-- A run ends with a value in `Q`, or fails in a state of `E`, or is killed in a state of `C`. -/
def Safely (sem : σ → (i : I) → χ → R i × σ) (Q : α → σ → Prop) (E C : σ → Prop)
    (p : Fallible ε I R α) (s : σ) : Prop :=
  wpc sem (fun r s' => match r with
    | .ok a => Q a s'
    | .error _ => E s') C p.run s

variable {Q Q' : α → σ → Prop} {E E' C C' : σ → Prop} {s : σ}

theorem Safely.mono {p : Fallible ε I R α} (h : Safely sem Q E C p s) (hQ : ∀ a s, Q a s → Q' a s)
    (hE : ∀ s, E s → E' s) (hC : ∀ s, C s → C' s) : Safely sem Q' E' C' p s :=
  wpc_mono (fun r s' hr => by
    cases r with
    | ok a => exact hQ a s' hr
    | error e => exact hE s' hr) hC h

theorem Safely.bind {Q : β → σ → Prop} {M : α → σ → Prop} {p : Fallible ε I R α}
    {f : α → Fallible ε I R β} (h : Safely sem M E C p s)
    (hf : ∀ a s', M a s' → Safely sem Q E C (f a) s') : Safely sem Q E C (p >>= f) s := by
  show wpc sem _ C (p.run >>= ExceptT.bindCont f) s
  refine wpc_bind (wpc_mono (fun r s' hr => ?_) (fun _ h => h) h)
  cases r with
  | ok a => exact hf a s' hr
  | error e => exact hr

theorem safely_pure {a : α} (h : Q a s) : Safely sem Q E C (pure a : Fallible ε I R α) s := h

theorem safely_throw {e : ε} (h : E s) : Safely sem Q E C (throw e : Fallible ε I R α) s := h

theorem safely_ask {i : I} {Q : R i → σ → Prop} (hs : C s)
    (h : ∀ x, Q (sem s i x).1 (sem s i x).2) :
    Safely sem Q E C (ask i : Fallible ε I R (R i)) s :=
  ⟨hs, h⟩

theorem safely_call {i : I} {k : R i → Fallible ε I R α} (hs : C s)
    (h : ∀ x, Safely sem Q E C (k (sem s i x).1) (sem s i x).2) : Safely sem Q E C (ask i >>= k) s :=
  Safely.bind (M := fun r s' => Safely sem Q E C (k r) s') (safely_ask hs h) fun _ _ h => h

/-- A loop over a list: `L` relates what has been done to the state. -/
theorem safely_forM {L : List α → σ → Prop} {f : α → Fallible ε I R PUnit} {as : List α}
    (hf : ∀ before a after s', as = before ++ a :: after → L before s' →
      Safely sem (fun _ => L (before ++ [a])) E C (f a) s') (hs : L [] s) :
    Safely sem (fun _ => L as) E C (as.forM f) s := by
  suffices h : ∀ before after s', as = before ++ after → L before s' →
      Safely sem (fun _ => L as) E C (after.forM f) s' from h [] as s rfl hs
  intro before after
  induction after generalizing before with
  | nil =>
    intro s' heq hL
    rw [List.append_nil] at heq
    exact heq ▸ hL
  | cons a after ih =>
    intro s' heq hL
    refine Safely.bind (hf before a after s' heq hL) fun _ s'' hL' => ?_
    exact ih (before ++ [a]) s'' (by rw [heq]; simp) hL'

theorem Safely.run {p : Fallible ε I R α} (h : Safely sem Q E C p s) (xs : List χ) :
    (∃ a, (Crash.run sem xs p.run s).1 = some (.ok a) ∧ Q a (Crash.run sem xs p.run s).2) ∨
      (∃ e, (Crash.run sem xs p.run s).1 = some (.error e) ∧ E (Crash.run sem xs p.run s).2) ∨
      (Crash.run sem xs p.run s).1 = none ∧ C (Crash.run sem xs p.run s).2 := by
  rcases run_of_wpc h xs with ⟨r, hr, hQ⟩ | ⟨hnone, hC⟩
  · cases r with
    | ok a => exact Or.inl ⟨a, hr, hQ⟩
    | error e => exact Or.inr (Or.inl ⟨e, hr, hQ⟩)
  · exact Or.inr (Or.inr ⟨hnone, hC⟩)

theorem Safely.finish {p : Fallible ε I R α} (h : Safely sem Q E C p s) (xs : Nat → χ) :
    (∃ a, (Crash.finish sem xs p.run s).1 = .ok a ∧ Q a (Crash.finish sem xs p.run s).2) ∨
      ∃ e, (Crash.finish sem xs p.run s).1 = .error e ∧ E (Crash.finish sem xs p.run s).2 := by
  have hend := finish_of_wpc h xs
  cases hr : (Crash.finish sem xs p.run s).1 with
  | ok a =>
    rw [hr] at hend
    exact Or.inl ⟨a, rfl, hend⟩
  | error e =>
    rw [hr] at hend
    exact Or.inr ⟨e, rfl, hend⟩

end Crash
