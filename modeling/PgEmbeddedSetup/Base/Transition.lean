import Mathlib.Data.Option.Basic

/-!
# Runs of a transition function

A system is a function from a state and an event to the next state, or to none where the event
cannot happen. What is left open in a step is part of the event. `run_invariant` is the induction
that carries an invariant along a run of which every step meets a condition.
-/

namespace Transition

variable {σ ε : Type} (step : σ → ε → Option σ)

def run : List ε → σ → Option σ
  | [], s => some s
  | e :: es, s => (step s e).bind (run es)

/-- Every step of the run meets the condition. -/
def Along (cond : σ → ε → Prop) : List ε → σ → Prop
  | [], _ => True
  | e :: es, s => cond s e ∧ ∀ s', step s e = some s' → Along cond es s'

variable {step}

theorem run_cons {e : ε} {s s' : σ} (h : step s e = some s') (es : List ε) :
    run step (e :: es) s = run step es s' := by
  rw [run, h, Option.bind_some]

theorem along_cons {cond : σ → ε → Prop} {e : ε} {es : List ε} {s s' : σ}
    (h : step s e = some s') (hcond : cond s e) (halong : Along step cond es s') :
    Along step cond (e :: es) s :=
  ⟨hcond, fun _ h' => Option.some.inj (h.symm.trans h') ▸ halong⟩

theorem along_of_mem {cond : σ → ε → Prop} {es : List ε} (h : ∀ e ∈ es, ∀ s, cond s e) (s : σ) :
    Along step cond es s := by
  induction es generalizing s with
  | nil => trivial
  | cons e es ih =>
    exact ⟨h e List.mem_cons_self s, fun s' _ => ih (fun e he => h e (List.mem_cons_of_mem _ he)) s'⟩

theorem along_append {cond : σ → ε → Prop} {es es' : List ε} {s : σ} (h : Along step cond es s)
    (h' : ∀ s', run step es s = some s' → Along step cond es' s') :
    Along step cond (es ++ es') s := by
  induction es generalizing s with
  | nil => exact h' s rfl
  | cons e es ih =>
    refine ⟨h.1, fun s₁ hs₁ => ih (h.2 s₁ hs₁) fun s' hrun => h' s' ?_⟩
    rwa [run_cons hs₁]

theorem Along.mono {cond cond' : σ → ε → Prop} (hcond : ∀ s e, cond s e → cond' s e) {es : List ε}
    {s : σ} (h : Along step cond es s) : Along step cond' es s := by
  induction es generalizing s with
  | nil => trivial
  | cons e es ih => exact ⟨hcond s e h.1, fun s' hs' => ih (h.2 s' hs')⟩

theorem run_append {es es' : List ε} {s s' : σ} (h : run step es s = some s') :
    run step (es ++ es') s = run step es' s' := by
  induction es generalizing s with
  | nil =>
    obtain rfl : s = s' := Option.some.inj h
    rfl
  | cons e es ih =>
    obtain ⟨s₁, hstep, hrun⟩ := Option.bind_eq_some_iff.mp h
    rw [List.cons_append, run_cons hstep]
    exact ih hrun

theorem run_eq_some_cons {e : ε} {es : List ε} {s s' : σ} (h : run step (e :: es) s = some s') :
    ∃ s₁, step s e = some s₁ ∧ run step es s₁ = some s' :=
  Option.bind_eq_some_iff.mp h

/-- What holds at first and is preserved by each step holds after a run. -/
theorem run_preserves {Inv : σ → Prop} (hstep : ∀ s e s', Inv s → step s e = some s' → Inv s')
    {es : List ε} {s s' : σ} (hinv : Inv s) (hrun : run step es s = some s') : Inv s' := by
  induction es generalizing s with
  | nil =>
    obtain rfl : s = s' := Option.some.inj hrun
    exact hinv
  | cons e es ih =>
    obtain ⟨s₁, hs₁, hrest⟩ := run_eq_some_cons hrun
    exact ih (hstep s e s₁ hinv hs₁) hrest

/-- The same where only the steps that meet a condition preserve it, and the steps of the run do. -/
theorem run_invariant {cond : σ → ε → Prop} {Inv : σ → Prop}
    (hstep : ∀ s e s', Inv s → cond s e → step s e = some s' → Inv s') {es : List ε} {s s' : σ}
    (hinv : Inv s) (halong : Along step cond es s) (hrun : run step es s = some s') : Inv s' := by
  induction es generalizing s with
  | nil =>
    obtain rfl : s = s' := Option.some.inj hrun
    exact hinv
  | cons e es ih =>
    obtain ⟨s₁, hs₁, hrest⟩ := run_eq_some_cons hrun
    exact ih (hstep s e s₁ hinv halong.1 hs₁) (halong.2 s₁ hs₁) hrest

/-- The same for an invariant that speaks of the events so far. -/
theorem run_recorded {cond : σ → ε → Prop} {Inv : List ε → σ → Prop}
    (hstep : ∀ past s e s', Inv past s → cond s e → step s e = some s' → Inv (past ++ [e]) s')
    {past es : List ε} {s s' : σ} (hinv : Inv past s) (halong : Along step cond es s)
    (hrun : run step es s = some s') : Inv (past ++ es) s' := by
  induction es generalizing past s with
  | nil =>
    obtain rfl : s = s' := Option.some.inj hrun
    rw [List.append_nil]
    exact hinv
  | cons e es ih =>
    obtain ⟨s₁, hs₁, hrest⟩ := run_eq_some_cons hrun
    have hend := ih (hstep past s e s₁ hinv halong.1 hs₁) (halong.2 s₁ hs₁) hrest
    rwa [List.append_assoc] at hend

end Transition
