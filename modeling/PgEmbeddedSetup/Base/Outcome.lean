import Mathlib.Tactic

/-!
# Programs that may stop

`EStateM ε σ α` read as a program over a state `σ` that ends with a value of `α`, or stops with an
`ε`. Nothing is rolled back: a program that stops leaves the state it had reached. A panic, an I/O
error and a killed process are all of this kind.

`Ends m s Q E` says how `m` ends from `s`: with a value and a state in `Q`, or stopped in a state in
`E`. The lemmas below compute it along the structure of a program, so that the specification of a
program is put together from the specifications of its parts.
-/

namespace Outcome

variable {ε σ α β : Type}

/-- How `m` ends from `s`: a value and a state in `Q`, or a stop and a state in `E`. -/
def Ends (m : EStateM ε σ α) (s : σ) (Q : α → σ → Prop) (E : ε → σ → Prop) : Prop :=
  match m s with
  | .ok a s' => Q a s'
  | .error e s' => E e s'

theorem ends_of_ok {m : EStateM ε σ α} {s s' : σ} {a : α} {Q : α → σ → Prop} {E : ε → σ → Prop}
    (h : m s = .ok a s') : Ends m s Q E ↔ Q a s' := by
  simp only [Ends, h]

theorem ends_of_error {m : EStateM ε σ α} {s s' : σ} {e : ε} {Q : α → σ → Prop}
    {E : ε → σ → Prop} (h : m s = .error e s') : Ends m s Q E ↔ E e s' := by
  simp only [Ends, h]

theorem Ends.mono {m : EStateM ε σ α} {s : σ} {Q Q' : α → σ → Prop} {E E' : ε → σ → Prop}
    (h : Ends m s Q E) (hQ : ∀ a s', Q a s' → Q' a s') (hE : ∀ e s', E e s' → E' e s') :
    Ends m s Q' E' := by
  unfold Ends at h ⊢
  cases hm : m s with
  | ok a s' => rw [hm] at h; exact hQ a s' h
  | error e s' => rw [hm] at h; exact hE e s' h

/-! ### The operations -/

theorem bind_apply (m : EStateM ε σ α) (f : α → EStateM ε σ β) (s : σ) :
    (m >>= f) s = match m s with
      | .ok a s' => f a s'
      | .error e s' => .error e s' := rfl

theorem bind_ok {m : EStateM ε σ α} {f : α → EStateM ε σ β} {s s' : σ} {a : α}
    (h : m s = .ok a s') : (m >>= f) s = f a s' := by
  rw [bind_apply, h]

theorem bind_error {m : EStateM ε σ α} {f : α → EStateM ε σ β} {s s' : σ} {e : ε}
    (h : m s = .error e s') : (m >>= f) s = .error e s' := by
  rw [bind_apply, h]

@[simp] theorem pure_apply (a : α) (s : σ) : (pure a : EStateM ε σ α) s = .ok a s := rfl

@[simp] theorem throw_apply (e : ε) (s : σ) :
    (throw e : EStateM ε σ α) s = .error e s := rfl

@[simp] theorem get_apply (s : σ) : (get : EStateM ε σ σ) s = .ok s s := rfl

@[simp] theorem modify_apply (f : σ → σ) (s : σ) :
    (modify f : EStateM ε σ PUnit) s = .ok ⟨⟩ (f s) := rfl

@[simp] theorem ends_pure (a : α) (s : σ) (Q : α → σ → Prop) (E : ε → σ → Prop) :
    Ends (pure a : EStateM ε σ α) s Q E ↔ Q a s := Iff.rfl

@[simp] theorem ends_get (s : σ) (Q : σ → σ → Prop) (E : ε → σ → Prop) :
    Ends (get : EStateM ε σ σ) s Q E ↔ Q s s := Iff.rfl

theorem ends_bind (m : EStateM ε σ α) (f : α → EStateM ε σ β) (s : σ) (Q : β → σ → Prop)
    (E : ε → σ → Prop) :
    Ends (m >>= f) s Q E ↔ Ends m s (fun a s' => Ends (f a) s' Q E) E := by
  unfold Ends
  rw [bind_apply]
  cases m s <;> rfl

/-- The rule of composition: what the first program ends with is what the second starts from. -/
theorem Ends.bind {m : EStateM ε σ α} {f : α → EStateM ε σ β} {s : σ} {R : α → σ → Prop}
    {Q : β → σ → Prop} {E : ε → σ → Prop} (hm : Ends m s R E)
    (hf : ∀ a s', R a s' → Ends (f a) s' Q E) : Ends (m >>= f) s Q E :=
  (ends_bind m f s Q E).2 (hm.mono hf fun _ _ h => h)

/-- The state in the end, whether the program ends with a value or stops. -/
def final (m : EStateM ε σ α) (s : σ) : σ :=
  match m s with
  | .ok _ s' => s'
  | .error _ s' => s'

theorem final_of_ok {m : EStateM ε σ α} {s s' : σ} {a : α} (h : m s = .ok a s') :
    final m s = s' := by
  rw [final, h]

theorem final_of_error {m : EStateM ε σ α} {s s' : σ} {e : ε} (h : m s = .error e s') :
    final m s = s' := by
  rw [final, h]

theorem Ends.final {m : EStateM ε σ α} {s : σ} {P : σ → Prop}
    (h : Ends m s (fun _ => P) (fun _ => P)) : P (final m s) := by
  unfold Outcome.final
  cases hm : m s with
  | ok a s' => exact (ends_of_ok hm).mp h
  | error e s' => exact (ends_of_error hm).mp h

/-! ### Without a state -/

theorem except_bind_eq_ok {x : Except ε α} {f : α → Except ε β} {b : β} :
    (x >>= f) = .ok b ↔ ∃ a, x = .ok a ∧ f a = .ok b := by
  cases x with
  | error e => simp [bind, Except.bind]
  | ok a => simp [bind, Except.bind]

end Outcome
