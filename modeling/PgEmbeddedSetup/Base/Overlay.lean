import Mathlib.Data.List.Basic

/-!
# Lists that are written at offsets

A file that several writers write at offsets of their own, which may leave holes behind its end. While
all of them write the same content, what agrees with it goes on to agree.
-/

namespace List

variable {α : Type} {fill : α} {l d : List α} {a : α} {i k : Nat}

/-- The list with `a` at the index. A gap before it is filled. -/
def putAt (fill : α) (l : List α) (i : Nat) (a : α) : List α :=
  if i < l.length then l.set i a else l ++ replicate (i - l.length) fill ++ [a]

theorem length_putAt : (l.putAt fill i a).length = max l.length (i + 1) := by
  unfold putAt
  split
  next h => rw [length_set]; omega
  next h => simp only [length_append, length_replicate, length_singleton]; omega

theorem getElem?_putAt_self : (l.putAt fill i a)[i]? = some a := by
  unfold putAt
  split
  next h => rw [getElem?_set_self h]
  next h =>
    have hlength : (l ++ replicate (i - l.length) fill).length = i := by
      simp only [length_append, length_replicate]
      omega
    rw [getElem?_append_right (by omega), hlength, Nat.sub_self, getElem?_cons_zero]

theorem getElem?_putAt_ne (hk : k < l.length) (hne : k ≠ i) : (l.putAt fill i a)[k]? = l[k]? := by
  unfold putAt
  split
  next h => rw [getElem?_set_ne hne.symm]
  next h => rw [append_assoc, getElem?_append_left hk]

/-- The first `k` elements are those of `d`. -/
def AgreesTo (l d : List α) (k : Nat) : Prop := ∀ i < k, l[i]? = d[i]?

theorem agreesTo_zero (l d : List α) : l.AgreesTo d 0 := fun i hi => absurd hi (Nat.not_lt_zero i)

theorem AgreesTo.lt_length (h : l.AgreesTo d k) (hk : k ≤ d.length) {j : Nat} (hj : j < k) :
    j < l.length := by
  have hget := h j hj
  rw [getElem?_eq_getElem (Nat.lt_of_lt_of_le hj hk)] at hget
  exact (getElem?_eq_some_iff.mp hget).1

theorem AgreesTo.putAt (h : l.AgreesTo d k) (hk : k ≤ d.length) (ha : d[i]? = some a) :
    (l.putAt fill i a).AgreesTo d k := by
  intro j hj
  by_cases heq : j = i
  · subst heq
    rw [getElem?_putAt_self, ha]
  · rw [getElem?_putAt_ne (h.lt_length hk hj) heq, h j hj]

theorem AgreesTo.putAt_next (h : l.AgreesTo d k) (ha : d[k]? = some a) :
    (l.putAt fill k a).AgreesTo d (k + 1) := by
  have hk : k < d.length := (getElem?_eq_some_iff.mp ha).1
  intro j hj
  rcases Nat.lt_succ_iff_lt_or_eq.mp hj with hlt | rfl
  · exact h.putAt (Nat.le_of_lt hk) ha j hlt
  · rw [getElem?_putAt_self, ha]

theorem AgreesTo.eq (h : l.AgreesTo d d.length) (hlength : l.length ≤ d.length) : l = d := by
  refine ext_getElem? fun i => ?_
  by_cases hi : i < d.length
  · exact h i hi
  · rw [getElem?_eq_none (by omega), getElem?_eq_none (by omega)]

theorem length_putAt_le (hl : l.length ≤ d.length) (ha : d[i]? = some a) :
    (l.putAt fill i a).length ≤ d.length := by
  have hi : i < d.length := (getElem?_eq_some_iff.mp ha).1
  rw [length_putAt]
  omega

end List
