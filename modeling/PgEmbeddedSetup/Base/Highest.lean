import Mathlib.Data.List.Sort
import Mathlib.Data.List.Lex
import Mathlib.Data.Prod.Lex
import Mathlib.Order.WithBot

/-!
# The last of a sorted list

A list is sorted by a comparison that ranks its elements in a linear order, and the last one is taken. It
has the highest rank, and where no two elements share a rank it only depends on which elements there
are. The greatest element of a list that is not sorted is kept by a fold.
-/

namespace List

variable {α β : Type} [LinearOrder β]

/-- `compare a b ≠ gt` decides whether `a` stays before `b`. -/
def sortBy (compare : α → α → Ordering) (l : List α) : List α :=
  l.insertionSort fun a b => compare a b ≠ .gt

/-- The comparison is that of the ranks. -/
def Ranks (rank : α → β) (compare : α → α → Ordering) : Prop :=
  ∀ a b, compare a b = cmp (rank a) (rank b)

section Ranked

variable {rank : α → β} {compare : α → α → Ordering} {l l' : List α} {a b : α}

theorem Ranks.ne_gt_iff (h : Ranks rank compare) : compare a b ≠ .gt ↔ rank a ≤ rank b := by
  rw [h, Ne, cmp_eq_gt_iff, not_lt]

theorem pairwise_sortBy (h : Ranks rank compare) (l : List α) :
    (l.sortBy compare).Pairwise fun a b => rank a ≤ rank b := by
  have htotal : Std.Total fun a b => compare a b ≠ .gt :=
    ⟨fun a b => by rw [h.ne_gt_iff, h.ne_gt_iff]; exact le_total _ _⟩
  have htrans : IsTrans α fun a b => compare a b ≠ .gt :=
    ⟨fun a b c hab hbc => h.ne_gt_iff.mpr (h.ne_gt_iff.mp hab |>.trans (h.ne_gt_iff.mp hbc))⟩
  exact (pairwise_insertionSort (fun a b => compare a b ≠ .gt) l).imp h.ne_gt_iff.mp

theorem mem_sortBy : a ∈ l.sortBy compare ↔ a ∈ l := mem_insertionSort _

theorem getLast?_sortBy_eq_none : (l.sortBy compare).getLast? = none ↔ l = [] := by
  rw [getLast?_eq_none_iff]
  constructor
  · intro h
    rw [← length_eq_zero_iff, ← length_insertionSort (fun a b => compare a b ≠ .gt) l]
    exact length_eq_zero_iff.mpr h
  · rintro rfl
    rfl

theorem getLast?_sortBy (h : Ranks rank compare) (hlast : (l.sortBy compare).getLast? = some a) :
    a ∈ l ∧ ∀ b ∈ l, rank b ≤ rank a := by
  refine ⟨mem_sortBy.mp (mem_of_getLast? hlast), fun b hb => ?_⟩
  obtain ⟨before, hbefore⟩ := getLast?_eq_some_iff.mp hlast
  have hsorted := pairwise_sortBy h l
  rw [hbefore, pairwise_append] at hsorted
  have hmem : b ∈ l.sortBy compare := mem_sortBy.mpr hb
  rw [hbefore, mem_append, mem_singleton] at hmem
  rcases hmem with hmem | rfl
  · exact hsorted.2.2 b hmem a (mem_singleton_self a)
  · exact le_rfl

end Ranked

/-! ### The greatest of a list -/

/-- Of two elements with equal keys the later one is kept, as by `max_by`. -/
def later (key : α → β) (best : Option α) (a : α) : Option α :=
  some (best.elim a fun b => if key b ≤ key a then a else b)

section Later

variable {key : α → β} {best : Option α} {l : List α} {a b : α}

/-- What is kept is one of the elements, and has the greatest key. -/
theorem foldl_later (h : l.foldl (later key) best = some a) :
    (best = some a ∨ a ∈ l) ∧ (∀ b ∈ l, key b ≤ key a) ∧ ∀ b, best = some b → key b ≤ key a := by
  induction l generalizing best with
  | nil =>
    refine ⟨Or.inl h, fun b hb => absurd hb not_mem_nil, fun b hb => ?_⟩
    rw [Option.some.inj (hb.symm.trans h)]
  | cons c l ih =>
    obtain ⟨hmem, hmax, hbest⟩ := ih h
    -- the first step keeps `c` or what was there, with a key as great as both
    have hstep : ∃ d, later key best c = some d ∧ (best = some d ∨ d = c) ∧ key c ≤ key d ∧
        ∀ b, best = some b → key b ≤ key d := by
      unfold later
      cases best with
      | none => exact ⟨c, rfl, Or.inr rfl, le_rfl, fun b hb => by cases hb⟩
      | some b' =>
        simp only [Option.elim_some]
        split
        next hle => exact ⟨c, rfl, Or.inr rfl, le_rfl, fun b hb => Option.some.inj hb ▸ hle⟩
        next hlt =>
          exact ⟨b', rfl, Or.inl rfl, (not_le.mp hlt).le, fun b hb => (Option.some.inj hb ▸ le_rfl)⟩
    obtain ⟨d, hd, hfrom, hc, hall⟩ := hstep
    have hda : key d ≤ key a := hbest d hd
    refine ⟨?_, fun b hb => ?_, fun b hb => (hall b hb).trans hda⟩
    · rcases hmem with heq | hmem
      · obtain rfl := Option.some.inj (hd.symm.trans heq)
        rcases hfrom with hbest | rfl
        · exact Or.inl hbest
        · exact Or.inr mem_cons_self
      · exact Or.inr (mem_cons_of_mem c hmem)
    · rcases mem_cons.mp hb with rfl | hb
      · exact hc.trans hda
      · exact hmax b hb

theorem foldl_later_eq_none : l.foldl (later key) none = none ↔ l = [] := by
  have hsome : ∀ (l : List α) (b : α), l.foldl (later key) (some b) ≠ none := by
    intro l
    induction l with
    | nil => exact fun b => Option.some_ne_none b
    | cons c l ih => exact fun b => ih _
  cases l with
  | nil => exact ⟨fun _ => rfl, fun _ => rfl⟩
  | cons c l => exact ⟨fun h => absurd h (hsome l _), fun h => absurd h (cons_ne_nil c l)⟩

end Later

end List
