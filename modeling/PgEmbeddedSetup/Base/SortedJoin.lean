import Mathlib.Data.List.Sort

/-!
# Words joined in sorted order

The elements of a list have words, which are joined in the order of a stable sort. Elements that none
of the two comes before the other keep the order in which they were listed. So the joined word is the
same for all orders of the list if the words of such elements can change places
(`flatMap_eq_of_sorted`), and if they cannot, some order shows it (`flatMap_mergeSort_pair`).
-/

namespace List

variable {α β : Type} {le : α → α → Bool} {word : α → List β} {a b : α} {l l' : List α}

/-- The sort leaves the two in the order in which they are listed. -/
def Tied (le : α → α → Bool) (a b : α) : Prop := le a b = true ∧ le b a = true

/-- The two words, one after the other, are the same in both orders. -/
def Swap (word : α → List β) (a b : α) : Prop := word a ++ word b = word b ++ word a

theorem flatMap_append_word (h : ∀ b ∈ l, Swap word b a) :
    l.flatMap word ++ word a = word a ++ l.flatMap word := by
  induction l with
  | nil => rw [flatMap_nil, nil_append, append_nil]
  | cons b l ih =>
    have hb : word b ++ word a = word a ++ word b := h b mem_cons_self
    have hl := ih fun b' hb' => h b' (mem_cons_of_mem b hb')
    calc (b :: l).flatMap word ++ word a = word b ++ (l.flatMap word ++ word a) := by
          rw [flatMap_cons, append_assoc]
      _ = (word b ++ word a) ++ l.flatMap word := by rw [hl, append_assoc]
      _ = word a ++ (b :: l).flatMap word := by rw [hb, append_assoc, flatMap_cons]

/-- Two sorted orders of the same elements differ in the order of tied elements only. -/
theorem flatMap_eq_of_sorted (hperm : l.Perm l') (hl : l.Pairwise fun a b => le a b = true)
    (hl' : l'.Pairwise fun a b => le a b = true)
    (hswap : ∀ a ∈ l, ∀ b ∈ l, Tied le a b → Swap word a b) :
    l.flatMap word = l'.flatMap word := by
  induction l generalizing l' with
  | nil => rw [hperm.nil_eq]
  | cons a l ih =>
    obtain ⟨before, after, rfl⟩ := append_of_mem (hperm.mem_iff.mp mem_cons_self)
    have hrest : l.Perm (before ++ after) := (hperm.trans perm_middle).cons_inv
    have hsorted : (before ++ after).Pairwise fun a b => le a b = true :=
      hl'.sublist ((Sublist.refl before).append (sublist_cons_self a after))
    obtain ⟨hfirst, hl⟩ := pairwise_cons.mp hl
    -- what comes before `a` in the other order is tied with it
    have hmove : before.flatMap word ++ word a = word a ++ before.flatMap word := by
      refine flatMap_append_word fun b hb => ?_
      have hmem : b ∈ l := hrest.mem_iff.mpr (mem_append_left after hb)
      have hle : le b a = true := (pairwise_append.mp hl').2.2 b hb a mem_cons_self
      exact hswap b (mem_cons_of_mem a hmem) a mem_cons_self ⟨hle, hfirst b hmem⟩
    have hih := ih hrest hl hsorted fun b hb c hc =>
      hswap b (mem_cons_of_mem a hb) c (mem_cons_of_mem a hc)
    rw [flatMap_cons, hih, flatMap_append, flatMap_append, flatMap_cons, ← append_assoc, ← hmove,
      append_assoc]

theorem Tied.le_eq (htrans : ∀ a b c, le a b = true → le b c = true → le a c = true)
    (h : Tied le a b) : le a = le b := by
  funext c
  rw [Bool.eq_iff_iff]
  exact ⟨htrans b a c h.2, htrans a b c h.1⟩

section Sorted

variable (htrans : ∀ a b c, le a b = true → le b c = true → le a c = true)
  (htotal : ∀ a b, (le a b || le b a) = true)

include htrans htotal

theorem mergeSort_cons_filter (a : α) (l : List α) :
    (a :: l).mergeSort le =
      (l.mergeSort le).filter (fun b => !le a b) ++ a :: (l.mergeSort le).filter (le a) := by
  obtain ⟨before, after, hcons, hsort, hbefore⟩ := mergeSort_cons htrans htotal a l
  have hpairs := pairwise_mergeSort htrans htotal (a :: l)
  rw [hcons, pairwise_append, pairwise_cons] at hpairs
  have hafter : ∀ b ∈ after, le a b = true := hpairs.2.1.1
  have hnone : before.filter (le a) = [] :=
    filter_eq_nil_iff.mpr fun b hb => by simpa using hbefore b hb
  have hnone' : after.filter (fun b => !le a b) = [] :=
    filter_eq_nil_iff.mpr fun b hb => by simpa using hafter b hb
  rw [hcons, hsort, filter_append, filter_append, filter_eq_self.mpr hbefore,
    filter_eq_self.mpr hafter, hnone, hnone', append_nil, nil_append]

/-- Where the first element of a list stands in sorted order, any tied with it would. -/
theorem mergeSort_cons_tied (h : Tied le a b) (l : List α) :
    ∃ before after, (a :: l).mergeSort le = before ++ a :: after ∧
      (b :: l).mergeSort le = before ++ b :: after := by
  refine ⟨_, _, mergeSort_cons_filter htrans htotal a l, ?_⟩
  rw [mergeSort_cons_filter htrans htotal b l, h.le_eq htrans]

theorem mergeSort_pair (h : Tied le a b) (l : List α) :
    ∃ before after, (a :: b :: l).mergeSort le = before ++ a :: b :: after ∧
      (b :: a :: l).mergeSort le = before ++ b :: a :: after := by
  have hsplit : ∀ c d, Tied le c d → le c = le a → (c :: d :: l).mergeSort le =
      (l.mergeSort le).filter (fun e => !le a e) ++ c :: d :: (l.mergeSort le).filter (le a) := by
    intro c d hcd hc
    have hd : le d = le a := (hcd.le_eq htrans).symm.trans hc
    have hself : le a d = true := hc ▸ hcd.1
    rw [mergeSort_cons_filter htrans htotal, mergeSort_cons_filter htrans htotal d l, hc, hd]
    simp only [filter_append, filter_cons, filter_filter, hself, Bool.not_true, Bool.false_eq_true,
      if_false, if_true, Bool.and_self, Bool.not_and_self, Bool.and_not_self, filter_false, append_nil,
      nil_append]
  exact ⟨_, _, hsplit a b h rfl, hsplit b a ⟨h.2, h.1⟩ (h.le_eq htrans).symm⟩

theorem flatMap_mergeSort_tied (h : Tied le a b)
    (heq : ((a :: l).mergeSort le).flatMap word = ((b :: l).mergeSort le).flatMap word) :
    word a = word b := by
  obtain ⟨before, after, ha, hb⟩ := mergeSort_cons_tied htrans htotal h l
  rw [ha, hb, flatMap_append, flatMap_append, flatMap_cons, flatMap_cons] at heq
  exact append_cancel_right (append_cancel_left heq)

theorem flatMap_mergeSort_pair (h : Tied le a b)
    (heq : ((a :: b :: l).mergeSort le).flatMap word = ((b :: a :: l).mergeSort le).flatMap word) :
    Swap word a b := by
  obtain ⟨before, after, ha, hb⟩ := mergeSort_pair htrans htotal h l
  rw [ha, hb, flatMap_append, flatMap_append, flatMap_cons, flatMap_cons, flatMap_cons, flatMap_cons,
    ← append_assoc (word a), ← append_assoc (word b)] at heq
  exact append_cancel_right (append_cancel_left heq)

end Sorted

end List
