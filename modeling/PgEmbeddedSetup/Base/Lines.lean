import PgEmbeddedSetup.Base.Text

/-!
# Texts that are cut

A text of lines is read after any number of its characters. The line of which a part has been cut off
is still a line, so what is read of it is a part of what was written (`getElem?_lines_prefix`). A part
of a numeral is a numeral again, and a smaller one (`Numeral.lt_of_prefix`).
-/

namespace Text

/-! ### Lines -/

/-- A line that a newline ends. -/
def stripReturn (line : List Char) : List Char :=
  if line.getLast? = some '\r' then line.dropLast else line

/-- Lines, each with its newline. -/
def unlines (ls : List (List Char)) : List Char := ls.flatMap (· ++ ['\n'])

theorem unlines_cons (line : List Char) (ls : List (List Char)) (rest : List Char) :
    unlines (line :: ls) ++ rest = line ++ '\n' :: (unlines ls ++ rest) := by
  simp [unlines]

theorem lines_append {line : List Char} (h : '\n' ∉ line) (before rest : List Char) :
    lines before (line ++ '\n' :: rest) = stripReturn (before ++ line) :: lines [] rest := by
  induction line generalizing before with
  | nil =>
    rw [List.append_nil]
    rfl
  | cons c line ih =>
    obtain ⟨hc, hline⟩ := not_or.mp fun hmem => h (List.mem_cons.mpr hmem)
    rw [List.cons_append, lines.eq_3 _ _ _ (Ne.symm hc), ih hline, List.append_assoc]
    rfl

theorem lines_last {line : List Char} (h : '\n' ∉ line) (before : List Char) :
    lines before line = if (before ++ line).isEmpty then [] else [before ++ line] := by
  induction line generalizing before with
  | nil =>
    rw [List.append_nil]
    rfl
  | cons c line ih =>
    obtain ⟨hc, hline⟩ := not_or.mp fun hmem => h (List.mem_cons.mpr hmem)
    rw [lines.eq_3 _ _ _ (Ne.symm hc), ih hline, List.append_assoc]
    rfl

theorem firstLine_part {part : List Char} (h : '\n' ∉ part) (hne : part ≠ []) :
    firstLine part = some part := by
  rw [firstLine, lines_last h, List.nil_append, List.isEmpty_eq_false_iff.mpr hne]
  rfl

theorem firstLine_append {line : List Char} (h : '\n' ∉ line) (rest : List Char) :
    firstLine (line ++ '\n' :: rest) = some (stripReturn line) := by
  rw [firstLine, lines_append h]
  rfl

theorem getElem?_lines {before : List (List Char)} (hbefore : ∀ line ∈ before, '\n' ∉ line)
    (t : List Char) : (lines [] (unlines before ++ t))[before.length]? = firstLine t := by
  induction before with
  | nil => exact List.head?_eq_getElem?.symm
  | cons line before ih =>
    rw [unlines_cons, lines_append (hbefore line List.mem_cons_self), List.length_cons,
      List.getElem?_cons_succ]
    exact ih fun line' hline' => hbefore line' (List.mem_cons_of_mem _ hline')

theorem prefix_append_cons {t line rest : List Char} {c : Char} (h : t <+: line ++ c :: rest) :
    t <+: line ∨ ∃ t', t = line ++ c :: t' ∧ t' <+: rest := by
  obtain ⟨u, hu⟩ := h
  rcases List.append_eq_append_iff.mp hu with ⟨a, rfl, -⟩ | ⟨a, rfl, ha⟩
  · exact Or.inl (List.prefix_append t a)
  · cases a with
    | nil =>
      rw [List.append_nil]
      exact Or.inl List.prefix_rfl
    | cons c' a =>
      obtain ⟨rfl, rfl⟩ := List.cons.inj ha
      exact Or.inr ⟨a, rfl, List.prefix_append a u⟩

/-- What is read as the line of a text that is cut: nothing, a part of it, or the line. -/
theorem getElem?_lines_prefix {before : List (List Char)}
    (hbefore : ∀ line ∈ before, '\n' ∉ line) {line rest t : List Char} (hline : '\n' ∉ line)
    (h : t <+: unlines before ++ (line ++ '\n' :: rest)) :
    (lines [] t)[before.length]? = none ∨
      (∃ part, part <+: line ∧ part ≠ [] ∧ t = unlines before ++ part ∧
        (lines [] t)[before.length]? = some part) ∨
      (lines [] t)[before.length]? = some (stripReturn line) := by
  induction before generalizing t with
  | nil =>
    rcases prefix_append_cons h with hpart | ⟨t', rfl, -⟩
    · by_cases hempty : t = []
      · subst hempty
        exact Or.inl rfl
      · have hnl : '\n' ∉ t := fun hmem => hline (hpart.subset hmem)
        refine Or.inr (Or.inl ⟨t, hpart, hempty, rfl, ?_⟩)
        exact (getElem?_lines hbefore t).trans (firstLine_part hnl hempty)
    · refine Or.inr (Or.inr ?_)
      exact (getElem?_lines hbefore _).trans (firstLine_append hline t')
  | cons first before ih =>
    have hfirst := hbefore first List.mem_cons_self
    rw [unlines_cons] at h
    rcases prefix_append_cons h with hpart | ⟨t', rfl, ht'⟩
    · have hnl : '\n' ∉ t := fun hmem => hfirst (hpart.subset hmem)
      rw [lines_last hnl, List.nil_append]
      refine Or.inl ?_
      split <;> rfl
    · rw [lines_append hfirst, List.length_cons, List.getElem?_cons_succ]
      refine (ih (fun l hl => hbefore l (List.mem_cons_of_mem _ hl)) ht').imp_right
        (Or.imp_left ?_)
      rintro ⟨part, hpart, hne, rfl, hget⟩
      exact ⟨part, hpart, hne, (unlines_cons _ _ _).symm, hget⟩

/-! ### Numerals -/

/-- A number as it is printed: without a sign, and without a zero in front. -/
structure Numeral where
  digits : List Char
  isDigit : ∀ c ∈ digits, c.isDigit = true
  ne_nil : digits ≠ []
  no_zero : digits.head? = some '0' → digits.length = 1

def pushDigit (n : Nat) (c : Char) : Nat := 10 * n + (c.toNat - '0'.toNat)

/-- The number that the digits stand for. -/
def ofDigits (digits : List Char) : Nat := digits.foldl pushDigit 0

theorem le_foldl_pushDigit (more : List Char) (n : Nat) :
    10 ^ more.length * n ≤ more.foldl pushDigit n := by
  induction more generalizing n with
  | nil => simp
  | cons c more ih =>
    calc 10 ^ (c :: more).length * n = 10 ^ more.length * (10 * n) := by
          rw [List.length_cons, Nat.pow_succ, Nat.mul_assoc]
      _ ≤ 10 ^ more.length * pushDigit n c := Nat.mul_le_mul_left _ (Nat.le_add_right _ _)
      _ ≤ _ := ih _

theorem ofDigits_le_append (digits more : List Char) :
    10 ^ more.length * ofDigits digits ≤ ofDigits (digits ++ more) := by
  rw [ofDigits, ofDigits, List.foldl_append]
  exact le_foldl_pushDigit more _

theorem ofDigits_pos {c : Char} (cs : List Char) (hc : c.isDigit = true) (hzero : c ≠ '0') :
    0 < ofDigits (c :: cs) := by
  have hfirst : 0 < pushDigit 0 c := by
    have hne : c.toNat ≠ '0'.toNat := fun heq => hzero (Char.toNat_inj.mp heq)
    have hle := (Char.isDigit_iff_toNat.mp hc).1
    rw [pushDigit]
    omega
  calc 0 < 10 ^ cs.length * pushDigit 0 c := Nat.mul_pos (Nat.pow_pos (by decide)) hfirst
    _ ≤ _ := le_foldl_pushDigit cs _

namespace Numeral

def value (n : Numeral) : Nat := ofDigits n.digits

variable {n : Numeral} {part : List Char}

theorem pos_of_prefix (hpart : part <+: n.digits) (hne : part ≠ []) (hproper : part ≠ n.digits) :
    0 < ofDigits part := by
  obtain ⟨more, hmore⟩ := hpart
  obtain ⟨c, cs, rfl⟩ := List.exists_cons_of_ne_nil hne
  refine ofDigits_pos cs (n.isDigit c (hmore ▸ List.mem_cons_self)) ?_
  rintro rfl
  have hlength := n.no_zero (by rw [← hmore]; rfl)
  rw [← hmore, List.length_append, List.length_cons] at hlength
  have hmore_nil : more = [] := List.length_eq_zero_iff.mp (by omega)
  exact hproper (by rw [← hmore, hmore_nil, List.append_nil])

theorem lt_of_prefix (hpart : part <+: n.digits) (hne : part ≠ []) (hproper : part ≠ n.digits) :
    ofDigits part < n.value := by
  have hpos := pos_of_prefix hpart hne hproper
  obtain ⟨more, hmore⟩ := hpart
  have hlength : 0 < more.length := by
    rw [List.length_pos_iff]
    rintro rfl
    exact hproper (by rw [← hmore, List.append_nil])
  rw [value, ← hmore]
  calc ofDigits part < 10 ^ 1 * ofDigits part := by omega
    _ ≤ 10 ^ more.length * ofDigits part :=
      Nat.mul_le_mul_right _ (Nat.pow_le_pow_right (by decide) hlength)
    _ ≤ _ := ofDigits_le_append part more

end Numeral

/-! ### Reading digits -/

section Digits

variable {digits : List Char}

theorem isWhitespace_of_isDigit {c : Char} (h : c.isDigit = true) : isWhitespace c = false := by
  obtain ⟨hlow, hhigh⟩ := Char.isDigit_iff_toNat.mp h
  have hzero : '0'.toNat = 48 := rfl
  have hnine : '9'.toNat = 57 := rfl
  have hval : c.val.toNat = c.toNat := rfl
  rw [Bool.eq_false_iff]
  intro hspace
  simp [isWhitespace, UInt32.le_iff_toNat_le, ← UInt32.toNat_inj] at hspace
  omega

theorem dropWhile_digits (h : ∀ c ∈ digits, c.isDigit = true) :
    digits.dropWhile isWhitespace = digits := by
  cases digits with
  | nil => rfl
  | cons c cs =>
    rw [List.dropWhile_cons, isWhitespace_of_isDigit (h c List.mem_cons_self)]
    rfl

theorem trim_of_digits (h : ∀ c ∈ digits, c.isDigit = true) : trim digits = digits := by
  rw [trim, dropWhile_digits h, dropWhile_digits fun c hc => h c (List.mem_reverse.mp hc),
    List.reverse_reverse]

theorem notMem_of_digits {c : Char} (hc : c.isDigit = false) (h : ∀ c ∈ digits, c.isDigit = true) :
    c ∉ digits := fun hmem => Bool.noConfusion (hc.symm.trans (h c hmem))

theorem stripReturn_of_digits (h : ∀ c ∈ digits, c.isDigit = true) :
    stripReturn digits = digits :=
  if_neg fun hlast => notMem_of_digits (by decide) h (List.mem_of_getLast? hlast)

theorem parseNat_of_digits (h : ∀ c ∈ digits, c.isDigit = true) (hne : digits ≠ []) :
    parseNat digits = some (ofDigits digits) := by
  rw [parseNat, List.isEmpty_eq_false_iff.mpr hne, List.all_eq_true.mpr h]
  rfl

theorem parseUInt_of_digits (h : ∀ c ∈ digits, c.isDigit = true) (hne : digits ≠ []) {bits : Nat}
    (hbound : ofDigits digits < 2 ^ bits) : parseUInt bits digits = some (ofDigits digits) := by
  have hplus : ∀ ds, digits ≠ '+' :: ds := fun ds heq =>
    notMem_of_digits (c := '+') (by decide) h (heq ▸ List.mem_cons_self)
  rw [parseUInt.eq_2 _ _ hplus, parseNat_of_digits h hne, Option.bind_some, if_pos hbound]

theorem parseInt_of_digits (h : ∀ c ∈ digits, c.isDigit = true) (hne : digits ≠ []) {bits : Nat}
    (hbound : ofDigits digits < 2 ^ (bits - 1)) :
    parseInt bits digits = some (ofDigits digits : Int) := by
  have hminus : ∀ ds, digits ≠ '-' :: ds := fun ds heq =>
    notMem_of_digits (c := '-') (by decide) h (heq ▸ List.mem_cons_self)
  have hplus : ∀ ds, digits ≠ '+' :: ds := fun ds heq =>
    notMem_of_digits (c := '+') (by decide) h (heq ▸ List.mem_cons_self)
  rw [parseInt.eq_3 _ _ hminus hplus, parseNat_of_digits h hne, Option.bind_some, if_pos hbound]

end Digits

end Text
