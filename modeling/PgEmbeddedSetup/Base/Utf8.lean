import Mathlib.Data.List.Basic

/-!
# UTF-8 text and lossy text

`scan` reads one character as the standard library of Rust does: where a sequence is ill-formed it
stops at the longest part of it that could have been continued. `lossy` is `from_utf8_lossy`, which
puts a replacement character for each such part and keeps well-formed text as it is (`lossy_eq_self`).
-/

namespace Utf8

def isTail (b : UInt8) : Bool := 0x80 ≤ b && b ≤ 0xBF

/-- How many bytes a character has by its first one, and zero if none starts with it. -/
def width (lead : UInt8) : Nat :=
  if lead < 0x80 then 1
  else if lead < 0xC2 then 0
  else if lead < 0xE0 then 2
  else if lead < 0xF0 then 3
  else if lead < 0xF5 then 4
  else 0

/-- The second byte of a character of three or four bytes. Overlong forms, surrogates and what is
beyond the last code point are out. -/
def isSecond (lead b : UInt8) : Bool :=
  if lead = 0xE0 then 0xA0 ≤ b && b ≤ 0xBF
  else if lead = 0xED then 0x80 ≤ b && b ≤ 0x9F
  else if lead = 0xF0 then 0x90 ≤ b && b ≤ 0xBF
  else if lead = 0xF4 then 0x80 ≤ b && b ≤ 0x8F
  else isTail b

/-- The bytes that pass the tests, counted up to the first that does not. -/
def countWhile : List (UInt8 → Bool) → List UInt8 → Nat
  | test :: tests, b :: bytes => if test b then countWhile tests bytes + 1 else 0
  | _, _ => 0

/-- What may follow the first byte. -/
def tests (lead : UInt8) : List (UInt8 → Bool) :=
  match width lead with
  | 2 => [isTail]
  | 3 => [isSecond lead, isTail]
  | 4 => [isSecond lead, isTail, isTail]
  | _ => []

/-- How many bytes are read for the first character, and whether they are one. -/
def scan : List UInt8 → Nat × Bool
  | [] => (0, false)
  | lead :: bytes =>
    let n := countWhile (tests lead) bytes
    (n + 1, width lead == n + 1)

def replacement : List UInt8 := [0xEF, 0xBF, 0xBD]

def lossyFrom : Nat → List UInt8 → List UInt8
  | 0, _ => []
  | fuel + 1, bytes =>
    if bytes.isEmpty then []
    else
      (if (scan bytes).2 then bytes.take (scan bytes).1 else replacement) ++
        lossyFrom fuel (bytes.drop (scan bytes).1)

/-- `String::from_utf8_lossy`. -/
def lossy (bytes : List UInt8) : List UInt8 := lossyFrom bytes.length bytes

/-! ### Well-formed text -/

/-- The bytes of one character. -/
def IsChar (c : List UInt8) : Prop := scan c = (c.length, true)

/-- Characters one after the other. -/
inductive IsText : List UInt8 → Prop
  | nil : IsText []
  | cons {c rest : List UInt8} (hc : IsChar c) (hrest : IsText rest) : IsText (c ++ rest)

theorem IsText.append {s t : List UInt8} (hs : IsText s) (ht : IsText t) : IsText (s ++ t) := by
  induction hs with
  | nil => exact ht
  | cons hc hrest ih =>
    rw [List.append_assoc]
    exact .cons hc ih

theorem countWhile_append {fs : List (UInt8 → Bool)} {bytes : List UInt8}
    (h : countWhile fs bytes = fs.length) (rest : List UInt8) :
    countWhile fs (bytes ++ rest) = fs.length := by
  induction fs generalizing bytes with
  | nil => cases bytes ++ rest <;> rfl
  | cons f fs ih =>
    cases bytes with
    | nil => cases h
    | cons b bytes =>
      rw [countWhile] at h
      rw [List.cons_append, countWhile]
      split at h
      next hf =>
        rw [if_pos hf, ih (Nat.succ.inj h)]
        rfl
      next => cases h

theorem tests_length {lead : UInt8} (h : width lead ≠ 0) :
    (tests lead).length + 1 = width lead := by
  have hcases : width lead = 0 ∨ width lead = 1 ∨ width lead = 2 ∨ width lead = 3 ∨
      width lead = 4 := by
    unfold width
    grind
  unfold tests
  rcases hcases with h' | h' | h' | h' | h'
  · exact absurd h' h
  all_goals rw [h']; rfl

theorem not_isChar_nil : ¬ IsChar [] := fun h => Bool.noConfusion (congrArg Prod.snd h)

theorem scan_append {c : List UInt8} (hc : IsChar c) (rest : List UInt8) :
    scan (c ++ rest) = (c.length, true) := by
  cases c with
  | nil => exact absurd hc not_isChar_nil
  | cons lead bytes =>
    obtain ⟨hlength, hwidth⟩ := Prod.mk.inj hc
    have hwidth' := beq_iff_eq.mp hwidth
    have hfull : countWhile (tests lead) bytes = (tests lead).length := by
      have := tests_length (show width lead ≠ 0 by omega)
      omega
    rw [List.cons_append, scan]
    have hrest := countWhile_append hfull rest
    rw [hfull] at hlength hwidth'
    simp only [hrest, hwidth', beq_self_eq_true, hlength]

theorem lossyFrom_of_isText {s : List UInt8} (hs : IsText s) {fuel : Nat} (hfuel : s.length ≤ fuel) :
    lossyFrom fuel s = s := by
  induction hs generalizing fuel with
  | nil => cases fuel <;> rfl
  | @cons c rest hc hrest ih =>
    have hpos : 0 < c.length := by
      cases c with
      | nil => exact absurd hc not_isChar_nil
      | cons b c => exact Nat.succ_pos _
    rw [List.length_append] at hfuel
    obtain ⟨fuel, rfl⟩ := Nat.exists_eq_succ_of_ne_zero (by omega : fuel ≠ 0)
    have hempty : (c ++ rest).isEmpty = false := by
      rw [List.isEmpty_eq_false_iff]
      exact List.append_ne_nil_of_left_ne_nil (List.ne_nil_of_length_pos hpos) _
    rw [lossyFrom, hempty, scan_append hc, if_neg Bool.false_ne_true, if_pos rfl, List.take_left,
      List.drop_left, ih (by omega)]

theorem lossy_eq_self {s : List UInt8} (hs : IsText s) : lossy s = s :=
  lossyFrom_of_isText hs (Nat.le_refl _)

example : lossy [0x61, 0xF0, 0x9F, 0x98, 0x61, 0xC3, 0xA9] =
    [0x61] ++ replacement ++ [0x61, 0xC3, 0xA9] := by
  decide

end Utf8
