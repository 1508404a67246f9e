import Mathlib.Algebra.Group.Nat.Defs
import Mathlib.Data.List.Basic

/-!
# Text

Lines, trimming, replacing and decimal numbers, with the conventions of Rust's `str::lines`,
`str::trim`, `str::replace` and `i32::from_str`.
-/

namespace Text

/-- The line that a newline ends loses a carriage return before it. -/
def lines : List Char → List Char → List (List Char)
  | line, [] => if line.isEmpty then [] else [line]
  | line, '\n' :: cs =>
    (if line.getLast? = some '\r' then line.dropLast else line) :: lines [] cs
  | line, c :: cs => lines (line ++ [c]) cs

/-- The first line, if the text is not empty. -/
def firstLine (cs : List Char) : Option (List Char) := (lines [] cs).head?

/-- The characters with the property White_Space. -/
def isWhitespace (c : Char) : Bool :=
  (0x09 ≤ c.val && c.val ≤ 0x0D) || c.val == 0x20 || c.val == 0x85 || c.val == 0xA0 ||
    c.val == 0x1680 || (0x2000 ≤ c.val && c.val ≤ 0x200A) || c.val == 0x2028 || c.val == 0x2029 ||
    c.val == 0x202F || c.val == 0x205F || c.val == 0x3000

def trim (cs : List Char) : List Char :=
  ((cs.dropWhile isWhitespace).reverse.dropWhile isWhitespace).reverse

/-- The text with each occurrence of the pattern replaced, after the first `skip` characters, which are
dropped. -/
def replaceFrom (pattern new : List Char) : Nat → List Char → List Char
  | _, [] => []
  | skip + 1, _ :: cs => replaceFrom pattern new skip cs
  | 0, c :: cs =>
    if pattern.isPrefixOf (c :: cs) then new ++ replaceFrom pattern new (pattern.length - 1) cs
    else c :: replaceFrom pattern new 0 cs

/-- The pattern is not empty. -/
def replace (pattern new cs : List Char) : List Char := replaceFrom pattern new 0 cs

/-- A number of ASCII digits, of which there is one at least. -/
def parseNat (cs : List Char) : Option Nat :=
  if cs.isEmpty || !cs.all Char.isDigit then none
  else some (cs.foldl (fun n c => 10 * n + (c.toNat - '0'.toNat)) 0)

/-- A signed number, within the bounds of the type. -/
def parseInt (bits : Nat) (cs : List Char) : Option Int :=
  match cs with
  | '-' :: ds => (parseNat ds).bind fun n => if n ≤ 2 ^ (bits - 1) then some (-n) else none
  | '+' :: ds => (parseNat ds).bind fun n => if n < 2 ^ (bits - 1) then some n else none
  | ds => (parseNat ds).bind fun n => if n < 2 ^ (bits - 1) then some n else none

/-- A number without a sign, which may have a plus, within the bounds of the type. -/
def parseUInt (bits : Nat) (cs : List Char) : Option Nat :=
  match cs with
  | '+' :: ds => (parseNat ds).bind fun n => if n < 2 ^ bits then some n else none
  | ds => (parseNat ds).bind fun n => if n < 2 ^ bits then some n else none

example : (firstLine "12345\r\nother\n".toList).map (parseInt 32 ∘ trim) = some (some 12345) := by
  decide

example : parseInt 32 "2147483648".toList = none := by decide

end Text
