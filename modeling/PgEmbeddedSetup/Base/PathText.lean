import PgEmbeddedSetup.Base.FileSystem

/-!
# Paths as texts

A path is written as pieces with slashes between them. Empty pieces and `.` lead nowhere, so a path has
many spellings; `hopsOf` is what all of them have in common. A join puts a slash in between unless
there is one, and the hops of the joined text are those of its parts (`hopsOf_joinText`).
-/

namespace Posix

abbrev PathText := List UInt8

def slash : UInt8 := 0x2F

/-- Where a piece leads. -/
def hopOf (piece : PathText) : Option (Hop PathText) :=
  if piece = [] ∨ piece = [0x2E] then none
  else if piece = [0x2E, 0x2E] then some .up
  else some (.name piece)

def hopsOf (text : PathText) : List (Hop PathText) := (text.splitOn slash).filterMap hopOf

def isAbsoluteText (text : PathText) : Bool := text.head? == some slash

/-- `Path::join`. -/
def joinText (base text : PathText) : PathText :=
  if isAbsoluteText text || base == [] then text
  else if base.getLast? = some slash then base ++ text
  else base ++ slash :: text

variable {base text piece : PathText}

theorem hopsOf_nil : hopsOf [] = [] := rfl

theorem hopsOf_append_slash (base text : PathText) :
    hopsOf (base ++ slash :: text) = hopsOf base ++ hopsOf text := by
  rw [hopsOf, List.splitOn_append_cons_self, List.filterMap_append]
  rfl

theorem hopsOf_piece (h : slash ∉ piece) : hopsOf piece = (hopOf piece).toList := by
  rw [hopsOf, List.splitOn_eq_singleton h, List.filterMap_cons]
  cases hopOf piece <;> rfl

theorem hopOf_eq_name (hempty : piece ≠ []) (hdot : piece ≠ [0x2E]) (hdots : piece ≠ [0x2E, 0x2E]) :
    hopOf piece = some (.name piece) := by
  rw [hopOf, if_neg (not_or.mpr ⟨hempty, hdot⟩), if_neg hdots]

theorem hopOf_eq_none : hopOf piece = none ↔ piece = [] ∨ piece = [0x2E] := by
  unfold hopOf
  split
  next h => exact iff_of_true rfl h
  next h =>
    refine iff_of_false ?_ h
    split <;> exact Option.some_ne_none _

theorem hopOf_eq_name_iff :
    hopOf piece = some (.name piece) ↔ piece ≠ [] ∧ piece ≠ [0x2E] ∧ piece ≠ [0x2E, 0x2E] := by
  constructor
  · intro h
    refine ⟨?_, ?_, ?_⟩ <;>
      · rintro rfl
        exact absurd h (by decide)
  · rintro ⟨hempty, hdot, hdots⟩
    exact hopOf_eq_name hempty hdot hdots

theorem hopsOf_joinText (h : isAbsoluteText text = false) :
    hopsOf (joinText base text) = hopsOf base ++ hopsOf text := by
  unfold joinText
  rw [h, Bool.false_or]
  by_cases hbase : base = []
  · rw [hbase]
    rfl
  rw [if_neg (by simpa using hbase)]
  split
  next hlast =>
    obtain ⟨front, rfl⟩ := List.getLast?_eq_some_iff.mp hlast
    rw [List.append_assoc, List.singleton_append, hopsOf_append_slash, hopsOf_append_slash,
      hopsOf_nil, List.append_nil]
  next => exact hopsOf_append_slash base text

theorem splitOn_append (base : PathText) {more : PathText} (h : slash ∉ more) :
    ∃ front last, base.splitOn slash = front ++ [last] ∧
      (base ++ more).splitOn slash = front ++ [last ++ more] := by
  induction hlength : base.length using Nat.strongRecOn generalizing base with
  | ind n ih =>
    subst hlength
    by_cases hmem : slash ∈ base
    · obtain ⟨first, rest, rfl⟩ := List.append_of_mem hmem
      obtain ⟨front, last, hrest, hmore⟩ := ih rest.length (by simp; omega) rest rfl
      refine ⟨first.splitOn slash ++ front, last, ?_, ?_⟩
      · rw [List.splitOn_append_cons_self, hrest, List.append_assoc]
      · rw [List.append_assoc, List.cons_append, List.splitOn_append_cons_self, hmore,
          List.append_assoc]
    · refine ⟨[], base, List.splitOn_eq_singleton hmem, ?_⟩
      exact List.splitOn_eq_singleton fun h' => (List.mem_append.mp h').elim hmem h

end Posix
