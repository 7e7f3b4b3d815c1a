import SegregatedFit.Word.Basic

/-
  Numerals: one optional plus sign and then one or more of
  the ten ASCII digits, for a number that is a word.
-/

namespace SegregatedFit

namespace Text

/- The number that decimal digits spell. -/
def digitsValue
    (cs : List Char) : Nat :=
  cs.foldl (fun n c => 10 * n + (c.toNat - '0'.toNat)) 0

/- The characters behind an optional plus sign. -/
def dropPlus :
    List Char → List Char
| '+' :: cs => cs
| cs => cs

/- The word that a numeral spells, if it is a numeral. -/
def numeral?
    (cs : List Char) : Option Nat :=
  let digits := dropPlus cs
  if digits ≠ [] ∧ digits.all Char.isDigit = true ∧
      digitsValue digits < Word.limit then
    some (digitsValue digits)
  else
    none

/- A numeral spells a word. -/
theorem lt_of_numeral?
    {cs : List Char}
    {n : Nat}
    (h : numeral? cs = some n) :
    n < Word.limit := by
  unfold numeral? at h
  dsimp only at h
  split at h
  · rename_i hDigits
    cases h
    exact hDigits.2.2
  · exact absurd h (by simp)

end Text

end SegregatedFit
