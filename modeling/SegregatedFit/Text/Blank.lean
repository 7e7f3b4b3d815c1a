/-
  Blank characters: those with the Unicode property
  `White_Space`, and the removal of them at both ends of a
  text.

  The table holds all twenty-five of them, as ranges of code
  points.  Every character that core counts as whitespace is
  among them: `Text.isBlank_of_isWhitespace`.
-/

namespace SegregatedFit

namespace Text

/- The blank code points as inclusive ranges. -/
def blankRanges : List (Nat × Nat) :=
  [(0x9, 0xD), (0x20, 0x20), (0x85, 0x85), (0xA0, 0xA0),
    (0x1680, 0x1680), (0x2000, 0x200A), (0x2028, 0x2029),
    (0x202F, 0x202F), (0x205F, 0x205F), (0x3000, 0x3000)]

/- Blank characters. -/
def isBlank
    (c : Char) : Bool :=
  blankRanges.any (fun r => r.1 ≤ c.toNat && c.toNat ≤ r.2)

/- Remove the blank characters at both ends. -/
def trim
    (cs : List Char) : List Char :=
  ((cs.dropWhile isBlank).reverse.dropWhile isBlank).reverse

/- The whitespace of core is blank. -/
theorem isBlank_of_isWhitespace
    {c : Char}
    (h : c.isWhitespace = true) :
    isBlank c = true := by
  unfold Char.isWhitespace at h
  simp only [Bool.or_eq_true, decide_eq_true_eq] at h
  rcases h with ((h | h) | h) | h <;> subst h <;> decide

end Text

end SegregatedFit
