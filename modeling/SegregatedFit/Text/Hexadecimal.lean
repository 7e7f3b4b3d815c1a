/-
  Offsets are written in hexadecimal, with lower-case digits
  behind a leading `0x`.
-/

namespace SegregatedFit

namespace Text

/- The hexadecimal text of a number, such as `0x1f`. -/
def hexadecimal
    (n : Nat) : String :=
  "0x" ++ String.ofList (Nat.toDigits 16 n)

end Text

end SegregatedFit
