import SegregatedFit.Block.Basic
import SegregatedFit.Word.Alignment

/-
  From the size of a request to the size of a block.

  Small requests are first rounded up to a power of two.  A
  block then adds room for its tags and is rounded up to the
  double word: `Request.blockSize?`.
-/

namespace SegregatedFit

namespace Request

------------------------------------------------------------
-- Small Requests
------------------------------------------------------------

/- The largest request that is rounded to a power of two. -/
abbrev smallLimit : Nat :=
  256

/- The least power of two that is not below a number. -/
def powerOfTwoFrom
    (n : Nat) : Nat :=
  if n ≤ 1 then
    1
  else
    1 <<< (Nat.log2 (n - 1) + 1)

/- A request as it is served. -/
def rounded
    (n : Nat) : Nat :=
  if n ≤ smallLimit then
    powerOfTwoFrom n
  else
    n

/- The power of two is not below the number. -/
theorem le_powerOfTwoFrom
    (n : Nat) :
    n ≤ powerOfTwoFrom n := by
  unfold powerOfTwoFrom
  split
  · assumption
  · have h := Nat.lt_log2_self (n := n - 1)
    rw [Nat.one_shiftLeft]
    omega

/- No smaller power of two will do. -/
theorem powerOfTwoFrom_le
    {n k : Nat}
    (h : n ≤ 1 <<< k) :
    powerOfTwoFrom n ≤ 1 <<< k := by
  rw [Nat.one_shiftLeft] at h ⊢
  unfold powerOfTwoFrom
  split
  · exact Nat.one_le_two_pow
  · rw [Nat.one_shiftLeft]
    apply Nat.pow_le_pow_right (by decide)
    have hLog : Nat.log2 (n - 1) < k :=
      (Nat.log2_lt (by omega)).2 (by omega)
    omega

/- A request is never served with less than it asks for. -/
theorem le_rounded
    (n : Nat) :
    n ≤ rounded n := by
  unfold rounded
  split
  · exact le_powerOfTwoFrom n
  · exact Nat.le_refl n

------------------------------------------------------------
-- Block Sizes
------------------------------------------------------------

/-
  The size of a block with room for `n` bytes, if it is a
  word.  Requests within two double words of the limit have
  no block.
-/
def blockSize?
    (n : Nat) : Except Fault (Option Nat) :=
  if n ≤ doubleWord then
    return some minimumBlock
  else if n + 2 * doubleWord < Word.limit then do
    let tagged ← Word.add n doubleWord
    let size ← Word.align tagged
    return some size
  else
    return none

end Request

end SegregatedFit
