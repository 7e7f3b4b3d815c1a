import Mathlib.Algebra.GroupWithZero.Nat
import Mathlib.Order.Bounds.Basic
import SegregatedFit.Allocator.Request

/-
  The sizes of the blocks that serve requests.

  Every number of bytes has a size, and `Request.blockSize?`
  finds it without a fault, unless it comes too close to the
  limit of the words.  Small requests are rounded up to the
  least power of two, and larger requests have larger sizes,
  also after they were rounded and where rounding ends.

  Key definitions include:
    * `Request.sizeFor`
    * `Request.ServedAs`

  Key theorems include:
    * `Request.blockSize?_eq`
    * `Request.sizeFor_isLeast`
    * `Request.servedAs_rounded`
    * `Request.rounded_mono`
    * `Request.sizeFor_mono`
-/

namespace SegregatedFit

namespace Request

------------------------------------------------------------
-- Least Sizes
------------------------------------------------------------

/-
  The least size of a block with room for `n` bytes and two
  tags.
-/
def sizeFor
    (n : Nat) : Nat :=
  max minimumBlock
    ((n + 2 * doubleWord - 1) / doubleWord * doubleWord)

/- The size of a block holds the bytes and both tags. -/
theorem le_sizeFor
    (n : Nat) :
    n + doubleWord ≤ sizeFor n := by
  change n + 16 ≤ max 32 ((n + 2 * 16 - 1) / 16 * 16)
  omega

/- No block is smaller than the least one. -/
theorem minimumBlock_le_sizeFor
    (n : Nat) :
    minimumBlock ≤ sizeFor n :=
  Nat.le_max_left _ _

/- Sizes of blocks are multiples of the double word. -/
theorem sizeFor_mod
    (n : Nat) :
    sizeFor n % doubleWord = 0 := by
  change max 32 ((n + 2 * 16 - 1) / 16 * 16) % 16 = 0
  omega

/- No smaller size will do. -/
theorem sizeFor_le
    {n size : Nat}
    (hRoom : minimumBlock ≤ size)
    (hMod : size % doubleWord = 0)
    (hFits : n + doubleWord ≤ size) :
    sizeFor n ≤ size := by
  change 32 ≤ size at hRoom
  change size % 16 = 0 at hMod
  change n + 16 ≤ size at hFits
  change max 32 ((n + 2 * 16 - 1) / 16 * 16) ≤ size
  omega

/- The size of a block is the least one that will do. -/
theorem sizeFor_isLeast
    (n : Nat) :
    IsLeast
      {size | doubleWord ∣ size ∧
        max minimumBlock (n + doubleWord) ≤ size}
      (sizeFor n) := by
  constructor
  · exact ⟨Nat.dvd_of_mod_eq_zero (sizeFor_mod n),
      Nat.max_le.2 ⟨minimumBlock_le_sizeFor n, le_sizeFor n⟩⟩
  · intro size hSize
    have hRoom := Nat.max_le.1 hSize.2
    exact sizeFor_le hRoom.1 (Nat.mod_eq_zero_of_dvd hSize.1)
      hRoom.2

/- More bytes do not fit into smaller blocks. -/
theorem sizeFor_mono
    {m n : Nat}
    (h : m ≤ n) :
    sizeFor m ≤ sizeFor n := by
  have hRoom := le_sizeFor n
  exact sizeFor_le (minimumBlock_le_sizeFor n) (sizeFor_mod n)
    (by omega)

/- A request that is not close to the limit has a word. -/
theorem sizeFor_lt
    {n : Nat}
    (h : n + 2 * doubleWord < Word.limit) :
    sizeFor n < Word.limit := by
  change n + 2 * 16 < 18446744073709551616 at h
  change max 32 ((n + 2 * 16 - 1) / 16 * 16) <
    18446744073709551616
  omega

------------------------------------------------------------
-- Rounded Requests
------------------------------------------------------------

/-
  A request for `size` bytes is served like one for `served`
  bytes.  Up to 256 bytes these are the least power of two
  that is enough, and larger requests are served as they are.
-/
def ServedAs
    (size served : Nat) : Prop :=
  if size ≤ 256 then
    IsLeast {power | (∃ k, power = 2 ^ k) ∧ size ≤ power} served
  else
    served = size

/- What a small request is rounded to is a power of two. -/
theorem exists_powerOfTwoFrom
    (n : Nat) :
    ∃ k, powerOfTwoFrom n = 2 ^ k := by
  unfold powerOfTwoFrom
  split
  · exact ⟨0, rfl⟩
  · exact ⟨_, Nat.one_shiftLeft _⟩

/- It is the least power of two that is enough. -/
theorem powerOfTwoFrom_isLeast
    (n : Nat) :
    IsLeast {power | (∃ k, power = 2 ^ k) ∧ n ≤ power}
      (powerOfTwoFrom n) := by
  constructor
  · exact ⟨exists_powerOfTwoFrom n, le_powerOfTwoFrom n⟩
  · rintro power ⟨⟨k, rfl⟩, hLe⟩
    rw [← Nat.one_shiftLeft] at hLe ⊢
    exact powerOfTwoFrom_le hLe

/- Requests are served as they are rounded. -/
theorem servedAs_rounded
    (n : Nat) :
    ServedAs n (rounded n) := by
  unfold ServedAs rounded
  by_cases hn : n ≤ smallLimit
  · rw [if_pos hn, if_pos hn]
    exact powerOfTwoFrom_isLeast n
  · rw [if_neg hn, if_neg hn]

/- There is only one way to serve a request. -/
theorem ServedAs.eq_rounded
    {n served : Nat}
    (h : ServedAs n served) :
    served = rounded n := by
  have hRounded := servedAs_rounded n
  unfold ServedAs at h hRounded
  by_cases hn : n ≤ 256
  · rw [if_pos hn] at h hRounded
    exact h.unique hRounded
  · rw [if_neg hn] at h hRounded
    exact h.trans hRounded.symm

/- Larger requests have larger powers of two. -/
theorem powerOfTwoFrom_mono
    {m n : Nat}
    (h : m ≤ n) :
    powerOfTwoFrom m ≤ powerOfTwoFrom n := by
  have hLeast := powerOfTwoFrom_isLeast n
  exact (powerOfTwoFrom_isLeast m).2
    ⟨hLeast.1.1, Nat.le_trans h hLeast.1.2⟩

/-
  Small requests stay small: the largest of them is a power
  of two itself.
-/
theorem powerOfTwoFrom_le_smallLimit
    {n : Nat}
    (h : n ≤ smallLimit) :
    powerOfTwoFrom n ≤ smallLimit := by
  have hLimit : smallLimit = 1 <<< 8 := by
    decide
  rw [hLimit] at h ⊢
  exact powerOfTwoFrom_le h

/-
  Larger requests are rounded to larger ones, also where only
  the smaller one is rounded at all.
-/
theorem rounded_mono
    {m n : Nat}
    (h : m ≤ n) :
    rounded m ≤ rounded n := by
  unfold rounded
  by_cases hm : m ≤ smallLimit
  · by_cases hn : n ≤ smallLimit
    · rw [if_pos hm, if_pos hn]
      exact powerOfTwoFrom_mono h
    · have hSmall := powerOfTwoFrom_le_smallLimit hm
      rw [if_pos hm, if_neg hn]
      omega
  · rw [if_neg hm, if_neg (by omega)]
    exact h

/- Rounding does not bring a request close to the limit. -/
theorem rounded_lt_iff
    {n : Nat} :
    rounded n + 2 * doubleWord < Word.limit ↔
      n + 2 * doubleWord < Word.limit := by
  have hSizes := Word.sizes_eq
  unfold rounded
  split
  · rename_i hn
    have hSmall := powerOfTwoFrom_le_smallLimit hn
    change n ≤ 256 at hn
    change powerOfTwoFrom n ≤ 256 at hSmall
    omega
  · exact Iff.rfl

/- A block has room for a request even after it was rounded. -/
theorem le_sizeFor_rounded
    (n : Nat) :
    n + doubleWord ≤ sizeFor (rounded n) := by
  have hRounded := le_rounded n
  have hSizeFor := le_sizeFor (rounded n)
  omega

------------------------------------------------------------
-- Block Sizes
------------------------------------------------------------

/-
  The size of a block is found without a fault, and there is
  one unless the request comes close to the limit.
-/
theorem blockSize?_eq
    (n : Nat) :
    blockSize? n =
      .ok (if n + 2 * doubleWord < Word.limit then
        some (sizeFor n)
      else
        none) := by
  have hSizes := Word.sizes_eq
  unfold blockSize?
  by_cases hSmall : n ≤ doubleWord
  · rw [if_pos hSmall, if_pos (by omega)]
    have hSize : sizeFor n = minimumBlock := by
      change n ≤ 16 at hSmall
      change max 32 ((n + 2 * 16 - 1) / 16 * 16) = 32
      omega
    rw [hSize]
    rfl
  · rw [if_neg hSmall]
    by_cases hWord : n + 2 * doubleWord < Word.limit
    · rw [if_pos hWord, if_pos hWord,
        Fault.bind_of_ok (Word.add_of_lt (by omega))]
      have hNear : n + doubleWord + (1 <<< 4) < Word.limit := by
        omega
      have hAlign := Word.roundUp_two_pow (by decide) hNear
      have hSize :
          (n + doubleWord + (1 <<< 4) - 1) / (1 <<< 4) *
            (1 <<< 4) = sizeFor n := by
        change ¬ n ≤ 16 at hSmall
        change (n + 16 + 16 - 1) / 16 * 16 =
          max 32 ((n + 2 * 16 - 1) / 16 * 16)
        omega
      have hRounded :
          Word.align (n + doubleWord) = .ok (sizeFor n) :=
        hAlign.trans (congrArg Except.ok hSize)
      rw [Fault.bind_of_ok hRounded]
      rfl
    · rw [if_neg hWord, if_neg hWord]
      rfl

/- A size that is found is the least one with room. -/
theorem blockSize?_eq_some_iff
    {n size : Nat} :
    blockSize? n = .ok (some size) ↔
      n + 2 * doubleWord < Word.limit ∧ sizeFor n = size := by
  rw [blockSize?_eq]
  by_cases hWord : n + 2 * doubleWord < Word.limit
  · simp [hWord]
  · simp [hWord]

/- No size is found if the request comes close to the limit. -/
theorem blockSize?_eq_none_iff
    {n : Nat} :
    blockSize? n = .ok none ↔
      ¬ n + 2 * doubleWord < Word.limit := by
  rw [blockSize?_eq]
  by_cases hWord : n + 2 * doubleWord < Word.limit
  · simp [hWord]
  · simp [hWord]

end Request

end SegregatedFit
