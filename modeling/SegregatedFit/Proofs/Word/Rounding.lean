import Mathlib.Algebra.Order.Floor.Div
import Mathlib.Order.Bounds.Basic
import SegregatedFit.Word.Alignment

/-
  Rounding words up, at all magnitudes.

  For a power of two, `Word.roundUp` succeeds exactly when the
  value plus the unit is a word.  Its result is the least
  multiple of the unit that is not below the value, so less
  than one unit is added to the value.

  Key theorems include:
    * `Word.roundUp_eq_ok_iff`
    * `Word.roundUp_eq_error_iff`
    * `Word.exists_padding`
-/

namespace SegregatedFit

namespace Word

variable {value unit rounded k : Nat}

------------------------------------------------------------
-- Least Multiples
------------------------------------------------------------

/- Dividing up and multiplying again gives the least multiple. -/
theorem isLeast_multiple
    (hUnit : 0 < unit) :
    IsLeast
      {multiple | unit ∣ multiple ∧ value ≤ multiple}
      ((value + unit - 1) / unit * unit) := by
  rw [← Nat.ceilDiv_eq_add_pred_div, Nat.mul_comm]
  constructor
  · exact ⟨Nat.dvd_mul_right unit _, le_smul_ceilDiv hUnit⟩
  · rintro multiple ⟨⟨factor, rfl⟩, hLe⟩
    exact Nat.mul_le_mul_left unit
      ((ceilDiv_le_iff_le_mul hUnit).2 hLe)

/- The least multiple is reached within one unit. -/
theorem lt_add_of_isLeast
    (hUnit : 0 < unit)
    (h : IsLeast
      {multiple | unit ∣ multiple ∧ value ≤ multiple}
      rounded) :
    rounded < value + unit := by
  by_contra hFar
  have hPrevious : unit ∣ rounded - unit :=
    Nat.dvd_sub h.1.1 (Nat.dvd_refl unit)
  have hLeast : rounded ≤ rounded - unit :=
    h.2 ⟨hPrevious, by omega⟩
  omega

------------------------------------------------------------
-- Rounding Up
------------------------------------------------------------

/- Within one unit of the limit, the first sum overflows. -/
theorem roundUp_overflow
    (h : limit ≤ value + unit) :
    roundUp value unit = .error .overflow := by
  unfold roundUp add
  rw [if_neg (Nat.not_lt.2 h)]
  rfl

/-
  Everywhere else, a value is rounded to the least multiple
  of a power of two.
-/
theorem exists_roundUp
    (h : value + 2 ^ k < limit) :
    ∃ rounded, roundUp value (2 ^ k) = .ok rounded ∧
      IsLeast
        {multiple | 2 ^ k ∣ multiple ∧ value ≤ multiple}
        rounded := by
  have hPower : 2 ^ k < 2 ^ 64 :=
    Nat.lt_of_le_of_lt (Nat.le_add_left _ value) h
  have hSmall : k < 64 :=
    (Nat.pow_lt_pow_iff_right (by decide)).1 hPower
  have hNear : value + (1 <<< k) < limit := by
    rwa [Nat.one_shiftLeft]
  have hRounded := roundUp_two_pow (Nat.le_of_lt hSmall) hNear
  rw [Nat.one_shiftLeft] at hRounded
  exact ⟨_, hRounded, isLeast_multiple (Nat.two_pow_pos k)⟩

/-
  A value is rounded to the least multiple, and only if the
  value plus the unit is a word.
-/
theorem roundUp_eq_ok_iff :
    roundUp value (2 ^ k) = .ok rounded ↔
      value + 2 ^ k < limit ∧
        IsLeast
          {multiple | 2 ^ k ∣ multiple ∧ value ≤ multiple}
          rounded := by
  constructor
  · intro h
    have hWord := lt_limit_of_roundUp h
    rcases exists_roundUp hWord with ⟨least, hLeast, hIsLeast⟩
    rw [h] at hLeast
    cases hLeast
    exact ⟨hWord, hIsLeast⟩
  · rintro ⟨hWord, hIsLeast⟩
    rcases exists_roundUp hWord with ⟨least, hLeast, hOther⟩
    rw [hLeast, hOther.unique hIsLeast]

/- Otherwise the sum overflows, and nothing else goes wrong. -/
theorem roundUp_eq_error_iff
    {fault : Fault} :
    roundUp value (2 ^ k) = .error fault ↔
      limit ≤ value + 2 ^ k ∧ fault = .overflow := by
  constructor
  · intro h
    have hFar : limit ≤ value + 2 ^ k := by
      by_contra hNear
      rcases exists_roundUp (Nat.not_le.1 hNear) with
        ⟨rounded, hRounded, _⟩
      rw [h] at hRounded
      cases hRounded
    rw [roundUp_overflow hFar] at h
    cases h
    exact ⟨hFar, rfl⟩
  · rintro ⟨hFar, rfl⟩
    exact roundUp_overflow hFar

------------------------------------------------------------
-- Padding
------------------------------------------------------------

/-
  Fewer bytes than a double word lead up to the next double
  word.
-/
theorem exists_padding
    (h : value + doubleWord < limit) :
    ∃ bytes, padding value = .ok bytes ∧
      bytes < doubleWord ∧
      doubleWord ∣ value + bytes := by
  rcases exists_roundUp (k := 4) h with
    ⟨aligned, hRounded, hLeast⟩
  have hAligned : align value = .ok aligned :=
    hRounded
  have hNear : aligned < value + doubleWord :=
    lt_add_of_isLeast (by decide) hLeast
  have hReached : value + (aligned - value) = aligned :=
    Nat.add_sub_of_le hLeast.1.2
  refine ⟨aligned - value, ?_, by omega, ?_⟩
  · unfold padding
    rw [Fault.bind_of_ok hAligned]
    exact sub_of_le hLeast.1.2
  · rw [hReached]
    exact hLeast.1.1

end Word

end SegregatedFit
