import SegregatedFit.Word.Basic

/-
  Rounding a word up to a multiple of a unit.

  `Word.roundUp` adds the unit less one and clears the bits
  below the unit.  For a unit that is a power of two, the
  result is the least multiple that is not below the value:
  `Word.roundUp_two_pow`.
-/

namespace SegregatedFit

namespace Word

------------------------------------------------------------
-- Rounding Up
------------------------------------------------------------

/-
  Round `value` up to a multiple of `unit`.  The unit is
  added before one is taken away, so a value within one unit
  of the limit is a fault even where its multiple is a word.
-/
def roundUp
    (value unit : Nat) : Except Fault Nat := do
  let raised ← add value unit
  let last ← sub raised 1
  let mask ← sub unit 1
  return last &&& complement mask

/- Round `value` up to a multiple of the double word. -/
def align
    (value : Nat) : Except Fault Nat :=
  roundUp value doubleWord

/- The bytes between a value and the next double word. -/
def padding
    (value : Nat) : Except Fault Nat := do
  let aligned ← align value
  sub aligned value

------------------------------------------------------------
-- Powers of Two
------------------------------------------------------------

/- Clearing the lowest `k` bits rounds down. -/
theorem and_complement_two_pow
    {a k : Nat}
    (hk : k ≤ 64)
    (ha : a < limit) :
    a &&& complement ((1 <<< k) - 1) =
      a / (1 <<< k) * (1 <<< k) := by
  rw [Nat.one_shiftLeft]
  have hpos : 0 < 2 ^ k := Nat.two_pow_pos k
  have hle : 2 ^ k ≤ 2 ^ 64 :=
    Nat.pow_le_pow_right (by decide) hk
  have hmask : complement (2 ^ k - 1) = 2 ^ 64 - 2 ^ k := by
    unfold complement limit
    omega
  rw [hmask]
  apply Nat.eq_of_testBit_eq
  intro i
  rw [Nat.testBit_and, Nat.testBit_mul_two_pow,
    Nat.testBit_div_two_pow]
  have hsplit : 2 ^ 64 - 2 ^ k = 2 ^ 64 - ((2 ^ k - 1) + 1) := by
    omega
  rw [hsplit, Nat.testBit_two_pow_sub_succ (by omega),
    Nat.testBit_two_pow_sub_one]
  by_cases hi : k ≤ i
  · by_cases h64 : i < 64
    · simp [hi, h64, Nat.not_lt.2 hi]
    · have hbit : a.testBit i = false :=
        Nat.testBit_lt_two_pow
          (Nat.lt_of_lt_of_le ha
            (Nat.pow_le_pow_right Nat.two_pos
              (Nat.not_lt.1 h64)))
      simp [hi, h64, hbit]
  · simp [hi, Nat.lt_of_not_le hi]

/-
  For a power of two, rounding up succeeds if the value plus
  the unit is a word.
-/
theorem roundUp_two_pow
    {value k : Nat}
    (hk : k ≤ 64)
    (h : value + (1 <<< k) < limit) :
    roundUp value (1 <<< k) =
      .ok ((value + (1 <<< k) - 1) / (1 <<< k) *
        (1 <<< k)) := by
  have hpos : 0 < 1 <<< k := by
    rw [Nat.one_shiftLeft]
    exact Nat.two_pow_pos k
  have hlast : value + (1 <<< k) - 1 < limit := by
    omega
  unfold roundUp
  rw [Fault.bind_of_ok (add_of_lt h),
    Fault.bind_of_ok (sub_of_le (by omega)),
    Fault.bind_of_ok (sub_of_le hpos),
    and_complement_two_pow hk hlast]
  rfl

/- A value that rounds up is not within a unit of the limit. -/
theorem lt_limit_of_roundUp
    {value unit rounded : Nat}
    (h : roundUp value unit = .ok rounded) :
    value + unit < limit := by
  unfold roundUp at h
  rw [Fault.bind_eq_ok_iff] at h
  rcases h with ⟨raised, hRaised, _⟩
  exact (add_eq_ok_iff.1 hRaised).1

/- Aligned words are multiples of the double word. -/
theorem align_mod
    {value aligned : Nat}
    (h : align value = .ok aligned) :
    aligned % doubleWord = 0 := by
  have hNear : value + (1 <<< 4) < limit :=
    lt_limit_of_roundUp h
  have hAlign := roundUp_two_pow (by decide) hNear
  have hEq := hAlign.symm.trans h
  cases hEq
  exact Nat.mul_mod_left _ _

/- Padding leads up to a multiple of the double word. -/
theorem padding_mod
    {value bytes : Nat}
    (h : padding value = .ok bytes) :
    (value + bytes) % doubleWord = 0 := by
  unfold padding at h
  rw [Fault.bind_eq_ok_iff] at h
  rcases h with ⟨aligned, hAligned, hBytes⟩
  rw [sub_eq_ok_iff] at hBytes
  rcases hBytes with ⟨hLe, rfl⟩
  rw [Nat.add_sub_of_le hLe]
  exact align_mod hAligned

end Word

end SegregatedFit
