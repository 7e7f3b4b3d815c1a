/-
  Machine words and the arithmetic that the allocator does
  on them.

  A word is a natural number below `Word.limit`.  Sums,
  differences and products that leave this range are faults,
  so they never wrap around.

  Key definitions include:
    * `Fault`
    * `Word.limit`
    * `Word.add`
    * `Word.sub`
    * `Word.mul`
    * `Word.complement`
-/

namespace SegregatedFit

------------------------------------------------------------
-- Faults
------------------------------------------------------------

/-
  The reasons for which an operation stops without a result:
  arithmetic that leaves the words, an access outside the
  memory, and a walk along links that never ends.
-/
inductive Fault where
  | overflow
  | outOfBounds
  | endless
  deriving DecidableEq, Repr

/- A sequence succeeds exactly when both of its parts do. -/
theorem Fault.bind_eq_ok_iff
    {α β : Type}
    {x : Except Fault α}
    {f : α → Except Fault β}
    {b : β} :
    x >>= f = .ok b ↔
      ∃ a, x = .ok a ∧ f a = .ok b := by
  cases x with
  | error fault =>
      constructor
      · intro h
        cases h
      · rintro ⟨a, h, _⟩
        cases h
  | ok a =>
      constructor
      · intro h
        exact ⟨a, rfl, h⟩
      · rintro ⟨a', h, h'⟩
        cases h
        exact h'

/- A sequence goes on with the result of its first part. -/
theorem Fault.bind_of_ok
    {α β : Type}
    {x : Except Fault α}
    {f : α → Except Fault β}
    {a : α}
    (h : x = .ok a) :
    x >>= f = f a := by
  rw [h]
  rfl

------------------------------------------------------------
-- Words
------------------------------------------------------------

/- The size of a word in bytes. -/
abbrev wordSize : Nat :=
  8

/- The size of a double word in bytes, the unit of alignment. -/
abbrev doubleWord : Nat :=
  16

namespace Word

/- Words are the natural numbers of at most 64 bits. -/
abbrev limit : Nat :=
  0x10000000000000000

/- The named sizes as numbers, for linear arithmetic. -/
theorem sizes_eq :
    wordSize = 8 ∧ doubleWord = 16 ∧
      limit = 18446744073709551616 := by
  decide

/- The sum of two words, if it is a word. -/
def add
    (a b : Nat) : Except Fault Nat :=
  if a + b < limit then
    .ok (a + b)
  else
    .error .overflow

/- The difference of two words, if it is a word. -/
def sub
    (a b : Nat) : Except Fault Nat :=
  if b ≤ a then
    .ok (a - b)
  else
    .error .overflow

/- The product of two words, if it is a word. -/
def mul
    (a b : Nat) : Except Fault Nat :=
  if a * b < limit then
    .ok (a * b)
  else
    .error .overflow

/- The word whose bits are those that `a` does not have. -/
def complement
    (a : Nat) : Nat :=
  limit - 1 - a

/- A sum succeeds exactly below the limit. -/
theorem add_eq_ok_iff
    {a b c : Nat} :
    add a b = .ok c ↔
      a + b < limit ∧ c = a + b := by
  unfold add
  split
  · rename_i h
    simp [h, eq_comm]
  · rename_i h
    simp [h]

/- A sum below the limit succeeds. -/
theorem add_of_lt
    {a b : Nat}
    (h : a + b < limit) :
    add a b = .ok (a + b) :=
  add_eq_ok_iff.2 ⟨h, rfl⟩

/- A difference succeeds exactly when it is not negative. -/
theorem sub_eq_ok_iff
    {a b c : Nat} :
    sub a b = .ok c ↔
      b ≤ a ∧ c = a - b := by
  unfold sub
  split
  · rename_i h
    simp [h, eq_comm]
  · rename_i h
    simp [h]

/- A product succeeds exactly below the limit. -/
theorem mul_eq_ok_iff
    {a b c : Nat} :
    mul a b = .ok c ↔
      a * b < limit ∧ c = a * b := by
  unfold mul
  split
  · rename_i h
    simp [h, eq_comm]
  · rename_i h
    simp [h]

/- A difference that is not negative succeeds. -/
theorem sub_of_le
    {a b : Nat}
    (h : b ≤ a) :
    sub a b = .ok (a - b) :=
  sub_eq_ok_iff.2 ⟨h, rfl⟩

end Word

end SegregatedFit
