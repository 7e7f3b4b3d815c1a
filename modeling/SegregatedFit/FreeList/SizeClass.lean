/-
  Size classes.

  Free blocks are filed by size in ten classes.  Each class
  but the last one has an inclusive upper bound, and the last
  one takes all that is larger: `SizeClass.classify`.
-/

namespace SegregatedFit

namespace SizeClass

/- The upper bounds of all classes but the last one. -/
def limits : List Nat :=
  [32, 64, 128, 256, 512, 1024, 2048, 4096, 8192]

/- The number of classes. -/
abbrev count : Nat :=
  10

/- The class of a block size: the first with a bound that holds it. -/
def classify
    (size : Nat) : Nat :=
  limits.findIdx (fun limit => size ≤ limit)

/- Every size has a class. -/
theorem classify_lt
    (size : Nat) :
    classify size < count :=
  Nat.lt_succ_of_le List.findIdx_le_length

/- The class at hand and all above it, in ascending order. -/
def upFrom
    (c : Nat) : List Nat :=
  List.range' c (count - c)

/- A class is at hand or above it if it is one at all. -/
theorem mem_upFrom_iff
    {c d : Nat} :
    d ∈ upFrom c ↔ c ≤ d ∧ d < count := by
  unfold upFrom
  rw [List.mem_range'_1]
  omega

/- All classes in ascending order. -/
def all : List Nat :=
  upFrom 0

/- All classes are those below the count. -/
theorem mem_all_iff
    {c : Nat} :
    c ∈ all ↔ c < count := by
  unfold all
  rw [mem_upFrom_iff]
  omega

end SizeClass

end SegregatedFit
