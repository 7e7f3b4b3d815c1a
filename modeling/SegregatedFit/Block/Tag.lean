import SegregatedFit.Word.Basic

/-
  Boundary tags: the size of a block and whether it is
  allocated, packed into one word.

  Block sizes are multiples of sixteen, so the lowest bit of
  the word is free for the flag.  Of the four low bits only
  that one is read back: `Tag.unpack_pack`.
-/

namespace SegregatedFit

/- The size of a block and whether it is allocated. -/
structure Tag where
  size : Nat
  allocated : Bool
  deriving DecidableEq, Repr

namespace Tag

------------------------------------------------------------
-- Packing
------------------------------------------------------------

/- The word of a tag: the size with the flag in its lowest bit. -/
def pack
    (tag : Tag) : Nat :=
  if tag.allocated then
    tag.size / 2 * 2 + 1
  else
    tag.size

/-
  The tag of a word: the size without its four lowest bits
  and the flag from the lowest one.
-/
def unpack
    (word : Nat) : Tag where
  size := word / 16 * 16
  allocated := word % 2 = 1

/- Tags whose size is a multiple of sixteen read back. -/
theorem unpack_pack
    {tag : Tag}
    (h : tag.size % doubleWord = 0) :
    unpack tag.pack = tag := by
  rcases tag with ⟨size, allocated⟩
  have hSize : size % 16 = 0 := h
  cases allocated with
  | true =>
      simp only [pack, unpack, if_true, Tag.mk.injEq,
        decide_eq_true_eq]
      omega
  | false =>
      simp only [pack, unpack, Bool.false_eq_true, if_false,
        Tag.mk.injEq, decide_eq_false_iff_not]
      omega

/- Sizes that are read are multiples of sixteen. -/
theorem size_unpack_mod
    (word : Nat) :
    (unpack word).size % doubleWord = 0 := by
  simp [unpack]

/- The word of a tag is a word if the size is one. -/
theorem pack_lt
    {tag : Tag}
    (h : tag.size < Word.limit) :
    tag.pack < Word.limit := by
  unfold pack
  unfold Word.limit at *
  split <;> omega

------------------------------------------------------------
-- Text
------------------------------------------------------------

/- The text of a tag, such as `48:a` or `96:f`. -/
def toText
    (tag : Tag) : String :=
  toString tag.size ++ (if tag.allocated then ":a" else ":f")

end Tag

end SegregatedFit
