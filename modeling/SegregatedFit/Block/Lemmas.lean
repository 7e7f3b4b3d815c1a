import SegregatedFit.Block.Basic
import SegregatedFit.Memory.Lemmas

/-
  What writing the tags of a block does to memory.

  Written tags read back from both ends of the block, and the
  neighbours find each other:
    * `Memory.writeTags_eq_ok_iff`
    * `Memory.header_of_writeTags`
    * `Memory.footer_of_writeTags`
    * `Memory.previousFooter_of_writeTags`
-/

namespace SegregatedFit

namespace Memory

------------------------------------------------------------
-- Reading Tags
------------------------------------------------------------

/- A tag is read exactly where a word is. -/
theorem loadTag_eq_ok_iff
    {m : Memory}
    {offset : Nat}
    {tag : Tag} :
    m.loadTag offset = .ok tag ↔
      ∃ word, m.loadWord offset = .ok word ∧
        Tag.unpack word = tag := by
  unfold loadTag
  rw [Fault.bind_eq_ok_iff]
  constructor
  · rintro ⟨word, h, h'⟩
    cases h'
    exact ⟨word, h, rfl⟩
  · rintro ⟨word, h, rfl⟩
    exact ⟨word, h, rfl⟩

/- A header is the tag in front of the payload. -/
theorem header_eq_ok_iff
    {m : Memory}
    {bp : Nat}
    {tag : Tag} :
    m.header bp = .ok tag ↔
      wordSize ≤ bp ∧ m.loadTag (bp - wordSize) = .ok tag := by
  unfold header
  rw [Fault.bind_eq_ok_iff]
  constructor
  · rintro ⟨offset, h, h'⟩
    rw [Word.sub_eq_ok_iff] at h
    rcases h with ⟨hle, rfl⟩
    exact ⟨hle, h'⟩
  · rintro ⟨hle, h⟩
    exact ⟨bp - wordSize, Word.sub_of_le hle, h⟩

/- The footer of the block in front is two words back. -/
theorem previousFooter_eq_ok_iff
    {m : Memory}
    {bp : Nat}
    {tag : Tag} :
    m.previousFooter bp = .ok tag ↔
      doubleWord ≤ bp ∧
        m.loadTag (bp - doubleWord) = .ok tag := by
  unfold previousFooter
  rw [Fault.bind_eq_ok_iff]
  constructor
  · rintro ⟨offset, h, h'⟩
    rw [Word.sub_eq_ok_iff] at h
    rcases h with ⟨hle, rfl⟩
    exact ⟨hle, h'⟩
  · rintro ⟨hle, h⟩
    exact ⟨bp - doubleWord, Word.sub_of_le hle, h⟩

/- A footer is the previous footer of the next block. -/
theorem footer_eq_ok_iff
    {m : Memory}
    {bp : Nat}
    {tag : Tag} :
    m.footer bp = .ok tag ↔
      ∃ header, m.header bp = .ok header ∧
        bp + header.size < Word.limit ∧
        m.previousFooter (bp + header.size) = .ok tag := by
  unfold footer
  rw [Fault.bind_eq_ok_iff]
  constructor
  · rintro ⟨header, h, h'⟩
    rw [Fault.bind_eq_ok_iff] at h'
    rcases h' with ⟨stop, hStop, h''⟩
    rw [Word.add_eq_ok_iff] at hStop
    rcases hStop with ⟨hlt, rfl⟩
    exact ⟨header, h, hlt, h''⟩
  · rintro ⟨header, h, hlt, h'⟩
    refine ⟨header, h, ?_⟩
    rw [Fault.bind_of_ok (Word.add_of_lt hlt)]
    exact h'

/- Memories that agree on a word agree on its tag. -/
theorem loadTag_congr
    {m n : Memory}
    {offset : Nat}
    (h : n.loadWord offset = m.loadWord offset) :
    n.loadTag offset = m.loadTag offset := by
  unfold loadTag
  rw [h]

------------------------------------------------------------
-- Writing Tags
------------------------------------------------------------

/-
  Tags are written as two words, each where there is room
  for it.
-/
theorem writeTags_eq_ok_iff
    {m n : Memory}
    {bp : Nat}
    {tag : Tag} :
    m.writeTags bp tag = .ok n ↔
      ∃ half,
        wordSize ≤ bp ∧
        m.storeWord (bp - wordSize) tag.pack = .ok half ∧
        bp + tag.size < Word.limit ∧
        doubleWord ≤ bp + tag.size ∧
        half.storeWord (bp + tag.size - doubleWord) tag.pack =
          .ok n := by
  unfold writeTags
  rw [Fault.bind_eq_ok_iff]
  constructor
  · rintro ⟨front, hFront, h⟩
    rw [Word.sub_eq_ok_iff] at hFront
    rcases hFront with ⟨hle, rfl⟩
    rw [Fault.bind_eq_ok_iff] at h
    rcases h with ⟨half, hHalf, h⟩
    rw [Fault.bind_eq_ok_iff] at h
    rcases h with ⟨stop, hStop, h⟩
    rw [Word.add_eq_ok_iff] at hStop
    rcases hStop with ⟨hlt, rfl⟩
    rw [Fault.bind_eq_ok_iff] at h
    rcases h with ⟨back, hBack, h⟩
    rw [Word.sub_eq_ok_iff] at hBack
    rcases hBack with ⟨hge, rfl⟩
    exact ⟨half, hle, hHalf, hlt, hge, h⟩
  · rintro ⟨half, hle, hHalf, hlt, hge, h⟩
    refine ⟨bp - wordSize, Word.sub_of_le hle, ?_⟩
    rw [Fault.bind_of_ok hHalf,
      Fault.bind_of_ok (Word.add_of_lt hlt),
      Fault.bind_of_ok (Word.sub_of_le hge)]
    exact h

/- Writing tags keeps the size. -/
theorem size_of_writeTags
    {m n : Memory}
    {bp : Nat}
    {tag : Tag}
    (h : m.writeTags bp tag = .ok n) :
    n.size = m.size := by
  rcases writeTags_eq_ok_iff.1 h with
    ⟨half, _, hHalf, _, _, hBack⟩
  rw [size_of_storeWord hBack, size_of_storeWord hHalf]

/- A written tag is the header of its block. -/
theorem header_of_writeTags
    {m n : Memory}
    {bp : Nat}
    {tag : Tag}
    (hSize : tag.size % doubleWord = 0)
    (h : m.writeTags bp tag = .ok n) :
    n.header bp = .ok tag := by
  rcases writeTags_eq_ok_iff.1 h with
    ⟨half, hle, hHalf, hlt, hge, hLast⟩
  have hSizes := Word.sizes_eq
  have hMod : tag.size % 16 = 0 := hSize
  have hWord : tag.pack < Word.limit :=
    Tag.pack_lt (by omega)
  rw [header_eq_ok_iff]
  refine ⟨hle, ?_⟩
  rw [loadTag_eq_ok_iff]
  refine ⟨tag.pack, ?_, Tag.unpack_pack hSize⟩
  rw [loadWord_storeWord_of_disjoint (by omega) hLast]
  exact loadWord_storeWord_self hWord hHalf

/- A written tag is met from behind. -/
theorem previousFooter_of_writeTags
    {m n : Memory}
    {bp : Nat}
    {tag : Tag}
    (hSize : tag.size % doubleWord = 0)
    (h : m.writeTags bp tag = .ok n) :
    n.previousFooter (bp + tag.size) = .ok tag := by
  rcases writeTags_eq_ok_iff.1 h with
    ⟨half, _, _, hlt, hge, hLast⟩
  have hWord : tag.pack < Word.limit :=
    Tag.pack_lt (by omega)
  rw [previousFooter_eq_ok_iff]
  refine ⟨hge, ?_⟩
  rw [loadTag_eq_ok_iff]
  exact ⟨tag.pack, loadWord_storeWord_self hWord hLast,
    Tag.unpack_pack hSize⟩

/- A written tag is the footer of its block. -/
theorem footer_of_writeTags
    {m n : Memory}
    {bp : Nat}
    {tag : Tag}
    (hSize : tag.size % doubleWord = 0)
    (h : m.writeTags bp tag = .ok n) :
    n.footer bp = .ok tag := by
  have hHeader := header_of_writeTags hSize h
  rcases writeTags_eq_ok_iff.1 h with ⟨_, _, _, hlt, _, _⟩
  rw [footer_eq_ok_iff]
  exact ⟨tag, hHeader, hlt, previousFooter_of_writeTags hSize h⟩

end Memory

end SegregatedFit
