import SegregatedFit.Proofs.Block.Tiling
import SegregatedFit.Proofs.Memory.Changes

/-
  Boundary tags that are written and read back.

  Tags are written at both ends of a block.  From then on the
  block is known from either end, its end is found from its
  start and its start from its end, and no other byte has
  changed.  So blocks side by side find each other, whichever
  of them was written first.

  Key definitions include:
    * `Memory.RoomFor`
    * `Memory.Delimits`

  Key theorems include:
    * `Memory.Tagged.of_writeTags`
    * `Memory.tags_roundTrip`
-/

namespace SegregatedFit

namespace Memory

variable {m n : Memory}
variable {bp : Nat}
variable {tag : Tag}

------------------------------------------------------------
-- Blocks in Memory
------------------------------------------------------------

/-
  There is room in memory for both tags of a block at `bp`,
  whose size is a number of double words and not zero.
-/
structure RoomFor
    (m : Memory)
    (bp : Nat)
    (tag : Tag) : Prop where
  size_mod : tag.size % doubleWord = 0
  size_ne_zero : tag.size ≠ 0
  front : wordSize ≤ bp
  back : bp + tag.size - wordSize ≤ m.size

/-
  Both ends of the block at `bp` have the tag, and each end
  of the block leads to the other.
-/
structure Delimits
    (m : Memory)
    (bp : Nat)
    (tag : Tag) : Prop where
  header_eq : m.header bp = .ok tag
  footer_eq : m.footer bp = .ok tag
  nextBlock_eq : m.nextBlock bp = .ok (bp + tag.size)
  previousBlock_eq : m.previousBlock (bp + tag.size) = .ok bp

/- A block with equal tags is delimited by them. -/
theorem Tagged.delimits
    (h : m.Tagged (.ofTag bp tag)) :
    m.Delimits bp tag where
  header_eq := h.header_eq
  footer_eq := h.footer_eq
  nextBlock_eq := h.nextBlock_eq
  previousBlock_eq := by
    have hFooter : m.previousFooter (bp + tag.size) =
        .ok tag :=
      h.previousFooter_eq
    unfold previousBlock
    rw [Fault.bind_of_ok hFooter,
      Word.sub_of_le (Nat.le_add_left _ _),
      Nat.add_sub_cancel]

------------------------------------------------------------
-- Writing Tags
------------------------------------------------------------

/- A block with room for its tags takes a double word at least. -/
theorem RoomFor.doubleWord_le
    (h : m.RoomFor bp tag) :
    doubleWord ≤ tag.size :=
  Nat.le_of_dvd (Nat.pos_of_ne_zero h.size_ne_zero)
    (Nat.dvd_of_mod_eq_zero h.size_mod)

/- Where there is room for tags, they are written. -/
theorem RoomFor.exists_writeTags
    (h : m.RoomFor bp tag)
    (hWord : m.size + wordSize < Word.limit) :
    ∃ n, m.writeTags bp tag = .ok n := by
  have hSizes := Word.sizes_eq
  have hLeast := h.doubleWord_le
  have hBack := h.back
  exact m.exists_writeTags bp tag h.front (by omega)
    (by omega) (by omega) (by omega)

/- The size of memory decides where there is room. -/
theorem RoomFor.of_size
    (h : m.RoomFor bp tag)
    (hSize : n.size = m.size) :
    n.RoomFor bp tag :=
  { h with back := hSize.symm ▸ h.back }

/- Tags of one block are written beside those of another one. -/
theorem Tagged.of_writeTags
    {block : ChainBlock}
    (h : m.Tagged block)
    (hWrite : m.writeTags bp tag = .ok n)
    (hSize : doubleWord ≤ tag.size)
    (hRoom : doubleWord ≤ block.header.size)
    (hApart : block.offset + block.header.size ≤ bp ∨
      bp + tag.size ≤ block.offset) :
    n.Tagged block := by
  have hSizes := Word.sizes_eq
  have hChanges := changesOnly_writeTags hWrite
  apply h.of_agrees_whole (Nat.le_of_eq hChanges.1.symm) hRoom
  apply hChanges.agrees
  intro stretch hStretch
  simp only [List.mem_cons, List.not_mem_nil, or_false]
    at hStretch
  rcases hStretch with rfl | rfl
  · dsimp only
    omega
  · dsimp only
    omega

/-
  Two blocks side by side, one written after the other, are
  both delimited.
-/
theorem delimits_of_writeTags
    {half : Memory}
    {bp' : Nat}
    {tag' : Tag}
    (hFirst : m.writeTags bp tag = .ok half)
    (hSecond : half.writeTags bp' tag' = .ok n)
    (hRoom : m.RoomFor bp tag)
    (hRoom' : m.RoomFor bp' tag')
    (hApart : bp + tag.size ≤ bp' ∨ bp' + tag'.size ≤ bp) :
    n.Delimits bp tag ∧ n.Delimits bp' tag' := by
  have hTagged := tagged_of_writeTags hRoom.size_mod hFirst
  have hTagged' := tagged_of_writeTags hRoom'.size_mod hSecond
  have hKept := hTagged.of_writeTags hSecond
    hRoom'.doubleWord_le hRoom.doubleWord_le hApart
  exact ⟨hKept.delimits, hTagged'.delimits⟩

/-
  Tags are written wherever there is room for them.  They are
  read back at both ends of their block, each end is found
  from the other, and no byte outside of them has changed.

  The same can be done for a block right behind, before or
  afterwards, and then both blocks are found from each other.
  The offsets of the memory and of the word behind its last
  byte are words.
-/
theorem tags_roundTrip
    (hWord : m.size + wordSize < Word.limit)
    (hRoom : m.RoomFor bp tag) :
    ∃ n, m.writeTags bp tag = .ok n ∧
      n.Delimits bp tag ∧
      m.ChangesOnly n
        [(bp - wordSize, wordSize),
          (bp + tag.size - doubleWord, wordSize)] ∧
      ∀ other, m.RoomFor (bp + tag.size) other →
        (∃ k, n.writeTags (bp + tag.size) other = .ok k ∧
          k.Delimits bp tag ∧
          k.Delimits (bp + tag.size) other) ∧
        ∃ half k,
          m.writeTags (bp + tag.size) other = .ok half ∧
          half.writeTags bp tag = .ok k ∧
          k.Delimits bp tag ∧
          k.Delimits (bp + tag.size) other := by
  rcases hRoom.exists_writeTags hWord with ⟨n, hWrite⟩
  have hSize := size_of_writeTags hWrite
  refine ⟨n, hWrite,
    (tagged_of_writeTags hRoom.size_mod hWrite).delimits,
    changesOnly_writeTags hWrite, ?_⟩
  intro other hOther
  constructor
  · rcases (hOther.of_size hSize).exists_writeTags
        (hSize.symm ▸ hWord) with
      ⟨k, hBehind⟩
    exact ⟨k, hBehind, delimits_of_writeTags hWrite hBehind
      hRoom hOther (Or.inl (Nat.le_refl _))⟩
  · rcases hOther.exists_writeTags hWord with ⟨half, hBehind⟩
    have hHalf := size_of_writeTags hBehind
    rcases (hRoom.of_size hHalf).exists_writeTags
        (hHalf.symm ▸ hWord) with
      ⟨k, hAhead⟩
    have hBoth := delimits_of_writeTags hBehind hAhead hOther
      hRoom (Or.inr (Nat.le_refl _))
    exact ⟨half, k, hBehind, hAhead, hBoth.2, hBoth.1⟩

/- Two blocks, the first of them as small as can be, fill 64 bytes. -/
theorem tags_roundTrip_least :
    ∃ n, (Memory.empty.extend 64).writeTags 8
        { size := 16, allocated := true } = .ok n ∧
      n.Delimits 8 { size := 16, allocated := true } ∧
      ∃ k, n.writeTags 24
          { size := 48, allocated := false } = .ok k ∧
        k.nextBlock 8 = .ok 24 ∧
        k.previousBlock 24 = .ok 8 := by
  have hSize : (Memory.empty.extend 64).size = 64 :=
    size_extend _ _
  have hRoom : (Memory.empty.extend 64).RoomFor 8
      { size := 16, allocated := true } :=
    ⟨by decide, by decide, by decide, by rw [hSize]; decide⟩
  have hOther : (Memory.empty.extend 64).RoomFor (8 + 16)
      { size := 48, allocated := false } :=
    ⟨by decide, by decide, by decide, by rw [hSize]; decide⟩
  rcases tags_roundTrip (by rw [hSize]; decide) hRoom with
    ⟨n, hWrite, hDelimits, _, hBeside⟩
  rcases (hBeside _ hOther).1 with ⟨k, hBehind, hFirst, _⟩
  exact ⟨n, hWrite, hDelimits, k, hBehind,
    hFirst.nextBlock_eq, hFirst.previousBlock_eq⟩

end Memory

end SegregatedFit
