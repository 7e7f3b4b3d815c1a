import SegregatedFit.Allocator.Operations
import SegregatedFit.Proofs.Heap.Steps

/-
  How a heap begins and how it grows.

  The frame behind a cleared table makes a heap without
  blocks, and a heap grows by a free block where its epilogue
  stood.

  Key theorems include:
    * `Memory.header_of_storeWord`
    * `OpenHeap.of_frame`
    * `OpenHeap.append`
-/

namespace SegregatedFit

------------------------------------------------------------
-- Stored Tags
------------------------------------------------------------

namespace Memory

variable {m n : Memory}

/- A tag whose word was stored is read back. -/
theorem loadTag_of_storeWord
    {offset : Nat}
    {tag : Tag}
    (hSize : tag.size % doubleWord = 0)
    (hWord : tag.size < Word.limit)
    (h : m.storeWord offset tag.pack = .ok n) :
    n.loadTag offset = .ok tag := by
  rw [loadTag_eq_ok_iff]
  exact ⟨tag.pack, loadWord_storeWord_self (Tag.pack_lt hWord) h,
    Tag.unpack_pack hSize⟩

/- An epilogue that was stored in front of an offset is read back. -/
theorem header_of_storeWord
    {bp : Nat}
    (h : m.storeWord (bp - wordSize) Tag.epilogue.pack = .ok n)
    (hFront : wordSize ≤ bp) :
    n.header bp = .ok Tag.epilogue := by
  rw [header_eq_ok_iff]
  exact ⟨hFront, loadTag_of_storeWord (by decide) (by decide) h⟩

end Memory

namespace OpenHeap

variable {table : SentinelTable}
variable {m : Memory}
variable {blocks : List ChainBlock}
variable {lists : FreeLists}

------------------------------------------------------------
-- The Frame
------------------------------------------------------------

/- The frame behind a cleared table makes a heap without blocks. -/
theorem of_frame
    (hRings : ∀ c, c < SizeClass.count →
      m.Ring (table.sentinel c) [])
    (hSize : m.size = table.firstBlock)
    (hWord : m.size < Word.limit) :
    ∃ n, Allocator.writeFrame table m = .ok n ∧
      n.size = m.size ∧
      OpenHeap table n [] [] [] (fun _ => []) := by
  have hSizes := layout_sizes
  have hFirst := table.firstBlock_eq
  have hPrologue := table.prologue_eq
  have hTag : Tag.prologue.size = 16 := rfl
  let start := table.offset + SentinelTable.size
  have hStart : start = table.offset + 160 := rfl
  rcases m.exists_storeWord start 0 (by omega) with
    ⟨first, hPad⟩
  have hFirstSize := Memory.size_of_storeWord hPad
  rcases first.exists_storeWord (start + wordSize)
      Tag.prologue.pack
      (by omega) with
    ⟨second, hFront⟩
  have hSecondSize := Memory.size_of_storeWord hFront
  rcases second.exists_storeWord (start + 2 * wordSize)
      Tag.prologue.pack
      (by omega) with
    ⟨third, hBack⟩
  have hThirdSize := Memory.size_of_storeWord hBack
  rcases third.exists_storeWord (start + 3 * wordSize)
      Tag.epilogue.pack
      (by omega) with
    ⟨n, hEnd⟩
  have hEndSize := Memory.size_of_storeWord hEnd
  -- The two words in the middle are the tags of the prologue.
  have hTags :
      first.writeTags table.prologue Tag.prologue =
        .ok third := by
    rw [Memory.writeTags_eq_ok_iff]
    have hFrontAt :
        table.prologue - wordSize = start + wordSize := by
      omega
    have hBackAt :
        table.prologue + Tag.prologue.size - doubleWord =
          start + 2 * wordSize := by
      omega
    rw [hFrontAt, hBackAt]
    exact ⟨second, by omega, hFront, by omega, by omega, hBack⟩
  have hTagged : third.Tagged table.prologueBlock :=
    Memory.tagged_of_writeTags (by decide) hTags
  have hOffset :
      table.prologueBlock.offset = table.offset + 176 := rfl
  have hBlockSize : table.prologueBlock.header.size = 16 := rfl
  refine ⟨n, ?_, by omega, ?_⟩
  · unfold Allocator.writeFrame
    dsimp only
    rw [Fault.bind_of_ok hPad, Fault.bind_of_ok hFront,
      Fault.bind_of_ok hBack]
    exact hEnd
  · refine ⟨?_, ?_, ?_, ?_, ?_, ?_, ?_, ?_⟩
    · apply hTagged.of_agrees_whole (Nat.le_of_eq hEndSize.symm)
        (by omega)
      intro i hi hi'
      exact Memory.byte_of_storeWord hEnd (by omega)
    · have hAt : start + 3 * wordSize = n.size - wordSize := by
        omega
      rw [hAt] at hEnd
      exact Memory.header_of_storeWord hEnd (by omega)
    · change table.firstBlock = n.size
      omega
    · intro block hBlock
      cases hBlock
    · intro block hBlock
      cases hBlock
    · intro c hc
      have hInside := table.sentinel_inside hc
      apply (hRings c hc).of_agrees (by omega)
      intro x hx i hi hi'
      rw [List.mem_singleton.1 hx] at hi hi'
      rw [Memory.byte_of_storeWord hEnd (by omega),
        Memory.byte_of_storeWord hBack (by omega),
        Memory.byte_of_storeWord hFront (by omega),
        Memory.byte_of_storeWord hPad (by omega)]
    · intro c _
      exact List.nodup_nil
    · intro c _ node
      simp

------------------------------------------------------------
-- Growth
------------------------------------------------------------

/- A heap grows by a free block that is then at work. -/
theorem append
    {size : Nat}
    (h : OpenHeap table m blocks [] [] lists)
    (hRoom : minimumBlock ≤ size)
    (hMod : size % doubleWord = 0)
    (hWord : m.size + size < Word.limit) :
    ∃ n,
      Allocator.appendBlock (m.extend size) m.size size =
        .ok n ∧
      n.size = m.size + size ∧
      OpenHeap table n blocks
        [.ofTag m.size { size := size, allocated := false }] []
        lists ∧
      m.KeepsPayloads n blocks := by
  have hSizes := layout_sizes
  have hFirst := table.firstBlock_eq
  have hLe := h.firstBlock_le
  have hGrown := Memory.size_extend m size
  rcases (m.extend size).exists_writeTags m.size
      { size := size, allocated := false }
      (by omega) (by dsimp only; omega) (by dsimp only; omega)
      (by omega) (by dsimp only; omega) with
    ⟨half, hWrite⟩
  have hHalfSize := Memory.size_of_writeTags hWrite
  have hTagged : half.Tagged (.ofTag m.size
      { size := size, allocated := false }) :=
    Memory.tagged_of_writeTags hMod hWrite
  rcases half.exists_storeWord (m.size + size - wordSize)
      Tag.epilogue.pack
      (by omega) with
    ⟨n, hEnd⟩
  have hEndSize := Memory.size_of_storeWord hEnd
  have hBytes : ∀ i, i + wordSize < m.size →
      n.byte i = m.byte i := by
    intro i hi
    rw [Memory.byte_of_storeWord hEnd (by omega),
      Memory.byte_of_writeTags hWrite (by omega)
        (by dsimp only; omega),
      Memory.byte_extend]
  have hSame : ∀ block ∈ blocks ++ [],
      m.Agrees n (block.offset - wordSize)
        (block.offset + block.header.size - wordSize) := by
    intro block hBlock i hi hi'
    have hBounds := h.bounds (mem_blocks hBlock)
    exact hBytes i (by omega)
  have hTable : m.Agrees n table.offset
      (table.firstBlock - wordSize) := by
    intro i hi hi'
    exact hBytes i (by omega)
  have hGrows : m.size ≤ n.size := by
    omega
  rcases h.outside_of_agrees hGrows hTable hSame with
    ⟨hPrologue, hOldTagged, hRings, hPayloads⟩
  rw [List.append_nil] at hPayloads
  have hNewTagged : n.Tagged (.ofTag m.size
      { size := size, allocated := false }) := by
    apply hTagged.of_agrees_whole (Nat.le_of_eq hEndSize.symm)
    · dsimp only [ChainBlock.ofTag]
      omega
    · intro i hi hi'
      dsimp only [ChainBlock.ofTag] at hi hi'
      exact Memory.byte_of_storeWord hEnd (by omega)
  refine ⟨n, ?_, by omega, ?_, hPayloads⟩
  · have hNext := hTagged.nextBlock_eq
    dsimp only [ChainBlock.ofTag] at hNext
    unfold Allocator.appendBlock
    rw [Fault.bind_of_ok hWrite, Fault.bind_of_ok hNext,
      Fault.bind_of_ok (Word.sub_of_le (by omega))]
    exact hEnd
  · have hTiles := h.tiles
    simp only [List.append_nil] at hTiles
    refine ⟨hPrologue, ?_, ?_, ?_, ?_, hRings, h.nodup,
      h.mem_list_iff⟩
    · have hLast : n.size = m.size + size := by
        omega
      rw [hLast]
      exact Memory.header_of_storeWord hEnd (by omega)
    · rw [tiles_append_iff]
      refine ⟨m.size, hTiles, rfl, ?_⟩
      change m.size + size = n.size
      omega
    · intro block hBlock
      rcases mem_cases hBlock with hNew | hOld
      · rw [List.mem_singleton.1 hNew]
        exact hNewTagged
      · exact hOldTagged block hOld
    · intro block hBlock
      rcases mem_cases hBlock with hNew | hOld
      · rw [List.mem_singleton.1 hNew]
        exact hRoom
      · exact h.roomy block (mem_blocks hOld)

end OpenHeap

end SegregatedFit
