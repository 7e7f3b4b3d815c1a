import Mathlib.Data.List.Nodup
import SegregatedFit.Heap.View
import SegregatedFit.Proofs.Block.Tiling
import SegregatedFit.Proofs.FreeList.Filing

/-
  Heaps in the middle of an operation.

  While an operation is under way, some blocks in a row are
  in its hands: they have their tags but stand in no list.
  An open heap is cut into the blocks in front of these, the
  blocks at work, and the blocks behind.  A heap at rest has
  no blocks at work and no free neighbours:
  `HeapView.stands_iff`.

  Key definitions include:
    * `OpenHeap`
    * `HeapView.Stands`
    * `OffFree`, `Memory.KeepsPayloads`

  Key theorems include:
    * `OpenHeap.holds`
    * `OpenHeap.keepsTags`, `OpenHeap.keepsPayloads`
-/

namespace SegregatedFit

/- The sizes of the layout as numbers, for linear arithmetic. -/
theorem layout_sizes :
    wordSize = 8 ∧ doubleWord = 16 ∧ minimumBlock = 32 ∧
      SentinelTable.size = 160 ∧ SizeClass.count = 10 ∧
      Word.limit = 18446744073709551616 := by
  decide

namespace SentinelTable

/- The prologue as a block. -/
def prologueBlock
    (table : SentinelTable) : ChainBlock :=
  .ofTag table.prologue Tag.prologue

/- The prologue stands one padding word behind the table. -/
theorem prologue_eq
    (table : SentinelTable) :
    table.prologue = table.offset + 176 :=
  rfl

/- Blocks begin right behind the prologue. -/
theorem firstBlock_eq
    (table : SentinelTable) :
    table.firstBlock = table.offset + 192 :=
  rfl

end SentinelTable

------------------------------------------------------------
-- Open Heaps
------------------------------------------------------------

/-
  The blocks `front`, `middle` and `back` fill the heap, and
  the lists lead through the free ones among those in front
  and behind.
-/
structure OpenHeap
    (table : SentinelTable)
    (m : Memory)
    (front middle back : List ChainBlock)
    (lists : FreeLists) : Prop where
  prologue :
    m.Tagged table.prologueBlock
  epilogue :
    m.header m.size = .ok Tag.epilogue
  tiles :
    Tiles table.firstBlock (front ++ (middle ++ back)) m.size
  tagged :
    ∀ block ∈ front ++ (middle ++ back), m.Tagged block
  roomy :
    ∀ block ∈ front ++ (middle ++ back),
      minimumBlock ≤ block.header.size
  ring :
    ∀ c, c < SizeClass.count →
      m.Ring (table.sentinel c) (lists c)
  nodup :
    ∀ c, c < SizeClass.count → (lists c).Nodup
  mem_list_iff :
    ∀ c, c < SizeClass.count → ∀ node,
      node ∈ lists c ↔
        ∃ block ∈ front ++ back,
          block.header.allocated = false ∧
            block.offset = node ∧
            SizeClass.classify block.header.size = c

/- A heap at rest that has the given view. -/
structure HeapView.Stands
    (view : HeapView)
    (table : SentinelTable)
    (m : Memory) : Prop where
  heap : OpenHeap table m view.blocks [] [] view.lists
  coalesced : NoFreeNeighbours view.blocks

/- Free blocks of a view are those whose tag says so. -/
theorem HeapView.mem_freeBlocks_iff
    {view : HeapView}
    {block : ChainBlock} :
    block ∈ view.freeBlocks ↔
      block ∈ view.blocks ∧
        block.header.allocated = false := by
  simp [HeapView.freeBlocks]

/-
  A heap is at rest exactly if its view describes it and
  every block has room.
-/
theorem HeapView.stands_iff
    {view : HeapView}
    {table : SentinelTable}
    {m : Memory} :
    view.Stands table m ↔
      view.Describes table m ∧ view.Roomy := by
  constructor
  · intro h
    have hHeap := h.heap
    have hRoomy : view.Roomy := by
      intro block hBlock
      exact hHeap.roomy block (by simpa using hBlock)
    have hPositive : ∀ block ∈ view.blocks,
        0 < block.header.size := by
      intro block hBlock
      exact Nat.lt_of_lt_of_le (by decide)
        (hRoomy block hBlock)
    have hTiles := hHeap.tiles
    have hTagged := hHeap.tagged
    simp only [List.append_nil] at hTiles hTagged
    rcases (Memory.chained_iff_tiles hPositive).2
        ⟨hTiles, hTagged⟩ with
      ⟨hChained, hEqual⟩
    refine ⟨?_, hRoomy⟩
    refine ⟨hHeap.prologue.header_eq, hHeap.prologue.footer_eq,
      hHeap.epilogue, hChained, hEqual, h.coalesced,
      hHeap.ring, hHeap.nodup, ?_⟩
    intro c hc node
    rw [hHeap.mem_list_iff c hc node]
    simp only [List.append_nil, mem_freeBlocks_iff, and_assoc]
  · intro h
    rcases h with ⟨hDescribes, hRoomy⟩
    have hPositive : ∀ block ∈ view.blocks,
        0 < block.header.size := by
      intro block hBlock
      exact Nat.lt_of_lt_of_le (by decide)
        (hRoomy block hBlock)
    rcases (Memory.chained_iff_tiles hPositive).1
        ⟨hDescribes.chained, hDescribes.footer_eq⟩ with
      ⟨hTiles, hTagged⟩
    refine ⟨?_, hDescribes.coalesced⟩
    refine ⟨⟨hDescribes.prologue_header,
        hDescribes.prologue_footer, rfl⟩,
      hDescribes.epilogue, ?_, ?_, ?_,
      hDescribes.ring, hDescribes.nodup, ?_⟩
    · simpa using hTiles
    · simpa using hTagged
    · intro block hBlock
      exact hRoomy block (by simpa using hBlock)
    · intro c hc node
      rw [hDescribes.mem_list_iff c hc node]
      simp only [List.append_nil, mem_freeBlocks_iff, and_assoc]

/-
  The table holds lists whose nodes are blocks of a tiling,
  each block in the list of its class.
-/
theorem SentinelTable.holds_of_tiles
    {table : SentinelTable}
    {m : Memory}
    {blocks : List ChainBlock}
    {lists : FreeLists}
    {stop : Nat}
    (hTiles : Tiles table.firstBlock blocks stop)
    (hRing : ∀ c, c < SizeClass.count →
      m.Ring (table.sentinel c) (lists c))
    (hNodup : ∀ c, c < SizeClass.count → (lists c).Nodup)
    (hTagged : ∀ block ∈ blocks,
      doubleWord ≤ block.header.size)
    (hListed : ∀ c, c < SizeClass.count → ∀ x ∈ lists c,
      ∃ block ∈ blocks, block.offset = x ∧
        SizeClass.classify block.header.size = c) :
    table.Holds m lists := by
  have hSizes := layout_sizes
  have hFirst := table.firstBlock_eq
  refine ⟨hRing, hNodup, ?_, ?_⟩
  · intro c d hc hd x hx y hy hNe
    rcases hListed c hc x hx with ⟨block, hBlock, rfl, hClass⟩
    rcases hListed d hd y hy with ⟨other, hOther, rfl, hClass'⟩
    have hRoom := hTagged block hBlock
    have hRoom' := hTagged other hOther
    rcases hTiles.apart hBlock hOther with hEq | hApart
    · -- The same block has one class and one offset.
      exfalso
      subst hEq
      rcases hNe with hNe | hNe
      · exact hNe (hClass.symm.trans hClass')
      · exact hNe rfl
    · unfold Apart
      omega
  · intro c hc x hx
    rcases hListed c hc x hx with ⟨block, hBlock, rfl, _⟩
    have hBounds := hTiles.bounds hBlock
    omega

------------------------------------------------------------
-- Where Things Stand
------------------------------------------------------------

namespace OpenHeap

variable {table : SentinelTable}
variable {m n : Memory}
variable {front middle back : List ChainBlock}
variable {lists : FreeLists}

/- Blocks in front and behind are blocks of the heap. -/
theorem mem_blocks
    {block : ChainBlock}
    (hBlock : block ∈ front ++ back) :
    block ∈ front ++ (middle ++ back) := by
  rcases List.mem_append.1 hBlock with hFront | hBack
  · exact List.mem_append_left _ hFront
  · exact List.mem_append_right _
      (List.mem_append_right _ hBack)

/- Other blocks of the heap are at work. -/
theorem mem_cases
    {block : ChainBlock}
    (hBlock : block ∈ front ++ (middle ++ back)) :
    block ∈ middle ∨ block ∈ front ++ back := by
  rcases List.mem_append.1 hBlock with hFront | hRest
  · exact Or.inr (List.mem_append_left _ hFront)
  · rcases List.mem_append.1 hRest with hWork | hBack
    · exact Or.inl hWork
    · exact Or.inr (List.mem_append_right _ hBack)

/- The first block at work is a block of the heap. -/
theorem mem_work
    {block : ChainBlock} :
    block ∈ front ++ ((block :: middle) ++ back) :=
  List.mem_append_right _ List.mem_cons_self

/- The first block behind is a block of the heap. -/
theorem mem_behind
    {block : ChainBlock} :
    block ∈ front ++ (middle ++ block :: back) :=
  List.mem_append_right _
    (List.mem_append_right _ List.mem_cons_self)

/- Blocks have room and lie between the prologue and the end. -/
theorem bounds
    {block : ChainBlock}
    (h : OpenHeap table m front middle back lists)
    (hBlock : block ∈ front ++ (middle ++ back)) :
    table.firstBlock ≤ block.offset ∧
      minimumBlock ≤ block.header.size ∧
      block.offset + block.header.size ≤ m.size ∧
      block.offset + block.header.size < Word.limit := by
  have hBounds := h.tiles.bounds hBlock
  have hInside := (h.tagged block hBlock).inside
  exact ⟨hBounds.1, h.roomy block hBlock, hBounds.2,
    hInside.2.2.2.2⟩

/- Two blocks are the same or do not overlap. -/
theorem apart
    {x y : ChainBlock}
    (h : OpenHeap table m front middle back lists)
    (hx : x ∈ front ++ (middle ++ back))
    (hy : y ∈ front ++ (middle ++ back)) :
    x = y ∨ x.offset + x.header.size ≤ y.offset ∨
      y.offset + y.header.size ≤ x.offset :=
  h.tiles.apart hx hy

/- Blocks are known by their offsets. -/
theorem eq_of_offset_eq
    {x y : ChainBlock}
    (h : OpenHeap table m front middle back lists)
    (hx : x ∈ front ++ (middle ++ back))
    (hy : y ∈ front ++ (middle ++ back))
    (hOffset : x.offset = y.offset) :
    x = y := by
  have hSizes := layout_sizes
  have hxRoom := h.roomy x hx
  have hyRoom := h.roomy y hy
  exact h.tiles.eq_of_offset_eq hx hy (by omega) (by omega)
    hOffset

/- No block stands twice in a heap. -/
theorem nodup_blocks
    (h : OpenHeap table m front middle back lists) :
    (front ++ (middle ++ back)).Nodup := by
  apply h.tiles.ordered.imp_of_mem
  intro x y hx _ hOrder hEq
  have hSizes := layout_sizes
  have hRoom := h.roomy x hx
  subst hEq
  omega

/- The heap ends behind the prologue. -/
theorem firstBlock_le
    (h : OpenHeap table m front middle back lists) :
    table.firstBlock ≤ m.size := by
  have hStop := h.tiles.stop_eq
  omega

/- The table holds the lists of an open heap. -/
theorem holds
    (h : OpenHeap table m front middle back lists) :
    table.Holds m lists := by
  apply SentinelTable.holds_of_tiles h.tiles h.ring h.nodup
  · intro block hBlock
    exact Nat.le_trans (by decide) (h.roomy block hBlock)
  · intro c hc x hx
    rcases (h.mem_list_iff c hc x).1 hx with
      ⟨block, hBlock, _, hOffset, hClass⟩
    exact ⟨block, mem_blocks hBlock, hOffset, hClass⟩

end OpenHeap

/- The blocks of a heap have different offsets. -/
theorem HeapView.Stands.nodup_offsets
    {view : HeapView}
    {table : SentinelTable}
    {m : Memory}
    (h : view.Stands table m) :
    (view.blocks.map ChainBlock.offset).Nodup := by
  have hBlocks := h.heap.nodup_blocks
  simp only [List.append_nil] at hBlocks
  apply List.Nodup.map_on _ hBlocks
  intro x hx y hy hOffset
  exact h.heap.eq_of_offset_eq (by simpa using hx)
    (by simpa using hy) hOffset

------------------------------------------------------------
-- What Changes of Links Keep
------------------------------------------------------------

/-
  Bytes that are no link words: neither in the table nor in
  the first two words of a free block.
-/
def OffFree
    (table : SentinelTable)
    (blocks : List ChainBlock)
    (i : Nat) : Prop :=
  (i < table.offset ∨
      table.offset + SentinelTable.size ≤ i) ∧
    ∀ block ∈ blocks, block.header.allocated = false →
      i < block.offset ∨ block.offset + doubleWord ≤ i

/- The payloads of the allocated blocks are the same. -/
def Memory.KeepsPayloads
    (m n : Memory)
    (blocks : List ChainBlock) : Prop :=
  ∀ block ∈ blocks, block.header.allocated = true →
    m.Agrees n block.offset
      (block.offset + block.header.size - doubleWord)

/- Fewer payloads are kept all the more. -/
theorem Memory.KeepsPayloads.mono
    {m n : Memory}
    {blocks others : List ChainBlock}
    (h : m.KeepsPayloads n others)
    (hSub : ∀ block ∈ blocks, block.header.allocated = true →
      block ∈ others) :
    m.KeepsPayloads n blocks := by
  intro block hBlock hAllocated
  exact h block (hSub block hBlock hAllocated) hAllocated

/- The payloads of a part of the blocks are kept with them. -/
theorem Memory.KeepsPayloads.sublist
    {m n : Memory}
    {blocks others : List ChainBlock}
    (h : m.KeepsPayloads n others)
    (hSub : blocks.Sublist others) :
    m.KeepsPayloads n blocks :=
  h.mono (fun _ hBlock _ => hSub.subset hBlock)

/- What two steps keep is kept by both together. -/
theorem Memory.KeepsPayloads.trans
    {m n k : Memory}
    {blocks : List ChainBlock}
    (h : m.KeepsPayloads n blocks)
    (h' : n.KeepsPayloads k blocks) :
    m.KeepsPayloads k blocks := by
  intro block hBlock hAllocated
  have hFirst := h block hBlock hAllocated
  have hSecond := h' block hBlock hAllocated
  exact hFirst.trans hSecond

namespace OpenHeap

variable {table : SentinelTable}
variable {m n : Memory}
variable {front middle back : List ChainBlock}
variable {lists : FreeLists}

/- Bytes that are no link words belong to no listed node. -/
theorem offLinks_of_offFree
    {i : Nat}
    (h : OpenHeap table m front middle back lists)
    (hi : OffFree table (front ++ (middle ++ back)) i) :
    table.OffLinks lists i := by
  refine ⟨hi.1, ?_⟩
  intro c hc x hx
  rcases (h.mem_list_iff c hc x).1 hx with
    ⟨block, hBlock, hFree, hx, _⟩
  have hOff := hi.2 block (mem_blocks hBlock) hFree
  omega

/- The tags of a block are no link words. -/
theorem offFree_of_tag
    {block : ChainBlock}
    {i : Nat}
    (h : OpenHeap table m front middle back lists)
    (hBlock : block ∈ front ++ (middle ++ back))
    (hi : (block.offset - wordSize ≤ i ∧ i < block.offset) ∨
      (block.offset + block.header.size - doubleWord ≤ i ∧
        i < block.offset + block.header.size - wordSize)) :
    OffFree table (front ++ (middle ++ back)) i := by
  have hSizes := layout_sizes
  have hFirst := table.firstBlock_eq
  have hBounds := h.bounds hBlock
  refine ⟨by omega, ?_⟩
  intro other hOther _
  have hRoom := h.roomy other hOther
  rcases h.apart hBlock hOther with hEq | hApart
  · subst hEq
    omega
  · omega

/-
  Changes of link words keep the tags of all blocks, the
  prologue and the epilogue.
-/
theorem keepsTags
    (h : OpenHeap table m front middle back lists)
    (hSize : n.size = m.size)
    (hBytes : ∀ i, OffFree table (front ++ (middle ++ back)) i →
      n.byte i = m.byte i) :
    n.Tagged table.prologueBlock ∧
      n.header n.size = .ok Tag.epilogue ∧
      ∀ block ∈ front ++ (middle ++ back), n.Tagged block := by
  have hSizes := layout_sizes
  have hFirst := table.firstBlock_eq
  have hPrologue : table.prologueBlock.offset =
      table.offset + 176 := rfl
  have hPrologueSize :
      table.prologueBlock.header.size = 16 := rfl
  -- Blocks begin far enough behind the prologue and end in
  -- front of the epilogue.
  have hBefore : ∀ i, table.offset + SentinelTable.size ≤ i →
      i < table.firstBlock →
      OffFree table (front ++ (middle ++ back)) i := by
    intro i hi hi'
    refine ⟨Or.inr hi, ?_⟩
    intro block hBlock _
    have hBounds := h.bounds hBlock
    omega
  have hAfter : m.Agrees n (m.size - wordSize) m.size := by
    intro i hi hi'
    apply hBytes
    have hLe := h.firstBlock_le
    refine ⟨by omega, ?_⟩
    intro block hBlock _
    have hBounds := h.bounds hBlock
    omega
  refine ⟨?_, ?_, ?_⟩
  · apply h.prologue.of_agrees (Nat.le_of_eq hSize.symm)
    · intro i hi hi'
      exact hBytes i (hBefore i (by omega) (by omega))
    · intro i hi hi'
      exact hBytes i (hBefore i (by omega) (by omega))
  · rw [hSize]
    exact Memory.header_of_agrees (Nat.le_of_eq hSize.symm)
      hAfter h.epilogue
  · intro block hBlock
    apply (h.tagged block hBlock).of_agrees
      (Nat.le_of_eq hSize.symm)
    · intro i hi hi'
      exact hBytes i
        (h.offFree_of_tag hBlock (Or.inl ⟨hi, hi'⟩))
    · intro i hi hi'
      exact hBytes i
        (h.offFree_of_tag hBlock (Or.inr ⟨hi, hi'⟩))

/- Changes of link words keep the payloads of allocated blocks. -/
theorem keepsPayloads
    (h : OpenHeap table m front middle back lists)
    (hBytes : ∀ i, OffFree table (front ++ (middle ++ back)) i →
      n.byte i = m.byte i) :
    m.KeepsPayloads n (front ++ (middle ++ back)) := by
  intro block hBlock hAllocated i hi hi'
  apply hBytes
  have hSizes := layout_sizes
  have hFirst := table.firstBlock_eq
  have hBounds := h.bounds hBlock
  refine ⟨by omega, ?_⟩
  intro other hOther hFree
  have hRoom := h.roomy other hOther
  rcases h.apart hBlock hOther with hEq | hApart
  · subst hEq
    rw [hAllocated] at hFree
    cases hFree
  · omega

/-
  The lists are kept wherever the bytes of the table and the
  links of the free blocks are the same.
-/
theorem rings_of_agrees
    (h : OpenHeap table m front middle back lists)
    (hSize : m.size ≤ n.size)
    (hTable : m.Agrees n table.offset
      (table.firstBlock - wordSize))
    (hLinks : ∀ block ∈ front ++ back,
      block.header.allocated = false →
        m.Agrees n block.offset (block.offset + doubleWord)) :
    ∀ c, c < SizeClass.count →
      n.Ring (table.sentinel c) (lists c) := by
  have hSizes := layout_sizes
  have hFirst := table.firstBlock_eq
  intro c hc
  apply (h.ring c hc).of_agrees hSize
  intro x hx
  rcases List.mem_cons.1 hx with hx | hx
  · have hInside := table.sentinel_inside hc
    exact hTable.mono (by omega) (by omega)
  · rcases (h.mem_list_iff c hc x).1 hx with
      ⟨block, hBlock, hFree, rfl, _⟩
    exact hLinks block hBlock hFree

/-
  The prologue, the lists and the blocks that are not at work
  are kept wherever their bytes are the same.
-/
theorem outside_of_agrees
    (h : OpenHeap table m front middle back lists)
    (hSize : m.size ≤ n.size)
    (hTable : m.Agrees n table.offset
      (table.firstBlock - wordSize))
    (hBlocks : ∀ block ∈ front ++ back,
      m.Agrees n (block.offset - wordSize)
        (block.offset + block.header.size - wordSize)) :
    n.Tagged table.prologueBlock ∧
      (∀ block ∈ front ++ back, n.Tagged block) ∧
      (∀ c, c < SizeClass.count →
        n.Ring (table.sentinel c) (lists c)) ∧
      m.KeepsPayloads n (front ++ back) := by
  have hSizes := layout_sizes
  have hFirst := table.firstBlock_eq
  have hPrologue : table.prologueBlock.offset =
      table.offset + 176 := rfl
  have hPrologueSize :
      table.prologueBlock.header.size = 16 := rfl
  refine ⟨?_, ?_, ?_, ?_⟩
  · apply h.prologue.of_agrees_whole hSize (by omega)
    exact hTable.mono (by omega) (by omega)
  · intro block hBlock
    have hBounds := h.bounds (mem_blocks hBlock)
    exact (h.tagged block (mem_blocks hBlock)).of_agrees_whole
      hSize (by omega) (hBlocks block hBlock)
  · apply h.rings_of_agrees hSize hTable
    intro block hBlock _
    have hBounds := h.bounds (mem_blocks hBlock)
    exact (hBlocks block hBlock).mono (by omega) (by omega)
  · intro block hBlock _
    exact (hBlocks block hBlock).mono (by omega) (by omega)

end OpenHeap

end SegregatedFit
