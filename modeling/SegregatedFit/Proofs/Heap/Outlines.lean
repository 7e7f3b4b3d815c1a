import Mathlib.Data.List.Perm.Subperm
import SegregatedFit.Proofs.Heap.Workspace

/-
  Heaps whose blocks and lists are known.

  A view outlines a heap if its blocks fill the heap and its
  lists lead through blocks, whichever these are.  A view
  that describes the heap does, and so do others of heaps
  where a block is not listed as its tags say.

  Key definitions include:
    * `HeapView.Outlines`

  Key theorems include:
    * `HeapView.Describes.outlines`
    * `HeapView.Outlines.chain_eq`
-/

namespace SegregatedFit

namespace HeapView

/-
  The bytes of a heap have the blocks of a view and lists
  that lead through some of them, each in one list at most.
-/
structure Outlines
    (view : HeapView)
    (table : SentinelTable)
    (m : Memory) : Prop where
  prologue_header :
    m.header table.prologue = .ok Tag.prologue
  prologue_footer :
    m.footer table.prologue = .ok Tag.prologue
  epilogue :
    m.header m.size = .ok Tag.epilogue
  chained :
    m.Chained table.firstBlock view.blocks m.size
  footer_eq :
    ∀ block ∈ view.blocks, block.footer = block.header
  ring :
    ∀ c, c < SizeClass.count →
      m.Ring (table.sentinel c) (view.lists c)
  nodup :
    ∀ c, c < SizeClass.count → (view.lists c).Nodup
  exists_block :
    ∀ c, c < SizeClass.count → ∀ node ∈ view.lists c,
      ∃ block ∈ view.blocks, block.offset = node
  disjoint :
    ∀ c, c < SizeClass.count → ∀ d, d < SizeClass.count →
      c ≠ d → (view.lists c).Disjoint (view.lists d)

variable {view : HeapView}
variable {table : SentinelTable}
variable {m : Memory}

/- A view that describes a heap outlines it. -/
theorem Describes.outlines
    (h : view.Describes table m) :
    view.Outlines table m := by
  have hListed : ∀ c, c < SizeClass.count →
      ∀ node ∈ view.lists c,
        ∃ block ∈ view.blocks, block.offset = node ∧
          SizeClass.classify block.header.size = c := by
    intro c hc node hNode
    rcases (h.mem_list_iff c hc node).1 hNode with
      ⟨block, hBlock, hOffset, hClass⟩
    exact ⟨block, (mem_freeBlocks_iff.1 hBlock).1, hOffset,
      hClass⟩
  refine ⟨h.prologue_header, h.prologue_footer, h.epilogue,
    h.chained, h.footer_eq, h.ring, h.nodup, ?_, ?_⟩
  · intro c hc node hNode
    rcases hListed c hc node hNode with
      ⟨block, hBlock, hOffset, _⟩
    exact ⟨block, hBlock, hOffset⟩
  · -- The same block has one class.
    intro c hc d hd hNe node hNode hNode'
    rcases hListed c hc node hNode with
      ⟨block, hBlock, hOffset, hClass⟩
    rcases hListed d hd node hNode' with
      ⟨other, hOther, hOffset', hClass'⟩
    have hEq : block = other :=
      List.inj_on_of_nodup_map h.chained.nodup_offsets hBlock
        hOther (hOffset.trans hOffset'.symm)
    subst hEq
    exact hNe (hClass.symm.trans hClass')

namespace Outlines

/- The prologue is the first block of the chain. -/
theorem chained_prologue
    (h : view.Outlines table m) :
    m.Chained table.prologue
      (table.prologueBlock :: view.blocks) m.size :=
  ⟨rfl, h.prologue_header, h.prologue_footer,
    Nat.succ_ne_zero 15, h.chained⟩

/- All blocks are aligned if the prologue is. -/
theorem aligned
    {base : Nat}
    (h : view.Outlines table m)
    (hPrologue : (base + table.prologue) % doubleWord = 0) :
    view.Aligned table base := by
  refine ⟨hPrologue, ?_⟩
  intro block hBlock
  have hMod := h.chained_prologue.offset_mod
    (List.mem_cons_of_mem _ hBlock)
  rw [Nat.add_mod, hMod, ← Nat.add_mod, hPrologue]

/- Blocks lie between the prologue and the end. -/
theorem bounds
    {block : ChainBlock}
    (h : view.Outlines table m)
    (hBlock : block ∈ view.blocks) :
    table.firstBlock ≤ block.offset ∧
      doubleWord ≤ block.header.size ∧
      block.offset + block.header.size ≤ m.size := by
  have hBetween := h.chained.tiles.bounds hBlock
  rcases h.chained.header_eq hBlock with ⟨hHeader, hSize⟩
  have hMod := Memory.size_mod_of_header hHeader
  refine ⟨hBetween.1, ?_, hBetween.2⟩
  exact Nat.le_of_dvd (Nat.pos_of_ne_zero hSize)
    (Nat.dvd_of_mod_eq_zero hMod)

/- Blocks are known by their offsets. -/
theorem eq_of_offset_eq
    {x y : ChainBlock}
    (h : view.Outlines table m)
    (hx : x ∈ view.blocks)
    (hy : y ∈ view.blocks)
    (hOffset : x.offset = y.offset) :
    x = y :=
  List.inj_on_of_nodup_map h.chained.nodup_offsets hx hy
    hOffset

/- The prologue stands in front of all blocks. -/
theorem ne_prologue
    {block : ChainBlock}
    (h : view.Outlines table m)
    (hBlock : block ∈ view.blocks) :
    block.offset ≠ table.prologue := by
  have hFirst := table.firstBlock_eq
  have hPrologue := table.prologue_eq
  have hBounds := h.bounds hBlock
  omega

/- The walk of the chain has enough steps for all blocks. -/
theorem length_le
    (h : view.Outlines table m) :
    view.blocks.length + 1 ≤ m.blockBound := by
  have hLength := h.chained.length_le
  have hFirst := table.firstBlock_eq
  unfold Memory.blockBound
  simp only [doubleWord] at hLength ⊢
  omega

/- A list holds no more nodes than there are blocks. -/
theorem length_list
    {c : Nat}
    (h : view.Outlines table m)
    (hc : c < SizeClass.count) :
    (view.lists c).length ≤ view.blocks.length := by
  have hSub : view.lists c ⊆
      view.blocks.map ChainBlock.offset := by
    intro x hx
    rcases h.exists_block c hc x hx with
      ⟨block, hBlock, hOffset⟩
    exact List.mem_map.2 ⟨block, hBlock, hOffset⟩
  have hLe := ((h.nodup c hc).subperm hSub).length_le
  rwa [List.length_map] at hLe

/- The chain of a heap is the prologue and its blocks. -/
theorem chain_eq
    (h : view.Outlines table m)
    (hWord : m.size < Word.limit) :
    m.chain table.prologue =
      .ok {
        blocks := table.prologueBlock :: view.blocks,
        stop := .sizeZero m.size Tag.epilogue } := by
  have hLength := h.length_le
  apply Memory.chainFrom_of_chained hWord _
    h.chained_prologue h.epilogue rfl
  rw [List.length_cons]
  omega

end Outlines

end HeapView

end SegregatedFit
