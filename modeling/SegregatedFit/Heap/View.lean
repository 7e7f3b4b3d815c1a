import Mathlib.Algebra.GroupWithZero.Nat
import SegregatedFit.Allocator.Basic
import SegregatedFit.FreeList.Ring

/-
  Heaps seen from above.

  A view of a heap names its blocks behind the prologue, in
  the order of their offsets, and the nodes of its free
  lists.  `HeapView.Describes` states that the bytes of a
  heap agree with a view, which is what the operations of the
  allocator keep.

  Key definitions include:
    * `HeapView`
    * `NoFreeNeighbours`
    * `HeapView.Describes`
    * `HeapView.Roomy`, `HeapView.Aligned`
-/

namespace SegregatedFit

------------------------------------------------------------
-- Views
------------------------------------------------------------

/- The blocks of a heap and the nodes of each free list. -/
structure HeapView where
  blocks : List ChainBlock
  lists : Nat → List Nat

namespace HeapView

/- The free blocks of a view. -/
def freeBlocks
    (view : HeapView) : List ChainBlock :=
  view.blocks.filter (fun block => !block.header.allocated)

/- The sum of the sizes of the free blocks of a view. -/
def freeBytes
    (view : HeapView) : Nat :=
  (view.freeBlocks.map (fun block => block.header.size)).sum

/- The offsets of the allocated blocks of a view. -/
def allocatedOffsets
    (view : HeapView) : List Nat :=
  (view.blocks.filter (fun block => block.header.allocated)).map
    ChainBlock.offset

end HeapView

/- No two blocks in a row are free. -/
def NoFreeNeighbours :
    List ChainBlock → Prop
| first :: second :: rest =>
    (first.header.allocated = true ∨
      second.header.allocated = true) ∧
      NoFreeNeighbours (second :: rest)
| _ => True

------------------------------------------------------------
-- Well-Formed Heaps
------------------------------------------------------------

/-
  The bytes of a heap agree with a view.

  The prologue and the epilogue stand as they were laid out.
  The blocks fill the stretch between them, with two equal
  tags each, and no two free ones touch.  Each list leads
  through the free blocks of its class and no others, once
  each.
-/
structure HeapView.Describes
    (view : HeapView)
    (table : SentinelTable)
    (m : Memory) : Prop where
  prologue_header :
    m.header table.prologue = .ok Tag.prologue
  prologue_footer :
    m.footer table.prologue = .ok Tag.prologue
  epilogue :
    m.header m.size = .ok Tag.epilogue
  chained :
    m.Chained table.firstBlock view.blocks m.size
  footer_eq :
    ∀ block ∈ view.blocks, block.footer = block.header
  coalesced :
    NoFreeNeighbours view.blocks
  ring :
    ∀ c, c < SizeClass.count →
      m.Ring (table.sentinel c) (view.lists c)
  nodup :
    ∀ c, c < SizeClass.count → (view.lists c).Nodup
  mem_list_iff :
    ∀ c, c < SizeClass.count → ∀ node,
      node ∈ view.lists c ↔
        ∃ block ∈ view.freeBlocks,
          block.offset = node ∧
            SizeClass.classify block.header.size = c

/- Every block has room for its tags and its links. -/
def HeapView.Roomy
    (view : HeapView) : Prop :=
  ∀ block ∈ view.blocks, minimumBlock ≤ block.header.size

/- The prologue and all blocks stand at aligned addresses. -/
def HeapView.Aligned
    (view : HeapView)
    (table : SentinelTable)
    (base : Nat) : Prop :=
  (base + table.prologue) % doubleWord = 0 ∧
    ∀ block ∈ view.blocks,
      (base + block.offset) % doubleWord = 0

end SegregatedFit
