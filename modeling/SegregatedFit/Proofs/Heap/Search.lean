import Mathlib.Algebra.GroupWithZero.Nat
import Mathlib.Algebra.Order.BigOperators.Group.List
import Mathlib.Algebra.Order.Group.Nat
import Mathlib.Data.List.Nodup
import SegregatedFit.Proofs.FreeList.Walks
import SegregatedFit.Proofs.Heap.Outlines

/-
  What walks over a heap at rest find.

  The lists hold no more nodes than there are blocks, so the
  walks end before their bound.  A search finds the first
  listed block that fits (`HeapView.firstFit`), the total is
  the sum of the sizes of the free blocks, and the chain is
  the row of all blocks.

  Key definitions include:
    * `sizeAt`
    * `HeapView.firstFit`

  Key theorems include:
    * `HeapView.Describes.chain_eq`
    * `HeapView.Stands.chain_eq`
    * `HeapView.Stands.blocks_unique`
    * `HeapView.Stands.firstFit_eq`
    * `HeapView.Stands.freeBytes_eq`
-/

namespace SegregatedFit

------------------------------------------------------------
-- Looking up Blocks
------------------------------------------------------------

/- The size of the block at an offset, zero without a block. -/
def sizeAt
    (blocks : List ChainBlock)
    (node : Nat) : Nat :=
  ((blocks.find? (fun block => block.offset = node)).map
    (fun block => block.header.size)).getD 0

/- The first listed block of at least `size` bytes. -/
def HeapView.firstFit
    (view : HeapView)
    (size : Nat) : Option Nat :=
  (SizeClass.upFrom (SizeClass.classify size)).findSome?
    (fun c =>
      (view.lists c).find? (fun node =>
        size ≤ sizeAt view.blocks node))

------------------------------------------------------------
-- Walks along Links
------------------------------------------------------------

namespace FreeList

variable {m : Memory}

/-
  Nodes that a walk passes: not at its end, with a header of
  the given size.
-/
def Passable
    (m : Memory)
    (sentinel : Nat)
    (sizeOf : Nat → Nat)
    (node : Nat) : Prop :=
  atEnd m sentinel node = false ∧
    ∃ tag, m.header node = .ok tag ∧ tag.size = sizeOf node

/- A search among nodes with headers finds the first that fits. -/
theorem findM?_fits
    {size : Nat}
    {sizeOf : Nat → Nat}
    {nodes : List Nat}
    (hTags : ∀ node ∈ nodes, ∃ tag,
      m.header node = .ok tag ∧ tag.size = sizeOf node) :
    nodes.findM? (fits m size) =
      .ok (nodes.find? (fun node => size ≤ sizeOf node)) := by
  induction nodes with
  | nil => rfl
  | cons node rest ih =>
      rcases hTags node List.mem_cons_self with
        ⟨tag, hTag, hSize⟩
      have hRest := ih (fun other hOther =>
        hTags other (List.mem_cons_of_mem node hOther))
      rw [List.findM?, Fault.bind_of_ok (fits_of_header hTag),
        hRest, hSize, List.find?_cons]
      cases decide (size ≤ sizeOf node) with
      | true => rfl
      | false => rfl

/- The sizes of nodes with headers are added up. -/
theorem foldlM_addSize
    {sizeOf : Nat → Nat}
    {nodes : List Nat}
    (total : Nat)
    (hTags : ∀ node ∈ nodes, ∃ tag,
      m.header node = .ok tag ∧ tag.size = sizeOf node)
    (hWord : total + (nodes.map sizeOf).sum < Word.limit) :
    nodes.foldlM (addSize m) total =
      .ok (total + (nodes.map sizeOf).sum) := by
  induction nodes generalizing total with
  | nil => rfl
  | cons node rest ih =>
      rw [List.map_cons, List.sum_cons] at hWord ⊢
      rcases hTags node List.mem_cons_self with
        ⟨tag, hTag, hSize⟩
      have hSum : addSize m total node =
          .ok (total + sizeOf node) := by
        rw [addSize_of_header total hTag, hSize]
        exact Word.add_of_lt (by omega)
      rw [List.foldlM_cons, Fault.bind_of_ok hSum,
        ih (total + sizeOf node)
          (fun other hOther =>
            hTags other (List.mem_cons_of_mem node hOther))
          (by omega),
        Nat.add_assoc]

/- A search over linked nodes finds the first one that fits. -/
theorem firstFitFrom_eq
    {sentinel size steps : Nat}
    {sizeOf : Nat → Nat}
    {nodes : List Nat}
    (hLinks : m.Links (nodes ++ [sentinel]))
    (hPass : ∀ node ∈ nodes, Passable m sentinel sizeOf node)
    (hSteps : nodes.length ≤ steps) :
    firstFitFrom m sentinel size steps (nodes.headD sentinel) =
      .ok (nodes.find? (fun node => size ≤ sizeOf node)) := by
  have hNodes := nodesFrom_eq hLinks
    (fun node hNode => (hPass node hNode).1) hSteps
  rw [firstFitFrom_of_nodesFrom hNodes]
  exact findM?_fits (fun node hNode => (hPass node hNode).2)

/- A walk over linked nodes adds up all their sizes. -/
theorem totalFrom_eq
    {sentinel steps : Nat}
    {sizeOf : Nat → Nat}
    {nodes : List Nat}
    (total : Nat)
    (hLinks : m.Links (nodes ++ [sentinel]))
    (hPass : ∀ node ∈ nodes, Passable m sentinel sizeOf node)
    (hSteps : nodes.length ≤ steps)
    (hWord : total + (nodes.map sizeOf).sum < Word.limit) :
    totalFrom m sentinel steps (nodes.headD sentinel) total =
      .ok (total + (nodes.map sizeOf).sum) := by
  have hNodes := nodesFrom_eq hLinks
    (fun node hNode => (hPass node hNode).1) hSteps
  rw [totalFrom_of_nodesFrom hNodes hSteps]
  exact foldlM_addSize total
    (fun node hNode => (hPass node hNode).2) hWord

end FreeList

------------------------------------------------------------
-- Lists of a Heap
------------------------------------------------------------

namespace OpenHeap

variable {table : SentinelTable}
variable {m : Memory}
variable {blocks : List ChainBlock}
variable {lists : FreeLists}

/- A block is found by its offset. -/
theorem sizeAt_eq
    {block : ChainBlock}
    (h : OpenHeap table m blocks [] [] lists)
    (hBlock : block ∈ blocks) :
    sizeAt blocks block.offset = block.header.size := by
  unfold sizeAt
  cases hFound : blocks.find?
      (fun other => other.offset = block.offset) with
  | none =>
      rw [List.find?_eq_none] at hFound
      exact absurd (hFound block hBlock) (by simp)
  | some other =>
      have hOffset := List.find?_some hFound
      have hOther := List.mem_of_find?_eq_some hFound
      have hEq : other = block :=
        h.eq_of_offset_eq (by simpa using hOther)
          (by simpa using hBlock) (by simpa using hOffset)
      rw [hEq]
      rfl

/- The walks of a heap pass all listed nodes. -/
theorem passable
    {c node : Nat}
    (h : OpenHeap table m blocks [] [] lists)
    (hc : c < SizeClass.count)
    (hNode : node ∈ lists c) :
    FreeList.Passable m (table.sentinel c) (sizeAt blocks)
      node := by
  have hSizes := layout_sizes
  have hFirst := table.firstBlock_eq
  rcases (h.mem_list_iff c hc node).1 hNode with
    ⟨block, hBlock, _, rfl, _⟩
  have hBlock' : block ∈ blocks := by
    simpa using hBlock
  have hBounds := h.bounds (mem_blocks hBlock)
  have hInside := table.sentinel_inside hc
  refine ⟨?_, block.header, ?_, (h.sizeAt_eq hBlock').symm⟩
  · unfold FreeList.atEnd
    rw [Bool.or_eq_false_iff, decide_eq_false_iff_not,
      decide_eq_false_iff_not]
    omega
  · exact (h.tagged block (mem_blocks hBlock)).header_eq

end OpenHeap

------------------------------------------------------------
-- The Chain
------------------------------------------------------------

namespace HeapView.Describes

variable {view : HeapView}
variable {table : SentinelTable}
variable {m : Memory}

/- Nodes of lists are free blocks. -/
theorem exists_block
    {c node : Nat}
    (h : view.Describes table m)
    (hc : c < SizeClass.count)
    (hNode : node ∈ view.lists c) :
    ∃ block ∈ view.blocks,
      block.header.allocated = false ∧
        block.offset = node ∧
        SizeClass.classify block.header.size = c := by
  rcases (h.mem_list_iff c hc node).1 hNode with
    ⟨block, hBlock, hOffset, hClass⟩
  rcases mem_freeBlocks_iff.1 hBlock with ⟨hMem, hFree⟩
  exact ⟨block, hMem, hFree, hOffset, hClass⟩

/- The chain of a heap is the prologue and its blocks. -/
theorem chain_eq
    (h : view.Describes table m)
    (hWord : m.size < Word.limit) :
    m.chain table.prologue =
      .ok {
        blocks := table.prologueBlock :: view.blocks,
        stop := .sizeZero m.size Tag.epilogue } :=
  h.outlines.chain_eq hWord

/- The blocks behind the prologue are those of the view. -/
theorem blocks_eq_of_chain
    {blocks : List ChainBlock}
    {stop : ChainEnd}
    (h : view.Describes table m)
    (hWord : m.size < Word.limit)
    (hChain : m.chain table.prologue = .ok {
      blocks := table.prologueBlock :: blocks,
      stop := stop }) :
    view.blocks = blocks := by
  have hSame := (h.chain_eq hWord).symm.trans hChain
  have hBlocks :=
    congrArg Chain.blocks (Except.ok.inj hSame)
  exact List.tail_eq_of_cons_eq hBlocks

/- All views that describe a heap have the same blocks. -/
theorem blocks_unique
    {other : HeapView}
    (h : view.Describes table m)
    (h' : other.Describes table m)
    (hWord : m.size < Word.limit) :
    view.blocks = other.blocks :=
  h.blocks_eq_of_chain hWord (h'.chain_eq hWord)

end HeapView.Describes

namespace HeapView.Stands

variable {view : HeapView}
variable {table : SentinelTable}
variable {m : Memory}

/- The chain of a heap at rest is the same. -/
theorem chain_eq
    (h : view.Stands table m)
    (hWord : m.size < Word.limit) :
    m.chain table.prologue =
      .ok {
        blocks := table.prologueBlock :: view.blocks,
        stop := .sizeZero m.size Tag.epilogue } :=
  (stands_iff.1 h).1.chain_eq hWord

/- All views of one heap have the same blocks. -/
theorem blocks_unique
    {other : HeapView}
    (h : view.Stands table m)
    (h' : other.Stands table m)
    (hWord : m.size < Word.limit) :
    view.blocks = other.blocks :=
  (stands_iff.1 h).1.blocks_unique (stands_iff.1 h').1 hWord

/- A view that describes a heap at rest is at rest itself. -/
theorem of_describes
    {other : HeapView}
    (h : view.Stands table m)
    (hOther : other.Describes table m)
    (hWord : m.size < Word.limit) :
    other.Stands table m := by
  rcases stands_iff.1 h with ⟨hDescribes, hRoomy⟩
  refine stands_iff.2 ⟨hOther, ?_⟩
  unfold Roomy at hRoomy ⊢
  rw [hOther.blocks_unique hDescribes hWord]
  exact hRoomy

/- A list of a heap at rest ends before the bound of its walk. -/
theorem length_list
    {c : Nat}
    (h : view.Stands table m)
    (hc : c < SizeClass.count) :
    (view.lists c).length ≤ m.blockBound := by
  have hOutlines := (stands_iff.1 h).1.outlines
  have hList := hOutlines.length_list hc
  have hBlocks := hOutlines.length_le
  omega

------------------------------------------------------------
-- Searching
------------------------------------------------------------

/- A search in one class finds the first listed block that fits. -/
theorem firstFitIn_eq
    {c size : Nat}
    (h : view.Stands table m)
    (hc : c < SizeClass.count) :
    table.firstFitIn m size c =
      .ok ((view.lists c).find? (fun node =>
        size ≤ sizeAt view.blocks node)) := by
  have hRing := h.heap.ring c hc
  have hLength := h.length_list hc
  have hLe := h.heap.firstBlock_le
  have hFirst := table.firstBlock_eq
  have hBound : m.blockBound ≤ m.size := by
    change m.size / 16 + 1 ≤ m.size
    omega
  unfold SentinelTable.firstFitIn
  rw [Fault.bind_of_ok hRing.nextLink_eq]
  apply FreeList.firstFitFrom_eq hRing.behind
  · intro node hNode
    exact h.heap.passable hc hNode
  · exact Nat.le_trans hLength hBound

/- A search finds the first listed block that fits. -/
theorem firstFit_eq
    (h : view.Stands table m)
    (size : Nat) :
    table.firstFit m size = .ok (view.firstFit size) := by
  have hAmong : ∀ cs : List Nat,
      (∀ c ∈ cs, c < SizeClass.count) →
      table.firstFitAmong m size cs =
        .ok (cs.findSome? (fun c =>
          (view.lists c).find? (fun node =>
            size ≤ sizeAt view.blocks node))) := by
    intro cs
    induction cs with
    | nil =>
        intro _
        rfl
    | cons c cs ih =>
        intro hClasses
        have hRest := ih (fun d hd =>
          hClasses d (List.mem_cons_of_mem c hd))
        rw [SentinelTable.firstFitAmong,
          Fault.bind_of_ok (h.firstFitIn_eq
            (hClasses c List.mem_cons_self)),
          List.findSome?_cons]
        cases (view.lists c).find? (fun node =>
            size ≤ sizeAt view.blocks node) with
        | none => exact hRest
        | some bp => rfl
  apply hAmong
  intro c hc
  exact (SizeClass.mem_upFrom_iff.1 hc).2

/- What is found is a free block that fits. -/
theorem mem_of_firstFit
    {size bp : Nat}
    (h : view.Stands table m)
    (hFound : view.firstFit size = some bp) :
    ∃ block ∈ view.blocks,
      block.header.allocated = false ∧
        block.offset = bp ∧
        size ≤ block.header.size := by
  rcases List.exists_of_findSome?_eq_some hFound with
    ⟨c, hc, hFirst⟩
  have hRange := SizeClass.mem_upFrom_iff.1 hc
  have hListed := List.mem_of_find?_eq_some hFirst
  have hFits := List.find?_some hFirst
  rcases (h.heap.mem_list_iff c hRange.2 bp).1 hListed with
    ⟨block, hBlock, hFree, hOffset, _⟩
  have hBlock' : block ∈ view.blocks := by
    simpa using hBlock
  rw [← hOffset, h.heap.sizeAt_eq hBlock',
    decide_eq_true_eq] at hFits
  exact ⟨block, hBlock', hFree, hOffset, hFits⟩

------------------------------------------------------------
-- Adding up
------------------------------------------------------------

/- All listed nodes are the offsets of the free blocks. -/
theorem listed_perm
    (h : view.Stands table m) :
    (SizeClass.all.flatMap view.lists).Perm
      (view.freeBlocks.map ChainBlock.offset) := by
  have hAll : ∀ c, c ∈ SizeClass.all ↔ c < SizeClass.count :=
    fun c => SizeClass.mem_all_iff
  have hListed : (SizeClass.all.flatMap view.lists).Nodup := by
    rw [List.nodup_flatMap]
    refine ⟨?_, ?_⟩
    · intro c hc
      exact h.heap.nodup c ((hAll c).1 hc)
    · have hClasses : SizeClass.all.Nodup := by
        decide
      apply hClasses.imp_of_mem
      intro c d hc hd hNe x hx hx'
      exact h.heap.holds.not_mem_of_mem ((hAll c).1 hc)
        ((hAll d).1 hd) (Ne.symm hNe) hx hx'
  have hOffsets :
      (view.freeBlocks.map ChainBlock.offset).Nodup :=
    h.nodup_offsets.sublist (List.filter_sublist.map _)
  rw [List.perm_ext_iff_of_nodup hListed hOffsets]
  intro node
  rw [List.mem_flatMap, List.mem_map]
  constructor
  · intro hNode
    rcases hNode with ⟨c, hc, hMem⟩
    rcases (h.heap.mem_list_iff c ((hAll c).1 hc) node).1 hMem
      with ⟨block, hBlock, hFree, hOffset, _⟩
    exact ⟨block, mem_freeBlocks_iff.2
      ⟨by simpa using hBlock, hFree⟩, hOffset⟩
  · intro hNode
    rcases hNode with ⟨block, hBlock, hOffset⟩
    rcases mem_freeBlocks_iff.1 hBlock with ⟨hMem, hFree⟩
    have hc := SizeClass.classify_lt block.header.size
    exact ⟨_, (hAll _).2 hc, (h.heap.mem_list_iff _ hc node).2
      ⟨block, by simpa using hMem, hFree, hOffset, rfl⟩⟩

/- The free blocks of a heap are smaller than the heap. -/
theorem freeBytes_le
    (h : view.Stands table m) :
    view.freeBytes ≤ m.size := by
  have hSub : view.freeBytes ≤ extent view.blocks := by
    unfold freeBytes freeBlocks extent
    apply (List.filter_sublist.map _).sum_le_sum
    intro size _
    exact Nat.zero_le size
  have hStop := h.heap.tiles.stop_eq
  simp only [List.append_nil] at hStop
  omega

/- The sizes of all listed blocks add up to the free bytes. -/
theorem sum_listed
    (h : view.Stands table m) :
    ((SizeClass.all.flatMap view.lists).map
        (sizeAt view.blocks)).sum = view.freeBytes := by
  rw [(h.listed_perm.map _).sum_nat, List.map_map]
  unfold freeBytes
  congr 1
  apply List.map_congr_left
  intro block hBlock
  exact h.heap.sizeAt_eq (mem_freeBlocks_iff.1 hBlock).1

/- The walks add up the free bytes. -/
theorem freeBytes_eq
    (h : view.Stands table m)
    (hWord : m.size < Word.limit) :
    table.freeBytes m = .ok view.freeBytes := by
  have hAmong : ∀ (cs : List Nat) (total : Nat),
      (∀ c ∈ cs, c < SizeClass.count) →
      total + ((cs.flatMap view.lists).map
        (sizeAt view.blocks)).sum < Word.limit →
      table.freeBytesAmong m cs total =
        .ok (total + ((cs.flatMap view.lists).map
          (sizeAt view.blocks)).sum) := by
    intro cs
    induction cs with
    | nil =>
        intro total _ _
        rfl
    | cons c cs ih =>
        intro total hClasses hSum
        rw [List.flatMap_cons, List.map_append,
          List.sum_append] at hSum ⊢
        have hc := hClasses c List.mem_cons_self
        have hRing := h.heap.ring c hc
        have hTotal := FreeList.totalFrom_eq total
          hRing.behind
          (fun node hNode => h.heap.passable hc hNode)
          (h.length_list hc) (by omega)
        have hRest := ih
          (total + ((view.lists c).map
            (sizeAt view.blocks)).sum)
          (fun d hd => hClasses d (List.mem_cons_of_mem c hd))
          (by omega)
        rw [SentinelTable.freeBytesAmong,
          Fault.bind_of_ok hRing.nextLink_eq,
          Fault.bind_of_ok hTotal, hRest, Nat.add_assoc]
  have hSum := h.sum_listed
  have hLe := h.freeBytes_le
  have hTotal := hAmong SizeClass.all 0
    (fun c hc => SizeClass.mem_all_iff.1 hc) (by omega)
  unfold SentinelTable.freeBytes
  rw [hTotal, hSum, Nat.zero_add]

end HeapView.Stands

end SegregatedFit
