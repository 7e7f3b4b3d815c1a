import SegregatedFit.Allocator.Operations
import SegregatedFit.Proofs.Heap.Layout
import SegregatedFit.Proofs.Heap.Search
import SegregatedFit.Proofs.Heap.Transitions
import SegregatedFit.Proofs.Region.Growth

/-
  Allocators at rest, and how their heap grows.

  Key definitions include:
    * `Region.Becomes`
    * `Allocator.AtRest`

  Key theorems include:
    * `Allocator.AtRest.statistics_eq`
    * `Allocator.AtRest.extend_granted`
    * `Allocator.AtRest.extend_cases`
    * `Allocator.AtRest.freeBlockFor_eq`
-/

namespace SegregatedFit

------------------------------------------------------------
-- Changes of a Region
------------------------------------------------------------

/-
  One region becomes another one that is well placed, whose
  heap has the given view, and where the allocated ones of
  the given blocks have the same payloads.
-/
structure Region.Becomes
    (r next : Region)
    (table : SentinelTable)
    (view : HeapView)
    (kept : List ChainBlock) : Prop where
  placed : next.WellPlaced
  stands : view.Stands table next.memory
  base_eq : next.base = r.base
  grows : r.memory.size ≤ next.memory.size
  keeps : r.memory.KeepsPayloads next.memory kept

/- Fewer payloads are kept all the more. -/
theorem Region.Becomes.mono
    {r next : Region}
    {table : SentinelTable}
    {view : HeapView}
    {kept kept' : List ChainBlock}
    (h : r.Becomes next table view kept')
    (hSub : ∀ block ∈ kept, block.header.allocated = true →
      block ∈ kept') :
    r.Becomes next table view kept :=
  { h with keeps := h.keeps.mono hSub }

/- What two changes keep is kept by both together. -/
theorem Region.Becomes.trans
    {r middle next : Region}
    {table : SentinelTable}
    {view view' : HeapView}
    {kept kept' : List ChainBlock}
    (h : r.Becomes middle table view kept)
    (h' : middle.Becomes next table view' kept')
    (hSub : ∀ block ∈ kept, block.header.allocated = true →
      block ∈ kept') :
    r.Becomes next table view' kept where
  placed := h'.placed
  stands := h'.stands
  base_eq := h'.base_eq.trans h.base_eq
  grows := Nat.le_trans h.grows h'.grows
  keeps := h.keeps.trans (h'.keeps.mono hSub)

namespace Allocator

/-
  Allocators on a well placed region whose heap has been laid
  out and has the given view.
-/
structure AtRest
    (a : Allocator)
    (table : SentinelTable)
    (view : HeapView) : Prop where
  table_eq : a.table = some table
  placed : a.region.WellPlaced
  stands : view.Stands table a.region.memory

namespace AtRest

variable {a : Allocator}
variable {table : SentinelTable}
variable {view : HeapView}
variable {block : ChainBlock}

/- The view of an allocator at rest describes its bytes. -/
theorem describes
    (h : a.AtRest table view) :
    view.Describes table a.memory :=
  (HeapView.stands_iff.1 h.stands).1

/- An allocator whose bytes are as before is still at rest. -/
theorem of_undisturbed
    {region : Region}
    (h : a.AtRest table view)
    (hSame : a.region.Undisturbed region) :
    ({ a with region := region } : Allocator).AtRest table
      view where
  table_eq := h.table_eq
  placed := hSame.placed
  stands := by
    rw [hSame.memory_eq]
    exact h.stands

------------------------------------------------------------
-- Allocated Blocks
------------------------------------------------------------

/- An allocated block has its header in memory. -/
theorem header_eq
    (h : a.AtRest table view)
    (hBlock : block ∈ view.allocatedBlocks) :
    a.memory.header block.offset = .ok block.header := by
  have hMem := (HeapView.mem_allocatedBlocks_iff.1 hBlock).1
  exact (h.stands.heap.tagged block (by simpa using hMem)).header_eq

/- An allocated block lies in memory and has room. -/
theorem bounds
    (h : a.AtRest table view)
    (hBlock : block ∈ view.allocatedBlocks) :
    table.firstBlock ≤ block.offset ∧
      minimumBlock ≤ block.header.size ∧
      block.offset + block.header.size ≤ a.memory.size ∧
      block.offset + block.header.size < Word.limit := by
  have hMem := (HeapView.mem_allocatedBlocks_iff.1 hBlock).1
  exact h.stands.heap.bounds (by simpa using hMem)

/- Two allocated blocks are the same or do not overlap. -/
theorem apart
    {other : ChainBlock}
    (h : a.AtRest table view)
    (hBlock : block ∈ view.allocatedBlocks)
    (hOther : other ∈ view.allocatedBlocks) :
    block = other ∨
      block.offset + block.header.size ≤ other.offset ∨
      other.offset + other.header.size ≤ block.offset := by
  have hMem := (HeapView.mem_allocatedBlocks_iff.1 hBlock).1
  have hMem' := (HeapView.mem_allocatedBlocks_iff.1 hOther).1
  exact h.stands.heap.apart (by simpa using hMem)
    (by simpa using hMem')

------------------------------------------------------------
-- Statistics
------------------------------------------------------------

/- The free bytes are those of the free blocks of the view. -/
theorem statistics_eq
    (h : a.AtRest table view) :
    a.statistics = .ok {
      heapSize := a.region.size,
      extensions := a.extensions,
      allocations := a.allocations,
      frees := a.frees,
      freeBytes := view.freeBytes } := by
  have hWord := h.placed.size_lt
  have hFree : table.freeBytes a.memory = .ok view.freeBytes :=
    h.stands.freeBytes_eq (by omega)
  unfold statistics
  rw [h.table_eq]
  dsimp only
  rw [Fault.bind_of_ok hFree]
  rfl

------------------------------------------------------------
-- Growth
------------------------------------------------------------

/-
  Where its region grows, the heap grows by a block, which
  merges with a free one in front of it.
-/
theorem extend_granted
    {size : Nat}
    {grown : Region}
    (h : a.AtRest table view)
    (hRoom : minimumBlock ≤ size)
    (hMod : size % doubleWord = 0)
    (hFew : a.extensions + 1 < Word.limit)
    (hGrow : a.region.grow size =
      (.ok a.region.memory.size, grown))
    (hMore : a.region.Grown grown size) :
    ∃ n,
      a.extend table (size / wordSize) = {
        events := [.extended size n.size],
        outcome := .ok
          (.ok (view.grownBlock a.region.memory.size size).offset,
            { a with
              region := { grown with memory := n },
              extensions := a.extensions + 1 }) } ∧
      n.size = a.region.memory.size + size ∧
      (view.grown a.region.memory.size size).Stands table n ∧
      a.region.memory.KeepsPayloads n view.blocks := by
  have hWord := hMore.placed.size_lt
  rw [hMore.memory_eq, Memory.size_extend] at hWord
  have hBytes : evenBytes (size / wordSize) = .ok size :=
    evenBytes_of_lt hMod (by omega)
  rcases h.stands.heap.append hRoom hMod (by omega) with
    ⟨half, hAppend, hHalfSize, hHalf, hHalfKeeps⟩
  rcases hHalf.coalesce rfl h.stands.coalesced trivial with
    ⟨n, hCoalesce, hSize, hStands, hKeeps⟩
  rw [List.append_nil] at hKeeps
  have hMerge :
      table.coalesce half a.region.memory.size =
        .ok (n, (view.grownBlock a.region.memory.size
          size).offset) :=
    hCoalesce
  refine ⟨n, ?_, hSize.trans hHalfSize, hStands,
    hHalfKeeps.trans hKeeps⟩
  unfold extend
  rw [Traced.lift_bind_of_ok _ hBytes, hGrow]
  dsimp only
  rw [hMore.memory_eq,
    Traced.lift_bind_of_ok _ hAppend,
    Traced.lift_bind_of_ok _ (Word.add_of_lt hFew),
    Traced.report_bind,
    Traced.lift_bind_of_ok _ hMerge, hSize]
  rfl

/-
  Asked to grow by a block, an allocator at rest reports an
  error and keeps its bytes, or its heap grows by that block.
-/
theorem extend_cases
    {size : Nat}
    (h : a.AtRest table view)
    (hRoom : minimumBlock ≤ size)
    (hMod : size % doubleWord = 0)
    (hWord : size < Word.limit)
    (hFew : a.extensions + 1 < Word.limit) :
    (∃ error region,
      a.extend table (size / wordSize) = {
        events := [],
        outcome := .ok (.error error,
          { a with region := region }) } ∧
      a.region.Undisturbed region ∧
      a.region.grow size = (.error error, region)) ∨
    ∃ granted region,
      a.region.grow size =
        (.ok a.region.memory.size, granted) ∧
      granted.SameButBytes region ∧
      a.extend table (size / wordSize) = {
        events := [.extended size region.memory.size],
        outcome := .ok
          (.ok (view.grownBlock a.region.memory.size size).offset,
            { a with
              region := region,
              extensions := a.extensions + 1 }) } ∧
      region.memory.size = a.region.memory.size + size ∧
      a.region.Becomes region table
        (view.grown a.region.memory.size size)
        view.blocks := by
  rcases h.placed.grow_cases size with hBad | hGood
  · left
    rcases hBad with ⟨error, region, hGrow, hSame⟩
    refine ⟨error, region, ?_, hSame, hGrow⟩
    unfold extend
    rw [Traced.lift_bind_of_ok _ (evenBytes_of_lt hMod hWord),
      hGrow]
    rfl
  · right
    rcases hGood with ⟨grown, hGrow, hMore⟩
    rcases h.extend_granted hRoom hMod hFew hGrow hMore with
      ⟨n, hExtend, hSize, hStands, hKeeps⟩
    have hGrownSize : n.size = grown.memory.size := by
      rw [hSize, hMore.memory_eq, Memory.size_extend]
    refine ⟨grown, { grown with memory := n }, hGrow,
      ⟨⟨n, rfl⟩, hGrownSize⟩, hExtend, hSize, ?_⟩
    refine ⟨hMore.placed.withMemory hGrownSize, hStands,
      hMore.base_eq, ?_, hKeeps⟩
    change a.region.memory.size ≤ n.size
    omega

/-
  A free block is the first one that fits, or else one that
  the heap grows by.
-/
theorem freeBlockFor_eq
    (h : a.AtRest table view)
    (adjusted : Nat) :
    a.freeBlockFor table adjusted =
      match view.firstFit adjusted with
      | some bp => pure (.ok bp, a)
      | none =>
          a.extend table
            (max adjusted a.config.chunkSize / wordSize) := by
  have hFound : table.firstFit a.memory adjusted =
      .ok (view.firstFit adjusted) :=
    h.stands.firstFit_eq adjusted
  exact Traced.lift_bind_of_ok _ hFound

end AtRest

end Allocator

end SegregatedFit
