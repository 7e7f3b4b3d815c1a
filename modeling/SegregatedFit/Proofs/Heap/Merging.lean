import SegregatedFit.Allocator.Placement
import SegregatedFit.Proofs.Block.Neighbours
import SegregatedFit.Proofs.Heap.Steps

/-
  What merging a block with its free neighbours does to a
  heap.

  The block at work absorbs the free block in front of it and
  the free block behind it, which leave their lists, and
  enters the list of its new class at the head:
  `HeapView.settle`.

  Key definitions include:
    * `FreeLists.dropAll`
    * `HeapView.settle`

  Key theorems include:
    * `OpenHeap.merge`
    * `OpenHeap.coalesce`
-/

namespace SegregatedFit

/- The lists without the given blocks. -/
def FreeLists.dropAll
    (lists : FreeLists)
    (blocks : List ChainBlock) : FreeLists :=
  blocks.foldl (fun lists block => drop lists block.offset) lists

/- Nothing but the given blocks leaves a list. -/
theorem FreeLists.dropAll_eq
    {lists : FreeLists}
    {c : Nat}
    (hNodup : (lists c).Nodup)
    (blocks : List ChainBlock) :
    dropAll lists blocks c =
      (lists c).filter (fun node =>
        node ∉ blocks.map ChainBlock.offset) := by
  unfold dropAll
  induction blocks generalizing lists with
  | nil => simp
  | cons block blocks ih =>
      have hErase : drop lists block.offset c =
          (lists c).filter (fun node => node != block.offset) :=
        hNodup.erase_eq_filter _
      have hRest : (drop lists block.offset c).Nodup :=
        hNodup.erase _
      rw [List.foldl_cons, ih hRest, hErase, List.filter_filter]
      apply List.filter_congr
      intro node _
      by_cases hEq : node = block.offset
      · simp [hEq]
      · simp [hEq]

/-
  The view after a free block between two rows has merged
  with the free blocks around it and been listed.
-/
def HeapView.settle
    (front : List ChainBlock)
    (block : ChainBlock)
    (back : List ChainBlock)
    (lists : FreeLists) : HeapView :=
  let previous := trailingFree front
  let next := leadingFree back
  let merged := mergedBlock previous block next
  { blocks :=
      withoutTrailing front ++ merged :: withoutLeading back,
    lists :=
      FreeLists.push (FreeLists.dropAll lists (previous ++ next))
        (SizeClass.classify merged.header.size) merged.offset }

/- Merging takes and makes no allocated blocks. -/
theorem HeapView.allocated_settle
    (front : List ChainBlock)
    (block : ChainBlock)
    (back : List ChainBlock)
    (lists : FreeLists) :
    (settle front block back lists).blocks.filter
        (fun block => block.header.allocated) =
      (front ++ back).filter
        (fun block => block.header.allocated) := by
  unfold settle
  rw [List.filter_append, List.filter_append,
    List.filter_cons_of_neg (by simp [mergedBlock,
      ChainBlock.ofTag]),
    allocated_withoutTrailing, allocated_withoutLeading]

/- Between allocated blocks nothing merges. -/
theorem Memory.merge_of_allocated
    {m : Memory}
    {bp : Nat}
    {tag before behind : Tag}
    (hHeader : m.header bp = .ok tag)
    (hWord : bp + tag.size < Word.limit)
    (hBefore : m.previousFooter bp = .ok before)
    (hBehind : m.header (bp + tag.size) = .ok behind)
    (hNeighbours :
      before.allocated = true ∧ behind.allocated = true) :
    m.merge bp =
      .ok { memory := m, start := bp, size := tag.size } := by
  have hNext : m.nextBlock bp = .ok (bp + tag.size) := by
    unfold nextBlock
    rw [Fault.bind_of_ok hHeader]
    exact Word.add_of_lt hWord
  unfold merge
  rw [Fault.bind_of_ok hHeader, Fault.bind_of_ok hBefore,
    Fault.bind_of_ok hNext, Fault.bind_of_ok hBehind,
    hNeighbours.1, hNeighbours.2]
  rfl

namespace OpenHeap

variable {table : SentinelTable}
variable {m : Memory}
variable {front middle back : List ChainBlock}
variable {lists : FreeLists}

------------------------------------------------------------
-- Looking Around
------------------------------------------------------------

/- The tag in front of the blocks at work. -/
def tagBefore
    (front : List ChainBlock) : Tag :=
  (front.getLast?.map ChainBlock.header).getD Tag.prologue

/- The tag behind the blocks at work. -/
def tagAfter
    (back : List ChainBlock) : Tag :=
  (back.head?.map ChainBlock.header).getD Tag.epilogue

/- In front of a block stands a footer. -/
theorem previousFooter_eq
    {block : ChainBlock}
    (h : OpenHeap table m front (block :: middle) back lists) :
    m.previousFooter block.offset = .ok (tagBefore front) := by
  have hCut := (tiles_cut_iff.1 h.tiles).1
  rcases List.eq_nil_or_concat' front with hNil | ⟨rest, last, hEq⟩
  · subst hNil
    have hOffset : block.offset =
        table.prologueBlock.offset +
          table.prologueBlock.header.size :=
      hCut.symm
    rw [hOffset]
    exact h.prologue.previousFooter_eq
  · subst hEq
    have hLast : last.offset + last.header.size = block.offset :=
      (tiles_cut_iff.1 hCut).2
    have hTagged := h.tagged last (by simp)
    rw [← hLast, hTagged.previousFooter_eq]
    simp [tagBefore]

/- The block in front is found by its footer. -/
theorem behind_previous
    {previous block : ChainBlock}
    (h : OpenHeap table m (front ++ [previous])
      (block :: middle) back lists) :
    previous.offset + previous.header.size = block.offset ∧
      m.previousFooter block.offset = .ok previous.header ∧
      m.previousBlock block.offset = .ok previous.offset := by
  have hOffset :
      previous.offset + previous.header.size = block.offset :=
    (tiles_cut_iff.1 (tiles_cut_iff.1 h.tiles).1).2
  have hBefore := h.previousFooter_eq
  simp only [tagBefore, List.getLast?_concat, Option.map_some,
    Option.getD_some] at hBefore
  refine ⟨hOffset, hBefore, ?_⟩
  unfold Memory.previousBlock
  rw [Fault.bind_of_ok hBefore, Word.sub_of_le (by omega)]
  congr 1
  omega

/- Behind a block stands a header. -/
theorem header_behind
    {block : ChainBlock}
    (h : OpenHeap table m front [block] back lists) :
    m.header (block.offset + block.header.size) =
      .ok (tagAfter back) := by
  have hCut := (tiles_cut_iff.1 h.tiles).2
  cases back with
  | nil =>
      have hStop : block.offset + block.header.size = m.size :=
        hCut
      rw [hStop]
      exact h.epilogue
  | cons first rest =>
      have hOffset :
          first.offset = block.offset + block.header.size :=
        hCut.1
      have hTagged := h.tagged first mem_behind
      rw [← hOffset]
      exact hTagged.header_eq

/- The tag in front of an allocated end is allocated. -/
theorem tagBefore_allocated
    (h : EndsAllocated front) :
    (tagBefore front).allocated = true := by
  unfold tagBefore
  cases hLast : front.getLast? with
  | none => rfl
  | some last => exact h last hLast

/- The tag behind an allocated start is allocated. -/
theorem tagAfter_allocated
    (h : StartsAllocated back) :
    (tagAfter back).allocated = true := by
  unfold tagAfter
  cases hFirst : back.head? with
  | none => rfl
  | some first => exact h first hFirst

------------------------------------------------------------
-- Merging
------------------------------------------------------------

/- Between allocated blocks at work nothing merges. -/
theorem merge_alone
    {block : ChainBlock}
    (h : OpenHeap table m front [block] back lists)
    (hFront : EndsAllocated front)
    (hBack : StartsAllocated back) :
    m.merge block.offset =
      .ok {
        memory := m,
        start := block.offset,
        size := block.header.size } := by
  have hBlock := h.tagged block mem_work
  exact Memory.merge_of_allocated hBlock.header_eq
    hBlock.inside.2.2.2.2 h.previousFooter_eq h.header_behind
    ⟨tagBefore_allocated hFront, tagAfter_allocated hBack⟩

/- A free block behind is absorbed. -/
theorem merge_next
    {block next : ChainBlock}
    (h : OpenHeap table m front [block] (next :: back) lists)
    (hFront : EndsAllocated front)
    (hNext : next.header.allocated = false) :
    ∃ n,
      m.merge block.offset = .ok {
        memory := n,
        start := block.offset,
        size := block.header.size + next.header.size } ∧
      n.size = m.size ∧
      OpenHeap table n front
        [.ofTag block.offset {
          size := block.header.size + next.header.size,
          allocated := false }] back
        (FreeLists.drop lists next.offset) ∧
      m.KeepsPayloads n (front ++ back) := by
  have hBlock := h.tagged block mem_work
  have hBehind := h.header_behind
  have hNextOffset :
      next.offset = block.offset + block.header.size :=
    (tiles_cut_iff.1 h.tiles).2.1
  have hBounds := h.bounds mem_behind
  -- The block behind leaves its list first.
  rcases h.unlink_next hNext with
    ⟨half, hUnlink, hHalfSize, hHalf, hHalfKeeps⟩
  have hTiles : Tiles block.offset [block, next]
      (block.offset +
        (block.header.size + next.header.size)) :=
    ⟨rfl, hNextOffset, (Nat.add_assoc _ _ _)⟩
  have hMod :
      (block.header.size + next.header.size) % doubleWord =
        0 := by
    have hExtent := hHalf.extent_mod
    unfold extent at hExtent
    simpa using hExtent
  rcases hHalf.fuse false hTiles (by simp) hMod with
    ⟨n, hWrite, hSize, hHeap, hKeeps⟩
  refine ⟨n, ?_, hSize.trans hHalfSize, hHeap, ?_⟩
  · unfold Memory.merge
    rw [Fault.bind_of_ok hBlock.header_eq,
      Fault.bind_of_ok h.previousFooter_eq,
      Fault.bind_of_ok hBlock.nextBlock_eq,
      Fault.bind_of_ok hBehind]
    have hAfter : tagAfter (next :: back) = next.header := rfl
    rw [hAfter]
    simp only [tagBefore_allocated hFront, hNext]
    rw [Fault.bind_of_ok (Word.add_of_lt (by omega)),
      ← hNextOffset, Fault.bind_of_ok hUnlink,
      Fault.bind_of_ok hWrite]
    rfl
  · exact hHalfKeeps.trans hKeeps

/- A free block in front is absorbed. -/
theorem merge_previous
    {previous block : ChainBlock}
    (h : OpenHeap table m (front ++ [previous]) [block] back
      lists)
    (hPrevious : previous.header.allocated = false)
    (hBack : StartsAllocated back) :
    ∃ n,
      m.merge block.offset = .ok {
        memory := n,
        start := previous.offset,
        size := block.header.size + previous.header.size } ∧
      n.size = m.size ∧
      OpenHeap table n front
        [.ofTag previous.offset {
          size := block.header.size + previous.header.size,
          allocated := false }] back
        (FreeLists.drop lists previous.offset) ∧
      m.KeepsPayloads n (front ++ back) := by
  have hBlock := h.tagged block mem_work
  rcases h.behind_previous with
    ⟨hOffset, hBefore, hPreviousBlock⟩
  have hBehind := h.header_behind
  have hBounds := h.bounds mem_work
  have hFirst := h.tagged previous (by simp)
  -- The block in front leaves its list first.
  rcases h.unlink_previous hPrevious with
    ⟨half, hUnlink, hHalfSize, hHalf, hHalfKeeps⟩
  have hTiles : Tiles previous.offset [previous, block]
      (previous.offset +
        (block.header.size + previous.header.size)) := by
    refine ⟨rfl, hOffset.symm, ?_⟩
    change _ + _ + _ = _
    omega
  have hMod :
      (block.header.size + previous.header.size) %
        doubleWord = 0 := by
    have hExtent := hHalf.extent_mod
    unfold extent at hExtent
    simpa [Nat.add_comm] using hExtent
  rcases hHalf.fuse false hTiles (by simp) hMod with
    ⟨n, hWrite, hSize, hHeap, hKeeps⟩
  refine ⟨n, ?_, hSize.trans hHalfSize, hHeap, ?_⟩
  · unfold Memory.merge
    rw [Fault.bind_of_ok hBlock.header_eq,
      Fault.bind_of_ok hBefore,
      Fault.bind_of_ok hBlock.nextBlock_eq,
      Fault.bind_of_ok hBehind]
    simp only [hPrevious, tagAfter_allocated hBack]
    rw [Fault.bind_of_ok hPreviousBlock,
      Fault.bind_of_ok hFirst.header_eq,
      Fault.bind_of_ok (Word.add_of_lt (by omega)),
      Fault.bind_of_ok hUnlink, Fault.bind_of_ok hWrite]
    rfl
  · exact hHalfKeeps.trans hKeeps

/- Free blocks on both sides are absorbed together. -/
theorem merge_both
    {previous block next : ChainBlock}
    (h : OpenHeap table m (front ++ [previous]) [block]
      (next :: back) lists)
    (hPrevious : previous.header.allocated = false)
    (hNext : next.header.allocated = false) :
    ∃ n,
      m.merge block.offset = .ok {
        memory := n,
        start := previous.offset,
        size := block.header.size +
          (previous.header.size + next.header.size) } ∧
      n.size = m.size ∧
      OpenHeap table n front
        [.ofTag previous.offset {
          size := block.header.size +
            (previous.header.size + next.header.size),
          allocated := false }] back
        (FreeLists.drop
          (FreeLists.drop lists previous.offset)
          next.offset) ∧
      m.KeepsPayloads n (front ++ back) := by
  have hBlock := h.tagged block mem_work
  rcases h.behind_previous with
    ⟨hOffset, hBefore, hPreviousBlock⟩
  have hBehind := h.header_behind
  have hNextOffset :
      next.offset = block.offset + block.header.size :=
    (tiles_cut_iff.1 h.tiles).2.1
  have hBounds := h.bounds mem_behind
  have hFirst := h.tagged previous (by simp)
  -- The block in front leaves its list, then the one behind.
  rcases h.unlink_previous hPrevious with
    ⟨first, hUnlink, hFirstSize, hLeft, hFirstKeeps⟩
  rcases hLeft.unlink_next hNext with
    ⟨half, hUnlink', hHalfSize, hHalf, hHalfKeeps⟩
  have hTiles : Tiles previous.offset [previous, block, next]
      (previous.offset + (block.header.size +
        (previous.header.size + next.header.size))) := by
    refine ⟨rfl, hOffset.symm, ?_, ?_⟩
    · omega
    · change _ + _ + _ + _ = _
      omega
  have hMod :
      (block.header.size +
        (previous.header.size + next.header.size)) %
          doubleWord = 0 := by
    have hExtent := hHalf.extent_mod
    unfold extent at hExtent
    simpa [Nat.add_left_comm] using hExtent
  rcases hHalf.fuse false hTiles (by simp) hMod with
    ⟨n, hWrite, hSize, hHeap, hKeeps⟩
  refine ⟨n, ?_, hSize.trans (hHalfSize.trans hFirstSize),
    hHeap, ?_⟩
  · unfold Memory.merge
    rw [Fault.bind_of_ok hBlock.header_eq,
      Fault.bind_of_ok hBefore,
      Fault.bind_of_ok hBlock.nextBlock_eq,
      Fault.bind_of_ok hBehind]
    have hAfter : tagAfter (next :: back) = next.header := rfl
    rw [hAfter]
    simp only [hPrevious, hNext]
    rw [Fault.bind_of_ok hPreviousBlock,
      Fault.bind_of_ok hFirst.header_eq,
      Fault.bind_of_ok (Word.add_of_lt (by omega)),
      Fault.bind_of_ok (Word.add_of_lt (by omega)),
      Fault.bind_of_ok hUnlink, ← hNextOffset,
      Fault.bind_of_ok hUnlink', Fault.bind_of_ok hWrite]
    rfl
  · have hRest : (front ++ back).Sublist
        (front ++ next :: back) :=
      (List.sublist_cons_self next back).append_left front
    exact ((hFirstKeeps.sublist hRest).trans hHalfKeeps).trans
      hKeeps

/-
  A block merges with the free blocks around it, whichever
  of them there are.
-/
theorem merge
    {block : ChainBlock}
    (h : OpenHeap table m front [block] back lists)
    (hFree : block.header.allocated = false)
    (hFront : NoFreeNeighbours front)
    (hBack : NoFreeNeighbours back) :
    ∃ n,
      m.merge block.offset = .ok {
        memory := n,
        start := (mergedBlock (trailingFree front) block
          (leadingFree back)).offset,
        size := (mergedBlock (trailingFree front) block
          (leadingFree back)).header.size } ∧
      n.size = m.size ∧
      OpenHeap table n (withoutTrailing front)
        [mergedBlock (trailingFree front) block
          (leadingFree back)]
        (withoutLeading back)
        (FreeLists.dropAll lists
          (trailingFree front ++ leadingFree back)) ∧
      m.KeepsPayloads n
        (withoutTrailing front ++ withoutLeading back) := by
  have hBlock := h.tagged block mem_work
  rcases trailing_cases hFront with hNone | hSome
  · rcases hNone with ⟨hEnds, hTrailing, hWithout⟩
    rw [hTrailing, hWithout]
    rcases leading_cases hBack with hNone' | hSome'
    · rcases hNone' with ⟨hStarts, hLeading, hWithout'⟩
      rw [hLeading, hWithout']
      have hSame : mergedBlock [] block [] = block := by
        rcases block with ⟨offset, ⟨size, allocated⟩, footer⟩
        have hEqual := hBlock.equal
        simp only at hEqual hFree
        subst hEqual
        subst hFree
        simp [mergedBlock, ChainBlock.ofTag, extent]
      rw [hSame]
      exact ⟨m, h.merge_alone hEnds hStarts, rfl, h,
        fun _ _ _ _ _ _ => rfl⟩
    · rcases hSome' with
        ⟨next, rest, rfl, hNext, _, hLeading, hWithout'⟩
      rw [hLeading, hWithout']
      have hSame : mergedBlock [] block [next] =
          .ofTag block.offset {
            size := block.header.size + next.header.size,
            allocated := false } := by
        simp [mergedBlock, extent]
      rw [hSame]
      exact h.merge_next hEnds hNext
  · rcases hSome with
      ⟨rest, previous, rfl, hPrevious, _, hTrailing, hWithout⟩
    rw [hTrailing, hWithout]
    have hOffset := h.behind_previous.1
    have hStart :
        block.offset - previous.header.size =
          previous.offset := by
      omega
    rcases leading_cases hBack with hNone' | hSome'
    · rcases hNone' with ⟨hStarts, hLeading, hWithout'⟩
      rw [hLeading, hWithout']
      have hSame : mergedBlock [previous] block [] =
          .ofTag previous.offset {
            size := block.header.size + previous.header.size,
            allocated := false } := by
        simp [mergedBlock, extent, hStart, Nat.add_comm]
      rw [hSame]
      exact h.merge_previous hPrevious hStarts
    · rcases hSome' with
        ⟨next, rest', rfl, hNext, _, hLeading, hWithout'⟩
      rw [hLeading, hWithout']
      have hSame : mergedBlock [previous] block [next] =
          .ofTag previous.offset {
            size := block.header.size +
              (previous.header.size + next.header.size),
            allocated := false } := by
        simp [mergedBlock, extent, hStart, Nat.add_left_comm]
      rw [hSame]
      exact h.merge_both hPrevious hNext

------------------------------------------------------------
-- Coalescing
------------------------------------------------------------

/-
  A free block that was at work merges and is listed.  The
  heap is then at rest.
-/
theorem coalesce
    {block : ChainBlock}
    (h : OpenHeap table m front [block] back lists)
    (hFree : block.header.allocated = false)
    (hFront : NoFreeNeighbours front)
    (hBack : NoFreeNeighbours back) :
    ∃ n,
      table.coalesce m block.offset =
        .ok (n, (mergedBlock (trailingFree front) block
          (leadingFree back)).offset) ∧
      n.size = m.size ∧
      (HeapView.settle front block back lists).Stands table n ∧
      m.KeepsPayloads n (front ++ back) := by
  rcases h.merge hFree hFront hBack with
    ⟨half, hMerge, hHalfSize, hHalf, hHalfKeeps⟩
  rcases hHalf.insert rfl with
    ⟨n, hInsert, hSize, hHeap, hKeeps⟩
  refine ⟨n, ?_, hSize.trans hHalfSize,
    ⟨hHeap, noFreeNeighbours_merged hFront hBack rfl⟩, ?_⟩
  · unfold SentinelTable.coalesce
    rw [Fault.bind_of_ok hMerge, Fault.bind_of_ok hInsert]
    rfl
  · -- What was absorbed was free and had no payload.
    apply (hHalfKeeps.trans hKeeps).mono
    intro other hOther hAllocated
    have hListed : other ∈ (front ++ back).filter
        (fun block => block.header.allocated) :=
      List.mem_filter.2 ⟨hOther, hAllocated⟩
    rw [List.filter_append, ← allocated_withoutTrailing front,
      ← allocated_withoutLeading back, ← List.filter_append]
      at hListed
    exact (List.mem_filter.1 hListed).1

end OpenHeap

end SegregatedFit
