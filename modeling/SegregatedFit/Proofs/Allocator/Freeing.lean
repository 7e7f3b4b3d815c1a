import SegregatedFit.Allocator.Payload
import SegregatedFit.Proofs.Allocator.Allocating

/-
  What freeing and resizing do to an allocator at rest.

  A block that is freed merges with its free neighbours.  A
  block that is resized stays if it is large enough.  Any
  other one is freed after its payload was copied to a new
  block.

  Key theorems include:
    * `Allocator.AtRest.free_between`
    * `Allocator.AtRest.free_ok`
    * `Allocator.AtRest.moveOver_ok`
    * `Allocator.AtRest.relocate_eq`
    * `Allocator.AtRest.relocate_cases`
    * `Allocator.AtRest.resize_eq`
    * `Allocator.AtRest.resize_of_le`
-/

namespace SegregatedFit

namespace Allocator

namespace AtRest

variable {a : Allocator}
variable {table : SentinelTable}
variable {view : HeapView}
variable {block : ChainBlock}

------------------------------------------------------------
-- Freeing
------------------------------------------------------------

/- A block is freed in the memory of the heap. -/
theorem free_eq
    {bp : Nat}
    (h : a.AtRest table view) :
    a.free (some { offset := bp }) = do
      let tag ← a.memory.header bp
      let m ← a.memory.writeTags bp
        { size := tag.size, allocated := false }
      let (m, _) ← table.coalesce m bp
      let frees ← Word.add a.frees 1
      Traced.report (.freed tag.size bp)
      return { a.withMemory m with frees := frees } := by
  unfold free
  dsimp only
  rw [h.table_eq]

/-
  An allocated block is freed between the blocks on both
  sides of it and merges with those that are free.
-/
theorem free_between
    {front back : List ChainBlock}
    (h : a.AtRest table view)
    (hBlocks : view.blocks = front ++ block :: back)
    (hAllocated : block.header.allocated = true)
    (hFew : a.frees + 1 < Word.limit) :
    ∃ n,
      a.free (some { offset := block.offset }) = {
        events := [.freed block.header.size block.offset],
        outcome := .ok { a.withMemory n with
          frees := a.frees + 1 } } ∧
      n.size = a.region.memory.size ∧
      a.region.Becomes { a.region with memory := n } table
        (HeapView.settle front
          (.ofTag block.offset {
            size := block.header.size, allocated := false })
          back view.lists)
        (view.others block.offset) := by
  have hMem : block ∈ view.blocks := by
    rw [hBlocks]
    exact List.mem_append_right _ List.mem_cons_self
  have hHeader := h.header_eq
    (HeapView.mem_allocatedBlocks_iff.2 ⟨hMem, hAllocated⟩)
  have hHeap := h.stands.heap
  have hCoalesced := h.stands.coalesced
  rw [hBlocks] at hHeap hCoalesced
  rcases (noFreeNeighbours_allocated_iff hAllocated).1
      hCoalesced with ⟨hFront, hBack⟩
  -- The block goes to work, is made free, and merges.
  have hWork := hHeap.takeUp hAllocated
  have hTagged := hWork.tagged block OpenHeap.mem_work
  have hWhole : Tiles block.offset [block]
      (block.offset + block.header.size) :=
    ⟨rfl, rfl⟩
  rcases hWork.fuse false hWhole (List.cons_ne_nil _ _)
      hTagged.size_mod with
    ⟨half, hWrite, hHalfSize, hHalf, hHalfKeeps⟩
  rcases hHalf.coalesce rfl hFront hBack with
    ⟨n, hCoalesce, hSize, hStands, hKeeps⟩
  have hBoth := hSize.trans hHalfSize
  have hTakes : view.TakesBack
      (HeapView.settle front
        (.ofTag block.offset {
          size := block.header.size, allocated := false })
        back view.lists) block.offset :=
    ⟨front, block, back, hBlocks, hAllocated, rfl, rfl⟩
  refine ⟨n, ?_, hBoth,
    ⟨h.placed.withMemory hBoth, hStands, rfl,
      Nat.le_of_eq hBoth.symm, ?_⟩⟩
  · have hWrite' : a.memory.writeTags block.offset {
        size := block.header.size, allocated := false } =
          .ok half :=
      hWrite
    dsimp only [ChainBlock.ofTag] at hCoalesce
    rw [h.free_eq, Traced.lift_bind_of_ok _ hHeader,
      Traced.lift_bind_of_ok _ hWrite',
      Traced.lift_bind_of_ok _ hCoalesce]
    dsimp only
    rw [Traced.lift_bind_of_ok _ (Word.add_of_lt hFew),
      Traced.report_bind]
    rfl
  · apply (hHalfKeeps.trans hKeeps).mono
    intro other hOther _
    rw [← hTakes.allocatedBlocks_eq h.stands] at hOther
    unfold HeapView.allocatedBlocks at hOther
    rw [HeapView.allocated_settle] at hOther
    exact (List.mem_filter.1 hOther).1

/- An allocated block is freed and merges. -/
theorem free_ok
    (h : a.AtRest table view)
    (hBlock : block ∈ view.allocatedBlocks)
    (hFew : a.frees + 1 < Word.limit) :
    ∃ region next,
      a.free (some { offset := block.offset }) = {
        events := [.freed block.header.size block.offset],
        outcome := .ok { a with
          region := region,
          frees := a.frees + 1 } } ∧
      region.memory.size = a.region.memory.size ∧
      view.TakesBack next block.offset ∧
      a.region.Becomes region table next
        (view.others block.offset) := by
  rcases HeapView.mem_allocatedBlocks_iff.1 hBlock with
    ⟨hMem, hAllocated⟩
  rcases List.append_of_mem hMem with ⟨front, back, hBlocks⟩
  rcases h.free_between hBlocks hAllocated hFew with
    ⟨n, hFree, hSize, hBecomes⟩
  exact ⟨{ a.region with memory := n }, _, hFree, hSize,
    ⟨front, block, back, hBlocks, hAllocated, rfl, rfl⟩,
    hBecomes⟩

------------------------------------------------------------
-- Moving a Block
------------------------------------------------------------

/-
  A copy into the payload of an allocated block leaves the
  heap as it is.
-/
theorem move_ok
    {target : ChainBlock}
    (h : a.AtRest table view)
    (length : Nat)
    (hBlock : block ∈ view.allocatedBlocks)
    (hTarget : target ∈ view.allocatedBlocks)
    (hSource : length + doubleWord ≤ block.header.size)
    (hRoom : length + doubleWord ≤ target.header.size) :
    ∃ n,
      a.memory.move block.offset target.offset length = .ok n ∧
      n.size = a.region.memory.size ∧
      a.region.Becomes { a.region with memory := n } table view
        (view.others target.offset) ∧
      ∀ i, i < length →
        n.byte (target.offset + i) =
          a.region.memory.byte (block.offset + i) := by
  have hSizes := layout_sizes
  have hFrom := h.bounds hBlock
  have hTo := h.bounds hTarget
  rcases a.memory.exists_move block.offset target.offset
      length (by omega) (by omega) with
    ⟨n, hMove, hSize, hCopied, hOutside⟩
  rcases HeapView.mem_allocatedBlocks_iff.1 hTarget with
    ⟨hMem, hAllocated⟩
  rcases List.append_of_mem hMem with ⟨front, back, hBlocks⟩
  rcases h.stands.overwrite hBlocks hAllocated hSize
      (by
        intro i hi
        exact hOutside i (by omega)) with
    ⟨hStands, hKeeps⟩
  exact ⟨n, hMove, hSize,
    ⟨h.placed.withMemory hSize, hStands, rfl,
      Nat.le_of_eq hSize.symm, hKeeps⟩, hCopied⟩

/-
  The start of a payload is copied to another block, and the
  block that it came from is freed.  The blocks that are
  neither of the two keep their payloads.
-/
theorem moveOver_ok
    {new : ChainBlock}
    (h : a.AtRest table view)
    (length : Nat)
    (hBlock : block ∈ view.allocatedBlocks)
    (hNew : new ∈ view.allocatedBlocks)
    (hNe : new.offset ≠ block.offset)
    (hSource : length + doubleWord ≤ block.header.size)
    (hRoom : length + doubleWord ≤ new.header.size)
    (hFew : a.frees + 1 < Word.limit) :
    ∃ n region next,
      a.memory.move block.offset new.offset length = .ok n ∧
      (a.withMemory n).free (some { offset := block.offset }) = {
        events := [.freed block.header.size block.offset],
        outcome := .ok { a with
          region := region,
          frees := a.frees + 1 } } ∧
      a.Accounts
        { a with region := region, frees := a.frees + 1 }
        [.freed block.header.size block.offset]
        view.allocatedOffsets next.allocatedOffsets ∧
      next.allocatedBlocks = view.others block.offset ∧
      a.region.Becomes region table next
        ((view.others block.offset).filter
          (fun other => other.offset ≠ new.offset)) ∧
      ∀ i, i < length →
        region.memory.byte (new.offset + i) =
          a.region.memory.byte (block.offset + i) := by
  rcases h.move_ok length hBlock hNew hSource hRoom with
    ⟨n, hMove, hSame, hMoved, hCopied⟩
  have hCopy : (a.withMemory n).AtRest table view :=
    h.of_becomes rfl hMoved
  rcases hCopy.free_ok hBlock hFew with
    ⟨region, next, hFree, hSize, hTakes, hFreed⟩
  refine ⟨n, region, next, hMove, hFree,
    accounts_freed _ (hSize.trans hSame)
      (hTakes.perm_offsets hCopy.stands),
    hTakes.allocatedBlocks_eq hCopy.stands, ?_, ?_⟩
  · have hKept : a.region.Becomes
        { a.region with memory := n } table view
        ((view.others block.offset).filter
          (fun other => other.offset ≠ new.offset)) := by
      apply hMoved.mono
      intro other hOther _
      rcases List.mem_filter.1 hOther with ⟨hMem, hNot⟩
      exact List.mem_filter.2
        ⟨(List.mem_filter.1 hMem).1, hNot⟩
    exact hKept.trans hFreed
      (fun other hOther _ => (List.mem_filter.1 hOther).1)
  · -- The copy stands in a block that the other one leaves alone.
    intro i hi
    have hAllocated := (HeapView.mem_allocatedBlocks_iff.1 hNew).2
    have hStays : new ∈ view.others block.offset :=
      List.mem_filter.2 ⟨hNew, decide_eq_true hNe⟩
    rw [← hCopied i hi]
    exact hFreed.keeps new hStays hAllocated (new.offset + i)
      (by omega) (by omega)

end AtRest

/- What a resize asks for is no less than what it is for. -/
theorem le_resizeRequest
    (a : Allocator)
    (size : Nat) :
    size ≤ size * a.config.resizeMultiplier := by
  have hConfig := Config.validate_eq_ok_iff.1 a.config_valid
  exact Nat.le_mul_of_pos_right size hConfig.2.2

namespace AtRest

variable {a : Allocator}
variable {table : SentinelTable}
variable {view : HeapView}
variable {block : ChainBlock}

/- A block moves if the request for a new one is a word. -/
theorem relocate_eq
    (h : a.AtRest table view)
    (size : Nat)
    (hBlock : block ∈ view.allocatedBlocks) :
    a.relocate block.offset block.header.size size =
      if size * a.config.resizeMultiplier < Word.limit then do
        match ← a.allocate
            (size * a.config.resizeMultiplier) with
        | (none, a) => return (none, a)
        | (some target, a) => do
            let m ← a.memory.move block.offset target.offset
              (min (block.header.size - doubleWord) size)
            let a ← (a.withMemory m).free
              (some { offset := block.offset })
            Traced.report
              (.moved block.offset target.offset size)
            return (some target, a)
      else
        pure (none, a) := by
  have hSizes := layout_sizes
  have hBounds := h.bounds hBlock
  have hUsable :
      Word.sub block.header.size doubleWord =
        .ok (block.header.size - doubleWord) :=
    Word.sub_of_le (by omega)
  unfold relocate
  exact Traced.lift_bind_of_ok _ hUsable

/-
  An allocated block moves to a new one that has the start of
  its payload, or it stays and all bytes are kept.
-/
theorem relocate_cases
    (h : a.AtRest table view)
    (size : Nat)
    (hBlock : block ∈ view.allocatedBlocks)
    (hExtensions : a.extensions + 1 < Word.limit)
    (hAllocations : a.allocations + 1 < Word.limit)
    (hFrees : a.frees + 1 < Word.limit) :
    (∃ region,
      (a.relocate block.offset block.header.size size).outcome =
        .ok (none, { a with region := region }) ∧
      a.region.Undisturbed region ∧
      ∀ event ∈
          (a.relocate block.offset block.header.size size).events,
        event.IsRemark) ∨
    ∃ region, ∃ next : HeapView, ∃ new : ChainBlock,
      ∃ grew : Nat,
      (a.relocate block.offset block.header.size size).outcome =
        .ok (some { offset := new.offset },
          { a with
            region := region,
            extensions := a.extensions + grew,
            allocations := a.allocations + 1,
            frees := a.frees + 1 }) ∧
      grew ≤ 1 ∧
      new.offset ∉ view.allocatedOffsets ∧
      size + doubleWord ≤ new.header.size ∧
      next.allocatedBlocks.Perm
        (new :: view.others block.offset) ∧
      a.region.Becomes region table next
        (view.others block.offset) ∧
      (∀ i, i < min (block.header.size - doubleWord) size →
        region.memory.byte (new.offset + i) =
          a.region.memory.byte (block.offset + i)) ∧
      a.Accounts
        { a with
          region := region,
          extensions := a.extensions + grew,
          allocations := a.allocations + 1,
          frees := a.frees + 1 }
        (a.relocate block.offset block.header.size size).events
        view.allocatedOffsets next.allocatedOffsets := by
  have hSizes := layout_sizes
  have hBounds := h.bounds hBlock
  have hSame : a.region.Undisturbed a.region :=
    ⟨rfl, rfl, h.placed⟩
  rw [h.relocate_eq size hBlock]
  by_cases hRequest :
      ¬ size * a.config.resizeMultiplier < Word.limit
  · left
    rw [if_neg hRequest]
    exact ⟨a.region, rfl, hSame,
      fun _ hEvent => absurd hEvent List.not_mem_nil⟩
  rw [Decidable.not_not] at hRequest
  rw [if_pos hRequest]
  rcases h.allocate_new (size * a.config.resizeMultiplier)
      hExtensions hAllocations with hBad | hGood
  · left
    rcases hBad with ⟨region, hAllocate, hKept, hRemarks⟩
    refine ⟨region, ?_, hKept, ?_⟩
    · rw [Traced.outcome_bind_of_ok hAllocate]
      rfl
    · intro event hEvent
      rw [Traced.events_bind_of_ok hAllocate] at hEvent
      rcases List.mem_append.1 hEvent with hMem | hMem
      · exact hRemarks event hMem
      · exact absurd hMem List.not_mem_nil
  right
  rcases hGood with
    ⟨region, first, new, grew, hAllocate, hGrew, hRoom, hFresh,
      hPerm, hFirst, hAccounts⟩
  -- No block of before stands where the new one does.
  have hNe : ∀ other ∈ view.allocatedBlocks,
      other.offset ≠ new.offset := by
    intro other hOther hEq
    apply hFresh
    rw [HeapView.allocatedOffsets_eq, ← hEq]
    exact List.mem_map_of_mem hOther
  have hRequested := a.le_resizeRequest size
  have hLarge : size + doubleWord ≤ new.header.size := by
    omega
  let served : Allocator :=
    { a with
      region := region,
      extensions := a.extensions + grew,
      allocations := a.allocations + 1 }
  have hServed : served.AtRest table first :=
    h.of_becomes rfl hFirst
  have hOld : ∀ other ∈ view.allocatedBlocks,
      other ∈ first.allocatedBlocks := by
    intro other hOther
    exact hPerm.mem_iff.2 (List.mem_cons_of_mem new hOther)
  rcases hServed.moveOver_ok
      (min (block.header.size - doubleWord) size)
      (hOld block hBlock) (hPerm.mem_iff.2 List.mem_cons_self)
      (hNe block hBlock).symm (by omega) (by omega) hFrees with
    ⟨n, region', next, hMove, hFree, hFreed, hNext, hMoved,
      hCopied⟩
  refine ⟨region', next, new, grew, ?_, hGrew, hFresh, hLarge,
    ?_, ?_, ?_, ?_⟩
  · rw [Traced.outcome_bind_of_ok hAllocate]
    dsimp only
    rw [Traced.lift_bind_of_ok _ hMove,
      Traced.bind_of_eq _ hFree]
    rfl
  · rw [hNext]
    exact HeapView.perm_others_cons hPerm (hNe block hBlock).symm
  · have hKept : a.region.Becomes region table first
        (view.others block.offset) :=
      hFirst.mono (fun other hOther _ =>
        (List.mem_filter.1 hOther).1)
    apply hKept.trans hMoved
    intro other hOther _
    rcases List.mem_filter.1 hOther with ⟨hMem, hNot⟩
    exact List.mem_filter.2
      ⟨List.mem_filter.2 ⟨hOld other hMem, hNot⟩,
        decide_eq_true (hNe other hMem)⟩
  · intro i hi
    have hStart := hFirst.keeps block hBlock
      (HeapView.mem_allocatedBlocks_iff.1 hBlock).2
      (block.offset + i) (by omega) (by omega)
    rw [hCopied i hi]
    exact hStart
  · -- What is allocated, freed and remarked on is all there is.
    rw [Traced.events_bind_of_ok hAllocate]
    dsimp only
    rw [Traced.lift_bind_of_ok _ hMove,
      Traced.bind_of_eq _ hFree]
    exact hAccounts.trans (hFreed.trans
      (accounts_remark _
        (.moved block.offset new.offset size) trivial))

------------------------------------------------------------
-- Resizing
------------------------------------------------------------

/- A resize of a block is decided by the size that it needs. -/
theorem resize_eq
    {size : Nat}
    (h : a.AtRest table view)
    (hBlock : block ∈ view.allocatedBlocks)
    (hSize : size ≠ 0) :
    a.resize (some { offset := block.offset }) size =
      if size + 2 * doubleWord < Word.limit then
        if Request.sizeFor size ≤ block.header.size then {
          events :=
            [.resizedInPlace block.offset size
              block.header.size],
          outcome :=
            .ok (some { offset := block.offset }, a) }
        else
          a.relocate block.offset block.header.size size
      else
        pure (none, a) := by
  have hHeader := h.header_eq hBlock
  have hInitialized : a.isInitialized = true := by
    unfold isInitialized
    rw [h.table_eq]
    rfl
  unfold resize
  rw [if_neg hSize]
  dsimp only
  rw [if_pos hInitialized,
    Traced.lift_bind_of_ok _ (Request.blockSize?_eq _)]
  by_cases hWord : size + 2 * doubleWord < Word.limit
  · rw [if_pos hWord, if_pos hWord]
    dsimp only
    rw [Traced.lift_bind_of_ok _ hHeader]
    by_cases hFits : Request.sizeFor size ≤ block.header.size
    · rw [if_pos hFits, if_pos hFits, Traced.report_bind]
      rfl
    · rw [if_neg hFits, if_neg hFits]
  · rw [if_neg hWord, if_neg hWord]

/- A size fits into a block exactly if its payload has room. -/
theorem sizeFor_le_iff
    (h : a.AtRest table view)
    (hBlock : block ∈ view.allocatedBlocks)
    (size : Nat) :
    Request.sizeFor size ≤ block.header.size ↔
      size + doubleWord ≤ block.header.size := by
  have hBounds := h.bounds hBlock
  have hMod :=
    Memory.size_mod_of_header (h.header_eq hBlock)
  constructor
  · exact Nat.le_trans (Request.le_sizeFor size)
  · exact Request.sizeFor_le hBounds.2.1 hMod

/- A block stays if its payload has room, and nothing changes. -/
theorem resize_of_le
    {size : Nat}
    (h : a.AtRest table view)
    (hBlock : block ∈ view.allocatedBlocks)
    (hSize : size ≠ 0)
    (hFits : size + doubleWord ≤ block.header.size) :
    a.resize (some { offset := block.offset }) size = {
      events :=
        [.resizedInPlace block.offset size block.header.size],
      outcome := .ok (some { offset := block.offset }, a) } := by
  have hSizes := layout_sizes
  have hBounds := h.bounds hBlock
  have hWord : a.region.base + a.memory.size < Word.limit :=
    h.placed.size_lt
  have hFirst := table.firstBlock_eq
  have hNear : size + 2 * doubleWord < Word.limit := by
    omega
  rw [h.resize_eq hBlock hSize, if_pos hNear,
    if_pos ((h.sizeFor_le_iff hBlock size).2 hFits)]

/- A block without that room moves, or nothing can be done. -/
theorem resize_of_lt
    {size : Nat}
    (h : a.AtRest table view)
    (hBlock : block ∈ view.allocatedBlocks)
    (hSize : size ≠ 0)
    (hLarge : block.header.size < size + doubleWord) :
    a.resize (some { offset := block.offset }) size =
      if size + 2 * doubleWord < Word.limit then
        a.relocate block.offset block.header.size size
      else
        pure (none, a) := by
  have hNot : ¬ Request.sizeFor size ≤ block.header.size := by
    rw [h.sizeFor_le_iff hBlock]
    omega
  rw [h.resize_eq hBlock hSize, if_neg hNot]

end AtRest

end Allocator

end SegregatedFit
