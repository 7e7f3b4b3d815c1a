import SegregatedFit.Proofs.Client.Conservation
import SegregatedFit.Proofs.Client.Serving
import SegregatedFit.Proofs.Heap.Gaps

/-
  Freeing an address right after it was given.

  A block is cut from a free block and is given back to it
  when it is freed, since no two free blocks touch.  So the
  heap is again as it was when the block was found.

  Key definitions include:
    * `HeapView.Matches`

  Key theorems include:
    * `Allocator.MadeReady.size_cases`
    * `Allocator.ServedFrom.free_next`
    * `Client.History.free_undoes_allocate`
-/

namespace SegregatedFit

------------------------------------------------------------
-- Views
------------------------------------------------------------

namespace HeapView

/- Two views have the same blocks, and the same ones on each list. -/
def Matches
    (view other : HeapView) : Prop :=
  view.blocks = other.blocks ∧
    ∀ c, c < SizeClass.count →
      (view.lists c).Perm (other.lists c)

variable {view other : HeapView}

/- Views that match have the same free bytes. -/
theorem Matches.freeBytes_eq
    (h : view.Matches other) :
    view.freeBytes = other.freeBytes := by
  unfold freeBytes freeBlocks
  rw [h.1]

end HeapView

------------------------------------------------------------
-- Allocators
------------------------------------------------------------

namespace Allocator

variable {a ready next : Allocator}
variable {table : SentinelTable}
variable {view middle : HeapView}
variable {adjusted : Nat}

/- A heap that is made ready keeps its size or grows. -/
theorem MadeReady.size_cases
    (h : a.MadeReady ready view middle adjusted) :
    (ready.region.size = a.region.size ∧ middle = view) ∨
      ∃ growth before previous merged,
        0 < growth ∧
        ready.region.size = a.region.size + growth ∧
        (view.appended a.region.size growth).Absorbs middle
          before previous
          (.ofTag a.region.size
            { size := growth, allocated := false })
          none [] merged := by
  rcases h with hSame | hGrown
  · rcases hSame with ⟨rfl, hView⟩
    exact Or.inl ⟨rfl, hView⟩
  · rcases hGrown with
      ⟨growth, before, previous, merged, hGrowth, hSize,
        hAbsorbs⟩
    have hChunk := Config.validate_eq_ok_iff.1 a.config_valid
    refine Or.inr ⟨growth, before, previous, merged, ?_, hSize,
      hAbsorbs⟩
    have hLe := Nat.le_max_right adjusted a.config.chunkSize
    have hPositive : 0 < minimumBlock := by
      decide
    omega

/-
  What was just served is freed, and the heap is as it was
  when it was ready for the request.
-/
theorem ServedFrom.free_next
    {front back : List ChainBlock}
    {block : ChainBlock}
    (h : a.ServedFrom ready next table view middle adjusted
      front block back)
    (hFew : a.frees + 1 < Word.limit) :
    ∃ freed view',
      (next.free (some { offset := block.offset })).outcome =
        .ok freed ∧
      freed.AtRest table view' ∧
      freed.region.size = ready.region.size ∧
      view'.Matches middle := by
  have hFrees := h.frees_eq
  rcases h.next_rest.free_between rfl rfl (by omega) with
    ⟨n, hFree, hSize, hBecomes⟩
  let freed : Allocator :=
    { next.withMemory n with frees := next.frees + 1 }
  have hRest : freed.AtRest table _ :=
    h.next_rest.of_becomes rfl hBecomes
  -- The allocated blocks are those on both sides again.
  have hAllocated :
      (HeapView.settle front
        (.ofTag (block.handedOut adjusted).offset {
          size := (block.handedOut adjusted).header.size,
          allocated := false })
        ((block.leftOver adjusted).toList ++ back)
        (HeapView.carve front block back middle.lists
          adjusted).lists).allocatedBlocks =
        middle.allocatedBlocks := by
    unfold HeapView.allocatedBlocks
    rw [HeapView.allocated_settle, h.blocks_eq,
      List.filter_append, List.filter_append,
      List.filter_append, block.allocated_leftOver,
      List.filter_cons_of_neg (by simp [h.block_free]),
      List.nil_append]
  have hWhole : n.size = ready.region.memory.size :=
    hSize.trans h.size_eq
  exact ⟨_, _, congrArg Traced.outcome hFree, hRest, hWhole,
    h.ready_rest.stands.same_of_allocated hRest.stands hWhole
      hAllocated⟩

end Allocator

------------------------------------------------------------
-- Histories
------------------------------------------------------------

namespace Client

variable {start next : Allocator}
variable {events : List Event}
variable {client : Client}
variable {table : SentinelTable}
variable {view : HeapView}
variable {address : Address}
variable {size : Nat}

namespace History

/-
  An address that was just given can be freed again.

  If the heap did not grow for it, it has the same blocks as
  before, the same ones on each list, and the same size and
  free bytes.  If it did, it is the heap of before with the
  bytes it grew by as a free block at the end, which absorbed
  the last block of before if that was free.
-/
theorem free_undoes_allocate
    (h : History start events client)
    (hTable : client.allocator.table = some table)
    (hView : view.Describes table client.allocator.memory)
    (hFew : client.operations + 1 < Word.limit)
    (hOutcome : (client.allocator.allocate size).outcome =
      .ok (some address, next)) :
    ∃ freed, ∃ view' : HeapView, ∃ before after,
      (next.free (some address)).outcome = .ok freed ∧
      freed.table = some table ∧
      view'.Describes table freed.memory ∧
      client.allocator.statistics = .ok before ∧
      freed.statistics = .ok after ∧
      ((next.region.size = client.allocator.region.size ∧
          view'.Matches view ∧
          after.heapSize = before.heapSize ∧
          after.freeBytes = before.freeBytes) ∨
        ∃ growth, ∃ middle : HeapView,
          ∃ front previous merged,
          0 < growth ∧
          next.region.size =
            client.allocator.region.size + growth ∧
          (view.appended client.allocator.region.size
            growth).Absorbs middle front previous
              (.ofTag client.allocator.region.size
                { size := growth, allocated := false })
              none [] merged ∧
          view'.Matches middle ∧
          after.heapSize = before.heapSize + growth ∧
          after.freeBytes = before.freeBytes + growth) := by
  have hExtensions := h.sound.counted.extensions_le
  have hAllocations := h.sound.counted.allocations_le
  have hFrees := h.sound.counted.frees_le
  have hRest := h.sound.rest_of_describes hTable hView
  rcases hRest.allocate_served hOutcome (by omega) (by omega)
    with
    ⟨adjusted, ready, middle, front, block, back, hAdjusted,
      rfl, hServed⟩
  rcases hServed.free_next (by omega) with
    ⟨freed, view', hFree, hFreed, hSize, hMatches⟩
  have hNext := hServed.size_eq
  -- Free bytes are all that is not allocated.
  have hBytes := hRest.stands.size_eq
  have hReady := hServed.ready_rest.stands.size_eq
  rw [hServed.allocated_eq] at hReady
  have hFreeBytes := hMatches.freeBytes_eq
  refine ⟨freed, view', _, _, hFree, hFreed.table_eq,
    hFreed.describes, hRest.statistics_eq,
    hFreed.statistics_eq, ?_⟩
  dsimp only
  rcases hServed.made_ready.size_cases with hSame | hGrown
  · left
    rcases hSame with ⟨hSame, rfl⟩
    exact ⟨hNext.trans hSame, hMatches, hSize.trans hSame,
      hFreeBytes⟩
  · right
    rcases hGrown with
      ⟨growth, front, previous, merged, hPositive, hMore,
        hAbsorbs⟩
    refine ⟨growth, middle, front, previous, merged, hPositive,
      hNext.trans hMore, hAbsorbs, hMatches,
      hSize.trans hMore, ?_⟩
    change ready.region.memory.size =
      client.allocator.region.memory.size + growth at hMore
    omega

/- The sample is whole again after its block was freed. -/
theorem free_undoes_allocate_wide :
    ∃ freed, ∃ view view' : HeapView,
      (wide.allocator.allocate 8).outcome =
        .ok (some { offset := 192 }, wideSplit.allocator) ∧
      (wideSplit.allocator.free
        (some { offset := 192 })).outcome = .ok freed ∧
      view.Describes { offset := 0 } wide.allocator.memory ∧
      view'.Describes { offset := 0 } freed.memory ∧
      view'.Matches view := by
  rcases wide_eq with
    ⟨⟨hTable, _, hSize, _⟩, _, _, hSplit, _⟩
  rcases wide_history with ⟨⟨events, hHistory⟩, _⟩
  rcases hHistory.sound.backed _ hTable with ⟨view, hRest, _⟩
  rcases free_undoes_allocate hHistory hTable hRest.describes
      wide_few.1 wide_allocate with
    ⟨freed, view', _, _, hFree, _, hView', _, _, hCases⟩
  refine ⟨freed, view, view', wide_allocate, hFree,
    hRest.describes, hView', ?_⟩
  rcases hCases with hSame | hGrown
  · exact hSame.2.1
  · rcases hGrown with ⟨growth, _, _, _, _, hPositive, hMore, _⟩
    rw [hSize, hSplit] at hMore
    omega

end History

end Client

end SegregatedFit
