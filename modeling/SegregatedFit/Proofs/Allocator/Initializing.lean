import SegregatedFit.Proofs.Allocator.Growth

/-
  How the heap of an allocator comes about.

  Each of the three growths may be refused.  After the first
  two the heap is laid out, without blocks, and after the
  third it has one.

  Key definitions include:
    * `HeapView.empty`
    * `Allocator.heapStart`
    * `Allocator.layoutGrowths`

  Key theorems include:
    * `Allocator.AtRest.firstChunk_cases`
    * `Allocator.init_cases`
-/

namespace SegregatedFit

/- The view of a heap without blocks. -/
def HeapView.empty : HeapView where
  blocks := []
  lists := fun _ => []

namespace Allocator

variable {a : Allocator}

/-
  Where the heap begins, or would begin if it were laid out
  now.
-/
def heapStart
    (a : Allocator) : Nat :=
  match a.table with
  | some table => table.offset
  | none => a.region.size

/- A heap begins with its table. -/
theorem heapStart_of_some
    {table : SentinelTable}
    (h : a.table = some table) :
    a.heapStart = table.offset := by
  unfold heapStart
  rw [h]

/- Without a heap it would begin where the region ends. -/
theorem heapStart_of_none
    (h : a.table = none) :
    a.heapStart = a.region.size := by
  unfold heapStart
  rw [h]

/- The table of a heap is cleared where the region has grown. -/
theorem clear_grown
    {r next : Region}
    (hGrown : r.Grown next SentinelTable.size) :
    ∃ m, SentinelTable.clear { offset := r.memory.size }
          next.memory = .ok m ∧
      m.size = r.memory.size + SentinelTable.size ∧
      next.SameButBytes { next with memory := m } ∧
      ∀ c, c < SizeClass.count →
        m.Ring (SentinelTable.sentinel
          { offset := r.memory.size } c) [] := by
  have hWord := hGrown.placed.size_lt
  have hSize : next.memory.size =
      r.memory.size + SentinelTable.size := by
    rw [hGrown.memory_eq, Memory.size_extend]
  rcases SentinelTable.clear_ok { offset := r.memory.size }
      (Nat.le_of_eq hSize.symm) (by dsimp only; omega) with
    ⟨m, hClear, hClearSize, hRings, _⟩
  exact ⟨m, hClear, hClearSize.trans hSize,
    ⟨⟨m, rfl⟩, hClearSize⟩, hRings⟩

/- The frame is written where the region has grown once more. -/
theorem frame_grown
    {r next : Region}
    (table : SentinelTable)
    (hGrown : r.Grown next SentinelTable.frameSize)
    (hSize : r.memory.size =
      table.offset + SentinelTable.size)
    (hRings : ∀ c, c < SizeClass.count →
      r.memory.Ring (table.sentinel c) []) :
    ∃ m, writeFrame table next.memory = .ok m ∧
      m.size = table.firstBlock ∧
      next.SameButBytes { next with memory := m } ∧
      HeapView.empty.Stands table m := by
  have hWord := hGrown.placed.size_lt
  have hNextSize : next.memory.size = table.firstBlock := by
    rw [hGrown.memory_eq, Memory.size_extend, hSize]
    rfl
  have hOld : ∀ c, c < SizeClass.count →
      next.memory.Ring (table.sentinel c) [] := by
    intro c hc
    apply (hRings c hc).of_agrees
    · rw [hGrown.memory_eq, Memory.size_extend]
      exact Nat.le_add_right _ _
    · intro x _ i _ _
      rw [hGrown.memory_eq, Memory.byte_extend]
  rcases OpenHeap.of_frame hOld hNextSize (by omega) with
    ⟨m, hFrame, hFrameSize, hHeap⟩
  exact ⟨m, hFrame, hFrameSize.trans hNextSize,
    ⟨⟨m, rfl⟩, hFrameSize⟩, ⟨hHeap, trivial⟩⟩

/-
  A heap without blocks is refused its first chunk, or the
  chunk becomes its one block.
-/
theorem AtRest.firstChunk_cases
    {table : SentinelTable}
    (h : a.AtRest table HeapView.empty)
    (hEnd : a.region.memory.size = table.firstBlock)
    (hFew : a.extensions + 1 < Word.limit) :
    (∃ error region,
      a.region.firstRefusal [a.config.chunkSize] =
        some (0, error) ∧
      a.extend table (a.config.chunkSize / wordSize) =
        pure (.error error, { a with region := region }) ∧
      a.region.Undisturbed region) ∨
    ∃ bp region,
      a.region.firstRefusal [a.config.chunkSize] = none ∧
      a.extend table (a.config.chunkSize / wordSize) = {
        events :=
          [.extended a.config.chunkSize region.memory.size],
        outcome := .ok (.ok bp, { a with
          region := region,
          extensions := a.extensions + 1 }) } ∧
      region.WellPlaced ∧
      region.base = a.region.base ∧
      region.memory.size =
        table.firstBlock + a.config.chunkSize ∧
      (HeapView.empty.grown table.firstBlock
        a.config.chunkSize).Stands table region.memory := by
  have hChunk := Config.validate_eq_ok_iff.1 a.config_valid
  rcases h.placed.grow_cases a.config.chunkSize with
    hBad | hGood
  · left
    rcases hBad with ⟨error, region, hGrow, hSame⟩
    have hBytes :=
      evenBytes_of_lt hChunk.2.1 a.config.chunkSize_lt
    refine ⟨error, region,
      Region.firstRefusal_refused hGrow [], ?_, hSame⟩
    unfold extend
    rw [Traced.lift_bind_of_ok _ hBytes, hGrow]
  · right
    rcases hGood with ⟨grown, hGrow, hMore⟩
    rcases h.extend_granted hChunk.1 hChunk.2.1 hFew hGrow
        hMore with
      ⟨n, hExtend, hSize, hStands, _⟩
    rw [hEnd] at hSize
    refine ⟨_, { grown with memory := n }, ?_, hExtend,
      hMore.placed.withMemory ?_, hMore.base_eq, hSize, ?_⟩
    · rw [Region.firstRefusal_granted hGrow]
      rfl
    · rw [hSize, hMore.memory_eq, Memory.size_extend, hEnd]
    · rw [← hEnd]
      exact hStands

/- A heap is laid out only once. -/
theorem init_again
    {table : SentinelTable}
    (h : a.table = some table) :
    a.init = pure (.error .alreadyInitialized, a) := by
  unfold init
  rw [h]

/- The growths that lay out a heap, in their order. -/
def layoutGrowths
    (a : Allocator) : List Nat :=
  [SentinelTable.size, SentinelTable.frameSize,
    a.config.chunkSize]

/-
  The first growth that is refused decides.

  Without the table or the frame the heap is not laid out,
  and the region has grown by whole double words, if at all.
  Without the first chunk it is laid out and has no block.
  Otherwise the chunk is its one block.  The table stands
  where the region ended before.
-/
theorem init_cases
    (hTable : a.table = none)
    (hPlaced : a.region.WellPlaced)
    (hFew : a.extensions + 1 < Word.limit) :
    (∃ index error region,
      a.region.firstRefusal a.layoutGrowths =
        some (index, error) ∧
      index < 2 ∧
      a.init = pure (.error error, { a with region := region }) ∧
      region.WellPlaced ∧
      region.base = a.region.base ∧
      region.memory.size % doubleWord =
        a.region.memory.size % doubleWord) ∨
    (∃ error region,
      a.region.firstRefusal a.layoutGrowths =
        some (2, error) ∧
      a.init = pure (.error error, { a with
        region := region,
        table := some { offset := a.region.memory.size } }) ∧
      region.WellPlaced ∧
      region.base = a.region.base ∧
      HeapView.empty.Stands { offset := a.region.memory.size }
        region.memory) ∨
    ∃ region, ∃ table : SentinelTable,
      table = { offset := a.region.memory.size } ∧
      a.region.firstRefusal a.layoutGrowths = none ∧
      a.init = {
        events := [
          .extended a.config.chunkSize region.memory.size,
          .initialized region.memory.size a.config.chunkSize],
        outcome := .ok (.ok (), { a with
          region := region,
          table := some table,
          extensions := a.extensions + 1 }) } ∧
      region.WellPlaced ∧
      region.base = a.region.base ∧
      region.memory.size =
        table.firstBlock + a.config.chunkSize ∧
      (HeapView.empty.grown table.firstBlock
        a.config.chunkSize).Stands table region.memory := by
  rcases a with
    ⟨r, config, hValid, table, extensions, allocations, frees⟩
  dsimp only at hTable hPlaced hFew
  subst hTable
  unfold init layoutGrowths
  dsimp only
  rcases hPlaced.grow_cases SentinelTable.size with hBad | hGood
  · left
    rcases hBad with ⟨error, region, hGrow, hSame⟩
    refine ⟨0, error, region,
      Region.firstRefusal_refused hGrow _, by omega, ?_,
      hSame.placed, hSame.base_eq, ?_⟩
    · rw [hGrow]
    · rw [hSame.memory_eq]
  rcases hGood with ⟨first, hGrow, hFirst⟩
  rcases clear_grown hFirst with
    ⟨m, hClear, hClearSize, hSameFirst, hRings⟩
  -- What is written does not decide which growth is refused.
  rw [Region.firstRefusal_granted hGrow,
    ← hSameFirst.firstRefusal_eq, hGrow]
  dsimp only
  rw [Traced.lift_bind_of_ok _ hClear]
  have hCleared := hFirst.placed.withMemory hSameFirst.size_eq
  rcases hCleared.grow_cases SentinelTable.frameSize with
    hBad | hGood
  · left
    rcases hBad with ⟨error, region, hGrow', hSame⟩
    refine ⟨1, error, region, ?_, by omega, ?_, hSame.placed,
      hSame.base_eq.trans hFirst.base_eq, ?_⟩
    · rw [Region.firstRefusal_refused hGrow']
      rfl
    · rw [hGrow']
    · rw [hSame.memory_eq, hClearSize]
      exact Nat.add_mul_mod_self_right _ 10 doubleWord
  rcases hGood with ⟨second, hGrow', hSecond⟩
  rcases frame_grown { offset := r.memory.size } hSecond
      hClearSize hRings with
    ⟨framed, hFrame, hFrameSize, hSameSecond, hEmpty⟩
  rw [Region.firstRefusal_granted hGrow',
    ← hSameSecond.firstRefusal_eq, hGrow']
  dsimp only
  rw [Traced.lift_bind_of_ok _ hFrame]
  have hFramed :=
    hSecond.placed.withMemory hSameSecond.size_eq
  have hBase : second.base = r.base :=
    hSecond.base_eq.trans hFirst.base_eq
  let laidOut : Allocator := {
    region := { second with memory := framed },
    config := config,
    config_valid := hValid,
    table := some { offset := r.memory.size },
    extensions := extensions,
    allocations := allocations,
    frees := frees }
  have hRest : laidOut.AtRest { offset := r.memory.size }
      HeapView.empty :=
    ⟨rfl, hFramed, hEmpty⟩
  right
  rcases hRest.firstChunk_cases hFrameSize hFew with
    hBad | hGood
  · left
    rcases hBad with ⟨error, region, hRefused, hExtend, hSame⟩
    have hLast : Region.firstRefusal
        { second with memory := framed } [config.chunkSize] =
          some (0, error) :=
      hRefused
    refine ⟨error, region, ?_, ?_, hSame.placed,
      hSame.base_eq.trans hBase, ?_⟩
    · rw [hLast]
      rfl
    · rw [hExtend]
      rfl
    · rw [hSame.memory_eq]
      exact hEmpty
  · right
    rcases hGood with
      ⟨bp, region, hGranted, hExtend, hRegion, hSameBase, hSize,
        hStands⟩
    have hLast : Region.firstRefusal
        { second with memory := framed } [config.chunkSize] =
          none :=
      hGranted
    refine ⟨region, _, rfl, ?_, ?_, hRegion,
      hSameBase.trans hBase, hSize, hStands⟩
    · rw [hLast]
      rfl
    · rw [Traced.bind_of_eq _ hExtend]
      rfl

end Allocator

end SegregatedFit
