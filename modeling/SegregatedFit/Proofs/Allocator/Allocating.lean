import SegregatedFit.Proofs.Allocator.Accounting
import SegregatedFit.Proofs.Allocator.Growth
import SegregatedFit.Proofs.Allocator.Sizes

/-
  What allocation does to an allocator at rest.

  A request has no block, is refused by the region, or is
  served from a block that is free or that the heap grows by.

  Key definitions include:
    * `Allocator.splitEvents`

  Key theorems include:
    * `Allocator.accounts_handedOut`
    * `Allocator.AtRest.handOut_between`
    * `Allocator.AtRest.handOut_ok`
    * `Allocator.AtRest.allocate_cases`
    * `Allocator.AtRest.allocate_new`
-/

namespace SegregatedFit

namespace Allocator

/- What is reported of a block that is left over. -/
def splitEvents
    (bp adjusted : Nat) :
    Option Nat → List Event
| some rest => [.split bp adjusted rest]
| none => []

/- A block that is left over is only remarked on. -/
theorem isRemark_of_mem_splitEvents
    {bp adjusted : Nat}
    {rest : Option Nat}
    {event : Event}
    (h : event ∈ splitEvents bp adjusted rest) :
    event.IsRemark := by
  cases rest with
  | none => exact absurd h List.not_mem_nil
  | some rest =>
      rcases List.mem_singleton.1 h with rfl
      trivial

/- What is reported of a block handed out accounts for it. -/
theorem accounts_handedOut
    {a : Allocator}
    {region : Region}
    {table : SentinelTable}
    {view next : HeapView}
    {bp adjusted : Nat}
    (size : Nat)
    (rest : Option Nat)
    (hSize : region.memory.size = a.region.memory.size)
    (hOut : view.HandsOut next bp adjusted)
    (hStands : next.Stands table region.memory) :
    a.Accounts
      { a with region := region, allocations := a.allocations + 1 }
      (splitEvents bp adjusted rest ++
        [.allocated size adjusted bp])
      view.allocatedOffsets next.allocatedOffsets := by
  have hSplit : a.Accounts a (splitEvents bp adjusted rest)
      view.allocatedOffsets view.allocatedOffsets :=
    accounts_remarks _ rfl ⟨rfl, rfl, rfl⟩
      (fun _ hEvent => isRemark_of_mem_splitEvents hEvent)
  exact hSplit.trans (accounts_allocated hSize
    (hOut.not_mem hStands) hOut.perm_offsets)

namespace AtRest

variable {a : Allocator}
variable {table : SentinelTable}
variable {view : HeapView}

/- An allocator at rest may become another one. -/
theorem of_becomes
    {next : Allocator}
    {view' : HeapView}
    {kept : List ChainBlock}
    (h : a.AtRest table view)
    (hTable : next.table = a.table)
    (hBecomes : a.region.Becomes next.region table view' kept) :
    next.AtRest table view' where
  table_eq := hTable.trans h.table_eq
  placed := hBecomes.placed
  stands := hBecomes.stands

------------------------------------------------------------
-- Handing out
------------------------------------------------------------

/-
  A free block that is large enough is handed out between the
  blocks on both sides of it.
-/
theorem handOut_between
    {front back : List ChainBlock}
    {block : ChainBlock}
    {adjusted : Nat}
    (h : a.AtRest table view)
    (size : Nat)
    (hBlocks : view.blocks = front ++ block :: back)
    (hFree : block.header.allocated = false)
    (hRoom : minimumBlock ≤ adjusted)
    (hMod : adjusted % doubleWord = 0)
    (hFits : adjusted ≤ block.header.size)
    (hFew : a.allocations + 1 < Word.limit) :
    ∃ n,
      a.handOut table size adjusted block.offset = {
        events :=
          splitEvents block.offset adjusted
            ((block.leftOver adjusted).map
              (fun rest => rest.header.size)) ++
          [.allocated size adjusted block.offset],
        outcome := .ok { a.withMemory n with
          allocations := a.allocations + 1 } } ∧
      n.size = a.region.memory.size ∧
      a.region.Becomes { a.region with memory := n } table
        (HeapView.carve front block back view.lists adjusted)
        view.allocatedBlocks := by
  have hHeap := h.stands.heap
  rw [hBlocks] at hHeap
  rcases hHeap.place hFree hRoom hMod hFits with
    ⟨n, hPlace, hSize, hCarved, hKeeps⟩
  have hCoalesced := h.stands.coalesced
  rw [hBlocks] at hCoalesced
  refine ⟨n, ?_, hSize, ?_⟩
  · have hPlace' : table.place a.memory block.offset adjusted =
        .ok (n, (block.leftOver adjusted).map
          (fun rest => rest.header.size)) :=
      hPlace
    unfold handOut
    rw [Traced.lift_bind_of_ok _ hPlace']
    cases (block.leftOver adjusted).map
        (fun rest => rest.header.size) with
    | none =>
        dsimp only
        rw [Traced.lift_bind_of_ok _ (Word.add_of_lt hFew),
          Traced.report_bind]
        rfl
    | some rest =>
        dsimp only
        rw [Traced.report_bind,
          Traced.lift_bind_of_ok _ (Word.add_of_lt hFew),
          Traced.report_bind]
        rfl
  · refine ⟨h.placed.withMemory hSize,
      ⟨hCarved, HeapView.noFreeNeighbours_carve hCoalesced
        hFree⟩, rfl, Nat.le_of_eq hSize.symm, ?_⟩
    apply hKeeps.mono
    intro other hOther hAllocated
    have hMem := (HeapView.mem_allocatedBlocks_iff.1 hOther).1
    rw [hBlocks] at hMem
    rcases List.mem_append.1 hMem with hFront | hBack
    · exact List.mem_append_left _ hFront
    · rcases List.mem_cons.1 hBack with hEq | hBack
      · rw [hEq, hFree] at hAllocated
        cases hAllocated
      · exact List.mem_append_right _ hBack

/- A free block that is large enough is handed out. -/
theorem handOut_ok
    {block : ChainBlock}
    {adjusted : Nat}
    (h : a.AtRest table view)
    (size : Nat)
    (hBlock : block ∈ view.blocks)
    (hFree : block.header.allocated = false)
    (hRoom : minimumBlock ≤ adjusted)
    (hMod : adjusted % doubleWord = 0)
    (hFits : adjusted ≤ block.header.size)
    (hFew : a.allocations + 1 < Word.limit) :
    ∃ region next,
      a.handOut table size adjusted block.offset = {
        events :=
          splitEvents block.offset adjusted
            ((block.leftOver adjusted).map
              (fun rest => rest.header.size)) ++
          [.allocated size adjusted block.offset],
        outcome := .ok { a with
          region := region,
          allocations := a.allocations + 1 } } ∧
      a.region.SameButBytes region ∧
      view.HandsOut next block.offset adjusted ∧
      a.region.Becomes region table next
        view.allocatedBlocks := by
  rcases List.append_of_mem hBlock with ⟨front, back, hBlocks⟩
  rcases h.handOut_between size hBlocks hFree hRoom hMod hFits
      hFew with
    ⟨n, hHandOut, hSize, hBecomes⟩
  exact ⟨{ a.region with memory := n },
    HeapView.carve front block back view.lists adjusted,
    hHandOut, ⟨⟨n, rfl⟩, hSize⟩,
    ⟨front, block, back, hBlocks, hFree, rfl, hFits, rfl⟩,
    hBecomes⟩

------------------------------------------------------------
-- Allocating
------------------------------------------------------------

/- A request that comes too close to the limit has no block. -/
theorem allocate_tooLarge
    {size : Nat}
    (h : a.AtRest table view)
    (hLarge : ¬ Request.rounded size + 2 * doubleWord <
      Word.limit) :
    a.allocate size = pure (none, a) := by
  unfold allocate
  by_cases hZero : size = 0
  · rw [if_pos hZero]
  · rw [if_neg hZero, h.table_eq]
    dsimp only
    rw [Traced.lift_bind_of_ok _ (Request.blockSize?_eq _),
      if_neg hLarge]

/- Other requests look for a free block and hand it out. -/
theorem allocate_eq
    {size : Nat}
    (h : a.AtRest table view)
    (hSize : size ≠ 0)
    (hWord : Request.rounded size + 2 * doubleWord <
      Word.limit) :
    a.allocate size = do
      match ← a.freeBlockFor table
          (Request.sizeFor (Request.rounded size)) with
      | (.error error, a) => do
          Traced.report
            (.allocationFailed (Request.rounded size) error)
          return (none, a)
      | (.ok bp, a) => do
          let a ← a.handOut table (Request.rounded size)
            (Request.sizeFor (Request.rounded size)) bp
          return (some { offset := bp }, a) := by
  have hBlockSize :
      Request.blockSize? (Request.rounded size) =
        .ok (some (Request.sizeFor (Request.rounded size))) := by
    rw [Request.blockSize?_eq, if_pos hWord]
  unfold allocate
  rw [if_neg hSize, h.table_eq]
  exact Traced.lift_bind_of_ok _ hBlockSize

/-
  If a free block fits, the first one is handed out and the
  region is not asked for anything.
-/
theorem allocate_fit
    {size adjusted bp : Nat}
    (h : a.AtRest table view)
    (hSize : size ≠ 0)
    (hWord : Request.rounded size + 2 * doubleWord <
      Word.limit)
    (hAdjusted :
      Request.sizeFor (Request.rounded size) = adjusted)
    (hFound : view.firstFit adjusted = some bp)
    (hFew : a.allocations + 1 < Word.limit) :
    ∃ rest region next,
      a.allocate size = {
        events :=
          splitEvents bp adjusted rest ++
            [.allocated (Request.rounded size) adjusted bp],
        outcome := .ok (some { offset := bp },
          { a with
            region := region,
            allocations := a.allocations + 1 }) } ∧
      a.region.SameButBytes region ∧
      view.HandsOut next bp adjusted ∧
      a.region.Becomes region table next
        view.allocatedBlocks := by
  have hRoom := Request.minimumBlock_le_sizeFor
    (Request.rounded size)
  have hMod := Request.sizeFor_mod (Request.rounded size)
  rw [hAdjusted] at hRoom hMod
  rcases h.stands.mem_of_firstFit hFound with
    ⟨block, hBlock, hFree, rfl, hFits⟩
  rcases h.handOut_ok (Request.rounded size) hBlock hFree
      hRoom hMod hFits hFew with
    ⟨region, next, hHandOut, hSame, hOut, hBecomes⟩
  refine ⟨(block.leftOver adjusted).map
    (fun rest => rest.header.size), region, next, ?_, hSame,
    hOut, hBecomes⟩
  rw [h.allocate_eq hSize hWord, hAdjusted, h.freeBlockFor_eq,
    hFound]
  dsimp only
  rw [pure_bind]
  dsimp only
  rw [Traced.bind_of_eq _ hHandOut]
  change Traced.mk (_ ++ []) _ = _
  rw [List.append_nil]
  rfl

/-
  If no free block fits, the heap grows by a block that does,
  or the request is turned down and all bytes are kept.
-/
theorem allocate_grow
    {size adjusted growth bp : Nat}
    (h : a.AtRest table view)
    (hSize : size ≠ 0)
    (hWord : Request.rounded size + 2 * doubleWord <
      Word.limit)
    (hAdjusted :
      Request.sizeFor (Request.rounded size) = adjusted)
    (hGrowth : max adjusted a.config.chunkSize = growth)
    (hNone : view.firstFit adjusted = none)
    (hGrown : (view.grownBlock a.region.memory.size
      growth).offset = bp)
    (hExtensions : a.extensions + 1 < Word.limit)
    (hAllocations : a.allocations + 1 < Word.limit) :
    (∃ error region,
      a.allocate size = {
        events :=
          [.allocationFailed (Request.rounded size) error],
        outcome := .ok (none, { a with region := region }) } ∧
      a.region.Undisturbed region ∧
      a.region.grow growth = (.error error, region)) ∨
    ∃ granted rest region next,
      a.region.grow growth =
        (.ok a.region.memory.size, granted) ∧
      granted.SameButBytes region ∧
      a.allocate size = {
        events :=
          .extended growth region.memory.size ::
            (splitEvents bp adjusted rest ++
              [.allocated (Request.rounded size) adjusted bp]),
        outcome := .ok (some { offset := bp },
          { a with
            region := region,
            extensions := a.extensions + 1,
            allocations := a.allocations + 1 }) } ∧
      region.memory.size = a.region.memory.size + growth ∧
      (view.grown a.region.memory.size growth).HandsOut next
        bp adjusted ∧
      a.region.Becomes region table next
        view.allocatedBlocks := by
  have hRoom := Request.minimumBlock_le_sizeFor
    (Request.rounded size)
  have hMod := Request.sizeFor_mod (Request.rounded size)
  rw [hAdjusted] at hRoom hMod
  have hLe : adjusted ≤ growth := by
    rw [← hGrowth]
    exact Nat.le_max_left _ _
  have hGrowthMod : growth % doubleWord = 0 := by
    rw [← hGrowth]
    exact Config.max_mod_of_validate a.config_valid hMod
  have hGrowthWord : growth < Word.limit := by
    have hSizeFor := Request.sizeFor_lt hWord
    rw [hAdjusted] at hSizeFor
    rw [← hGrowth]
    exact a.config.max_lt hSizeFor
  rw [h.allocate_eq hSize hWord, hAdjusted, h.freeBlockFor_eq,
    hNone, hGrowth]
  dsimp only
  rcases h.extend_cases (Nat.le_trans hRoom hLe) hGrowthMod
      hGrowthWord hExtensions with hBad | hGood
  · left
    rcases hBad with ⟨error, region, hExtend, hKept, hRefused⟩
    refine ⟨error, region, ?_, hKept, hRefused⟩
    rw [Traced.bind_of_eq _ hExtend]
    rfl
  · right
    rcases hGood with
      ⟨granted, region, hGrow, hGranted, hExtend, hMore,
        hBecomes⟩
    let grown : Allocator :=
      { a with
        region := region,
        extensions := a.extensions + 1 }
    have hRest : grown.AtRest table
        (view.grown a.region.memory.size growth) :=
      h.of_becomes rfl hBecomes
    have hFits := Nat.le_trans hLe
      (view.le_size_grownBlock a.region.memory.size growth)
    rcases hRest.handOut_ok (Request.rounded size)
        (view.mem_grown _ _) rfl hRoom hMod hFits
        hAllocations with
      ⟨region', next, hHandOut, hSame, hOut, hBecomes'⟩
    rw [hGrown] at hExtend hHandOut hOut
    generalize
      ((view.grownBlock a.region.memory.size growth).leftOver
        adjusted).map (fun rest => rest.header.size) = rest
      at hHandOut
    have hSize := hSame.size_eq
    change region'.memory.size = region.memory.size at hSize
    refine ⟨granted, rest, region', next, hGrow,
      hGranted.trans hSame, ?_, hSize.trans hMore, hOut, ?_⟩
    · rw [Traced.bind_of_eq _ hExtend]
      dsimp only
      rw [Traced.bind_of_eq _ hHandOut, hSize]
      change Traced.mk ([_] ++ (_ ++ [])) _ = _
      rw [List.append_nil]
      rfl
    · rw [HeapView.allocatedBlocks_grown] at hBecomes'
      have hFirst : a.region.Becomes region table
          (view.grown a.region.memory.size growth)
          view.allocatedBlocks :=
        hBecomes.mono (fun other hOther _ =>
          (HeapView.mem_allocatedBlocks_iff.1 hOther).1)
      exact hFirst.trans hBecomes' (fun _ hMem _ => hMem)

/-
  An allocation gives no address and keeps all bytes, or it
  adds one allocated block to the heap.
-/
theorem allocate_cases
    (h : a.AtRest table view)
    (size : Nat)
    (hExtensions : a.extensions + 1 < Word.limit)
    (hAllocations : a.allocations + 1 < Word.limit) :
    (∃ region,
      (a.allocate size).outcome =
        .ok (none, { a with region := region }) ∧
      a.region.Undisturbed region ∧
      ∀ event ∈ (a.allocate size).events, event.IsRemark) ∨
    ∃ region, ∃ middle next : HeapView, ∃ bp grew : Nat,
      (a.allocate size).outcome =
        .ok (some { offset := bp },
          { a with
            region := region,
            extensions := a.extensions + grew,
            allocations := a.allocations + 1 }) ∧
      grew ≤ 1 ∧
      middle.allocatedBlocks = view.allocatedBlocks ∧
      middle.HandsOut next bp
        (Request.sizeFor (Request.rounded size)) ∧
      a.region.Becomes region table next
        view.allocatedBlocks ∧
      a.Accounts
        { a with
          region := region,
          extensions := a.extensions + grew,
          allocations := a.allocations + 1 }
        (a.allocate size).events
        view.allocatedOffsets next.allocatedOffsets := by
  have hSame : a.region.Undisturbed a.region :=
    ⟨rfl, rfl, h.placed⟩
  by_cases hZero : size = 0
  · left
    subst hZero
    exact ⟨a.region, rfl, hSame,
      fun _ hEvent => absurd hEvent List.not_mem_nil⟩
  by_cases hWord : Request.rounded size + 2 * doubleWord <
      Word.limit
  · cases hFound : view.firstFit
        (Request.sizeFor (Request.rounded size)) with
    | some bp =>
        right
        rcases h.allocate_fit hZero hWord rfl hFound
            hAllocations with
          ⟨rest, region, next, hEq, hSame, hOut, hBecomes⟩
        refine ⟨region, view, next, bp, 0,
          congrArg Traced.outcome hEq, Nat.zero_le 1, rfl, hOut,
          hBecomes, ?_⟩
        rw [hEq]
        exact accounts_handedOut _ rest hSame.size_eq hOut
          hBecomes.stands
    | none =>
        rcases h.allocate_grow hZero hWord rfl rfl hFound rfl
            hExtensions hAllocations with hBad | hGood
        · left
          rcases hBad with ⟨error, region, hEq, hKept, _⟩
          refine ⟨region, congrArg Traced.outcome hEq, hKept, ?_⟩
          intro event hEvent
          rw [hEq] at hEvent
          rcases List.mem_singleton.1 hEvent with rfl
          trivial
        · right
          rcases hGood with
            ⟨_, rest, region, next, _, _, hEq, hSize, hOut,
              hBecomes⟩
          refine ⟨region, _, next, _, 1,
            congrArg Traced.outcome hEq, Nat.le_refl 1,
            view.allocatedBlocks_grown _ _, hOut, hBecomes, ?_⟩
          -- First the heap is extended, then a block handed out.
          have hExtended := accounts_extended
            region.memory.size view.allocatedOffsets h.table_eq
            h.stands.heap.firstBlock_le hSize
            (Nat.le_trans
              (Request.minimumBlock_le_sizeFor _)
              (Nat.le_max_left _ _))
          have hServed := accounts_handedOut
            (a := { a with
              region := region, extensions := a.extensions + 1 })
            (Request.rounded size) rest rfl hOut hBecomes.stands
          rw [hEq]
          rw [HeapView.allocatedOffsets_eq,
            HeapView.allocatedBlocks_grown] at hServed
          exact hExtended.trans hServed
  · left
    refine ⟨a.region, congrArg Traced.outcome
      (h.allocate_tooLarge hWord), hSame, ?_⟩
    rw [h.allocate_tooLarge hWord]
    exact fun _ hEvent => absurd hEvent List.not_mem_nil

/-
  An address that is given belongs to a new block with room
  for the request, beside all blocks of before.
-/
theorem allocate_new
    (h : a.AtRest table view)
    (size : Nat)
    (hExtensions : a.extensions + 1 < Word.limit)
    (hAllocations : a.allocations + 1 < Word.limit) :
    (∃ region,
      (a.allocate size).outcome =
        .ok (none, { a with region := region }) ∧
      a.region.Undisturbed region ∧
      ∀ event ∈ (a.allocate size).events, event.IsRemark) ∨
    ∃ region, ∃ next : HeapView, ∃ new : ChainBlock,
      ∃ grew : Nat,
      (a.allocate size).outcome =
        .ok (some { offset := new.offset },
          { a with
            region := region,
            extensions := a.extensions + grew,
            allocations := a.allocations + 1 }) ∧
      grew ≤ 1 ∧
      size + doubleWord ≤ new.header.size ∧
      new.offset ∉ view.allocatedOffsets ∧
      next.allocatedBlocks.Perm (new :: view.allocatedBlocks) ∧
      a.region.Becomes region table next
        view.allocatedBlocks ∧
      a.Accounts
        { a with
          region := region,
          extensions := a.extensions + grew,
          allocations := a.allocations + 1 }
        (a.allocate size).events
        view.allocatedOffsets next.allocatedOffsets := by
  rcases h.allocate_cases size hExtensions hAllocations with
    hBad | hGood
  · exact Or.inl hBad
  right
  rcases hGood with
    ⟨region, middle, next, bp, grew, hAllocate, hGrew, hMiddle,
      hOut, hBecomes, hAccounts⟩
  rcases hOut.exists_block with ⟨new, hNew, hFits, hPerm⟩
  have hFresh := hOut.not_mem hBecomes.stands
  have hRoom := Request.le_sizeFor_rounded size
  subst hNew
  rw [hMiddle] at hPerm
  rw [HeapView.allocatedOffsets_eq, hMiddle,
    ← HeapView.allocatedOffsets_eq] at hFresh
  exact ⟨region, next, new, grew, hAllocate, hGrew,
    Nat.le_trans hRoom hFits, hFresh, hPerm, hBecomes,
    hAccounts⟩

end AtRest

end Allocator

end SegregatedFit
