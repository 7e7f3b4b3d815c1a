import SegregatedFit.Proofs.Allocator.Freeing
import SegregatedFit.Proofs.Client.Runs
import SegregatedFit.Proofs.Consistency.Room

/-
  What an accepted heap may be used for.

  The bytes of a heap on which the consistency check tells no
  violation have a view, however they came about.  If there
  is room in the blocks in use as well, which the check does
  not look at, the heap is at rest: it is accepted again
  after any request and after any block is freed.  Without
  that room a block can be freed, but the heap that is left
  is not accepted.

  Key definitions include:
    * `Allocator.Accepted`
    * `Allocator.inUse`
    * `Allocator.Passes`

  Key theorems include:
    * `Allocator.accepted_iff`
    * `Allocator.passes_iff`
    * `Allocator.passes_closed`
    * `Allocator.not_accepted_of_free`
-/

namespace SegregatedFit

------------------------------------------------------------
-- Accepted Heaps
------------------------------------------------------------

namespace Allocator

variable {a : Allocator}
variable {table : SentinelTable}
variable {view : HeapView}
variable {block : ChainBlock}

/- The consistency check ends and tells no violation. -/
def Accepted
    (a : Allocator) : Prop :=
  ∃ report,
    (a.checkConsistency false).outcome = .ok report ∧
      report.violations = []

/- Acceptance is found out by a check. -/
instance (a : Allocator) :
    Decidable a.Accepted :=
  match h : (a.checkConsistency false).outcome with
  | .error _ =>
      isFalse (by
        rintro ⟨report, hReport, _⟩
        rw [h] at hReport
        cases hReport)
  | .ok report =>
      if hNone : report.violations = [] then
        isTrue ⟨report, h, hNone⟩
      else
        isFalse (by
          rintro ⟨told, hTold, hClean⟩
          rw [h] at hTold
          cases hTold
          exact hNone hClean)

/-
  The allocated blocks of a heap but its prologue, as a walk
  along the chain finds them.
-/
def inUse
    (a : Allocator)
    (table : SentinelTable) : List ChainBlock :=
  match a.memory.chain table.prologue with
  | .ok chain =>
      chain.blocks.filter (fun block =>
        block.offset ≠ table.prologue && block.header.allocated)
  | .error _ => []

/-
  A heap in a well placed region, with whatever bytes, passes
  if the check accepts it and no allocated block is smaller
  than the least one, which the check does not look at.
-/
structure Passes
    (a : Allocator)
    (table : SentinelTable) : Prop where
  table_eq : a.table = some table
  placed : a.region.WellPlaced
  laidOut : table.firstBlock ≤ a.memory.size
  accepted : a.Accepted
  roomy :
    ∀ block ∈ a.inUse table, minimumBlock ≤ block.header.size

/- Heaps are accepted if their bytes have an aligned view. -/
theorem accepted_iff
    (hTable : a.table = some table)
    (hRoom : table.firstBlock ≤ a.memory.size)
    (hWord : a.region.base + a.memory.size < Word.limit) :
    a.Accepted ↔
      ∃ view : HeapView,
        view.Describes table a.memory ∧
          view.Aligned table a.region.base := by
  rcases checkConsistency_sound hTable hRoom hWord false
    with ⟨report, hReport, hSound⟩
  constructor
  · rintro ⟨told, hTold, hClean⟩
    rw [hReport] at hTold
    cases hTold
    exact hSound hClean
  · rintro ⟨view, hDescribes, hAligned⟩
    exact ⟨report, hReport, checkConsistency_complete hTable
      hWord hDescribes hAligned hReport⟩

/- The blocks in use are the allocated ones of any view. -/
theorem inUse_eq
    (h : view.Describes table a.memory)
    (hWord : a.region.base + a.memory.size < Word.limit) :
    a.inUse table = view.allocatedBlocks := by
  have hFirst := table.firstBlock_eq
  have hAt := table.prologue_eq
  unfold inUse HeapView.allocatedBlocks
  rw [h.chain_eq (by omega)]
  dsimp only
  rw [List.filter_cons_of_neg
    (by simp [SentinelTable.prologueBlock, ChainBlock.ofTag])]
  apply List.filter_congr
  intro other hOther
  have hBounds := h.bounds hOther
  have hNe : other.offset ≠ table.prologue := by
    omega
  rw [decide_eq_true hNe, Bool.true_and]

/- Likewise for an allocator at rest. -/
theorem AtRest.inUse_eq
    (h : a.AtRest table view) :
    a.inUse table = view.allocatedBlocks :=
  Allocator.inUse_eq h.describes h.placed.size_lt

/-
  The heaps that pass are those at rest whose prologue is
  aligned.
-/
theorem passes_iff :
    a.Passes table ↔
      (∃ view, a.AtRest table view) ∧
        (a.region.base + table.prologue) % doubleWord = 0 := by
  constructor
  · intro h
    have hWord := h.placed.size_lt
    rcases (accepted_iff h.table_eq h.laidOut hWord).1
        h.accepted with
      ⟨view, hDescribes, hAligned⟩
    refine ⟨⟨view, h.table_eq, h.placed, ?_⟩, hAligned.1⟩
    refine HeapView.stands_iff.2 ⟨hDescribes, ?_⟩
    intro block hBlock
    cases hState : block.header.allocated with
    | false => exact hDescribes.roomy_of_free hBlock hState
    | true =>
        apply h.roomy block
        rw [inUse_eq hDescribes hWord]
        exact HeapView.mem_allocatedBlocks_iff.2
          ⟨hBlock, hState⟩
  · rintro ⟨⟨view, hRest⟩, hPrologue⟩
    have hWord := hRest.placed.size_lt
    have hRoom := hRest.stands.heap.firstBlock_le
    rcases HeapView.stands_iff.1 hRest.stands with
      ⟨hDescribes, hRoomy⟩
    refine ⟨hRest.table_eq, hRest.placed, hRoom, ?_, ?_⟩
    · exact (accepted_iff hRest.table_eq hRoom hWord).2
        ⟨view, hDescribes, hDescribes.outlines.aligned hPrologue⟩
    · intro block hBlock
      rw [inUse_eq hDescribes hWord] at hBlock
      exact hRoomy block
        (HeapView.mem_allocatedBlocks_iff.1 hBlock).1

namespace Passes

/- A heap that changes as heaps do passes again. -/
theorem of_becomes
    {next : Allocator}
    {view' : HeapView}
    {kept : List ChainBlock}
    (h : a.Passes table)
    (hTable : next.table = a.table)
    (hBecomes : a.region.Becomes next.region table view' kept) :
    next.Passes table := by
  rcases passes_iff.1 h with ⟨⟨view, hRest⟩, hPrologue⟩
  refine passes_iff.2
    ⟨⟨view', hRest.of_becomes hTable hBecomes⟩, ?_⟩
  rw [hBecomes.base_eq]
  exact hPrologue

/- After any request the heap passes again. -/
theorem allocate
    (h : a.Passes table)
    (size : Nat)
    (hExtensions : a.extensions + 1 < Word.limit)
    (hAllocations : a.allocations + 1 < Word.limit) :
    ∃ address next,
      (a.allocate size).outcome = .ok (address, next) ∧
        next.Passes table := by
  rcases passes_iff.1 h with ⟨⟨view, hRest⟩, hPrologue⟩
  rcases hRest.allocate_cases size hExtensions hAllocations with
    hBad | hGood
  · rcases hBad with ⟨region, hAllocate, hKept, _⟩
    refine ⟨_, _, hAllocate, passes_iff.2
      ⟨⟨view, hRest.of_undisturbed hKept⟩, ?_⟩⟩
    rw [← hKept.base_eq] at hPrologue
    exact hPrologue
  · rcases hGood with
      ⟨region, _, next, _, _, hAllocate, _, _, _, hBecomes, _⟩
    exact ⟨_, _, hAllocate, h.of_becomes rfl hBecomes⟩

/- After any block in use is freed the heap passes again. -/
theorem free
    (h : a.Passes table)
    (hBlock : block ∈ a.inUse table)
    (hFrees : a.frees + 1 < Word.limit) :
    ∃ next,
      (a.free (some { offset := block.offset })).outcome =
        .ok next ∧
      next.Passes table := by
  rcases passes_iff.1 h with ⟨⟨view, hRest⟩, _⟩
  rw [hRest.inUse_eq] at hBlock
  rcases hRest.free_ok hBlock hFrees with
    ⟨region, next, hFree, _, _, hBecomes⟩
  exact ⟨_, congrArg Traced.outcome hFree,
    h.of_becomes rfl hBecomes⟩

end Passes

/-
  A heap that passes is safe to operate on.  Any request ends
  with or without an address, any block in use is freed, and
  each time the heap passes again.
-/
theorem passes_closed
    (h : a.Passes table)
    (hExtensions : a.extensions + 1 < Word.limit)
    (hAllocations : a.allocations + 1 < Word.limit)
    (hFrees : a.frees + 1 < Word.limit) :
    (∀ size, ∃ address next,
      (a.allocate size).outcome = .ok (address, next) ∧
        next.Passes table) ∧
      ∀ block ∈ a.inUse table, ∃ next,
        (a.free (some { offset := block.offset })).outcome =
          .ok next ∧
        next.Passes table :=
  ⟨fun size => h.allocate size hExtensions hAllocations,
    fun _ hBlock => h.free hBlock hFrees⟩

/- The heap of the sample passes, and stays so. -/
theorem passes_closed_sample :
    Client.sample.allocator.Passes { offset := 0 } ∧
      (∃ address next,
        (Client.sample.allocator.allocate 100).outcome =
          .ok (address, next) ∧
        next.Accepted) ∧
      ∃ next,
        (Client.sample.allocator.free
          (some { offset := 192 })).outcome = .ok next ∧
        next.Accepted := by
  rcases Client.sample_history with ⟨events, hHistory⟩
  rcases hHistory.sound.exists_block Client.sample_owns with
    ⟨table, view, block, hRest, _, hBlock, hAddress⟩
  have hTable : table = { offset := 0 } :=
    Option.some.inj
      (hRest.table_eq.symm.trans Client.sample_eq.1)
  subst hTable
  have hPasses : Client.sample.allocator.Passes
      { offset := 0 } := by
    refine passes_iff.2 ⟨⟨view, hRest⟩, ?_⟩
    rw [Nat.add_mod, hRest.placed.1]
    rfl
  have hCounted := hHistory.sound.counted
  rw [Client.sample_eq.2.2] at hCounted
  have hFew : ∀ n, n ≤ 2 → n + 1 < Word.limit :=
    fun _ hn => Nat.lt_of_le_of_lt (Nat.add_le_add_right hn 1)
      (by decide)
  rcases passes_closed hPasses
      (hFew _ hCounted.extensions_le)
      (hFew _ hCounted.allocations_le)
      (hFew _ hCounted.frees_le) with
    ⟨hAllocate, hFree⟩
  refine ⟨hPasses, ?_, ?_⟩
  · rcases hAllocate 100 with ⟨address, next, hEnds, hNext⟩
    exact ⟨address, next, hEnds, hNext.accepted⟩
  · have hInUse : block ∈
        Client.sample.allocator.inUse { offset := 0 } := by
      rw [hRest.inUse_eq]
      exact hBlock
    rcases hFree block hInUse with ⟨next, hEnds, hNext⟩
    rw [show { offset := block.offset } =
      ({ offset := 192 } : Address) from hAddress.symm] at hEnds
    exact ⟨next, hEnds, hNext.accepted⟩

------------------------------------------------------------
-- What the Check Leaves out
------------------------------------------------------------

/-
  The check accepts blocks in use that have room for their
  tags only.  Such a block between allocated ones can be
  freed, but what is left is not accepted: its second link
  stands where the header behind it was.
-/
theorem not_accepted_of_free
    {before behind : Tag}
    (hTable : a.table = some table)
    (hRoom : table.firstBlock ≤ a.memory.size)
    (hWord : a.region.base + a.memory.size < Word.limit)
    (hAccepted : a.Accepted)
    (hBlock : block ∈ a.inUse table)
    (hSmall : block.header.size < minimumBlock)
    (hBefore :
      a.memory.previousFooter block.offset = .ok before)
    (hBehind :
      a.memory.header (block.offset + block.header.size) =
        .ok behind)
    (hNeighbours :
      before.allocated = true ∧ behind.allocated = true)
    (hFrees : a.frees + 1 < Word.limit) :
    ∃ next,
      (a.free (some { offset := block.offset })).outcome =
        .ok next ∧
      ¬ next.Accepted := by
  rcases (accepted_iff hTable hRoom hWord).1 hAccepted with
    ⟨view, hDescribes, _⟩
  rw [inUse_eq hDescribes hWord] at hBlock
  rcases HeapView.mem_allocatedBlocks_iff.1 hBlock with
    ⟨hMem, hAllocated⟩
  have hHeader := (hDescribes.chained.header_eq hMem).1
  have hBounds := hDescribes.bounds hMem
  have hMod := Memory.size_mod_of_header hHeader
  have hSize : block.header.size = doubleWord := by
    simp only [doubleWord, minimumBlock] at hBounds hMod hSmall ⊢
    omega
  rcases hDescribes.coalesce_small (by omega) hMem hAllocated
      hSize hBefore hBehind hNeighbours with
    ⟨half, n, hWrite, hCoalesce, hSame, hFreed, hListed⟩
  refine ⟨{ a.withMemory n with frees := a.frees + 1 }, ?_, ?_⟩
  · unfold free
    dsimp only
    rw [hTable]
    dsimp only
    rw [Traced.lift_bind_of_ok _ hHeader,
      Traced.lift_bind_of_ok _ hWrite,
      Traced.lift_bind_of_ok _ hCoalesce]
    dsimp only
    rw [Traced.lift_bind_of_ok _ (Word.add_of_lt hFrees),
      Traced.report_bind]
    rfl
  · intro hNext
    have hNextRoom : table.firstBlock ≤ n.size := by
      omega
    have hNextWord : a.region.base + n.size < Word.limit := by
      omega
    rcases (accepted_iff (a := { a.withMemory n with
        frees := a.frees + 1 }) hTable hNextRoom hNextWord).1
        hNext with
      ⟨other, hOther, _⟩
    have hLe := hOther.minimumBlock_le_of_nextLink
      (SizeClass.classify_lt _) hListed hBounds.1 hFreed
    exact absurd hSmall (Nat.not_lt.2 hLe)

/-
  An allocator whose heap has empty lists and two blocks in
  use that have room for their tags only.
-/
def cramped : Allocator where
  region := {
    memory := { bytes := ⟨((
      (List.range 10).flatMap (fun c => [16 * c, 16 * c]) ++
        [0, 17, 17, 17, 17, 17, 17, 1]).flatMap
          Word.toBytes).toArray⟩ },
    base := 4096,
    source := .reservation 256,
    refusals := fun _ => none,
    growths := 0 }
  config := Config.default
  config_valid := Config.validate_default
  table := some { offset := 0 }
  extensions := 0
  allocations := 0
  frees := 0

/- It is accepted, and its first block is in use. -/
theorem cramped_eq :
    cramped.memory.size = 224 ∧ cramped.Accepted ∧
      { offset := 192,
        header := { size := 16, allocated := true },
        footer := { size := 16, allocated := true } } ∈
          cramped.inUse { offset := 0 } ∧
      cramped.memory.previousFooter 192 = .ok Tag.prologue ∧
      cramped.memory.header 208 =
        .ok { size := 16, allocated := true } := by
  decide +kernel

/-
  The check accepts a well placed heap that it no longer
  accepts once one of the blocks in use is freed.
-/
theorem accepted_not_closed :
    cramped.table = some { offset := 0 } ∧
      cramped.region.WellPlaced ∧
      SentinelTable.firstBlock { offset := 0 } ≤
        cramped.memory.size ∧
      cramped.Accepted ∧
      ∃ block ∈ cramped.inUse { offset := 0 }, ∃ next,
        (cramped.free (some { offset := block.offset })).outcome =
          .ok next ∧
        ¬ next.Accepted := by
  rcases cramped_eq with
    ⟨hSize, hAccepted, hBlock, hBefore, hBehind⟩
  have hRoom : SentinelTable.firstBlock { offset := 0 } ≤
      cramped.memory.size := by
    rw [hSize]
    decide
  have hWord : cramped.region.base + cramped.memory.size <
      Word.limit := by
    rw [hSize]
    decide
  have hWithin : 224 ≤ 256 ∧ 4096 + 256 < Word.limit := by
    decide
  have hPlaced : cramped.region.WellPlaced := by
    have hBytes : cramped.region.memory.size = 224 := hSize
    unfold Region.WellPlaced Region.stop Region.size
    rw [hBytes]
    exact ⟨by decide, by decide, hWithin⟩
  exact ⟨rfl, hPlaced, hRoom, hAccepted, _, hBlock,
    not_accepted_of_free rfl hRoom hWord hAccepted hBlock
      (by decide) hBefore hBehind ⟨rfl, rfl⟩ (by decide)⟩

end Allocator

end SegregatedFit
