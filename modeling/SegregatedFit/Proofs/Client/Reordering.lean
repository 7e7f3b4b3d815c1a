import SegregatedFit.Proofs.Client.Bookkeeping
import SegregatedFit.Proofs.Heap.Gaps

/-
  Freeing in any order.

  What remains allocated does not depend on the order in
  which addresses are freed, and the remaining blocks tell
  the whole heap.  A heap in which nothing remains is one
  free block.

  Key definitions include:
    * `Allocator.freeAll`
    * `HeapView.remaining`

  Key theorems include:
    * `Allocator.AtRest.freeAll_ok`
    * `Client.History.free_order_irrelevant`
-/

namespace SegregatedFit

/- Free the blocks of some addresses, one after the other. -/
def Allocator.freeAll
    (a : Allocator) :
    List Address → Traced Allocator
| [] => pure a
| address :: later => do
    let a ← a.free (some address)
    a.freeAll later

/- The allocated blocks but for those at some addresses. -/
def HeapView.remaining
    (view : HeapView)
    (addresses : List Address) : List ChainBlock :=
  view.allocatedBlocks.filter (fun block =>
    ({ offset := block.offset } : Address) ∉ addresses)

------------------------------------------------------------
-- Remaining Blocks
------------------------------------------------------------

namespace HeapView

variable {view next : HeapView}
variable {addresses addresses' : List Address}

/- Without addresses all blocks remain. -/
theorem remaining_nil
    (view : HeapView) :
    view.remaining [] = view.allocatedBlocks := by
  unfold remaining
  rw [List.filter_eq_self]
  intro block _
  exact decide_eq_true List.not_mem_nil

/- What remains does not depend on the order of the addresses. -/
theorem remaining_perm
    (view : HeapView)
    (h : addresses'.Perm addresses) :
    view.remaining addresses' = view.remaining addresses := by
  unfold remaining
  apply List.filter_congr
  intro block _
  rw [decide_eq_decide, h.mem_iff]

/- The first address takes its block, and the others theirs. -/
theorem remaining_cons
    {block : ChainBlock}
    (h : next.allocatedBlocks = view.others block.offset) :
    next.remaining addresses =
      view.remaining
        ({ offset := block.offset } :: addresses) := by
  unfold remaining
  rw [h]
  unfold others
  rw [List.filter_filter]
  apply List.filter_congr
  intro other _
  rw [Bool.eq_iff_iff]
  simp [and_comm]

end HeapView

/- The blocks that remain are those of all other addresses. -/
theorem Backed.mem_remaining_iff
    {view : HeapView}
    {owned : List Owned}
    {addresses : List Address}
    {address : Address}
    (h : Backed view.allocatedBlocks owned) :
    address.offset ∈
        (view.remaining addresses).map ChainBlock.offset ↔
      (∃ entry ∈ owned, entry.address = address) ∧
        address ∉ addresses := by
  rw [h.owned_iff, List.mem_map]
  unfold HeapView.remaining
  constructor
  · intro hRemains
    rcases hRemains with ⟨block, hBlock, hOffset⟩
    rcases List.mem_filter.1 hBlock with ⟨hMem, hNot⟩
    have hNot := of_decide_eq_true hNot
    rw [hOffset] at hNot
    exact ⟨⟨block, hMem, hOffset⟩, hNot⟩
  · intro hOther
    rcases hOther with ⟨⟨block, hMem, hOffset⟩, hNot⟩
    refine ⟨block, List.mem_filter.2 ⟨hMem, ?_⟩, hOffset⟩
    rw [hOffset]
    exact decide_eq_true hNot

------------------------------------------------------------
-- Freeing Several Blocks
------------------------------------------------------------

namespace Allocator

/-
  The blocks of different addresses are freed.  The heap
  keeps its size, and all other blocks remain.
-/
theorem AtRest.freeAll_ok
    {a : Allocator}
    {table : SentinelTable}
    {view : HeapView}
    {addresses : List Address}
    (h : a.AtRest table view)
    (hBlocks : ∀ address ∈ addresses,
      ∃ block ∈ view.allocatedBlocks,
        address = { offset := block.offset })
    (hNodup : addresses.Nodup)
    (hFew : a.frees + addresses.length < Word.limit) :
    ∃ last region view',
      (a.freeAll addresses).outcome = .ok last ∧
      last = { a with
        region := region,
        frees := a.frees + addresses.length } ∧
      last.AtRest table view' ∧
      region.memory.size = a.region.memory.size ∧
      view'.allocatedBlocks = view.remaining addresses := by
  induction addresses generalizing a view with
  | nil =>
      exact ⟨a, a.region, view, rfl, rfl, h, rfl,
        view.remaining_nil.symm⟩
  | cons address later ih =>
      rw [List.nodup_cons] at hNodup
      rw [List.length_cons] at hFew
      rcases hBlocks address List.mem_cons_self with
        ⟨block, hBlock, rfl⟩
      rcases h.free_ok hBlock (by omega) with
        ⟨region, next, hFree, hSize, hTakes, hBecomes⟩
      have hNext := hTakes.allocatedBlocks_eq h.stands
      let freed : Allocator :=
        { a with region := region, frees := a.frees + 1 }
      have hRest : freed.AtRest table next :=
        h.of_becomes rfl hBecomes
      -- The later addresses still have their blocks.
      have hLater : ∀ other ∈ later,
          ∃ block ∈ next.allocatedBlocks,
            other = { offset := block.offset } := by
        intro other hOther
        rcases hBlocks other
            (List.mem_cons_of_mem _ hOther) with
          ⟨block', hBlock', rfl⟩
        refine ⟨block', ?_, rfl⟩
        rw [hNext]
        apply mem_others hBlock'
        intro hEq
        rw [hEq] at hNodup
        exact hNodup.1 hOther
      rcases ih hRest hLater hNodup.2
          (by dsimp only [freed]; omega) with
        ⟨last, region', view', hOutcome, hLast, hLastRest,
          hLastSize, hRemaining⟩
      refine ⟨last, region', view', ?_, ?_, hLastRest,
        hLastSize.trans hSize, ?_⟩
      · unfold freeAll
        rw [Traced.outcome_bind_of_ok
          (congrArg Traced.outcome hFree)]
        exact hOutcome
      · rw [hLast, List.length_cons, Nat.add_comm later.length]
        simp only [freed, Nat.add_assoc]
      · rw [hRemaining]
        exact HeapView.remaining_cons hNext

end Allocator

------------------------------------------------------------
-- Histories
------------------------------------------------------------

namespace Client.History

variable {start : Allocator}
variable {events : List Event}
variable {client : Client}
variable {table : SentinelTable}

/- Only what was allocated is freed, so it can be counted. -/
theorem frees_add_length_lt
    {addresses : List Address}
    (h : History start events client)
    (hOwned : ∀ address ∈ addresses, client.Owns address)
    (hNodup : addresses.Nodup) :
    client.allocator.frees + addresses.length <
      Word.limit := by
  have hSub : addresses ⊆ client.owned.map Owned.address := by
    intro address hAddress
    rcases hOwned address hAddress with ⟨entry, hEntry, rfl⟩
    exact List.mem_map_of_mem hEntry
  have hLength := (hNodup.subperm hSub).length_le
  rw [List.length_map] at hLength
  have hAllocations := h.allocations_eq
  have hCounted := h.sound.counted.allocations_le
  have hOperations := h.operations_lt
  omega

/-
  Addresses that are owned can be freed in any order.  The
  heaps that come of it have the same chain, the same blocks
  on each list, and the same statistics.  The blocks in use
  are those of all other addresses.  If there are none and
  the heap was ever extended, one free block follows the
  prologue.
-/
theorem free_order_irrelevant
    {addresses addresses' : List Address}
    (h : History start events client)
    (hTable : client.allocator.table = some table)
    (hOwned : ∀ address ∈ addresses, client.Owns address)
    (hNodup : addresses.Nodup)
    (hOrder : addresses'.Perm addresses) :
    ∃ last last', ∃ view view' : HeapView,
      ∃ chain statistics,
      (client.allocator.freeAll addresses).outcome =
        .ok last ∧
      (client.allocator.freeAll addresses').outcome =
        .ok last' ∧
      last.memory.chain table.prologue = .ok chain ∧
      last'.memory.chain table.prologue = .ok chain ∧
      last.statistics = .ok statistics ∧
      last'.statistics = .ok statistics ∧
      statistics.heapSize = client.allocator.region.size ∧
      view.Describes table last.memory ∧
      view'.Describes table last'.memory ∧
      (∀ c, c < SizeClass.count →
        (view'.lists c).Perm (view.lists c)) ∧
      (∀ address : Address,
        address.offset ∈ chain.blocksInUse table.prologue ↔
          client.Owns address ∧ address ∉ addresses) ∧
      ((∀ address, client.Owns address →
          address ∈ addresses) →
        0 < client.allocator.extensions →
        chain.blocks = [table.prologueBlock,
          .ofTag table.firstBlock {
            size := statistics.heapSize -
              (table.prologue + doubleWord),
            allocated := false }]) := by
  rcases h.sound.backed table hTable with
    ⟨view, hRest, hBacked⟩
  have hCount := h.frees_add_length_lt hOwned hNodup
  have hBlocks : ∀ address ∈ addresses,
      ∃ block ∈ view.allocatedBlocks,
        address = { offset := block.offset } :=
    fun address hAddress =>
      hBacked.exists_block (hOwned address hAddress)
  rcases hRest.freeAll_ok hBlocks hNodup hCount with
    ⟨last, region, view₁, hOutcome, rfl, hLast, hSize,
      hRemaining⟩
  rcases hRest.freeAll_ok
      (fun address hAddress =>
        hBlocks address (hOrder.mem_iff.1 hAddress))
      (hOrder.nodup_iff.2 hNodup)
      (by rwa [hOrder.length_eq]) with
    ⟨last', region', view₂, hOutcome', rfl, hLast', hSize',
      hRemaining'⟩
  have hWord := hLast.placed.size_lt
  have hWord' := hLast'.placed.size_lt
  have hSame := hSize'.trans hSize.symm
  rw [view.remaining_perm hOrder, ← hRemaining] at hRemaining'
  rcases hLast.stands.same_of_allocated hLast'.stands hSame
      hRemaining' with
    ⟨hEqual, hLists⟩
  refine ⟨_, _, view₁, view₂, _, _, hOutcome, hOutcome',
    hLast.stands.chain_eq (by omega), ?_,
    hLast.statistics_eq, ?_, hSize,
    (HeapView.stands_iff.1 hLast.stands).1,
    (HeapView.stands_iff.1 hLast'.stands).1, hLists, ?_, ?_⟩
  · have hChain := hLast'.stands.chain_eq (by omega)
    rw [hEqual, hSame] at hChain
    exact hChain
  · have hFree : view₂.freeBytes = view₁.freeBytes := by
      unfold HeapView.freeBytes HeapView.freeBlocks
      rw [hEqual]
    have hHeapSize : region'.size = region.size := hSame
    rw [hLast'.statistics_eq, hFree, hHeapSize,
      hOrder.length_eq]
  · intro address
    rw [hLast.stands.blocksInUse_eq,
      HeapView.allocatedOffsets_eq, hRemaining]
    exact hBacked.mem_remaining_iff
  · intro hAll hExtended
    have hNone : view₁.allocatedBlocks = [] := by
      rw [hRemaining]
      unfold HeapView.remaining
      rw [List.filter_eq_nil_iff]
      intro block hBlock hNot
      have hOwns : client.Owns { offset := block.offset } :=
        hBacked.owned_iff.2 ⟨block, hBlock, rfl⟩
      exact of_decide_eq_true hNot (hAll _ hOwns)
    have hFirst : table.firstBlock < region.memory.size := by
      rw [hSize]
      exact h.firstBlock_lt hTable hExtended
    rw [hLast.stands.blocks_of_unallocated hNone]
    unfold gap
    rw [if_pos hFirst]
    rfl

end Client.History

namespace Client

/- The sample with a second block. -/
def samplePair : Client :=
  sample.after (.allocate 8)

/- The sample with a second block has a history. -/
theorem samplePair_history :
    ∃ events, History sampleStart events samplePair := by
  have hSize : 8 < Word.limit := by
    decide
  have hBlock := History.after sample_history (.allocate 8)
    hSize (by rw [sample_eq.2.2]; decide)
  exact hBlock.1

/- What it consists of. -/
theorem samplePair_eq :
    samplePair.allocator.table = some { offset := 0 } ∧
      samplePair.owned = [
        { address := { offset := 224 }, requested := 8 },
        { address := { offset := 192 }, requested := 8 }] ∧
      samplePair.allocator.extensions = 2 ∧
      samplePair.allocator.region.size = 256 := by
  decide +kernel

/- Its two blocks merge to the same one in both orders. -/
theorem History.free_order_irrelevant_samplePair :
    ∃ last last' chain,
      (samplePair.allocator.freeAll
        [{ offset := 192 }, { offset := 224 }]).outcome =
          .ok last ∧
      (samplePair.allocator.freeAll
        [{ offset := 224 }, { offset := 192 }]).outcome =
          .ok last' ∧
      last.memory.chain 176 = .ok chain ∧
      last'.memory.chain 176 = .ok chain ∧
      chain.blocks = [
        .ofTag 176 Tag.prologue,
        .ofTag 192 { size := 64, allocated := false }] := by
  rcases samplePair_history with ⟨events, hHistory⟩
  rcases samplePair_eq with
    ⟨hTable, hOwned, hExtensions, hSize⟩
  have hAddresses : ∀ address,
      samplePair.Owns address ↔
        address ∈ ([{ offset := 192 }, { offset := 224 }] :
          List Address) := by
    intro address
    unfold Owns
    rw [hOwned]
    simp [eq_comm, or_comm]
  have hOrder : ([{ offset := 224 }, { offset := 192 }] :
      List Address).Perm
        [{ offset := 192 }, { offset := 224 }] :=
    List.Perm.swap _ _ _
  rcases free_order_irrelevant hHistory hTable
      (fun address => (hAddresses address).2) (by decide)
      hOrder with
    ⟨last, last', _, _, chain, statistics, hOutcome,
      hOutcome', hChain, hChain', _, _, hHeapSize, _, _, _, _,
      hWhole⟩
  have hBlocks := hWhole
    (fun address => (hAddresses address).1)
    (by rw [hExtensions]; decide)
  rw [hHeapSize, hSize] at hBlocks
  exact ⟨last, last', chain, hOutcome, hOutcome', hChain,
    hChain', hBlocks⟩

end Client

end SegregatedFit
