import SegregatedFit.Proofs.Client.Alignment
import SegregatedFit.Proofs.Client.Serving
import SegregatedFit.Proofs.Consistency.Faults

/-
  What a check tells of a heap at rest after one step of an
  operation was made without the others.

  A free block leaves its list, goes to another list, or is
  marked allocated, or an allocated one is marked free and
  listed.  The check tells of this fault alone, wherever the
  block stands in the heap and in its list.

  Key definitions include:
    * `Allocator.Finds`

  Key theorems include:
    * `Allocator.AtRest.unlink_finds`
    * `Allocator.AtRest.move_finds`
    * `Allocator.AtRest.mark_finds`
    * `Allocator.AtRest.list_finds`
    * `Client.History.faults_diagnosed`
-/

namespace SegregatedFit

------------------------------------------------------------
-- Heaps at Rest
------------------------------------------------------------

/- Each class is that of some word. -/
theorem SizeClass.exists_classify_eq
    {c : Nat}
    (hc : c < count) :
    ∃ size, size < Word.limit ∧ classify size = c := by
  have hAll : ∀ d, d < count →
      32 * 2 ^ d < Word.limit ∧ classify (32 * 2 ^ d) = d := by
    decide
  exact ⟨_, hAll c hc⟩

namespace HeapView

/- The free blocks of a heap are one free block and the others. -/
theorem length_freeBlocks
    {view : HeapView}
    {front back : List ChainBlock}
    {block : ChainBlock}
    (hBlocks : view.blocks = front ++ block :: back)
    (hFree : block.header.allocated = false) :
    view.freeBlocks.length =
      (front ++ back).countP ChainBlock.isFree + 1 := by
  have hFree := ChainBlock.isFree_iff.2 hFree
  change (List.filter ChainBlock.isFree view.blocks).length = _
  rw [← List.countP_eq_length_filter, hBlocks,
    List.perm_middle.countP_eq, List.countP_cons_of_pos hFree]

end HeapView

namespace Allocator

/-
  A check of the allocator with these bytes finds just these
  violations, whether it prints details or not.
-/
def Finds
    (a : Allocator)
    (m : Memory)
    (violations : List Violation) : Prop :=
  ∀ verbose, ∃ report,
    ((a.withMemory m).checkConsistency verbose).outcome =
      .ok report ∧
    report.violations = violations

namespace AtRest

variable {a : Allocator}
variable {table : SentinelTable}
variable {view : HeapView}
variable {n : Memory}
variable {front back : List ChainBlock}
variable {block : ChainBlock}
variable {lists : FreeLists}
variable {found : Option Nat}
variable {violations : List Violation}

/- A free block of a heap at rest stands between others. -/
theorem exists_around
    (h : a.AtRest table view)
    (hBlock : block ∈ view.freeBlocks) :
    ∃ front back,
      view.blocks = front ++ block :: back ∧
      block.header.allocated = false ∧
      OpenHeap table a.memory (front ++ block :: back) [] []
        view.lists ∧
      NoFreeNeighbours (front ++ block :: back) := by
  rcases HeapView.mem_freeBlocks_iff.1 hBlock with
    ⟨hMem, hFree⟩
  rcases List.append_of_mem hMem with ⟨front, back, hBlocks⟩
  have hHeap := h.stands.heap
  have hApart := h.stands.coalesced
  rw [hBlocks] at hHeap hApart
  exact ⟨front, back, hBlocks, hFree, hHeap, hApart⟩

/- A check finds what the walks over the faulty heap tell. -/
theorem finds_of_filedAs
    (h : a.AtRest table view)
    (hSize : n.size = a.memory.size)
    (hFiled : FiledAs table n front block back lists found)
    (hTold :
      a.region.base + n.size < Word.limit →
      ((HeapView.mk (front ++ block :: back) lists).findings
        table n.size).violations table a.region.base n.size =
          .ok violations) :
    a.Finds n violations := by
  have hWord : a.region.base + n.size < Word.limit := by
    rw [hSize]
    exact h.placed.size_lt
  intro verbose
  rcases checkConsistency_eq (a := a.withMemory n) h.table_eq
      (hFiled.outlines.gather_eq (by omega)) (hTold hWord)
      verbose with
    ⟨report, hCheck, hViolations⟩
  exact ⟨report, congrArg Traced.outcome hCheck, hViolations⟩

/- A free block that has left its list is found to be missing. -/
theorem unlink_finds
    (h : a.AtRest table view)
    (hPrologue :
      (a.region.base + table.prologue) % doubleWord = 0)
    (hBlock : block ∈ view.freeBlocks) :
    ∃ n,
      a.memory.unlink block.offset = .ok n ∧
      a.Finds n [
        .freeBlockNotListed block.offset block.header.size
          (SizeClass.classify block.header.size),
        .countMismatch (view.freeBlocks.length - 1)
          view.freeBlocks.length] := by
  rcases h.exists_around hBlock with
    ⟨front, back, hBlocks, hFree, hHeap, hApart⟩
  rcases hHeap.unlink_block hFree with
    ⟨n, hUnlink, hSize, hOpen, _⟩
  refine ⟨n, hUnlink, ?_⟩
  rw [HeapView.length_freeBlocks hBlocks hFree,
    Nat.add_sub_cancel]
  exact h.finds_of_filedAs hSize hOpen.unfiled (fun hWord =>
    hOpen.unfiled.violations_unlisted hPrologue hWord hFree
      hApart)

/- A free block that was put into another list is found there. -/
theorem move_finds
    {size : Nat}
    (h : a.AtRest table view)
    (hPrologue :
      (a.region.base + table.prologue) % doubleWord = 0)
    (hBlock : block ∈ view.freeBlocks)
    (hNe : SizeClass.classify size ≠
      SizeClass.classify block.header.size) :
    ∃ n n',
      a.memory.unlink block.offset = .ok n ∧
      table.insert n block.offset size = .ok n' ∧
      a.Finds n' [
        .wrongClass block.offset
          (SizeClass.classify block.header.size)
          (SizeClass.classify size)] := by
  rcases h.exists_around hBlock with
    ⟨front, back, hBlocks, hFree, hHeap, hApart⟩
  rcases hHeap.unlink_block hFree with
    ⟨n, hUnlink, hSize, hOpen, _⟩
  rcases hOpen.enlist hFree size with
    ⟨n', hInsert, hSize', hFiled, _⟩
  refine ⟨n, n', hUnlink, hInsert, ?_⟩
  exact h.finds_of_filedAs (hSize'.trans hSize) hFiled
    (fun hWord =>
      hFiled.violations_misfiled hPrologue hWord hFree hApart
        hNe)

/- A listed block that was marked allocated is found in its list. -/
theorem mark_finds
    (h : a.AtRest table view)
    (hPrologue :
      (a.region.base + table.prologue) % doubleWord = 0)
    (hBlock : block ∈ view.freeBlocks) :
    ∃ n,
      a.memory.writeTags block.offset {
        size := block.header.size, allocated := true } =
          .ok n ∧
      a.Finds n [
        .allocatedBlockListed block.offset
          (SizeClass.classify block.header.size),
        .countMismatch view.freeBlocks.length
          (view.freeBlocks.length - 1)] := by
  rcases h.exists_around hBlock with
    ⟨front, back, hBlocks, hFree, hHeap, hApart⟩
  rcases (noFreeNeighbours_free_iff hFree).1 hApart with
    ⟨hFront, hBack, _, _⟩
  rcases hHeap.mislabel hFree with ⟨n, hWrite, hSize, hFiled⟩
  refine ⟨n, hWrite, ?_⟩
  rw [HeapView.length_freeBlocks hBlocks hFree,
    Nat.add_sub_cancel]
  exact h.finds_of_filedAs hSize hFiled (fun hWord =>
    hFiled.violations_mislabelled hPrologue hWord rfl hFront
      hBack)

/-
  An allocated block that was marked free and listed is found
  to touch the free ones beside it.
-/
theorem list_finds
    (h : a.AtRest table view)
    (hPrologue :
      (a.region.base + table.prologue) % doubleWord = 0)
    (hBlocks : view.blocks = front ++ block :: back)
    (hAllocated : block.header.allocated = true) :
    ∃ n n',
      a.memory.writeTags block.offset {
        size := block.header.size, allocated := false } =
          .ok n ∧
      table.insert n block.offset block.header.size = .ok n' ∧
      a.Finds n'
        ((front.getLast?.filter ChainBlock.isFree).toList.map
            (.uncoalesced ·.offset block.offset) ++
          (back.head?.filter ChainBlock.isFree).toList.map
            (.uncoalesced block.offset ·.offset)) := by
  have hHeap := h.stands.heap
  have hApart := h.stands.coalesced
  rw [hBlocks] at hHeap hApart
  rcases (noFreeNeighbours_allocated_iff hAllocated).1 hApart
    with ⟨hFront, hBack⟩
  have hOpen := hHeap.takeUp hAllocated
  have hMod := (hOpen.tagged block OpenHeap.mem_work).size_mod
  rcases hOpen.fuse false ⟨rfl, rfl⟩ (List.cons_ne_nil _ _)
      hMod with
    ⟨n, hWrite, hSize, hFreed, _⟩
  rcases hFreed.enlist rfl block.header.size with
    ⟨n', hInsert, hSize', hFiled, _⟩
  refine ⟨n, n', hWrite, hInsert, ?_⟩
  exact h.finds_of_filedAs (hSize'.trans hSize) hFiled
    (fun hWord =>
      hFiled.violations_uncoalesced hPrologue hWord rfl hFront
        hBack)

end AtRest

end Allocator

------------------------------------------------------------
-- Histories
------------------------------------------------------------

namespace Client

variable {start : Allocator}
variable {events : List Event}
variable {client : Client}
variable {table : SentinelTable}
variable {view : HeapView}

namespace History

/- On a region that was empty the prologue is aligned. -/
theorem prologue_mod
    (h : History start events client)
    (hEmpty : start.region.size = 0)
    (hTable : client.allocator.table = some table) :
    (client.allocator.region.base + table.prologue) %
      doubleWord = 0 := by
  have hBase := h.sound.placed.1
  have hStart := h.heapStart_mod
  rw [Allocator.heapStart_of_some hTable, hEmpty] at hStart
  rw [table.prologue_eq]
  change _ % 16 = 0 at hBase ⊢
  change _ % 16 = 0 at hStart
  omega

/-
  On a region that was empty, a check tells exactly which
  fault was made in a heap.

  A free block that was taken out of its list is told of with
  the count, and so is one that was marked allocated.  One
  that was put into another list is told of alone.  An
  allocated block that was marked free and listed is told of
  with each free block next to it, in the order of offsets.
-/
theorem faults_diagnosed
    (h : History start events client)
    (hEmpty : start.region.size = 0)
    (hTable : client.allocator.table = some table)
    (hView : view.Describes table client.allocator.memory) :
    (∀ block ∈ view.freeBlocks,
      ∃ m,
        client.allocator.memory.unlink block.offset = .ok m ∧
        client.allocator.Finds m [
          .freeBlockNotListed block.offset block.header.size
            (SizeClass.classify block.header.size),
          .countMismatch (view.freeBlocks.length - 1)
            view.freeBlocks.length]) ∧
    (∀ block ∈ view.freeBlocks, ∀ c, c < SizeClass.count →
      c ≠ SizeClass.classify block.header.size →
      (∃ size, size < Word.limit ∧
        SizeClass.classify size = c) ∧
      ∀ size, SizeClass.classify size = c →
        ∃ m m',
          client.allocator.memory.unlink block.offset =
            .ok m ∧
          table.insert m block.offset size = .ok m' ∧
          client.allocator.Finds m' [
            .wrongClass block.offset
              (SizeClass.classify block.header.size) c]) ∧
    (∀ block ∈ view.freeBlocks,
      ∃ m,
        client.allocator.memory.writeTags block.offset {
          size := block.header.size, allocated := true } =
            .ok m ∧
        client.allocator.Finds m [
          .allocatedBlockListed block.offset
            (SizeClass.classify block.header.size),
          .countMismatch view.freeBlocks.length
            (view.freeBlocks.length - 1)]) ∧
    ∀ address, client.Owns address →
      ∃ front block back m m',
        view.blocks = front ++ block :: back ∧
        block.offset = address.offset ∧
        block.header.allocated = true ∧
        client.allocator.memory.writeTags block.offset {
          size := block.header.size, allocated := false } =
            .ok m ∧
        table.insert m block.offset block.header.size =
          .ok m' ∧
        client.allocator.Finds m'
          ((front.getLast?.filter ChainBlock.isFree).toList.map
              (.uncoalesced ·.offset block.offset) ++
            (back.head?.filter ChainBlock.isFree).toList.map
              (.uncoalesced block.offset ·.offset)) := by
  have hPrologue := h.prologue_mod hEmpty hTable
  have hRest := h.sound.rest_of_describes hTable hView
  refine ⟨?_, ?_, ?_, ?_⟩
  · intro block hBlock
    exact hRest.unlink_finds hPrologue hBlock
  · intro block hBlock c hc hNe
    refine ⟨SizeClass.exists_classify_eq hc, ?_⟩
    rintro size rfl
    exact hRest.move_finds hPrologue hBlock hNe
  · intro block hBlock
    exact hRest.mark_finds hPrologue hBlock
  · intro address hOwned
    rcases (h.sound.backed_of_rest hRest).exists_block hOwned
      with ⟨block, hBlock, rfl⟩
    rcases HeapView.mem_allocatedBlocks_iff.1 hBlock with
      ⟨hMem, hAllocated⟩
    rcases List.append_of_mem hMem with ⟨front, back, hBlocks⟩
    rcases hRest.list_finds hPrologue hBlocks hAllocated with
      ⟨m, m', hWrite, hInsert, hFinds⟩
    exact ⟨front, block, back, m, m', hBlocks, rfl, hAllocated,
      hWrite, hInsert, hFinds⟩

/-
  The sample has a block that is in use and a free one behind
  it, which is the only listed one.
-/
theorem faults_diagnosed_wide :
    (∃ m,
      wideSplit.allocator.memory.unlink 224 = .ok m ∧
      wideSplit.allocator.Finds m
        [.freeBlockNotListed 224 32 0, .countMismatch 0 1]) ∧
    (∃ m m',
      wideSplit.allocator.memory.unlink 224 = .ok m ∧
      SentinelTable.insert { offset := 0 } m 224 5000 =
        .ok m' ∧
      wideSplit.allocator.Finds m' [.wrongClass 224 0 8]) ∧
    (∃ m,
      wideSplit.allocator.memory.writeTags 224
        { size := 32, allocated := true } = .ok m ∧
      wideSplit.allocator.Finds m
        [.allocatedBlockListed 224 0, .countMismatch 1 0]) ∧
    ∃ m m',
      wideSplit.allocator.memory.writeTags 192
        { size := 32, allocated := false } = .ok m ∧
      SentinelTable.insert { offset := 0 } m 192 32 = .ok m' ∧
      wideSplit.allocator.Finds m' [.uncoalesced 192 224] := by
  rcases wide_history with ⟨_, ⟨events, hHistory⟩, _⟩
  have hTable := wide_eq.2.1
  rcases hHistory.sound.backed _ hTable with ⟨view, hRest, _⟩
  have hBlocks := wideSplit_blocks hRest.describes
  have hFree := wideSplit_freeBlocks hRest.describes
  rcases faults_diagnosed hHistory rfl hTable hRest.describes
    with ⟨hUnlink, hMove, hMark, hList⟩
  rw [hFree, List.forall_mem_singleton] at hUnlink hMove hMark
  refine ⟨hUnlink, ?_, hMark, ?_⟩
  · exact (hMove 8 (by decide) (by decide)).2 5000 (by decide)
  · rcases hList _ wideSplit_owns with
      ⟨front, block, back, m, m', hCut, hOffset, _, hWrite,
        hInsert, hFinds⟩
    rw [hBlocks] at hCut
    rcases wideSplit_cut hCut hOffset with ⟨rfl, rfl, rfl⟩
    exact ⟨m, m', hWrite, hInsert, hFinds⟩

end History

end Client

end SegregatedFit
