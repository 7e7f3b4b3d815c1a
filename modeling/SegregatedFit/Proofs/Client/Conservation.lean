import SegregatedFit.Proofs.Client.Guarantees

/-
  Where the bytes of a heap are.

  Behind the prologue each byte belongs to one block.  The
  allocated blocks are those of the addresses that are owned,
  and the free ones are those that the lists lead through.

  Key definitions include:
    * `Chain.freeBlocks`

  Key theorems include:
    * `HeapView.Stands.size_eq`
    * `Client.History.bytes_conserved`
-/

namespace SegregatedFit

/- The free blocks of a chain. -/
def Chain.freeBlocks
    (chain : Chain) : List ChainBlock :=
  chain.blocks.filter (fun block => !block.header.allocated)

------------------------------------------------------------
-- Views
------------------------------------------------------------

namespace HeapView

variable {view : HeapView}
variable {table : SentinelTable}
variable {m : Memory}

/- Blocks take as much as the allocated and the free ones. -/
theorem extent_blocks
    (view : HeapView) :
    extent view.blocks =
      extent view.allocatedBlocks + view.freeBytes := by
  have hPerm := (List.filter_append_perm
    (fun block => block.header.allocated) view.blocks).map
      (fun block => block.header.size)
  have hSum := hPerm.sum_nat
  rw [List.map_append, List.sum_append] at hSum
  exact hSum.symm

/-
  Behind the prologue a heap consists of its allocated and
  its free blocks.
-/
theorem Stands.size_eq
    (h : view.Stands table m) :
    m.size =
      table.firstBlock + extent view.allocatedBlocks +
        view.freeBytes := by
  have hStop := h.heap.tiles.stop_eq
  simp only [List.append_nil] at hStop
  rw [hStop, view.extent_blocks, Nat.add_assoc]

/- The prologue is not among the free blocks of the chain. -/
theorem freeBlocks_chain
    (view : HeapView)
    (table : SentinelTable)
    (stop : ChainEnd) :
    Chain.freeBlocks
        { blocks := table.prologueBlock :: view.blocks,
          stop := stop } =
      view.freeBlocks :=
  rfl

end HeapView

------------------------------------------------------------
-- Records
------------------------------------------------------------

/- The blocks of a record take as much as the allocated ones. -/
theorem Backed.sum_sizes
    {view : HeapView}
    {table : SentinelTable}
    {m : Memory}
    {owned : List Owned}
    (h : Backed view.allocatedBlocks owned)
    (hStands : view.Stands table m) :
    (owned.map (fun entry =>
        sizeAt view.blocks entry.offset)).sum =
      extent view.allocatedBlocks := by
  have hSum := (h.offsets.map (sizeAt view.blocks)).sum_nat
  rw [List.map_map, List.map_map] at hSum
  refine hSum.trans ?_
  unfold extent
  congr 1
  apply List.map_congr_left
  intro block hBlock
  exact hStands.heap.sizeAt_eq
    (HeapView.mem_allocatedBlocks_iff.1 hBlock).1

namespace Client

variable {start : Allocator}
variable {events : List Event}
variable {client : Client}
variable {table : SentinelTable}
variable {view : HeapView}

/- The usable size of an address that is owned. -/
theorem usableSize_owned
    {entry : Owned}
    (h : client.allocator.AtRest table view)
    (hBacked : Backed view.allocatedBlocks client.owned)
    (hEntry : entry ∈ client.owned) :
    client.allocator.usableSize entry.address =
        .ok (sizeAt view.blocks entry.offset - doubleWord) ∧
      doubleWord ≤ sizeAt view.blocks entry.offset := by
  have hSizes := layout_sizes
  rcases hBacked.room entry hEntry with
    ⟨block, hBlock, hOffset, hRoom⟩
  have hSize := h.stands.heap.sizeAt_eq
    (HeapView.mem_allocatedBlocks_iff.1 hBlock).1
  rcases entry with ⟨⟨offset⟩, requested⟩
  change block.offset = offset at hOffset
  subst hOffset
  change _ = Except.ok (sizeAt view.blocks block.offset - _) ∧
    _ ≤ sizeAt view.blocks block.offset
  rw [hSize]
  exact ⟨h.usableSize_eq hBlock, by omega⟩

namespace History

/-
  All bytes of a heap are accounted for.  Behind its prologue
  it consists of the blocks of the addresses that are owned,
  each with its usable size and its two tags, and of the free
  bytes of the statistics.  These are the sizes of the free
  blocks of the chain, because the lists lead through each
  free block once and end before their walks are cut.
-/
theorem bytes_conserved
    (h : History start events client)
    (hTable : client.allocator.table = some table) :
    ∃ chain statistics, ∃ usables : List Nat,
      client.allocator.memory.chain table.prologue =
        .ok chain ∧
      client.allocator.statistics = .ok statistics ∧
      (client.owned.map Owned.address).Nodup ∧
      client.owned.map (fun entry =>
          client.allocator.usableSize entry.address) =
        usables.map Except.ok ∧
      statistics.heapSize =
        table.prologue + doubleWord +
          (usables.map (fun usable =>
            usable + doubleWord)).sum +
          statistics.freeBytes ∧
      statistics.freeBytes =
        (chain.freeBlocks.map (fun block =>
          block.header.size)).sum ∧
      ∃ lists : Nat → List Nat,
        (∀ c, c < SizeClass.count →
          client.allocator.memory.Ring (table.sentinel c)
            (lists c) ∧
          (lists c).length ≤
            client.allocator.memory.blockBound) ∧
        (SizeClass.all.flatMap lists).Perm
          (chain.freeBlocks.map ChainBlock.offset) := by
  rcases h.sound.backed table hTable with
    ⟨view, hRest, hBacked⟩
  have hStands := hRest.stands
  have hWord := hRest.placed.size_lt
  refine ⟨_, _, client.owned.map (fun entry =>
      sizeAt view.blocks entry.offset - doubleWord),
    hStands.chain_eq (by omega), hRest.statistics_eq,
    hBacked.nodup_addresses hStands.nodup_allocatedOffsets,
    ?_, ?_, ?_, view.lists, ?_, ?_⟩
  · rw [List.map_map]
    apply List.map_congr_left
    intro entry hEntry
    exact (usableSize_owned hRest hBacked hEntry).1
  · have hWhole : (client.owned.map (fun entry =>
          sizeAt view.blocks entry.offset - doubleWord)).map
            (fun usable => usable + doubleWord) =
        client.owned.map (fun entry =>
          sizeAt view.blocks entry.offset) := by
      rw [List.map_map]
      apply List.map_congr_left
      intro entry hEntry
      exact Nat.sub_add_cancel
        (usableSize_owned hRest hBacked hEntry).2
    rw [hWhole, hBacked.sum_sizes hStands]
    exact hStands.size_eq
  · rw [HeapView.freeBlocks_chain]
    rfl
  · intro c hc
    exact ⟨hStands.heap.ring c hc, hStands.length_list hc⟩
  · rw [HeapView.freeBlocks_chain]
    exact hStands.listed_perm

/-
  The sample consists of its frame, a block of 32 bytes and
  as many free bytes, which are in one list.
-/
theorem bytes_conserved_wideSplit :
    ∃ statistics, ∃ usables : List Nat,
      wideSplit.allocator.statistics = .ok statistics ∧
      wideSplit.owned.map (fun entry =>
          wideSplit.allocator.usableSize entry.address) =
        usables.map Except.ok ∧
      usables.length = 1 ∧
      statistics.freeBytes = 32 ∧
      statistics.heapSize =
        192 +
          (usables.map (fun usable =>
            usable + doubleWord)).sum + 32 ∧
      ∃ lists : Nat → List Nat,
        (∀ c, c < SizeClass.count →
          wideSplit.allocator.memory.Ring
            (SentinelTable.sentinel { offset := 0 } c)
            (lists c)) ∧
        SizeClass.all.flatMap lists = [224] := by
  rcases wide_eq.2 with ⟨hTable, hOwned, _, hEvaluated⟩
  rcases wide_history with ⟨_, ⟨events, hHistory⟩, _⟩
  rcases bytes_conserved hHistory hTable with
    ⟨chain, statistics, usables, hChain, hStatistics, _,
      hUsables, hSize, hFree, lists, hLists, hListed⟩
  rw [hEvaluated] at hChain
  cases hChain
  have hLength := congrArg List.length hUsables
  rw [hOwned, List.length_map, List.length_map] at hLength
  change statistics.freeBytes = 32 at hFree
  rw [hFree] at hSize
  exact ⟨statistics, usables, hStatistics, hUsables,
    hLength.symm, hFree, hSize, lists,
    fun c hc => (hLists c hc).1, List.perm_singleton.1 hListed⟩

end History

end Client

end SegregatedFit
