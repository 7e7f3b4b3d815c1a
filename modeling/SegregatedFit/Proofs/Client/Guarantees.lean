import SegregatedFit.Proofs.Client.Runs
import SegregatedFit.Proofs.Consistency.Totality

/-
  What an allocator guarantees to its callers, at every point
  of every history.

  Its heap is described by a view, each address that is owned
  has a block of its own and no other block is allocated,
  payloads only change when the caller changes them, and no
  call ends in a fault.

  Key definitions include:
    * `Client.Occupies`

  Key theorems include:
    * `Client.History.heap_described`
    * `Client.History.payload_unchanged`
    * `Client.History.owned_exact`
    * `Client.History.never_faults`
-/

namespace SegregatedFit

namespace Client

variable {start : Allocator}
variable {events : List Event}
variable {client next : Client}
variable {call : Call}
variable {table : SentinelTable}

namespace History

------------------------------------------------------------
-- The Heap
------------------------------------------------------------

/-
  A heap that is laid out has a view that describes its
  bytes.  All sizes are multiples of the double word and have
  room for the tags and links.
-/
theorem heap_described
    (h : History start events client)
    (hTable : client.allocator.table = some table) :
    ∃ view : HeapView,
      view.Describes table client.allocator.memory ∧
      view.Roomy ∧
      ∀ block ∈ view.blocks,
        block.header.size % doubleWord = 0 := by
  rcases h.sound.backed table hTable with ⟨view, hRest, _⟩
  rcases HeapView.stands_iff.1 hRest.stands with
    ⟨hDescribes, hRoomy⟩
  refine ⟨view, hDescribes, hRoomy, ?_⟩
  intro block hBlock
  have hTagged :=
    hRest.stands.heap.tagged block (by simpa using hBlock)
  exact hTagged.size_mod

/-
  The heap of the sample has a view with an allocated block
  and a free one, which is the only one in all lists.
-/
theorem heap_described_wideSplit :
    ∃ view : HeapView,
      view.Describes { offset := 0 }
        wideSplit.allocator.memory ∧
      view.Roomy ∧
      (∀ block ∈ view.blocks,
        block.header.size % doubleWord = 0) ∧
      view.blocks = [
        .ofTag 192 { size := 32, allocated := true },
        .ofTag 224 { size := 32, allocated := false }] ∧
      SizeClass.all.flatMap view.lists = [224] := by
  rcases wide_history with ⟨_, ⟨events, hHistory⟩, _⟩
  rcases heap_described hHistory wide_eq.2.1 with
    ⟨view, hView, hRoomy, hSizes⟩
  have hListed :=
    (HeapView.stands_iff.2 ⟨hView, hRoomy⟩).listed_perm
  rw [wideSplit_freeBlocks hView] at hListed
  exact ⟨view, hView, hRoomy, hSizes, wideSplit_blocks hView,
    List.perm_singleton.1 hListed⟩

------------------------------------------------------------
-- Payloads
------------------------------------------------------------

/-
  A call that does not concern an address that is owned
  leaves its usable size and all bytes of its payload as they
  are.
-/
theorem payload_unchanged
    {address : Address}
    {reply : Reply}
    (h : History start events client)
    (hAllowed : call.Allowed client)
    (hFew :
      client.operations + call.operations < Word.limit)
    (hOutcome :
      (client.perform call).outcome = .ok (reply, next))
    (hOwned : client.Owns address)
    (hOther : ¬ call.Concerns address) :
    ∃ usable bytes,
      client.allocator.usableSize address = .ok usable ∧
      client.allocator.readPayload address 0 usable =
        .ok bytes ∧
      next.allocator.usableSize address = .ok usable ∧
      next.allocator.readPayload address 0 usable =
        .ok bytes := by
  rcases h.sound.exists_block hOwned with
    ⟨table, view, block, hRest, hBacked, hBlock, rfl⟩
  rcases hRest.perform_ok hBacked hAllowed h.sound.counted
      hFew with
    ⟨reply', a, view', hPerform, hServes, _, _⟩
  rw [perform_outcome hPerform] at hOutcome
  cases hOutcome
  rcases hServes.stays block hBlock hOther with
    ⟨hStays, hBytes⟩
  have hKeeps :
      client.allocator.memory.KeepsPayloads a.memory
        [block] := by
    intro other hMem _
    rw [List.mem_singleton.1 hMem]
    exact hBytes
  exact Allocator.payload_kept hRest hServes.rest hKeeps
    List.mem_cons_self hBlock hStays

/- The heap of the sample grows behind its block. -/
theorem payload_unchanged_sample :
    ∃ next usable bytes,
      next = sample.after (.allocate 8) ∧
      sample.allocator.usableSize { offset := 192 } =
        .ok usable ∧
      sample.allocator.readPayload { offset := 192 } 0 usable =
        .ok bytes ∧
      next.allocator.usableSize { offset := 192 } =
        .ok usable ∧
      next.allocator.readPayload { offset := 192 } 0 usable =
        .ok bytes := by
  have hAllowed : (Call.allocate 8).Allowed sample := by
    change 8 < Word.limit
    decide
  have hFew : sample.operations +
      (Call.allocate 8).operations < Word.limit := by
    rw [sample_eq.2.2]
    decide
  have hOther :
      ¬ (Call.allocate 8).Concerns { offset := 192 } :=
    fun hSame => hSame
  rcases sample_history with ⟨events, hHistory⟩
  rcases hHistory.sound.perform_ok hAllowed hFew with
    ⟨reply, next, hOutcome, _⟩
  rcases payload_unchanged hHistory hAllowed hFew hOutcome
      sample_owns hOther with
    ⟨usable, bytes, hKept⟩
  exact ⟨next, usable, bytes, (after_eq hOutcome).symm, hKept⟩

------------------------------------------------------------
-- Ownership
------------------------------------------------------------

end History

/-
  The bytes from `start` to `stop` are the block of an
  address, with both of its tags.
-/
def Occupies
    (client : Client)
    (address : Address)
    (start stop : Nat) : Prop :=
  ∃ usable,
    client.allocator.usableSize address = .ok usable ∧
      start = address.offset - wordSize ∧
      stop = address.offset + usable + wordSize

/- The block of an address begins and ends with its tags. -/
theorem occupies_iff
    {view : HeapView}
    {block : ChainBlock}
    {start stop : Nat}
    (h : client.allocator.AtRest table view)
    (hBlock : block ∈ view.allocatedBlocks) :
    client.Occupies { offset := block.offset } start stop ↔
      start = block.offset - wordSize ∧
        stop = block.offset + block.header.size - wordSize := by
  have hSizes := layout_sizes
  have hBounds := h.bounds hBlock
  have hStop : block.offset +
      (block.header.size - doubleWord) + wordSize =
        block.offset + block.header.size - wordSize := by
    omega
  unfold Occupies
  rw [h.usableSize_eq hBlock]
  constructor
  · intro hOccupies
    rcases hOccupies with ⟨usable, hEq, hStart, hEnd⟩
    cases hEq
    exact ⟨hStart, hEnd.trans hStop⟩
  · intro hEnds
    exact ⟨_, rfl, hEnds.1, hEnds.2.trans hStop.symm⟩

/-
  The addresses that are owned are those of the allocated
  blocks of the chain behind the prologue.
-/
theorem owns_iff
    {view : HeapView}
    {address : Address}
    (h : client.allocator.AtRest table view)
    (hBacked : Backed view.allocatedBlocks client.owned) :
    client.Owns address ↔
      ∃ block ∈ table.prologueBlock :: view.blocks,
        block.offset ≠ table.prologue ∧
          block.header.allocated = true ∧
          block.offset = address.offset := by
  have hPrologue := table.prologue_eq
  have hFirst := table.firstBlock_eq
  refine hBacked.owned_iff.trans ?_
  constructor
  · intro hBlock
    rcases hBlock with ⟨block, hBlock, hOffset⟩
    rcases HeapView.mem_allocatedBlocks_iff.1 hBlock with
      ⟨hMem, hState⟩
    have hBounds := h.bounds hBlock
    exact ⟨block, List.mem_cons_of_mem _ hMem, by omega,
      hState, hOffset⟩
  · intro hBlock
    rcases hBlock with ⟨block, hMem, hNe, hState, hOffset⟩
    rcases List.mem_cons.1 hMem with hEq | hMem
    · subst hEq
      exact absurd rfl hNe
    · exact ⟨block, HeapView.mem_allocatedBlocks_iff.2
        ⟨hMem, hState⟩, hOffset⟩

namespace History

/-
  The addresses that are owned are those of the allocated
  blocks of the chain, but for the prologue, and no address
  is owned twice.  Their blocks lie between the prologue and
  the epilogue and do not overlap, and each has room for what
  was asked for.
-/
theorem owned_exact
    (h : History start events client)
    (hTable : client.allocator.table = some table) :
    (client.owned.map Owned.address).Nodup ∧
    (∃ chain,
      client.allocator.memory.chain table.prologue =
        .ok chain ∧
      ∀ address, client.Owns address ↔
        ∃ block ∈ chain.blocks,
          block.offset ≠ table.prologue ∧
            block.header.allocated = true ∧
            block.offset = address.offset) ∧
    (∀ entry ∈ client.owned, ∃ usable,
      client.allocator.usableSize entry.address = .ok usable ∧
        entry.requested ≤ usable) ∧
    (∀ address, client.Owns address →
      ∃ start stop, client.Occupies address start stop ∧
        table.prologue + wordSize ≤ start ∧
        stop ≤ client.allocator.memory.size - wordSize) ∧
    ∀ address other start stop start' stop',
      client.Owns address → client.Owns other →
      address ≠ other →
      client.Occupies address start stop →
      client.Occupies other start' stop' →
        stop ≤ start' ∨ stop' ≤ start := by
  have hSizes := layout_sizes
  have hFirst := table.firstBlock_eq
  have hPrologue := table.prologue_eq
  rcases h.sound.backed table hTable with
    ⟨view, hRest, hBacked⟩
  have hWord := hRest.placed.size_lt
  refine ⟨?_, ?_, ?_, ?_, ?_⟩
  · exact hBacked.nodup_addresses
      hRest.stands.nodup_allocatedOffsets
  · exact ⟨_, hRest.stands.chain_eq (by omega),
      fun address => owns_iff hRest hBacked⟩
  · intro entry hEntry
    rcases hBacked.room entry hEntry with
      ⟨block, hBlock, hOffset, hRoom⟩
    rcases entry with ⟨⟨offset⟩, requested⟩
    change block.offset = offset at hOffset
    subst hOffset
    refine ⟨_, hRest.usableSize_eq hBlock, ?_⟩
    dsimp only at hRoom ⊢
    omega
  · intro address hOwns
    rcases hBacked.exists_block hOwns with ⟨block, hBlock, rfl⟩
    have hBounds := hRest.bounds hBlock
    refine ⟨_, _, (occupies_iff hRest hBlock).2 ⟨rfl, rfl⟩,
      ?_, ?_⟩
    · omega
    · omega
  · intro address other start stop start' stop' hOwns hOwns' hNe
      hOccupies hOccupies'
    rcases hBacked.exists_block hOwns with ⟨block, hBlock, rfl⟩
    rcases hBacked.exists_block hOwns' with
      ⟨block', hBlock', rfl⟩
    rcases (occupies_iff hRest hBlock).1 hOccupies with
      ⟨rfl, rfl⟩
    rcases (occupies_iff hRest hBlock').1 hOccupies' with
      ⟨rfl, rfl⟩
    rcases hRest.apart hBlock hBlock' with hEq | hApart
    · subst hEq
      exact absurd rfl hNe
    · omega

/- The sample owns what its chain has allocated. -/
theorem owned_exact_sample :
    ∃ chain,
      sample.allocator.memory.chain
        (SentinelTable.prologue { offset := 0 }) = .ok chain ∧
      ∀ address, sample.Owns address ↔
        ∃ block ∈ chain.blocks,
          block.offset ≠
              SentinelTable.prologue { offset := 0 } ∧
            block.header.allocated = true ∧
            block.offset = address.offset := by
  rcases sample_history with ⟨events, hHistory⟩
  exact (owned_exact hHistory sample_eq.1).2.1

------------------------------------------------------------
-- Freedom from Faults
------------------------------------------------------------

end History

/- A block that is owned can be looked at. -/
theorem Sound.block_ok
    {address : Address}
    (h : client.Sound)
    (hOwned : client.Owns address) :
    ∃ usable span bytes block,
      client.allocator.usableSize address = .ok usable ∧
      client.allocator.payload address = .ok span ∧
      span.length = usable ∧
      client.allocator.readPayload address 0 usable =
        .ok bytes ∧
      client.allocator.block address = .ok block := by
  rcases h.exists_block hOwned with
    ⟨table, view, block, hRest, _, hBlock, rfl⟩
  have hAll : 0 + (block.header.size - doubleWord) ≤
      block.header.size - doubleWord :=
    Nat.le_of_eq (Nat.zero_add _)
  exact ⟨_, _, _, _, hRest.usableSize_eq hBlock,
    hRest.payload_eq hBlock, rfl,
    hRest.readPayload_eq hBlock hAll, hRest.block_eq hBlock⟩

/- The statistics tell the size of the heap and the counters. -/
theorem Sound.statistics_eq
    (h : client.Sound) :
    ∃ freeBytes,
      client.allocator.statistics = .ok {
        heapSize := client.allocator.region.size,
        extensions := client.allocator.extensions,
        allocations := client.allocator.allocations,
        frees := client.allocator.frees,
        freeBytes := freeBytes } := by
  cases hTable : client.allocator.table with
  | none =>
      unfold Allocator.statistics
      rw [hTable]
      exact ⟨0, rfl⟩
  | some table =>
      rcases h.backed table hTable with ⟨view, hRest, _⟩
      exact ⟨view.freeBytes, hRest.statistics_eq⟩

/- The statistics can be looked at. -/
theorem Sound.statistics_ok
    (h : client.Sound) :
    ∃ statistics,
      client.allocator.statistics = .ok statistics := by
  rcases h.statistics_eq with ⟨freeBytes, hStatistics⟩
  exact ⟨_, hStatistics⟩

/- The consistency of the heap can be checked. -/
theorem Sound.checkConsistency_ok
    (h : client.Sound)
    (verbose : Bool) :
    ∃ report,
      (client.allocator.checkConsistency verbose).outcome =
        .ok report :=
  Allocator.checkConsistency_ok
    (fun _ hTable => h.firstBlock_le hTable)
    h.placed.size_lt verbose

namespace History

/-
  No allowed call ends in a fault, and neither does a look at
  a block that is owned, at the statistics, or at the
  consistency of the heap.
-/
theorem never_faults
    (h : History start events client) :
    (∀ call : Call, call.Allowed client →
      client.operations + call.operations < Word.limit →
      ∃ reply next,
        (client.perform call).outcome = .ok (reply, next)) ∧
    (∀ address, client.Owns address →
      ∃ usable span bytes block,
        client.allocator.usableSize address = .ok usable ∧
        client.allocator.payload address = .ok span ∧
        span.length = usable ∧
        client.allocator.readPayload address 0 usable =
          .ok bytes ∧
        client.allocator.block address = .ok block) ∧
    (∃ statistics,
      client.allocator.statistics = .ok statistics) ∧
    ∀ verbose, ∃ report,
      (client.allocator.checkConsistency verbose).outcome =
        .ok report := by
  refine ⟨?_, ?_, h.sound.statistics_ok,
    h.sound.checkConsistency_ok⟩
  · intro call hAllowed hFew
    rcases h.sound.perform_ok hAllowed hFew with
      ⟨reply, next, hOutcome, _⟩
    exact ⟨reply, next, hOutcome⟩
  · intro address hOwns
    exact h.sound.block_ok hOwns

/- The sample may ask for any number of bytes. -/
theorem never_faults_sample :
    ∃ reply next,
      (sample.perform (.allocate (Word.limit - 1))).outcome =
        .ok (reply, next) := by
  have hFew : sample.operations +
      (Call.allocate (Word.limit - 1)).operations <
        Word.limit := by
    rw [sample_eq.2.2]
    decide
  have hSize : Word.limit - 1 < Word.limit := by
    decide
  rcases sample_history with ⟨events, hHistory⟩
  exact (never_faults hHistory).1 (.allocate (Word.limit - 1))
    hSize hFew

end History

end Client

end SegregatedFit
