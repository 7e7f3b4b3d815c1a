import SegregatedFit.Proofs.Client.Guarantees

/-
  What the journal of a history tells of the heap.

  Each event accounts for what its step did, so the journal
  accounts for the whole history: for the counters, for the
  size of the heap, and for the blocks that are in use.

  Key definitions include:
    * `Chain.blocksInUse`

  Key theorems include:
    * `Client.History.accounts`
    * `Client.History.allocations_eq`
    * `Client.History.blockBytes_eq`
    * `Client.History.journal_exact`
-/

namespace SegregatedFit

/- The offsets of the allocated blocks but for the prologue. -/
def Chain.blocksInUse
    (chain : Chain)
    (prologue : Nat) : List Nat :=
  (chain.blocks.filter (fun block =>
    block.offset ≠ prologue && block.header.allocated)).map
      ChainBlock.offset

/- The blocks in use are the allocated ones of the view. -/
theorem HeapView.Stands.blocksInUse_eq
    {view : HeapView}
    {table : SentinelTable}
    {m : Memory}
    (h : view.Stands table m)
    (stop : ChainEnd) :
    Chain.blocksInUse
        { blocks := table.prologueBlock :: view.blocks,
          stop := stop }
        table.prologue =
      view.allocatedOffsets := by
  have hPrologue := table.prologue_eq
  have hFirst := table.firstBlock_eq
  have hBehind : ∀ block ∈ view.blocks,
      (block.offset ≠ table.prologue &&
          block.header.allocated) =
        block.header.allocated := by
    intro block hBlock
    have hBounds := h.heap.bounds (by simpa using hBlock)
    have hNe : block.offset ≠ table.prologue := by
      omega
    rw [decide_eq_true hNe, Bool.true_and]
  unfold Chain.blocksInUse HeapView.allocatedOffsets
  dsimp only
  rw [List.filter_cons_of_neg (by simp [
      SentinelTable.prologueBlock, ChainBlock.ofTag]),
    List.filter_congr hBehind]

namespace Client

variable {start : Allocator}
variable {events : List Event}
variable {client : Client}

namespace History

/- The events of a history account for all that it did. -/
theorem accounts
    (h : History start events client) :
    start.Accounts client.allocator events []
      (client.owned.map Owned.offset) := by
  induction h with
  | start hFresh => exact Allocator.accounts_nothing _ rfl
  | step past allowed few outcome ih =>
      rcases past.sound.perform_ok allowed few with
        ⟨reply, next, hOutcome, _, hAccounts⟩
      rw [outcome] at hOutcome
      cases hOutcome
      exact ih.trans hAccounts

/- A history starts from a fresh allocator. -/
theorem fresh
    (h : History start events client) :
    start.Fresh := by
  induction h with
  | start hFresh => exact hFresh
  | step _ _ _ _ ih => exact ih

/- The operations of a history can be counted in a word. -/
theorem operations_lt
    (h : History start events client) :
    client.operations < Word.limit := by
  induction h with
  | start _ => exact Nat.succ_pos _
  | step past allowed few outcome ih =>
      rw [operations_eq outcome]
      exact few

/- What was allocated was freed or is owned. -/
theorem allocations_eq
    (h : History start events client) :
    client.allocator.allocations =
      client.allocator.frees + client.owned.length := by
  have hFresh := h.fresh
  have hAccounts := h.accounts
  have hAllocations := hAccounts.allocations_eq
  have hFrees := hAccounts.frees_eq
  rw [hFresh.allocations_eq, Nat.zero_add] at hAllocations
  rw [hFresh.frees_eq, Nat.zero_add] at hFrees
  rcases hAccounts.replay_eq [] (List.Perm.refl _) with
    ⟨offsets, hReplay, hPerm⟩
  have hLength := Journal.length_replay hReplay
  rw [hPerm.length_eq, List.length_map, List.length_nil]
    at hLength
  omega

/- A heap has room behind its prologue once it was extended. -/
theorem blockBytes_eq
    (h : History start events client) :
    client.allocator.blockBytes = Journal.growth events ∧
      client.allocator.extensions * minimumBlock ≤
        client.allocator.blockBytes ∧
      (client.allocator.extensions = 0 →
        client.allocator.blockBytes = 0) := by
  have hFresh := h.fresh
  have hAccounts := h.accounts
  have hExtensions := hAccounts.extensions_eq
  have hRoom := hAccounts.blockBytes_eq
  rw [hFresh.extensions_eq, Nat.zero_add] at hExtensions
  rw [Allocator.blockBytes_of_none hFresh.table_eq,
    Nat.zero_add] at hRoom
  rw [hRoom, hExtensions]
  exact ⟨rfl, hAccounts.growth_ge, Journal.growth_of_count⟩

/- A heap that was extended has bytes behind its prologue. -/
theorem firstBlock_lt
    {table : SentinelTable}
    (h : History start events client)
    (hTable : client.allocator.table = some table)
    (hExtended : 0 < client.allocator.extensions) :
    table.firstBlock < client.allocator.memory.size := by
  have hRoom := h.blockBytes_eq.2.1
  rw [Allocator.blockBytes_eq hTable] at hRoom
  have hMinimum : 0 < minimumBlock := by
    decide
  have hPositive := Nat.mul_pos hExtended hMinimum
  omega

/-
  The counters of the statistics are the numbers of events of
  their kind.  The journal can be followed, and leads to the
  blocks in use, which are as many as were allocated and not
  freed.  A heap that is laid out has grown by what the
  journal says, behind its prologue.
-/
theorem journal_exact
    (h : History start events client) :
    (∃ statistics,
      client.allocator.statistics = .ok statistics ∧
      statistics.allocations =
        Journal.count .trace "allocated block" events ∧
      statistics.frees =
        Journal.count .trace "freed block" events ∧
      statistics.extensions =
        Journal.count .debug "extended heap" events ∧
      statistics.allocations =
        statistics.frees + client.owned.length ∧
      ∀ table, client.allocator.table = some table →
        statistics.heapSize =
          table.prologue + doubleWord +
            Journal.growth events) ∧
    ∃ offsets,
      Journal.replay [] events = some offsets ∧
      offsets.Nodup ∧
      offsets.Perm (client.owned.map Owned.offset) ∧
      (client.allocator.table = none → offsets = []) ∧
      ∀ table, client.allocator.table = some table →
        ∃ chain,
          client.allocator.memory.chain table.prologue =
            .ok chain ∧
          offsets.Perm (chain.blocksInUse table.prologue) := by
  have hFresh := h.fresh
  have hAccounts := h.accounts
  have hAllocations := hAccounts.allocations_eq
  have hFrees := hAccounts.frees_eq
  have hExtensions := hAccounts.extensions_eq
  have hRoom := h.blockBytes_eq.1
  rw [hFresh.allocations_eq, Nat.zero_add] at hAllocations
  rw [hFresh.frees_eq, Nat.zero_add] at hFrees
  rw [hFresh.extensions_eq, Nat.zero_add] at hExtensions
  rcases hAccounts.replay_eq [] (List.Perm.refl _) with
    ⟨offsets, hReplay, hPerm⟩
  rcases h.sound.statistics_eq with ⟨freeBytes, hStatistics⟩
  refine ⟨⟨_, hStatistics, hAllocations, hFrees, hExtensions,
    h.allocations_eq, ?_⟩, offsets, hReplay, ?_, hPerm, ?_, ?_⟩
  · intro table hTable
    have hLe := h.sound.firstBlock_le hTable
    rw [Allocator.blockBytes_eq hTable] at hRoom
    change client.allocator.memory.size =
      table.firstBlock + _
    omega
  · rw [hPerm.nodup_iff]
    cases hTable : client.allocator.table with
    | none =>
        rw [h.sound.unowned hTable]
        exact List.nodup_nil
    | some table =>
        rcases h.sound.backed table hTable with
          ⟨view, hRest, hBacked⟩
        rw [hBacked.offsets.nodup_iff]
        exact hRest.stands.nodup_allocatedOffsets
  · intro hTable
    rw [h.sound.unowned hTable] at hPerm
    exact hPerm.eq_nil
  · intro table hTable
    rcases h.sound.backed table hTable with
      ⟨view, hRest, hBacked⟩
    have hWord := hRest.placed.size_lt
    refine ⟨_, hRest.stands.chain_eq (by omega), ?_⟩
    rw [hRest.stands.blocksInUse_eq]
    exact hPerm.trans hBacked.offsets

/- The sample was given its one block, by its only extension. -/
theorem journal_exact_sample :
    ∃ events offsets,
      History sampleStart events sample ∧
      Journal.replay [] events = some offsets ∧
      offsets = [192] := by
  rcases sample_history with ⟨events, hHistory⟩
  rcases (journal_exact hHistory).2 with
    ⟨offsets, hReplay, _, hPerm, _⟩
  rw [sample_eq.2.1] at hPerm
  exact ⟨events, offsets, hHistory, hReplay,
    List.perm_singleton.1 hPerm⟩

end History

end Client

end SegregatedFit
