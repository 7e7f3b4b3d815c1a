import SegregatedFit.Proofs.Client.Steps

/-
  What holds at every point of every history.

  Before its heap is laid out a client owns nothing.  From
  then on its heap is at rest and the allocated blocks back
  its record.  Every allowed call succeeds and keeps this.

  Key definitions include:
    * `Client.Sound`
    * `Allocator.Unclaimed`

  Key theorems include:
    * `Client.Sound.perform_ok`
    * `Client.History.sound`
-/

namespace SegregatedFit

/-
  The region is well placed, no counter is above the number
  of operations, and the heap, once it is laid out, is at
  rest and backs the record.
-/
structure Client.Sound
    (client : Client) : Prop where
  placed : client.allocator.region.WellPlaced
  counted : client.allocator.CountedBy client.operations
  unowned : client.allocator.table = none → client.owned = []
  backed :
    ∀ table, client.allocator.table = some table →
      ∃ view : HeapView,
        client.allocator.AtRest table view ∧
          Backed view.allocatedBlocks client.owned

------------------------------------------------------------
-- Before the Heap is Laid Out
------------------------------------------------------------

namespace Allocator

variable {a : Allocator}
variable {n : Nat}

/-
  Nothing is allocated, and after at most `n` operations the
  heap may or may not be laid out.
-/
structure Unclaimed
    (a : Allocator)
    (n : Nat) : Prop where
  placed : a.region.WellPlaced
  counted : a.CountedBy n
  empty :
    ∀ table, a.table = some table →
      ∃ view : HeapView, a.AtRest table view ∧
        view.allocatedBlocks = []

/- Without a heap nothing is allocated. -/
theorem unclaimed_of_none
    (hTable : a.table = none)
    (hPlaced : a.region.WellPlaced)
    (hCounted : a.CountedBy n) :
    a.Unclaimed n := by
  refine ⟨hPlaced, hCounted, ?_⟩
  intro table hSome
  rw [hTable] at hSome
  cases hSome

/- Without a heap no request is served. -/
theorem allocate_none
    (hTable : a.table = none)
    (size : Nat) :
    (a.allocate size).outcome = .ok (none, a) ∧
      ∀ event ∈ (a.allocate size).events, event.IsRemark := by
  unfold allocate
  by_cases hSize : size = 0
  · rw [if_pos hSize]
    exact ⟨rfl, fun _ hEvent => absurd hEvent List.not_mem_nil⟩
  · rw [if_neg hSize, hTable]
    refine ⟨rfl, ?_⟩
    intro event hEvent
    rcases List.mem_singleton.1 hEvent with rfl
    trivial

/- Without a heap a resize without an address is no other. -/
theorem resize_none
    (hTable : a.table = none)
    (size : Nat) :
    (a.resize none size).outcome = .ok (none, a) ∧
      ∀ event ∈ (a.resize none size).events,
        event.IsRemark := by
  unfold resize
  by_cases hSize : size = 0
  · rw [if_pos hSize]
    exact ⟨rfl, fun _ hEvent => absurd hEvent List.not_mem_nil⟩
  · rw [if_neg hSize]
    exact allocate_none hTable size

/- The heap is laid out without an allocated block, or it is not. -/
theorem perform_init
    (hTable : a.table = none)
    (hPlaced : a.region.WellPlaced)
    (hCounted : a.CountedBy n)
    (hFew : n + 1 < Word.limit) :
    ∃ reply next,
      (a.perform .init).outcome = .ok (reply, next) ∧
      next.Unclaimed (n + 1) ∧
      Client.record [] .init reply = [] ∧
      a.Accounts next (a.perform .init).events [] [] ∧
      next.heapStart % doubleWord = a.heapStart % doubleWord := by
  have hExtensions := hCounted.extensions_le
  have hLater := hCounted.add 1
  have hChunk := Config.validate_eq_ok_iff.1 a.config_valid
  rcases init_cases hTable hPlaced (by omega) with
    hBare | hEmpty | hWhole
  · rcases hBare with
      ⟨_, error, region, _, _, hInit, hRegion, _, hMod⟩
    rw [perform_init_of_error hInit, heapStart_of_none hTable]
    refine ⟨_, _, rfl, unclaimed_of_none hTable hRegion
      ⟨hLater.1, hLater.2, hLater.3⟩, rfl,
      accounts_remarks _ ?_ ⟨rfl, rfl, rfl⟩
        (fun _ hEvent => absurd hEvent List.not_mem_nil), ?_⟩
    · rw [blockBytes_of_none hTable]
      exact blockBytes_of_none hTable
    · have hStart := heapStart_of_none
        (a := { a with region := region }) hTable
      rw [hStart]
      exact hMod
  · rcases hEmpty with
      ⟨error, region, _, hInit, hRegion, _, hStands⟩
    rw [perform_init_of_error hInit, heapStart_of_none hTable]
    refine ⟨_, _, rfl,
      ⟨hRegion, ⟨hLater.1, hLater.2, hLater.3⟩, ?_⟩, rfl,
      accounts_laidOut _ hTable hStands.heap.tiles.stop_eq, rfl⟩
    intro table hSome
    cases hSome
    exact ⟨_, ⟨rfl, hRegion, hStands⟩, rfl⟩
  · rcases hWhole with
      ⟨region, table, rfl, _, hInit, hRegion, _, hSize, hStands⟩
    rw [perform_init_of_ok hInit, heapStart_of_none hTable]
    have hMore : a.extensions + 1 ≤ n + 1 := by
      omega
    refine ⟨_, _, rfl,
      ⟨hRegion, ⟨hMore, hLater.2, hLater.3⟩, ?_⟩, rfl,
      accounts_initialized _ _ hTable hSize hChunk.1, rfl⟩
    intro table' hSome
    cases hSome
    exact ⟨_, ⟨rfl, hRegion, hStands⟩,
      HeapView.allocatedBlocks_grown _ _ _⟩

/-
  An allowed call succeeds before the heap is laid out, and
  leaves the record empty.  Where the heap begins, or would
  begin, moves by whole double words at most.
-/
theorem perform_fresh
    {call : Call}
    (hTable : a.table = none)
    (hPlaced : a.region.WellPlaced)
    (hAllowed : call.Allowed
      { allocator := a, owned := [], operations := n })
    (hCounted : a.CountedBy n)
    (hFew : n + call.operations < Word.limit) :
    ∃ reply next,
      (a.perform call).outcome = .ok (reply, next) ∧
      next.Unclaimed (n + call.operations) ∧
      Client.record [] call reply = [] ∧
      a.Accounts next (a.perform call).events [] [] ∧
      next.heapStart % doubleWord = a.heapStart % doubleWord := by
  have hSame : a.Unclaimed (n + call.operations) :=
    unclaimed_of_none hTable hPlaced
      (hCounted.add call.operations)
  -- Nothing is owned, so no call names an address.
  have hOwns : ∀ address, ¬ Client.Owns
      { allocator := a, owned := [], operations := n }
      address := by
    intro address hOwned
    rcases hOwned with ⟨entry, hEntry, _⟩
    cases hEntry
  cases call with
  | init => exact perform_init hTable hPlaced hCounted hFew
  | allocate size =>
      have hNone := allocate_none hTable size
      rw [perform_allocate hNone.1]
      exact ⟨_, a, rfl, hSame, rfl,
        accounts_remarks _ rfl ⟨rfl, rfl, rfl⟩ hNone.2, rfl⟩
  | free address =>
      cases address with
      | none =>
          exact ⟨.done, a, rfl, hSame, rfl,
            accounts_nothing _ rfl, rfl⟩
      | some address => exact absurd hAllowed (hOwns address)
  | resize address size =>
      cases address with
      | none =>
          have hNone := resize_none hTable size
          rw [perform_resize hNone.1]
          refine ⟨_, a, rfl, hSame, ?_,
            accounts_remarks _ rfl ⟨rfl, rfl, rfl⟩ hNone.2,
            rfl⟩
          cases size with
          | zero => rfl
          | succ size => rfl
      | some address => exact absurd hAllowed.1 (hOwns address)
  | write address position bytes =>
      exact absurd hAllowed.1 (hOwns address)
  | moveBreak displacement =>
      unfold perform
      dsimp only
      cases hMove : a.region.moveBreak displacement with
      | none =>
          exact ⟨.done, a, rfl, hSame, rfl,
            accounts_nothing _ rfl, rfl⟩
      | some region =>
          have hCounted' := hSame.counted
          have hMoved := hPlaced.moveBreak hMove
          have hSize := congrArg Memory.size hMoved.memory_eq
          refine ⟨.done, { a with region := region }, rfl,
            unclaimed_of_none hTable hMoved.placed
              ⟨hCounted'.1, hCounted'.2, hCounted'.3⟩, rfl,
            accounts_nothing _ hSize, ?_⟩
          have hStart := heapStart_of_none
            (a := { a with region := region }) hTable
          rw [hStart, heapStart_of_none hTable]
          exact congrArg (· % doubleWord) hSize

end Allocator

------------------------------------------------------------
-- Histories
------------------------------------------------------------

namespace Client

variable {client next : Client}
variable {call : Call}

/- A client performs what its allocator does and takes a record. -/
theorem perform_eq
    {reply : Reply}
    {a : Allocator}
    (h : (client.allocator.perform call).outcome =
      .ok (reply, a)) :
    client.perform call = {
      events := (client.allocator.perform call).events,
      outcome := .ok (reply, {
        allocator := a,
        owned := record client.owned call reply,
        operations := client.operations + call.operations }) } :=
  Traced.bind_of_silent h rfl

/- The outcome of what a client performs. -/
theorem perform_outcome
    {reply : Reply}
    {a : Allocator}
    (h : (client.allocator.perform call).outcome =
      .ok (reply, a)) :
    (client.perform call).outcome = .ok (reply, {
      allocator := a,
      owned := record client.owned call reply,
      operations := client.operations + call.operations }) :=
  congrArg Traced.outcome (perform_eq h)

/-
  An allowed call of a sound client succeeds and keeps it
  sound, and its events account for what it did.
-/
theorem Sound.perform_ok
    (h : client.Sound)
    (hAllowed : call.Allowed client)
    (hFew :
      client.operations + call.operations < Word.limit) :
    ∃ reply next,
      (client.perform call).outcome = .ok (reply, next) ∧
      next.Sound ∧
      client.allocator.Accounts next.allocator
        (client.perform call).events
        (client.owned.map Owned.offset)
        (next.owned.map Owned.offset) := by
  cases hTable : client.allocator.table with
  | none =>
      have hOwned := h.unowned hTable
      rcases client with ⟨a, owned, n⟩
      dsimp only at hOwned hTable hFew
      subst hOwned
      rcases Allocator.perform_fresh hTable h.placed hAllowed
          h.counted hFew with
        ⟨reply, next, hOutcome, hNext, hRecord, hAccounts, _⟩
      rw [perform_eq hOutcome]
      refine ⟨reply, _, rfl,
        ⟨hNext.placed, hNext.counted, fun _ => hRecord, ?_⟩, ?_⟩
      · intro table hSome
        rcases hNext.empty table hSome with
          ⟨view, hRest, hEmpty⟩
        refine ⟨view, hRest, ?_⟩
        dsimp only
        rw [hRecord, hEmpty]
        exact Backed.nil
      · dsimp only
        rw [hRecord]
        exact hAccounts
  | some table =>
      rcases h.backed table hTable with ⟨view, hRest, hBacked⟩
      rcases client with ⟨a, owned, n⟩
      rcases hRest.perform_ok hBacked hAllowed h.counted hFew
        with
        ⟨reply, next, view', hOutcome, hServes, hCounted,
          hRecord, hAccounts⟩
      have hNextTable := hServes.rest.table_eq
      rw [perform_eq hOutcome]
      refine ⟨reply, _, rfl,
        ⟨hServes.rest.placed, hCounted, ?_, ?_⟩,
        hAccounts.perm hBacked.offsets hRecord.offsets⟩
      · intro hNone
        dsimp only at hNone
        rw [hNextTable] at hNone
        cases hNone
      · intro table' hSome
        dsimp only at hSome
        rw [hNextTable] at hSome
        cases hSome
        exact ⟨view', hServes.rest, hRecord⟩

/- An address that is owned has a block in a heap at rest. -/
theorem Sound.exists_block
    {address : Address}
    (h : client.Sound)
    (hOwned : client.Owns address) :
    ∃ table view block,
      client.allocator.AtRest table view ∧
      Backed view.allocatedBlocks client.owned ∧
      block ∈ view.allocatedBlocks ∧
      address = { offset := block.offset } := by
  cases hTable : client.allocator.table with
  | none =>
      rcases hOwned with ⟨entry, hEntry, _⟩
      rw [h.unowned hTable] at hEntry
      cases hEntry
  | some table =>
      rcases h.backed table hTable with ⟨view, hRest, hBacked⟩
      rcases hBacked.exists_block hOwned with
        ⟨block, hBlock, hAddress⟩
      exact ⟨table, view, block, hRest, hBacked, hBlock,
        hAddress⟩

/- Every view of the heap of a sound client backs its record. -/
theorem Sound.backed_of_rest
    {table : SentinelTable}
    {view : HeapView}
    (h : client.Sound)
    (hRest : client.allocator.AtRest table view) :
    Backed view.allocatedBlocks client.owned := by
  have hWord := hRest.placed.size_lt
  rcases h.backed table hRest.table_eq with
    ⟨view', hRest', hBacked⟩
  have hBlocks := hRest.stands.blocks_unique hRest'.stands
    (by omega)
  unfold HeapView.allocatedBlocks at hBacked ⊢
  rw [hBlocks]
  exact hBacked

/- A sound client is at rest in every view of its heap. -/
theorem Sound.rest_of_describes
    {table : SentinelTable}
    {view : HeapView}
    (h : client.Sound)
    (hTable : client.allocator.table = some table)
    (hView : view.Describes table client.allocator.memory) :
    client.allocator.AtRest table view := by
  rcases h.backed table hTable with ⟨view', hRest, _⟩
  have hWord := hRest.placed.size_lt
  exact ⟨hTable, hRest.placed,
    hRest.stands.of_describes hView (by omega)⟩

/- The heap of a sound client has room for its prologue. -/
theorem Sound.firstBlock_le
    {table : SentinelTable}
    (h : client.Sound)
    (hTable : client.allocator.table = some table) :
    table.firstBlock ≤ client.allocator.memory.size := by
  rcases h.backed table hTable with ⟨view, hRest, _⟩
  exact hRest.stands.heap.firstBlock_le

/- A client that nothing has been asked of is sound. -/
theorem sound_start
    {start : Allocator}
    (h : start.Fresh) :
    Sound
      { allocator := start, owned := [], operations := 0 } where
  placed := h.region_placed
  counted := ⟨Nat.le_of_eq h.extensions_eq,
    Nat.le_of_eq h.allocations_eq, Nat.le_of_eq h.frees_eq⟩
  unowned := fun _ => rfl
  backed := by
    intro table hSome
    dsimp only at hSome
    rw [h.table_eq] at hSome
    cases hSome

/- Histories lead to sound clients only. -/
theorem History.sound
    {start : Allocator}
    {events : List Event}
    (h : History start events client) :
    client.Sound := by
  induction h with
  | start hFresh => exact sound_start hFresh
  | step past allowed few outcome ih =>
      rcases ih.perform_ok allowed few with
        ⟨reply, next, hOutcome, hSound, _⟩
      rw [outcome] at hOutcome
      cases hOutcome
      exact hSound

end Client

end SegregatedFit
