import SegregatedFit.Proofs.Client.Bookkeeping

/-
  Laying out a heap although growths are refused.

  The first growth that is refused decides what becomes of
  the heap, whatever earlier attempts left behind.  A heap
  that lacks only its first chunk has no block, and the first
  growth that is granted later gives it one.

  Key theorems include:
    * `HeapView.Stands.empty_of_size`
    * `Allocator.AtRest.allocate_first`
    * `Client.History.init_decided`
-/

namespace SegregatedFit

------------------------------------------------------------
-- Heaps without Blocks
------------------------------------------------------------

namespace HeapView.Stands

variable {view : HeapView}
variable {table : SentinelTable}
variable {m : Memory}

/- Without bytes behind the prologue there are no blocks. -/
theorem blocks_of_size
    (h : view.Stands table m)
    (hSize : m.size = table.firstBlock) :
    view.blocks = [] := by
  have hStop := h.heap.tiles.stop_eq
  simp only [List.append_nil] at hStop
  cases hBlocks : view.blocks with
  | nil => rfl
  | cons block rest =>
      have hMem : block ∈ view.blocks := by
        rw [hBlocks]
        exact List.mem_cons_self
      have hBounds := h.heap.bounds (by simpa using hMem)
      have hMinimum : 0 < minimumBlock := by
        decide
      omega

/- A heap without bytes behind the prologue lists nothing. -/
theorem empty_of_size
    (h : view.Stands table m)
    (hSize : m.size = table.firstBlock) :
    HeapView.empty.Stands table m := by
  have hBlocks := h.blocks_of_size hSize
  have hLists : ∀ c, c < SizeClass.count →
      view.lists c = [] := by
    intro c hc
    rw [List.eq_nil_iff_forall_not_mem]
    intro node hNode
    rcases (h.heap.mem_list_iff c hc node).1 hNode with
      ⟨block, hBlock, _⟩
    rw [hBlocks] at hBlock
    exact absurd hBlock List.not_mem_nil
  have hHeap := h.heap
  rw [hBlocks] at hHeap
  refine ⟨⟨hHeap.prologue, hHeap.epilogue, hHeap.tiles,
    hHeap.tagged, hHeap.roomy, ?_, ?_, ?_⟩, trivial⟩
  · intro c hc
    have hRing := h.heap.ring c hc
    rw [hLists c hc] at hRing
    exact hRing
  · intro c _
    exact List.nodup_nil
  · intro c hc node
    have hIff := hHeap.mem_list_iff c hc node
    rw [hLists c hc] at hIff
    exact hIff

end HeapView.Stands

/-
  If the heap has no block, a growth that is granted gives it
  one, and a request is served where the heap ended.
-/
theorem Allocator.AtRest.allocate_first
    {a : Allocator}
    {table : SentinelTable}
    {size adjusted offset : Nat}
    (h : a.AtRest table HeapView.empty)
    (hSize : size ≠ 0)
    (hAdjusted :
      Request.blockSize? (Request.rounded size) =
        .ok (some adjusted))
    (hGrow :
      (a.region.grow (max adjusted a.config.chunkSize)).1 =
        .ok offset)
    (hExtensions : a.extensions + 1 < Word.limit)
    (hAllocations : a.allocations + 1 < Word.limit) :
    ∃ next,
      (a.allocate size).outcome =
        .ok (some { offset := a.region.size }, next) := by
  rw [Request.blockSize?_eq] at hAdjusted
  by_cases hWord : Request.rounded size + 2 * doubleWord <
      Word.limit
  · rw [if_pos hWord] at hAdjusted
    cases hAdjusted
    have hNone : HeapView.empty.firstFit
        (Request.sizeFor (Request.rounded size)) = none := by
      unfold HeapView.firstFit
      rw [List.findSome?_eq_none_iff]
      intro c _
      rfl
    rcases h.allocate_grow hSize hWord rfl rfl hNone rfl
        hExtensions hAllocations with hBad | hGood
    · rcases hBad with ⟨error, _, _, _, hRefused⟩
      rw [hRefused] at hGrow
      cases hGrow
    · rcases hGood with ⟨_, _, _, _, _, _, hAllocate, _⟩
      exact ⟨_, congrArg Traced.outcome hAllocate⟩
  · rw [if_neg hWord] at hAdjusted
    cases hAdjusted

------------------------------------------------------------
-- Histories
------------------------------------------------------------

namespace Client.History

variable {start : Allocator}
variable {events : List Event}
variable {client : Client}
variable {table : SentinelTable}

/- A heap that is not laid out was never extended. -/
theorem extensions_of_none
    (h : History start events client)
    (hTable : client.allocator.table = none) :
    client.allocator.extensions = 0 := by
  have hRoom := h.blockBytes_eq.2.1
  rw [Allocator.blockBytes_of_none hTable,
    Nat.le_zero] at hRoom
  exact (Nat.mul_eq_zero.1 hRoom).resolve_right (by decide)

/- A heap that was never extended has no block. -/
theorem rest_of_unextended
    (h : History start events client)
    (hTable : client.allocator.table = some table)
    (hNever : client.allocator.extensions = 0) :
    client.allocator.AtRest table HeapView.empty := by
  rcases h.sound.backed table hTable with ⟨view, hRest, _⟩
  have hLe := h.sound.firstBlock_le hTable
  have hRoom := h.blockBytes_eq.2.2 hNever
  rw [Allocator.blockBytes_eq hTable] at hRoom
  refine ⟨hTable, hRest.placed, hRest.stands.empty_of_size ?_⟩
  change client.allocator.memory.size = table.firstBlock
  omega

/-
  The first growth that is refused decides what a request to
  lay out the heap does.

  A heap that is laid out stays as it is.  If the table or
  the frame is refused, the heap is not laid out.  If only
  the first chunk is refused, the heap is laid out and has no
  block.  Otherwise it has one free block.  The table stands
  where the region ended.

  As long as a heap was never extended it has no block, and
  the next request for which a growth is granted is served
  where the heap ended.
-/
theorem init_decided
    (h : History start events client)
    (hFew : client.operations + 1 < Word.limit) :
    (∀ table, client.allocator.table = some table →
      client.allocator.init =
        pure (.error .alreadyInitialized, client.allocator)) ∧
    (client.allocator.table = none →
      ∃ table : SentinelTable,
        table.offset = client.allocator.region.size ∧
        match client.allocator.region.firstRefusal
          client.allocator.layoutGrowths with
        | none =>
            ∃ next, ∃ view : HeapView,
              client.allocator.init.outcome =
                .ok (.ok (), next) ∧
              next.table = some table ∧
              view.Describes table next.memory ∧
              view.blocks = [
                .ofTag table.firstBlock {
                  size := client.allocator.config.chunkSize,
                  allocated := false }]
        | some (2, error) =>
            ∃ next,
              client.allocator.init =
                pure (.error error, next) ∧
              next.table = some table ∧
              next.extensions = 0 ∧
              HeapView.empty.Describes table next.memory
        | some (_, error) =>
            ∃ next,
              client.allocator.init =
                pure (.error error, next) ∧
              next.table = none) ∧
    ∀ table, client.allocator.table = some table →
      client.allocator.extensions = 0 →
        HeapView.empty.Describes table
          client.allocator.memory ∧
        ∀ size adjusted offset,
          size ≠ 0 →
          Request.blockSize? (Request.rounded size) =
            .ok (some adjusted) →
          (client.allocator.region.grow (max adjusted
            client.allocator.config.chunkSize)).1 =
              .ok offset →
          ∃ next,
            (client.allocator.allocate size).outcome =
              .ok (some { offset := client.allocator.region.size },
                next) := by
  have hCounted := h.sound.counted
  have hExtensions := hCounted.extensions_le
  have hAllocations := hCounted.allocations_le
  refine ⟨fun table hTable => Allocator.init_again hTable,
    ?_, ?_⟩
  · intro hTable
    refine ⟨{ offset := client.allocator.region.size }, rfl, ?_⟩
    rcases Allocator.init_cases hTable h.sound.placed
        (by omega) with hBare | hEmpty | hWhole
    · rcases hBare with
        ⟨index, error, _, hFirst, hIndex, hInit, _⟩
      rw [hFirst]
      rcases (by omega : index = 0 ∨ index = 1) with rfl | rfl
      · exact ⟨_, hInit, hTable⟩
      · exact ⟨_, hInit, hTable⟩
    · rcases hEmpty with
        ⟨_, _, hFirst, hInit, _, _, hStands⟩
      rw [hFirst]
      exact ⟨_, hInit, rfl, h.extensions_of_none hTable,
        (HeapView.stands_iff.1 hStands).1⟩
    · rcases hWhole with
        ⟨_, _, rfl, hFirst, hInit, _, _, _, hStands⟩
      rw [hFirst]
      exact ⟨_, _, congrArg Traced.outcome hInit, rfl,
        (HeapView.stands_iff.1 hStands).1, rfl⟩
  · intro table hTable hNever
    have hRest := h.rest_of_unextended hTable hNever
    refine ⟨(HeapView.stands_iff.1 hRest.stands).1, ?_⟩
    intro size adjusted offset hSize hAdjusted hGrow
    exact hRest.allocate_first hSize hAdjusted hGrow
      (by omega) (by omega)

end Client.History

namespace Client

/-
  A client whose region turns down the first frame and the
  first chunk.
-/
def reluctant : Client where
  allocator := { sampleStart with
    region := { sampleStart.region with
      source := .reservation 512,
      refusals := fun n =>
        if n = 1 ∨ n = 4 then some .outOfMemory else none } }
  owned := []
  operations := 0

/- The same client after its first attempt. -/
def reluctantOnce : Client :=
  reluctant.after .init

/- The same client after its second attempt. -/
def reluctantTwice : Client :=
  reluctantOnce.after .init

/- All three have a history. -/
theorem reluctant_history :
    (∃ events, History reluctant.allocator events reluctant) ∧
    (∃ events,
      History reluctant.allocator events reluctantOnce) ∧
    ∃ events,
      History reluctant.allocator events reluctantTwice := by
  have hPlaced : 0 ≤ 512 ∧ 4096 + 512 < Word.limit := by
    decide
  have hFresh : reluctant.allocator.Fresh :=
    ⟨⟨by decide, by decide, hPlaced⟩, rfl, rfl, rfl, rfl⟩
  have hStart : ∃ events,
      History reluctant.allocator events reluctant :=
    ⟨[], .start hFresh⟩
  have hOnce := History.after hStart .init trivial (by decide)
  have hTwice := History.after hOnce.1 .init trivial
    (by rw [hOnce.2]; decide)
  exact ⟨hStart, hOnce.1, hTwice.1⟩

/- Which growths are refused, and where that leads. -/
theorem reluctant_eq :
    (reluctant.allocator.region.firstRefusal
        reluctant.allocator.layoutGrowths =
      some (1, .outOfMemory 32) ∧
    reluctantOnce.operations = 1 ∧
    reluctantOnce.allocator.table = none ∧
    reluctantOnce.allocator.region.size = 160 ∧
    reluctantOnce.allocator.region.firstRefusal
        reluctantOnce.allocator.layoutGrowths =
      some (2, .outOfMemory 32)) ∧
    reluctantTwice.operations = 2 ∧
    reluctantTwice.allocator.table = some { offset := 160 } ∧
    reluctantTwice.allocator.extensions = 0 ∧
    reluctantTwice.allocator.region.size = 352 ∧
    (reluctantTwice.allocator.region.grow (max minimumBlock
      reluctantTwice.allocator.config.chunkSize)).1 =
        .ok 352 := by
  decide +kernel

/-
  The frame is refused, then the chunk, and then a request is
  served behind the second frame.
-/
theorem History.init_decided_reluctant :
    (∃ next,
      reluctant.allocator.init =
        pure (.error (.outOfMemory 32), next) ∧
      next.table = none) ∧
    (∃ table next,
      reluctantOnce.allocator.init =
        pure (.error (.outOfMemory 32), next) ∧
      table.offset = 160 ∧
      next.table = some table ∧
      next.extensions = 0 ∧
      HeapView.empty.Describes table next.memory) ∧
    ∃ next,
      (reluctantTwice.allocator.allocate 8).outcome =
        .ok (some { offset := 352 }, next) := by
  rcases reluctant_history with
    ⟨⟨_, hStart⟩, ⟨_, hOnce⟩, ⟨_, hTwice⟩⟩
  rcases reluctant_eq with
    ⟨⟨hFrame, hCount, hTable, hOffset, hChunk⟩, hCount',
      hTable', hNever, hSize, hGrow⟩
  refine ⟨?_, ?_, ?_⟩
  · have hFirst := (init_decided hStart (by decide)).2.1 rfl
    rw [hFrame] at hFirst
    rcases hFirst with ⟨_, _, hInit⟩
    exact hInit
  · have hSecond := (init_decided hOnce
      (by rw [hCount]; decide)).2.1 hTable
    rw [hChunk] at hSecond
    rcases hSecond with ⟨table, hStart, next, hInit, hNext⟩
    exact ⟨table, next, hInit, hStart.trans hOffset, hNext⟩
  · have hAdjusted : Request.blockSize? (Request.rounded 8) =
        .ok (some minimumBlock) := by
      decide
    have hLast := init_decided hTwice (by rw [hCount']; decide)
    rcases hLast.2.2 _ hTable' hNever with ⟨_, hServes⟩
    have hServed := hServes 8 minimumBlock 352 (by decide)
      hAdjusted hGrow
    rw [hSize] at hServed
    exact hServed

end Client

end SegregatedFit
