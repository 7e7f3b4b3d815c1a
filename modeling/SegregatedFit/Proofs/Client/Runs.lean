import SegregatedFit.Proofs.Client.Invariant

/-
  How histories begin and go on.

  They begin with any allocator that was just made, on a
  region that is well placed.  Since allowed calls never
  fail, a history goes on with any of them:
  `Client.History.after`.

  Key definitions include:
    * `Client.after`
    * `Client.sample`
    * `Client.wideSplit`

  Key theorems include:
    * `Allocator.fresh_ofConfig`
    * `Client.History.after`
    * `Client.sample_history`
    * `Client.wide_history`
-/

namespace SegregatedFit

------------------------------------------------------------
-- Beginnings
------------------------------------------------------------

namespace Allocator

variable {a : Allocator}
variable {region : Region}

/- Nothing has been asked of an allocator on a new region. -/
theorem fresh_ofRegion
    (h : region.WellPlaced) :
    (ofRegion region).Fresh where
  region_placed := h
  table_eq := rfl
  extensions_eq := rfl
  allocations_eq := rfl
  frees_eq := rfl

/- The same holds with any settings that are accepted. -/
theorem fresh_ofConfig
    {config : Config}
    (hPlaced : region.WellPlaced)
    (h : ofConfig region config = .ok a) :
    a.Fresh := by
  unfold ofConfig at h
  split at h
  · cases h
    exact ⟨hPlaced, rfl, rfl, rfl, rfl⟩
  · cases h

end Allocator

------------------------------------------------------------
-- Histories by Calls
------------------------------------------------------------

namespace Client

variable {client : Client}

/- The client after a call, the same one if the call fails. -/
def after
    (client : Client)
    (call : Call) : Client :=
  match (client.perform call).outcome with
  | .ok (_, next) => next
  | .error _ => client

/- A call that succeeds leads to the client after it. -/
theorem after_eq
    {call : Call}
    {reply : Reply}
    {next : Client}
    (h : (client.perform call).outcome = .ok (reply, next)) :
    client.after call = next := by
  unfold after
  rw [h]

/- The reply to a call, if the call succeeds. -/
def replyTo
    (client : Client)
    (call : Call) : Option Reply :=
  match (client.perform call).outcome with
  | .ok (reply, _) => some reply
  | .error _ => none

/- A call that is replied to succeeds. -/
theorem perform_of_replyTo
    {call : Call}
    {reply : Reply}
    (h : client.replyTo call = some reply) :
    (client.perform call).outcome =
      .ok (reply, client.after call) := by
  unfold replyTo at h
  cases hOutcome : (client.perform call).outcome with
  | error fault =>
      rw [hOutcome] at h
      cases h
  | ok result =>
      rw [hOutcome] at h
      cases h
      rw [after_eq hOutcome]

/- A call that succeeds is counted. -/
theorem operations_eq
    {call : Call}
    {reply : Reply}
    {next : Client}
    (h : (client.perform call).outcome = .ok (reply, next)) :
    next.operations = client.operations + call.operations := by
  unfold perform at h
  rcases Traced.outcome_bind_eq_ok_iff.1 h with
    ⟨result, _, hNext⟩
  cases hNext
  rfl

/- A history goes on with any allowed call. -/
theorem History.after
    {start : Allocator}
    (h : ∃ events, History start events client)
    (call : Call)
    (allowed : call.Allowed client)
    (few :
      client.operations + call.operations < Word.limit) :
    (∃ events, History start events (client.after call)) ∧
      (client.after call).operations =
        client.operations + call.operations := by
  rcases h with ⟨events, past⟩
  rcases past.sound.perform_ok allowed few with
    ⟨reply, next, hOutcome, _⟩
  rw [after_eq hOutcome]
  exact ⟨⟨_, past.step allowed few hOutcome⟩,
    operations_eq hOutcome⟩

/- A write gives and takes nothing. -/
theorem owned_after_write
    (address : Address)
    (position : Nat)
    (bytes : List UInt8) :
    (client.after (.write address position bytes)).owned =
      client.owned := by
  unfold after
  cases hOutcome : (client.allocator.perform
      (.write address position bytes)).outcome with
  | error fault =>
      unfold perform
      rw [Traced.bind_of_error hOutcome]
  | ok result =>
      rw [perform_outcome hOutcome]
      rfl

------------------------------------------------------------
-- A Sample
------------------------------------------------------------

/- An allocator that grows by least blocks. -/
def sampleStart : Allocator where
  region := {
    memory := Memory.empty,
    base := 4096,
    source := .reservation 256,
    refusals := fun _ => none,
    growths := 0 }
  config := { Config.default with
    chunkSize := minimumBlock,
    chunkSize_lt := by decide }
  config_valid := rfl
  table := none
  extensions := 0
  allocations := 0
  frees := 0

/- A client that laid out its heap and holds a block. -/
def sample : Client :=
  (({ allocator := sampleStart, owned := [], operations := 0 } :
      Client).after .init).after (.allocate 8)

/- Nothing has been asked of it. -/
theorem sampleStart_fresh :
    sampleStart.Fresh := by
  have hPlaced : 0 ≤ 256 ∧ 4096 + 256 < Word.limit := by
    decide
  exact ⟨⟨by decide, by decide, hPlaced⟩, rfl, rfl, rfl, rfl⟩

/- The sample has a history. -/
theorem sample_history :
    ∃ events, History sampleStart events sample := by
  have hSize : 8 < Word.limit := by
    decide
  have hStart : ∃ events, History sampleStart events
      { allocator := sampleStart, owned := [],
        operations := 0 } :=
    ⟨[], .start sampleStart_fresh⟩
  have hInit := History.after hStart .init trivial (by decide)
  have hBlock := History.after hInit.1 (.allocate 8) hSize
    (by rw [hInit.2]; decide)
  exact hBlock.1

/- One evaluation tells all that is asked of the sample. -/
theorem sample_evaluates :
    (sample.allocator.table = some { offset := 0 } ∧
      sample.owned =
        [{ address := { offset := 192 }, requested := 8 }] ∧
      sample.operations = 2) ∧
    sample.allocator.usableSize { offset := 192 } =
      .ok 16 := by
  decide +kernel

/- What the sample consists of. -/
theorem sample_eq :
    sample.allocator.table = some { offset := 0 } ∧
      sample.owned =
        [{ address := { offset := 192 }, requested := 8 }] ∧
      sample.operations = 2 :=
  sample_evaluates.1

/- The sample may be asked for one more operation. -/
theorem sample_few :
    sample.operations + 1 < Word.limit := by
  rw [sample_eq.2.2]
  decide

/- The sample owns its block. -/
theorem sample_owns :
    sample.Owns { offset := 192 } := by
  unfold Owns
  rw [sample_eq.2.1]
  exact ⟨_, List.mem_cons_self, rfl⟩

/- Two words fit into the block of the sample. -/
theorem sample_usableSize :
    sample.allocator.usableSize { offset := 192 } = .ok 16 :=
  sample_evaluates.2

------------------------------------------------------------
-- A Sample with a Rest
------------------------------------------------------------

/- An allocator that grows by two least blocks. -/
def wideStart : Allocator :=
  { sampleStart with
    region :=
      { sampleStart.region with source := .reservation 512 },
    config := { Config.default with
      chunkSize := 64,
      chunkSize_lt := by decide },
    config_valid := rfl }

/- A client that laid out its heap and holds nothing. -/
def wide : Client :=
  ({ allocator := wideStart, owned := [], operations := 0 } :
    Client).after .init

/- The same client after a request for half of its block. -/
def wideSplit : Client :=
  wide.after (.allocate 8)

/- Both have a history. -/
theorem wide_history :
    (∃ events, History wideStart events wide) ∧
    (∃ events, History wideStart events wideSplit) ∧
    wide.operations = 1 ∧ wideSplit.operations = 2 := by
  have hPlaced : 0 ≤ 512 ∧ 4096 + 512 < Word.limit := by
    decide
  have hSize : 8 < Word.limit := by
    decide
  have hFresh : wideStart.Fresh :=
    ⟨⟨by decide, by decide, hPlaced⟩, rfl, rfl, rfl, rfl⟩
  have hStart : ∃ events, History wideStart events
      { allocator := wideStart, owned := [],
        operations := 0 } :=
    ⟨[], .start hFresh⟩
  have hWide := History.after hStart .init trivial (by decide)
  have hCount : wide.operations = 1 :=
    hWide.2
  have hSplit := History.after hWide.1 (.allocate 8) hSize
    (by rw [hWide.2]; decide)
  exact ⟨hWide.1, hSplit.1, hCount, hSplit.2.trans
    (by rw [hWide.2]; rfl)⟩

/- Both may be asked for one more operation. -/
theorem wide_few :
    wide.operations + 1 < Word.limit ∧
      wideSplit.operations + 1 < Word.limit := by
  rcases wide_history with ⟨_, _, hWide, hSplit⟩
  rw [hWide, hSplit]
  decide

/- What they consist of. -/
theorem wide_eq :
    (wide.allocator.table = some { offset := 0 } ∧
      wide.owned = [] ∧
      wide.allocator.region.size = 256 ∧
      wide.allocator.memory.chain
        (SentinelTable.prologue { offset := 0 }) = .ok {
          blocks := [
            SentinelTable.prologueBlock { offset := 0 },
            .ofTag 192 { size := 64, allocated := false }],
          stop := .sizeZero 256 Tag.epilogue }) ∧
    wideSplit.allocator.table = some { offset := 0 } ∧
    wideSplit.owned =
      [{ address := { offset := 192 }, requested := 8 }] ∧
    wideSplit.allocator.region.size = 256 ∧
    wideSplit.allocator.memory.chain
      (SentinelTable.prologue { offset := 0 }) = .ok {
        blocks := [
          SentinelTable.prologueBlock { offset := 0 },
          .ofTag 192 { size := 32, allocated := true },
          .ofTag 224 { size := 32, allocated := false }],
        stop := .sizeZero 256 Tag.epilogue } := by
  decide +kernel

/- Before the request there is one block. -/
theorem wide_blocks
    {view : HeapView}
    (h : view.Describes { offset := 0 } wide.allocator.memory) :
    view.blocks =
      [.ofTag 192 { size := 64, allocated := false }] := by
  rcases wide_eq.1 with ⟨_, _, hSize, hChain⟩
  rw [← Allocator.size_memory] at hSize
  exact h.blocks_eq_of_chain (by rw [hSize]; decide) hChain

/- It is free. -/
theorem wide_freeBlocks
    {view : HeapView}
    (h : view.Describes { offset := 0 } wide.allocator.memory) :
    view.freeBlocks =
      [.ofTag 192 { size := 64, allocated := false }] := by
  unfold HeapView.freeBlocks
  rw [wide_blocks h]
  rfl

/- Afterwards there are two halves of it. -/
theorem wideSplit_blocks
    {view : HeapView}
    (h : view.Describes { offset := 0 }
      wideSplit.allocator.memory) :
    view.blocks = [
      .ofTag 192 { size := 32, allocated := true },
      .ofTag 224 { size := 32, allocated := false }] := by
  rcases wide_eq.2 with ⟨_, _, hSize, hChain⟩
  rw [← Allocator.size_memory] at hSize
  exact h.blocks_eq_of_chain (by rw [hSize]; decide) hChain

/- The second half is free. -/
theorem wideSplit_freeBlocks
    {view : HeapView}
    (h : view.Describes { offset := 0 }
      wideSplit.allocator.memory) :
    view.freeBlocks =
      [.ofTag 224 { size := 32, allocated := false }] := by
  unfold HeapView.freeBlocks
  rw [wideSplit_blocks h]
  rfl

/- The first half is owned. -/
theorem wideSplit_owns :
    wideSplit.Owns { offset := 192 } := by
  unfold Owns
  rw [wide_eq.2.2.1]
  exact ⟨_, List.mem_cons_self, rfl⟩

/- The owned half comes first. -/
theorem wideSplit_cut
    {front back : List ChainBlock}
    {block : ChainBlock}
    (hCut : [
      .ofTag 192 { size := 32, allocated := true },
      .ofTag 224 { size := 32, allocated := false }] =
        front ++ block :: back)
    (hOffset : block.offset = 192) :
    front = [] ∧
      block = .ofTag 192 { size := 32, allocated := true } ∧
      back =
        [.ofTag 224 { size := 32, allocated := false }] := by
  cases front with
  | nil =>
      cases hCut
      exact ⟨rfl, rfl, rfl⟩
  | cons first front =>
      have hLast : block ∈ [
          ChainBlock.ofTag 224
            { size := 32, allocated := false }] := by
        rw [(List.cons.inj hCut).2]
        exact List.mem_append_right _ List.mem_cons_self
      rw [List.mem_singleton.1 hLast] at hOffset
      cases hOffset

end Client

end SegregatedFit
