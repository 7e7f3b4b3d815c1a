import SegregatedFit.Proofs.Client.Policy
import SegregatedFit.Proofs.Client.Resizing
import SegregatedFit.Proofs.Client.Serving

/-
  What can be served once an address was freed.

  The freed block is one free block with those next to it,
  and the search finds every free block that is large enough.
  So whatever fitted into the block is served again, although
  the region may not grow any more.

  Key definitions include:
    * `Allocator.GrantsAsIs`
    * `Client.Retains`

  Key theorems include:
    * `Allocator.AtRest.free_grants`
    * `Client.Sound.usableSize_kept`
    * `Client.Retains.usableSize_eq`
    * `Client.History.free_recovers`
-/

namespace SegregatedFit

------------------------------------------------------------
-- Freed Blocks
------------------------------------------------------------

/- A block that is taken back is part of a free block. -/
theorem HeapView.TakesBack.exists_free
    {view next : HeapView}
    {table : SentinelTable}
    {m : Memory}
    {block : ChainBlock}
    (h : view.TakesBack next block.offset)
    (hStands : view.Stands table m)
    (hBlock : block ∈ view.blocks) :
    ∃ merged ∈ next.freeBlocks,
      block.header.size ≤ merged.header.size := by
  rcases h with ⟨front, found, back, hBlocks, _, hOffset, rfl⟩
  have hFound : found ∈ view.blocks := by
    rw [hBlocks]
    exact List.mem_append_right _ List.mem_cons_self
  have hSame : found = block :=
    hStands.heap.eq_of_offset_eq (by simpa using hFound)
      (by simpa using hBlock) hOffset
  subst hSame
  refine ⟨_, HeapView.mem_freeBlocks_iff.2
    ⟨List.mem_append_right _ List.mem_cons_self, rfl⟩, ?_⟩
  change found.header.size ≤ extent (_ ++ _ :: _)
  unfold extent
  rw [List.map_append, List.sum_append, List.map_cons,
    List.sum_cons]
  dsimp only [ChainBlock.ofTag]
  omega

namespace Allocator

/-
  A request gets an address, and the region is not asked to
  grow for it.
-/
def GrantsAsIs
    (a : Allocator)
    (size : Nat) : Prop :=
  ∃ target next,
    (a.allocate size).outcome = .ok (some target, next) ∧
    a.region.SameButBytes next.region ∧
    next.region.growths = a.region.growths

namespace AtRest

variable {a next : Allocator}
variable {table : SentinelTable}
variable {view : HeapView}
variable {block : ChainBlock}

/-
  After a block was freed, all requests are granted whose
  blocks are not larger.
-/
theorem free_grants
    (h : a.AtRest table view)
    (hBlock : block ∈ view.allocatedBlocks)
    (hAllocations : a.allocations + 1 < Word.limit)
    (hFrees : a.frees + 1 < Word.limit) :
    ∃ freed,
      (a.free (some { offset := block.offset })).outcome =
        .ok freed ∧
      ∀ size adjusted, size ≠ 0 →
        Request.blockSize? (Request.rounded size) =
          .ok (some adjusted) →
        adjusted ≤ block.header.size →
        freed.GrantsAsIs size := by
  rcases h.free_ok hBlock hFrees with
    ⟨region, view', hFree, _, hTakes, hBecomes⟩
  let freed : Allocator :=
    { a with region := region, frees := a.frees + 1 }
  have hRest : freed.AtRest table view' :=
    h.of_becomes rfl hBecomes
  refine ⟨freed, congrArg Traced.outcome hFree, ?_⟩
  intro size adjusted hSize hAdjusted hLe
  rcases hTakes.exists_free h.stands
      (HeapView.mem_allocatedBlocks_iff.1 hBlock).1 with
    ⟨merged, hMerged, hLarge⟩
  rcases hRest.allocate_listed hSize hAdjusted
      ⟨merged, hMerged, Nat.le_trans hLe hLarge⟩
      hAllocations with
    ⟨bp, last, _, hOutcome, hSame⟩
  exact ⟨_, last, hOutcome, hSame, hSame.growths_eq⟩

/- The block of an address has the size it was asked for with. -/
theorem adjusted_le_of_allocate
    {address : Address}
    {size : Nat}
    (h : a.AtRest table view)
    (hOutcome : (a.allocate size).outcome =
      .ok (some address, next))
    (hExtensions : a.extensions + 1 < Word.limit)
    (hAllocations : a.allocations + 1 < Word.limit) :
    ∃ adjusted usable,
      Request.blockSize? (Request.rounded size) =
        .ok (some adjusted) ∧
      next.usableSize address = .ok usable ∧
      adjusted ≤ usable + doubleWord := by
  rcases h.allocate_served hOutcome hExtensions hAllocations
    with
    ⟨adjusted, ready, middle, front, block, back, hAdjusted,
      rfl, hServed⟩
  have hPlaced : block.handedOut adjusted ∈
      (HeapView.carve front block back middle.lists
        adjusted).allocatedBlocks :=
    HeapView.mem_allocatedBlocks_iff.2
      ⟨List.mem_append_right _ List.mem_cons_self, rfl⟩
  have hLe := ChainBlock.le_size_handedOut hServed.fits
  have hUsable := hServed.next_rest.usableSize_eq hPlaced
  exact ⟨adjusted, _, hAdjusted, hUsable, by omega⟩

end AtRest

end Allocator

------------------------------------------------------------
-- Addresses That Are Retained
------------------------------------------------------------

namespace Client

variable {client next : Client}
variable {call : Call}
variable {reply : Reply}
variable {address : Address}

/- What a client owns after a call is what it records. -/
theorem owned_eq
    (h : (client.perform call).outcome = .ok (reply, next)) :
    next.owned = record client.owned call reply := by
  unfold perform at h
  rcases Traced.outcome_bind_eq_ok_iff.1 h with
    ⟨result, _, hNext⟩
  cases hNext
  rfl

/- What a request is given is what the allocator gives. -/
theorem allocate_of_perform
    {size : Nat}
    (h : (client.perform (.allocate size)).outcome =
      .ok (.address (some address), next)) :
    (client.allocator.allocate size).outcome =
      .ok (some address, next.allocator) := by
  unfold perform Allocator.perform at h
  rcases Traced.outcome_bind_eq_ok_iff.1 h with
    ⟨⟨reply, a⟩, hPerform, hNext⟩
  rcases Traced.outcome_bind_eq_ok_iff.1 hPerform with
    ⟨⟨target, b⟩, hAllocate, hReply⟩
  cases hReply
  cases hNext
  exact hAllocate

/- What is disowned is no longer recorded. -/
theorem not_mem_disown
    {owned : List Owned}
    {entry : Owned}
    (h : entry ∈ disown owned (some address)) :
    entry.address ≠ address := by
  have hNe := of_decide_eq_true (List.mem_filter.1 h).2
  intro hEq
  exact hNe (congrArg some hEq)

namespace Sound

/-
  The block of an address has the size that the request was
  adjusted to, at least.
-/
theorem adjusted_le_of_allocate
    {size : Nat}
    {a : Allocator}
    (h : client.Sound)
    (hOutcome : (client.allocator.allocate size).outcome =
      .ok (some address, a))
    (hFew : client.operations + 1 < Word.limit) :
    ∃ adjusted usable,
      Request.blockSize? (Request.rounded size) =
        .ok (some adjusted) ∧
      a.usableSize address = .ok usable ∧
      adjusted ≤ usable + doubleWord := by
  have hExtensions := h.counted.extensions_le
  have hAllocations := h.counted.allocations_le
  cases hTable : client.allocator.table with
  | none =>
      rw [(Allocator.allocate_none hTable size).1] at hOutcome
      cases hOutcome
  | some table =>
      rcases h.backed table hTable with ⟨view, hRest, _⟩
      exact hRest.adjusted_le_of_allocate hOutcome (by omega)
        (by omega)

/- Where bytes are written, the usable size stays the same. -/
theorem usableSize_write
    {position : Nat}
    {bytes : List UInt8}
    (h : client.Sound)
    (hAllowed :
      (Call.write address position bytes).Allowed client)
    (hOutcome :
      (client.perform (.write address position bytes)).outcome =
        .ok (reply, next)) :
    next.allocator.usableSize address =
      client.allocator.usableSize address := by
  rcases hAllowed with ⟨hOwned, usable, hUsable, hInside⟩
  rcases h.exists_block hOwned with
    ⟨table, view, block, hRest, hBacked, hBlock, rfl⟩
  rcases hRest.write_owned hBacked hOwned hUsable hInside with
    ⟨region, hWrite, _, hServes⟩
  rw [perform_outcome (congrArg Traced.outcome
    (Allocator.perform_write hWrite))] at hOutcome
  cases hOutcome
  rw [hRest.usableSize_eq hBlock,
    hServes.rest.usableSize_eq hBlock]

/- An address that outlives a resize has its usable size kept. -/
theorem usableSize_resize
    {size : Nat}
    (h : client.Sound)
    (hOwned : client.Owns address)
    (hFew : client.operations + 1 < Word.limit)
    (hOutcome :
      (client.perform (.resize (some address) size)).outcome =
        .ok (reply, next))
    (hStill : next.Owns address) :
    next.allocator.usableSize address =
      client.allocator.usableSize address := by
  have hRecord := owned_eq hOutcome
  rcases hStill with ⟨entry, hEntry, hAddress⟩
  rw [hRecord] at hEntry
  by_cases hSize : size = 0
  · subst hSize
    exact absurd hAddress (not_mem_disown hEntry)
  rcases h.exists_block hOwned with
    ⟨_, _, block, hRest, _, hBlock, rfl⟩
  have hUsable := hRest.usableSize_eq hBlock
  rcases Nat.lt_or_ge (block.header.size - doubleWord) size with
    hLarge | hFits
  · rcases h.resize_moves hOwned hUsable hSize hLarge hFew with
      hBad | hGood
    · -- Nothing was touched but the program break.
      rcases hBad with ⟨_, hResize, ⟨source, growths, rfl, _⟩⟩
      rw [perform_outcome (congrArg Traced.outcome
        (Allocator.perform_resize hResize))] at hOutcome
      cases hOutcome
      rfl
    · rcases hGood with ⟨target, _, hResize, hMoves⟩
      rw [perform_outcome (congrArg Traced.outcome
        (Allocator.perform_resize hResize))] at hOutcome
      cases hOutcome
      rw [record_resize _ _ hSize] at hEntry
      rcases List.mem_cons.1 hEntry with rfl | hOld
      · exact absurd hAddress hMoves.ne
      · exact absurd hAddress (not_mem_disown hOld)
  · have hResize :=
      h.resize_inPlace hOwned hUsable hSize hFits
    rw [perform_outcome (congrArg Traced.outcome
      (Allocator.perform_resize hResize))] at hOutcome
    cases hOutcome
    rfl

/-
  An address that is owned before and after a call has the
  same usable size.
-/
theorem usableSize_kept
    (h : client.Sound)
    (hAllowed : call.Allowed client)
    (hFew :
      client.operations + call.operations < Word.limit)
    (hOutcome :
      (client.perform call).outcome = .ok (reply, next))
    (hOwned : client.Owns address)
    (hStill : next.Owns address) :
    next.allocator.usableSize address =
      client.allocator.usableSize address := by
  by_cases hConcerns : call.Concerns address
  · cases call with
    | init => cases hConcerns
    | allocate size => cases hConcerns
    | moveBreak displacement => cases hConcerns
    | free target =>
        cases target with
        | none => cases hConcerns
        | some target =>
            have hSame : target = address := hConcerns
            subst hSame
            rcases hStill with ⟨entry, hEntry, hAddress⟩
            rw [owned_eq hOutcome] at hEntry
            exact absurd hAddress (not_mem_disown hEntry)
    | resize target size =>
        cases target with
        | none => cases hConcerns
        | some target =>
            have hSame : target = address := hConcerns
            subst hSame
            exact h.usableSize_resize hOwned hFew hOutcome
              hStill
    | write target position bytes =>
        have hSame : target = address := hConcerns
        subst hSame
        exact h.usableSize_write hAllowed hOutcome
  · rcases h.exists_block hOwned with
      ⟨table, view, block, hRest, hBacked, hBlock, rfl⟩
    rcases hRest.perform_ok hBacked hAllowed h.counted hFew
      with ⟨_, _, view', hPerform, hServes, _⟩
    rw [perform_outcome hPerform] at hOutcome
    cases hOutcome
    rw [hRest.usableSize_eq hBlock,
      hServes.rest.usableSize_eq
        (hServes.stays block hBlock hConcerns).1]

end Sound

/-
  A client goes from one point to another with allowed calls,
  and owns an address all the time.
-/
inductive Retains
    (address : Address)
    (first : Client) :
    Client → Prop
| start (owned : first.Owns address) :
    Retains address first first
| step {client next : Client} {call : Call} {reply : Reply}
    (past : Retains address first client)
    (allowed : call.Allowed client)
    (few : client.operations + call.operations < Word.limit)
    (outcome :
      (client.perform call).outcome = .ok (reply, next))
    (owned : next.Owns address) :
    Retains address first next

/- At the end it owns the address. -/
theorem Retains.owns
    {first : Client}
    (h : Retains address first client) :
    client.Owns address := by
  cases h with
  | start owned => exact owned
  | step _ _ _ _ owned => exact owned

/- An address that is retained keeps its usable size. -/
theorem Retains.usableSize_eq
    {first : Client}
    (h : Retains address first client)
    (hSound : first.Sound) :
    client.Sound ∧
      client.allocator.usableSize address =
        first.allocator.usableSize address := by
  induction h with
  | start owned => exact ⟨hSound, rfl⟩
  | step past allowed few outcome owned ih =>
      rcases ih with ⟨hSoundBefore, hSame⟩
      rcases hSoundBefore.perform_ok allowed few with
        ⟨_, _, hOutcome, hNext, _⟩
      rw [outcome] at hOutcome
      cases hOutcome
      have hKept := hSoundBefore.usableSize_kept allowed few
        outcome past.owns owned
      exact ⟨hNext, hKept.trans hSame⟩

------------------------------------------------------------
-- Histories
------------------------------------------------------------

namespace History

variable {start : Allocator}
variable {events : List Event}

/-
  After an address was freed, every request for some bytes
  whose block is not larger than the one that was freed is
  granted, and the region is not asked to grow.  The request
  that the address was given for is one of them.
-/
theorem free_recovers
    (h : History start events client)
    (hOwned : client.Owns address)
    (hFew : client.operations + 1 < Word.limit) :
    ∃ usable freed,
      client.allocator.usableSize address = .ok usable ∧
      (client.allocator.free (some address)).outcome =
        .ok freed ∧
      (∀ size adjusted, size ≠ 0 →
        Request.blockSize? (Request.rounded size) =
          .ok (some adjusted) →
        adjusted ≤ usable + doubleWord →
        freed.GrantsAsIs size) ∧
      ∀ past before size first,
        History start past before →
        size < Word.limit →
        before.operations + 1 < Word.limit →
        (before.perform (.allocate size)).outcome =
          .ok (.address (some address), first) →
        Retains address first client →
        freed.GrantsAsIs size := by
  have hAllocations := h.sound.counted.allocations_le
  have hFrees := h.sound.counted.frees_le
  rcases h.sound.exists_block hOwned with
    ⟨table, view, block, hRest, _, hBlock, rfl⟩
  have hBounds := hRest.bounds hBlock
  have hUsable := hRest.usableSize_eq hBlock
  rcases hRest.free_grants hBlock (by omega) (by omega) with
    ⟨freed, hFree, hGrants⟩
  have hSizes := layout_sizes
  have hFits : ∀ size adjusted, size ≠ 0 →
      Request.blockSize? (Request.rounded size) =
        .ok (some adjusted) →
      adjusted ≤ block.header.size - doubleWord + doubleWord →
      freed.GrantsAsIs size := by
    intro size adjusted hSize hAdjusted hLe
    exact hGrants size adjusted hSize hAdjusted (by omega)
  refine ⟨_, freed, hUsable, hFree, hFits, ?_⟩
  intro past before size first hPast hWord hBefore hGiven
    hRetains
  have hGiven' := allocate_of_perform hGiven
  have hAllowed : (Call.allocate size).Allowed before :=
    hWord
  have hFirst := (hPast.step hAllowed hBefore hGiven).sound
  have hSize : size ≠ 0 := by
    intro hZero
    subst hZero
    cases hGiven'
  rcases hPast.sound.adjusted_le_of_allocate hGiven' hBefore
    with ⟨adjusted, usable, hAdjusted, hRoom, hLe⟩
  have hSame := (hRetains.usableSize_eq hFirst).2
  rw [hUsable, hRoom] at hSame
  cases hSame
  exact hFits size adjusted hSize hAdjusted hLe

/-
  The sample frees its only block and is granted the request
  for it again.
-/
theorem free_recovers_sample :
    ∃ freed,
      (sample.allocator.free (some { offset := 192 })).outcome =
        .ok freed ∧
      freed.GrantsAsIs 8 := by
  have hAdjusted : Request.blockSize? (Request.rounded 8) =
      .ok (some 32) := by
    decide
  rcases sample_history with ⟨events, hHistory⟩
  rcases free_recovers hHistory sample_owns sample_few with
    ⟨usable, freed, hUsable, hFree, hGrants, _⟩
  rw [sample_usableSize] at hUsable
  cases hUsable
  exact ⟨freed, hFree,
    hGrants 8 32 (by decide) hAdjusted (by decide)⟩

/-
  A request for no bytes is not granted, although the block
  that it would be adjusted to fits into the one that was
  freed.
-/
theorem zero_not_recovered :
    ∃ events freed,
      History sampleStart events sample ∧
      sample.Owns { offset := 192 } ∧
      sample.allocator.usableSize { offset := 192 } = .ok 16 ∧
      (sample.allocator.free (some { offset := 192 })).outcome =
        .ok freed ∧
      Request.blockSize? (Request.rounded 0) = .ok (some 32) ∧
      32 ≤ 16 + doubleWord ∧
      (freed.allocate 0).outcome = .ok (none, freed) ∧
      ¬ freed.GrantsAsIs 0 := by
  rcases sample_history with ⟨events, hHistory⟩
  rcases hHistory.sound.backed _ sample_eq.1 with
    ⟨view, hRest, hBacked⟩
  rcases hBacked.exists_block sample_owns with
    ⟨block, hBlock, hAddress⟩
  have hCounted := hHistory.sound.counted
  have hAllocations := hCounted.allocations_le
  have hFrees := hCounted.frees_le
  have hFew := sample_few
  rcases hRest.free_grants hBlock (by omega) (by omega) with
    ⟨freed, hFree, _⟩
  rw [← hAddress] at hFree
  refine ⟨events, freed, hHistory, sample_owns,
    sample_usableSize, hFree, by decide, by decide, rfl, ?_⟩
  rintro ⟨target, next, hGranted, _⟩
  cases hGranted

end History

end Client

end SegregatedFit
