import SegregatedFit.Proofs.Allocator.Refusals
import SegregatedFit.Proofs.Client.Acceptance

/-
  What a resize of an address to some bytes does.

  It stays in place exactly if the payload has room for the
  bytes, and then nothing changes at all.  Otherwise the
  whole payload moves to a new block, or nothing is left
  behind but a program break that may have moved.

  Key definitions include:
    * `Client.MovesTo`

  Key theorems include:
    * `Client.Sound.resize_inPlace`
    * `Client.Sound.resize_moves`
    * `Client.History.resize_exact`
-/

namespace SegregatedFit

namespace Client

variable {start : Allocator}
variable {events : List Event}
variable {client : Client}
variable {address : Address}
variable {usable size : Nat}

/-
  The whole payload of an address that was owned stands at
  another one that was not, where there is room for the size.
  That one is in use in its place, and all others keep their
  payloads.
-/
structure MovesTo
    (client : Client)
    (next : Allocator)
    (address target : Address)
    (size : Nat) : Prop where
  ne : target ≠ address
  new : ¬ client.Owns target
  room : ∃ room, next.usableSize target = .ok room ∧ size ≤ room
  copied :
    ∃ usable bytes,
      client.allocator.usableSize address = .ok usable ∧
      client.allocator.readPayload address 0 usable =
        .ok bytes ∧
      next.readPayload target 0 usable = .ok bytes
  inUse :
    ∃ table, next.table = some table ∧
      ∀ other : Address,
        (∃ block ∈ next.inUse table,
            block.offset = other.offset) ↔
          other = target ∨ client.Owns other ∧ other ≠ address
  kept :
    ∀ other, client.Owns other → other ≠ address →
      ∃ usable bytes,
        client.allocator.usableSize other = .ok usable ∧
        client.allocator.readPayload other 0 usable =
          .ok bytes ∧
        next.usableSize other = .ok usable ∧
        next.readPayload other 0 usable = .ok bytes
  allocations_eq :
    next.allocations = client.allocator.allocations + 1
  frees_eq :
    next.frees = client.allocator.frees + 1

/-
  If a new block takes the place of another one, its address
  and the others that are owned are those in use.
-/
theorem inUse_iff_of_perm
    {next : Allocator}
    {table : SentinelTable}
    {view view' : HeapView}
    {block new : ChainBlock}
    (h' : next.AtRest table view')
    (hBacked : Backed view.allocatedBlocks client.owned)
    (hPerm : view'.allocatedBlocks.Perm
      (new :: view.others block.offset))
    (other : Address) :
    (∃ found ∈ next.inUse table,
        found.offset = other.offset) ↔
      other = { offset := new.offset } ∨
        client.Owns other ∧
          other ≠ { offset := block.offset } := by
  have hOther : client.Owns other ↔
      ∃ found ∈ view.allocatedBlocks,
        found.offset = other.offset :=
    hBacked.owned_iff
  rcases other with ⟨offset⟩
  rw [h'.inUse_eq, hOther]
  constructor
  · rintro ⟨found, hFound, rfl⟩
    rcases List.mem_cons.1 (hPerm.mem_iff.1 hFound) with
      rfl | hMem
    · exact Or.inl rfl
    · rcases List.mem_filter.1 hMem with ⟨hMem, hNe⟩
      refine Or.inr ⟨⟨found, hMem, rfl⟩, ?_⟩
      intro hEq
      exact of_decide_eq_true hNe (congrArg Address.offset hEq)
  · rintro (hEq | ⟨⟨found, hFound, rfl⟩, hNe⟩)
    · cases hEq
      exact ⟨new, hPerm.mem_iff.2 List.mem_cons_self, rfl⟩
    · have hMem := Allocator.AtRest.mem_others hFound
        (Ne.symm hNe)
      exact ⟨found, hPerm.mem_iff.2
        (List.mem_cons_of_mem new hMem), rfl⟩

/-
  A block moves if a new one takes its place among those in
  use, has its bytes, and leaves the payloads of all others
  alone.
-/
theorem movesTo_of_rest
    {next : Allocator}
    {table : SentinelTable}
    {view view' : HeapView}
    {block new : ChainBlock}
    (h : client.allocator.AtRest table view)
    (h' : next.AtRest table view')
    (hBacked : Backed view.allocatedBlocks client.owned)
    (hBlock : block ∈ view.allocatedBlocks)
    (hFresh : new.offset ∉ view.allocatedOffsets)
    (hRoom : size + doubleWord ≤ new.header.size)
    (hLarge : block.header.size < size + doubleWord)
    (hPerm : view'.allocatedBlocks.Perm
      (new :: view.others block.offset))
    (hKeeps : client.allocator.memory.KeepsPayloads next.memory
      (view.others block.offset))
    (hCopied : ∀ i,
      i < min (block.header.size - doubleWord) size →
        next.memory.byte (new.offset + i) =
          client.allocator.memory.byte (block.offset + i))
    (hAllocations :
      next.allocations = client.allocator.allocations + 1)
    (hFrees : next.frees = client.allocator.frees + 1) :
    client.MovesTo next { offset := block.offset }
      { offset := new.offset } size := by
  have hSizes := layout_sizes
  have hNew : new ∈ view'.allocatedBlocks :=
    hPerm.mem_iff.2 List.mem_cons_self
  have hNotOwned : ¬ client.Owns { offset := new.offset } := by
    intro hOwns
    rcases hBacked.owned_iff.1 hOwns with
      ⟨other, hOther, hOffset⟩
    exact hFresh (List.mem_map.2 ⟨other, hOther, hOffset⟩)
  have hOwned : client.Owns { offset := block.offset } :=
    hBacked.owned_iff.2 ⟨block, hBlock, rfl⟩
  have hBytes := h.readPayload_eq hBlock
    (Nat.le_of_eq (Nat.zero_add _))
  have hTaken : 0 + (block.header.size - doubleWord) ≤
      new.header.size - doubleWord := by
    omega
  have hSame :
      next.memory.slice (new.offset + 0)
          (block.header.size - doubleWord) =
        client.allocator.memory.slice (block.offset + 0)
          (block.header.size - doubleWord) := by
    apply Memory.slice_eq_slice
    intro i hi
    exact hCopied i (by omega)
  refine ⟨?_, hNotOwned, ?_, ?_, ?_, ?_, hAllocations, hFrees⟩
  · intro hEq
    rw [hEq] at hNotOwned
    exact hNotOwned hOwned
  · exact ⟨_, h'.usableSize_eq hNew, by omega⟩
  · refine ⟨_, _, h.usableSize_eq hBlock, hBytes, ?_⟩
    rw [h'.readPayload_eq hNew hTaken, hSame]
  · exact ⟨table, h'.table_eq,
      inUse_iff_of_perm h' hBacked hPerm⟩
  · intro other hOwns hNe
    rcases hBacked.exists_block hOwns with ⟨found, hFound, rfl⟩
    have hOther := Allocator.AtRest.mem_others hFound
      (Ne.symm hNe)
    exact Allocator.payload_kept h h' hKeeps hOther hFound
      (hPerm.mem_iff.2 (List.mem_cons_of_mem new hOther))

namespace Sound

/- A payload stands in a block with room for the tags beside it. -/
theorem exists_block_of_usable
    (h : client.Sound)
    (hOwned : client.Owns address)
    (hUsable : client.allocator.usableSize address = .ok usable) :
    ∃ table view block,
      client.allocator.AtRest table view ∧
      Backed view.allocatedBlocks client.owned ∧
      block ∈ view.allocatedBlocks ∧
      address = { offset := block.offset } ∧
      block.header.size = usable + doubleWord := by
  have hSizes := layout_sizes
  rcases h.exists_block hOwned with
    ⟨table, view, block, hRest, hBacked, hBlock, rfl⟩
  have hBounds := hRest.bounds hBlock
  rw [hRest.usableSize_eq hBlock] at hUsable
  have hRoom := Except.ok.inj hUsable
  exact ⟨table, view, block, hRest, hBacked, hBlock, rfl,
    by omega⟩

/-
  The size of a block that a resize looks for is within the
  block exactly if the payload has room.
-/
theorem blockSize?_le_iff
    (h : client.Sound)
    (hOwned : client.Owns address)
    (hUsable : client.allocator.usableSize address = .ok usable) :
    (∃ adjusted tag,
        Request.blockSize? size = .ok (some adjusted) ∧
        client.allocator.memory.header address.offset =
          .ok tag ∧
        adjusted ≤ tag.size) ↔
      size ≤ usable := by
  have hSizes := layout_sizes
  rcases h.exists_block_of_usable hOwned hUsable with
    ⟨table, view, block, hRest, _, hBlock, rfl, hRoom⟩
  have hBounds := hRest.bounds hBlock
  have hFirst := table.firstBlock_eq
  constructor
  · rintro ⟨adjusted, tag, hAdjusted, hHeader, hFits⟩
    rw [hRest.header_eq hBlock] at hHeader
    cases hHeader
    rcases Request.blockSize?_eq_some_iff.1 hAdjusted with
      ⟨_, rfl⟩
    have hLe := (hRest.sizeFor_le_iff hBlock size).1 hFits
    omega
  · intro hLe
    have hNear : size + 2 * doubleWord < Word.limit := by
      omega
    exact ⟨_, _,
      Request.blockSize?_eq_some_iff.2 ⟨hNear, rfl⟩,
      hRest.header_eq hBlock,
      (hRest.sizeFor_le_iff hBlock size).2 (by omega)⟩

/- A payload with room stays, and nothing changes. -/
theorem resize_inPlace
    (h : client.Sound)
    (hOwned : client.Owns address)
    (hUsable : client.allocator.usableSize address = .ok usable)
    (hSize : size ≠ 0)
    (hFits : size ≤ usable) :
    (client.allocator.resize (some address) size).outcome =
      .ok (some address, client.allocator) := by
  rcases h.exists_block_of_usable hOwned hUsable with
    ⟨table, view, block, hRest, _, hBlock, rfl, hRoom⟩
  rw [hRest.resize_of_le hBlock hSize (by omega)]

/- A payload without room moves, or nothing is touched. -/
theorem resize_moves
    (h : client.Sound)
    (hOwned : client.Owns address)
    (hUsable : client.allocator.usableSize address = .ok usable)
    (hSize : size ≠ 0)
    (hLarge : usable < size)
    (hFew : client.operations + 1 < Word.limit) :
    (∃ next,
      (client.allocator.resize (some address) size).outcome =
        .ok (none, next) ∧
      client.allocator.Untouched next) ∨
    ∃ target next,
      (client.allocator.resize (some address) size).outcome =
        .ok (some target, next) ∧
      client.MovesTo next address target size := by
  have hExtensions := h.counted.extensions_le
  have hAllocations := h.counted.allocations_le
  have hFrees := h.counted.frees_le
  rcases h.exists_block_of_usable hOwned hUsable with
    ⟨table, view, block, hRest, hBacked, hBlock, rfl, hTaken⟩
  have hMove := hRest.resize_of_lt hBlock hSize (by omega)
  by_cases hWord : size + 2 * doubleWord < Word.limit
  · rw [if_pos hWord] at hMove
    rw [hMove]
    rcases hRest.relocate_cases size hBlock (by omega) (by omega)
        (by omega) with hBad | hGood
    · left
      rcases hBad with ⟨region, hOutcome, _⟩
      exact ⟨_, hOutcome,
        Allocator.untouched_of_relocate hOutcome⟩
    · right
      rcases hGood with
        ⟨region, view', new, grew, hOutcome, _, hFresh, hRoom,
          hPerm, hBecomes, hCopied, _⟩
      exact ⟨_, _, hOutcome, movesTo_of_rest hRest
        (hRest.of_becomes rfl hBecomes) hBacked hBlock hFresh
        hRoom (by omega) hPerm hBecomes.keeps hCopied rfl rfl⟩
  · left
    rw [if_neg hWord] at hMove
    rw [hMove]
    exact ⟨_, rfl, .refl _⟩

end Sound

namespace History

/-
  A resize of an address that is owned to some bytes stays in
  place and changes nothing if its payload has room for them.
  If not, all bytes of the payload move to another address,
  with room for those asked for, or there is no address and
  nothing has changed but where the program break stands.
-/
theorem resize_exact
    (h : History start events client)
    (hOwned : client.Owns address)
    (hUsable : client.allocator.usableSize address = .ok usable)
    (hSize : size ≠ 0)
    (hFew : client.operations + 1 < Word.limit) :
    ((∃ adjusted tag,
        Request.blockSize? size = .ok (some adjusted) ∧
        client.allocator.memory.header address.offset =
          .ok tag ∧
        adjusted ≤ tag.size) ↔
      size ≤ usable) ∧
    (size ≤ usable →
      (client.allocator.resize (some address) size).outcome =
        .ok (some address, client.allocator)) ∧
    (usable < size →
      (∃ next,
        (client.allocator.resize (some address) size).outcome =
          .ok (none, next) ∧
        client.allocator.Untouched next) ∨
      ∃ target next,
        (client.allocator.resize (some address) size).outcome =
          .ok (some target, next) ∧
        client.MovesTo next address target size) :=
  ⟨h.sound.blockSize?_le_iff hOwned hUsable,
    h.sound.resize_inPlace hOwned hUsable hSize,
    fun hLarge =>
      h.sound.resize_moves hOwned hUsable hSize hLarge hFew⟩

/-
  The block of the sample keeps two words.  For three it
  moves to where the heap grows, at the free block behind it.
-/
theorem resize_exact_wideSplit :
    (wideSplit.allocator.resize
      (some { offset := 192 }) 16).outcome =
        .ok (some { offset := 192 }, wideSplit.allocator) ∧
    ∃ next,
      (wideSplit.allocator.resize
        (some { offset := 192 }) 24).outcome =
          .ok (some { offset := 224 }, next) ∧
      wideSplit.MovesTo next { offset := 192 }
        { offset := 224 } 24 := by
  have hEvaluated :
      wideSplit.allocator.usableSize { offset := 192 } =
        .ok 16 ∧
      (wideSplit.allocator.resize
        (some { offset := 192 }) 24).outcome.map Prod.fst =
          .ok (some { offset := 224 }) := by
    decide +kernel
  rcases hEvaluated with ⟨hUsable, hTarget⟩
  rcases wide_history with ⟨_, ⟨events, hHistory⟩, _⟩
  have hSmall := resize_exact hHistory wideSplit_owns hUsable
    (show 16 ≠ 0 by decide) wide_few.2
  have hLarge := resize_exact hHistory wideSplit_owns hUsable
    (show 24 ≠ 0 by decide) wide_few.2
  refine ⟨hSmall.2.1 (Nat.le_refl 16), ?_⟩
  rcases hLarge.2.2 (by decide) with hNone | hMoved
  · rcases hNone with ⟨next, hOutcome, _⟩
    rw [hOutcome] at hTarget
    cases hTarget
  · rcases hMoved with ⟨target, next, hOutcome, hMoves⟩
    rw [hOutcome] at hTarget
    cases hTarget
    exact ⟨next, hOutcome, hMoves⟩

end History

end Client

end SegregatedFit
