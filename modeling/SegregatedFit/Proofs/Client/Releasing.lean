import SegregatedFit.Proofs.Client.Runs

/-
  What freeing an address does to the blocks and the lists.

  The block and its free neighbours, at most one on either
  side, are replaced by one free block.  The neighbours leave
  their lists, the new block comes first in its own, and all
  else stays in its place.

  Key definitions include:
    * `HeapView.Absorbs`

  Key theorems include:
    * `HeapView.absorbs_settle`
    * `HeapView.Stands.absorbs`
    * `Client.History.free_exact`
-/

namespace SegregatedFit

------------------------------------------------------------
-- Views
------------------------------------------------------------

/-
  A block becomes one free block together with the free block
  in front of it and the free block behind it, where there is
  one.  No other block changes.  The lists lose the two, and
  the one of the class of the new block begins with it.
-/
structure HeapView.Absorbs
    (view next : HeapView)
    (before : List ChainBlock)
    (previous : Option ChainBlock)
    (block : ChainBlock)
    (following : Option ChainBlock)
    (after : List ChainBlock)
    (merged : ChainBlock) : Prop where
  blocks_eq :
    view.blocks =
      before ++ previous.toList ++
        block :: (following.toList ++ after)
  previous_free :
    ∀ other ∈ previous, other.header.allocated = false
  following_free :
    ∀ other ∈ following, other.header.allocated = false
  before_allocated : EndsAllocated before
  after_allocated : StartsAllocated after
  offset_eq : merged.offset = (previous.getD block).offset
  header_eq :
    merged.header = {
      size :=
        extent (previous.toList ++ block :: following.toList),
      allocated := false }
  footer_eq : merged.footer = merged.header
  blocks_next : next.blocks = before ++ merged :: after
  lists_next :
    ∀ c, c < SizeClass.count →
      next.lists c =
        (if c = SizeClass.classify merged.header.size then
          [merged.offset]
        else
          []) ++
        (view.lists c).filter (fun node =>
          node ∉ (previous.toList ++ following.toList).map
            ChainBlock.offset)

namespace HeapView

variable {view : HeapView}
variable {table : SentinelTable}
variable {m : Memory}
variable {block : ChainBlock}

/-
  A block that settles between two rows absorbs the free
  blocks that it touches, and nothing else of the rows.
-/
theorem absorbs_settle
    {front back : List ChainBlock}
    {start stop : Nat}
    (hBlocks : view.blocks = front ++ block :: back)
    (hTiles : Tiles start view.blocks stop)
    (hFront : NoFreeNeighbours front)
    (hBack : NoFreeNeighbours back)
    (hNodup : ∀ c, c < SizeClass.count →
      (view.lists c).Nodup) :
    ∃ before previous following after merged,
      back = following.toList ++ after ∧
      view.Absorbs
        (settle front
          (.ofTag block.offset {
            size := block.header.size, allocated := false })
          back view.lists)
        before previous block following after merged := by
  rw [hBlocks] at hTiles
  rcases exists_trailing hFront with
    ⟨previous, hPrevious, hBefore, hEnds, hPreviousFree⟩
  rcases exists_leading hBack with
    ⟨following, hFollowing, hAfter, hStarts, hFollowingFree⟩
  refine ⟨withoutTrailing front, previous, following,
    withoutLeading back, _, hAfter, ?_, hPreviousFree,
    hFollowingFree, hEnds, hStarts, ?_, ?_, rfl, rfl, ?_⟩
  · rw [← hBefore, ← hAfter]
    exact hBlocks
  · -- The block in front ends where this one begins.
    rw [hPrevious]
    change block.offset - extent previous.toList = _
    cases previous with
    | none => rfl
    | some last =>
        rw [hBefore, Option.toList_some, List.append_assoc,
          List.singleton_append] at hTiles
        have hNext : block.offset =
            last.offset + last.header.size :=
          (tiles_cut_iff.1 hTiles).2.1
        change block.offset - (last.header.size + 0) =
          last.offset
        omega
  · rw [hPrevious, hFollowing]
    unfold mergedBlock extent
    rw [List.map_append, List.map_append]
    rfl
  · intro c hc
    have hLists := FreeLists.dropAll_eq (hNodup c hc)
      (trailingFree front ++ leadingFree back)
    rw [hPrevious, hFollowing] at hLists
    unfold settle FreeLists.push
    rw [hPrevious, hFollowing]
    dsimp only
    rw [hLists]
    split
    · rfl
    · rfl

/- A block that is made free between two rows absorbs its neighbours. -/
theorem Stands.absorbs
    {front back : List ChainBlock}
    (h : view.Stands table m)
    (hBlocks : view.blocks = front ++ block :: back)
    (hAllocated : block.header.allocated = true) :
    ∃ before previous following after merged,
      view.Absorbs
        (settle front
          (.ofTag block.offset {
            size := block.header.size, allocated := false })
          back view.lists)
        before previous block following after merged := by
  have hCoalesced := h.coalesced
  have hTiles := h.heap.tiles
  rw [hBlocks] at hCoalesced
  rw [List.append_nil, List.append_nil] at hTiles
  rcases (noFreeNeighbours_allocated_iff hAllocated).1
      hCoalesced with ⟨hFront, hBack⟩
  rcases absorbs_settle hBlocks hTiles hFront hBack
      h.heap.nodup with
    ⟨before, previous, following, after, merged, _, hAbsorbs⟩
  exact ⟨before, previous, following, after, merged, hAbsorbs⟩

end HeapView

------------------------------------------------------------
-- Histories
------------------------------------------------------------

namespace Client

variable {start : Allocator}
variable {events : List Event}
variable {client : Client}
variable {table : SentinelTable}
variable {view : HeapView}
variable {address : Address}

namespace History

/-
  When an address that is owned is freed, its block and the
  free blocks next to it become one free block, wherever they
  stand in the heap and in their lists.  All other blocks
  stay as they are, and all other listed nodes stay in order.
-/
theorem free_exact
    (h : History start events client)
    (hTable : client.allocator.table = some table)
    (hView : view.Describes table client.allocator.memory)
    (hOwned : client.Owns address)
    (hFew : client.operations + 1 < Word.limit) :
    ∃ next view' before previous block following after merged,
      (client.allocator.free (some address)).outcome =
        .ok next ∧
      next.table = some table ∧
      view'.Describes table next.memory ∧
      block.offset = address.offset ∧
      block.header.allocated = true ∧
      view.Absorbs view' before previous block following after
        merged := by
  have hFrees := h.sound.counted.frees_le
  have hRest := h.sound.rest_of_describes hTable hView
  rcases (h.sound.backed_of_rest hRest).exists_block hOwned with
    ⟨block, hBlock, rfl⟩
  rcases HeapView.mem_allocatedBlocks_iff.1 hBlock with
    ⟨hMem, hAllocated⟩
  rcases List.append_of_mem hMem with ⟨front, back, hBlocks⟩
  rcases hRest.free_between hBlocks hAllocated (by omega) with
    ⟨n, hFree, _, hBecomes⟩
  rcases hRest.stands.absorbs hBlocks hAllocated with
    ⟨before, previous, following, after, merged, hAbsorbs⟩
  exact ⟨_, _, before, previous, block, following, after,
    merged, congrArg Traced.outcome hFree, hTable,
    (HeapView.stands_iff.1 hBecomes.stands).1, rfl, hAllocated,
    hAbsorbs⟩

/-
  The block of the sample is freed and absorbs the free block
  behind it, which leaves its list.
-/
theorem free_exact_wideSplit :
    ∃ next, ∃ view' : HeapView,
      (wideSplit.allocator.free
        (some { offset := 192 })).outcome = .ok next ∧
      view'.Describes { offset := 0 } next.memory ∧
      view'.blocks =
        [.ofTag 192 { size := 64, allocated := false }] ∧
      view'.lists (SizeClass.classify 64) = [192] := by
  have hTable := wide_eq.2.1
  rcases wide_history with ⟨_, ⟨events, hHistory⟩, _⟩
  rcases hHistory.sound.backed _ hTable with ⟨view, hRest, _⟩
  have hView := hRest.describes
  rcases free_exact hHistory hTable hView wideSplit_owns
      wide_few.2 with
    ⟨next, view', before, previous, block, following, after,
      merged, hOutcome, _, hNext, hOffset, _, hAbsorbs⟩
  have hCut := hAbsorbs.blocks_eq
  rw [wideSplit_blocks hView] at hCut
  rcases wideSplit_cut hCut hOffset with
    ⟨hFront, rfl, hBack⟩
  rcases List.append_eq_nil_iff.1 hFront with
    ⟨rfl, hPrevious⟩
  obtain rfl := Option.toList_eq_nil_iff.1 hPrevious
  cases following with
  | none =>
      -- The free block would begin what stays allocated.
      have hStarts := hAbsorbs.after_allocated
      change after = _ at hBack
      rw [hBack] at hStarts
      exact absurd (hStarts _ rfl) Bool.false_ne_true
  | some second =>
      cases hBack
      have hMerged : merged =
          .ofTag 192 { size := 64, allocated := false } := by
        rw [ChainBlock.eq_ofTag hAbsorbs.footer_eq,
          hAbsorbs.offset_eq, hAbsorbs.header_eq]
        rfl
      subst hMerged
      refine ⟨next, view', hOutcome, hNext,
        hAbsorbs.blocks_next, ?_⟩
      have hLists :=
        hAbsorbs.lists_next _ (SizeClass.classify_lt 64)
      have hOthers :
          (view.lists (SizeClass.classify 64)).filter
            (fun node => node ∉ [224]) = [] := by
        rw [List.filter_eq_nil_iff]
        intro node hNode
        rcases (hView.mem_list_iff _ (SizeClass.classify_lt _)
          node).1 hNode with ⟨other, hOther, rfl, _⟩
        rw [wideSplit_freeBlocks hView] at hOther
        rw [List.mem_singleton.1 hOther]
        decide
      change _ = [192] ++ (view.lists _).filter
        (fun node => node ∉ [224]) at hLists
      rw [hLists, hOthers, List.append_nil]

end History

end Client

end SegregatedFit
