import SegregatedFit.Proofs.Heap.Transitions

/-
  Heaps are determined by their allocated blocks.

  Where no two free blocks touch, all that lies between two
  allocated blocks is one free block.  So the allocated
  blocks and the ends of the heap tell all blocks, and these
  tell what is listed.

  Key definitions include:
    * `fillGaps`

  Key theorems include:
    * `Tiles.eq_fillGaps`
    * `HeapView.Stands.blocks_eq_fillGaps`
    * `HeapView.Stands.same_of_allocated`
-/

namespace SegregatedFit

------------------------------------------------------------
-- Gaps
------------------------------------------------------------

/- The free block that fills a stretch that is not empty. -/
def gap
    (start stop : Nat) : List ChainBlock :=
  if start < stop then
    [.ofTag start { size := stop - start, allocated := false }]
  else
    []

/- Blocks with the free ones that fill the gaps between them. -/
def fillGaps :
    Nat → List ChainBlock → Nat → List ChainBlock
| start, [], stop => gap start stop
| start, block :: blocks, stop =>
    gap start block.offset ++
      block ::
        fillGaps (block.offset + block.header.size) blocks stop

/- There is nothing to fill between two blocks that touch. -/
theorem gap_self
    (start : Nat) :
    gap start start = [] := by
  unfold gap
  rw [if_neg (Nat.lt_irrefl start)]

/- A free block fills the gap that it takes. -/
theorem gap_of_free
    {block : ChainBlock}
    (hFree : block.header.allocated = false)
    (hTags : block.footer = block.header)
    (hPositive : 0 < block.header.size) :
    gap block.offset (block.offset + block.header.size) =
      [block] := by
  rcases block with ⟨offset, ⟨size, allocated⟩, footer⟩
  dsimp only at hFree hTags hPositive ⊢
  subst hFree
  subst hTags
  unfold gap ChainBlock.ofTag
  rw [if_pos (by omega), Nat.add_sub_cancel_left]

/- A free block in front is the first gap that is filled. -/
theorem fillGaps_free
    {block : ChainBlock}
    {rest : List ChainBlock}
    {stop : Nat}
    (hTiles :
      Tiles (block.offset + block.header.size) rest stop)
    (hStarts : StartsAllocated rest)
    (hFree : block.header.allocated = false)
    (hTags : block.footer = block.header)
    (hPositive : 0 < block.header.size) :
    fillGaps block.offset
        (rest.filter (fun block => block.header.allocated))
        stop =
      block ::
        fillGaps (block.offset + block.header.size)
          (rest.filter (fun block => block.header.allocated))
          stop := by
  have hGap := gap_of_free hFree hTags hPositive
  cases rest with
  | nil =>
      cases hTiles
      change gap _ _ = block :: gap _ _
      rw [hGap, gap_self]
  | cons next rest =>
      have hAllocated := hStarts next (by simp)
      have hNext := hTiles.1
      rw [List.filter_cons_of_pos (by exact hAllocated)]
      unfold fillGaps
      rw [hNext, hGap, gap_self]
      rfl

/-
  Blocks without free neighbours are their allocated ones
  with the gaps filled.
-/
theorem Tiles.eq_fillGaps
    {start stop : Nat}
    {blocks : List ChainBlock}
    (h : Tiles start blocks stop)
    (hCoalesced : NoFreeNeighbours blocks)
    (hTags : ∀ block ∈ blocks, block.footer = block.header)
    (hPositive : ∀ block ∈ blocks, 0 < block.header.size) :
    blocks =
      fillGaps start
        (blocks.filter (fun block => block.header.allocated))
        stop := by
  induction blocks generalizing start with
  | nil =>
      cases h
      exact (gap_self _).symm
  | cons block rest ih =>
      rcases h with ⟨rfl, hRest⟩
      have hTag := hTags block List.mem_cons_self
      have hSize := hPositive block List.mem_cons_self
      have hLater : NoFreeNeighbours rest := by
        rw [noFreeNeighbours_iff_isChain] at hCoalesced ⊢
        exact hCoalesced.tail
      have hFilled := ih hRest hLater
        (fun other hOther =>
          hTags other (List.mem_cons_of_mem block hOther))
        (fun other hOther =>
          hPositive other (List.mem_cons_of_mem block hOther))
      cases hState : block.header.allocated with
      | true =>
          rw [List.filter_cons_of_pos (by exact hState)]
          unfold fillGaps
          rw [gap_self, List.nil_append, ← hFilled]
      | false =>
          have hStarts :=
            ((noFreeNeighbours_cons_iff hState).1 hCoalesced).2
          rw [List.filter_cons_of_neg (by simp [hState]),
            fillGaps_free hRest hStarts hState hTag hSize,
            ← hFilled]

------------------------------------------------------------
-- Heaps at Rest
------------------------------------------------------------

namespace HeapView.Stands

variable {view view' : HeapView}
variable {table : SentinelTable}
variable {m n : Memory}

/- The allocated blocks of a heap tell all of its blocks. -/
theorem blocks_eq_fillGaps
    (h : view.Stands table m) :
    view.blocks =
      fillGaps table.firstBlock view.allocatedBlocks m.size := by
  have hTiles := h.heap.tiles
  simp only [List.append_nil] at hTiles
  rcases stands_iff.1 h with ⟨hDescribes, hRoomy⟩
  exact hTiles.eq_fillGaps h.coalesced hDescribes.footer_eq
    (fun block hBlock =>
      Nat.lt_of_lt_of_le (by decide) (hRoomy block hBlock))

/-
  Heaps of one size with the same allocated blocks have the
  same blocks, and the same ones on each list.
-/
theorem same_of_allocated
    (h : view.Stands table m)
    (h' : view'.Stands table n)
    (hSize : n.size = m.size)
    (hAllocated :
      view'.allocatedBlocks = view.allocatedBlocks) :
    view'.blocks = view.blocks ∧
      ∀ c, c < SizeClass.count →
        (view'.lists c).Perm (view.lists c) := by
  have hBlocks : view'.blocks = view.blocks := by
    rw [h.blocks_eq_fillGaps, h'.blocks_eq_fillGaps,
      hAllocated, hSize]
  refine ⟨hBlocks, ?_⟩
  intro c hc
  rw [List.perm_ext_iff_of_nodup (h'.heap.nodup c hc)
    (h.heap.nodup c hc)]
  intro node
  rw [h'.heap.mem_list_iff c hc, h.heap.mem_list_iff c hc,
    hBlocks]

/- A heap without allocated blocks is one free block, if any. -/
theorem blocks_of_unallocated
    (h : view.Stands table m)
    (hNone : view.allocatedBlocks = []) :
    view.blocks = gap table.firstBlock m.size := by
  rw [h.blocks_eq_fillGaps, hNone]
  rfl

end HeapView.Stands

end SegregatedFit
