import SegregatedFit.Proofs.Heap.Merging
import SegregatedFit.Proofs.Heap.Splitting

/-
  How views of a heap change.

  A heap grows by a free block, hands out a free block, and
  takes back an allocated one.  Only the last two change
  which blocks are allocated, and each by one block.  What is
  written into the payload of an allocated block changes
  nothing.

  Key definitions include:
    * `HeapView.allocatedBlocks`
    * `HeapView.grown`
    * `HeapView.HandsOut`
    * `HeapView.TakesBack`

  Key theorems include:
    * `HeapView.HandsOut.exists_block`
    * `HeapView.TakesBack.allocatedBlocks_eq`
    * `HeapView.Stands.overwrite`
-/

namespace SegregatedFit

namespace HeapView

variable {view next : HeapView}
variable {table : SentinelTable}
variable {m : Memory}

------------------------------------------------------------
-- Allocated Blocks
------------------------------------------------------------

/- The allocated blocks of a view. -/
def allocatedBlocks
    (view : HeapView) : List ChainBlock :=
  view.blocks.filter (fun block => block.header.allocated)

/- Allocated blocks of a view are those whose tag says so. -/
theorem mem_allocatedBlocks_iff
    {block : ChainBlock} :
    block ∈ view.allocatedBlocks ↔
      block ∈ view.blocks ∧ block.header.allocated = true := by
  simp [allocatedBlocks]

/- The allocated blocks of a view but the one at an offset. -/
def others
    (view : HeapView)
    (bp : Nat) : List ChainBlock :=
  view.allocatedBlocks.filter (fun block => block.offset ≠ bp)

/- The offsets of the allocated blocks. -/
theorem allocatedOffsets_eq :
    view.allocatedOffsets =
      view.allocatedBlocks.map ChainBlock.offset :=
  rfl

/- Allocated blocks have different offsets. -/
theorem Stands.nodup_allocatedOffsets
    (h : view.Stands table m) :
    view.allocatedOffsets.Nodup := by
  rw [allocatedOffsets_eq]
  exact h.nodup_offsets.sublist (List.filter_sublist.map _)

/- All others are those on both sides of the block. -/
theorem Stands.others_eq
    {front back : List ChainBlock}
    {block : ChainBlock}
    (h : view.Stands table m)
    (hSplit : view.allocatedBlocks = front ++ block :: back) :
    view.others block.offset = front ++ back := by
  have hNodup := h.nodup_allocatedOffsets
  rw [allocatedOffsets_eq, hSplit, List.map_append,
    List.map_cons, List.perm_middle.nodup_iff, List.nodup_cons,
    ← List.map_append] at hNodup
  unfold others
  rw [hSplit, List.filter_append,
    List.filter_cons_of_neg (by simp), ← List.filter_append,
    List.filter_eq_self]
  intro other hOther
  apply decide_eq_true
  intro hEq
  exact hNodup.1 (List.mem_map.2 ⟨other, hOther, hEq⟩)

/- An allocated block and all others are the allocated blocks. -/
theorem Stands.perm_others
    {block : ChainBlock}
    (h : view.Stands table m)
    (hBlock : block ∈ view.allocatedBlocks) :
    view.allocatedBlocks.Perm
      (block :: view.others block.offset) := by
  rcases List.append_of_mem hBlock with ⟨front, back, hSplit⟩
  rw [h.others_eq hSplit, hSplit]
  exact List.perm_middle

/- A new block at another offset is one of the others. -/
theorem perm_others_cons
    {bp : Nat}
    {new : ChainBlock}
    (hPerm : next.allocatedBlocks.Perm
      (new :: view.allocatedBlocks))
    (hNe : new.offset ≠ bp) :
    (next.others bp).Perm (new :: view.others bp) := by
  have hFiltered := hPerm.filter
    (fun other => other.offset ≠ bp)
  rw [List.filter_cons_of_pos (by simp [hNe])] at hFiltered
  exact hFiltered

------------------------------------------------------------
-- Transitions
------------------------------------------------------------

/- The view after a growth by a block of `size` bytes. -/
def grown
    (view : HeapView)
    (start size : Nat) : HeapView :=
  settle view.blocks
    (.ofTag start { size := size, allocated := false }) []
    view.lists

/- The free block that a heap ends with after a growth. -/
def grownBlock
    (view : HeapView)
    (start size : Nat) : ChainBlock :=
  mergedBlock (trailingFree view.blocks)
    (.ofTag start { size := size, allocated := false }) []

/- `size` bytes of the free block at `bp` are handed out. -/
def HandsOut
    (view next : HeapView)
    (bp size : Nat) : Prop :=
  ∃ front block back,
    view.blocks = front ++ block :: back ∧
      block.header.allocated = false ∧
      block.offset = bp ∧
      size ≤ block.header.size ∧
      next = carve front block back view.lists size

/- The allocated block at `bp` becomes free and merges. -/
def TakesBack
    (view next : HeapView)
    (bp : Nat) : Prop :=
  ∃ front block back,
    view.blocks = front ++ block :: back ∧
      block.header.allocated = true ∧
      block.offset = bp ∧
      next = settle front
        (.ofTag bp {
          size := block.header.size, allocated := false })
        back view.lists

/- Growth leaves the allocated blocks as they are. -/
theorem allocatedBlocks_grown
    (view : HeapView)
    (start size : Nat) :
    (view.grown start size).allocatedBlocks =
      view.allocatedBlocks := by
  unfold allocatedBlocks grown
  rw [allocated_settle, List.append_nil]

/- A heap that has grown ends with a free block. -/
theorem mem_grown
    (view : HeapView)
    (start size : Nat) :
    view.grownBlock start size ∈ (view.grown start size).blocks :=
  List.mem_append_right _ List.mem_cons_self

/- That free block has room for the growth at least. -/
theorem le_size_grownBlock
    (view : HeapView)
    (start size : Nat) :
    size ≤ (view.grownBlock start size).header.size := by
  change size ≤ extent (_ ++ [_])
  unfold extent
  rw [List.map_append, List.sum_append, List.map_cons,
    List.sum_cons]
  dsimp only [ChainBlock.ofTag]
  omega

/-
  Handing out adds one allocated block, of that size at
  least.
-/
theorem HandsOut.exists_block
    {bp size : Nat}
    (h : view.HandsOut next bp size) :
    ∃ block,
      block.offset = bp ∧
        size ≤ block.header.size ∧
        next.allocatedBlocks.Perm
          (block :: view.allocatedBlocks) := by
  rcases h with
    ⟨front, block, back, hBlocks, hFree, hOffset, hFits, rfl⟩
  refine ⟨block.handedOut size, hOffset,
    ChainBlock.le_size_handedOut hFits, ?_⟩
  unfold allocatedBlocks
  rw [allocated_carve, hBlocks, List.filter_append,
    List.filter_cons_of_neg (by simp [hFree])]
  exact List.perm_middle

/- Handing out adds one offset to those of before. -/
theorem HandsOut.perm_offsets
    {bp size : Nat}
    (h : view.HandsOut next bp size) :
    next.allocatedOffsets.Perm (bp :: view.allocatedOffsets) := by
  rcases h.exists_block with ⟨block, hOffset, _, hPerm⟩
  have hOffsets := hPerm.map ChainBlock.offset
  rw [List.map_cons, hOffset] at hOffsets
  exact hOffsets

/- The block that is handed out was not allocated before. -/
theorem HandsOut.not_mem
    {bp size : Nat}
    (h : view.HandsOut next bp size)
    (hStands : next.Stands table m) :
    bp ∉ view.allocatedOffsets := by
  have hNodup := hStands.nodup_allocatedOffsets
  rw [h.perm_offsets.nodup_iff, List.nodup_cons] at hNodup
  exact hNodup.1

/- Taking back removes the allocated block at the offset. -/
theorem TakesBack.allocatedBlocks_eq
    {bp : Nat}
    (h : view.TakesBack next bp)
    (hStands : view.Stands table m) :
    next.allocatedBlocks = view.others bp := by
  rcases h with
    ⟨front, block, back, hBlocks, hAllocated, hOffset, rfl⟩
  have hSplit : view.allocatedBlocks =
      front.filter (fun block => block.header.allocated) ++
        block ::
          back.filter (fun block => block.header.allocated) := by
    unfold allocatedBlocks
    rw [hBlocks, List.filter_append, List.filter_cons_of_pos
      (by exact hAllocated)]
  rw [← hOffset, hStands.others_eq hSplit]
  unfold allocatedBlocks
  rw [allocated_settle, List.filter_append]

/- Taking back removes one offset from those of before. -/
theorem TakesBack.perm_offsets
    {bp : Nat}
    (h : view.TakesBack next bp)
    (hStands : view.Stands table m) :
    view.allocatedOffsets.Perm (bp :: next.allocatedOffsets) := by
  have hNext := h.allocatedBlocks_eq hStands
  rcases h with ⟨_, block, _, hBlocks, hAllocated, rfl, _⟩
  have hBlock : block ∈ view.allocatedBlocks := by
    rw [mem_allocatedBlocks_iff, hBlocks]
    exact ⟨List.mem_append_right _ List.mem_cons_self,
      hAllocated⟩
  rw [allocatedOffsets_eq, allocatedOffsets_eq, hNext]
  exact (hStands.perm_others hBlock).map ChainBlock.offset

------------------------------------------------------------
-- Payloads
------------------------------------------------------------

/-
  A heap has the same view after bytes were written between
  the tags of an allocated block, and the other payloads are
  the same.
-/
theorem Stands.overwrite
    {n : Memory}
    {front back : List ChainBlock}
    {block : ChainBlock}
    (h : view.Stands table m)
    (hBlocks : view.blocks = front ++ block :: back)
    (hAllocated : block.header.allocated = true)
    (hSize : n.size = m.size)
    (hBytes : ∀ i,
      i < block.offset ∨
        block.offset + block.header.size ≤ i + doubleWord →
          n.byte i = m.byte i) :
    view.Stands table n ∧
      m.KeepsPayloads n (view.others block.offset) := by
  have hSizes := layout_sizes
  have hHeap := h.heap
  rw [hBlocks] at hHeap
  have hWork := hHeap.takeUp hAllocated
  have hTagged := hWork.tagged block OpenHeap.mem_work
  have hBounds := hWork.bounds OpenHeap.mem_work
  have hStretch : Tiles block.offset [block]
      (block.offset + block.header.size) :=
    ⟨rfl, rfl⟩
  have hOutside : ∀ i,
      i + wordSize < block.offset ∨
        block.offset + block.header.size ≤ i + wordSize →
      n.byte i = m.byte i := by
    intro i hi
    exact hBytes i (by omega)
  have hStays : n.Tagged block := by
    apply hTagged.of_agrees (Nat.le_of_eq hSize.symm)
    · intro i hi hi'
      exact hBytes i (by omega)
    · intro i hi hi'
      exact hBytes i (by omega)
  rcases hWork.retag hStretch hStretch (List.cons_ne_nil _ _)
      hSize hOutside
      (fun other hOther =>
        List.mem_singleton.1 hOther ▸ hStays)
      (fun other hOther =>
        List.mem_singleton.1 hOther ▸ hBounds.2.1) with
    ⟨hNew, hKeeps⟩
  have hRest := hNew.putBack hAllocated
  rw [← hBlocks] at hRest
  refine ⟨⟨hRest, h.coalesced⟩, hKeeps.mono ?_⟩
  intro other hOther _
  rcases List.mem_filter.1 hOther with ⟨hMem, hNe⟩
  have hIn := (mem_allocatedBlocks_iff.1 hMem).1
  rw [hBlocks] at hIn
  rcases List.mem_append.1 hIn with hFront | hBack
  · exact List.mem_append_left _ hFront
  · rcases List.mem_cons.1 hBack with hEq | hBack
    · rw [hEq] at hNe
      simp at hNe
    · exact List.mem_append_right _ hBack

end HeapView

end SegregatedFit
