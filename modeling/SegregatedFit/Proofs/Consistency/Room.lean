import SegregatedFit.Proofs.Consistency.Redundancy
import SegregatedFit.Proofs.Heap.Merging

/-
  How much room there is in the blocks of an accepted heap.

  A free block has room for its links.  In a smaller one the
  footer and the header behind would be the links, and those
  are all of one parity.  An allocated block has no links
  yet, so it may have room for its tags only.  Once it is
  free its second link stands where the header behind it was.

  Key theorems include:
    * `HeapView.Describes.roomy_of_free`
    * `HeapView.Describes.minimumBlock_le_of_nextLink`
    * `HeapView.Describes.coalesce_small`
-/

namespace SegregatedFit

------------------------------------------------------------
-- Room in Free Blocks
------------------------------------------------------------

namespace HeapView.Describes

variable {view : HeapView}
variable {table : SentinelTable}
variable {m : Memory}
variable {block : ChainBlock}

/- Blocks are whole double words behind the table. -/
theorem offset_mod
    (h : view.Describes table m)
    (hBlock : block ∈ table.prologueBlock :: view.blocks) :
    block.offset % doubleWord = table.offset % doubleWord := by
  rw [h.outlines.chained_prologue.offset_mod hBlock, table.prologue_eq]
  exact Nat.add_mul_mod_self_right table.offset 11 doubleWord

/-
  At an aligned base all blocks are told of if the table is
  off the double word, and none otherwise.
-/
theorem misalignments_eq
    {base : Nat}
    (h : view.Describes table m)
    (hBase : base % doubleWord = 0) :
    misalignments base (table.prologueBlock :: view.blocks) =
      if table.offset % doubleWord = 0 then
        []
      else
        (table.prologueBlock :: view.blocks).map
          (fun block => .misaligned block.offset) := by
  have hMod : ∀ block ∈ table.prologueBlock :: view.blocks,
      (base + block.offset) % doubleWord =
        table.offset % doubleWord := by
    intro block hBlock
    rw [Nat.add_mod, hBase, Nat.zero_add, Nat.mod_mod,
      h.offset_mod hBlock]
  by_cases hTable : table.offset % doubleWord = 0
  · rw [if_pos hTable]
    apply misalignments_eq_nil
    intro block hBlock
    exact (hMod block hBlock).trans hTable
  · rw [if_neg hTable]
    apply misalignments_eq_map
    intro block hBlock
    rw [hMod block hBlock]
    exact hTable

/- Sentinels and listed nodes are whole double words apart. -/
theorem node_mod
    {c node : Nat}
    (h : view.Describes table m)
    (hc : c < SizeClass.count)
    (hNode : node ∈ table.sentinel c :: view.lists c) :
    node % doubleWord = table.offset % doubleWord := by
  rcases List.mem_cons.1 hNode with rfl | hNode
  · exact Nat.add_mul_mod_self_right _ _ _
  · rcases h.exists_block hc hNode with
      ⟨other, hOther, _, rfl, _⟩
    exact h.offset_mod (List.mem_cons_of_mem _ hOther)

/- Behind a free block stands a header that is allocated. -/
theorem header_behind
    (h : view.Describes table m)
    (hBlock : block ∈ view.blocks)
    (hFree : block.header.allocated = false) :
    ∃ tag,
      m.header (block.offset + block.header.size) = .ok tag ∧
        tag.allocated = true := by
  rcases List.append_of_mem hBlock with ⟨front, back, hBlocks⟩
  have hChained := h.chained
  have hCoalesced := h.coalesced
  rw [hBlocks] at hChained hCoalesced
  rcases Memory.chained_append_iff.1 hChained with
    ⟨_, _, rfl, _, _, _, hBack⟩
  have hStarts :=
    ((noFreeNeighbours_free_iff hFree).1 hCoalesced).2.2.2
  cases back with
  | nil =>
      have hStop :
          block.offset + block.header.size = m.size :=
        hBack
      rw [hStop]
      exact ⟨Tag.epilogue, h.epilogue, rfl⟩
  | cons next rest =>
      exact ⟨next.header, hBack.2.1, hStarts next rfl⟩

/-
  A free block has room for its links.

  If it had room for its tags only, its first link would be
  its footer and its second one the header behind it.  All
  links have the same parity, but one of these tags is free
  and the other one is allocated.
-/
theorem roomy_of_free
    (h : view.Describes table m)
    (hBlock : block ∈ view.blocks)
    (hFree : block.header.allocated = false) :
    minimumBlock ≤ block.header.size := by
  have hBounds := h.bounds hBlock
  have hMod := Memory.size_mod_of_header
    (h.chained.header_eq hBlock).1
  by_contra hSmall
  have hSize : block.header.size = 16 := by
    simp only [doubleWord, minimumBlock] at hBounds hMod hSmall
    omega
  have hc := SizeClass.classify_lt block.header.size
  have hNode := (h.mem_list_iff _ hc block.offset).2
    ⟨block, mem_freeBlocks_iff.2 ⟨hBlock, hFree⟩, rfl, rfl⟩
  rcases (h.ring _ hc).exists_next
      (List.mem_cons_of_mem _ hNode) with
    ⟨next, hNextNode, hNext, _⟩
  rcases (h.ring _ hc).exists_previous
      (List.mem_cons_of_mem _ hNode) with
    ⟨previous, hPreviousNode, _, hPrevious⟩
  have hNextMod := h.node_mod hc hNextNode
  have hPreviousMod := h.node_mod hc hPreviousNode
  -- The footer is the first link.
  have hFooter := h.chained.previousFooter_eq hBlock
  rw [h.footer_eq block hBlock, hSize,
    Memory.previousFooter_eq_ok_iff,
    Memory.loadTag_eq_ok_iff] at hFooter
  rcases hFooter with ⟨_, word, hWord, hTag⟩
  have hFirst : word = next :=
    Except.ok.inj (hWord.symm.trans hNext)
  -- The header behind the block is the second link.
  rcases h.header_behind hBlock hFree with
    ⟨behind, hBehind, hAllocated⟩
  rw [hSize, Memory.header_eq_ok_iff,
    Memory.loadTag_eq_ok_iff] at hBehind
  rcases hBehind with ⟨_, word', hWord', hTag'⟩
  have hSecond : word' = previous :=
    Except.ok.inj (hWord'.symm.trans
      (Memory.previousLink_eq_ok_iff.1 hPrevious).2)
  subst hFirst hSecond
  rw [← hTag] at hFree
  rw [← hTag'] at hAllocated
  have hEven : ¬ word % 2 = 1 := of_decide_eq_false hFree
  have hOdd : word' % 2 = 1 := of_decide_eq_true hAllocated
  simp only [doubleWord] at hNextMod hPreviousMod
  omega

/- The first node of a list is a block with room. -/
theorem minimumBlock_le_of_nextLink
    {c bp : Nat}
    {tag : Tag}
    (h : view.Describes table m)
    (hc : c < SizeClass.count)
    (hFirst : m.nextLink (table.sentinel c) = .ok bp)
    (hBehind : table.firstBlock ≤ bp)
    (hHeader : m.header bp = .ok tag) :
    minimumBlock ≤ tag.size := by
  have hSizes := layout_sizes
  have hStart := table.firstBlock_eq
  have hInside := table.sentinel_inside hc
  have hHead := Memory.Links.nextLink_eq (h.ring c hc)
  rw [hFirst] at hHead
  have hNode : bp ∈ view.lists c := by
    cases hList : view.lists c with
    | nil =>
        rw [hList] at hHead
        have hEq : bp = table.sentinel c :=
          Except.ok.inj hHead
        omega
    | cons first rest =>
        rw [hList] at hHead
        have hEq : bp = first := Except.ok.inj hHead
        exact hEq ▸ List.mem_cons_self
  rcases h.exists_block hc hNode with
    ⟨block, hBlock, hFree, rfl, _⟩
  rw [(h.chained.header_eq hBlock).1] at hHeader
  cases hHeader
  exact h.roomy_of_free hBlock hFree

------------------------------------------------------------
-- Blocks without Room
------------------------------------------------------------

/- Listed nodes end in front of an allocated block or behind it. -/
theorem listed_apart
    {c node : Nat}
    (h : view.Describes table m)
    (hBlock : block ∈ view.blocks)
    (hAllocated : block.header.allocated = true)
    (hc : c < SizeClass.count)
    (hNode : node ∈ view.lists c) :
    node + minimumBlock ≤ block.offset ∨
      block.offset + block.header.size ≤ node := by
  rcases h.exists_block hc hNode with
    ⟨other, hOther, hFree, rfl, _⟩
  have hRoom := h.roomy_of_free hOther hFree
  rcases h.chained.tiles.apart hOther hBlock with
    rfl | hApart
  · rw [hFree] at hAllocated
    cases hAllocated
  · omega

/- The table holds the lists of a heap with a view. -/
theorem holds
    (h : view.Describes table m) :
    table.Holds m view.lists := by
  apply SentinelTable.holds_of_tiles h.chained.tiles h.ring
    h.nodup
  · intro block hBlock
    exact (h.bounds hBlock).2.1
  · intro c hc x hx
    rcases h.exists_block hc hx with
      ⟨block, hBlock, _, hOffset, hClass⟩
    exact ⟨block, hBlock, hOffset, hClass⟩

/-
  An allocated block with room for its tags only can be
  marked free.  The bytes of its own words change, and no
  node of a list is near them.
-/
theorem retag_small
    (h : view.Describes table m)
    (hWord : m.size < Word.limit)
    (hBlock : block ∈ view.blocks)
    (hAllocated : block.header.allocated = true)
    (hSize : block.header.size = doubleWord) :
    ∃ half,
      m.writeTags block.offset {
        size := block.header.size, allocated := false } =
          .ok half ∧
      half.size = m.size ∧
      half.header block.offset = .ok {
        size := block.header.size, allocated := false } ∧
      (∀ i,
        i + wordSize < block.offset ∨
          block.offset + wordSize ≤ i →
        half.byte i = m.byte i) ∧
      table.Holds half view.lists := by
  have hSizes := layout_sizes
  have hFirst := table.firstBlock_eq
  have hBounds := h.bounds hBlock
  have hMod := Memory.size_mod_of_header
    (h.chained.header_eq hBlock).1
  rcases m.exists_writeTags block.offset
      { size := block.header.size, allocated := false }
      (by omega) (by dsimp only; omega) (by dsimp only; omega)
      (by omega) (by dsimp only; omega) with
    ⟨half, hWrite⟩
  have hHalfSize := Memory.size_of_writeTags hWrite
  have hBytes : ∀ i,
      i + wordSize < block.offset ∨
        block.offset + wordSize ≤ i →
      half.byte i = m.byte i := by
    intro i hi
    apply Memory.byte_of_writeTags hWrite
    · omega
    · dsimp only
      omega
  refine ⟨half, hWrite, hHalfSize,
    Memory.header_of_writeTags hMod hWrite, hBytes, ?_⟩
  have hOld := h.holds
  refine ⟨?_, hOld.nodup, hOld.apart, hOld.off_table⟩
  intro c hc
  apply (h.ring c hc).of_agrees (Nat.le_of_eq hHalfSize.symm)
  intro x hx i hi hi'
  apply hBytes
  rcases List.mem_cons.1 hx with rfl | hx
  · have hInside := table.sentinel_inside hc
    omega
  · have hApart := h.listed_apart hBlock hAllocated hc hx
    omega

/-
  Such a block can be listed between two allocated ones.  It
  is then the first node of its list and has kept its header.
-/
theorem coalesce_small
    {before behind : Tag}
    (h : view.Describes table m)
    (hWord : m.size < Word.limit)
    (hBlock : block ∈ view.blocks)
    (hAllocated : block.header.allocated = true)
    (hSize : block.header.size = doubleWord)
    (hBefore : m.previousFooter block.offset = .ok before)
    (hBehind :
      m.header (block.offset + block.header.size) = .ok behind)
    (hNeighbours :
      before.allocated = true ∧ behind.allocated = true) :
    ∃ half n,
      m.writeTags block.offset {
        size := block.header.size, allocated := false } =
          .ok half ∧
      table.coalesce half block.offset = .ok (n, block.offset) ∧
      n.size = m.size ∧
      n.header block.offset = .ok {
        size := block.header.size, allocated := false } ∧
      n.nextLink (table.sentinel
        (SizeClass.classify block.header.size)) =
          .ok block.offset := by
  have hSizes := layout_sizes
  have hFirst := table.firstBlock_eq
  have hBounds := h.bounds hBlock
  have hc := SizeClass.classify_lt block.header.size
  rcases h.retag_small hWord hBlock hAllocated hSize with
    ⟨half, hWrite, hHalfSize, hHeader, hBytes, hHolds⟩
  -- Both neighbours are as before, so nothing merges.
  have hBefore' : half.previousFooter block.offset =
      .ok before :=
    Memory.previousFooter_of_agrees (by omega)
      (fun i _ hi => hBytes i (by omega)) hBefore
  have hBehind' :
      half.header (block.offset + block.header.size) =
        .ok behind :=
    Memory.header_of_agrees (by omega)
      (fun i hi _ => hBytes i (by omega)) hBehind
  have hMerge := Memory.merge_of_allocated hHeader
    (by dsimp only; omega) hBefore' hBehind' hNeighbours
  -- The block fits between the nodes of the lists.
  have hApart : ∀ c, c < SizeClass.count →
      ∀ x ∈ view.lists c,
        x + minimumBlock ≤ block.offset ∨
          block.offset + doubleWord ≤ x := by
    intro c hc x hx
    rw [← hSize]
    exact h.listed_apart hBlock hAllocated hc hx
  have hFresh : ∀ c, c < SizeClass.count →
      ∀ x ∈ view.lists c, Apart block.offset x := by
    intro c hc x hx
    have hx := hApart c hc x hx
    unfold Apart
    omega
  rcases hHolds.insert block.header.size
      (Or.inr (by omega)) hFresh (by omega) (by omega) with
    ⟨n, hInsert, hInsertSize, hListed, hKept⟩
  refine ⟨half, n, hWrite, ?_, hInsertSize.trans hHalfSize, ?_,
    ?_⟩
  · unfold SentinelTable.coalesce
    rw [Fault.bind_of_ok hMerge, Fault.bind_of_ok hInsert]
    rfl
  · apply Memory.header_of_agrees
      (Nat.le_of_eq hInsertSize.symm) _ hHeader
    intro i hi hi'
    apply hKept i (Or.inl hi')
    refine ⟨Or.inr (by omega), ?_⟩
    intro c hc x hx
    have hx := hApart c hc x hx
    omega
  · have hRing := hListed.ring _ hc
    rw [FreeLists.push, if_pos rfl] at hRing
    exact Memory.Links.nextLink_eq hRing

end HeapView.Describes

end SegregatedFit
