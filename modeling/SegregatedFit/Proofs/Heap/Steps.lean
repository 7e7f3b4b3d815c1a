import SegregatedFit.Proofs.Heap.Misfiling

/-
  The steps that operations on an open heap consist of.

  A free block leaves its list and goes to the blocks at
  work, the blocks at work get new tags, and a free block
  that was at work is listed.  No step touches the payload of
  an allocated block in front of or behind the blocks at
  work.

  Key theorems include:
    * `OpenHeap.regroup`
    * `OpenHeap.unlink`
    * `OpenHeap.retag`, `OpenHeap.fuse`
    * `OpenHeap.insert`
-/

namespace SegregatedFit

namespace OpenHeap

variable {table : SentinelTable}
variable {m n : Memory}
variable {front middle back : List ChainBlock}
variable {front' middle' back' : List ChainBlock}
variable {lists : FreeLists}

------------------------------------------------------------
-- Opening and Closing
------------------------------------------------------------

/-
  The blocks at work may be chosen anew as long as the free
  blocks outside of them stay the same.
-/
theorem regroup
    (h : OpenHeap table m front middle back lists)
    (hSame :
      front' ++ (middle' ++ back') =
        front ++ (middle ++ back))
    (hFree : ∀ block, block.header.allocated = false →
      (block ∈ front' ++ back' ↔ block ∈ front ++ back)) :
    OpenHeap table m front' middle' back' lists := by
  refine ⟨h.prologue, h.epilogue, ?_, ?_, ?_, h.ring, h.nodup,
    ?_⟩
  · rw [hSame]
    exact h.tiles
  · rw [hSame]
    exact h.tagged
  · rw [hSame]
    exact h.roomy
  · intro c hc node
    rw [h.mem_list_iff c hc node]
    constructor
    · intro hMem
      rcases hMem with ⟨block, hBlock, hState, hRest⟩
      exact ⟨block, (hFree block hState).2 hBlock, hState,
        hRest⟩
    · intro hMem
      rcases hMem with ⟨block, hBlock, hState, hRest⟩
      exact ⟨block, (hFree block hState).1 hBlock, hState,
        hRest⟩

/- An allocated block is not a free one. -/
theorem ne_of_allocated
    {block other : ChainBlock}
    (hAllocated : block.header.allocated = true)
    (hFree : other.header.allocated = false) :
    other ≠ block := by
  intro hEq
  rw [hEq, hAllocated] at hFree
  cases hFree

/- An allocated block of a heap at rest is put to work. -/
theorem takeUp
    {block : ChainBlock}
    (h : OpenHeap table m (front ++ block :: back) [] [] lists)
    (hAllocated : block.header.allocated = true) :
    OpenHeap table m front [block] back lists := by
  apply h.regroup
  · simp
  · intro other hFree
    have hNe := ne_of_allocated hAllocated hFree
    simp [hNe]

/- An allocated block at work is put back. -/
theorem putBack
    {block : ChainBlock}
    (h : OpenHeap table m front [block] back lists)
    (hAllocated : block.header.allocated = true) :
    OpenHeap table m (front ++ block :: back) [] [] lists := by
  apply h.regroup
  · simp
  · intro other hFree
    have hNe := ne_of_allocated hAllocated hFree
    simp [hNe]

/- An allocated block leaves those at work for those in front. -/
theorem pass
    {block : ChainBlock}
    (h : OpenHeap table m front (block :: middle) back lists)
    (hAllocated : block.header.allocated = true) :
    OpenHeap table m (front ++ [block]) middle back lists := by
  apply h.regroup
  · simp
  · intro other hFree
    have hNe := ne_of_allocated hAllocated hFree
    simp [hNe]

------------------------------------------------------------
-- Leaving a List
------------------------------------------------------------

/-
  A free block in front of or behind the blocks at work
  leaves its list and joins them.
-/
theorem unlink
    {block : ChainBlock}
    (h : OpenHeap table m front middle back lists)
    (hSame :
      front' ++ (middle' ++ back') =
        front ++ (middle ++ back))
    (hPerm :
      (front ++ back).Perm (block :: (front' ++ back')))
    (hFree : block.header.allocated = false) :
    ∃ n, m.unlink block.offset = .ok n ∧
      n.size = m.size ∧
      OpenHeap table n front' middle' back'
        (FreeLists.drop lists block.offset) ∧
      m.KeepsPayloads n (front' ++ back') := by
  have hc := SizeClass.classify_lt block.header.size
  have hBlock : block ∈ front ++ back :=
    hPerm.mem_iff.2 List.mem_cons_self
  have hBlock' : block ∈ front ++ (middle ++ back) :=
    mem_blocks hBlock
  have hListed :
      block.offset ∈
        lists (SizeClass.classify block.header.size) :=
    (h.mem_list_iff _ hc _).2
      ⟨block, hBlock, hFree, rfl, rfl⟩
  rcases h.holds.unlink hc hListed with
    ⟨n, hUnlink, hSize, hHolds, hOff⟩
  have hBytes : ∀ i,
      OffFree table (front ++ (middle ++ back)) i →
        n.byte i = m.byte i := by
    intro i hi
    exact hOff i (h.offLinks_of_offFree hi)
  rcases h.keepsTags hSize hBytes with
    ⟨hPrologue, hEpilogue, hTagged⟩
  have hNodup : (block :: (front' ++ back')).Nodup := by
    rw [← hPerm.nodup_iff]
    apply List.Nodup.sublist _ h.nodup_blocks
    apply List.Sublist.append (List.Sublist.refl front)
    exact List.sublist_append_right middle back
  have hKeeps : m.KeepsPayloads n (front' ++ back') := by
    apply (h.keepsPayloads hBytes).mono
    intro other hOther _
    exact mem_blocks
      (hPerm.mem_iff.2 (List.mem_cons_of_mem block hOther))
  refine ⟨n, hUnlink, hSize, ?_, hKeeps⟩
  refine ⟨hPrologue, hEpilogue, ?_, ?_, ?_,
    hHolds.ring, hHolds.nodup, ?_⟩
  · rw [hSame, hSize]
    exact h.tiles
  · rw [hSame]
    exact hTagged
  · rw [hSame]
    exact h.roomy
  · intro d hd node
    unfold FreeLists.drop
    rw [(h.nodup d hd).mem_erase_iff, h.mem_list_iff d hd node]
    constructor
    · intro hMem
      rcases hMem with ⟨hNe, other, hOther, hState, hOffset, hClass⟩
      refine ⟨other, ?_, hState, hOffset, hClass⟩
      rcases List.mem_cons.1 (hPerm.mem_iff.1 hOther) with
        hEq | hRest
      · exact absurd (hEq ▸ hOffset.symm) hNe
      · exact hRest
    · intro hMem
      rcases hMem with ⟨other, hOther, hState, hOffset, hClass⟩
      have hOther' : other ∈ front ++ back :=
        hPerm.mem_iff.2 (List.mem_cons_of_mem block hOther)
      refine ⟨?_, other, hOther', hState, hOffset, hClass⟩
      intro hEq
      have hSameBlock : other = block :=
        h.eq_of_offset_eq (mem_blocks hOther') hBlock'
          (hOffset.trans hEq)
      exact (List.nodup_cons.1 hNodup).1 (hSameBlock ▸ hOther)

/- The free block in front of the blocks at work joins them. -/
theorem unlink_previous
    {previous : ChainBlock}
    (h : OpenHeap table m (front ++ [previous]) middle back
      lists)
    (hFree : previous.header.allocated = false) :
    ∃ n, m.unlink previous.offset = .ok n ∧
      n.size = m.size ∧
      OpenHeap table n front (previous :: middle) back
        (FreeLists.drop lists previous.offset) ∧
      m.KeepsPayloads n (front ++ back) := by
  apply h.unlink _ _ hFree
  · simp
  · rw [List.append_assoc]
    exact List.perm_middle

/- The free block behind the blocks at work joins them. -/
theorem unlink_next
    {next : ChainBlock}
    (h : OpenHeap table m front middle (next :: back) lists)
    (hFree : next.header.allocated = false) :
    ∃ n, m.unlink next.offset = .ok n ∧
      n.size = m.size ∧
      OpenHeap table n front (middle ++ [next]) back
        (FreeLists.drop lists next.offset) ∧
      m.KeepsPayloads n (front ++ back) := by
  apply h.unlink _ _ hFree
  · simp
  · exact List.perm_middle

/- A free block of a heap at rest is put to work. -/
theorem unlink_block
    {block : ChainBlock}
    (h : OpenHeap table m (front ++ block :: back) [] [] lists)
    (hFree : block.header.allocated = false) :
    ∃ n, m.unlink block.offset = .ok n ∧
      n.size = m.size ∧
      OpenHeap table n front [block] back
        (FreeLists.drop lists block.offset) ∧
      m.KeepsPayloads n (front ++ back) := by
  apply h.unlink _ _ hFree
  · simp
  · rw [List.append_nil]
    exact List.perm_middle

------------------------------------------------------------
-- New Tags
------------------------------------------------------------

/- The blocks at work begin and end where the others leave off. -/
theorem tiles_around
    {start stop : Nat}
    (h : OpenHeap table m front middle back lists)
    (hMiddle : Tiles start middle stop)
    (hSome : middle ≠ []) :
    Tiles table.firstBlock front start ∧
      Tiles stop back m.size := by
  rcases tiles_append_iff.1 h.tiles with ⟨left, hFront, hRest⟩
  rcases tiles_append_iff.1 hRest with ⟨right, hWork, hBack⟩
  have hLeft : left = start := by
    cases middle with
    | nil => exact absurd rfl hSome
    | cons block blocks =>
        exact hWork.1.symm.trans hMiddle.1
  subst hLeft
  have hRight : right = stop := by
    rw [hWork.stop_eq, hMiddle.stop_eq]
  subst hRight
  exact ⟨hFront, hBack⟩

/-
  The blocks at work may be replaced by others on the same
  stretch, once these have their tags.
-/
theorem retag
    {start stop : Nat}
    (h : OpenHeap table m front middle back lists)
    (hOld : Tiles start middle stop)
    (hNew : Tiles start middle' stop)
    (hSome : middle ≠ [])
    (hSize : n.size = m.size)
    (hBytes : ∀ i,
      i + wordSize < start ∨ stop ≤ i + wordSize →
        n.byte i = m.byte i)
    (hTagged : ∀ block ∈ middle', n.Tagged block)
    (hRoomy : ∀ block ∈ middle',
      minimumBlock ≤ block.header.size) :
    OpenHeap table n front middle' back lists ∧
      m.KeepsPayloads n (front ++ back) := by
  have hSizes := layout_sizes
  have hFirst := table.firstBlock_eq
  have hCut := h.tiles_around hOld hSome
  have hOrder : table.firstBlock ≤ start ∧
      start ≤ stop ∧ stop ≤ m.size := by
    have hFrontStop := hCut.1.stop_eq
    have hMiddleStop := hOld.stop_eq
    have hBackStop := hCut.2.stop_eq
    omega
  -- Blocks outside lie wholly on one side of the stretch.
  have hSame : ∀ block ∈ front ++ back,
      m.Agrees n (block.offset - wordSize)
        (block.offset + block.header.size - wordSize) := by
    intro block hBlock i hi hi'
    have hBounds := h.bounds (mem_blocks hBlock)
    apply hBytes
    rcases List.mem_append.1 hBlock with hMem | hMem
    · have hLeft := (hCut.1.bounds hMem).2
      omega
    · have hRight := (hCut.2.bounds hMem).1
      omega
  have hTable : m.Agrees n table.offset
      (table.firstBlock - wordSize) := by
    intro i hi hi'
    exact hBytes i (by omega)
  have hLe : m.size ≤ n.size := Nat.le_of_eq hSize.symm
  rcases h.outside_of_agrees hLe hTable hSame with
    ⟨hPrologue, hOutside, hRings, hPayloads⟩
  refine ⟨⟨hPrologue, ?_, ?_, ?_, ?_, hRings, h.nodup,
    h.mem_list_iff⟩, hPayloads⟩
  · rw [hSize]
    apply Memory.header_of_agrees hLe _ h.epilogue
    intro i hi hi'
    exact hBytes i (by omega)
  · rw [hSize, tiles_append_iff]
    refine ⟨start, hCut.1, ?_⟩
    rw [tiles_append_iff]
    exact ⟨stop, hNew, hCut.2⟩
  · intro block hBlock
    rcases mem_cases hBlock with hWork | hOther
    · exact hTagged block hWork
    · exact hOutside block hOther
  · intro block hBlock
    rcases mem_cases hBlock with hWork | hOther
    · exact hRoomy block hWork
    · exact h.roomy block (mem_blocks hOther)

/-
  One pair of tags around the blocks at work makes one block
  of them.
-/
theorem fuse
    {offset size : Nat}
    (h : OpenHeap table m front middle back lists)
    (allocated : Bool)
    (hTiles : Tiles offset middle (offset + size))
    (hSome : middle ≠ [])
    (hMod : size % doubleWord = 0) :
    ∃ n,
      m.writeTags offset
        { size := size, allocated := allocated } = .ok n ∧
      n.size = m.size ∧
      OpenHeap table n front
        [.ofTag offset { size := size, allocated := allocated }]
        back lists ∧
      m.KeepsPayloads n (front ++ back) := by
  have hSizes := layout_sizes
  have hFirst := table.firstBlock_eq
  have hStart : table.firstBlock ≤ offset := by
    cases middle with
    | nil => exact absurd rfl hSome
    | cons first rest =>
        have hBounds := h.bounds mem_work
        have hOffset := hTiles.1
        omega
  have hStop : offset + minimumBlock ≤ offset + size ∧
      offset + size ≤ m.size ∧ offset + size < Word.limit := by
    rcases List.eq_nil_or_concat middle with
      hNil | ⟨rest, last, hEq⟩
    · exact absurd hNil hSome
    · subst hEq
      rw [List.concat_eq_append] at h hTiles
      have hLastMem :
          last ∈ front ++ ((rest ++ [last]) ++ back) := by
        simp
      have hBounds := h.bounds hLastMem
      have hCut := tiles_cut_iff.1 hTiles
      have hRest := hCut.1.stop_eq
      have hLast : last.offset + last.header.size =
          offset + size := hCut.2
      omega
  rcases m.exists_writeTags offset
      { size := size, allocated := allocated }
      (by omega) (by dsimp only; omega) (by dsimp only; omega)
      (by omega) (by dsimp only; omega) with
    ⟨n, hWrite⟩
  have hSize := Memory.size_of_writeTags hWrite
  have hBytes : ∀ i,
      i + wordSize < offset ∨ offset + size ≤ i + wordSize →
        n.byte i = m.byte i := by
    intro i hi
    apply Memory.byte_of_writeTags hWrite
    · omega
    · dsimp only
      omega
  have hNew : Tiles offset
      [.ofTag offset { size := size, allocated := allocated }]
      (offset + size) :=
    ⟨rfl, rfl⟩
  rcases h.retag hTiles hNew hSome hSize hBytes
      (by
        intro block hBlock
        rw [List.mem_singleton.1 hBlock]
        exact Memory.tagged_of_writeTags hMod hWrite)
      (by
        intro block hBlock
        rw [List.mem_singleton.1 hBlock]
        change minimumBlock ≤ size
        omega) with
    ⟨hHeap, hKeeps⟩
  exact ⟨n, hWrite, hSize, hHeap, hKeeps⟩

/- The blocks at work take a number of whole double words. -/
theorem extent_mod
    (h : OpenHeap table m front middle back lists) :
    extent middle % doubleWord = 0 := by
  have hAll : ∀ blocks : List ChainBlock,
      (∀ block ∈ blocks, m.Tagged block) →
      extent blocks % doubleWord = 0 := by
    intro blocks
    induction blocks with
    | nil =>
        intro _
        rfl
    | cons block blocks ih =>
        intro hTagged
        have hBlock :=
          (hTagged block List.mem_cons_self).size_mod
        have hRest := ih (fun other hOther =>
          hTagged other (List.mem_cons_of_mem block hOther))
        unfold extent at hRest ⊢
        rw [List.map_cons, List.sum_cons, Nat.add_mod, hBlock,
          hRest]
        rfl
  apply hAll
  intro block hBlock
  apply h.tagged
  exact List.mem_append_right _ (List.mem_append_left _ hBlock)

------------------------------------------------------------
-- Entering a List
------------------------------------------------------------

/- A free block that was at work is listed in its class. -/
theorem insert
    {block : ChainBlock}
    (h : OpenHeap table m front [block] back lists)
    (hFree : block.header.allocated = false) :
    ∃ n, table.insert m block.offset block.header.size = .ok n ∧
      n.size = m.size ∧
      OpenHeap table n (front ++ block :: back) [] []
        (FreeLists.push lists
          (SizeClass.classify block.header.size)
          block.offset) ∧
      m.KeepsPayloads n (front ++ back) := by
  rcases h.enlist hFree block.header.size with
    ⟨n, hInsert, hSize, hFiled, hKeeps⟩
  exact ⟨n, hInsert, hSize, (filedAs_classify_iff hFree).1 hFiled,
    hKeeps⟩

end OpenHeap

end SegregatedFit
