import SegregatedFit.Allocator.Placement
import SegregatedFit.Proofs.Block.Neighbours
import SegregatedFit.Proofs.Heap.Steps

/-
  What handing out a free block does to a heap.

  The block leaves its list and becomes allocated.  If what
  is left over has room for a block, that block is free and
  enters the list of its class: `HeapView.carve`.

  Key definitions include:
    * `ChainBlock.handedOut`, `ChainBlock.leftOver`
    * `HeapView.carve`

  Key theorems include:
    * `HeapView.allocated_carve`
    * `OpenHeap.place`
-/

namespace SegregatedFit

------------------------------------------------------------
-- Cutting a Block
------------------------------------------------------------

/- What a block becomes when `size` bytes of it are handed out. -/
def ChainBlock.handedOut
    (block : ChainBlock)
    (size : Nat) : ChainBlock :=
  .ofTag block.offset {
    size :=
      if minimumBlock ≤ block.header.size - size then
        size
      else
        block.header.size,
    allocated := true }

/- The free block that is left over, if there is one. -/
def ChainBlock.leftOver
    (block : ChainBlock)
    (size : Nat) : Option ChainBlock :=
  if minimumBlock ≤ block.header.size - size then
    some (.ofTag (block.offset + size) {
      size := block.header.size - size,
      allocated := false })
  else
    none

/- A block cut in two, a part in use and a free one. -/
def ChainBlock.halves
    (block : ChainBlock)
    (size : Nat) : List ChainBlock :=
  [.ofTag block.offset { size := size, allocated := true },
    .ofTag (block.offset + size) {
      size := block.header.size - size,
      allocated := false }]

/- The lists after what is left over has been listed. -/
def FreeLists.pushSome
    (lists : FreeLists) :
    Option ChainBlock → FreeLists
| none => lists
| some block =>
    push lists (SizeClass.classify block.header.size)
      block.offset

/-
  The view after `size` bytes of a free block between two
  rows have been handed out.
-/
def HeapView.carve
    (front : List ChainBlock)
    (block : ChainBlock)
    (back : List ChainBlock)
    (lists : FreeLists)
    (size : Nat) : HeapView where
  blocks :=
    front ++ block.handedOut size ::
      ((block.leftOver size).toList ++ back)
  lists :=
    FreeLists.pushSome (FreeLists.drop lists block.offset)
      (block.leftOver size)

/- The block that is handed out is at least as asked for. -/
theorem ChainBlock.le_size_handedOut
    {block : ChainBlock}
    {size : Nat}
    (hFits : size ≤ block.header.size) :
    size ≤ (block.handedOut size).header.size := by
  unfold handedOut ofTag
  dsimp only
  split
  · exact Nat.le_refl size
  · exact hFits

/- What is left over is free. -/
theorem ChainBlock.leftOver_free
    {block rest : ChainBlock}
    {size : Nat}
    (h : block.leftOver size = some rest) :
    rest.header.allocated = false := by
  unfold leftOver at h
  split at h
  · cases h
    rfl
  · cases h

/- What is left over is not among the allocated blocks. -/
theorem ChainBlock.allocated_leftOver
    (block : ChainBlock)
    (size : Nat) :
    (block.leftOver size).toList.filter
      (fun block => block.header.allocated) = [] := by
  rw [List.filter_eq_nil_iff]
  intro rest hRest
  rw [Option.mem_toList] at hRest
  simp [leftOver_free hRest]

/- Handing out a free block adds it to the allocated ones. -/
theorem HeapView.allocated_carve
    (front : List ChainBlock)
    (block : ChainBlock)
    (back : List ChainBlock)
    (lists : FreeLists)
    (size : Nat) :
    (carve front block back lists size).blocks.filter
        (fun block => block.header.allocated) =
      front.filter (fun block => block.header.allocated) ++
        block.handedOut size ::
          back.filter (fun block => block.header.allocated) := by
  unfold carve
  rw [List.filter_append, List.filter_cons_of_pos rfl,
    List.filter_append, block.allocated_leftOver,
    List.nil_append]

/- Handing out a block makes no free neighbours. -/
theorem HeapView.noFreeNeighbours_carve
    {front back : List ChainBlock}
    {block : ChainBlock}
    {lists : FreeLists}
    {size : Nat}
    (h : NoFreeNeighbours (front ++ block :: back))
    (hFree : block.header.allocated = false) :
    NoFreeNeighbours (carve front block back lists size).blocks := by
  rcases (noFreeNeighbours_free_iff hFree).1 h with
    ⟨hFront, hBack, _, hStarts⟩
  unfold carve
  rw [noFreeNeighbours_allocated_iff rfl]
  refine ⟨hFront, ?_⟩
  cases hRest : block.leftOver size with
  | none => exact hBack
  | some rest =>
      have hState := ChainBlock.leftOver_free hRest
      exact (noFreeNeighbours_cons_iff hState).2
        ⟨hBack, hStarts⟩

namespace OpenHeap

variable {table : SentinelTable}
variable {m : Memory}
variable {front back : List ChainBlock}
variable {block : ChainBlock}
variable {lists : FreeLists}
variable {size : Nat}

------------------------------------------------------------
-- Writing the Tags
------------------------------------------------------------

/- The two parts of a block tile what the block took. -/
theorem tiles_halves
    (hFits : size ≤ block.header.size) :
    Tiles block.offset (block.halves size)
      (block.offset + block.header.size) := by
  refine ⟨rfl, rfl, ?_⟩
  change block.offset + size + (block.header.size - size) = _
  omega

/- The block at work is cut in two, a part in use and a free one. -/
theorem divide
    (h : OpenHeap table m front [block] back lists)
    (hRoom : minimumBlock ≤ size)
    (hMod : size % doubleWord = 0)
    (hRest : minimumBlock ≤ block.header.size - size) :
    ∃ half n,
      m.writeTags block.offset
        { size := size, allocated := true } = .ok half ∧
      half.writeTags (block.offset + size)
        { size := block.header.size - size,
          allocated := false } = .ok n ∧
      n.size = m.size ∧
      OpenHeap table n front (block.halves size) back lists ∧
      m.KeepsPayloads n (front ++ back) := by
  have hSizes := layout_sizes
  have hFirst := table.firstBlock_eq
  have hBlock := h.tagged block mem_work
  have hBounds := h.bounds mem_work
  have hBlockMod := hBlock.size_mod
  rcases m.exists_writeTags block.offset
      { size := size, allocated := true }
      (by omega) (by dsimp only; omega) (by dsimp only; omega)
      (by omega) (by dsimp only; omega) with
    ⟨half, hLeft⟩
  have hHalfSize := Memory.size_of_writeTags hLeft
  rcases half.exists_writeTags (block.offset + size)
      { size := block.header.size - size, allocated := false }
      (by omega) (by dsimp only; omega) (by dsimp only; omega)
      (by omega) (by dsimp only; omega) with
    ⟨n, hRight⟩
  have hSize := Memory.size_of_writeTags hRight
  have hLeftBytes := fun i =>
    Memory.byte_of_writeTags (i := i) hLeft
  have hRightBytes := fun i =>
    Memory.byte_of_writeTags (i := i) hRight
  dsimp only at hLeftBytes hRightBytes
  have hOutside : ∀ i,
      i + wordSize < block.offset ∨
        block.offset + block.header.size ≤ i + wordSize →
      n.byte i = m.byte i := by
    intro i hi
    rw [hRightBytes i (by omega) (by omega),
      hLeftBytes i (by omega) (by omega)]
  -- The second pair of tags leaves the first alone.
  have hLeftTagged : n.Tagged (.ofTag block.offset
      { size := size, allocated := true }) := by
    apply (Memory.tagged_of_writeTags hMod hLeft).of_agrees_whole
      (Nat.le_of_eq hSize.symm)
    · exact Nat.le_trans (by decide) hRoom
    · intro i hi hi'
      dsimp only [ChainBlock.ofTag] at hi hi'
      exact hRightBytes i (by omega) (by omega)
  have hRightTagged : n.Tagged (.ofTag (block.offset + size)
      { size := block.header.size - size,
        allocated := false }) := by
    apply Memory.tagged_of_writeTags _ hRight
    exact Nat.sub_mod_eq_zero_of_mod_eq
      (hBlockMod.trans hMod.symm)
  have hTagged : ∀ other ∈ block.halves size,
      n.Tagged other := by
    intro other hOther
    rcases List.mem_cons.1 hOther with hEq | hOther
    · rw [hEq]
      exact hLeftTagged
    · rw [List.mem_singleton.1 hOther]
      exact hRightTagged
  have hRoomy : ∀ other ∈ block.halves size,
      minimumBlock ≤ other.header.size := by
    intro other hOther
    rcases List.mem_cons.1 hOther with hEq | hOther
    · rw [hEq]
      exact hRoom
    · rw [List.mem_singleton.1 hOther]
      exact hRest
  have hWhole : Tiles block.offset [block]
      (block.offset + block.header.size) :=
    ⟨rfl, rfl⟩
  rcases h.retag hWhole (tiles_halves (by omega))
      (List.cons_ne_nil _ _) (hSize.trans hHalfSize) hOutside
      hTagged hRoomy with
    ⟨hHeap, hKeeps⟩
  exact ⟨half, n, hLeft, hRight, hSize.trans hHalfSize, hHeap,
    hKeeps⟩

------------------------------------------------------------
-- Placing
------------------------------------------------------------

/- A free block is handed out and what is left over listed. -/
theorem place
    (h : OpenHeap table m (front ++ block :: back) [] [] lists)
    (hFree : block.header.allocated = false)
    (hRoom : minimumBlock ≤ size)
    (hMod : size % doubleWord = 0)
    (hFits : size ≤ block.header.size) :
    ∃ n,
      table.place m block.offset size =
        .ok (n, (block.leftOver size).map
          (fun rest => rest.header.size)) ∧
      n.size = m.size ∧
      OpenHeap table n
        (HeapView.carve front block back lists size).blocks
        [] [] (HeapView.carve front block back lists size).lists ∧
      m.KeepsPayloads n (front ++ back) := by
  have hMem :
      block ∈ (front ++ block :: back) ++ ([] ++ []) := by
    simp
  have hBlock := h.tagged block hMem
  have hBounds := h.bounds hMem
  rcases h.unlink_block hFree with
    ⟨first, hUnlink, hFirstSize, hFirst, hFirstKeeps⟩
  unfold SentinelTable.place
  rw [Fault.bind_of_ok hBlock.header_eq,
    Fault.bind_of_ok hUnlink,
    Fault.bind_of_ok (Word.sub_of_le hFits)]
  unfold HeapView.carve ChainBlock.handedOut ChainBlock.leftOver
  by_cases hRest : minimumBlock ≤ block.header.size - size
  · simp only [if_pos hRest]
    rcases hFirst.divide hRoom hMod hRest with
      ⟨half, cut, hLeft, hRight, hCutSize, hCut, hCutKeeps⟩
    -- The part in use goes to the blocks in front.
    rcases (hCut.pass rfl).insert rfl with
      ⟨n, hInsert, hSize, hHeap, hKeeps⟩
    dsimp only [ChainBlock.ofTag] at hInsert
    rw [List.append_assoc] at hHeap hKeeps
    refine ⟨n, ?_, hSize.trans (hCutSize.trans hFirstSize),
      hHeap, ?_⟩
    · rw [Fault.bind_of_ok hLeft,
        Fault.bind_of_ok (Word.add_of_lt (by omega)),
        Fault.bind_of_ok hRight, Fault.bind_of_ok hInsert]
      rfl
    · have hRow := (List.sublist_append_right
        [ChainBlock.ofTag block.offset
          { size := size, allocated := true }]
        back).append_left front
      exact (hFirstKeeps.trans hCutKeeps).trans
        (hKeeps.sublist hRow)
  · simp only [if_neg hRest]
    have hWhole : Tiles block.offset [block]
        (block.offset + block.header.size) :=
      ⟨rfl, rfl⟩
    rcases hFirst.fuse true hWhole (List.cons_ne_nil _ _)
        hBlock.size_mod with
      ⟨n, hWrite, hSize, hOccupied, hKeeps⟩
    refine ⟨n, ?_, hSize.trans hFirstSize,
      hOccupied.putBack rfl, hFirstKeeps.trans hKeeps⟩
    rw [Fault.bind_of_ok hWrite]
    rfl

end OpenHeap

end SegregatedFit
