import SegregatedFit.Proofs.Allocator.Freeing

/-
  The payloads of the allocated blocks of an allocator at
  rest.

  Its callers see the size and the bytes of each of them
  without a fault, and may write any of its bytes.

  Key theorems include:
    * `Allocator.AtRest.usableSize_eq`
    * `Allocator.AtRest.payload_eq`
    * `Allocator.AtRest.readPayload_eq`
    * `Allocator.AtRest.writePayload_ok`
-/

namespace SegregatedFit

namespace Allocator

namespace AtRest

variable {a : Allocator}
variable {table : SentinelTable}
variable {view : HeapView}
variable {block : ChainBlock}

------------------------------------------------------------
-- Looking at a Block
------------------------------------------------------------

/- What is not taken by the tags is usable. -/
theorem usableSize_eq
    (h : a.AtRest table view)
    (hBlock : block ∈ view.allocatedBlocks) :
    a.usableSize { offset := block.offset } =
      .ok (block.header.size - doubleWord) := by
  have hSizes := layout_sizes
  have hBounds := h.bounds hBlock
  unfold usableSize
  rw [Fault.bind_of_ok (h.header_eq hBlock)]
  exact Word.sub_of_le (by omega)

/- The payload stands between the tags. -/
theorem payload_eq
    (h : a.AtRest table view)
    (hBlock : block ∈ view.allocatedBlocks) :
    a.payload { offset := block.offset } =
      .ok {
        start := block.offset,
        length := block.header.size - doubleWord } := by
  have hSizes := layout_sizes
  have hBounds := h.bounds hBlock
  have hLength : block.offset + block.header.size - doubleWord -
      block.offset = block.header.size - doubleWord := by
    omega
  unfold payload
  dsimp only
  rw [Fault.bind_of_ok (h.header_eq hBlock),
    Fault.bind_of_ok (Word.add_of_lt hBounds.2.2.2),
    Fault.bind_of_ok (Word.sub_of_le (by omega)),
    if_pos (by omega), hLength]
  rfl

/- An allocated block is seen as such. -/
theorem block_eq
    (h : a.AtRest table view)
    (hBlock : block ∈ view.allocatedBlocks) :
    a.block { offset := block.offset } =
      .ok (.allocated block.header.size) := by
  have hState := (HeapView.mem_allocatedBlocks_iff.1 hBlock).2
  unfold Allocator.block Memory.block
  rw [Fault.bind_of_ok (h.header_eq hBlock), if_pos hState]
  rfl

/- The bytes of a payload are those of the memory. -/
theorem readPayload_eq
    {position length : Nat}
    (h : a.AtRest table view)
    (hBlock : block ∈ view.allocatedBlocks)
    (hInside :
      position + length ≤ block.header.size - doubleWord) :
    a.readPayload { offset := block.offset } position length =
      .ok (a.memory.slice (block.offset + position) length) := by
  have hSizes := layout_sizes
  have hBounds := h.bounds hBlock
  unfold readPayload
  rw [Fault.bind_of_ok (h.payload_eq hBlock), if_pos hInside,
    Memory.load_eq_ok_iff]
  refine ⟨?_, rfl⟩
  dsimp only
  omega

------------------------------------------------------------
-- Writing a Payload
------------------------------------------------------------

/- A write inside a payload changes no other block. -/
theorem writePayload_ok
    {position : Nat}
    {bytes : List UInt8}
    (h : a.AtRest table view)
    (hBlock : block ∈ view.allocatedBlocks)
    (hInside :
      position + bytes.length ≤
        block.header.size - doubleWord) :
    ∃ n,
      a.writePayload { offset := block.offset } position bytes =
        .ok (a.withMemory n) ∧
      n.size = a.region.memory.size ∧
      a.region.Becomes { a.region with memory := n } table view
        (view.others block.offset) := by
  have hSizes := layout_sizes
  have hBounds := h.bounds hBlock
  have hStore : a.memory.store (block.offset + position) bytes =
      .ok (a.memory.overwrite (block.offset + position)
        bytes) := by
    rw [Memory.store_eq_ok_iff]
    exact ⟨by omega, rfl⟩
  have hSize := Memory.size_overwrite a.memory
    (block.offset + position) bytes
  rcases HeapView.mem_allocatedBlocks_iff.1 hBlock with
    ⟨hMem, hAllocated⟩
  rcases List.append_of_mem hMem with ⟨front, back, hBlocks⟩
  rcases h.stands.overwrite hBlocks hAllocated hSize
      (by
        intro i hi
        apply Memory.byte_overwrite_of_outside
        omega) with
    ⟨hStands, hKeeps⟩
  refine ⟨a.memory.overwrite (block.offset + position) bytes,
    ?_, hSize, h.placed.withMemory hSize, hStands, rfl,
    Nat.le_of_eq hSize.symm, hKeeps⟩
  unfold writePayload
  rw [Fault.bind_of_ok (h.payload_eq hBlock), if_pos hInside,
    Fault.bind_of_ok hStore]
  rfl

end AtRest

------------------------------------------------------------
-- Payloads that are Kept
------------------------------------------------------------

/-
  A block that stays allocated with the same payload looks
  the same to its caller.
-/
theorem payload_kept
    {a next : Allocator}
    {table : SentinelTable}
    {view view' : HeapView}
    {block : ChainBlock}
    {kept : List ChainBlock}
    (h : a.AtRest table view)
    (h' : next.AtRest table view')
    (hKeeps : a.memory.KeepsPayloads next.memory kept)
    (hKept : block ∈ kept)
    (hBlock : block ∈ view.allocatedBlocks)
    (hBlock' : block ∈ view'.allocatedBlocks) :
    ∃ usable bytes,
      a.usableSize { offset := block.offset } = .ok usable ∧
      a.readPayload { offset := block.offset } 0 usable =
        .ok bytes ∧
      next.usableSize { offset := block.offset } =
        .ok usable ∧
      next.readPayload { offset := block.offset } 0 usable =
        .ok bytes := by
  have hSizes := layout_sizes
  have hBounds := h.bounds hBlock
  have hAllocated :=
    (HeapView.mem_allocatedBlocks_iff.1 hBlock).2
  have hInside : 0 + (block.header.size - doubleWord) ≤
      block.header.size - doubleWord := by
    omega
  have hBytes :
      next.memory.slice (block.offset + 0)
          (block.header.size - doubleWord) =
        a.memory.slice (block.offset + 0)
          (block.header.size - doubleWord) := by
    apply Memory.slice_congr
    intro i hi hi'
    exact hKeeps block hKept hAllocated i (by omega) (by omega)
  refine ⟨_, _, h.usableSize_eq hBlock,
    h.readPayload_eq hBlock hInside, h'.usableSize_eq hBlock',
    ?_⟩
  rw [h'.readPayload_eq hBlock' hInside, hBytes]

end Allocator

end SegregatedFit
