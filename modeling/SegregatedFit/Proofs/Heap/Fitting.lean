import SegregatedFit.Proofs.Heap.Search
import SegregatedFit.Proofs.Heap.Transitions

/-
  Where a request is served.

  A search looks at the class of a size and those above it
  only.  No listed block of a lower class is large enough, so
  it finds what a search of all lists finds, from the head of
  the first list on: `HeapView.firstListed`.  If there is
  nothing to be found, the heap grows at its end, from its
  last block on if that is free: `HeapView.joint`.

  Key definitions include:
    * `HeapView.firstListed`
    * `HeapView.joint`

  Key theorems include:
    * `SizeClass.classify_mono`
    * `HeapView.Stands.firstFit_eq_firstListed`
    * `HeapView.Stands.firstListed_eq_none_iff`
    * `HeapView.Stands.offset_grownBlock`
-/

namespace SegregatedFit

------------------------------------------------------------
-- Classes in Order
------------------------------------------------------------

namespace SizeClass

/- Larger blocks have no lower class. -/
theorem classify_mono
    {size larger : Nat}
    (h : size ≤ larger) :
    classify size ≤ classify larger := by
  unfold classify
  apply List.findIdx_le_findIdx
  intro limit _ hLimit
  rw [decide_eq_true_eq] at hLimit ⊢
  exact Nat.le_trans h hLimit

/- The classes below a class come before all others. -/
theorem all_eq_append
    {c : Nat}
    (hc : c < count) :
    all = List.range' 0 c ++ upFrom c := by
  have hAppend : List.range' 0 c ++
      List.range' (0 + c) (count - c) =
        List.range' 0 (c + (count - c)) :=
    List.range'_append_1
  rw [Nat.zero_add, Nat.add_sub_of_le (Nat.le_of_lt hc)]
    at hAppend
  exact hAppend.symm

end SizeClass

namespace HeapView

variable {view : HeapView}
variable {table : SentinelTable}
variable {m : Memory}

------------------------------------------------------------
-- Searching All Lists
------------------------------------------------------------

/- The first block of at least `size` bytes in any list. -/
def firstListed
    (view : HeapView)
    (size : Nat) : Option Nat :=
  (SizeClass.all.flatMap view.lists).find? (fun node =>
    size ≤ sizeAt view.blocks node)

namespace Stands

/- Blocks of lower classes are too small. -/
theorem sizeAt_lt_of_class_lt
    {size c node : Nat}
    (h : view.Stands table m)
    (hClass : c < SizeClass.classify size)
    (hNode : node ∈ view.lists c) :
    sizeAt view.blocks node < size := by
  have hc := Nat.lt_trans hClass (SizeClass.classify_lt size)
  rcases (h.heap.mem_list_iff c hc node).1 hNode with
    ⟨block, hBlock, _, rfl, hEq⟩
  rw [h.heap.sizeAt_eq (by simpa using hBlock)]
  by_contra hLarge
  have hMono := SizeClass.classify_mono (Nat.not_lt.1 hLarge)
  omega

/-
  The search from the class of a size on finds the first
  block of all lists that is large enough.
-/
theorem firstFit_eq_firstListed
    (h : view.Stands table m)
    (size : Nat) :
    view.firstFit size = view.firstListed size := by
  have hBelow :
      (List.range' 0 (SizeClass.classify size)).findSome?
        (fun c => (view.lists c).find? (fun node =>
          size ≤ sizeAt view.blocks node)) = none := by
    rw [List.findSome?_eq_none_iff]
    intro c hc
    rw [List.mem_range'_1, Nat.zero_add] at hc
    rw [List.find?_eq_none]
    intro node hNode
    rw [decide_eq_true_eq, Nat.not_le]
    exact h.sizeAt_lt_of_class_lt hc.2 hNode
  unfold firstListed firstFit
  rw [List.find?_flatMap,
    SizeClass.all_eq_append (SizeClass.classify_lt size),
    List.findSome?_append, hBelow, Option.none_or]

/- Nothing is found exactly if all free blocks are too small. -/
theorem firstListed_eq_none_iff
    (h : view.Stands table m)
    (size : Nat) :
    view.firstListed size = none ↔
      ∀ block ∈ view.freeBlocks, block.header.size < size := by
  unfold firstListed
  rw [List.find?_eq_none]
  constructor
  · intro hNone block hBlock
    have hListed := h.listed_perm.mem_iff.2
      (List.mem_map_of_mem hBlock)
    have hSmall := hNone block.offset hListed
    rw [decide_eq_true_eq, Nat.not_le,
      h.heap.sizeAt_eq (mem_freeBlocks_iff.1 hBlock).1]
      at hSmall
    exact hSmall
  · intro hSmall node hListed
    rcases List.mem_map.1 (h.listed_perm.mem_iff.1 hListed) with
      ⟨block, hBlock, rfl⟩
    rw [decide_eq_true_eq, Nat.not_le,
      h.heap.sizeAt_eq (mem_freeBlocks_iff.1 hBlock).1]
    exact hSmall block hBlock

/- What is found is a free block. -/
theorem mem_of_firstListed
    {size bp : Nat}
    (h : view.Stands table m)
    (hFound : view.firstListed size = some bp) :
    bp ∈ view.freeBlocks.map ChainBlock.offset :=
  h.listed_perm.mem_iff.1 (List.mem_of_find?_eq_some hFound)

end Stands

------------------------------------------------------------
-- Growing
------------------------------------------------------------

/-
  Where a block begins that a heap grows by: at the last
  block of the heap if that is free, and else at its end.
-/
def joint
    (view : HeapView)
    (stop : Nat) : Nat :=
  match view.blocks.getLast? with
  | some last =>
      if last.header.allocated then stop else last.offset
  | none => stop

/- The block that a heap grows by begins there. -/
theorem Stands.offset_grownBlock
    (h : view.Stands table m)
    (size : Nat) :
    (view.grownBlock m.size size).offset =
      view.joint m.size := by
  have hTiles := h.heap.tiles
  rw [List.append_nil, List.append_nil] at hTiles
  unfold joint
  change m.size - extent (trailingFree view.blocks) = _
  rcases trailing_cases h.coalesced with hNone | hSome
  · rcases hNone with ⟨hEnds, hTrailing, _⟩
    rw [hTrailing]
    cases hLast : view.blocks.getLast? with
    | none => rfl
    | some last =>
        dsimp only
        rw [if_pos (hEnds last hLast)]
        rfl
  · rcases hSome with ⟨rest, last, hBlocks, hFree, _, hLast, _⟩
    rw [hLast, hBlocks, List.getLast?_concat]
    dsimp only
    rw [hFree, if_neg Bool.false_ne_true]
    rw [hBlocks] at hTiles
    have hEnd : last.offset + last.header.size = m.size :=
      (tiles_cut_iff.1 hTiles).2
    change m.size - (last.header.size + 0) = _
    omega

end HeapView

end SegregatedFit
