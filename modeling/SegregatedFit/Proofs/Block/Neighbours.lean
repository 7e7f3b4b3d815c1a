import Mathlib.Data.List.Chain
import Mathlib.Data.List.DropRight
import SegregatedFit.Heap.View
import SegregatedFit.Proofs.Block.Tiling

/-
  Free blocks side by side.

  In a row without free neighbours at most one free block
  stands at either end.  A free block put between two such
  rows merges with the free blocks that it touches, and the
  rows that remain begin and end with allocated blocks.

  Key definitions include:
    * `ChainBlock.isFree`
    * `trailingFree`, `leadingFree`
    * `mergedBlock`

  Key theorems include:
    * `noFreeNeighbours_append_iff`
    * `trailing_cases`, `leading_cases`
    * `noFreeNeighbours_merged`
-/

namespace SegregatedFit

/- Blocks that are free. -/
def ChainBlock.isFree
    (block : ChainBlock) : Bool :=
  !block.header.allocated

/- A block is free exactly if its tag says so. -/
theorem ChainBlock.isFree_iff
    {block : ChainBlock} :
    block.isFree = true ↔ block.header.allocated = false := by
  unfold isFree
  simp

------------------------------------------------------------
-- Rows of Blocks
------------------------------------------------------------

/- The last block of a row, if there is one, is allocated. -/
def EndsAllocated
    (front : List ChainBlock) : Prop :=
  ∀ last ∈ front.getLast?, last.header.allocated = true

/- The first block of a row, if there is one, is allocated. -/
def StartsAllocated
    (back : List ChainBlock) : Prop :=
  ∀ first ∈ back.head?, first.header.allocated = true

/- No free block ends a row that an allocated one ends. -/
theorem EndsAllocated.filter_getLast?
    {front : List ChainBlock}
    (h : EndsAllocated front) :
    front.getLast?.filter ChainBlock.isFree = none := by
  rw [Option.filter_eq_none_iff]
  intro last hLast
  rw [ChainBlock.isFree_iff, h last hLast]
  exact Bool.noConfusion

/- No free block starts a row that an allocated one starts. -/
theorem StartsAllocated.filter_head?
    {back : List ChainBlock}
    (h : StartsAllocated back) :
    back.head?.filter ChainBlock.isFree = none := by
  rw [Option.filter_eq_none_iff]
  intro first hFirst
  rw [ChainBlock.isFree_iff, h first hFirst]
  exact Bool.noConfusion

/- Of two blocks in a row one is allocated. -/
theorem noFreeNeighbours_iff_isChain
    {blocks : List ChainBlock} :
    NoFreeNeighbours blocks ↔
      blocks.IsChain (fun x y =>
        x.header.allocated = true ∨
          y.header.allocated = true) := by
  induction blocks with
  | nil => simp [NoFreeNeighbours]
  | cons x xs ih =>
      cases xs with
      | nil => simp [NoFreeNeighbours]
      | cons y ys =>
          rw [NoFreeNeighbours, ih, List.isChain_cons_cons]

/- Two rows in a row have no free neighbours where they meet. -/
theorem noFreeNeighbours_append_iff
    {front back : List ChainBlock} :
    NoFreeNeighbours (front ++ back) ↔
      NoFreeNeighbours front ∧ NoFreeNeighbours back ∧
        ∀ x ∈ front.getLast?, ∀ y ∈ back.head?,
          x.header.allocated = true ∨
            y.header.allocated = true := by
  simp only [noFreeNeighbours_iff_isChain]
  exact List.isChain_append

/- An allocated block may stand between any two rows. -/
theorem noFreeNeighbours_allocated_iff
    {front back : List ChainBlock}
    {block : ChainBlock}
    (h : block.header.allocated = true) :
    NoFreeNeighbours (front ++ block :: back) ↔
      NoFreeNeighbours front ∧ NoFreeNeighbours back := by
  rw [noFreeNeighbours_append_iff]
  simp only [noFreeNeighbours_iff_isChain, List.isChain_cons]
  constructor
  · intro hRows
    exact ⟨hRows.1, hRows.2.1.2⟩
  · intro hRows
    refine ⟨hRows.1, ⟨?_, hRows.2⟩, ?_⟩
    · intro y _
      exact Or.inl h
    · intro x _ y hy
      rw [List.head?_cons, Option.mem_some_iff] at hy
      exact Or.inr (hy ▸ h)

/- A free block stands between allocated ones only. -/
theorem noFreeNeighbours_free_iff
    {front back : List ChainBlock}
    {block : ChainBlock}
    (h : block.header.allocated = false) :
    NoFreeNeighbours (front ++ block :: back) ↔
      NoFreeNeighbours front ∧ NoFreeNeighbours back ∧
        EndsAllocated front ∧ StartsAllocated back := by
  rw [noFreeNeighbours_append_iff]
  simp only [noFreeNeighbours_iff_isChain, List.isChain_cons,
    EndsAllocated, StartsAllocated]
  constructor
  · intro hRows
    refine ⟨hRows.1, hRows.2.1.2, ?_, ?_⟩
    · intro x hx
      have hEither := hRows.2.2 x hx block (by simp)
      simpa [h] using hEither
    · intro y hy
      have hEither := hRows.2.1.1 y hy
      simpa [h] using hEither
  · intro hRows
    rcases hRows with ⟨hFront, hBack, hEnds, hStarts⟩
    refine ⟨hFront, ⟨?_, hBack⟩, ?_⟩
    · intro y hy
      exact Or.inr (hStarts y hy)
    · intro x hx y _
      exact Or.inl (hEnds x hx)

/- A free block in front stands before an allocated one. -/
theorem noFreeNeighbours_cons_iff
    {back : List ChainBlock}
    {block : ChainBlock}
    (h : block.header.allocated = false) :
    NoFreeNeighbours (block :: back) ↔
      NoFreeNeighbours back ∧ StartsAllocated back := by
  simp only [noFreeNeighbours_iff_isChain, List.isChain_cons,
    StartsAllocated, h, Bool.false_eq_true, false_or]
  exact And.comm

------------------------------------------------------------
-- Free Ends
------------------------------------------------------------

/- The free blocks at the end of a row. -/
def trailingFree
    (front : List ChainBlock) : List ChainBlock :=
  front.rtakeWhile ChainBlock.isFree

/- A row without the free blocks at its end. -/
def withoutTrailing
    (front : List ChainBlock) : List ChainBlock :=
  front.rdropWhile ChainBlock.isFree

/- The free blocks at the start of a row. -/
def leadingFree
    (back : List ChainBlock) : List ChainBlock :=
  back.takeWhile ChainBlock.isFree

/- A row without the free blocks at its start. -/
def withoutLeading
    (back : List ChainBlock) : List ChainBlock :=
  back.dropWhile ChainBlock.isFree

/-
  A row without free neighbours ends with an allocated block,
  or with one free block behind a row that does.
-/
theorem trailing_cases
    {front : List ChainBlock}
    (h : NoFreeNeighbours front) :
    (EndsAllocated front ∧ trailingFree front = [] ∧
        withoutTrailing front = front) ∨
      ∃ rest last, front = rest ++ [last] ∧
        last.header.allocated = false ∧
        EndsAllocated rest ∧
        trailingFree front = [last] ∧
        withoutTrailing front = rest := by
  -- Nothing free is taken from behind an allocated block.
  have hNone : ∀ row : List ChainBlock, EndsAllocated row →
      trailingFree row = [] ∧ withoutTrailing row = row := by
    intro row hRow
    rcases List.eq_nil_or_concat' row with hNil | ⟨xs, x, hx⟩
    · subst hNil
      exact ⟨rfl, rfl⟩
    · subst hx
      have hLast : ¬ x.isFree = true := by
        have hAllocated := hRow x (by simp)
        simp [ChainBlock.isFree, hAllocated]
      exact ⟨List.rtakeWhile_concat_neg _ _ _ hLast,
        List.rdropWhile_concat_neg _ _ _ hLast⟩
  rcases List.eq_nil_or_concat' front with hNil | ⟨rest, last, hEq⟩
  · left
    subst hNil
    refine ⟨?_, rfl, rfl⟩
    intro last hLast
    cases hLast
  · subst hEq
    cases hState : last.header.allocated with
    | true =>
        left
        have hEnds : EndsAllocated (rest ++ [last]) := by
          intro x hx
          rw [List.getLast?_concat, Option.mem_some_iff] at hx
          exact hx ▸ hState
        exact ⟨hEnds, hNone _ hEnds⟩
    | false =>
        right
        have hRows := (noFreeNeighbours_free_iff hState).1 h
        have hRest := hNone rest hRows.2.2.1
        have hLast : last.isFree = true :=
          ChainBlock.isFree_iff.2 hState
        refine ⟨rest, last, rfl, hState, hRows.2.2.1, ?_, ?_⟩
        · unfold trailingFree at hRest ⊢
          rw [List.rtakeWhile_concat_pos _ _ _ hLast, hRest.1]
          rfl
        · unfold withoutTrailing at hRest ⊢
          rw [List.rdropWhile_concat_pos _ _ _ hLast]
          exact hRest.2

/-
  A row without free neighbours starts with an allocated
  block, or with one free block in front of a row that does.
-/
theorem leading_cases
    {back : List ChainBlock}
    (h : NoFreeNeighbours back) :
    (StartsAllocated back ∧ leadingFree back = [] ∧
        withoutLeading back = back) ∨
      ∃ first rest, back = first :: rest ∧
        first.header.allocated = false ∧
        StartsAllocated rest ∧
        leadingFree back = [first] ∧
        withoutLeading back = rest := by
  have hNone : ∀ row : List ChainBlock, StartsAllocated row →
      leadingFree row = [] ∧ withoutLeading row = row := by
    intro row hRow
    cases row with
    | nil => exact ⟨rfl, rfl⟩
    | cons x xs =>
        have hFirst : ¬ x.isFree = true := by
          have hAllocated := hRow x (by simp)
          simp [ChainBlock.isFree, hAllocated]
        exact ⟨List.takeWhile_cons_of_neg hFirst,
          List.dropWhile_cons_of_neg hFirst⟩
  cases back with
  | nil =>
      left
      refine ⟨?_, rfl, rfl⟩
      intro first hFirst
      cases hFirst
  | cons first rest =>
      cases hState : first.header.allocated with
      | true =>
          left
          have hStarts : StartsAllocated (first :: rest) := by
            intro x hx
            rw [List.head?_cons, Option.mem_some_iff] at hx
            exact hx ▸ hState
          exact ⟨hStarts, hNone _ hStarts⟩
      | false =>
          right
          have hRows := (noFreeNeighbours_cons_iff hState).1 h
          have hRest := hNone rest hRows.2
          have hFirst : first.isFree = true :=
            ChainBlock.isFree_iff.2 hState
          refine ⟨first, rest, rfl, hState, hRows.2, ?_, ?_⟩
          · unfold leadingFree at hRest ⊢
            rw [List.takeWhile_cons_of_pos hFirst, hRest.1]
          · unfold withoutLeading at hRest ⊢
            rw [List.dropWhile_cons_of_pos hFirst]
            exact hRest.2

/- At most one free block is taken from the end of a row. -/
theorem exists_trailing
    {front : List ChainBlock}
    (h : NoFreeNeighbours front) :
    ∃ last : Option ChainBlock,
      trailingFree front = last.toList ∧
      front = withoutTrailing front ++ last.toList ∧
      EndsAllocated (withoutTrailing front) ∧
      ∀ block ∈ last, block.header.allocated = false := by
  rcases trailing_cases h with hNone | hSome
  · rcases hNone with ⟨hEnds, hTrailing, hRest⟩
    rw [hRest, hTrailing]
    exact ⟨none, rfl, (List.append_nil front).symm, hEnds,
      fun _ hMem => absurd hMem (Option.not_mem_none _)⟩
  · rcases hSome with
      ⟨rest, last, hFront, hFree, hEnds, hTrailing, hRest⟩
    rw [hRest, hTrailing]
    refine ⟨some last, rfl, hFront, hEnds, ?_⟩
    intro block hBlock
    cases hBlock
    exact hFree

/- At most one free block is taken from the start of a row. -/
theorem exists_leading
    {back : List ChainBlock}
    (h : NoFreeNeighbours back) :
    ∃ first : Option ChainBlock,
      leadingFree back = first.toList ∧
      back = first.toList ++ withoutLeading back ∧
      StartsAllocated (withoutLeading back) ∧
      ∀ block ∈ first, block.header.allocated = false := by
  rcases leading_cases h with hNone | hSome
  · rcases hNone with ⟨hStarts, hLeading, hRest⟩
    rw [hRest, hLeading]
    exact ⟨none, rfl, rfl, hStarts,
      fun _ hMem => absurd hMem (Option.not_mem_none _)⟩
  · rcases hSome with
      ⟨first, rest, hBack, hFree, hStarts, hLeading, hRest⟩
    rw [hRest, hLeading]
    refine ⟨some first, rfl, hBack, hStarts, ?_⟩
    intro block hBlock
    cases hBlock
    exact hFree

/- Allocated blocks are not among those dropped at the end. -/
theorem allocated_withoutTrailing
    (front : List ChainBlock) :
    (withoutTrailing front).filter (fun block =>
        block.header.allocated) =
      front.filter (fun block => block.header.allocated) := by
  induction front using List.reverseRecOn with
  | nil => rfl
  | append_singleton rest last ih =>
      cases hState : last.header.allocated with
      | true =>
          have hLast : ¬ last.isFree = true := by
            simp [ChainBlock.isFree, hState]
          unfold withoutTrailing
          rw [List.rdropWhile_concat_neg _ _ _ hLast]
      | false =>
          have hLast : last.isFree = true :=
            ChainBlock.isFree_iff.2 hState
          unfold withoutTrailing at ih ⊢
          rw [List.rdropWhile_concat_pos _ _ _ hLast, ih]
          simp [hState]

/- Allocated blocks are not among those dropped in front. -/
theorem allocated_withoutLeading
    (back : List ChainBlock) :
    (withoutLeading back).filter (fun block =>
        block.header.allocated) =
      back.filter (fun block => block.header.allocated) := by
  induction back with
  | nil => rfl
  | cons first rest ih =>
      cases hState : first.header.allocated with
      | true =>
          have hFirst : ¬ first.isFree = true := by
            simp [ChainBlock.isFree, hState]
          unfold withoutLeading
          rw [List.dropWhile_cons_of_neg hFirst]
      | false =>
          have hFirst : first.isFree = true :=
            ChainBlock.isFree_iff.2 hState
          unfold withoutLeading at ih ⊢
          rw [List.dropWhile_cons_of_pos hFirst, ih]
          simp [hState]

------------------------------------------------------------
-- Merging
------------------------------------------------------------

/- The free block that a block merges to with those around it. -/
def mergedBlock
    (previous : List ChainBlock)
    (block : ChainBlock)
    (next : List ChainBlock) : ChainBlock :=
  .ofTag (block.offset - extent previous)
    { size := extent (previous ++ block :: next),
      allocated := false }

/- After a merge no free block touches another one. -/
theorem noFreeNeighbours_merged
    {front back : List ChainBlock}
    {block : ChainBlock}
    (hFront : NoFreeNeighbours front)
    (hBack : NoFreeNeighbours back)
    (hFree : block.header.allocated = false) :
    NoFreeNeighbours
      (withoutTrailing front ++
        block :: withoutLeading back) := by
  rw [noFreeNeighbours_free_iff hFree]
  have hLeft : NoFreeNeighbours (withoutTrailing front) ∧
      EndsAllocated (withoutTrailing front) := by
    rcases exists_trailing hFront with ⟨_, _, hEq, hEnds, _⟩
    rw [hEq] at hFront
    exact ⟨(noFreeNeighbours_append_iff.1 hFront).1, hEnds⟩
  have hRight : NoFreeNeighbours (withoutLeading back) ∧
      StartsAllocated (withoutLeading back) := by
    rcases exists_leading hBack with ⟨_, _, hEq, hStarts, _⟩
    rw [hEq] at hBack
    exact ⟨(noFreeNeighbours_append_iff.1 hBack).2.1, hStarts⟩
  exact ⟨hLeft.1, hRight.1, hLeft.2, hRight.2⟩

end SegregatedFit
