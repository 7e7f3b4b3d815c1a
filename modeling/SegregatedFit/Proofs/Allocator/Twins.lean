import SegregatedFit.Proofs.Allocator.Freeing
import SegregatedFit.Proofs.Allocator.Initializing
import SegregatedFit.Proofs.Allocator.Payloads

/-
  Two allocators that differ in nothing but their bytes, and
  whose heaps have one view.

  They report the same events, give the same answers, and
  stay twins, because all that an operation reads is told by
  the view.

  Key definitions include:
    * `Traced.InStep`
    * `Allocator.Twins`
    * `Allocator.Offered`
    * `Allocator.SameAnswer`

  Key theorems include:
    * `Allocator.Twins.allocate`
    * `Allocator.Twins.free`
    * `Allocator.Twins.resize`
-/

namespace SegregatedFit

------------------------------------------------------------
-- Computations in Step
------------------------------------------------------------

namespace Traced

/-
  Both computations succeed, with the same events and with
  related results.
-/
inductive InStep
    {α β : Type}
    (R : α → β → Prop) :
    Traced α → Traced β → Prop where
  | intro
      (events : List Event)
      {a : α}
      {b : β}
      (related : R a b) :
      InStep R
        { events := events, outcome := .ok a }
        { events := events, outcome := .ok b }

namespace InStep

variable {α β γ δ : Type}
variable {R : α → β → Prop}
variable {S : γ → δ → Prop}
variable {x : Traced α}
variable {y : Traced β}

/- Results alone are in step if they are related. -/
theorem pure
    {a : α}
    {b : β}
    (h : R a b) :
    InStep R (Pure.pure a) (Pure.pure b) :=
  intro [] h

/- Sequences are in step if their parts are. -/
theorem bind
    {f : α → Traced γ}
    {g : β → Traced δ}
    (h : InStep R x y)
    (hNext : ∀ a b, R a b → InStep S (f a) (g b)) :
    InStep S (x >>= f) (y >>= g) := by
  cases h with
  | @intro events a b related =>
      have hRest := hNext a b related
      rw [bind_of_eq f rfl, bind_of_eq g rfl]
      generalize f a = first at hRest ⊢
      generalize g b = second at hRest ⊢
      cases hRest with
      | intro later results => exact intro (events ++ later) results

/- A computation that succeeds is in step with itself. -/
theorem refl
    {R : α → α → Prop}
    {a : α}
    (hResult : x.outcome = .ok a)
    (h : R a a) :
    InStep R x x := by
  rcases x with ⟨events, outcome⟩
  cases hResult
  exact intro events h

/- What is known of computations in step that succeed. -/
theorem of_outcomes
    {a : α}
    {b : β}
    (h : InStep R x y)
    (hLeft : x.outcome = .ok a)
    (hRight : y.outcome = .ok b) :
    x.events = y.events ∧ R a b := by
  cases h with
  | intro events related =>
      cases hLeft
      cases hRight
      exact ⟨rfl, related⟩

/- A relation may be weakened. -/
theorem mono
    {R' : α → β → Prop}
    (h : InStep R x y)
    (hWeaker : ∀ a b, R a b → R' a b) :
    InStep R' x y := by
  cases h with
  | intro events related =>
      exact intro events (hWeaker _ _ related)

/- What one side is known to result in is part of the relation. -/
theorem and_eq
    {a : α}
    (h : InStep R x y)
    (hResult : x.outcome = .ok a) :
    InStep (fun a' b => a' = a ∧ R a' b) x y := by
  cases h with
  | intro events related =>
      cases hResult
      exact intro events ⟨rfl, related⟩

end InStep

end Traced

------------------------------------------------------------
-- Twins
------------------------------------------------------------

namespace Allocator

/-
  Two allocators at rest differ in nothing but their bytes,
  and their heaps have one view.
-/
structure Twins
    (a b : Allocator)
    (table : SentinelTable)
    (view : HeapView) : Prop where
  left : a.AtRest table view
  right : b.AtRest table view
  same : ∃ m, b = a.withMemory m

/- Two answers are the same, and twins gave them. -/
def SameAnswer
    {α : Type}
    (table : SentinelTable)
    (x y : α × Allocator) : Prop :=
  x.1 = y.1 ∧ ∃ view, x.2.Twins y.2 table view

/-
  Twins are refused a block, or have found the same free one
  with room for `size` bytes.  The left one has allocated
  `count` times.
-/
inductive Offered
    (table : SentinelTable)
    (size count : Nat) :
    Except Error Nat × Allocator →
      Except Error Nat × Allocator → Prop where
  | refused
      {a b : Allocator}
      {view : HeapView}
      (error : Error)
      (twins : a.Twins b table view) :
      Offered table size count (.error error, a) (.error error, b)
  | found
      {a b : Allocator}
      {view : HeapView}
      (block : ChainBlock)
      (twins : a.Twins b table view)
      (listed : block ∈ view.blocks)
      (free : block.header.allocated = false)
      (fits : size ≤ block.header.size)
      (counted : a.allocations = count) :
      Offered table size count (.ok block.offset, a)
        (.ok block.offset, b)

/- A block with room for some bytes has room for fewer. -/
theorem Offered.mono
    {table : SentinelTable}
    {size size' count : Nat}
    {x y : Except Error Nat × Allocator}
    (h : Offered table size count x y)
    (hLe : size' ≤ size) :
    Offered table size' count x y := by
  cases h with
  | refused error twins => exact .refused error twins
  | found block twins listed free fits counted =>
      exact .found block twins listed free
        (Nat.le_trans hLe fits) counted

namespace Twins

variable {a b : Allocator}
variable {table : SentinelTable}
variable {view : HeapView}
variable {block : ChainBlock}

/- An allocator is its own twin. -/
theorem refl
    (h : a.AtRest table view) :
    a.Twins a table view :=
  ⟨h, h, a.memory, rfl⟩

/- The view tells how large a heap is. -/
theorem size_eq
    (h : a.Twins b table view) :
    b.region.memory.size = a.region.memory.size := by
  have hLeft := h.left.stands.heap.tiles.stop_eq
  have hRight := h.right.stands.heap.tiles.stop_eq
  exact hRight.trans hLeft.symm

/- Twins stand in regions that differ in their bytes only. -/
theorem regions
    (h : a.Twins b table view) :
    a.region.SameButBytes b.region := by
  refine ⟨?_, h.size_eq⟩
  rcases h.same with ⟨m, rfl⟩
  exact ⟨m, rfl⟩

/- The counters of twins are equal. -/
theorem counters_eq
    (h : a.Twins b table view) :
    b.config = a.config ∧
      b.extensions = a.extensions ∧
      b.allocations = a.allocations ∧
      b.frees = a.frees := by
  rcases h.same with ⟨m, rfl⟩
  exact ⟨rfl, rfl, rfl, rfl⟩

/- Twins that get other bytes stay twins if one view fits both. -/
theorem of_becomes
    {m n : Memory}
    {view' : HeapView}
    {kept kept' : List ChainBlock}
    (h : a.Twins b table view)
    (hLeft : a.region.Becomes { a.region with memory := m }
      table view' kept)
    (hRight : b.region.Becomes { b.region with memory := n }
      table view' kept') :
    (a.withMemory m).Twins (b.withMemory n) table view' := by
  refine ⟨h.left.of_becomes (by rfl) hLeft,
    h.right.of_becomes (by rfl) hRight, n, ?_⟩
  rcases h.same with ⟨_, rfl⟩
  rfl

/- Twins stay twins in regions whose bytes are as before. -/
theorem of_undisturbed
    {r s : Region}
    (h : a.Twins b table view)
    (hLeft : a.region.Undisturbed r)
    (hRight : b.region.Undisturbed s)
    (hSame : r.SameButBytes s) :
    Twins { a with region := r } { b with region := s } table
      view := by
  refine ⟨h.left.of_undisturbed hLeft,
    h.right.of_undisturbed hRight, ?_⟩
  rcases h.same with ⟨_, rfl⟩
  rcases hSame.same with ⟨m, rfl⟩
  exact ⟨m, rfl⟩

/- Twins stay twins if both are counted alike. -/
theorem count
    (h : a.Twins b table view)
    (extensions allocations frees : Nat) :
    Twins
      { a with
        extensions := extensions,
        allocations := allocations,
        frees := frees }
      { b with
        extensions := extensions,
        allocations := allocations,
        frees := frees }
      table view := by
  refine ⟨⟨h.left.table_eq, h.left.placed, h.left.stands⟩,
    ⟨h.right.table_eq, h.right.placed, h.right.stands⟩, ?_⟩
  rcases h.same with ⟨m, rfl⟩
  exact ⟨m, rfl⟩

------------------------------------------------------------
-- Growing
------------------------------------------------------------

/- Twins are refused more bytes together, or grow together. -/
theorem extend
    {size : Nat}
    (h : a.Twins b table view)
    (hRoom : minimumBlock ≤ size)
    (hMod : size % doubleWord = 0)
    (hWord : size < Word.limit)
    (hFew : a.extensions + 1 < Word.limit) :
    Traced.InStep (Offered table size a.allocations)
      (a.extend table (size / wordSize))
      (b.extend table (size / wordSize)) := by
  have hBytes := evenBytes_of_lt hMod hWord
  have hSize := h.size_eq
  have hCounters := h.counters_eq
  rcases h.regions.grow size with ⟨hAnswer, hGrown⟩
  rcases h.left.placed.grow_cases size with hBad | hGood
  · rcases hBad with ⟨error, region, hGrow, hSame⟩
    rcases h.right.placed.grow_cases size with hBad' | hGood'
    · rcases hBad' with ⟨error', region', hGrow', hSame'⟩
      rw [hGrow, hGrow'] at hAnswer hGrown
      cases hAnswer
      unfold Allocator.extend
      rw [Traced.lift_bind_of_ok _ hBytes,
        Traced.lift_bind_of_ok _ hBytes, hGrow, hGrow']
      exact .pure (.refused error
        (h.of_undisturbed hSame hSame' hGrown))
    · rcases hGood' with ⟨grown, hGrow', _⟩
      rw [hGrow, hGrow'] at hAnswer
      cases hAnswer
  · rcases hGood with ⟨grown, hGrow, hMore⟩
    rcases h.right.placed.grow_cases size with hBad' | hGood'
    · rcases hBad' with ⟨error, region, hGrow', _⟩
      rw [hGrow, hGrow'] at hAnswer
      cases hAnswer
    · rcases hGood' with ⟨grown', hGrow', hMore'⟩
      rw [hGrow, hGrow'] at hGrown
      rcases h.left.extend_granted hRoom hMod hFew hGrow hMore with
        ⟨m, hExtend, hMoreBytes, hStands, _⟩
      rcases h.right.extend_granted hRoom hMod
          (by rw [hCounters.2.1]; exact hFew) hGrow' hMore' with
        ⟨n, hExtend', hMoreBytes', hStands', _⟩
      rw [hSize] at hExtend' hMoreBytes' hStands'
      rw [hExtend, hExtend', hMoreBytes, hMoreBytes']
      refine .intro _ (.found _ ⟨?_, ?_, n, ?_⟩
        (view.mem_grown _ _) rfl
        (view.le_size_grownBlock _ _) rfl)
      · refine ⟨h.left.table_eq, hMore.placed.withMemory ?_,
          hStands⟩
        rw [hMoreBytes, hMore.memory_eq, Memory.size_extend]
      · refine ⟨h.right.table_eq, hMore'.placed.withMemory ?_,
          hStands'⟩
        rw [hMoreBytes', hMore'.memory_eq, Memory.size_extend,
          hSize]
      · rcases h.same with ⟨_, rfl⟩
        rcases hGrown.same with ⟨_, hEq⟩
        dsimp only at hEq
        rw [hEq]
        rfl

------------------------------------------------------------
-- Allocating
------------------------------------------------------------

/- Twins find the same free block or grow together. -/
theorem freeBlockFor
    {adjusted : Nat}
    (h : a.Twins b table view)
    (hRoom : minimumBlock ≤ adjusted)
    (hMod : adjusted % doubleWord = 0)
    (hWord : adjusted < Word.limit)
    (hFew : a.extensions + 1 < Word.limit) :
    Traced.InStep (Offered table adjusted a.allocations)
      (a.freeBlockFor table adjusted)
      (b.freeBlockFor table adjusted) := by
  rw [h.left.freeBlockFor_eq, h.right.freeBlockFor_eq,
    h.counters_eq.1]
  cases hFound : view.firstFit adjusted with
  | some bp =>
      rcases h.left.stands.mem_of_firstFit hFound with
        ⟨block, hBlock, hFree, rfl, hFits⟩
      exact .pure (.found block h hBlock hFree hFits rfl)
  | none =>
      have hLe := Nat.le_max_left adjusted a.config.chunkSize
      have hGrowthMod :=
        Config.max_mod_of_validate a.config_valid hMod
      have hGrowthWord := a.config.max_lt hWord
      exact (h.extend (Nat.le_trans hRoom hLe) hGrowthMod
        hGrowthWord hFew).mono
          (fun _ _ hOffered => hOffered.mono hLe)

/- Twins hand out the same block. -/
theorem handOut
    {adjusted : Nat}
    (h : a.Twins b table view)
    (size : Nat)
    (hBlock : block ∈ view.blocks)
    (hFree : block.header.allocated = false)
    (hRoom : minimumBlock ≤ adjusted)
    (hMod : adjusted % doubleWord = 0)
    (hFits : adjusted ≤ block.header.size)
    (hFew : a.allocations + 1 < Word.limit) :
    Traced.InStep
      (fun next next' => ∃ view', next.Twins next' table view')
      (a.handOut table size adjusted block.offset)
      (b.handOut table size adjusted block.offset) := by
  have hCount := h.counters_eq.2.2.1
  rcases List.append_of_mem hBlock with ⟨front, back, hBlocks⟩
  rcases h.left.handOut_between size hBlocks hFree hRoom hMod
      hFits hFew with
    ⟨m, hHandOut, _, hBecomes⟩
  rcases h.right.handOut_between size hBlocks hFree hRoom hMod
      hFits (by rw [hCount]; exact hFew) with
    ⟨n, hHandOut', _, hBecomes'⟩
  have hTwins := h.of_becomes hBecomes hBecomes'
  rw [hHandOut, hHandOut', hCount]
  rcases h.same with ⟨_, rfl⟩
  exact .intro _ ⟨_, hTwins.count a.extensions
    (a.allocations + 1) a.frees⟩

/- Twins allocate the same block, or none. -/
theorem allocate
    (h : a.Twins b table view)
    (size : Nat)
    (hExtensions : a.extensions + 1 < Word.limit)
    (hAllocations : a.allocations + 1 < Word.limit) :
    Traced.InStep (SameAnswer table) (a.allocate size)
      (b.allocate size) := by
  have hSame : SameAnswer table
      ((none, a) : Option Address × Allocator) (none, b) :=
    ⟨rfl, view, h⟩
  by_cases hZero : size = 0
  · subst hZero
    exact .pure hSame
  by_cases hWord :
      ¬ Request.rounded size + 2 * doubleWord < Word.limit
  · rw [h.left.allocate_tooLarge hWord,
      h.right.allocate_tooLarge hWord]
    exact .pure hSame
  rw [Decidable.not_not] at hWord
  have hRoom := Request.minimumBlock_le_sizeFor
    (Request.rounded size)
  have hMod := Request.sizeFor_mod (Request.rounded size)
  rw [h.left.allocate_eq hZero hWord,
    h.right.allocate_eq hZero hWord]
  apply (h.freeBlockFor hRoom hMod (Request.sizeFor_lt hWord)
    hExtensions).bind
  intro x y hOffered
  cases hOffered with
  | refused error twins =>
      exact .intro _ ⟨rfl, _, twins⟩
  | found block twins listed free fits counted =>
      apply (twins.handOut (Request.rounded size) listed free
        hRoom hMod fits (by omega)).bind
      intro next next' hNext
      exact .pure ⟨rfl, hNext⟩

------------------------------------------------------------
-- Freeing
------------------------------------------------------------

/- Twins free the same block. -/
theorem free
    (h : a.Twins b table view)
    (hBlock : block ∈ view.allocatedBlocks)
    (hFew : a.frees + 1 < Word.limit) :
    Traced.InStep
      (fun next next' => ∃ view', next.Twins next' table view')
      (a.free (some { offset := block.offset }))
      (b.free (some { offset := block.offset })) := by
  have hCount := h.counters_eq.2.2.2
  rcases HeapView.mem_allocatedBlocks_iff.1 hBlock with
    ⟨hMem, hAllocated⟩
  rcases List.append_of_mem hMem with ⟨front, back, hBlocks⟩
  rcases h.left.free_between hBlocks hAllocated hFew with
    ⟨m, hFree, _, hBecomes⟩
  rcases h.right.free_between hBlocks hAllocated
      (by rw [hCount]; exact hFew) with
    ⟨n, hFree', _, hBecomes'⟩
  have hTwins := h.of_becomes hBecomes hBecomes'
  rw [hFree, hFree', hCount]
  rcases h.same with ⟨_, rfl⟩
  exact .intro _ ⟨_, hTwins.count a.extensions a.allocations
    (a.frees + 1)⟩

------------------------------------------------------------
-- Resizing
------------------------------------------------------------

/- A copy between two blocks leaves twins behind. -/
theorem move
    {target : ChainBlock}
    (h : a.Twins b table view)
    (length : Nat)
    (hBlock : block ∈ view.allocatedBlocks)
    (hTarget : target ∈ view.allocatedBlocks)
    (hSource : length + doubleWord ≤ block.header.size)
    (hRoom : length + doubleWord ≤ target.header.size) :
    ∃ m n,
      a.memory.move block.offset target.offset length = .ok m ∧
      b.memory.move block.offset target.offset length = .ok n ∧
      (a.withMemory m).Twins (b.withMemory n) table view := by
  rcases h.left.move_ok length hBlock hTarget hSource hRoom with
    ⟨m, hMove, _, hBecomes, _⟩
  rcases h.right.move_ok length hBlock hTarget hSource hRoom
    with ⟨n, hMove', _, hBecomes', _⟩
  exact ⟨m, n, hMove, hMove', h.of_becomes hBecomes hBecomes'⟩

/- Twins move the same block to the same new one, or not. -/
theorem relocate
    (h : a.Twins b table view)
    (size : Nat)
    (hBlock : block ∈ view.allocatedBlocks)
    (hExtensions : a.extensions + 1 < Word.limit)
    (hAllocations : a.allocations + 1 < Word.limit)
    (hFrees : a.frees + 1 < Word.limit) :
    Traced.InStep (SameAnswer table)
      (a.relocate block.offset block.header.size size)
      (b.relocate block.offset block.header.size size) := by
  have hSizes := layout_sizes
  have hBounds := h.left.bounds hBlock
  rw [h.left.relocate_eq size hBlock,
    h.right.relocate_eq size hBlock, h.counters_eq.1]
  by_cases hRequest :
      ¬ size * a.config.resizeMultiplier < Word.limit
  · rw [if_neg hRequest, if_neg hRequest]
    exact .pure ⟨rfl, view, h⟩
  rw [Decidable.not_not] at hRequest
  rw [if_pos hRequest, if_pos hRequest]
  have hRequested := a.le_resizeRequest size
  have hAnswers := h.allocate
    (size * a.config.resizeMultiplier) hExtensions hAllocations
  rcases h.left.allocate_new
      (size * a.config.resizeMultiplier) hExtensions
      hAllocations with hBad | hGood
  · rcases hBad with ⟨region, hOutcome, _⟩
    apply (hAnswers.and_eq hOutcome).bind
    rintro _ ⟨target, served'⟩ ⟨rfl, hTarget, hTwins⟩
    dsimp only at hTarget
    subst hTarget
    exact .pure ⟨rfl, hTwins⟩
  · rcases hGood with
      ⟨region, first, new, grew, hOutcome, _, hRoom, _, hPerm,
        hFirst, _⟩
    apply (hAnswers.and_eq hOutcome).bind
    rintro _ ⟨target, served'⟩ ⟨rfl, hTarget, view', hTwins⟩
    dsimp only at hTarget
    subst hTarget
    have hWord := hFirst.placed.size_lt
    have hBlocks := hTwins.left.stands.blocks_unique
      hFirst.stands (by dsimp only; omega)
    have hSame : view'.allocatedBlocks =
        first.allocatedBlocks := by
      unfold HeapView.allocatedBlocks
      rw [hBlocks]
    have hOld : block ∈ view'.allocatedBlocks := by
      rw [hSame, hPerm.mem_iff]
      exact List.mem_cons_of_mem new hBlock
    have hNew : new ∈ view'.allocatedBlocks := by
      rw [hSame, hPerm.mem_iff]
      exact List.mem_cons_self
    rcases hTwins.move
        (min (block.header.size - doubleWord) size) hOld hNew
        (by omega) (by omega) with
      ⟨m, n, hMove, hMove', hMoved⟩
    dsimp only
    rw [Traced.lift_bind_of_ok _ hMove,
      Traced.lift_bind_of_ok _ hMove']
    apply (hMoved.free hOld hFrees).bind
    intro next next' hNext
    exact .intro _ ⟨rfl, hNext⟩

/- Twins resize the same block with the same answer. -/
theorem resize
    {size : Nat}
    (h : a.Twins b table view)
    (hBlock : block ∈ view.allocatedBlocks)
    (hSize : size ≠ 0)
    (hExtensions : a.extensions + 1 < Word.limit)
    (hAllocations : a.allocations + 1 < Word.limit)
    (hFrees : a.frees + 1 < Word.limit) :
    Traced.InStep (SameAnswer table)
      (a.resize (some { offset := block.offset }) size)
      (b.resize (some { offset := block.offset }) size) := by
  rw [h.left.resize_eq hBlock hSize,
    h.right.resize_eq hBlock hSize]
  by_cases hWord : size + 2 * doubleWord < Word.limit
  · rw [if_pos hWord, if_pos hWord]
    by_cases hFits : Request.sizeFor size ≤ block.header.size
    · rw [if_pos hFits, if_pos hFits]
      exact .intro _ ⟨rfl, view, h⟩
    · rw [if_neg hFits, if_neg hFits]
      exact h.relocate size hBlock hExtensions hAllocations
        hFrees
  · rw [if_neg hWord, if_neg hWord]
    exact .pure ⟨rfl, view, h⟩

------------------------------------------------------------
-- Writing
------------------------------------------------------------

/- Twins stay twins whatever is written into their payloads. -/
theorem writePayload
    {other : ChainBlock}
    {position position' : Nat}
    {bytes bytes' : List UInt8}
    (h : a.Twins b table view)
    (hBlock : block ∈ view.allocatedBlocks)
    (hOther : other ∈ view.allocatedBlocks)
    (hInside :
      position + bytes.length ≤
        block.header.size - doubleWord)
    (hInside' :
      position' + bytes'.length ≤
        other.header.size - doubleWord) :
    ∃ m n,
      a.writePayload { offset := block.offset } position bytes =
        .ok (a.withMemory m) ∧
      b.writePayload { offset := other.offset } position'
        bytes' = .ok (b.withMemory n) ∧
      (a.withMemory m).Twins (b.withMemory n) table view := by
  rcases h.left.writePayload_ok hBlock hInside with
    ⟨m, hWrite, _, hBecomes⟩
  rcases h.right.writePayload_ok hOther hInside' with
    ⟨n, hWrite', _, hBecomes'⟩
  exact ⟨m, n, hWrite, hWrite',
    h.of_becomes hBecomes hBecomes'⟩

end Twins

end Allocator

end SegregatedFit
