import SegregatedFit.Consistency.Check
import SegregatedFit.Proofs.Block.Neighbours
import SegregatedFit.Proofs.Heap.Workspace

/-
  What a walk of the chain tells of its blocks.

  A walk that ends well has met a stretch of blocks that ends
  with the heap.  A block without violations is aligned, has
  equal tags, and is filed just as its header says, and no
  free block follows a free one.  If this holds of all blocks
  but one, only that one is told of, and the one behind it.

  Key definitions include:
    * `InPlace`
    * `misalignments`, `freeBehind`

  Key theorems include:
    * `Memory.chainFrom_sound`
    * `blockViolations_eq_nil_iff`
    * `blockViolations_eq`, `blockViolations_around`
-/

namespace SegregatedFit

------------------------------------------------------------
-- The Chain
------------------------------------------------------------

/- A chain ends well with an epilogue at the end of the heap. -/
theorem endViolations_eq_nil_iff
    {heapSize : Nat}
    {stop : ChainEnd} :
    endViolations heapSize stop = [] ↔
      ∃ header : Tag, header.allocated = true ∧
        stop = .sizeZero heapSize header := by
  cases stop with
  | outOfBounds offset => simp [endViolations]
  | sizeZero offset header =>
      unfold endViolations
      constructor
      · intro h
        by_cases hLast : header.allocated = true ∧
            offset = heapSize
        · exact ⟨header, hLast.1, by rw [hLast.2]⟩
        · dsimp only at h
          rw [if_neg hLast] at h
          cases h
      · rintro ⟨_, hAllocated, hEq⟩
        cases hEq
        exact if_pos ⟨hAllocated, rfl⟩

namespace Memory

variable {m : Memory}

/-
  A walk of the chain that ends well has met blocks that
  reach to the end of the heap, where the epilogue stands.
-/
theorem chainFrom_sound
    {steps bp : Nat}
    {chain : Chain}
    (hChain : m.chainFrom steps bp = .ok chain)
    (hEnd : endViolations m.size chain.stop = []) :
    m.Chained bp chain.blocks m.size ∧
      m.header m.size = .ok Tag.epilogue := by
  rw [endViolations_eq_nil_iff] at hEnd
  induction steps generalizing bp chain with
  | zero =>
      cases hChain
      rcases hEnd with ⟨_, _, hStop⟩
      cases hStop
  | succ steps ih =>
      rw [chainFrom] at hChain
      by_cases hOut : m.size < bp
      · rw [if_pos hOut] at hChain
        cases hChain
        rcases hEnd with ⟨_, _, hStop⟩
        cases hStop
      · rw [if_neg hOut, Fault.bind_eq_ok_iff] at hChain
        rcases hChain with ⟨header, hHeader, hChain⟩
        by_cases hZero : header.size = 0
        · rw [if_pos hZero] at hChain
          cases hChain
          rcases hEnd with ⟨_, hAllocated, hStop⟩
          cases hStop
          rcases header with ⟨size, allocated⟩
          cases hZero
          cases hAllocated
          exact ⟨rfl, hHeader⟩
        · rw [if_neg hZero] at hChain
          by_cases hPast : Word.limit ≤ bp + header.size ∨
              m.size < bp + header.size - wordSize
          · rw [if_pos hPast] at hChain
            cases hChain
            rcases hEnd with ⟨_, _, hStop⟩
            cases hStop
          · rw [if_neg hPast, Fault.bind_eq_ok_iff] at hChain
            rcases hChain with ⟨footer, hFooter, hChain⟩
            rw [Fault.bind_eq_ok_iff] at hChain
            rcases hChain with ⟨rest, hRest, hResult⟩
            cases hResult
            rcases ih hRest hEnd with ⟨hChained, hLast⟩
            exact ⟨⟨rfl, hHeader, hFooter, hZero, hChained⟩,
              hLast⟩

end Memory

------------------------------------------------------------
-- Blocks without Violations
------------------------------------------------------------

/-
  A block at an aligned address with equal tags that is filed
  in its class if it is free and not filed if it is
  allocated.
-/
structure InPlace
    (base : Nat)
    (listing : Listing)
    (block : ChainBlock) : Prop where
  aligned : (base + block.offset) % doubleWord = 0
  footer_eq : block.footer = block.header
  filed :
    listing[block.offset]? =
      if block.header.allocated then
        none
      else
        some (SizeClass.classify block.header.size)

/- Tags are in order if they are aligned and equal. -/
theorem tagViolations_eq_nil_iff
    {base : Nat}
    {block : ChainBlock} :
    tagViolations base block = .ok [] ↔
      base + block.offset < Word.limit ∧
        (base + block.offset) % doubleWord = 0 ∧
        block.footer = block.header := by
  unfold tagViolations
  rw [Fault.bind_eq_ok_iff]
  constructor
  · rintro ⟨address, hAdd, hResult⟩
    rw [Word.add_eq_ok_iff] at hAdd
    rcases hAdd with ⟨hWord, rfl⟩
    have hNil := Except.ok.inj hResult
    rw [List.append_eq_nil_iff] at hNil
    refine ⟨hWord, ?_, ?_⟩
    · by_contra hOff
      have hFirst := hNil.1
      rw [if_pos hOff] at hFirst
      cases hFirst
    · by_contra hNe
      have hSecond := hNil.2
      rw [if_pos (Ne.symm hNe)] at hSecond
      cases hSecond
  · rintro ⟨hWord, hAligned, hEqual⟩
    refine ⟨_, Word.add_of_lt hWord, ?_⟩
    rw [if_neg (fun h => h hAligned),
      if_neg (fun h => h hEqual.symm)]
    rfl

/-
  Behind the prologue a block is in order if it is filed as
  its header says and does not follow a free block if it is
  free itself.
-/
theorem placeViolations_eq_nil_iff
    {listing : Listing}
    {prologue : Nat}
    {previousFree : Option Nat}
    {block : ChainBlock}
    (hOther : block.offset ≠ prologue) :
    placeViolations listing prologue previousFree block = [] ↔
      listing[block.offset]? =
          (if block.header.allocated then
            none
          else
            some (SizeClass.classify block.header.size)) ∧
        (block.header.allocated = true ∨
          previousFree = none) := by
  unfold placeViolations
  rw [if_neg hOther]
  cases hState : block.header.allocated with
  | true =>
      unfold allocatedBlockViolations
      cases listing[block.offset]? with
      | none => simp
      | some found => simp
  | false =>
      unfold freeBlockViolations neighbourViolations
      cases listing[block.offset]? with
      | none => simp
      | some found =>
          cases previousFree with
          | none => simp
          | some first => simp

/- A block is without violations if all its parts are. -/
theorem blockViolations_cons_eq_nil_iff
    {base prologue : Nat}
    {listing : Listing}
    {previousFree : Option Nat}
    {block : ChainBlock}
    {blocks : List ChainBlock} :
    blockViolations base listing prologue previousFree
        (block :: blocks) = .ok [] ↔
      tagViolations base block = .ok [] ∧
        placeViolations listing prologue previousFree block =
          [] ∧
        blockViolations base listing prologue
            (if block.header.allocated then
              none
            else
              some block.offset)
            blocks = .ok [] := by
  rw [blockViolations, Fault.bind_eq_ok_iff]
  constructor
  · rintro ⟨own, hOwn, hRest⟩
    rw [Fault.bind_eq_ok_iff] at hRest
    rcases hRest with ⟨rest, hRest, hResult⟩
    have hNil := Except.ok.inj hResult
    rw [List.append_eq_nil_iff, List.append_eq_nil_iff] at hNil
    rcases hNil with ⟨⟨rfl, hPlace⟩, rfl⟩
    exact ⟨hOwn, hPlace, hRest⟩
  · rintro ⟨hOwn, hPlace, hRest⟩
    refine ⟨[], hOwn, ?_⟩
    rw [Fault.bind_of_ok hRest, hPlace]
    rfl

/- A free block stands before an allocated one, if any. -/
theorem noFreeNeighbours_behind_iff
    {block : ChainBlock}
    {blocks : List ChainBlock} :
    NoFreeNeighbours (block :: blocks) ↔
      NoFreeNeighbours blocks ∧
        (block.header.allocated = true ∨
          StartsAllocated blocks) := by
  cases hState : block.header.allocated with
  | true =>
      simp [noFreeNeighbours_iff_isChain, List.isChain_cons,
        hState]
  | false =>
      rw [noFreeNeighbours_cons_iff hState]
      simp

/-
  Blocks behind the prologue are without violations if each
  of them is in place and no free one follows a free one.
-/
theorem blockViolations_eq_nil_iff
    {base prologue : Nat}
    {listing : Listing}
    {previousFree : Option Nat}
    {blocks : List ChainBlock}
    (hWord : ∀ block ∈ blocks,
      base + block.offset < Word.limit)
    (hOther : ∀ block ∈ blocks, block.offset ≠ prologue) :
    blockViolations base listing prologue previousFree blocks =
        .ok [] ↔
      (∀ block ∈ blocks, InPlace base listing block) ∧
        NoFreeNeighbours blocks ∧
        (StartsAllocated blocks ∨ previousFree = none) := by
  induction blocks generalizing previousFree with
  | nil =>
      simp [blockViolations, NoFreeNeighbours, StartsAllocated]
  | cons block blocks ih =>
      have hHere := hWord block List.mem_cons_self
      have hRest := @ih
        (if block.header.allocated then
          none
        else
          some block.offset)
        (fun other hMem =>
          hWord other (List.mem_cons_of_mem block hMem))
        (fun other hMem =>
          hOther other (List.mem_cons_of_mem block hMem))
      have hLater :
          (StartsAllocated blocks ∨
            (if block.header.allocated then
              none
            else
              some block.offset) = none) ↔
          (block.header.allocated = true ∨
            StartsAllocated blocks) := by
        cases block.header.allocated with
        | true => simp
        | false => simp
      have hFirst : StartsAllocated (block :: blocks) ↔
          block.header.allocated = true := by
        simp [StartsAllocated]
      rw [blockViolations_cons_eq_nil_iff,
        tagViolations_eq_nil_iff,
        placeViolations_eq_nil_iff
          (hOther block List.mem_cons_self),
        hRest, hLater, noFreeNeighbours_behind_iff, hFirst,
        List.forall_mem_cons]
      constructor
      · rintro ⟨⟨_, hAligned, hEqual⟩, ⟨hFiled, hState⟩, hAll,
          hApart⟩
        exact ⟨⟨⟨hAligned, hEqual, hFiled⟩, hAll⟩, hApart,
          hState⟩
      · rintro ⟨⟨hPlace, hAll⟩, hApart, hState⟩
        exact ⟨⟨hHere, hPlace.aligned, hPlace.footer_eq⟩,
          ⟨hPlace.filed, hState⟩, hAll, hApart⟩

------------------------------------------------------------
-- Blocks off the Double Word
------------------------------------------------------------

/- What is told of blocks that stand off the double word. -/
def misalignments
    (base : Nat)
    (blocks : List ChainBlock) : List Violation :=
  (blocks.filter (fun block =>
    (base + block.offset) % doubleWord ≠ 0)).map
    (fun block => .misaligned block.offset)

/- A first block is told of before those behind it. -/
theorem misalignments_cons
    (base : Nat)
    (block : ChainBlock)
    (blocks : List ChainBlock) :
    misalignments base (block :: blocks) =
      misalignments base [block] ++
        misalignments base blocks := by
  unfold misalignments
  rw [← List.map_append, ← List.filter_append]
  rfl

/- Nothing is told of blocks at aligned addresses. -/
theorem misalignments_eq_nil
    {base : Nat}
    {blocks : List ChainBlock}
    (h : ∀ block ∈ blocks,
      (base + block.offset) % doubleWord = 0) :
    misalignments base blocks = [] := by
  unfold misalignments
  rw [List.map_eq_nil_iff, List.filter_eq_nil_iff]
  intro block hBlock
  simp [h block hBlock]

/- If no block is aligned, all of them are told of. -/
theorem misalignments_eq_map
    {base : Nat}
    {blocks : List ChainBlock}
    (h : ∀ block ∈ blocks,
      (base + block.offset) % doubleWord ≠ 0) :
    misalignments base blocks =
      blocks.map (fun block => .misaligned block.offset) := by
  unfold misalignments
  rw [List.filter_eq_self.2]
  intro block hBlock
  exact decide_eq_true (h block hBlock)

/- Equal tags are only told of if they are off the double word. -/
theorem tagViolations_eq
    {base : Nat}
    {block : ChainBlock}
    (hWord : base + block.offset < Word.limit)
    (hFooter : block.footer = block.header) :
    tagViolations base block =
      .ok (misalignments base [block]) := by
  unfold tagViolations
  rw [Fault.bind_of_ok (Word.add_of_lt hWord)]
  dsimp only
  rw [if_neg (show ¬ block.header ≠ block.footer from
    fun h => h hFooter.symm), List.append_nil]
  by_cases hAligned : (base + block.offset) % doubleWord = 0
  · rw [if_neg (fun h => h hAligned),
      misalignments_eq_nil (by simpa using hAligned)]
    rfl
  · rw [if_pos hAligned,
      misalignments_eq_map (by simpa using hAligned)]
    rfl

/- A first block is told of by its tags and then by its place. -/
theorem blockViolations_cons
    {base prologue : Nat}
    {listing : Listing}
    {previousFree : Option Nat}
    {block : ChainBlock}
    {blocks : List ChainBlock}
    {own rest : List Violation}
    (hOwn : tagViolations base block = .ok own)
    (hRest : blockViolations base listing prologue
        (if block.header.allocated then
          none
        else
          some block.offset)
        blocks = .ok rest) :
    blockViolations base listing prologue previousFree
        (block :: blocks) =
      .ok (own ++
        placeViolations listing prologue previousFree block ++
        rest) := by
  rw [blockViolations, Fault.bind_of_ok hOwn]
  dsimp only
  rw [Fault.bind_of_ok hRest]
  rfl

/- A block in its place is told of by its alignment only. -/
theorem blockViolations_cons_eq
    {base prologue : Nat}
    {listing : Listing}
    {previousFree : Option Nat}
    {block : ChainBlock}
    {blocks : List ChainBlock}
    (hWord : base + block.offset < Word.limit)
    (hFooter : block.footer = block.header)
    (hPlace : placeViolations listing prologue previousFree
      block = [])
    (hRest : blockViolations base listing prologue
        (if block.header.allocated then
          none
        else
          some block.offset)
        blocks = .ok (misalignments base blocks)) :
    blockViolations base listing prologue previousFree
        (block :: blocks) =
      .ok (misalignments base (block :: blocks)) := by
  rw [blockViolations_cons (tagViolations_eq hWord hFooter)
    hRest, hPlace, misalignments_cons base block blocks,
    List.append_nil]

/-
  If all blocks behind the prologue are filed as their tags
  say, and no free one follows a free one, only those off the
  double word are told of.
-/
theorem blockViolations_eq
    {base prologue : Nat}
    {listing : Listing}
    {previousFree : Option Nat}
    {blocks : List ChainBlock}
    (hWord : ∀ block ∈ blocks,
      base + block.offset < Word.limit)
    (hOther : ∀ block ∈ blocks, block.offset ≠ prologue)
    (hFooter : ∀ block ∈ blocks, block.footer = block.header)
    (hFiled : ∀ block ∈ blocks,
      listing[block.offset]? =
        if block.header.allocated then
          none
        else
          some (SizeClass.classify block.header.size))
    (hApart : NoFreeNeighbours blocks)
    (hFirst : StartsAllocated blocks ∨ previousFree = none) :
    blockViolations base listing prologue previousFree blocks =
      .ok (misalignments base blocks) := by
  induction blocks generalizing previousFree with
  | nil => rfl
  | cons block blocks ih =>
      rw [List.forall_mem_cons] at hWord hOther hFooter hFiled
      rcases noFreeNeighbours_behind_iff.1 hApart with
        ⟨hRest, hBehind⟩
      have hPlace : placeViolations listing prologue
          previousFree block = [] := by
        rw [placeViolations_eq_nil_iff hOther.1]
        refine ⟨hFiled.1, hFirst.imp_left ?_⟩
        intro hStarts
        exact hStarts block rfl
      have hNext : StartsAllocated blocks ∨
          (if block.header.allocated then
            none
          else
            some block.offset) = none := by
        rcases hBehind with hState | hStarts
        · exact Or.inr (if_pos hState)
        · exact Or.inl hStarts
      exact blockViolations_cons_eq hWord.1 hFooter.1 hPlace
        (ih hWord.2 hOther.2 hFooter.2 hFiled.2 hRest hNext)

------------------------------------------------------------
-- One Block among Others
------------------------------------------------------------

/- The free block that the walk has met last behind a row. -/
def freeBehind :
    Option Nat → List ChainBlock → Option Nat
| previousFree, [] => previousFree
| _, block :: blocks =>
    freeBehind
      (if block.header.allocated then
        none
      else
        some block.offset)
      blocks

/- Behind a block it is this one or none. -/
theorem freeBehind_concat
    (previousFree : Option Nat)
    (blocks : List ChainBlock)
    (last : ChainBlock) :
    freeBehind previousFree (blocks ++ [last]) =
      if last.header.allocated then
        none
      else
        some last.offset := by
  induction blocks generalizing previousFree with
  | nil => rfl
  | cons block blocks ih => exact ih _

/- Behind a row it is the last block, if that is free. -/
theorem freeBehind_eq
    (blocks : List ChainBlock) :
    freeBehind none blocks =
      (blocks.getLast?.filter ChainBlock.isFree).map
        ChainBlock.offset := by
  rcases List.eq_nil_or_concat' blocks with
    rfl | ⟨rest, last, rfl⟩
  · rfl
  · rw [freeBehind_concat, List.getLast?_concat,
      Option.filter_some]
    unfold ChainBlock.isFree
    cases last.header.allocated with
    | true => rfl
    | false => rfl

/- What is told of two rows is told of one after the other. -/
theorem blockViolations_append
    {base prologue : Nat}
    {listing : Listing}
    {previousFree : Option Nat}
    {front back : List ChainBlock}
    {own rest : List Violation}
    (hFront : blockViolations base listing prologue previousFree
      front = .ok own)
    (hBack : blockViolations base listing prologue
      (freeBehind previousFree front) back = .ok rest) :
    blockViolations base listing prologue previousFree
        (front ++ back) =
      .ok (own ++ rest) := by
  induction front generalizing previousFree own with
  | nil =>
      cases hFront
      exact hBack
  | cons block front ih =>
      rw [blockViolations, Fault.bind_eq_ok_iff] at hFront
      rcases hFront with ⟨tags, hTags, hFront⟩
      rw [Fault.bind_eq_ok_iff] at hFront
      rcases hFront with ⟨later, hLater, hOwn⟩
      cases hOwn
      rw [List.cons_append,
        blockViolations_cons hTags (ih hLater hBack),
        List.append_assoc, List.append_assoc, List.append_assoc]

/-
  If all blocks of a row are in place and no free one follows
  a free one, only the first one may be told of: if it is
  free and so is the block in front of it.
-/
theorem blockViolations_of_inPlace
    {base prologue : Nat}
    {listing : Listing}
    {blocks : List ChainBlock}
    (previousFree : Option Nat)
    (hWord : ∀ block ∈ blocks,
      base + block.offset < Word.limit)
    (hOther : ∀ block ∈ blocks, block.offset ≠ prologue)
    (hPlaces : ∀ block ∈ blocks, InPlace base listing block)
    (hApart : NoFreeNeighbours blocks) :
    blockViolations base listing prologue previousFree blocks =
      .ok ((blocks.head?.filter ChainBlock.isFree).toList.flatMap
        (neighbourViolations previousFree)) := by
  cases blocks with
  | nil => rfl
  | cons block blocks =>
      rw [List.forall_mem_cons] at hWord hOther hPlaces
      rcases noFreeNeighbours_behind_iff.1 hApart with
        ⟨hRest, hBehind⟩
      have hOwn : tagViolations base block = .ok [] :=
        tagViolations_eq_nil_iff.2
          ⟨hWord.1, hPlaces.1.aligned, hPlaces.1.footer_eq⟩
      have hNext : StartsAllocated blocks ∨
          (if block.header.allocated then
            none
          else
            some block.offset) = none := by
        rcases hBehind with hState | hStarts
        · exact Or.inr (if_pos hState)
        · exact Or.inl hStarts
      have hLater := (blockViolations_eq_nil_iff hWord.2
        hOther.2).2 ⟨hPlaces.2, hRest, hNext⟩
      rw [blockViolations_cons hOwn hLater, List.append_nil,
        List.nil_append, List.head?_cons, Option.filter_some]
      have hFiled := hPlaces.1.filed
      unfold placeViolations ChainBlock.isFree
      rw [if_neg hOther.1]
      cases hState : block.header.allocated with
      | true =>
          rw [hState, if_pos rfl] at hFiled
          unfold allocatedBlockViolations
          rw [hFiled]
          rfl
      | false =>
          rw [hState, if_neg Bool.false_ne_true] at hFiled
          unfold freeBlockViolations
          rw [hFiled]
          simp

/-
  If all blocks but one are in place, only that one may be
  told of, and the one behind it as its neighbour.
-/
theorem blockViolations_around
    {base prologue : Nat}
    {listing : Listing}
    {front back : List ChainBlock}
    {block : ChainBlock}
    (hWord : ∀ other ∈ front ++ block :: back,
      base + other.offset < Word.limit)
    (hOther : ∀ other ∈ front ++ block :: back,
      other.offset ≠ prologue)
    (hPlaces : ∀ other ∈ front ++ back,
      InPlace base listing other)
    (hTags : tagViolations base block = .ok [])
    (hFront : NoFreeNeighbours front)
    (hBack : NoFreeNeighbours back) :
    blockViolations base listing prologue none
        (front ++ block :: back) =
      .ok (placeViolations listing prologue
          ((front.getLast?.filter ChainBlock.isFree).map
            ChainBlock.offset)
          block ++
        (back.head?.filter ChainBlock.isFree).toList.flatMap
          (neighbourViolations
            (if block.header.allocated then
              none
            else
              some block.offset))) := by
  rw [List.forall_mem_append, List.forall_mem_cons] at hWord
  rw [List.forall_mem_append, List.forall_mem_cons] at hOther
  rw [List.forall_mem_append] at hPlaces
  have hBefore := blockViolations_of_inPlace none hWord.1
    hOther.1 hPlaces.1 hFront
  have hNone : (front.head?.filter
      ChainBlock.isFree).toList.flatMap
        (neighbourViolations none) = [] :=
    List.flatMap_eq_nil_iff.2 (fun _ _ => rfl)
  rw [hNone] at hBefore
  rw [blockViolations_append hBefore
    (blockViolations_cons hTags
      (blockViolations_of_inPlace _ hWord.2.2 hOther.2.2
        hPlaces.2 hBack)),
    freeBehind_eq]
  rfl

end SegregatedFit
