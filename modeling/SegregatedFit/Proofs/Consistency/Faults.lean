import SegregatedFit.Proofs.Consistency.Decision
import SegregatedFit.Proofs.Heap.Misfiling

/-
  What the consistency check tells of a block that is not
  filed as its tags say.

  The walks, the ends and the other blocks are in order, so
  it tells of this block, of the free ones beside it, and of
  the count, and of nothing else.

  Key theorems include:
    * `FiledAs.outlines`
    * `FiledAs.violations_eq`
-/

namespace SegregatedFit

namespace FiledAs

variable {table : SentinelTable}
variable {m : Memory}
variable {front back : List ChainBlock}
variable {block other : ChainBlock}
variable {lists : FreeLists}
variable {found : Option Nat}
variable {base : Nat}

/- The blocks are those of the chain, with equal tags. -/
theorem chained
    (h : FiledAs table m front block back lists found) :
    m.Chained table.firstBlock (front ++ block :: back)
        m.size ∧
      ∀ other ∈ front ++ block :: back,
        other.footer = other.header := by
  apply (Memory.chained_iff_tiles _).2 ⟨h.tiles, h.tagged⟩
  intro other hOther
  exact Nat.lt_of_lt_of_le (by decide) (h.roomy other hOther)

/- Blocks are known by their offsets. -/
theorem eq_of_offset_eq
    {x y : ChainBlock}
    (h : FiledAs table m front block back lists found)
    (hx : x ∈ front ++ block :: back)
    (hy : y ∈ front ++ block :: back)
    (hOffset : x.offset = y.offset) :
    x = y :=
  List.inj_on_of_nodup_map h.chained.1.nodup_offsets hx hy
    hOffset

/- The one block is none of the others. -/
theorem offset_ne
    (h : FiledAs table m front block back lists found)
    (hOther : other ∈ front ++ back) :
    other.offset ≠ block.offset := by
  intro hOffset
  have hEq := h.eq_of_offset_eq
    (mem_of_mem_others block hOther) (by simp) hOffset
  have hNodup := h.chained.1.nodup_offsets.of_map
  rw [List.perm_middle.nodup_iff, List.nodup_cons] at hNodup
  exact hNodup.1 (hEq ▸ hOther)

/- The heap is known by its blocks and lists. -/
theorem outlines
    (h : FiledAs table m front block back lists found) :
    (HeapView.mk (front ++ block :: back) lists).Outlines
      table m := by
  refine ⟨h.prologue.header_eq, h.prologue.footer_eq,
    h.epilogue, h.chained.1, h.chained.2, h.ring, h.nodup,
    ?_, ?_⟩
  · intro c hc node hNode
    rcases (h.mem_list_iff c hc node).1 hNode with
      ⟨other, hOther, _, hOffset, _⟩ | ⟨hOffset, _⟩
    · exact ⟨other, mem_of_mem_others block hOther, hOffset⟩
    · exact ⟨block, by simp, hOffset.symm⟩
  · -- A block has one class, and the one block one place.
    intro c hc d hd hNe node hNode hNode'
    rcases (h.mem_list_iff c hc node).1 hNode with
      ⟨other, hOther, _, hOffset, hClass⟩ | ⟨hOffset, hFound⟩
    · rcases (h.mem_list_iff d hd node).1 hNode' with
        ⟨third, hThird, _, hOffset', hClass'⟩ | ⟨hOffset', _⟩
      · have hEq : other = third :=
          h.eq_of_offset_eq (mem_of_mem_others block hOther)
            (mem_of_mem_others block hThird)
            (hOffset.trans hOffset'.symm)
        subst hEq
        exact hNe (hClass.symm.trans hClass')
      · exact h.offset_ne hOther (hOffset.trans hOffset')
    · rcases (h.mem_list_iff d hd node).1 hNode' with
        ⟨other, hOther, _, hOffset', _⟩ | ⟨_, hFound'⟩
      · exact h.offset_ne hOther (hOffset'.trans hOffset)
      · rw [hFound] at hFound'
        exact hNe (Option.some.inj hFound')

------------------------------------------------------------
-- Who Is on File
------------------------------------------------------------

/- The other blocks are on file as their tags say. -/
theorem filed_other
    (h : FiledAs table m front block back lists found)
    (hOther : other ∈ front ++ back) :
    (HeapView.mk (front ++ block :: back) lists).listing[
        other.offset]? =
      if other.header.allocated then
        none
      else
        some (SizeClass.classify other.header.size) := by
  apply h.outlines.filed
  intro c hc
  rw [h.mem_list_iff c hc]
  constructor
  · rintro (⟨third, hThird, hFree, hOffset, hClass⟩ |
      ⟨hOffset, _⟩)
    · have hEq := h.eq_of_offset_eq
        (mem_of_mem_others block hThird)
        (mem_of_mem_others block hOther) hOffset
      subst hEq
      exact ⟨hFree, hClass⟩
    · exact absurd hOffset (h.offset_ne hOther)
  · rintro ⟨hFree, hClass⟩
    exact Or.inl ⟨other, hOther, hFree, rfl, hClass⟩

/- The one block is on file where it was found. -/
theorem filed
    (h : FiledAs table m front block back lists found) :
    (HeapView.mk (front ++ block :: back) lists).listing[
        block.offset]? = found := by
  apply h.outlines.listing_eq h.found_lt
  intro c hc
  rw [h.mem_list_iff c hc]
  constructor
  · rintro (⟨other, hOther, _, hOffset, _⟩ | ⟨_, hFound⟩)
    · exact absurd hOffset (h.offset_ne hOther)
    · exact hFound
  · intro hFound
    exact Or.inr ⟨rfl, hFound⟩

/-
  The free ones of the others are on file, and the one block
  if it was found.
-/
theorem size_listing
    (h : FiledAs table m front block back lists found) :
    (HeapView.mk (front ++ block :: back) lists).listing.size =
      (front ++ back).countP ChainBlock.isFree +
        found.toList.length := by
  have hOne : (found.toList.map (fun _ => block)).Sublist
      [block] := by
    cases found with
    | none => exact List.nil_sublist [block]
    | some c => exact List.Sublist.refl [block]
  have hSub : (front.filter ChainBlock.isFree ++
      (found.toList.map (fun _ => block) ++
        back.filter ChainBlock.isFree)).Sublist
          (front ++ ([block] ++ back)) :=
    List.filter_sublist.append
      (hOne.append List.filter_sublist)
  rw [h.outlines.size_listing hSub]
  · simp only [List.length_append, List.length_map,
      List.countP_eq_length_filter, List.filter_append]
    omega
  · intro node
    constructor
    · rintro ⟨c, hc, hNode⟩
      rcases (h.mem_list_iff c hc node).1 hNode with
        ⟨other, hOther, hFree, rfl, _⟩ | ⟨rfl, rfl⟩
      · refine ⟨other, ?_, rfl⟩
        have hFree := ChainBlock.isFree_iff.2 hFree
        simp only [List.mem_append, List.mem_filter] at hOther ⊢
        rcases hOther with hSide | hSide
        · exact Or.inl ⟨hSide, hFree⟩
        · exact Or.inr (Or.inr ⟨hSide, hFree⟩)
      · exact ⟨block, by simp, rfl⟩
    · rintro ⟨other, hOther, rfl⟩
      simp only [List.mem_append, List.mem_filter,
        List.mem_map] at hOther
      have hc := SizeClass.classify_lt other.header.size
      rcases hOther with hSide | ⟨c, hFound, rfl⟩ | hSide
      · refine ⟨_, hc, (h.mem_list_iff _ hc _).2 (Or.inl ?_)⟩
        exact ⟨other, List.mem_append_left _ hSide.1,
          ChainBlock.isFree_iff.1 hSide.2, rfl, rfl⟩
      · have hFound := Option.mem_toList.1 hFound
        have hc := h.found_lt c hFound
        exact ⟨c, hc, (h.mem_list_iff c hc _).2
          (Or.inr ⟨rfl, hFound⟩)⟩
      · refine ⟨_, hc, (h.mem_list_iff _ hc _).2 (Or.inl ?_)⟩
        exact ⟨other, List.mem_append_right _ hSide.1,
          ChainBlock.isFree_iff.1 hSide.2, rfl, rfl⟩

/- The free ones of all blocks are counted. -/
theorem freeBlocks_findings
    (h : FiledAs table m front block back lists found) :
    ((HeapView.mk (front ++ block :: back) lists).findings
        table m.size).freeBlocks table =
      (front ++ back).countP ChainBlock.isFree +
        [block].countP ChainBlock.isFree := by
  rw [Findings.freeBlocks_eq rfl
    (fun other hOther => h.outlines.ne_prologue hOther)]
  change (List.filter ChainBlock.isFree _).length = _
  rw [← List.countP_eq_length_filter,
    List.perm_middle.countP_eq, ← List.singleton_append,
    List.countP_append, Nat.add_comm]

------------------------------------------------------------
-- What Is Told
------------------------------------------------------------

/-
  Only the one block, the one behind it and the count may be
  told of.
-/
theorem violations_eq
    (h : FiledAs table m front block back lists found)
    (hPrologue : (base + table.prologue) % doubleWord = 0)
    (hWord : base + m.size < Word.limit)
    (hFront : NoFreeNeighbours front)
    (hBack : NoFreeNeighbours back) :
    ((HeapView.mk (front ++ block :: back) lists).findings
        table m.size).violations table base m.size =
      .ok (placeViolations
            (HeapView.mk (front ++ block :: back) lists).listing
            table.prologue
            ((front.getLast?.filter ChainBlock.isFree).map
              ChainBlock.offset)
            block ++
          (back.head?.filter ChainBlock.isFree).toList.flatMap
            (neighbourViolations
              (if block.header.allocated then
                none
              else
                some block.offset)) ++
          ((HeapView.mk (front ++ block :: back) lists).findings
            table m.size).countViolations table) := by
  have hFirst := table.firstBlock_eq
  have hAt := table.prologue_eq
  have hLe := h.chained.1.le
  have hAligned := h.outlines.aligned hPrologue
  have hWords : ∀ other ∈ front ++ block :: back,
      base + other.offset < Word.limit := by
    intro other hOther
    have hBounds := h.outlines.bounds hOther
    omega
  have hMem : block ∈ front ++ block :: back := by
    simp
  have hTags : tagViolations base block = .ok [] :=
    tagViolations_eq_nil_iff.2
      ⟨hWords block hMem, hAligned.2 block hMem,
        h.chained.2 block hMem⟩
  have hFirstTags : tagViolations base table.prologueBlock =
      .ok [] :=
    tagViolations_eq_nil_iff.2
      ⟨(show base + table.prologue < Word.limit by omega),
        hPrologue, rfl⟩
  have hPlaces : ∀ other ∈ front ++ back,
      InPlace base
        (HeapView.mk (front ++ block :: back) lists).listing
        other := by
    intro other hOther
    have hMem' := mem_of_mem_others block hOther
    exact ⟨hAligned.2 other hMem', h.chained.2 other hMem',
      h.filed_other hOther⟩
  have hAround := blockViolations_around hWords
    (fun other hOther => h.outlines.ne_prologue hOther)
    hPlaces hTags hFront hBack
  -- The prologue is not told of, and it is allocated.
  have hSkip : placeViolations
      (HeapView.mk (front ++ block :: back) lists).listing
      table.prologue none table.prologueBlock = [] :=
    if_pos rfl
  rw [h.outlines.violations_eq
    (blockViolations_cons hFirstTags hAround), hSkip]
  rfl

/- The place of the one block is told by where it was found. -/
theorem placeViolations_eq
    (h : FiledAs table m front block back lists found)
    (previousFree : Option Nat) :
    placeViolations
        (HeapView.mk (front ++ block :: back) lists).listing
        table.prologue previousFree block =
      if block.header.allocated then
        found.toList.map (.allocatedBlockListed block.offset)
      else
        (match found with
        | none =>
            [.freeBlockNotListed block.offset block.header.size
              (SizeClass.classify block.header.size)]
        | some c =>
            if c ≠ SizeClass.classify block.header.size then
              [.wrongClass block.offset
                (SizeClass.classify block.header.size) c]
            else
              []) ++
        neighbourViolations previousFree block := by
  have hMem : block ∈ front ++ block :: back := by
    simp
  unfold placeViolations allocatedBlockViolations
    freeBlockViolations
  rw [if_neg (h.outlines.ne_prologue hMem), h.filed]
  cases found with
  | none => rfl
  | some c => rfl

/- The count is off if just one of list and tag says free. -/
theorem countViolations_eq
    (h : FiledAs table m front block back lists found) :
    ((HeapView.mk (front ++ block :: back) lists).findings
        table m.size).countViolations table =
      if found.isSome = block.isFree then
        []
      else
        [.countMismatch
          ((front ++ back).countP ChainBlock.isFree +
            found.toList.length)
          ((front ++ back).countP ChainBlock.isFree +
            [block].countP ChainBlock.isFree)] := by
  have hListed : ((HeapView.mk (front ++ block :: back)
      lists).findings table m.size).listing.size = _ :=
    h.size_listing
  unfold Findings.countViolations
  dsimp only
  rw [hListed, h.freeBlocks_findings]
  cases found with
  | none =>
      cases hFree : block.isFree with
      | true => simp [hFree]
      | false => simp [hFree]
  | some c =>
      cases hFree : block.isFree with
      | true => simp [hFree]
      | false => simp [hFree]

/- A free block that is in no list is told of as such. -/
theorem violations_unlisted
    (h : FiledAs table m front block back lists none)
    (hPrologue : (base + table.prologue) % doubleWord = 0)
    (hWord : base + m.size < Word.limit)
    (hFree : block.header.allocated = false)
    (hApart : NoFreeNeighbours (front ++ block :: back)) :
    ((HeapView.mk (front ++ block :: back) lists).findings
        table m.size).violations table base m.size =
      .ok [
        .freeBlockNotListed block.offset block.header.size
          (SizeClass.classify block.header.size),
        .countMismatch
          ((front ++ back).countP ChainBlock.isFree)
          ((front ++ back).countP ChainBlock.isFree + 1)] := by
  rcases (noFreeNeighbours_free_iff hFree).1 hApart with
    ⟨hFront, hBack, hEnds, hStarts⟩
  rw [h.violations_eq hPrologue hWord hFront hBack,
    hEnds.filter_getLast?, hStarts.filter_head?,
    h.placeViolations_eq, h.countViolations_eq]
  simp [neighbourViolations, hFree, ChainBlock.isFree]

/- A free block in another list is told of as such. -/
theorem violations_misfiled
    {c : Nat}
    (h : FiledAs table m front block back lists (some c))
    (hPrologue : (base + table.prologue) % doubleWord = 0)
    (hWord : base + m.size < Word.limit)
    (hFree : block.header.allocated = false)
    (hApart : NoFreeNeighbours (front ++ block :: back))
    (hNe : c ≠ SizeClass.classify block.header.size) :
    ((HeapView.mk (front ++ block :: back) lists).findings
        table m.size).violations table base m.size =
      .ok [
        .wrongClass block.offset
          (SizeClass.classify block.header.size) c] := by
  rcases (noFreeNeighbours_free_iff hFree).1 hApart with
    ⟨hFront, hBack, hEnds, hStarts⟩
  rw [h.violations_eq hPrologue hWord hFront hBack,
    hEnds.filter_getLast?, hStarts.filter_head?,
    h.placeViolations_eq, h.countViolations_eq]
  simp [neighbourViolations, hFree, ChainBlock.isFree, hNe]

/- An allocated block in a list is told of as such. -/
theorem violations_mislabelled
    {c : Nat}
    (h : FiledAs table m front block back lists (some c))
    (hPrologue : (base + table.prologue) % doubleWord = 0)
    (hWord : base + m.size < Word.limit)
    (hAllocated : block.header.allocated = true)
    (hFront : NoFreeNeighbours front)
    (hBack : NoFreeNeighbours back) :
    ((HeapView.mk (front ++ block :: back) lists).findings
        table m.size).violations table base m.size =
      .ok [
        .allocatedBlockListed block.offset c,
        .countMismatch
          ((front ++ back).countP ChainBlock.isFree + 1)
          ((front ++ back).countP ChainBlock.isFree)] := by
  have hNone : (back.head?.filter
      ChainBlock.isFree).toList.flatMap
        (neighbourViolations none) = [] :=
    List.flatMap_eq_nil_iff.2 (fun _ _ => rfl)
  rw [h.violations_eq hPrologue hWord hFront hBack,
    h.placeViolations_eq, h.countViolations_eq]
  simp [hAllocated, ChainBlock.isFree, hNone]

/-
  A free block in the list of its class is told of with the
  free ones beside it.
-/
theorem violations_uncoalesced
    (h : FiledAs table m front block back lists
      (some (SizeClass.classify block.header.size)))
    (hPrologue : (base + table.prologue) % doubleWord = 0)
    (hWord : base + m.size < Word.limit)
    (hFree : block.header.allocated = false)
    (hFront : NoFreeNeighbours front)
    (hBack : NoFreeNeighbours back) :
    ((HeapView.mk (front ++ block :: back) lists).findings
        table m.size).violations table base m.size =
      .ok ((front.getLast?.filter ChainBlock.isFree).toList.map
            (.uncoalesced ·.offset block.offset) ++
          (back.head?.filter ChainBlock.isFree).toList.map
            (.uncoalesced block.offset ·.offset)) := by
  rw [h.violations_eq hPrologue hWord hFront hBack,
    h.placeViolations_eq, h.countViolations_eq]
  have hCount : (some (SizeClass.classify
      block.header.size)).isSome = block.isFree :=
    (ChainBlock.isFree_iff.2 hFree).symm
  rw [if_pos hCount, hFree]
  cases front.getLast?.filter ChainBlock.isFree with
  | none =>
      cases back.head?.filter ChainBlock.isFree with
      | none => simp [neighbourViolations]
      | some next => simp [neighbourViolations]
  | some previous =>
      cases back.head?.filter ChainBlock.isFree with
      | none => simp [neighbourViolations]
      | some next => simp [neighbourViolations]

end FiledAs

end SegregatedFit
