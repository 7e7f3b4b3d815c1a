import SegregatedFit.Proofs.Consistency.Blocks
import SegregatedFit.Proofs.Consistency.Lists
import SegregatedFit.Proofs.Consistency.Totality

/-
  The consistency check decides whether a heap has a view.

  If the check finds nothing wrong, the lists are rings, the
  chain fills the heap, and counting shows that the rings
  lead through the free blocks and no others.  Conversely all
  findings on a heap with a view can be read off the view,
  and none of them is a violation.

  Key definitions include:
    * `HeapView.findings`

  Key theorems include:
    * `Findings.exists_view`
    * `HeapView.Outlines.gather_eq`
    * `HeapView.Outlines.violations_eq`
    * `Allocator.checkConsistency_clean_iff`
-/

namespace SegregatedFit

------------------------------------------------------------
-- Findings without Violations
------------------------------------------------------------

namespace Findings

variable {table : SentinelTable}
variable {findings : Findings}

/- Findings are without violations if all their parts are. -/
theorem violations_eq_nil_iff
    {base heapSize : Nat} :
    findings.violations table base heapSize = .ok [] ↔
      findings.prologueViolations = [] ∧
      findings.walks.flatMap (ListWalk.violations table) = [] ∧
      blockViolations base findings.listing table.prologue none
        findings.chain.blocks = .ok [] ∧
      endViolations heapSize findings.chain.stop = [] ∧
      findings.strayViolations = [] ∧
      findings.countViolations table = [] := by
  unfold violations
  rw [Fault.bind_eq_ok_iff]
  constructor
  · rintro ⟨blocks, hBlocks, hResult⟩
    have hNil := Except.ok.inj hResult
    simp only [List.append_eq_nil_iff] at hNil
    rcases hNil with
      ⟨⟨⟨⟨⟨hPrologue, hWalks⟩, rfl⟩, hEnd⟩, hStray⟩, hCount⟩
    exact ⟨hPrologue, hWalks, hBlocks, hEnd, hStray, hCount⟩
  · rintro ⟨hPrologue, hWalks, hBlocks, hEnd, hStray, hCount⟩
    refine ⟨[], hBlocks, ?_⟩
    rw [hPrologue, hWalks, hEnd, hStray, hCount]
    rfl

/- The prologue is in order if both tags are as laid out. -/
theorem prologueViolations_eq_nil_iff :
    findings.prologueViolations = [] ↔
      findings.header = Tag.prologue ∧
        findings.footer = Tag.prologue := by
  unfold prologueViolations
  by_cases hTags : findings.header = Tag.prologue ∧
      findings.footer = findings.header
  · rw [if_pos hTags]
    exact ⟨fun _ => ⟨hTags.1, hTags.2.trans hTags.1⟩,
      fun _ => rfl⟩
  · rw [if_neg hTags]
    constructor
    · intro h
      cases h
    · intro h
      exact absurd ⟨h.1, h.2.trans h.1.symm⟩ hTags

/- No node is astray if each one on file is a block. -/
theorem strayViolations_eq_nil
    (hBlocks : ∀ node c : Nat,
      findings.listing[node]? = some c →
        ∃ block ∈ findings.chain.blocks,
          block.offset = node) :
    findings.strayViolations = [] := by
  unfold strayViolations
  dsimp only
  rw [List.map_eq_nil_iff, List.filter_eq_nil_iff]
  rintro ⟨node, c⟩ hEntry
  have hListed :=
    Std.TreeMap.mem_toList_iff_getElem?_eq_some.1 hEntry
  rcases hBlocks node c hListed with ⟨block, hBlock, rfl⟩
  have hMem : block.offset ∈
      findings.chain.blocks.map ChainBlock.offset :=
    List.mem_map.2 ⟨block, hBlock, rfl⟩
  simp only [Std.TreeSet.contains_ofList,
    List.contains_iff_mem.2 hMem, Bool.not_true,
    Bool.false_eq_true, not_false_eq_true]

/- The count is in order if it is that of the free blocks. -/
theorem countViolations_eq_nil_iff :
    findings.countViolations table = [] ↔
      findings.listing.size = findings.freeBlocks table := by
  unfold countViolations
  simp

/- All that was gathered was read from the heap. -/
theorem gather_eq_ok_iff
    {m : Memory} :
    gather table m = .ok findings ↔
      m.header table.prologue = .ok findings.header ∧
      m.loadTag table.prologue = .ok findings.footer ∧
      table.walkLists m =
        .ok (findings.walks, findings.listing) ∧
      m.chain table.prologue = .ok findings.chain := by
  unfold gather
  rw [Fault.bind_eq_ok_iff]
  constructor
  · rintro ⟨header, hHeader, h⟩
    rw [Fault.bind_eq_ok_iff] at h
    rcases h with ⟨footer, hFooter, h⟩
    rw [Fault.bind_eq_ok_iff] at h
    rcases h with ⟨⟨walks, listing⟩, hWalks, h⟩
    rw [Fault.bind_eq_ok_iff] at h
    rcases h with ⟨chain, hChain, hResult⟩
    cases hResult
    exact ⟨hHeader, hFooter, hWalks, hChain⟩
  · rintro ⟨hHeader, hFooter, hWalks, hChain⟩
    refine ⟨_, hHeader, ?_⟩
    rw [Fault.bind_of_ok hFooter, Fault.bind_of_ok hWalks]
    dsimp only
    rw [Fault.bind_of_ok hChain]
    rfl

/-
  The nodes on file are the free blocks if each free block is
  on file and there are as many of both.
-/
theorem mem_listing_iff
    {listing : Listing}
    {blocks : List ChainBlock}
    (hOffsets : (blocks.map ChainBlock.offset).Nodup)
    (hFiled : ∀ block ∈ blocks, block.offset ∈ listing)
    (hCount : listing.size = blocks.length)
    (node : Nat) :
    node ∈ listing ↔ ∃ block ∈ blocks, block.offset = node := by
  have hSub : blocks.map ChainBlock.offset ⊆ listing.keys := by
    intro offset hOffset
    rcases List.mem_map.1 hOffset with ⟨block, hBlock, rfl⟩
    exact Std.TreeMap.mem_keys.2 (hFiled block hBlock)
  have hPerm :
      (blocks.map ChainBlock.offset).Perm listing.keys := by
    apply (hOffsets.subperm hSub).perm_of_length_le
    rw [Std.TreeMap.length_keys, List.length_map, hCount]
  rw [← Std.TreeMap.mem_keys, ← hPerm.mem_iff, List.mem_map]

/- The footer of the prologue is where a payload would begin. -/
theorem footer_prologue
    {m : Memory}
    (hHeader : m.header table.prologue = .ok Tag.prologue)
    (hWord : table.firstBlock < Word.limit) :
    m.footer table.prologue = m.loadTag table.prologue := by
  have hStop : Word.add table.prologue Tag.prologue.size =
      .ok table.firstBlock :=
    Word.add_of_lt hWord
  have hBack : Word.sub table.firstBlock doubleWord =
      .ok table.prologue :=
    Word.sub_of_le (Nat.le_add_left _ _)
  unfold Memory.footer
  rw [Fault.bind_of_ok hHeader, Fault.bind_of_ok hStop,
    Fault.bind_of_ok hBack]

/-
  The chain begins with the prologue if that has its tags,
  and goes on behind it.
-/
theorem exists_blocks
    {m : Memory}
    (hGather : gather table m = .ok findings)
    (hTags : findings.header = Tag.prologue ∧
      findings.footer = Tag.prologue)
    (hEnd : endViolations m.size findings.chain.stop = []) :
    ∃ blocks,
      findings.chain.blocks = table.prologueBlock :: blocks ∧
      m.Chained table.firstBlock blocks m.size ∧
      m.footer table.prologue = .ok Tag.prologue ∧
      m.header m.size = .ok Tag.epilogue := by
  rcases gather_eq_ok_iff.1 hGather with
    ⟨hHeader, hFooter, _, hChain⟩
  rw [hTags.1] at hHeader
  rw [hTags.2] at hFooter
  rcases Memory.chainFrom_sound hChain hEnd with
    ⟨hChained, hLast⟩
  cases hBlocks : findings.chain.blocks with
  | nil =>
      rw [hBlocks] at hChained
      have hEmpty : table.prologue = m.size := hChained
      rw [← hEmpty, hHeader] at hLast
      cases hLast
  | cons first rest =>
      rw [hBlocks] at hChained
      rcases hChained with
        ⟨hOffset, hFirst, hBack, _, hRest⟩
      rw [hHeader] at hFirst
      have hTag := Except.ok.inj hFirst
      rw [← hTag] at hRest
      have hFound : m.footer table.prologue =
          .ok Tag.prologue := by
        rcases Memory.footer_eq_ok_iff.1 hBack with
          ⟨header, hHeader', hWord, _⟩
        rw [hHeader] at hHeader'
        cases hHeader'
        rw [footer_prologue hHeader hWord]
        exact hFooter
      refine ⟨rest, ?_, hRest, hFound, hLast⟩
      rw [hFound] at hBack
      rcases first with ⟨offset, header, footer⟩
      cases hOffset
      cases hTag
      cases hBack
      rfl

/-
  Blocks in place, filed in rings, as many nodes on file as
  free blocks: the rings lead through the free blocks.
-/
theorem mem_list_iff
    {base : Nat}
    {listing : Listing}
    {view : HeapView}
    (hOffsets : (view.blocks.map ChainBlock.offset).Nodup)
    (hPlaces : ∀ block ∈ view.blocks,
      InPlace base listing block)
    (hLists : ∀ x c : Nat, listing[x]? = some c ↔
      c < SizeClass.count ∧ x ∈ view.lists c)
    (hCount : listing.size = view.freeBlocks.length)
    {c : Nat}
    (hc : c < SizeClass.count)
    (node : Nat) :
    node ∈ view.lists c ↔
      ∃ block ∈ view.freeBlocks,
        block.offset = node ∧
          SizeClass.classify block.header.size = c := by
  have hFiled : ∀ block ∈ view.freeBlocks,
      listing[block.offset]? =
        some (SizeClass.classify block.header.size) := by
    intro block hBlock
    rcases HeapView.mem_freeBlocks_iff.1 hBlock with
      ⟨hMem, hFree⟩
    rw [(hPlaces block hMem).filed, hFree]
    rfl
  have hFree :
      (view.freeBlocks.map ChainBlock.offset).Nodup :=
    hOffsets.sublist (List.filter_sublist.map _)
  have hAll := mem_listing_iff hFree
    (fun block hBlock => by
      rw [Std.TreeMap.mem_iff_isSome_getElem?,
        hFiled block hBlock]
      rfl)
    hCount
  constructor
  · intro hNode
    have hListed := (hLists node c).2 ⟨hc, hNode⟩
    have hMem : node ∈ listing := by
      rw [Std.TreeMap.mem_iff_isSome_getElem?, hListed]
      rfl
    rcases (hAll node).1 hMem with ⟨block, hBlock, rfl⟩
    rw [hFiled block hBlock] at hListed
    exact ⟨block, hBlock, rfl, Option.some.inj hListed⟩
  · rintro ⟨block, hBlock, rfl, rfl⟩
    exact ((hLists _ _).1 (hFiled block hBlock)).2

/- The free blocks are counted without the prologue. -/
theorem freeBlocks_eq
    {view : HeapView}
    (hChain : findings.chain.blocks =
      table.prologueBlock :: view.blocks)
    (hOther : ∀ block ∈ view.blocks,
      block.offset ≠ table.prologue) :
    findings.freeBlocks table = view.freeBlocks.length := by
  have hSelf : table.prologueBlock.offset = table.prologue :=
    rfl
  unfold freeBlocks HeapView.freeBlocks
  rw [hChain, ← List.countP_eq_length_filter,
    List.countP_cons_of_neg (by simp [hSelf])]
  apply List.countP_congr
  intro block hBlock
  simp [hOther block hBlock]

/- Findings without violations make a view. -/
theorem exists_view
    {m : Memory}
    {base : Nat}
    (hWord : base + m.size < Word.limit)
    (hGather : gather table m = .ok findings)
    (hClean :
      findings.violations table base m.size = .ok []) :
    ∃ view : HeapView,
      view.Describes table m ∧ view.Aligned table base := by
  have hFirst := table.firstBlock_eq
  have hAt := table.prologue_eq
  rcases violations_eq_nil_iff.1 hClean with
    ⟨hPrologue, hWalks, hBlocks, hEnd, _, hCount⟩
  have hTags := prologueViolations_eq_nil_iff.1 hPrologue
  rcases gather_eq_ok_iff.1 hGather with
    ⟨hHeader, _, hListed, _⟩
  rcases exists_blocks hGather hTags hEnd with
    ⟨blocks, hChain, hChained, hFooter, hLast⟩
  rcases SentinelTable.walkLists_sound hListed hWalks with
    ⟨lists, hRings, hLists⟩
  have hBounds : ∀ block ∈ blocks,
      table.firstBlock ≤ block.offset ∧
        block.offset ≤ m.size := by
    intro block hBlock
    have hBetween := hChained.tiles.bounds hBlock
    omega
  have hOther : ∀ block ∈ blocks,
      block.offset ≠ table.prologue := by
    intro block hBlock
    have hBetween := hBounds block hBlock
    omega
  rw [hChain, blockViolations_cons_eq_nil_iff,
    tagViolations_eq_nil_iff] at hBlocks
  rcases hBlocks with ⟨⟨_, hAligned, _⟩, _, hRest⟩
  have hBehind := (blockViolations_eq_nil_iff
    (fun block hBlock => by
      have hBetween := hBounds block hBlock
      omega)
    hOther).1 hRest
  rcases hBehind with ⟨hPlaces, hApart, _⟩
  have hFree : findings.listing.size =
      (HeapView.mk blocks lists).freeBlocks.length := by
    rw [countViolations_eq_nil_iff.1 hCount]
    exact freeBlocks_eq hChain hOther
  refine ⟨⟨blocks, lists⟩, ?_, hAligned, ?_⟩
  · exact ⟨hTags.1 ▸ hHeader, hFooter, hLast, hChained,
      fun block hBlock => (hPlaces block hBlock).footer_eq,
      hApart, fun c hc => (hRings c hc).1,
      fun c hc => (hRings c hc).2,
      fun c hc => mem_list_iff hChained.nodup_offsets hPlaces
        hLists hFree hc⟩
  · exact fun block hBlock => (hPlaces block hBlock).aligned

end Findings

------------------------------------------------------------
-- Heaps with a View
------------------------------------------------------------

namespace HeapView

variable {view : HeapView}
variable {table : SentinelTable}
variable {m : Memory}

/- The header of the block at an offset. -/
def headerAt
    (view : HeapView)
    (offset : Nat) : Tag :=
  match view.blocks.find?
      (fun block => block.offset = offset) with
  | some block => block.header
  | none => Tag.epilogue

/- The nodes of all lists with their classes. -/
def listing
    (view : HeapView) : Listing :=
  (∅ : Listing).fileAll view.lists SizeClass.all

/- What the walks over a heap with this view find. -/
def findings
    (view : HeapView)
    (table : SentinelTable)
    (heapSize : Nat) : Findings where
  header := Tag.prologue
  footer := Tag.prologue
  walks := SizeClass.all.map
    (table.ringWalk view.headerAt view.lists)
  listing := view.listing
  chain := {
    blocks := table.prologueBlock :: view.blocks,
    stop := .sizeZero heapSize Tag.epilogue }

namespace Outlines

/- A block is found by its offset. -/
theorem headerAt_eq
    {block : ChainBlock}
    (h : view.Outlines table m)
    (hBlock : block ∈ view.blocks) :
    view.headerAt block.offset = block.header := by
  unfold headerAt
  cases hFound : view.blocks.find?
      (fun other => other.offset = block.offset) with
  | none =>
      rw [List.find?_eq_none] at hFound
      exact absurd (hFound block hBlock) (by simp)
  | some other =>
      have hOffset := List.find?_some hFound
      have hOther := List.mem_of_find?_eq_some hFound
      dsimp only
      rw [h.eq_of_offset_eq hOther hBlock (by simpa using hOffset)]

/- The walks go through the lists of a view. -/
theorem walkable
    {c : Nat}
    (h : view.Outlines table m)
    (hc : c < SizeClass.count) :
    table.Walkable m view.headerAt view.lists c := by
  have hSizes := layout_sizes
  have hFirst := table.firstBlock_eq
  refine ⟨h.ring c hc, h.nodup c hc, ?_, ?_, ?_⟩
  · intro x hx
    rcases h.exists_block c hc x hx with ⟨block, hBlock, rfl⟩
    have hBounds := h.bounds hBlock
    have hOutside : table.isSentinel block.offset = false := by
      unfold SentinelTable.isSentinel
      rw [decide_eq_false
        (p := block.offset < table.offset + SentinelTable.size)
        (by omega)]
      simp
    unfold SentinelTable.isNode
    rw [hOutside]
    simp only [Bool.and_eq_true, decide_eq_true_eq]
    exact ⟨⟨by omega, by omega⟩, rfl⟩
  · intro x hx
    rcases h.exists_block c hc x hx with ⟨block, hBlock, rfl⟩
    rw [h.headerAt_eq hBlock]
    exact (h.chained.header_eq hBlock).1
  · have hLe := h.length_list hc
    have hBlocks := h.length_le
    omega

/- No two lists have a node in common. -/
theorem pairwise_disjoint
    (h : view.Outlines table m) :
    SizeClass.all.Pairwise (fun c d =>
      (view.lists c).Disjoint (view.lists d)) := by
  have hDistinct : SizeClass.all.Nodup := by
    decide
  apply hDistinct.imp_of_mem
  intro c d hc hd hNe
  exact h.disjoint c (SizeClass.mem_all_iff.1 hc) d
    (SizeClass.mem_all_iff.1 hd) hNe

/- The listing holds the nodes of all lists. -/
theorem getElem?_listing
    (h : view.Outlines table m)
    (x c : Nat) :
    view.listing[x]? = some c ↔
      c < SizeClass.count ∧ x ∈ view.lists c := by
  unfold listing
  rw [Listing.getElem?_fileAll h.pairwise_disjoint (by simp),
    SizeClass.mem_all_iff]
  simp

/- A node is on file where the lists have it. -/
theorem listing_eq
    {node : Nat}
    {found : Option Nat}
    (h : view.Outlines table m)
    (hClass : ∀ c ∈ found, c < SizeClass.count)
    (hFound : ∀ c, c < SizeClass.count →
      (node ∈ view.lists c ↔ found = some c)) :
    view.listing[node]? = found := by
  apply Option.ext
  intro c
  rw [h.getElem?_listing]
  constructor
  · rintro ⟨hc, hNode⟩
    exact (hFound c hc).1 hNode
  · intro hSome
    have hc := hClass c hSome
    exact ⟨hc, (hFound c hc).2 hSome⟩

/-
  A block is on file as its tags say if just the list of its
  class has it, or none if it is allocated.
-/
theorem filed
    {block : ChainBlock}
    (h : view.Outlines table m)
    (hListed : ∀ c, c < SizeClass.count →
      (block.offset ∈ view.lists c ↔
        block.header.allocated = false ∧
          SizeClass.classify block.header.size = c)) :
    view.listing[block.offset]? =
      if block.header.allocated then
        none
      else
        some (SizeClass.classify block.header.size) := by
  apply h.listing_eq
  · intro c hSome
    cases hState : block.header.allocated with
    | true =>
        rw [hState, if_pos rfl] at hSome
        cases hSome
    | false =>
        rw [hState, if_neg Bool.false_ne_true] at hSome
        cases hSome
        exact SizeClass.classify_lt block.header.size
  · intro c hc
    rw [hListed c hc]
    cases hState : block.header.allocated with
    | true => simp
    | false => simp

/-
  All that the walks find on a heap with an outline is told
  by the view.
-/
theorem gather_eq
    (h : view.Outlines table m)
    (hWord : m.size < Word.limit) :
    Findings.gather table m =
      .ok (view.findings table m.size) := by
  rw [Findings.gather_eq_ok_iff]
  have hLe := h.chained.le
  have hFooter := h.prologue_footer
  rw [Findings.footer_prologue h.prologue_header
    (by omega)] at hFooter
  refine ⟨h.prologue_header, hFooter, ?_, h.chain_eq hWord⟩
  exact SentinelTable.walkClasses_of_rings
    (fun c hc => SizeClass.mem_all_iff.1 hc)
    (fun c hc => h.walkable (SizeClass.mem_all_iff.1 hc))
    h.pairwise_disjoint (by simp)

/-
  The nodes on file are those of some blocks if these are
  the ones in the lists.
-/
theorem keys_perm
    {blocks : List ChainBlock}
    (h : view.Outlines table m)
    (hBlocks : blocks.Sublist view.blocks)
    (hListed : ∀ node,
      (∃ c, c < SizeClass.count ∧ node ∈ view.lists c) ↔
        ∃ block ∈ blocks, block.offset = node) :
    view.listing.keys.Perm (blocks.map ChainBlock.offset) := by
  have hNodup : (blocks.map ChainBlock.offset).Nodup :=
    h.chained.nodup_offsets.sublist (hBlocks.map _)
  rw [List.perm_ext_iff_of_nodup Std.TreeMap.nodup_keys hNodup]
  intro node
  rw [Std.TreeMap.mem_keys, Std.TreeMap.mem_iff_isSome_getElem?,
    Option.isSome_iff_exists, List.mem_map, ← hListed]
  simp only [h.getElem?_listing]

/- As many nodes are on file as there are such blocks. -/
theorem size_listing
    {blocks : List ChainBlock}
    (h : view.Outlines table m)
    (hBlocks : blocks.Sublist view.blocks)
    (hListed : ∀ node,
      (∃ c, c < SizeClass.count ∧ node ∈ view.lists c) ↔
        ∃ block ∈ blocks, block.offset = node) :
    view.listing.size = blocks.length := by
  have hLength := (h.keys_perm hBlocks hListed).length_eq
  rwa [Std.TreeMap.length_keys, List.length_map] at hLength

/-
  The walks, the ends and the nodes of a heap with an outline
  are in order.  Only blocks and the count are told of.
-/
theorem violations_eq
    {base : Nat}
    {violations : List Violation}
    (h : view.Outlines table m)
    (hBlocks : blockViolations base view.listing table.prologue
      none (table.prologueBlock :: view.blocks) =
        .ok violations) :
    (view.findings table m.size).violations table base
      m.size =
        .ok (violations ++
          (view.findings table m.size).countViolations
            table) := by
  have hPrologue :
      (view.findings table m.size).prologueViolations = [] :=
    Findings.prologueViolations_eq_nil_iff.2 ⟨rfl, rfl⟩
  have hWalks : (view.findings table m.size).walks.flatMap
      (ListWalk.violations table) = [] := by
    rw [List.flatMap_eq_nil_iff]
    intro walk hWalk
    rcases List.mem_map.1 hWalk with ⟨c, _, rfl⟩
    exact SentinelTable.violations_ringWalk c
  have hEnd : endViolations m.size
      (view.findings table m.size).chain.stop = [] :=
    endViolations_eq_nil_iff.2 ⟨Tag.epilogue, rfl, rfl⟩
  have hStray :
      (view.findings table m.size).strayViolations = [] := by
    apply Findings.strayViolations_eq_nil
    intro node c hListed
    rcases (h.getElem?_listing node c).1 hListed with
      ⟨hc, hNode⟩
    rcases h.exists_block c hc node hNode with
      ⟨block, hBlock, hOffset⟩
    exact ⟨block, List.mem_cons_of_mem _ hBlock, hOffset⟩
  have hFound : blockViolations base
      (view.findings table m.size).listing table.prologue none
      (view.findings table m.size).chain.blocks =
        .ok violations :=
    hBlocks
  unfold Findings.violations
  rw [Fault.bind_of_ok hFound, hPrologue, hWalks, hEnd, hStray]
  simp only [List.nil_append, List.append_nil]
  rfl

end Outlines

namespace Describes

/- Blocks lie between the prologue and the end. -/
theorem bounds
    {block : ChainBlock}
    (h : view.Describes table m)
    (hBlock : block ∈ view.blocks) :
    table.firstBlock ≤ block.offset ∧
      doubleWord ≤ block.header.size ∧
      block.offset + block.header.size ≤ m.size :=
  h.outlines.bounds hBlock

/-
  All that the walks find on a heap with a view is told by
  the view.
-/
theorem gather_eq
    (h : view.Describes table m)
    (hWord : m.size < Word.limit) :
    Findings.gather table m =
      .ok (view.findings table m.size) :=
  h.outlines.gather_eq hWord

/- Free blocks are on file in their class, allocated ones not. -/
theorem filed
    {block : ChainBlock}
    (h : view.Describes table m)
    (hBlock : block ∈ view.blocks) :
    view.listing[block.offset]? =
      if block.header.allocated then
        none
      else
        some (SizeClass.classify block.header.size) := by
  apply h.outlines.filed
  intro c hc
  rw [h.mem_list_iff c hc]
  constructor
  · rintro ⟨other, hOther, hOffset, hClass⟩
    rcases mem_freeBlocks_iff.1 hOther with ⟨hMem, hFree⟩
    have hEq := h.outlines.eq_of_offset_eq hMem hBlock hOffset
    subst hEq
    exact ⟨hFree, hClass⟩
  · rintro ⟨hFree, hClass⟩
    exact ⟨block, mem_freeBlocks_iff.2 ⟨hBlock, hFree⟩, rfl,
      hClass⟩

/- As many nodes are on file as there are free blocks. -/
theorem size_listing
    (h : view.Describes table m) :
    view.listing.size = view.freeBlocks.length := by
  apply h.outlines.size_listing List.filter_sublist
  intro node
  constructor
  · rintro ⟨c, hc, hNode⟩
    rcases (h.mem_list_iff c hc node).1 hNode with
      ⟨block, hBlock, hOffset, _⟩
    exact ⟨block, hBlock, hOffset⟩
  · rintro ⟨block, hBlock, rfl⟩
    have hc := SizeClass.classify_lt block.header.size
    exact ⟨_, hc, (h.mem_list_iff _ hc _).2
      ⟨block, hBlock, rfl, rfl⟩⟩

/-
  On a heap with a view, only blocks that stand off the
  double word are told of.
-/
theorem violations_eq_misalignments
    {base : Nat}
    (h : view.Describes table m)
    (hWord : base + m.size < Word.limit) :
    (view.findings table m.size).violations table base
      m.size =
        .ok (misalignments base
          (table.prologueBlock :: view.blocks)) := by
  have hFirst := table.firstBlock_eq
  have hAt := table.prologue_eq
  have hLe := h.chained.le
  have hSelf : table.prologueBlock.offset = table.prologue :=
    rfl
  have hOther : ∀ block ∈ view.blocks,
      block.offset ≠ table.prologue :=
    fun block hBlock => h.outlines.ne_prologue hBlock
  have hCount :
      (view.findings table m.size).countViolations table =
        [] := by
    rw [Findings.countViolations_eq_nil_iff,
      Findings.freeBlocks_eq rfl hOther]
    exact h.size_listing
  have hWords : ∀ block ∈ view.blocks,
      base + block.offset < Word.limit := by
    intro block hBlock
    have hBounds := h.bounds hBlock
    omega
  have hBehind : blockViolations base view.listing
      table.prologue none view.blocks =
        .ok (misalignments base view.blocks) :=
    blockViolations_eq hWords hOther h.footer_eq
      (fun block hBlock => h.filed hBlock) h.coalesced
      (Or.inr rfl)
  have hBlocks : blockViolations base view.listing
      table.prologue none
      (table.prologueBlock :: view.blocks) =
        .ok (misalignments base
          (table.prologueBlock :: view.blocks)) :=
    blockViolations_cons_eq (by omega) rfl (if_pos hSelf)
      hBehind
  rw [h.outlines.violations_eq hBlocks, hCount,
    List.append_nil]

/- A heap with an aligned view has no violations. -/
theorem violations_eq
    {base : Nat}
    (h : view.Describes table m)
    (hAligned : view.Aligned table base)
    (hWord : base + m.size < Word.limit) :
    (view.findings table m.size).violations table base
      m.size = .ok [] := by
  have hAll : ∀ block ∈ table.prologueBlock :: view.blocks,
      (base + block.offset) % doubleWord = 0 :=
    List.forall_mem_cons.2 ⟨hAligned.1, hAligned.2⟩
  rw [h.violations_eq_misalignments hWord,
    misalignments_eq_nil hAll]

end Describes

end HeapView

------------------------------------------------------------
-- The Check
------------------------------------------------------------

namespace Allocator

variable {a : Allocator}
variable {table : SentinelTable}

/-
  A check over any bytes ends with a report.  If it tells no
  violation, the bytes have an aligned view.
-/
theorem checkConsistency_sound
    (hTable : a.table = some table)
    (hRoom : table.firstBlock ≤ a.memory.size)
    (hWord : a.region.base + a.memory.size < Word.limit)
    (verbose : Bool) :
    ∃ report,
      (a.checkConsistency verbose).outcome = .ok report ∧
      (report.violations = [] →
        ∃ view : HeapView,
          view.Describes table a.memory ∧
            view.Aligned table a.region.base) := by
  rcases Findings.exists_violations hRoom hWord with
    ⟨findings, violations, hGather, hViolations⟩
  rcases checkConsistency_eq hTable hGather hViolations verbose
    with ⟨report, hCheck, rfl⟩
  refine ⟨report, by rw [hCheck], ?_⟩
  intro hClean
  rw [hClean] at hViolations
  exact Findings.exists_view hWord hGather hViolations

/- The check finds nothing wrong with an aligned view. -/
theorem checkConsistency_complete
    {view : HeapView}
    {report : Report}
    {verbose : Bool}
    (hTable : a.table = some table)
    (hWord : a.region.base + a.memory.size < Word.limit)
    (hDescribes : view.Describes table a.memory)
    (hAligned : view.Aligned table a.region.base)
    (hReport :
      (a.checkConsistency verbose).outcome = .ok report) :
    report.violations = [] := by
  rcases checkConsistency_eq hTable
      (hDescribes.gather_eq (by omega))
      (hDescribes.violations_eq hAligned hWord) verbose with
    ⟨told, hCheck, hClean⟩
  rw [hCheck] at hReport
  cases hReport
  exact hClean

/-
  The check tells no violation exactly if the bytes of the
  heap, whatever they are, have a view in which all blocks
  are aligned.
-/
theorem checkConsistency_clean_iff
    (hTable : a.table = some table)
    (hRoom : table.firstBlock ≤ a.memory.size)
    (hWord : a.region.base + a.memory.size < Word.limit)
    (verbose : Bool) :
    ∃ report,
      (a.checkConsistency verbose).outcome = .ok report ∧
      (report.violations = [] ↔
        ∃ view : HeapView,
          view.Describes table a.memory ∧
            view.Aligned table a.region.base) := by
  rcases checkConsistency_sound hTable hRoom hWord verbose with
    ⟨report, hReport, hSound⟩
  refine ⟨report, hReport, hSound, ?_⟩
  rintro ⟨view, hDescribes, hAligned⟩
  exact checkConsistency_complete hTable hWord hDescribes
    hAligned hReport

/-
  An allocator on a heap with one free block, which stands in
  the list of its class.  Where the list goes on behind it is
  left open, and it ends there if that is the sentinel.
-/
def linked
    (next : Nat) : Allocator where
  region := {
    memory := { bytes := ⟨((
      [192, 192] ++
        (List.range' 1 9).flatMap (fun c => [16 * c, 16 * c]) ++
        [0, 17, 17, 32, next, 0, 32, 1]).flatMap
          Word.toBytes).toArray⟩ },
    base := 4096,
    source := .reservation 256,
    refusals := fun _ => none,
    growths := 3 }
  config := Config.default
  config_valid := Config.validate_default
  table := some { offset := 0 }
  extensions := 1
  allocations := 0
  frees := 0

/-
  If the list ends there, nothing is wrong.  If it leads back
  to the block, the walk meets the block again.
-/
theorem linked_eq :
    ((linked 0).memory.size = 224 ∧
      ((linked 0).checkConsistency false).outcome.map
        Report.violations = .ok []) ∧
    (linked 192).memory.size = 224 ∧
    ((linked 192).checkConsistency false).outcome.map
      Report.violations =
        .ok [.brokenLink 0 192, .listedTwice 0 192] := by
  decide +kernel

/-
  With the one list the heap has an aligned view, with the
  other it has none.
-/
theorem checkConsistency_clean_iff_linked :
    (∃ report,
      ((linked 0).checkConsistency false).outcome =
        .ok report ∧
      report.violations = [] ∧
      ∃ view : HeapView,
        view.Describes { offset := 0 } (linked 0).memory ∧
          view.Aligned { offset := 0 } 4096) ∧
    ∃ report,
      ((linked 192).checkConsistency false).outcome =
        .ok report ∧
      report.violations =
        [.brokenLink 0 192, .listedTwice 0 192] ∧
      ¬ ∃ view : HeapView,
        view.Describes { offset := 0 } (linked 192).memory ∧
          view.Aligned { offset := 0 } 4096 := by
  rcases linked_eq with ⟨⟨hSize, hClean⟩, hSize', hBroken⟩
  have hRoom : SentinelTable.firstBlock { offset := 0 } ≤ 224 :=
    by decide
  have hWord : 4096 + 224 < Word.limit := by
    decide
  constructor
  · rcases checkConsistency_clean_iff (a := linked 0) rfl
        (by rw [hSize]; exact hRoom)
        (by rw [hSize]; exact hWord) false with
      ⟨report, hReport, hIff⟩
    rw [hReport] at hClean
    have hNone := Except.ok.inj hClean
    exact ⟨report, hReport, hNone, hIff.1 hNone⟩
  · rcases checkConsistency_clean_iff (a := linked 192) rfl
        (by rw [hSize']; exact hRoom)
        (by rw [hSize']; exact hWord) false with
      ⟨report, hReport, hIff⟩
    rw [hReport] at hBroken
    have hSome := Except.ok.inj hBroken
    refine ⟨report, hReport, hSome, fun hView => ?_⟩
    rw [hSome] at hIff
    exact List.cons_ne_nil _ _ (hIff.2 hView)

end Allocator

end SegregatedFit
