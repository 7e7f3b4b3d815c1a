import Mathlib.Data.List.Induction
import SegregatedFit.Proofs.Consistency.Decision

/-
  Each word of a heap's own is determined by all the others.

  The headers alone tell the blocks from the front, and the
  footers alone tell them from the end.  In a ring the
  forward links alone tell the back links, and the back links
  alone tell the forward links.  So two heaps that both have
  views cannot differ in one such word alone.

  Key definitions include:
    * `TagWord`
    * `SentinelTable.LinkWord`
    * `Memory.Corrupts`

  Key theorems include:
    * `Memory.Chained.eq_of_headers`
    * `Memory.Chained.eq_of_footers`
    * `HeapView.Describes.loadTag_eq`
    * `HeapView.Describes.loadWord_eq`
    * `HeapView.Describes.not_describes_of_corrupts`
-/

namespace SegregatedFit

------------------------------------------------------------
-- Words of the Heap
------------------------------------------------------------

/-
  The words that hold tags: the two of each block and the
  header behind the last one.
-/
inductive TagWord
    (heapSize : Nat)
    (blocks : List ChainBlock) :
    Nat → Prop where
  | header
      (block : ChainBlock)
      (listed : block ∈ blocks) :
      TagWord heapSize blocks (block.offset - wordSize)
  | footer
      (block : ChainBlock)
      (listed : block ∈ blocks) :
      TagWord heapSize blocks
        (block.offset + block.header.size - doubleWord)
  | epilogue :
      TagWord heapSize blocks (heapSize - wordSize)

/- The nodes that have links: the sentinels and the free blocks. -/
inductive SentinelTable.LinkNode
    (table : SentinelTable)
    (blocks : List ChainBlock) :
    Nat → Prop where
  | sentinel
      (c : Nat)
      (lt : c < SizeClass.count) :
      LinkNode table blocks (table.sentinel c)
  | block
      (block : ChainBlock)
      (listed : block ∈ blocks)
      (free : block.header.allocated = false) :
      LinkNode table blocks block.offset

/- The words that hold links: the first two of each node. -/
inductive SentinelTable.LinkWord
    (table : SentinelTable)
    (blocks : List ChainBlock) :
    Nat → Prop where
  | next
      (node : Nat)
      (linked : table.LinkNode blocks node) :
      LinkWord table blocks node
  | previous
      (node : Nat)
      (linked : table.LinkNode blocks node) :
      LinkWord table blocks (node + wordSize)

namespace Memory

variable {m n : Memory}

/- Two memories of the same size agree on all other words. -/
def DiffersAt
    (m n : Memory)
    (offset : Nat) : Prop :=
  n.size = m.size ∧
    ∀ other,
      other + wordSize ≤ offset ∨ offset + wordSize ≤ other →
        n.loadWord other = m.loadWord other

/- A store changes one word. -/
theorem differsAt_of_storeWord
    {offset value : Nat}
    (h : m.storeWord offset value = .ok n) :
    m.DiffersAt n offset :=
  ⟨size_of_storeWord h,
    fun _ hApart => loadWord_storeWord_of_disjoint hApart h⟩

/- Memories that agree on a word agree on the header behind it. -/
theorem header_congr
    {bp : Nat}
    (h : n.loadWord (bp - wordSize) =
      m.loadWord (bp - wordSize)) :
    n.header bp = m.header bp := by
  unfold header Word.sub
  split
  · exact loadTag_congr h
  · rfl

/- The same for the footer in front of it. -/
theorem previousFooter_congr
    {bp : Nat}
    (h : n.loadWord (bp - doubleWord) =
      m.loadWord (bp - doubleWord)) :
    n.previousFooter bp = m.previousFooter bp := by
  unfold previousFooter Word.sub
  split
  · exact loadTag_congr h
  · rfl

------------------------------------------------------------
-- Chains
------------------------------------------------------------

/- A block of a stretch has its footer where it ends. -/
theorem Chained.previousFooter_eq
    {start stop : Nat}
    {blocks : List ChainBlock}
    {block : ChainBlock}
    (h : m.Chained start blocks stop)
    (hBlock : block ∈ blocks) :
    m.previousFooter (block.offset + block.header.size) =
      .ok block.footer := by
  induction blocks generalizing start with
  | nil => cases hBlock
  | cons other blocks ih =>
      rcases h with ⟨hOffset, hHeader, hFooter, _, hRest⟩
      rcases List.mem_cons.1 hBlock with rfl | hBlock
      · subst hOffset
        rw [footer_eq_ok_iff] at hFooter
        rcases hFooter with ⟨header, hHeader', _, hPrevious⟩
        rw [hHeader] at hHeader'
        cases hHeader'
        exact hPrevious
      · exact ih hRest hBlock

/- No block fits in an empty stretch. -/
theorem Chained.eq_nil
    {start : Nat}
    {blocks : List ChainBlock}
    (h : m.Chained start blocks start) :
    blocks = [] := by
  cases blocks with
  | nil => rfl
  | cons block blocks =>
      rcases h with ⟨_, _, _, hSize, hRest⟩
      have hLe := hRest.le
      omega

/-
  The same headers make the same blocks, from the first one
  on.
-/
theorem Chained.eq_of_headers
    {start stop : Nat}
    {blocks others : List ChainBlock}
    (h : m.Chained start blocks stop)
    (h' : n.Chained start others stop)
    (hEqual : ∀ block ∈ blocks, block.footer = block.header)
    (hEqual' : ∀ block ∈ others, block.footer = block.header)
    (hHeaders : ∀ block ∈ blocks,
      n.header block.offset = m.header block.offset) :
    others = blocks := by
  induction blocks generalizing start others with
  | nil =>
      cases h
      exact h'.eq_nil
  | cons block blocks ih =>
      cases others with
      | nil =>
          cases h'
          exact h.eq_nil.symm
      | cons other others =>
          rcases h with ⟨hOffset, hHeader, _, _, hRest⟩
          rcases h' with ⟨hOffset', hHeader', _, _, hRest'⟩
          have hSame := hHeaders block List.mem_cons_self
          rw [hOffset, hHeader, hHeader'] at hSame
          have hTag := Except.ok.inj hSame
          rw [hTag] at hRest'
          have hTail := ih hRest hRest'
            (fun x hx => hEqual x (List.mem_cons_of_mem _ hx))
            (fun x hx => hEqual' x (List.mem_cons_of_mem _ hx))
            (fun x hx => hHeaders x (List.mem_cons_of_mem _ hx))
          have hFooter := hEqual block List.mem_cons_self
          have hFooter' := hEqual' other List.mem_cons_self
          rcases block with ⟨offset, header, footer⟩
          rcases other with ⟨offset', header', footer'⟩
          cases hOffset
          cases hOffset'
          cases hTag
          cases hFooter
          cases hFooter'
          rw [hTail]

/- A stretch that ends with a block stops where that ends. -/
theorem Chained.concat
    {start stop : Nat}
    {front : List ChainBlock}
    {last : ChainBlock}
    (h : m.Chained start (front ++ [last]) stop) :
    m.Chained start front last.offset ∧
      last.offset + last.header.size = stop := by
  rw [chained_append_iff] at h
  rcases h with ⟨middle, hFront, hOffset, _, _, _, hStop⟩
  subst hOffset
  exact ⟨hFront, hStop⟩

/-
  The same footers make the same blocks, from the last one
  back.
-/
theorem Chained.eq_of_footers
    {start stop : Nat}
    {blocks others : List ChainBlock}
    (h : m.Chained start blocks stop)
    (h' : n.Chained start others stop)
    (hEqual : ∀ block ∈ blocks, block.footer = block.header)
    (hEqual' : ∀ block ∈ others, block.footer = block.header)
    (hFooters : ∀ block ∈ blocks,
      n.previousFooter (block.offset + block.header.size) =
        m.previousFooter (block.offset + block.header.size)) :
    others = blocks := by
  induction blocks using List.reverseRecOn
    generalizing stop others with
  | nil =>
      cases h
      exact h'.eq_nil
  | append_singleton front last ih =>
      rcases List.eq_nil_or_concat others with
        rfl | ⟨front', last', hOthers⟩
      · cases h'
        exact h.eq_nil.symm
      · have hLast : last ∈ front ++ [last] := by simp
        have hLast' : last' ∈ others := by simp [hOthers]
        have hFound := h.previousFooter_eq hLast
        have hFound' := h'.previousFooter_eq hLast'
        rw [List.concat_eq_append] at hOthers
        subst hOthers
        rcases h.concat with ⟨hFront, hStop⟩
        rcases h'.concat with ⟨hFront', hStop'⟩
        have hSame := hFooters last hLast
        rw [hFound, hStop, ← hStop', hFound',
          hEqual last hLast, hEqual' last' hLast'] at hSame
        have hTag := Except.ok.inj hSame
        have hOffset : last'.offset = last.offset := by
          rw [hTag] at hStop'
          omega
        rw [hOffset] at hFront'
        have hRest := ih hFront hFront'
          (fun x hx => hEqual x (List.mem_append_left _ hx))
          (fun x hx => hEqual' x (List.mem_append_left _ hx))
          (fun x hx => hFooters x (List.mem_append_left _ hx))
        have hFooter := hEqual last hLast
        have hFooter' := hEqual' last' hLast'
        rcases last with ⟨offset, header, footer⟩
        rcases last' with ⟨offset', header', footer'⟩
        cases hOffset
        cases hTag
        cases hFooter
        cases hFooter'
        rw [hRest]

------------------------------------------------------------
-- Rings
------------------------------------------------------------

/- Each node of a sequence but the last has one behind it. -/
theorem Links.exists_next
    {x last : Nat}
    {nodes : List Nat}
    (h : m.Links (nodes ++ [last]))
    (hx : x ∈ nodes) :
    ∃ y ∈ nodes ++ [last],
      m.nextLink x = .ok y ∧ m.previousLink y = .ok x := by
  induction nodes with
  | nil => cases hx
  | cons node nodes ih =>
      rcases List.mem_cons.1 hx with rfl | hx
      · cases nodes with
        | nil => exact ⟨last, by simp, h.1, h.2.1⟩
        | cons next rest => exact ⟨next, by simp, h.1, h.2.1⟩
      · rcases ih (Links.behind h) hx with ⟨y, hy, hLinked⟩
        exact ⟨y, List.mem_cons_of_mem node hy, hLinked⟩

/- Each node of a sequence but the first has one in front. -/
theorem Links.exists_previous
    {first y : Nat}
    {nodes : List Nat}
    (h : m.Links (first :: nodes))
    (hy : y ∈ nodes) :
    ∃ x ∈ first :: nodes,
      m.nextLink x = .ok y ∧ m.previousLink y = .ok x := by
  induction nodes generalizing first with
  | nil => cases hy
  | cons node nodes ih =>
      rcases List.mem_cons.1 hy with rfl | hy
      · exact ⟨first, List.mem_cons_self, h.1, h.2.1⟩
      · rcases ih h.2.2 hy with ⟨x, hx, hLinked⟩
        exact ⟨x, List.mem_cons_of_mem first hx, hLinked⟩

/- A ring goes on from each of its nodes. -/
theorem Ring.exists_next
    {sentinel x : Nat}
    {nodes : List Nat}
    (h : m.Ring sentinel nodes)
    (hx : x ∈ sentinel :: nodes) :
    ∃ y ∈ sentinel :: nodes,
      m.nextLink x = .ok y ∧ m.previousLink y = .ok x := by
  have hLinks : m.Links (sentinel :: nodes ++ [sentinel]) := h
  rcases hLinks.exists_next hx with ⟨y, hy, hLinked⟩
  refine ⟨y, ?_, hLinked⟩
  rw [List.mem_append, List.mem_singleton] at hy
  exact hy.elim id (fun hEq => hEq ▸ List.mem_cons_self)

/- A ring leads to each of its nodes. -/
theorem Ring.exists_previous
    {sentinel y : Nat}
    {nodes : List Nat}
    (h : m.Ring sentinel nodes)
    (hy : y ∈ sentinel :: nodes) :
    ∃ x ∈ sentinel :: nodes,
      m.nextLink x = .ok y ∧ m.previousLink y = .ok x := by
  have hAll : ∀ z, z ∈ sentinel :: nodes ↔
      z ∈ nodes ++ [sentinel] := by
    intro z
    rw [List.mem_cons, List.mem_append, List.mem_singleton,
      or_comm]
  rcases Links.exists_previous h ((hAll y).1 hy) with
    ⟨x, hx, hLinked⟩
  refine ⟨x, ?_, hLinked⟩
  rcases List.mem_cons.1 hx with rfl | hx
  · exact List.mem_cons_self
  · exact (hAll x).2 hx

/-
  In rings of the same nodes a forward link is told by the
  back links.
-/
theorem Ring.nextLink_eq
    {sentinel x : Nat}
    {nodes others : List Nat}
    (h : m.Ring sentinel nodes)
    (h' : n.Ring sentinel others)
    (hNodes : ∀ y, y ∈ others ↔ y ∈ nodes)
    (hPrevious : ∀ y ∈ sentinel :: nodes,
      n.previousLink y = m.previousLink y)
    (hx : x ∈ sentinel :: nodes) :
    n.nextLink x = m.nextLink x := by
  rcases h.exists_next hx with ⟨y, hy, hNext, hBack⟩
  have hy' : y ∈ sentinel :: others := by
    rw [List.mem_cons, hNodes y]
    exact List.mem_cons.1 hy
  rcases h'.exists_previous hy' with ⟨x', _, hNext', hBack'⟩
  rw [hPrevious y hy, hBack] at hBack'
  cases hBack'
  rw [hNext, hNext']

/- Likewise a back link is told by the forward links. -/
theorem Ring.previousLink_eq
    {sentinel y : Nat}
    {nodes others : List Nat}
    (h : m.Ring sentinel nodes)
    (h' : n.Ring sentinel others)
    (hNodes : ∀ x, x ∈ others ↔ x ∈ nodes)
    (hNext : ∀ x ∈ sentinel :: nodes,
      n.nextLink x = m.nextLink x)
    (hy : y ∈ sentinel :: nodes) :
    n.previousLink y = m.previousLink y := by
  rcases h.exists_previous hy with ⟨x, hx, hAhead, hBack⟩
  have hx' : x ∈ sentinel :: others := by
    rw [List.mem_cons, hNodes x]
    exact List.mem_cons.1 hx
  rcases h'.exists_next hx' with ⟨y', _, hAhead', hBack'⟩
  rw [hNext x hx, hAhead] at hAhead'
  cases hAhead'
  rw [hBack, hBack']

end Memory

------------------------------------------------------------
-- Heaps with Views
------------------------------------------------------------

namespace HeapView

variable {view other : HeapView}
variable {table : SentinelTable}
variable {m n : Memory}
variable {offset : Nat}

/- The header of a block does not overlap any footer. -/
theorem Describes.tags_apart
    {x y : ChainBlock}
    (h : view.Describes table m)
    (hx : x ∈ table.prologueBlock :: view.blocks)
    (hy : y ∈ table.prologueBlock :: view.blocks) :
    doubleWord ≤ x.offset ∧
      (x.offset + doubleWord ≤ y.offset + y.header.size ∨
        y.offset + y.header.size ≤ x.offset) := by
  have hSizes := layout_sizes
  have hAt := table.prologue_eq
  have hTiles := h.outlines.chained_prologue.tiles
  have hBounds := hTiles.bounds hx
  have hSize : doubleWord ≤ y.header.size := by
    rcases List.mem_cons.1 hy with rfl | hy
    · exact Nat.le_refl doubleWord
    · exact (h.bounds hy).2.1
  rcases hTiles.apart hx hy with rfl | hApart
  · omega
  · omega

/-
  Two heaps with views that differ in one tag word at most
  have the same tag there.
-/
theorem Describes.loadTag_eq
    (h : view.Describes table m)
    (h' : other.Describes table n)
    (hElse : m.DiffersAt n offset)
    (hWord : TagWord m.size
      (table.prologueBlock :: view.blocks) offset) :
    n.loadTag offset = m.loadTag offset := by
  have hSizes := layout_sizes
  have hChained := h.outlines.chained_prologue
  have hChained' := h'.outlines.chained_prologue
  rw [hElse.1] at hChained'
  have hEqual : ∀ block ∈ table.prologueBlock :: view.blocks,
      block.footer = block.header :=
    List.forall_mem_cons.2 ⟨rfl, h.footer_eq⟩
  have hEqual' : ∀ block ∈ table.prologueBlock :: other.blocks,
      block.footer = block.header :=
    List.forall_mem_cons.2 ⟨rfl, h'.footer_eq⟩
  cases hWord with
  | header block listed =>
      -- All footers are the same, so the blocks are.
      have hBlocks := hChained.eq_of_footers hChained' hEqual
        hEqual' (by
          intro x hx
          apply Memory.previousFooter_congr
          apply hElse.2
          have hApart := h.tags_apart listed hx
          omega)
      rw [← hBlocks] at listed
      have hHeader := (hChained'.header_eq listed).1
      rw [hBlocks] at listed
      have hHeader' := (hChained.header_eq listed).1
      exact (Memory.header_eq_ok_iff.1 hHeader).2.trans
        (Memory.header_eq_ok_iff.1 hHeader').2.symm
  | footer block listed =>
      -- All headers are the same, so the blocks are.
      have hBlocks := hChained.eq_of_headers hChained' hEqual
        hEqual' (by
          intro x hx
          apply Memory.header_congr
          apply hElse.2
          have hApart := h.tags_apart hx listed
          omega)
      rw [← hBlocks] at listed
      have hFooter := hChained'.previousFooter_eq listed
      rw [hBlocks] at listed
      have hFooter' := hChained.previousFooter_eq listed
      exact (Memory.previousFooter_eq_ok_iff.1 hFooter).2.trans
        (Memory.previousFooter_eq_ok_iff.1 hFooter').2.symm
  | epilogue =>
      have hLast := h'.epilogue
      rw [hElse.1] at hLast
      exact (Memory.header_eq_ok_iff.1 hLast).2.trans
        (Memory.header_eq_ok_iff.1 h.epilogue).2.symm

/- Each node with links stands in the ring of some class. -/
theorem Describes.exists_ring
    {node : Nat}
    (h : view.Describes table m)
    (hNode : table.LinkNode view.blocks node) :
    ∃ c, c < SizeClass.count ∧
      node ∈ table.sentinel c :: view.lists c := by
  cases hNode with
  | sentinel c lt => exact ⟨c, lt, List.mem_cons_self⟩
  | block block listed free =>
      have hClass := SizeClass.classify_lt block.header.size
      refine ⟨_, hClass, List.mem_cons_of_mem _ ?_⟩
      rw [h.mem_list_iff _ hClass]
      exact ⟨block, mem_freeBlocks_iff.2 ⟨listed, free⟩, rfl,
        rfl⟩

/- The nodes of all rings have links. -/
theorem Describes.linkNode_of_mem
    {c node : Nat}
    (h : view.Describes table m)
    (hc : c < SizeClass.count)
    (hNode : node ∈ table.sentinel c :: view.lists c) :
    table.LinkNode view.blocks node := by
  rcases List.mem_cons.1 hNode with rfl | hNode
  · exact .sentinel c hc
  · rcases h.exists_block hc hNode with
      ⟨block, hBlock, hFree, rfl, _⟩
    exact .block block hBlock hFree

/- Nodes with links are the same or do not overlap. -/
theorem Describes.linkNodes_apart
    {x y : Nat}
    (h : view.Describes table m)
    (hRoomy : view.Roomy)
    (hx : table.LinkNode view.blocks x)
    (hy : table.LinkNode view.blocks y) :
    x = y ∨ Apart x y := by
  have hSizes := layout_sizes
  have hFirst := table.firstBlock_eq
  unfold Apart
  cases hx with
  | sentinel c hc =>
      have hInside := table.sentinel_inside hc
      cases hy with
      | sentinel d hd =>
          by_cases hEq : c = d
          · exact Or.inl (by rw [hEq])
          · exact Or.inr (table.sentinel_apart hEq)
      | block block hBlock _ =>
          have hBounds := h.bounds hBlock
          omega
  | block block hBlock _ =>
      have hBounds := h.bounds hBlock
      cases hy with
      | sentinel d hd =>
          have hInside := table.sentinel_inside hd
          omega
      | block block' hBlock' _ =>
          rcases h.chained.tiles.apart hBlock hBlock' with
            rfl | hApart
          · exact Or.inl rfl
          · have hRoom := hRoomy block hBlock
            have hRoom' := hRoomy block' hBlock'
            omega

/- The links of a node do not overlap any header. -/
theorem Describes.header_apart
    {node : Nat}
    {block : ChainBlock}
    (h : view.Describes table m)
    (hRoomy : view.Roomy)
    (hNode : table.LinkNode view.blocks node)
    (hBlock : block ∈ view.blocks) :
    block.offset ≤ node ∨
      node + doubleWord ≤ block.offset - wordSize := by
  have hSizes := layout_sizes
  have hFirst := table.firstBlock_eq
  have hBounds := h.bounds hBlock
  cases hNode with
  | sentinel c hc =>
      have hInside := table.sentinel_inside hc
      omega
  | block free hFree _ =>
      have hRoom := hRoomy free hFree
      rcases h.chained.tiles.apart hFree hBlock with
        rfl | hApart
      · exact Or.inl (Nat.le_refl _)
      · omega

/-
  Two heaps with views that differ in the links of one node
  at most have the same nodes in all their lists.
-/
theorem Describes.mem_lists_iff
    {node : Nat}
    (h : view.Describes table m)
    (h' : other.Describes table n)
    (hRoomy : view.Roomy)
    (hNode : table.LinkNode view.blocks node)
    (hSize : n.size = m.size)
    (hElse : ∀ x, x + wordSize ≤ node ∨ node + doubleWord ≤ x →
      n.loadWord x = m.loadWord x)
    {c : Nat}
    (hc : c < SizeClass.count)
    (x : Nat) :
    x ∈ other.lists c ↔ x ∈ view.lists c := by
  have hSizes := layout_sizes
  have hFirst := table.firstBlock_eq
  have hChained := h'.chained
  rw [hSize] at hChained
  have hBlocks := h.chained.eq_of_headers hChained h.footer_eq
    h'.footer_eq (by
      intro block hBlock
      have hBounds := h.bounds hBlock
      have hApart := h.header_apart hRoomy hNode hBlock
      apply Memory.header_congr
      apply hElse
      omega)
  have hFree : other.freeBlocks = view.freeBlocks := by
    unfold freeBlocks
    rw [hBlocks]
  rw [h'.mem_list_iff c hc x, h.mem_list_iff c hc x, hFree]

/-
  Two heaps with views that differ in one link word at most
  have the same link there.
-/
theorem Describes.loadWord_eq
    (h : view.Describes table m)
    (h' : other.Describes table n)
    (hRoomy : view.Roomy)
    (hElse : m.DiffersAt n offset)
    (hWord : table.LinkWord view.blocks offset) :
    n.loadWord offset = m.loadWord offset := by
  have hSizes := layout_sizes
  cases hWord with
  | next node linked =>
      rcases h.exists_ring linked with ⟨c, hc, hNode⟩
      have hNodes := h.mem_lists_iff h' hRoomy linked hElse.1
        (fun x hx => hElse.2 x (by omega)) hc
      apply (h.ring c hc).nextLink_eq (h'.ring c hc) hNodes
        _ hNode
      intro y hy
      have hApart := h.linkNodes_apart hRoomy linked
        (h.linkNode_of_mem hc hy)
      unfold Apart at hApart
      exact Memory.previousLink_congr
        (hElse.2 _ (by omega))
  | previous node linked =>
      rcases h.exists_ring linked with ⟨c, hc, hNode⟩
      have hNodes := h.mem_lists_iff h' hRoomy linked hElse.1
        (fun x hx => hElse.2 x (by omega)) hc
      have hSame := (h.ring c hc).previousLink_eq (h'.ring c hc)
        hNodes (by
          intro x hx
          have hApart := h.linkNodes_apart hRoomy linked
            (h.linkNode_of_mem hc hx)
          unfold Apart at hApart
          exact hElse.2 _ (by omega))
        hNode
      rcases (h.ring c hc).exists_previous hNode with
        ⟨x, _, _, hBack⟩
      rw [hBack] at hSame
      rw [Memory.previousLink_eq_ok_iff] at hBack hSame
      rw [hBack.2, hSame.2]

/- Each word that holds a tag lies in memory. -/
theorem Describes.exists_loadTag
    (h : view.Describes table m)
    (hWord : TagWord m.size
      (table.prologueBlock :: view.blocks) offset) :
    ∃ tag, m.loadTag offset = .ok tag := by
  have hChained := h.outlines.chained_prologue
  cases hWord with
  | header block listed =>
      have hHeader := (hChained.header_eq listed).1
      exact ⟨_, (Memory.header_eq_ok_iff.1 hHeader).2⟩
  | footer block listed =>
      have hFooter := hChained.previousFooter_eq listed
      exact ⟨_, (Memory.previousFooter_eq_ok_iff.1 hFooter).2⟩
  | epilogue =>
      exact ⟨_, (Memory.header_eq_ok_iff.1 h.epilogue).2⟩

/- Each word that holds a link lies in memory. -/
theorem Describes.exists_loadWord
    (h : view.Describes table m)
    (hWord : table.LinkWord view.blocks offset) :
    ∃ value, m.loadWord offset = .ok value := by
  cases hWord with
  | next node linked =>
      rcases h.exists_ring linked with ⟨c, hc, hNode⟩
      rcases (h.ring c hc).exists_next hNode with
        ⟨y, _, hNext, _⟩
      exact ⟨y, hNext⟩
  | previous node linked =>
      rcases h.exists_ring linked with ⟨c, hc, hNode⟩
      rcases (h.ring c hc).exists_previous hNode with
        ⟨x, _, _, hBack⟩
      exact ⟨x, (Memory.previousLink_eq_ok_iff.1 hBack).2⟩

end HeapView

------------------------------------------------------------
-- Corruption
------------------------------------------------------------

/-
  Another value for a word of the heap's own: for a tag one
  that reads as another tag, for a link any other one.
-/
inductive Memory.Corrupts
    (m : Memory)
    (table : SentinelTable)
    (blocks : List ChainBlock)
    (offset value : Nat) : Prop where
  | tag
      (word : TagWord m.size blocks offset)
      (other : m.loadTag offset ≠ .ok (Tag.unpack value))
  | link
      (word : table.LinkWord blocks offset)
      (other : m.loadWord offset ≠ .ok value)

namespace HeapView

variable {view other : HeapView}
variable {table : SentinelTable}
variable {m n : Memory}
variable {offset value : Nat}

/- The prologue has no links. -/
theorem linkWord_of_prologue
    (hWord : table.LinkWord
      (table.prologueBlock :: view.blocks) offset) :
    table.LinkWord view.blocks offset := by
  have hNode : ∀ node,
      table.LinkNode (table.prologueBlock :: view.blocks) node →
        table.LinkNode view.blocks node := by
    intro node hNode
    cases hNode with
    | sentinel c hc => exact .sentinel c hc
    | block block listed free =>
        rcases List.mem_cons.1 listed with rfl | listed
        · cases free
        · exact .block block listed free
  cases hWord with
  | next _ linked => exact .next _ (hNode _ linked)
  | previous _ linked => exact .previous _ (hNode _ linked)

/- A corrupted word lies in memory. -/
theorem Describes.exists_storeWord
    (h : view.Describes table m)
    (hCorrupts : m.Corrupts table
      (table.prologueBlock :: view.blocks) offset value) :
    ∃ n, m.storeWord offset value = .ok n := by
  have hLoad : ∃ word, m.loadWord offset = .ok word := by
    cases hCorrupts with
    | tag word _ =>
        rcases h.exists_loadTag word with ⟨tag, hTag⟩
        rcases Memory.loadTag_eq_ok_iff.1 hTag with
          ⟨found, hFound, _⟩
        exact ⟨found, hFound⟩
    | link word _ =>
        exact h.exists_loadWord (linkWord_of_prologue word)
  rcases hLoad with ⟨word, hWord⟩
  rw [Memory.loadWord_eq_ok_iff] at hWord
  exact m.exists_storeWord offset value hWord.1

/- A heap with a corrupted word has no view. -/
theorem Describes.not_describes_of_corrupts
    (h : view.Describes table m)
    (hRoomy : view.Roomy)
    (hValue : value < Word.limit)
    (hCorrupts : m.Corrupts table
      (table.prologueBlock :: view.blocks) offset value)
    (hStore : m.storeWord offset value = .ok n) :
    ¬ other.Describes table n := by
  intro h'
  have hElse := Memory.differsAt_of_storeWord hStore
  have hLoad := Memory.loadWord_storeWord_self hValue hStore
  cases hCorrupts with
  | tag word differs =>
      apply differs
      rw [← h.loadTag_eq h' hElse word,
        Memory.loadTag_eq_ok_iff]
      exact ⟨value, hLoad, rfl⟩
  | link word differs =>
      apply differs
      rw [← h.loadWord_eq h' hRoomy hElse
        (linkWord_of_prologue word)]
      exact hLoad

end HeapView

end SegregatedFit
