import Mathlib.Algebra.GroupWithZero.Nat
import SegregatedFit.Block.Chain
import SegregatedFit.Proofs.Memory.Agreement

/-
  Blocks that tile a stretch of memory.

  `Tiles` states, without looking at any byte, that blocks
  follow each other from one offset to another, and
  `Memory.Tagged` that both tags of a block stand in memory.
  A chain is a tiling of tagged blocks:
  `Memory.chained_iff_tiles`.

  Key definitions include:
    * `ChainBlock.ofTag`
    * `Tiles`, `extent`
    * `Memory.Tagged`

  Key theorems include:
    * `tiles_append_iff`
    * `Tiles.bounds`, `Tiles.apart`
    * `Memory.chained_iff_tiles`
    * `Memory.Tagged.of_agrees`
    * `Memory.Chained.length_le`
-/

namespace SegregatedFit

/- A block with the same tag at both ends. -/
def ChainBlock.ofTag
    (offset : Nat)
    (tag : Tag) : ChainBlock where
  offset := offset
  header := tag
  footer := tag

/- A block whose tags are equal is given by one of them. -/
theorem ChainBlock.eq_ofTag
    {block : ChainBlock}
    (h : block.footer = block.header) :
    block = .ofTag block.offset block.header := by
  rcases block with ⟨offset, header, footer⟩
  cases h
  rfl

------------------------------------------------------------
-- Tilings
------------------------------------------------------------

/- The blocks follow each other from `start` to `stop`. -/
def Tiles :
    Nat → List ChainBlock → Nat → Prop
| start, [], stop => start = stop
| start, block :: blocks, stop =>
    block.offset = start ∧
      Tiles (start + block.header.size) blocks stop

/- The number of bytes that blocks take together. -/
def extent
    (blocks : List ChainBlock) : Nat :=
  (blocks.map (fun block => block.header.size)).sum

/- A tiling ends where the sizes of its blocks lead. -/
theorem Tiles.stop_eq
    {start stop : Nat}
    {blocks : List ChainBlock}
    (h : Tiles start blocks stop) :
    stop = start + extent blocks := by
  induction blocks generalizing start with
  | nil =>
      cases h
      rfl
  | cons block blocks ih =>
      have hRest := ih h.2
      unfold extent at hRest ⊢
      rw [List.map_cons, List.sum_cons]
      omega

/- Two tilings that meet are one. -/
theorem tiles_append_iff
    {start stop : Nat}
    {front back : List ChainBlock} :
    Tiles start (front ++ back) stop ↔
      ∃ middle, Tiles start front middle ∧
        Tiles middle back stop := by
  induction front generalizing start with
  | nil =>
      constructor
      · intro h
        exact ⟨start, rfl, h⟩
      · intro h
        rcases h with ⟨middle, hFront, hBack⟩
        cases hFront
        exact hBack
  | cons block blocks ih =>
      rw [List.cons_append]
      constructor
      · intro h
        rcases ih.1 h.2 with ⟨middle, hFront, hBack⟩
        exact ⟨middle, ⟨h.1, hFront⟩, hBack⟩
      · intro h
        rcases h with ⟨middle, hFront, hBack⟩
        exact ⟨hFront.1, ih.2 ⟨middle, hFront.2, hBack⟩⟩

/- A block of a tiling cuts it in two. -/
theorem tiles_cut_iff
    {start stop : Nat}
    {block : ChainBlock}
    {front back : List ChainBlock} :
    Tiles start (front ++ block :: back) stop ↔
      Tiles start front block.offset ∧
        Tiles (block.offset + block.header.size) back stop := by
  rw [tiles_append_iff]
  constructor
  · intro h
    rcases h with ⟨middle, hFront, hOffset, hBack⟩
    subst hOffset
    exact ⟨hFront, hBack⟩
  · intro h
    exact ⟨block.offset, h.1, rfl, h.2⟩

/- Blocks of a tiling lie between its ends. -/
theorem Tiles.bounds
    {start stop : Nat}
    {block : ChainBlock}
    {blocks : List ChainBlock}
    (h : Tiles start blocks stop)
    (hMem : block ∈ blocks) :
    start ≤ block.offset ∧
      block.offset + block.header.size ≤ stop := by
  rcases List.append_of_mem hMem with ⟨front, back, rfl⟩
  rw [tiles_cut_iff] at h
  have hFront := h.1.stop_eq
  have hBack := h.2.stop_eq
  omega

/- Blocks of a tiling stand in the order of their offsets. -/
theorem Tiles.ordered
    {start stop : Nat}
    {blocks : List ChainBlock}
    (h : Tiles start blocks stop) :
    blocks.Pairwise (fun x y =>
      x.offset + x.header.size ≤ y.offset) := by
  induction blocks generalizing start with
  | nil => exact List.Pairwise.nil
  | cons block blocks ih =>
      rw [List.pairwise_cons]
      refine ⟨?_, ih h.2⟩
      intro other hOther
      have hBounds := h.2.bounds hOther
      have hOffset := h.1
      omega

/- Two blocks of a tiling are the same or do not overlap. -/
theorem Tiles.apart
    {start stop : Nat}
    {blocks : List ChainBlock}
    {x y : ChainBlock}
    (h : Tiles start blocks stop)
    (hx : x ∈ blocks)
    (hy : y ∈ blocks) :
    x = y ∨ x.offset + x.header.size ≤ y.offset ∨
      y.offset + y.header.size ≤ x.offset := by
  rcases List.append_of_mem hx with ⟨front, back, rfl⟩
  have hOrdered := h.ordered
  rw [List.pairwise_append, List.pairwise_cons] at hOrdered
  rcases List.mem_append.1 hy with hy | hy
  · exact Or.inr (Or.inr
      (hOrdered.2.2 y hy x List.mem_cons_self))
  · rcases List.mem_cons.1 hy with hy | hy
    · exact Or.inl hy.symm
    · exact Or.inr (Or.inl (hOrdered.2.1.1 y hy))

/- Blocks with room for something are known by their offset. -/
theorem Tiles.eq_of_offset_eq
    {start stop : Nat}
    {blocks : List ChainBlock}
    {x y : ChainBlock}
    (h : Tiles start blocks stop)
    (hx : x ∈ blocks)
    (hy : y ∈ blocks)
    (hxSize : 0 < x.header.size)
    (hySize : 0 < y.header.size)
    (hOffset : x.offset = y.offset) :
    x = y := by
  rcases h.apart hx hy with hEq | hApart
  · exact hEq
  · omega

------------------------------------------------------------
-- Tagged Blocks
------------------------------------------------------------

namespace Memory

variable {m n : Memory}

/- Both tags of a block stand in memory and are equal. -/
structure Tagged
    (m : Memory)
    (block : ChainBlock) : Prop where
  header_eq : m.header block.offset = .ok block.header
  footer_eq : m.footer block.offset = .ok block.header
  equal : block.footer = block.header

/- A chain with equal tags is a tiling of tagged blocks. -/
theorem chained_iff_tiles
    {start stop : Nat}
    {blocks : List ChainBlock}
    (hRoom : ∀ block ∈ blocks, 0 < block.header.size) :
    (m.Chained start blocks stop ∧
        ∀ block ∈ blocks, block.footer = block.header) ↔
      Tiles start blocks stop ∧
        ∀ block ∈ blocks, m.Tagged block := by
  induction blocks generalizing start with
  | nil => simp [Chained, Tiles]
  | cons block blocks ih =>
      have hTail := @ih (start + block.header.size)
        (fun other hOther =>
          hRoom other (List.mem_cons_of_mem block hOther))
      have hSize := hRoom block List.mem_cons_self
      constructor
      · intro h
        rcases h with
          ⟨⟨hOffset, hHeader, hFooter, _, hRest⟩, hEqual⟩
        have hEq := hEqual block List.mem_cons_self
        rcases hTail.1 ⟨hRest, fun other hOther =>
            hEqual other (List.mem_cons_of_mem block hOther)⟩
          with ⟨hTiles, hTagged⟩
        refine ⟨⟨hOffset, hTiles⟩, ?_⟩
        intro other hOther
        rcases List.mem_cons.1 hOther with hOther | hOther
        · subst hOther
          subst hOffset
          exact ⟨hHeader, hEq ▸ hFooter, hEq⟩
        · exact hTagged other hOther
      · intro h
        rcases h with ⟨⟨hOffset, hTiles⟩, hTagged⟩
        have hBlock := hTagged block List.mem_cons_self
        rcases hTail.2 ⟨hTiles, fun other hOther =>
            hTagged other (List.mem_cons_of_mem block hOther)⟩
          with ⟨hRest, hEqual⟩
        refine ⟨⟨hOffset, ?_, ?_, by omega, hRest⟩, ?_⟩
        · exact hOffset ▸ hBlock.header_eq
        · rw [hBlock.equal, ← hOffset]
          exact hBlock.footer_eq
        · intro other hOther
          rcases List.mem_cons.1 hOther with hOther | hOther
          · exact hOther ▸ hBlock.equal
          · exact hEqual other hOther

/- A tagged block is tagged wherever its tags are the same. -/
theorem Tagged.of_agrees
    {block : ChainBlock}
    (h : m.Tagged block)
    (hSize : m.size ≤ n.size)
    (hFront : m.Agrees n (block.offset - wordSize) block.offset)
    (hBack : m.Agrees n
      (block.offset + block.header.size - doubleWord)
      (block.offset + block.header.size - wordSize)) :
    n.Tagged block :=
  ⟨header_of_agrees hSize hFront h.header_eq,
    footer_of_agrees hSize h.header_eq hFront hBack h.footer_eq,
    h.equal⟩

/- The tags of a tagged block lie in memory. -/
theorem Tagged.inside
    {block : ChainBlock}
    (h : m.Tagged block) :
    wordSize ≤ block.offset ∧
      block.offset ≤ m.size ∧
      doubleWord ≤ block.offset + block.header.size ∧
      block.offset + block.header.size ≤ m.size + wordSize ∧
      block.offset + block.header.size < Word.limit := by
  have hSizes := Word.sizes_eq
  have hHeader := h.header_eq
  have hFooter := h.footer_eq
  rw [header_eq_ok_iff, loadTag_eq_ok_iff] at hHeader
  rcases hHeader with ⟨hFront, word, hWord, _⟩
  rw [loadWord_eq_ok_iff] at hWord
  rw [footer_eq_ok_iff] at hFooter
  rcases hFooter with ⟨tag, hTag, hLt, hPrevious⟩
  rw [h.header_eq] at hTag
  cases hTag
  rw [previousFooter_eq_ok_iff, loadTag_eq_ok_iff] at hPrevious
  rcases hPrevious with ⟨hBack, word', hWord', _⟩
  rw [loadWord_eq_ok_iff] at hWord'
  omega

/- A block that is wholly the same is tagged as before. -/
theorem Tagged.of_agrees_whole
    {block : ChainBlock}
    (h : m.Tagged block)
    (hSize : m.size ≤ n.size)
    (hRoom : doubleWord ≤ block.header.size)
    (hWhole : m.Agrees n (block.offset - wordSize)
      (block.offset + block.header.size - wordSize)) :
    n.Tagged block := by
  have hSizes := Word.sizes_eq
  apply h.of_agrees hSize
  · exact hWhole.mono (Nat.le_refl _) (by omega)
  · exact hWhole.mono (by omega) (Nat.le_refl _)

/- Sizes of tagged blocks are multiples of the double word. -/
theorem Tagged.size_mod
    {block : ChainBlock}
    (h : m.Tagged block) :
    block.header.size % doubleWord = 0 := by
  have hHeader := h.header_eq
  rw [header_eq_ok_iff, loadTag_eq_ok_iff] at hHeader
  rcases hHeader with ⟨_, word, _, hUnpack⟩
  rw [← hUnpack]
  exact Tag.size_unpack_mod word

/- The footer of a tagged block is met from the block behind. -/
theorem Tagged.previousFooter_eq
    {block : ChainBlock}
    (h : m.Tagged block) :
    m.previousFooter (block.offset + block.header.size) =
      .ok block.header := by
  have hFooter := h.footer_eq
  rw [footer_eq_ok_iff] at hFooter
  rcases hFooter with ⟨tag, hTag, _, hPrevious⟩
  rw [h.header_eq] at hTag
  cases hTag
  exact hPrevious

/- The block behind a tagged block starts where it ends. -/
theorem Tagged.nextBlock_eq
    {block : ChainBlock}
    (h : m.Tagged block) :
    m.nextBlock block.offset =
      .ok (block.offset + block.header.size) := by
  unfold nextBlock
  rw [Fault.bind_of_ok h.header_eq]
  exact Word.add_of_lt h.inside.2.2.2.2

/- Writing equal tags makes a tagged block. -/
theorem tagged_of_writeTags
    {offset : Nat}
    {tag : Tag}
    (hSize : tag.size % doubleWord = 0)
    (h : m.writeTags offset tag = .ok n) :
    n.Tagged (ChainBlock.ofTag offset tag) :=
  ⟨header_of_writeTags hSize h, footer_of_writeTags hSize h, rfl⟩

------------------------------------------------------------
-- Chains
------------------------------------------------------------

/- Sizes that are read are multiples of the double word. -/
theorem size_mod_of_header
    {bp : Nat}
    {tag : Tag}
    (h : m.header bp = .ok tag) :
    tag.size % doubleWord = 0 := by
  rw [header_eq_ok_iff, loadTag_eq_ok_iff] at h
  rcases h with ⟨_, word, _, rfl⟩
  exact Tag.size_unpack_mod word

/- Each block of a stretch takes two words at least. -/
theorem Chained.length_le
    {start stop : Nat}
    {blocks : List ChainBlock}
    (h : m.Chained start blocks stop) :
    start + blocks.length * doubleWord ≤ stop := by
  induction blocks generalizing start with
  | nil =>
      cases h
      exact Nat.le_of_eq (by simp)
  | cons block blocks ih =>
      rcases h with ⟨_, hHeader, _, hSize, hRest⟩
      have hMod := size_mod_of_header hHeader
      have hLe := ih hRest
      rw [List.length_cons]
      simp only [doubleWord] at hMod hLe ⊢
      omega

/- Blocks of a stretch lie in it, one behind the other. -/
theorem Chained.tiles
    {start stop : Nat}
    {blocks : List ChainBlock}
    (h : m.Chained start blocks stop) :
    Tiles start blocks stop := by
  induction blocks generalizing start with
  | nil => exact h
  | cons block blocks ih =>
      exact ⟨h.1, ih h.2.2.2.2⟩

/- Blocks of a stretch are whole double words apart. -/
theorem Chained.offset_mod
    {start stop : Nat}
    {blocks : List ChainBlock}
    {block : ChainBlock}
    (h : m.Chained start blocks stop)
    (hBlock : block ∈ blocks) :
    block.offset % doubleWord = start % doubleWord := by
  induction blocks generalizing start with
  | nil => cases hBlock
  | cons other blocks ih =>
      rcases h with ⟨hOffset, hHeader, _, _, hRest⟩
      have hMod := size_mod_of_header hHeader
      rcases List.mem_cons.1 hBlock with rfl | hBlock
      · rw [hOffset]
      · rw [ih hRest hBlock, Nat.add_mod, hMod, Nat.add_zero,
          Nat.mod_mod]

/- Blocks of a stretch have the headers that stand in memory. -/
theorem Chained.header_eq
    {start stop : Nat}
    {blocks : List ChainBlock}
    {block : ChainBlock}
    (h : m.Chained start blocks stop)
    (hBlock : block ∈ blocks) :
    m.header block.offset = .ok block.header ∧
      block.header.size ≠ 0 := by
  induction blocks generalizing start with
  | nil => cases hBlock
  | cons other blocks ih =>
      rcases h with ⟨hOffset, hHeader, _, hSize, hRest⟩
      rcases List.mem_cons.1 hBlock with rfl | hBlock
      · exact ⟨hOffset ▸ hHeader, hSize⟩
      · exact ih hRest hBlock

/- Blocks of a stretch have different offsets. -/
theorem Chained.nodup_offsets
    {start stop : Nat}
    {blocks : List ChainBlock}
    (h : m.Chained start blocks stop) :
    (blocks.map ChainBlock.offset).Nodup := by
  rw [List.Nodup, List.pairwise_map]
  apply h.tiles.ordered.imp_of_mem
  intro x y hx _ hOrder hEq
  have hSize := (h.header_eq hx).2
  omega

end Memory

end SegregatedFit
