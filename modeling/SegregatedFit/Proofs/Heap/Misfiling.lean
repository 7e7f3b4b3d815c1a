import SegregatedFit.Proofs.Heap.Workspace

/-
  Heaps in which one block is not filed as its tags say.

  All blocks but one stand in the list of their class if they
  are free, and in no list otherwise.  The one block stands
  in some list or in none, whatever its tags are.  Such heaps
  come about when an operation on lists or tags is done
  without the others that belong to it.

  Key definitions include:
    * `FiledAs`

  Key theorems include:
    * `OpenHeap.unfiled`
    * `OpenHeap.enlist`
    * `OpenHeap.mislabel`
-/

namespace SegregatedFit

------------------------------------------------------------
-- One Block Aside
------------------------------------------------------------

/-
  The blocks `front`, `block` and `back` fill the heap.  The
  lists lead through the free ones in front and behind, and
  through the one between them if it is found in a class.
-/
structure FiledAs
    (table : SentinelTable)
    (m : Memory)
    (front : List ChainBlock)
    (block : ChainBlock)
    (back : List ChainBlock)
    (lists : FreeLists)
    (found : Option Nat) : Prop where
  prologue :
    m.Tagged table.prologueBlock
  epilogue :
    m.header m.size = .ok Tag.epilogue
  tiles :
    Tiles table.firstBlock (front ++ block :: back) m.size
  tagged :
    ∀ other ∈ front ++ block :: back, m.Tagged other
  roomy :
    ∀ other ∈ front ++ block :: back,
      minimumBlock ≤ other.header.size
  ring :
    ∀ c, c < SizeClass.count →
      m.Ring (table.sentinel c) (lists c)
  nodup :
    ∀ c, c < SizeClass.count → (lists c).Nodup
  found_lt :
    ∀ c ∈ found, c < SizeClass.count
  mem_list_iff :
    ∀ c, c < SizeClass.count → ∀ node,
      node ∈ lists c ↔
        (∃ other ∈ front ++ back,
          other.header.allocated = false ∧
            other.offset = node ∧
            SizeClass.classify other.header.size = c) ∨
        (node = block.offset ∧ found = some c)

namespace FiledAs

variable {table : SentinelTable}
variable {m n : Memory}
variable {front back : List ChainBlock}
variable {block other : ChainBlock}
variable {lists : FreeLists}
variable {found : Option Nat}

/- Blocks in front and behind are blocks of the heap. -/
theorem mem_of_mem_others
    (block : ChainBlock)
    (hOther : other ∈ front ++ back) :
    other ∈ front ++ block :: back :=
  List.perm_middle.mem_iff.2 (List.mem_cons_of_mem block hOther)

/- Blocks of the heap are the one block or others. -/
theorem mem_cases
    (hOther : other ∈ front ++ block :: back) :
    other = block ∨ other ∈ front ++ back :=
  List.mem_cons.1 (List.perm_middle.mem_iff.1 hOther)

/- What happens within the one block leaves the others alone. -/
theorem agrees_other
    (h : FiledAs table m front block back lists found)
    (hBytes : ∀ i,
      i + wordSize < block.offset ∨
        block.offset + block.header.size ≤ i + wordSize →
      n.byte i = m.byte i)
    (hOther : other ∈ front ++ back) :
    m.Agrees n (other.offset - wordSize)
      (other.offset + other.header.size - wordSize) := by
  have hCut := tiles_cut_iff.1 h.tiles
  intro i hi hi'
  apply hBytes
  rcases List.mem_append.1 hOther with hSide | hSide
  · have hLeft := (hCut.1.bounds hSide).2
    omega
  · have hRight := (hCut.2.bounds hSide).1
    omega

end FiledAs

------------------------------------------------------------
-- Faults
------------------------------------------------------------

namespace OpenHeap

variable {table : SentinelTable}
variable {m : Memory}
variable {front back : List ChainBlock}
variable {block : ChainBlock}
variable {lists : FreeLists}

/- A block at work is found in no list. -/
theorem unfiled
    (h : OpenHeap table m front [block] back lists) :
    FiledAs table m front block back lists none := by
  refine ⟨h.prologue, h.epilogue, h.tiles, h.tagged, h.roomy,
    h.ring, h.nodup, ?_, ?_⟩
  · intro c hFound
    cases hFound
  · intro c hc node
    rw [h.mem_list_iff c hc node]
    simp

/- At rest a free block is found in the list of its class. -/
theorem filedAs_classify_iff
    (hFree : block.header.allocated = false) :
    FiledAs table m front block back lists
        (some (SizeClass.classify block.header.size)) ↔
      OpenHeap table m (front ++ block :: back) [] []
        lists := by
  have hAll : front ++ block :: back ++ ([] ++ []) =
      front ++ block :: back := by
    simp
  -- A listed node is the one block or one of the others.
  have hListed : ∀ c node,
      (∃ other ∈ front ++ block :: back ++ [],
        other.header.allocated = false ∧
          other.offset = node ∧
          SizeClass.classify other.header.size = c) ↔
        (∃ other ∈ front ++ back,
          other.header.allocated = false ∧
            other.offset = node ∧
            SizeClass.classify other.header.size = c) ∨
        (node = block.offset ∧
          some (SizeClass.classify block.header.size) =
            some c) := by
    intro c node
    rw [List.append_nil, Option.some_inj]
    constructor
    · rintro ⟨other, hOther, hState, rfl, rfl⟩
      rcases FiledAs.mem_cases hOther with rfl | hRest
      · exact Or.inr ⟨rfl, rfl⟩
      · exact Or.inl ⟨other, hRest, hState, rfl, rfl⟩
    · rintro (⟨other, hOther, hRest⟩ | ⟨rfl, rfl⟩)
      · exact ⟨other, FiledAs.mem_of_mem_others block hOther,
          hRest⟩
      · exact ⟨block, by simp, hFree, rfl, rfl⟩
  constructor
  · intro h
    refine ⟨h.prologue, h.epilogue, ?_, ?_, ?_, h.ring,
      h.nodup, ?_⟩
    · rw [hAll]
      exact h.tiles
    · rw [hAll]
      exact h.tagged
    · rw [hAll]
      exact h.roomy
    · intro c hc node
      rw [h.mem_list_iff c hc node, hListed]
  · intro h
    have hTiles := h.tiles
    have hTagged := h.tagged
    have hRoomy := h.roomy
    rw [hAll] at hTiles hTagged hRoomy
    refine ⟨h.prologue, h.epilogue, hTiles, hTagged, hRoomy,
      h.ring, h.nodup, ?_, ?_⟩
    · intro c hFound
      cases hFound
      exact SizeClass.classify_lt block.header.size
    · intro c hc node
      rw [h.mem_list_iff c hc node, hListed]

/- A free block at work can be listed in any class. -/
theorem enlist
    (h : OpenHeap table m front [block] back lists)
    (hFree : block.header.allocated = false)
    (blockSize : Nat) :
    ∃ n, table.insert m block.offset blockSize = .ok n ∧
      n.size = m.size ∧
      FiledAs table n front block back
        (FreeLists.push lists (SizeClass.classify blockSize)
          block.offset)
        (some (SizeClass.classify blockSize)) ∧
      m.KeepsPayloads n (front ++ back) := by
  have hSizes := layout_sizes
  have hFirst := table.firstBlock_eq
  have hMem : block ∈ front ++ ([block] ++ back) := mem_work
  have hBounds := h.bounds hMem
  have hNodup : (front ++ block :: back).Nodup :=
    h.nodup_blocks
  have hFresh : ∀ c, c < SizeClass.count → ∀ x ∈ lists c,
      Apart block.offset x := by
    intro c hc x hx
    rcases (h.mem_list_iff c hc x).1 hx with
      ⟨other, hOther, _, hOffset, _⟩
    have hRoom := h.roomy other (mem_blocks hOther)
    rcases h.apart hMem (mem_blocks hOther) with hEq | hApart
    · exfalso
      subst hEq
      rw [List.perm_middle.nodup_iff, List.nodup_cons] at hNodup
      exact hNodup.1 hOther
    · unfold Apart
      omega
  rcases h.holds.insert blockSize (by omega) hFresh
      (by omega) (by omega) with
    ⟨n, hInsert, hSize, hHolds, hOff⟩
  have hBytes : ∀ i,
      OffFree table (front ++ ([block] ++ back)) i →
        n.byte i = m.byte i := by
    intro i hi
    exact hOff i (hi.2 block hMem hFree)
      (h.offLinks_of_offFree hi)
  rcases h.keepsTags hSize hBytes with
    ⟨hPrologue, hEpilogue, hTagged⟩
  have hKeeps : m.KeepsPayloads n (front ++ back) := by
    apply (h.keepsPayloads hBytes).mono
    intro other hOther _
    exact mem_blocks hOther
  refine ⟨n, hInsert, hSize, ?_, hKeeps⟩
  refine ⟨hPrologue, hEpilogue, ?_, hTagged, h.roomy,
    hHolds.ring, hHolds.nodup, ?_, ?_⟩
  · rw [hSize]
    exact h.tiles
  · intro c hFound
    cases hFound
    exact SizeClass.classify_lt blockSize
  · intro c hc node
    rw [FreeLists.mem_push_iff, h.mem_list_iff c hc node,
      Option.some_inj, eq_comm, and_comm, or_comm]

/-
  A free block of a heap at rest that is marked allocated is
  still found in the list of its class.
-/
theorem mislabel
    (h : OpenHeap table m (front ++ block :: back) [] [] lists)
    (hFree : block.header.allocated = false) :
    ∃ n,
      m.writeTags block.offset {
        size := block.header.size, allocated := true } =
          .ok n ∧
      n.size = m.size ∧
      FiledAs table n front
        (.ofTag block.offset {
          size := block.header.size, allocated := true })
        back lists
        (some (SizeClass.classify block.header.size)) := by
  have hSizes := layout_sizes
  have hFirst := table.firstBlock_eq
  have hPrologue : table.prologueBlock.offset =
      table.offset + 176 := rfl
  have hPrologueSize :
      table.prologueBlock.header.size = 16 := rfl
  have hMem : block ∈ front ++ block :: back ++ ([] ++ []) := by
    simp
  have hBounds := h.bounds hMem
  have hMod := (h.tagged block hMem).size_mod
  have hFiled := (filedAs_classify_iff hFree).2 h
  rcases m.exists_writeTags block.offset
      { size := block.header.size, allocated := true }
      (by omega) (by dsimp only; omega) (by dsimp only; omega)
      (by omega) (by dsimp only; omega) with
    ⟨n, hWrite⟩
  have hSize := Memory.size_of_writeTags hWrite
  have hLe : m.size ≤ n.size := Nat.le_of_eq hSize.symm
  -- The new tags overlap neither the links nor other blocks.
  have hBytes : ∀ i,
      (i + wordSize < block.offset ∨ block.offset ≤ i) →
      (i + doubleWord < block.offset + block.header.size ∨
        block.offset + block.header.size ≤ i + wordSize) →
        n.byte i = m.byte i := by
    intro i hFront hBack
    exact Memory.byte_of_writeTags hWrite hFront hBack
  have hTable : m.Agrees n table.offset
      (table.firstBlock - wordSize) := by
    intro i hi hi'
    exact hBytes i (by omega) (by omega)
  have hOthers : ∀ other ∈ front ++ back,
      n.Tagged other ∧
        m.Agrees n other.offset (other.offset + doubleWord) ∧
        minimumBlock ≤ other.header.size := by
    intro other hOther
    have hMem' := FiledAs.mem_of_mem_others block hOther
    have hRoom := hFiled.roomy other hMem'
    have hBetween := hFiled.tiles.bounds hMem'
    have hSame := hFiled.agrees_other
      (fun i hi => hBytes i (by omega) (by omega)) hOther
    refine ⟨?_, hSame.mono (by omega) (by omega), hRoom⟩
    exact (hFiled.tagged other hMem').of_agrees_whole hLe
      (by omega) hSame
  have hNew : n.Tagged (.ofTag block.offset {
      size := block.header.size, allocated := true }) :=
    Memory.tagged_of_writeTags hMod hWrite
  refine ⟨n, hWrite, hSize, ?_⟩
  refine ⟨?_, ?_, ?_, ?_, ?_, ?_, hFiled.nodup,
    hFiled.found_lt, hFiled.mem_list_iff⟩
  · apply h.prologue.of_agrees_whole hLe (by omega)
    exact hTable.mono (by omega) (by omega)
  · rw [hSize]
    apply Memory.header_of_agrees hLe _ hFiled.epilogue
    intro i hi hi'
    exact hBytes i (by omega) (by omega)
  · have hCut := tiles_cut_iff.1 hFiled.tiles
    rw [hSize, tiles_cut_iff]
    exact hCut
  · intro other hOther
    rcases FiledAs.mem_cases hOther with rfl | hRest
    · exact hNew
    · exact (hOthers other hRest).1
  · intro other hOther
    rcases FiledAs.mem_cases hOther with rfl | hRest
    · exact hBounds.2.1
    · exact (hOthers other hRest).2.2
  · apply h.rings_of_agrees hLe hTable
    intro other hOther _
    rw [List.append_nil] at hOther
    rcases FiledAs.mem_cases hOther with rfl | hRest
    · intro i hi hi'
      exact hBytes i (by omega) (by omega)
    · exact (hOthers other hRest).2.1

end OpenHeap

end SegregatedFit
