import SegregatedFit.Proofs.Client.Runs
import SegregatedFit.Proofs.Heap.Fitting

/-
  Which block serves a request, and when none does.

  A small request is served like one for the least power of
  two that is enough.  It takes the first block that is large
  enough, over all lists from the lowest class on.  If there
  is none, the region is asked once, for what the request or
  the settings call for, whichever is more.  What it grants
  joins the last block of the heap if that is free.

  Key definitions include:
    * `Allocator.TurnsDown`

  Key theorems include:
    * `Allocator.AtRest.allocate_listed`
    * `Allocator.AtRest.allocate_joint`
    * `Allocator.AtRest.allocate_none_iff`
    * `Client.History.allocate_policy`
-/

namespace SegregatedFit

namespace Allocator

/-
  Requests that get no address: those for no bytes, those
  without a block size, and those for which no free block is
  large enough while the region does not grow.  The request
  for `size` bytes is served like one for `served` bytes.
-/
def TurnsDown
    (a : Allocator)
    (view : HeapView)
    (size served : Nat) : Prop :=
  size = 0 ∨
    Request.blockSize? served = .ok none ∨
    ∃ adjusted error,
      Request.blockSize? served = .ok (some adjusted) ∧
      (∀ block ∈ view.freeBlocks,
        block.header.size < adjusted) ∧
      (a.region.grow (max adjusted a.config.chunkSize)).1 =
        .error error

namespace AtRest

variable {a : Allocator}
variable {table : SentinelTable}
variable {view : HeapView}
variable {size served adjusted : Nat}

/-
  If a free block is large enough, the first listed one of
  them is given, and the region is left alone.
-/
theorem allocate_listed
    (h : a.AtRest table view)
    (hSize : size ≠ 0)
    (hAdjusted : Request.blockSize? (Request.rounded size) =
      .ok (some adjusted))
    (hFits : ∃ block ∈ view.freeBlocks,
      adjusted ≤ block.header.size)
    (hFew : a.allocations + 1 < Word.limit) :
    ∃ bp next,
      view.firstListed adjusted = some bp ∧
      (a.allocate size).outcome =
        .ok (some { offset := bp }, next) ∧
      a.region.SameButBytes next.region := by
  rcases Request.blockSize?_eq_some_iff.1 hAdjusted with
    ⟨hWord, hSizeFor⟩
  have hEq := h.stands.firstFit_eq_firstListed adjusted
  have hSome : view.firstListed adjusted ≠ none := by
    intro hNone
    rcases hFits with ⟨block, hBlock, hLarge⟩
    have hSmall :=
      (h.stands.firstListed_eq_none_iff adjusted).1 hNone
    exact absurd hLarge (Nat.not_le.2 (hSmall block hBlock))
  rcases Option.ne_none_iff_exists'.1 hSome with ⟨bp, hFound⟩
  rcases h.allocate_fit hSize hWord hSizeFor
      (hEq.trans hFound) hFew with
    ⟨rest, region, next, hAllocate, hSame, _⟩
  exact ⟨bp, _, hFound, congrArg Traced.outcome hAllocate,
    hSame⟩

/-
  If no free block is large enough, the region is asked once.
  What it grants is given from the joint on, and if it grants
  nothing the request is turned down.
-/
theorem allocate_joint
    (h : a.AtRest table view)
    (hSize : size ≠ 0)
    (hAdjusted : Request.blockSize? (Request.rounded size) =
      .ok (some adjusted))
    (hNone : ∀ block ∈ view.freeBlocks,
      block.header.size < adjusted)
    (hExtensions : a.extensions + 1 < Word.limit)
    (hAllocations : a.allocations + 1 < Word.limit) :
    ∃ answer granted next,
      a.region.grow (max adjusted a.config.chunkSize) =
        (answer, granted) ∧
      granted.SameButBytes next.region ∧
      (a.allocate size).outcome = .ok
        (match answer with
          | .ok _ =>
              some { offset := view.joint a.region.memory.size }
          | .error _ => none, next) := by
  rcases Request.blockSize?_eq_some_iff.1 hAdjusted with
    ⟨hWord, hSizeFor⟩
  have hMissing : view.firstFit adjusted = none := by
    rw [h.stands.firstFit_eq_firstListed adjusted]
    exact (h.stands.firstListed_eq_none_iff adjusted).2 hNone
  rcases h.allocate_grow hSize hWord hSizeFor rfl hMissing
      (h.stands.offset_grownBlock _) hExtensions hAllocations
    with hBad | hGood
  · rcases hBad with ⟨error, region, hAllocate, _, hRefused⟩
    exact ⟨_, region, { a with region := region }, hRefused,
      ⟨⟨region.memory, rfl⟩, rfl⟩,
      congrArg Traced.outcome hAllocate⟩
  · rcases hGood with
      ⟨granted, rest, region, next, hGranted, hSame, hAllocate,
        _⟩
    exact ⟨_, granted, _, hGranted, hSame,
      congrArg Traced.outcome hAllocate⟩

/- A request with a block size is only turned down for want of room. -/
theorem turnsDown_iff
    (hSize : size ≠ 0)
    (hAdjusted : Request.blockSize? served =
      .ok (some adjusted)) :
    a.TurnsDown view size served ↔
      (∀ block ∈ view.freeBlocks,
        block.header.size < adjusted) ∧
      ∃ error,
        (a.region.grow (max adjusted a.config.chunkSize)).1 =
          .error error := by
  constructor
  · rintro (hZero | hNone | ⟨found, error, hFound, hRefused⟩)
    · exact absurd hZero hSize
    · rw [hAdjusted] at hNone
      cases hNone
    · rw [hAdjusted] at hFound
      cases hFound
      exact ⟨hRefused.1, error, hRefused.2⟩
  · rintro ⟨hSmall, error, hRefused⟩
    exact Or.inr (Or.inr
      ⟨adjusted, error, hAdjusted, hSmall, hRefused⟩)

/- Requests get no address exactly if they are turned down. -/
theorem allocate_none_iff
    (h : a.AtRest table view)
    (hExtensions : a.extensions + 1 < Word.limit)
    (hAllocations : a.allocations + 1 < Word.limit) :
    (∃ next, (a.allocate size).outcome = .ok (none, next)) ↔
      a.TurnsDown view size (Request.rounded size) := by
  by_cases hZero : size = 0
  · subst hZero
    exact ⟨fun _ => Or.inl rfl, fun _ => ⟨a, rfl⟩⟩
  by_cases hLarge : Request.blockSize? (Request.rounded size) =
      .ok none
  · have hRefused := h.allocate_tooLarge
      (Request.blockSize?_eq_none_iff.1 hLarge)
    exact ⟨fun _ => Or.inr (Or.inl hLarge),
      fun _ => ⟨a, congrArg Traced.outcome hRefused⟩⟩
  have hAdjusted : Request.blockSize? (Request.rounded size) =
      .ok (some (Request.sizeFor (Request.rounded size))) := by
    rw [Request.blockSize?_eq_none_iff, not_not] at hLarge
    exact Request.blockSize?_eq_some_iff.2 ⟨hLarge, rfl⟩
  rw [turnsDown_iff hZero hAdjusted]
  by_cases hSmall : ∀ block ∈ view.freeBlocks,
      block.header.size <
        Request.sizeFor (Request.rounded size)
  · rcases h.allocate_joint hZero hAdjusted hSmall hExtensions
        hAllocations with
      ⟨answer, granted, next, hGrow, _, hOutcome⟩
    rw [hGrow, hOutcome]
    cases answer with
    | error error =>
        exact ⟨fun _ => ⟨hSmall, error, rfl⟩,
          fun _ => ⟨next, rfl⟩⟩
    | ok start =>
        constructor
        · rintro ⟨_, hNone⟩
          cases hNone
        · rintro ⟨_, _, hError⟩
          cases hError
  · have hFits : ∃ block ∈ view.freeBlocks,
        Request.sizeFor (Request.rounded size) ≤
          block.header.size := by
      push Not at hSmall
      exact hSmall
    rcases h.allocate_listed hZero hAdjusted hFits
        hAllocations with
      ⟨bp, next, _, hOutcome, _⟩
    rw [hOutcome]
    constructor
    · rintro ⟨_, hNone⟩
      cases hNone
    · intro hAll
      exact absurd hAll.1 hSmall

end AtRest

end Allocator

namespace Client

variable {start : Allocator}
variable {events : List Event}
variable {client : Client}

namespace History

/-
  A request is served like one for the least power of two
  that is enough, up to 256 bytes, and as it is beyond that.

  Requests for no bytes, requests too close to the limit of
  the words, and requests that no free block is large enough
  for while the region grants no more bytes are turned down,
  and no others.

  If a free block is large enough, the first one in the order
  of the lists is given and the region is not asked to grow.
  Otherwise it is asked once, for the size of the block or
  the chunk size, whichever is more, and the block begins at
  the last block of the heap if that was free and at the old
  end of the heap if not.
-/
theorem allocate_policy
    (h : History start events client)
    (size : Nat)
    (hFew : client.operations + 1 < Word.limit) :
    (client.allocator.table = none →
      (client.allocator.allocate size).outcome =
        .ok (none, client.allocator)) ∧
    ∃ served, Request.ServedAs size served ∧
    ∀ table view,
      client.allocator.table = some table →
      view.Describes table client.allocator.memory →
      ((∃ next,
          (client.allocator.allocate size).outcome =
            .ok (none, next)) ↔
        client.allocator.TurnsDown view size served) ∧
      ∀ adjusted, size ≠ 0 →
        Request.blockSize? served = .ok (some adjusted) →
        ((∃ block ∈ view.freeBlocks,
            adjusted ≤ block.header.size) →
          ∃ bp next,
            view.firstListed adjusted = some bp ∧
            (client.allocator.allocate size).outcome =
              .ok (some { offset := bp }, next) ∧
            client.allocator.region.SameButBytes next.region ∧
            next.region.growths =
              client.allocator.region.growths) ∧
        ((∀ block ∈ view.freeBlocks,
            block.header.size < adjusted) →
          ∃ answer granted next,
            client.allocator.region.grow (max adjusted
              client.allocator.config.chunkSize) =
                (answer, granted) ∧
            granted.SameButBytes next.region ∧
            next.region.growths =
              client.allocator.region.growths + 1 ∧
            (client.allocator.allocate size).outcome = .ok
              (match answer with
                | .ok _ => some {
                    offset :=
                      view.joint client.allocator.memory.size }
                | .error _ => none, next)) := by
  have hCounted := h.sound.counted
  have hExtensions := hCounted.extensions_le
  have hAllocations := hCounted.allocations_le
  refine ⟨fun hTable =>
    (Allocator.allocate_none hTable size).1,
    Request.rounded size, Request.servedAs_rounded size, ?_⟩
  intro table view hTable hView
  have hRest := h.sound.rest_of_describes hTable hView
  refine ⟨hRest.allocate_none_iff (by omega) (by omega), ?_⟩
  intro adjusted hSize hAdjusted
  constructor
  · intro hFits
    rcases hRest.allocate_listed hSize hAdjusted hFits
        (by omega) with
      ⟨bp, next, hFirst, hOutcome, hSame⟩
    exact ⟨bp, next, hFirst, hOutcome, hSame, hSame.growths_eq⟩
  · intro hSmall
    rcases hRest.allocate_joint hSize hAdjusted hSmall
        (by omega) (by omega) with
      ⟨answer, granted, next, hGrow, hSame, hOutcome⟩
    have hCount := Region.growths_grow client.allocator.region
      (max adjusted client.allocator.config.chunkSize)
    rw [hGrow] at hCount
    exact ⟨answer, granted, next, hGrow, hSame,
      hSame.growths_eq.trans hCount, hOutcome⟩

/-
  On a heap with one free block of 64 bytes, a request for 20
  bytes is served like one for 32, and its block of 48 bytes
  fits.  A request for 100 bytes is served like one for 128,
  and the heap grows by a block of 144 bytes for it, which
  joins the free one.  A request close to the limit is turned
  down.
-/
theorem allocate_policy_wide :
    (∃ next,
      (wide.allocator.allocate 20).outcome =
        .ok (some { offset := 192 }, next) ∧
      next.region.growths = wide.allocator.region.growths) ∧
    (∃ granted next,
      wide.allocator.region.grow 144 = (.ok 256, granted) ∧
      granted.SameButBytes next.region ∧
      next.region.growths =
        wide.allocator.region.growths + 1 ∧
      (wide.allocator.allocate 100).outcome =
        .ok (some { offset := 192 }, next)) ∧
    ∃ next,
      (wide.allocator.allocate (Word.limit - 1)).outcome =
        .ok (none, next) := by
  have hGrant :
      (wide.allocator.region.grow
        (max 144 wide.allocator.config.chunkSize)).1 =
          .ok 256 ∧
      max 144 wide.allocator.config.chunkSize = 144 := by
    decide +kernel
  have hTable := wide_eq.1.1
  rcases wide_history with ⟨⟨events, hHistory⟩, _⟩
  rcases hHistory.sound.backed _ hTable with ⟨view, hRest, _⟩
  have hView := hRest.describes
  have hFree := wide_freeBlocks hView
  have hPolicy := fun size =>
    allocate_policy hHistory size wide_few.1
  refine ⟨?_, ?_, ?_⟩
  · rcases (hPolicy 20).2 with ⟨served, hServed, hChoice⟩
    obtain rfl : served = 32 :=
      hServed.eq_rounded.trans (by decide)
    have hFits : ∃ block ∈ view.freeBlocks,
        48 ≤ block.header.size := by
      rw [hFree]
      exact ⟨_, List.mem_cons_self, by decide⟩
    rcases ((hChoice _ view hTable hView).2 48 (by decide)
        (by decide)).1 hFits with
      ⟨bp, next, hFirst, hOutcome, _, hCount⟩
    -- The only free block is the first one listed.
    have hListed := hRest.stands.mem_of_firstListed hFirst
    rw [hFree, List.map_cons, List.map_nil,
      List.mem_singleton] at hListed
    subst hListed
    exact ⟨next, hOutcome, hCount⟩
  · rcases (hPolicy 100).2 with ⟨served, hServed, hChoice⟩
    obtain rfl : served = 128 :=
      hServed.eq_rounded.trans (by decide)
    have hNone : ∀ block ∈ view.freeBlocks,
        block.header.size < 144 := by
      rw [hFree, List.forall_mem_singleton]
      decide
    rcases ((hChoice _ view hTable hView).2 144 (by decide)
        (by decide)).2 hNone with
      ⟨answer, granted, next, hGrow, hSame, hCount, hOutcome⟩
    have hJoint : view.joint wide.allocator.memory.size =
        192 := by
      unfold HeapView.joint
      rw [wide_blocks hView]
      rfl
    have hAnswer := hGrant.1
    rw [hGrow] at hAnswer
    dsimp only at hAnswer
    subst hAnswer
    rw [hGrant.2] at hGrow
    rw [hJoint] at hOutcome
    exact ⟨granted, next, hGrow, hSame, hCount, hOutcome⟩
  · rcases (hPolicy (Word.limit - 1)).2 with
      ⟨served, hServed, hChoice⟩
    have hLarge : served = Word.limit - 1 := by
      unfold Request.ServedAs at hServed
      rwa [if_neg (by decide)] at hServed
    subst hLarge
    exact (hChoice _ view hTable hView).1.2
      (Or.inr (Or.inl (by decide)))

end History

end Client

end SegregatedFit
