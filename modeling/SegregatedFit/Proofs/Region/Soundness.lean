import SegregatedFit.Proofs.Region.Growth
import SegregatedFit.Region.Process

/-
  What is kept by all that may happen in a process.

  Whatever happens in a process, and in whichever order, the
  address space has the bytes that the region knows, and no
  address of the region is held by other code.  While the
  program break stands where the region ends, nothing can be
  held in between: `Process.Sound`.

  Key definitions include:
    * `Process.Sound`
    * `Process.Grown`

  Key theorems include:
    * `Process.Sound.bytes_eq`
    * `Process.Sound.grow_ok`, `Process.Sound.grow_error`
    * `Process.Sound.act`, `Process.Sound.run`
-/

namespace SegregatedFit

------------------------------------------------------------
-- Address Spaces
------------------------------------------------------------

namespace AddressSpace

variable {space : AddressSpace}
variable {start address : Nat}
variable {bytes : List UInt8}

/- What is put somewhere is found there. -/
theorem put_inside
    {i : Nat}
    (h : i < bytes.length) :
    space.put start bytes (start + i) = bytes.getD i 0 := by
  unfold put
  rw [if_pos (by omega), Nat.add_sub_cancel_left]

/- Everything else stays. -/
theorem put_outside
    (h : address < start ∨ start + bytes.length ≤ address) :
    space.put start bytes address = space address := by
  unfold put
  rw [if_neg (by omega)]

end AddressSpace

------------------------------------------------------------
-- Sound Processes
------------------------------------------------------------

/-
  The address space holds the bytes of the region, what is
  left of a reservation is still zero, and what other code
  holds lies in front of the region, or between its end and
  the program break.
-/
structure Process.Sound
    (p : Process) : Prop where
  placed : p.region.WellPlaced
  shown :
    ∀ i, i < p.region.size →
      p.space (p.region.base + i) = p.region.memory.byte i
  unused :
    ∀ capacity, p.region.source = .reservation capacity →
      ∀ i, p.region.size ≤ i → i < capacity →
        p.space (p.region.base + i) = 0
  apart :
    ∀ position limit,
      p.region.source = .programBreak position limit →
      ∀ address, p.held address →
        address < p.region.base ∨
          (p.region.stop ≤ address ∧ address < position)

namespace Process

variable {p next : Process}
variable {increment offset : Nat}
variable {error : Error}

/- The number of bytes is the size of the region. -/
theorem length_bytes
    (p : Process) :
    p.bytes.length = p.region.size := by
  unfold bytes
  rw [List.length_map, List.length_range']

/- The bytes are those that stand in the address space. -/
theorem getElem_bytes
    {i : Nat}
    (h : i < p.bytes.length) :
    p.bytes[i] = p.space (p.region.base + i) := by
  simp [bytes]

namespace Sound

/- The region knows the bytes that it has. -/
theorem bytes_eq
    (h : p.Sound) :
    p.bytes = p.region.memory.slice 0 p.region.size := by
  apply List.ext_getElem
  · rw [length_bytes, Memory.length_slice]
  · intro i hi hi'
    rw [getElem_bytes, Memory.getElem_slice, Nat.zero_add]
    rw [length_bytes] at hi
    exact h.shown i hi

end Sound

------------------------------------------------------------
-- Growth
------------------------------------------------------------

/- The address space has zero bytes where the region grew. -/
structure Grown
    (p next : Process)
    (increment : Nat) : Prop where
  placed : next.region.WellPlaced
  base_eq : next.region.base = p.region.base
  memory_eq :
    next.region.memory = p.region.memory.extend increment
  kept :
    ∀ i, i < p.region.size →
      next.space (p.region.base + i) =
        p.space (p.region.base + i)
  zero :
    ∀ i, p.region.size ≤ i → i < p.region.size + increment →
      next.space (p.region.base + i) = 0

namespace Grown

/- The region has that many bytes more. -/
theorem size_eq
    (h : p.Grown next increment) :
    next.region.size = p.region.size + increment := by
  unfold Region.size
  rw [h.memory_eq, Memory.size_extend]

/- Zero bytes behind the others are zero bytes at the end. -/
theorem bytes_eq
    (h : p.Grown next increment) :
    next.bytes = p.bytes ++ List.replicate increment 0 := by
  apply List.ext_getElem
  · rw [List.length_append, length_bytes, length_bytes,
      List.length_replicate, h.size_eq]
  · intro i hi hi'
    rw [getElem_bytes, h.base_eq, List.getElem_append]
    rw [length_bytes, h.size_eq] at hi
    split
    · rename_i hOld
      rw [getElem_bytes]
      rw [length_bytes] at hOld
      exact h.kept i hOld
    · rename_i hNew
      rw [length_bytes, Nat.not_lt] at hNew
      rw [List.getElem_replicate]
      exact h.zero i hNew hi

/- The region knows the bytes that it got. -/
theorem shown
    {i : Nat}
    (h : p.Grown next increment)
    (hShown : ∀ i, i < p.region.size →
      p.space (p.region.base + i) = p.region.memory.byte i)
    (hi : i < next.region.size) :
    next.space (next.region.base + i) =
      next.region.memory.byte i := by
  rw [h.size_eq] at hi
  rw [h.base_eq, h.memory_eq, Memory.byte_extend]
  by_cases hOld : i < p.region.size
  · rw [h.kept i hOld, hShown i hOld]
  · have hNew := Nat.le_of_not_lt hOld
    rw [h.zero i hNew hi, Memory.byte_of_size_le hNew]

end Grown

/- The region grows as it does without an address space. -/
theorem region_grow
    (p : Process)
    (increment : Nat) :
    (p.grow increment).2.region =
      (p.region.grow increment).2 := by
  unfold grow
  split
  · rename_i hGrow
    rw [hGrow]
  · rename_i hGrow
    rw [hGrow]

/- How a growth that is granted changes the address space. -/
theorem grow_ok_cases
    (h : p.grow increment = (.ok offset, next)) :
    ∃ growths,
      offset = p.region.size ∧
      ((∃ capacity,
        p.region.source = .reservation capacity ∧
        next = { p with region := { p.region with
          memory := p.region.memory.extend increment,
          growths := growths } }) ∨
      ∃ limit,
        p.region.source = .programBreak p.region.stop limit ∧
        next = { p with
          region := { p.region with
            memory := p.region.memory.extend increment,
            source := .programBreak
              (p.region.stop + increment) limit,
            growths := growths },
          space := p.space.put p.region.stop
            (List.replicate increment 0) }) := by
  unfold grow at h
  split at h
  · cases h
  · rename_i _ _ hGrow
    rcases Region.grow_ok hGrow with
      ⟨source, growths, rfl, rfl, hGives⟩
    cases h
    rcases p with ⟨⟨m, base, source, refusals, asked⟩, _, _⟩
    change source.Gives (base + m.size) increment _ at hGives
    refine ⟨growths, rfl, ?_⟩
    cases hGives with
    | reservation capacity =>
        exact Or.inl ⟨capacity, rfl, rfl⟩
    | programBreak limit => exact Or.inr ⟨limit, rfl, rfl⟩

namespace Sound

/- What a reservation uncovers is zero already. -/
theorem uncover
    {capacity growths : Nat}
    (h : p.Sound)
    (hSource : p.region.source = .reservation capacity)
    (hNext : next = { p with region := { p.region with
      memory := p.region.memory.extend increment,
      growths := growths } })
    (hPlaced : next.region.WellPlaced) :
    next.Sound ∧ p.Grown next increment := by
  have hUnused := h.unused capacity hSource
  have hStays : next.region.source = .reservation capacity := by
    rw [hNext]
    exact hSource
  have hRoom : next.region.size ≤ capacity := by
    have hSource' := hPlaced.2.2
    rw [hStays] at hSource'
    exact hSource'.1
  have hSize : next.region.size =
      p.region.size + increment := by
    rw [hNext]
    exact Memory.size_extend _ _
  have hGrown : p.Grown next increment := by
    refine ⟨hPlaced, ?_, ?_, ?_, ?_⟩
    · rw [hNext]
    · rw [hNext]
    · intro i _
      rw [hNext]
    · intro i hi hi'
      rw [hNext]
      exact hUnused i hi (by omega)
  refine ⟨⟨hPlaced, fun i hi => hGrown.shown h.shown hi, ?_,
    ?_⟩, hGrown⟩
  · intro capacity' hSource' i hi hi'
    rw [hStays] at hSource'
    cases hSource'
    rw [hNext]
    exact hUnused i (by omega) hi'
  · intro position limit hSource'
    rw [hStays] at hSource'
    cases hSource'

/- What lies behind the program break is cleared. -/
theorem clear
    {limit growths : Nat}
    (h : p.Sound)
    (hSource :
      p.region.source = .programBreak p.region.stop limit)
    (hNext : next = { p with
      region := { p.region with
        memory := p.region.memory.extend increment,
        source := .programBreak
          (p.region.stop + increment) limit,
        growths := growths },
      space := p.space.put p.region.stop
        (List.replicate increment 0) })
    (hPlaced : next.region.WellPlaced) :
    next.Sound ∧ p.Grown next increment := by
  have hStop : p.region.stop = p.region.base + p.region.size :=
    rfl
  have hMoves : next.region.source =
      .programBreak (p.region.stop + increment) limit := by
    rw [hNext]
  have hGrown : p.Grown next increment := by
    refine ⟨hPlaced, ?_, ?_, ?_, ?_⟩
    · rw [hNext]
    · rw [hNext]
    · intro i hi
      rw [hNext]
      exact AddressSpace.put_outside (by omega)
    · intro i hi hi'
      have hAt : p.region.base + i =
          p.region.stop + (i - p.region.size) := by
        omega
      have hInside : i - p.region.size <
          (List.replicate increment (0 : UInt8)).length := by
        rw [List.length_replicate]
        omega
      rw [hNext, hAt]
      dsimp only
      rw [AddressSpace.put_inside hInside, List.getD,
        List.getElem?_eq_getElem hInside,
        List.getElem_replicate]
      rfl
  refine ⟨⟨hPlaced, fun i hi => hGrown.shown h.shown hi, ?_,
    ?_⟩, hGrown⟩
  · intro capacity hSource'
    rw [hMoves] at hSource'
    cases hSource'
  · intro position limit' _ address hHeld
    rw [hNext] at hHeld
    have hBefore := h.apart _ _ hSource address hHeld
    left
    rw [hGrown.base_eq]
    omega

/-
  A growth that is granted adds zero bytes and keeps the
  others.  The program break stood where the region ended.
-/
theorem grow_ok
    (h : p.Sound)
    (hGrow : p.grow increment = (.ok offset, next)) :
    next.Sound ∧
      p.Grown next increment ∧
      offset = p.region.size ∧
      ∀ position limit,
        p.region.source = .programBreak position limit →
          position = p.region.stop := by
  have hPlaced := h.placed.grow increment
  rw [← region_grow, hGrow] at hPlaced
  dsimp only at hPlaced
  rcases grow_ok_cases hGrow with ⟨growths, hOffset, hCases⟩
  rcases hCases with hReserved | hBreak
  · rcases hReserved with ⟨capacity, hSource, hNext⟩
    rcases h.uncover hSource hNext hPlaced with
      ⟨hSound, hGrown⟩
    refine ⟨hSound, hGrown, hOffset, ?_⟩
    intro position limit hSource'
    rw [hSource] at hSource'
    cases hSource'
  · rcases hBreak with ⟨limit, hSource, hNext⟩
    rcases h.clear hSource hNext hPlaced with
      ⟨hSound, hGrown⟩
    refine ⟨hSound, hGrown, hOffset, ?_⟩
    intro position limit' hSource'
    rw [hSource] at hSource'
    cases hSource'
    rfl

/- A growth that is refused keeps the bytes. -/
theorem grow_error
    (h : p.Sound)
    (hGrow : p.grow increment = (.error error, next)) :
    next.Sound ∧
      next.region.base = p.region.base ∧
      next.bytes = p.bytes ∧
      (error = .outOfMemory increment ∨
        error = .discontiguous) := by
  have hPlaced := h.placed.grow increment
  rw [← region_grow, hGrow] at hPlaced
  unfold grow at hGrow
  split at hGrow
  · rename_i hRefused
    cases hGrow
    have hError := Region.error_of_grow hRefused
    rcases Region.grow_error hRefused with
      ⟨source, growths, rfl, hMoves⟩
    refine ⟨⟨hPlaced, h.shown, ?_, ?_⟩, rfl, rfl, hError⟩
    · intro capacity hSource
      dsimp only at hSource
      rw [hSource] at hMoves
      generalize hBefore : p.region.source = before at hMoves
      cases hMoves
      exact h.unused capacity hBefore
    · intro position limit hSource address hHeld
      dsimp only at hSource
      rw [hSource] at hMoves
      generalize hBefore : p.region.source = before at hMoves
      cases hMoves with
      | programBreak _ hLe =>
          have hApart := h.apart _ _ hBefore address hHeld
          change address < p.region.base ∨
            (p.region.stop ≤ address ∧ address < position)
          omega
  · cases hGrow

------------------------------------------------------------
-- Other Acts
------------------------------------------------------------

/- What is written into the region is what it knows. -/
theorem write
    {bytes : List UInt8}
    (h : p.Sound)
    (hWrite : p.write offset bytes = .ok next) :
    next.Sound ∧ next.region.base = p.region.base := by
  unfold Process.write at hWrite
  rw [Fault.bind_eq_ok_iff] at hWrite
  rcases hWrite with ⟨m, hStore, hNext⟩
  cases hNext
  rw [Memory.store_eq_ok_iff] at hStore
  rcases hStore with ⟨hRoom, rfl⟩
  have hSame :
      (p.region.memory.overwrite offset bytes).size =
        p.region.memory.size :=
    Memory.size_overwrite _ _ _
  have hStop : Region.stop { p.region with
      memory := p.region.memory.overwrite offset bytes } =
        p.region.stop := by
    unfold Region.stop Region.size
    rw [hSame]
  refine ⟨⟨h.placed.withMemory hSame, ?_, ?_, ?_⟩, rfl⟩
  · intro i hi
    unfold Region.size at hi
    dsimp only at hi ⊢
    rw [hSame] at hi
    rw [Memory.byte_overwrite]
    by_cases hInside : offset ≤ i ∧ i < offset + bytes.length
    · have hAt : p.region.base + i =
          p.region.base + offset + (i - offset) := by
        omega
      rw [if_pos ⟨hInside.1, hInside.2, hi⟩, hAt,
        AddressSpace.put_inside (by omega)]
    · rw [if_neg (fun hBoth => hInside ⟨hBoth.1, hBoth.2.1⟩),
        AddressSpace.put_outside (by omega)]
      exact h.shown i hi
  · intro capacity hSource i hi hi'
    unfold Region.size at hi
    dsimp only at hi ⊢
    rw [hSame] at hi
    rw [AddressSpace.put_outside (by omega)]
    exact h.unused capacity hSource i hi hi'
  · intro position limit hSource address hHeld
    rw [hStop]
    exact h.apart position limit hSource address hHeld

/-
  Other code that moves the break gets nothing that belongs
  to the region.
-/
theorem moveBreak
    {displacement : Int}
    (h : p.Sound)
    (hMove : p.moveBreak displacement = some next) :
    next.Sound ∧ next.region.base = p.region.base := by
  unfold Process.moveBreak at hMove
  split at hMove
  · cases hMove
  · rename_i position limit hSource
    rw [Option.bind_eq_bind, Option.bind_eq_some_iff] at hMove
    rcases hMove with ⟨region, hRegion, hNext⟩
    cases hNext
    have hSame := h.placed.moveBreak hRegion
    have hPlaced := h.placed.2.2
    rw [hSource] at hPlaced
    unfold Region.moveBreak at hRegion
    rw [hSource] at hRegion
    dsimp only at hRegion hPlaced
    split at hRegion
    · rename_i hMoved
      cases hRegion
      refine ⟨⟨hSame.placed, h.shown, ?_, ?_⟩, rfl⟩
      · intro capacity hSource'
        cases hSource'
      · intro position' limit' hSource' address hHeld
        cases hSource'
        change address < p.region.base ∨
          (p.region.stop ≤ address ∧
            address < (position + displacement).toNat)
        rcases hHeld with ⟨hBelow, hHeld | hNew⟩
        · have hApart := h.apart _ _ hSource address hHeld
          omega
        · omega
    · cases hRegion

/- Other code that writes elsewhere leaves the region alone. -/
theorem disturb
    {address : Nat}
    {byte : UInt8}
    (h : p.Sound)
    (hDisturb : p.disturb address byte = some next) :
    next.Sound ∧ next.region.base = p.region.base := by
  unfold Process.disturb at hDisturb
  split at hDisturb
  · rename_i hElsewhere
    cases hDisturb
    have hReach : p.region.stop ≤ p.region.reach := by
      have hPlaced := h.placed.2.2
      unfold Region.reach
      cases hSource : p.region.source with
      | reservation capacity =>
          rw [hSource] at hPlaced
          unfold Region.stop
          exact Nat.add_le_add_left hPlaced.1 _
      | programBreak position limit => exact Nat.le_refl _
    have hStop : p.region.stop = p.region.base + p.region.size :=
      rfl
    refine ⟨⟨h.placed, ?_, ?_, h.apart⟩, rfl⟩
    · intro i hi
      dsimp only at hi ⊢
      rw [AddressSpace.put_outside
        (by rw [List.length_singleton]; omega)]
      exact h.shown i hi
    · intro capacity hSource i hi hi'
      dsimp only at hSource hi ⊢
      have hWhole : p.region.reach = p.region.base + capacity := by
        unfold Region.reach
        rw [hSource]
      rw [AddressSpace.put_outside
        (by rw [List.length_singleton]; omega)]
      exact h.unused capacity hSource i hi hi'
  · cases hDisturb

------------------------------------------------------------
-- Runs
------------------------------------------------------------

/- A sound process stays sound, and its region where it is. -/
theorem act
    {act : Act}
    (h : p.Sound)
    (hAct : p.act act = some next) :
    next.Sound ∧ next.region.base = p.region.base := by
  cases act with
  | grow increment =>
      cases hAct
      cases hGrow : p.grow increment with
      | mk answer after =>
          cases answer with
          | error error =>
              have hKept := h.grow_error hGrow
              exact ⟨hKept.1, hKept.2.1⟩
          | ok offset =>
              have hMore := h.grow_ok hGrow
              exact ⟨hMore.1, hMore.2.1.base_eq⟩
  | write offset bytes =>
      change (p.write offset bytes).toOption = _ at hAct
      cases hWrite : p.write offset bytes with
      | error fault =>
          rw [hWrite] at hAct
          cases hAct
      | ok written =>
          rw [hWrite] at hAct
          cases hAct
          exact h.write hWrite
  | moveBreak displacement => exact h.moveBreak hAct
  | disturb address byte => exact h.disturb hAct

/- So it does however often something happens. -/
theorem run
    {acts : List Act}
    (h : p.Sound)
    (hRun : p.run acts = some next) :
    next.Sound ∧ next.region.base = p.region.base := by
  induction acts generalizing p with
  | nil =>
      cases hRun
      exact ⟨h, rfl⟩
  | cons act acts ih =>
      unfold Process.run at hRun
      rw [List.foldlM_cons, Option.bind_eq_bind,
        Option.bind_eq_some_iff] at hRun
      rcases hRun with ⟨middle, hAct, hRest⟩
      rcases h.act hAct with ⟨hMiddle, hBase⟩
      rcases ih hMiddle hRest with ⟨hNext, hBase'⟩
      exact ⟨hNext, hBase'.trans hBase⟩

end Sound

/- Whether a region has a capacity does not change. -/
theorem capacity_act
    {act : Act}
    (h : p.act act = some next) :
    next.region.capacity? = p.region.capacity? := by
  cases act with
  | grow increment =>
      cases h
      rw [region_grow, Region.capacity_grow]
  | write offset bytes =>
      change (p.write offset bytes).toOption = _ at h
      unfold write at h
      cases hStore : p.region.memory.store offset bytes with
      | error fault =>
          rw [hStore] at h
          cases h
      | ok m =>
          rw [hStore] at h
          cases h
          rfl
  | moveBreak displacement =>
      change p.moveBreak displacement = _ at h
      unfold moveBreak at h
      split at h
      · cases h
      · rename_i position limit hSource
        rw [Option.bind_eq_bind, Option.bind_eq_some_iff] at h
        rcases h with ⟨region, hRegion, hNext⟩
        cases hNext
        unfold Region.moveBreak at hRegion
        rw [hSource] at hRegion
        dsimp only at hRegion
        split at hRegion
        · cases hRegion
          unfold Region.capacity?
          rw [hSource]
        · cases hRegion
  | disturb address byte =>
      change p.disturb address byte = _ at h
      unfold disturb at h
      split at h
      · cases h
        rfl
      · cases h

/- Nor does it change in a run. -/
theorem capacity_run
    {acts : List Act}
    (h : p.run acts = some next) :
    next.region.capacity? = p.region.capacity? := by
  induction acts generalizing p with
  | nil =>
      cases h
      rfl
  | cons act acts ih =>
      unfold run at h
      rw [List.foldlM_cons, Option.bind_eq_bind,
        Option.bind_eq_some_iff] at h
      rcases h with ⟨middle, hAct, hRest⟩
      rw [ih hRest, capacity_act hAct]

end Process

end SegregatedFit
