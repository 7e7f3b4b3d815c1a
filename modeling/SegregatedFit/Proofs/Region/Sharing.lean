import SegregatedFit.Proofs.Region.Soundness

/-
  Regions that share a process with other code.

  A region at the program break shares it with other code,
  and neither takes what the other one has, however both use
  the break.

  Key theorems include:
    * `Process.sound_anchor`, `Process.sound_reserve`
    * `Process.break_shared`
-/

namespace SegregatedFit

namespace Process

variable {p : Process}

------------------------------------------------------------
-- Sharing the Program Break
------------------------------------------------------------

/-
  A region is sound when it is anchored at the program break,
  whatever other code got from the break before.
-/
theorem sound_anchor
    {host : Host}
    {region : Region}
    {held : Nat → Prop}
    (refusals : Nat → Option Refusal)
    (space : AddressSpace)
    (hAnchor : Region.anchor host = .ok region)
    (hHeld : ∀ address, held address →
      address < host.breakAddress) :
    Sound {
      region := { region with refusals := refusals },
      space := space,
      held := held } ∧
      region.capacity? = none := by
  have hPlaced := Region.anchor_wellPlaced hAnchor
  rw [Region.anchor_eq_ok_iff] at hAnchor
  rcases hAnchor with ⟨padding, _, _, rfl⟩
  refine ⟨⟨hPlaced, ?_, ?_, ?_⟩, rfl⟩
  · intro i hi
    exact absurd hi (Nat.not_lt_zero i)
  · intro capacity hSource
    cases hSource
  · intro position limit hSource address hAddress
    cases hSource
    have hBelow := hHeld address hAddress
    left
    change address < host.breakAddress + padding
    omega

/- A reservation is sound if it is zero to begin with. -/
theorem sound_reserve
    {host : Host}
    {capacity : Nat}
    {region : Region}
    {space : AddressSpace}
    (refusals : Nat → Option Refusal)
    (held : Nat → Prop)
    (hAligned : host.reservationAddress % doubleWord = 0)
    (hRoom :
      host.reservationAddress + capacity < Word.limit)
    (hReserve : Region.reserve host capacity = .ok region)
    (hZero : ∀ i, i < capacity →
      space (host.reservationAddress + i) = 0) :
    Sound {
      region := { region with refusals := refusals },
      space := space,
      held := held } := by
  have hPlaced :=
    Region.reserve_wellPlaced hAligned hRoom hReserve
  unfold Region.reserve at hReserve
  split at hReserve
  · cases hReserve
  split at hReserve
  · cases hReserve
  split at hReserve
  · cases hReserve
  cases hReserve
  refine ⟨hPlaced, ?_, ?_, ?_⟩
  · intro i hi
    exact absurd hi (Nat.not_lt_zero i)
  · intro capacity' hSource i _ hi
    cases hSource
    exact hZero i hi
  · intro position limit hSource
    cases hSource

/-
  A region that is anchored at the program break never ends
  above the break and contains no address that other code
  holds, whichever way growths, writes and moves of the break
  by other code follow each other.

  A growth is granted only if the break stands where the
  region ends.  It adds zero bytes and keeps all others.  A
  growth that is refused keeps all bytes.
-/
theorem break_shared
    {host : Host}
    {region : Region}
    {refusals : Nat → Option Refusal}
    {space : AddressSpace}
    {held : Nat → Prop}
    {acts : List Act}
    (hAnchor : Region.anchor host = .ok region)
    (hHeld : ∀ address, held address →
      address < host.breakAddress)
    (hRun : run {
        region := { region with refusals := refusals },
        space := space,
        held := held } acts = some p) :
    (∃ position limit,
      p.region.source = .programBreak position limit ∧
      p.region.base + p.region.size ≤ position ∧
      (∀ increment offset next,
        p.grow increment = (.ok offset, next) →
          position = p.region.base + p.region.size ∧
          offset = p.region.size ∧
          next.region.base = p.region.base ∧
          next.region.size = p.region.size + increment ∧
          next.bytes =
            p.bytes ++ List.replicate increment 0) ∧
      ∀ increment error next,
        p.grow increment = (.error error, next) →
          (error = .outOfMemory increment ∨
            error = .discontiguous) ∧
          next.region.base = p.region.base ∧
          next.region.size = p.region.size ∧
          next.bytes = p.bytes) ∧
    p.region.base = region.base ∧
    p.bytes = p.region.memory.slice 0 p.region.size ∧
    ∀ address, p.held address →
      ¬ (p.region.base ≤ address ∧
        address < p.region.base + p.region.size) := by
  rcases sound_anchor refusals space hAnchor hHeld with
    ⟨hStart, hBreak⟩
  rcases hStart.run hRun with ⟨hSound, hBase⟩
  have hNone : p.region.capacity? = none :=
    (capacity_run hRun).trans hBreak
  have hPlaced := hSound.placed.2.2
  cases hSource : p.region.source with
  | reservation capacity =>
      unfold Region.capacity? at hNone
      rw [hSource] at hNone
      cases hNone
  | programBreak position limit =>
      rw [hSource] at hPlaced
      refine ⟨⟨position, limit, rfl, hPlaced, ?_, ?_⟩, hBase,
        hSound.bytes_eq, ?_⟩
      · intro increment offset next hGrow
        rcases hSound.grow_ok hGrow with
          ⟨_, hGrown, hOffset, hStop⟩
        exact ⟨hStop position limit hSource, hOffset,
          hGrown.base_eq, hGrown.size_eq, hGrown.bytes_eq⟩
      · intro increment error next hGrow
        rcases hSound.grow_error hGrow with
          ⟨_, hStays, hBytes, hError⟩
        refine ⟨hError, hStays, ?_, hBytes⟩
        rw [← length_bytes, ← length_bytes, hBytes]
      · intro address hAddress hInside
        have hApart := hSound.apart _ _ hSource address hAddress
        unfold Region.stop at hApart
        omega

/- A region at a program break that is not aligned. -/
def sampleRegion : Region where
  memory := Memory.empty
  base := 4016
  source := .programBreak 4016 0x10000000000
  refusals := fun _ => none
  growths := 0

/-
  Other code takes bytes behind the region and writes there,
  a growth is refused, and the break comes back to where the
  region ends.
-/
def sampleActs : List Act :=
  [.grow 64, .write 0 [0x5a], .moveBreak 16, .disturb 4090 7,
    .grow 32, .moveBreak (-48), .grow 32]

/- The last growth of the sample is granted and cleared. -/
theorem break_shared_sample :
    ∃ p : Process,
      run {
        region := sampleRegion,
        space := fun _ => 1,
        held := fun address => address < 4000 } sampleActs =
          some p ∧
      p.region.size = 96 ∧
      p.bytes = 0x5a :: List.replicate 95 0 ∧
      ∀ address, p.held address →
        ¬ (p.region.base ≤ address ∧
          address < p.region.base + p.region.size) := by
  have hGranted :
      Region.tryAnchor {
        reservationAddress := 4096,
        reservationLimit := 0,
        breakAddress := 4004,
        breakLimit := 0x10000000000 } =
          .ok (.ok sampleRegion) :=
    rfl
  have hAnchor := Region.anchor_of_tryAnchor hGranted
  have hHeld : ∀ address, address < 4000 → address < 4004 := by
    omega
  have hEnd :
      (run {
        region := sampleRegion,
        space := fun _ => 1,
        held := fun address => address < 4000 }
          sampleActs).map (fun p => (p.region.size, p.bytes)) =
        some (96, 0x5a :: List.replicate 95 0) := by
    decide +kernel
  rw [Option.map_eq_some_iff] at hEnd
  rcases hEnd with ⟨p, hRun, hEnd⟩
  rcases Prod.mk.inj hEnd with ⟨hSize, hBytes⟩
  have hShared := break_shared hAnchor hHeld hRun
  exact ⟨p, hRun, hSize, hBytes, hShared.2.2.2⟩

end Process

end SegregatedFit
