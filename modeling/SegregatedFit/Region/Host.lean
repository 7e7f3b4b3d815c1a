import SegregatedFit.Region.Basic
import SegregatedFit.Word.Alignment

/-
  Hosts and the regions that they hand out.

  A region is reserved with a fixed capacity
  (`Region.reserve`) or anchored at the program break
  (`Region.anchor`), if the host lets the break move up to
  the next double word (`Region.tryAnchor`).
-/

namespace SegregatedFit

/-
  What a region needs to know of the machine below it: the
  address of the next reservation, the capacity from which on
  reservations are refused, where the program break stands,
  and the displacement from which on it refuses to move.
-/
structure Host where
  reservationAddress : Nat
  reservationLimit : Nat
  breakAddress : Nat
  breakLimit : Nat
  deriving DecidableEq, Repr

namespace Region

/- The capacity where none is given: twenty mebibytes. -/
abbrev defaultCapacity : Nat :=
  20 * 1024 * 1024

/- Reservations begin at multiples of the page size. -/
abbrev pageSize : Nat :=
  4096

/-
  The largest capacity that a signed word can still hold
  after it is rounded up to whole pages.
-/
abbrev largestCapacity : Nat :=
  displacementLimit - pageSize

/- Reserve an empty region that may grow up to `capacity`. -/
def reserve
    (host : Host)
    (capacity : Nat) : Except Error Region :=
  if capacity = 0 then
    .error (.invalidConfig "heap capacity is zero")
  else if largestCapacity < capacity then
    .error (.invalidConfig "heap capacity overflows")
  else if host.reservationLimit ≤ capacity then
    .error (.outOfMemory capacity)
  else
    .ok {
      memory := Memory.empty,
      base := host.reservationAddress,
      source := .reservation capacity,
      refusals := fun _ => none,
      growths := 0 }

/-
  Anchor an empty region at the program break, which is first
  moved up to the next double word.
-/
def anchor
    (host : Host) : Except Fault Region := do
  let padding ← Word.padding host.breakAddress
  let base ← Word.add host.breakAddress padding
  return {
    memory := Memory.empty,
    base := base,
    source := .programBreak base host.breakLimit,
    refusals := fun _ => none,
    growths := 0 }

/- What it takes to anchor a region, and where it begins. -/
theorem anchor_eq_ok_iff
    {host : Host}
    {region : Region} :
    anchor host = .ok region ↔
      ∃ padding,
        Word.padding host.breakAddress = .ok padding ∧
        host.breakAddress + padding < Word.limit ∧
        region = {
          memory := Memory.empty,
          base := host.breakAddress + padding,
          source := .programBreak
            (host.breakAddress + padding) host.breakLimit,
          refusals := fun _ => none,
          growths := 0 } := by
  constructor
  · intro h
    unfold anchor at h
    rw [Fault.bind_eq_ok_iff] at h
    rcases h with ⟨padding, hPadding, h⟩
    rw [Fault.bind_eq_ok_iff] at h
    rcases h with ⟨base, hBase, hRegion⟩
    rw [Word.add_eq_ok_iff] at hBase
    rcases hBase with ⟨hWord, rfl⟩
    cases hRegion
    exact ⟨padding, hPadding, hWord, rfl⟩
  · rintro ⟨padding, hPadding, hWord, rfl⟩
    unfold anchor
    rw [Fault.bind_of_ok hPadding,
      Fault.bind_of_ok (Word.add_of_lt hWord)]
    rfl

/-
  Anchor an empty region at the program break, unless the
  host turns it down: the highest address is how a break says
  that it cannot be moved at all, the displacement may be too
  large, and no region begins at address zero.
-/
def tryAnchor
    (host : Host) : Except Fault (Except Error Region) :=
  if host.breakAddress = Word.limit - 1 then
    return .error (.outOfMemory 0)
  else do
    let padding ← Word.padding host.breakAddress
    if 0 < padding ∧ host.breakLimit ≤ padding then
      return .error (.outOfMemory padding)
    else do
      let region ← anchor host
      if region.base = 0 then
        return .error .discontiguous
      else
        return .ok region

/- A host that grants a region grants the anchored one. -/
theorem anchor_of_tryAnchor
    {host : Host}
    {region : Region}
    (h : tryAnchor host = .ok (.ok region)) :
    anchor host = .ok region := by
  unfold tryAnchor at h
  split at h
  · cases h
  rw [Fault.bind_eq_ok_iff] at h
  rcases h with ⟨padding, _, h⟩
  split at h
  · cases h
  rw [Fault.bind_eq_ok_iff] at h
  rcases h with ⟨anchored, hAnchor, h⟩
  split at h
  · cases h
  cases h
  exact hAnchor

end Region

end SegregatedFit
