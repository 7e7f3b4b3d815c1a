import SegregatedFit.Proofs.Word.Rounding
import SegregatedFit.Region.Host

/-
  Where a region begins that is anchored at the program break.

  Unless the break comes within a double word of the limit,
  less than a double word of padding leads up to the least
  aligned address, and the region begins there.  The host may
  refuse to move the break that far, and it has no region at
  the address zero.

  Key theorems include:
    * `Region.exists_anchor`
    * `Region.tryAnchor_eq`
    * `Region.roundUp_exact_and_anchored`
-/

namespace SegregatedFit

namespace Region

variable {host : Host}
variable {region : Region}
variable {padding : Nat}

------------------------------------------------------------
-- Anchoring
------------------------------------------------------------

/- The padding lies in front of the region and of the break. -/
theorem exists_anchor
    (hPadding : Word.padding host.breakAddress = .ok padding)
    (hWord : host.breakAddress + padding < Word.limit) :
    ∃ region, anchor host = .ok region ∧
      region.base = host.breakAddress + padding ∧
      region.source =
        .programBreak region.base host.breakLimit := by
  have hAnchor :=
    anchor_eq_ok_iff.2 ⟨padding, hPadding, hWord, rfl⟩
  exact ⟨_, hAnchor, rfl, rfl⟩

/- The answer of a host whose break can be padded. -/
theorem tryAnchor_eq
    (hMoves : host.breakAddress ≠ Word.limit - 1)
    (hPadding : Word.padding host.breakAddress = .ok padding)
    (hAnchor : anchor host = .ok region) :
    tryAnchor host = .ok
      (if 0 < padding ∧ host.breakLimit ≤ padding then
        .error (.outOfMemory padding)
      else if region.base = 0 then
        .error .discontiguous
      else
        .ok region) := by
  unfold tryAnchor
  rw [if_neg hMoves, Fault.bind_of_ok hPadding]
  by_cases hRefused : 0 < padding ∧ host.breakLimit ≤ padding
  · rw [if_pos hRefused, if_pos hRefused]
    rfl
  · rw [if_neg hRefused, if_neg hRefused,
      Fault.bind_of_ok hAnchor]
    split
    · rfl
    · rfl

/-
  A value is rounded up to a power of two without overflow
  exactly when the sum of both is a word, and then it becomes
  the least multiple that is not below it.

  So every program break that is not within a double word of
  the limit is less than a double word of padding away from an
  aligned address.  The region begins there and the break
  moves there, unless the host refuses to move it that far or
  the address is zero.
-/
theorem roundUp_exact_and_anchored :
    (∀ value k,
      ((∃ rounded,
          Word.roundUp value (2 ^ k) = .ok rounded) ↔
        value + 2 ^ k < Word.limit) ∧
      (∀ rounded,
        Word.roundUp value (2 ^ k) = .ok rounded →
          IsLeast
            {multiple | 2 ^ k ∣ multiple ∧ value ≤ multiple}
            rounded) ∧
      ∀ fault,
        Word.roundUp value (2 ^ k) = .error fault →
          fault = .overflow) ∧
    ∀ host : Host,
      host.breakAddress + doubleWord < Word.limit →
      ∃ padding region,
        Word.padding host.breakAddress = .ok padding ∧
        padding < doubleWord ∧
        anchor host = .ok region ∧
        region.base = host.breakAddress + padding ∧
        doubleWord ∣ region.base ∧
        region.source =
          .programBreak region.base host.breakLimit ∧
        tryAnchor host = .ok
          (if 0 < padding ∧ host.breakLimit ≤ padding then
            .error (.outOfMemory padding)
          else if region.base = 0 then
            .error .discontiguous
          else
            .ok region) := by
  constructor
  · intro value k
    refine ⟨⟨?_, ?_⟩, ?_, ?_⟩
    · rintro ⟨rounded, hRounded⟩
      exact (Word.roundUp_eq_ok_iff.1 hRounded).1
    · intro hWord
      rcases Word.exists_roundUp hWord with
        ⟨rounded, hRounded, _⟩
      exact ⟨rounded, hRounded⟩
    · intro rounded hRounded
      exact (Word.roundUp_eq_ok_iff.1 hRounded).2
    · intro fault hFault
      exact (Word.roundUp_eq_error_iff.1 hFault).2
  · intro host hBreak
    have hSizes := Word.sizes_eq
    rcases Word.exists_padding hBreak with
      ⟨padding, hPadding, hLess, hAligned⟩
    rcases exists_anchor hPadding (by omega) with
      ⟨region, hAnchor, hBase, hSource⟩
    refine ⟨padding, region, hPadding, hLess, hAnchor, hBase,
      ?_, hSource, tryAnchor_eq (by omega) hPadding hAnchor⟩
    rw [hBase]
    exact hAligned

/- A host whose break is the last one that can be padded. -/
def highHost : Host where
  reservationAddress := 4096
  reservationLimit := 0
  breakAddress := Word.limit - 17
  breakLimit := 0x10000000000

/-
  Both hold up to the limit: to the largest power of two, the
  value in front of it can be rounded up, but not the power
  itself, and the last break that can be padded is one byte
  away from an aligned address.
-/
theorem roundUp_exact_and_anchored_highest :
    Word.roundUp (2 ^ 63 - 1) (2 ^ 63) = .ok (2 ^ 63) ∧
    Word.roundUp (2 ^ 63) (2 ^ 63) = .error .overflow ∧
    ∃ region, tryAnchor highHost = .ok (.ok region) ∧
      region.base = Word.limit - 16 := by
  rcases roundUp_exact_and_anchored with ⟨hRounds, hAnchors⟩
  refine ⟨?_, ?_, ?_⟩
  · rcases hRounds (2 ^ 63 - 1) 63 with ⟨hWord, hLeast, _⟩
    rcases hWord.2 (by decide) with ⟨rounded, hRounded⟩
    have hIsLeast : IsLeast
        {multiple | 2 ^ 63 ∣ multiple ∧
          2 ^ 63 - 1 ≤ multiple} (2 ^ 63) := by
      refine ⟨⟨Nat.dvd_refl _, Nat.sub_le _ _⟩, ?_⟩
      rintro multiple ⟨hMultiple, hLe⟩
      exact Nat.le_of_dvd (by omega) hMultiple
    rw [hRounded, (hLeast rounded hRounded).unique hIsLeast]
  · rcases hRounds (2 ^ 63) 63 with ⟨hWord, _, hFault⟩
    cases hRounded : Word.roundUp (2 ^ 63) (2 ^ 63) with
    | error fault => rw [hFault fault hRounded]
    | ok rounded =>
        exact absurd (hWord.1 ⟨rounded, hRounded⟩) (by decide)
  · rcases hAnchors highHost (by decide) with
      ⟨padding, region, hPadding, _, _, hBase, _, _, hAnswer⟩
    have hOne : Word.padding highHost.breakAddress = .ok 1 := by
      decide
    rw [hPadding] at hOne
    cases hOne
    have hStart : region.base = Word.limit - 16 := hBase
    refine ⟨region, ?_, hStart⟩
    rw [hAnswer, if_neg (by decide), hStart]
    rfl

end Region

end SegregatedFit
