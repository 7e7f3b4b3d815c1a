import SegregatedFit.Region.Basic

/-
  What the answer to a growth says of the region.

  Bytes that are granted are zero and join the region, so a
  program break stood where it ended.  A growth that is
  refused keeps the bytes, but it may have moved the break.

  Key definitions include:
    * `Source.MovesUp`
    * `Source.Gives`

  Key theorems include:
    * `Region.grow_ok`
    * `Region.grow_error`
    * `Region.error_of_grow`
    * `Region.capacity_grow`
-/

namespace SegregatedFit

------------------------------------------------------------
-- Sources
------------------------------------------------------------

/- A source is the same, but its program break may be higher. -/
inductive Source.MovesUp :
    Source → Source → Prop where
  | reservation
      (capacity : Nat) :
      MovesUp (.reservation capacity) (.reservation capacity)
  | programBreak
      {position moved : Nat}
      (limit : Nat)
      (le : position ≤ moved) :
      MovesUp (.programBreak position limit)
        (.programBreak moved limit)

/- A source that does not move does not move down. -/
theorem Source.MovesUp.refl
    (source : Source) :
    source.MovesUp source := by
  cases source with
  | reservation capacity => exact .reservation capacity
  | programBreak position limit =>
      exact .programBreak limit (Nat.le_refl position)

/-
  A source gives bytes that join a region which ends at
  `stop`: a program break has to stand right there.
-/
inductive Source.Gives
    (stop increment : Nat) :
    Source → Source → Prop where
  | reservation
      (capacity : Nat) :
      Gives stop increment (.reservation capacity)
        (.reservation capacity)
  | programBreak
      (limit : Nat) :
      Gives stop increment (.programBreak stop limit)
        (.programBreak (stop + increment) limit)

------------------------------------------------------------
-- Growth
------------------------------------------------------------

namespace Region

variable {r next : Region}
variable {increment offset : Nat}
variable {error : Error}

/- A source that gives nothing moves its break at most. -/
theorem extend_error
    (h : r.extend increment = (.error error, next)) :
    ∃ source,
      next = { r with source := source } ∧
        r.source.MovesUp source := by
  rcases r with ⟨m, base, source, refusals, growths⟩
  unfold extend at h
  cases source with
  | reservation capacity =>
      dsimp only at h
      split at h
      · cases h
      · cases h
        exact ⟨_, rfl, .refl _⟩
  | programBreak position limit =>
      dsimp only at h
      split at h
      · cases h
        exact ⟨_, rfl, .refl _⟩
      · split at h
        · cases h
        · cases h
          exact ⟨_, rfl,
            .programBreak limit (Nat.le_add_right _ _)⟩

/- A region that does not grow keeps its bytes. -/
theorem grow_error
    (h : r.grow increment = (.error error, next)) :
    ∃ source growths,
      next = { r with source := source, growths := growths } ∧
        r.source.MovesUp source := by
  unfold grow at h
  dsimp only at h
  split at h
  · cases h
    exact ⟨r.source, _, rfl, .refl _⟩
  · rcases extend_error h with ⟨source, rfl, hMoves⟩
    exact ⟨source, _, rfl, hMoves⟩

/- What a growth that is granted says of the source. -/
theorem extend_ok
    (h : r.extend increment = (.ok offset, next)) :
    ∃ source,
      offset = r.size ∧
      next = { r with
        memory := r.memory.extend increment,
        source := source } ∧
      r.source.Gives r.stop increment source := by
  rcases r with ⟨m, base, source, refusals, growths⟩
  unfold extend at h
  cases source with
  | reservation capacity =>
      dsimp only at h
      split at h
      · cases h
        exact ⟨_, rfl, rfl, .reservation capacity⟩
      · cases h
  | programBreak position limit =>
      dsimp only at h
      split at h
      · cases h
      · split at h
        · rename_i hJoins
          cases h
          rw [hJoins]
          exact ⟨_, rfl, rfl, .programBreak limit⟩
        · cases h

/- A growth that is granted adds zero bytes at the end. -/
theorem grow_ok
    (h : r.grow increment = (.ok offset, next)) :
    ∃ source growths,
      offset = r.size ∧
      next = { r with
        memory := r.memory.extend increment,
        source := source,
        growths := growths } ∧
      r.source.Gives r.stop increment source := by
  unfold grow at h
  dsimp only at h
  split at h
  · cases h
  · rcases extend_ok h with ⟨source, rfl, rfl, hGives⟩
    exact ⟨source, _, rfl, rfl, hGives⟩

/- The errors that a growth can give. -/
theorem error_of_grow
    (h : r.grow increment = (.error error, next)) :
    error = .outOfMemory increment ∨ error = .discontiguous := by
  unfold grow at h
  dsimp only at h
  split at h
  · rename_i refusal _
    cases h
    cases refusal with
    | outOfMemory => exact Or.inl rfl
    | discontiguous => exact Or.inr rfl
  · unfold extend at h
    dsimp only at h
    split at h
    · split at h
      · cases h
      · cases h
        exact Or.inl rfl
    · split at h
      · cases h
        exact Or.inl rfl
      · split at h
        · cases h
        · cases h
          exact Or.inr rfl

/- Whether a region has a capacity is not for a growth to say. -/
theorem capacity_grow
    (r : Region)
    (increment : Nat) :
    (r.grow increment).2.capacity? = r.capacity? := by
  cases hGrow : r.grow increment with
  | mk answer region =>
      cases answer with
      | error error =>
          rcases grow_error hGrow with
            ⟨source, growths, rfl, hMoves⟩
          unfold capacity?
          dsimp only
          generalize r.source = before at hMoves
          cases hMoves <;> rfl
      | ok offset =>
          rcases grow_ok hGrow with
            ⟨source, growths, _, rfl, hGives⟩
          unfold capacity?
          dsimp only
          generalize r.source = before at hGives
          cases hGives <;> rfl

end Region

end SegregatedFit
