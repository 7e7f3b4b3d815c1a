import SegregatedFit.Allocator.Operations
import SegregatedFit.Proofs.Region.Answers

/-
  What is left of an allocator that gives no address.

  A request fails because there is no heap yet, because no
  block has its size, or because the region does not grow.
  All of this comes before anything is written or counted, so
  the allocator is as before, except that the program break
  may have moved up.  Nothing is asked of the allocator here:
  its heap may hold any bytes.

  Key definitions include:
    * `Allocator.withSource`
    * `Allocator.Untouched`

  Key theorems include:
    * `Allocator.untouched_of_allocate`
    * `Allocator.untouched_of_resize`
-/

namespace SegregatedFit

------------------------------------------------------------
-- Allocators
------------------------------------------------------------

namespace Allocator

variable {a next : Allocator}
variable {table : SentinelTable}
variable {size : Nat}

/-
  The same allocator with another source, of which something
  was asked that many times.
-/
def withSource
    (a : Allocator)
    (source : Source)
    (growths : Nat) : Allocator :=
  { a with region :=
    { a.region with source := source, growths := growths } }

/- Nothing has changed but where the program break stands. -/
def Untouched
    (a next : Allocator) : Prop :=
  ∃ source growths,
    next = a.withSource source growths ∧
      a.region.source.MovesUp source

/- An allocator that is the same is untouched. -/
theorem Untouched.refl
    (a : Allocator) :
    a.Untouched a :=
  ⟨a.region.source, a.region.growths, rfl, .refl _⟩

/- A heap that does not grow is not written to. -/
theorem untouched_of_extend
    {words : Nat}
    {error : Error}
    (h : (a.extend table words).outcome =
      .ok (.error error, next)) :
    a.Untouched next := by
  unfold extend at h
  rw [Traced.outcome_bind_eq_ok_iff] at h
  rcases h with ⟨bytes, _, h⟩
  split at h
  · rename_i region hGrow
    cases h
    rcases Region.grow_error hGrow with
      ⟨source, growths, rfl, hMoves⟩
    exact ⟨source, growths, rfl, hMoves⟩
  · simp only [Traced.outcome_bind_eq_ok_iff] at h
    rcases h with ⟨_, _, _, _, _, _, ⟨_, _⟩, _, hResult⟩
    cases hResult

/- Without a free block the heap is not written to. -/
theorem untouched_of_freeBlockFor
    {adjusted : Nat}
    {error : Error}
    (h : (a.freeBlockFor table adjusted).outcome =
      .ok (.error error, next)) :
    a.Untouched next := by
  unfold freeBlockFor at h
  rw [Traced.outcome_bind_eq_ok_iff] at h
  rcases h with ⟨found, _, h⟩
  cases found with
  | some bp => cases h
  | none => exact untouched_of_extend h

/- An allocation without an address changes nothing. -/
theorem untouched_of_allocate
    (h : (a.allocate size).outcome = .ok (none, next)) :
    a.Untouched next := by
  unfold allocate at h
  split at h
  · cases h
    exact .refl a
  · split at h
    · cases h
      exact .refl a
    · rw [Traced.outcome_bind_eq_ok_iff] at h
      rcases h with ⟨found, _, h⟩
      cases found with
      | none =>
          cases h
          exact .refl a
      | some adjusted =>
          dsimp only at h
          rw [Traced.outcome_bind_eq_ok_iff] at h
          rcases h with ⟨⟨answer, asked⟩, hFree, h⟩
          cases answer with
          | error error =>
              cases h
              exact untouched_of_freeBlockFor hFree
          | ok bp =>
              dsimp only at h
              rw [Traced.outcome_bind_eq_ok_iff] at h
              rcases h with ⟨_, _, hResult⟩
              cases hResult

/- A block that does not move is left as it is. -/
theorem untouched_of_relocate
    {bp blockSize : Nat}
    (h : (a.relocate bp blockSize size).outcome =
      .ok (none, next)) :
    a.Untouched next := by
  unfold relocate at h
  rw [Traced.outcome_bind_eq_ok_iff] at h
  rcases h with ⟨usable, _, h⟩
  dsimp only at h
  split at h
  · rw [Traced.outcome_bind_eq_ok_iff] at h
    rcases h with ⟨⟨target, served⟩, hAllocate, h⟩
    cases target with
    | none =>
        cases h
        exact untouched_of_allocate hAllocate
    | some target =>
        dsimp only at h
        simp only [Traced.outcome_bind_eq_ok_iff] at h
        rcases h with ⟨_, _, _, _, _, _, hResult⟩
        cases hResult
  · cases h
    exact .refl a

/- A resize to some bytes without an address changes nothing. -/
theorem untouched_of_resize
    {address : Option Address}
    (hSize : size ≠ 0)
    (h : (a.resize address size).outcome = .ok (none, next)) :
    a.Untouched next := by
  unfold resize at h
  rw [if_neg hSize] at h
  cases address with
  | none => exact untouched_of_allocate h
  | some address =>
      dsimp only at h
      split at h
      · rw [Traced.outcome_bind_eq_ok_iff] at h
        rcases h with ⟨found, _, h⟩
        cases found with
        | none =>
            cases h
            exact .refl a
        | some adjusted =>
            dsimp only at h
            rw [Traced.outcome_bind_eq_ok_iff] at h
            rcases h with ⟨tag, _, h⟩
            split at h
            · cases h
            · exact untouched_of_relocate h
      · cases h
        exact .refl a

end Allocator

end SegregatedFit
