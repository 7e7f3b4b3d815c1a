import SegregatedFit.Client.History
import SegregatedFit.Memory.Lemmas
import SegregatedFit.Proofs.Region.Answers
import SegregatedFit.Region.Host

/-
  What a well placed region does when it is asked to grow.

  It grows behind its last byte, or it keeps its bytes.  It
  stays well placed either way, and when other code moves the
  program break.  Regions are well placed from the start.

  Key definitions include:
    * `Region.Undisturbed`
    * `Region.SameButBytes`
    * `Region.firstRefusal`

  Key theorems include:
    * `Region.WellPlaced.grow_cases`
    * `Region.SameButBytes.firstRefusal_eq`
    * `Region.WellPlaced.moveBreak`
    * `Region.reserve_wellPlaced`
    * `Region.anchor_wellPlaced`
-/

namespace SegregatedFit

namespace Region

/- The bytes and their address are as before. -/
structure Undisturbed
    (r next : Region) : Prop where
  memory_eq : next.memory = r.memory
  base_eq : next.base = r.base
  placed : next.WellPlaced

/- The region has grown by zero bytes at its end. -/
structure Grown
    (r next : Region)
    (increment : Nat) : Prop where
  memory_eq : next.memory = r.memory.extend increment
  base_eq : next.base = r.base
  placed : next.WellPlaced

variable {r next : Region}

/- Regions stay well placed with other bytes. -/
theorem WellPlaced.withMemory
    {m : Memory}
    (h : r.WellPlaced)
    (hSize : m.size = r.memory.size) :
    ({ r with memory := m } : Region).WellPlaced := by
  unfold WellPlaced stop size at h ⊢
  rw [hSize]
  exact h

/- A well placed region ends at a word. -/
theorem WellPlaced.size_lt
    (h : r.WellPlaced) :
    r.base + r.memory.size < Word.limit :=
  h.2.1

/- Asked for more bytes, a source gives them or turns down. -/
theorem WellPlaced.extend_cases
    (h : r.WellPlaced)
    (increment : Nat) :
    (∃ error next,
        r.extend increment = (.error error, next) ∧
          r.Undisturbed next) ∨
      ∃ next,
        r.extend increment = (.ok r.memory.size, next) ∧
          r.Grown next increment := by
  rcases r with ⟨m, base, source, refusals, growths⟩
  rcases h with ⟨hBase, hStop, hSource⟩
  unfold stop size at hStop
  dsimp only at hBase hStop
  cases source with
  | reservation capacity =>
      unfold size at hSource
      dsimp only at hSource
      unfold extend size
      dsimp only
      by_cases hRoom : m.size + increment ≤ capacity
      · right
        rw [if_pos hRoom]
        refine ⟨_, rfl, rfl, rfl, hBase, ?_, ?_, hSource.2⟩
        · unfold stop size
          dsimp only
          rw [Memory.size_extend]
          omega
        · unfold size
          dsimp only
          rw [Memory.size_extend]
          exact hRoom
      · left
        rw [if_neg hRoom]
        exact ⟨_, _, rfl, rfl, rfl, hBase, hStop, hSource⟩
  | programBreak position limit =>
      unfold stop size at hSource
      dsimp only at hSource
      unfold extend stop size
      dsimp only
      by_cases hRefused : displacementLimit ≤ increment ∨
          limit ≤ increment ∨
            Word.limit ≤ position + increment ∨
              position = Word.limit - 1
      · left
        rw [if_pos hRefused]
        exact ⟨_, _, rfl, rfl, rfl, hBase, hStop, hSource⟩
      · rw [if_neg hRefused]
        by_cases hJoins : position = base + m.size
        · right
          rw [if_pos hJoins]
          refine ⟨_, rfl, rfl, rfl, hBase, ?_, ?_⟩
          · unfold stop size
            dsimp only
            rw [Memory.size_extend]
            omega
          · unfold stop size
            dsimp only
            rw [Memory.size_extend]
            omega
        · left
          rw [if_neg hJoins]
          refine ⟨_, _, rfl, rfl, rfl, hBase, hStop, ?_⟩
          unfold stop size
          dsimp only
          omega

/-
  Asked to grow, a region grows by zero bytes or keeps what
  it has.
-/
theorem WellPlaced.grow_cases
    (h : r.WellPlaced)
    (increment : Nat) :
    (∃ error next,
        r.grow increment = (.error error, next) ∧
          r.Undisturbed next) ∨
      ∃ next,
        r.grow increment = (.ok r.memory.size, next) ∧
          r.Grown next increment := by
  unfold grow
  dsimp only
  cases hRefusal : r.refusals r.growths with
  | some refusal =>
      left
      exact ⟨_, _, rfl, rfl, rfl, h⟩
  | none =>
      have hCounted :
          ({ r with growths := r.growths + 1 } :
            Region).WellPlaced := h
      rcases hCounted.extend_cases increment with hBad | hGood
      · left
        rcases hBad with ⟨error, next, hEq, hSame⟩
        exact ⟨error, next, hEq, hSame.memory_eq,
          hSame.base_eq, hSame.placed⟩
      · right
        rcases hGood with ⟨next, hEq, hMore⟩
        exact ⟨next, hEq, hMore.memory_eq, hMore.base_eq,
          hMore.placed⟩

/- Regions stay well placed when they are asked to grow. -/
theorem WellPlaced.grow
    (h : r.WellPlaced)
    (increment : Nat) :
    (r.grow increment).2.WellPlaced := by
  rcases h.grow_cases increment with hBad | hGood
  · rcases hBad with ⟨error, next, hGrow, hSame⟩
    rw [hGrow]
    exact hSame.placed
  · rcases hGood with ⟨next, hGrow, hMore⟩
    rw [hGrow]
    exact hMore.placed

/- Other code that moves the break leaves the bytes alone. -/
theorem WellPlaced.moveBreak
    {displacement : Int}
    (h : r.WellPlaced)
    (hMove : r.moveBreak displacement = some next) :
    r.Undisturbed next := by
  rcases r with ⟨m, base, source, refusals, growths⟩
  rcases h with ⟨hBase, hStop, _⟩
  unfold Region.moveBreak at hMove
  cases source with
  | reservation capacity => cases hMove
  | programBreak position limit =>
      dsimp only at hMove
      split at hMove
      · rename_i hMoved
        cases hMove
        refine ⟨rfl, rfl, hBase, hStop, ?_⟩
        unfold stop size at hMoved ⊢
        dsimp only at hMoved ⊢
        omega
      · cases hMove

/- Every growth is counted, whether it is granted or not. -/
theorem growths_grow
    (r : Region)
    (increment : Nat) :
    (r.grow increment).2.growths = r.growths + 1 := by
  have hExtend : ∀ s : Region,
      (s.extend increment).2.growths = s.growths := by
    intro s
    unfold extend
    cases s.source with
    | reservation capacity =>
        dsimp only
        split
        · rfl
        · rfl
    | programBreak position limit =>
        dsimp only
        split
        · rfl
        · split
          · rfl
          · rfl
  unfold grow
  cases r.refusals r.growths with
  | some refusal => rfl
  | none => exact hExtend _

------------------------------------------------------------
-- Regions with Other Bytes
------------------------------------------------------------

/- Two regions differ in nothing but their bytes, as many. -/
structure SameButBytes
    (r s : Region) : Prop where
  same : ∃ m, s = { r with memory := m }
  size_eq : s.memory.size = r.memory.size

namespace SameButBytes

variable {r s : Region}

/- Regions that differ in their bytes only do so all together. -/
theorem trans
    {t : Region}
    (h : r.SameButBytes s)
    (h' : s.SameButBytes t) :
    r.SameButBytes t := by
  rcases h with ⟨⟨m, rfl⟩, hSize⟩
  rcases h' with ⟨⟨n, rfl⟩, hSize'⟩
  exact ⟨⟨n, rfl⟩, hSize'.trans hSize⟩

/- They were asked to grow equally often. -/
theorem growths_eq
    (h : r.SameButBytes s) :
    s.growths = r.growths := by
  rcases h.same with ⟨m, rfl⟩
  rfl

/- A source does not look at the bytes. -/
theorem extend
    (h : r.SameButBytes s)
    (increment : Nat) :
    (s.extend increment).1 = (r.extend increment).1 ∧
      (r.extend increment).2.SameButBytes
        (s.extend increment).2 := by
  rcases r with ⟨m, base, source, refusals, growths⟩
  rcases h with ⟨⟨n, rfl⟩, hSize⟩
  dsimp only at hSize
  have hMore : (n.extend increment).size =
      (m.extend increment).size := by
    rw [Memory.size_extend, Memory.size_extend, hSize]
  unfold Region.extend Region.stop Region.size
  dsimp only
  rw [hSize]
  cases source with
  | reservation capacity =>
      dsimp only
      split
      · exact ⟨rfl, ⟨n.extend increment, rfl⟩, hMore⟩
      · exact ⟨rfl, ⟨n, rfl⟩, hSize⟩
  | programBreak position limit =>
      dsimp only
      split
      · exact ⟨rfl, ⟨n, rfl⟩, hSize⟩
      · split
        · exact ⟨rfl, ⟨n.extend increment, rfl⟩, hMore⟩
        · exact ⟨rfl, ⟨n, rfl⟩, hSize⟩

/- Whether a region grows does not depend on its bytes. -/
theorem grow
    (h : r.SameButBytes s)
    (increment : Nat) :
    (s.grow increment).1 = (r.grow increment).1 ∧
      (r.grow increment).2.SameButBytes
        (s.grow increment).2 := by
  rcases r with ⟨m, base, source, refusals, growths⟩
  rcases h with ⟨⟨n, rfl⟩, hSize⟩
  unfold Region.grow
  dsimp only
  cases refusals growths with
  | some refusal => exact ⟨rfl, ⟨n, rfl⟩, hSize⟩
  | none =>
      have hCounted : SameButBytes
          ⟨m, base, source, refusals, growths + 1⟩
          ⟨n, base, source, refusals, growths + 1⟩ :=
        ⟨⟨n, rfl⟩, hSize⟩
      exact hCounted.extend increment

/- Nor does it matter for a break that other code moves. -/
theorem moveBreak
    (h : r.SameButBytes s)
    (displacement : Int) :
    (r.moveBreak displacement = none ∧
      s.moveBreak displacement = none) ∨
    ∃ next next',
      r.moveBreak displacement = some next ∧
        s.moveBreak displacement = some next' ∧
        next.SameButBytes next' := by
  rcases r with ⟨m, base, source, refusals, growths⟩
  rcases h with ⟨⟨n, rfl⟩, hSize⟩
  dsimp only at hSize
  unfold Region.moveBreak Region.stop Region.size
  dsimp only
  rw [hSize]
  cases source with
  | reservation capacity => exact Or.inl ⟨rfl, rfl⟩
  | programBreak position limit =>
      dsimp only
      split
      · exact Or.inr ⟨_, _, rfl, rfl, ⟨n, rfl⟩, hSize⟩
      · exact Or.inl ⟨rfl, rfl⟩

end SameButBytes

------------------------------------------------------------
-- Growths in a Row
------------------------------------------------------------

/-
  Which one of several growths in a row is refused first, and
  with which error.
-/
def firstRefusal
    (r : Region) :
    List Nat → Option (Nat × Error)
| [] => none
| increment :: later =>
    match r.grow increment with
    | (.error error, _) => some (0, error)
    | (.ok _, next) =>
        (next.firstRefusal later).map (fun refusal =>
          (refusal.1 + 1, refusal.2))

variable {increment : Nat}

/- The first growth may be the one that is refused. -/
theorem firstRefusal_refused
    {error : Error}
    (h : r.grow increment = (.error error, next))
    (later : List Nat) :
    r.firstRefusal (increment :: later) = some (0, error) := by
  unfold firstRefusal
  rw [h]

/- If it is granted, the later ones decide. -/
theorem firstRefusal_granted
    {offset : Nat}
    (h : r.grow increment = (.ok offset, next))
    (later : List Nat) :
    r.firstRefusal (increment :: later) =
      (next.firstRefusal later).map (fun refusal =>
        (refusal.1 + 1, refusal.2)) := by
  rw [firstRefusal, h]

/- The error is one that a growth can give. -/
theorem error_of_firstRefusal
    {increments : List Nat}
    {index : Nat}
    {error : Error}
    (h : r.firstRefusal increments = some (index, error)) :
    (∃ requested, error = .outOfMemory requested) ∨
      error = .discontiguous := by
  induction increments generalizing r index with
  | nil => cases h
  | cons increment later ih =>
      unfold firstRefusal at h
      split at h
      · rename_i hGrow
        cases h
        rcases error_of_grow hGrow with hMemory | hBreak
        · exact Or.inl ⟨increment, hMemory⟩
        · exact Or.inr hBreak
      · rw [Option.map_eq_some_iff] at h
        rcases h with ⟨⟨_, _⟩, hLater, hEq⟩
        cases hEq
        exact ih hLater

/- Which growth is refused does not depend on the bytes. -/
theorem SameButBytes.firstRefusal_eq
    {r s : Region}
    (h : r.SameButBytes s)
    (increments : List Nat) :
    s.firstRefusal increments = r.firstRefusal increments := by
  induction increments generalizing r s with
  | nil => rfl
  | cons increment later ih =>
      rcases h.grow increment with ⟨hAnswer, hNext⟩
      unfold firstRefusal
      cases hLeft : r.grow increment with
      | mk answer next =>
          cases hRight : s.grow increment with
          | mk answer' next' =>
              rw [hLeft, hRight] at hAnswer hNext
              dsimp only at hAnswer hNext
              subst hAnswer
              cases answer' with
              | error error => rfl
              | ok offset =>
                  dsimp only
                  rw [ih hNext]

------------------------------------------------------------
-- Beginnings
------------------------------------------------------------

/- A reservation is well placed if the host gives it addresses. -/
theorem reserve_wellPlaced
    {host : Host}
    {capacity : Nat}
    (hAligned : host.reservationAddress % doubleWord = 0)
    (hRoom :
      host.reservationAddress + capacity < Word.limit)
    (h : reserve host capacity = .ok r) :
    r.WellPlaced := by
  unfold reserve at h
  split at h
  · cases h
  split at h
  · cases h
  split at h
  · cases h
  cases h
  exact ⟨hAligned, Nat.lt_of_le_of_lt
    (Nat.le_add_right _ _) hRoom, Nat.zero_le capacity, hRoom⟩

/- A region at the program break is well placed. -/
theorem anchor_wellPlaced
    {host : Host}
    (h : anchor host = .ok r) :
    r.WellPlaced := by
  rw [anchor_eq_ok_iff] at h
  rcases h with ⟨padding, hPadding, hWord, rfl⟩
  exact ⟨Word.padding_mod hPadding, hWord, Nat.le_refl _⟩

end Region

end SegregatedFit
