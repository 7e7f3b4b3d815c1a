import SegregatedFit.Allocator.Operations
import SegregatedFit.Proofs.Allocator.Sizes

/-
  What is reported while a block is asked for.

  A run of a computation is the events it has reported and the
  result it has come to (`Traced.Runs`).  Runs are taken apart
  along the computation, so that the events of a request can
  be told from how it ends.

  A request that is granted reports nothing of importance.
  One that comes too early or is refused by the region reports
  its cause and nothing else.  One that is too large for any
  block reports nothing at all.

  Key definitions include:
    * `Traced.Runs`
    * `Event.Quiet`
    * `Allocator.Ends`

  Key theorems include:
    * `Traced.runs_bind_iff`
    * `Allocator.ends_of_allocate`
    * `Allocator.ends_of_resize`
-/

namespace SegregatedFit

------------------------------------------------------------
-- Runs
------------------------------------------------------------

namespace Traced

variable {α β : Type}
variable {events : List Event}

/- The computation reports the events and comes to the result. -/
def Runs
    (x : Traced α)
    (events : List Event)
    (a : α) : Prop :=
  x.events = events ∧ x.outcome = .ok a

/- A computation without events comes to its result. -/
theorem runs_pure_iff
    {a b : α} :
    (pure a : Traced α).Runs events b ↔
      events = [] ∧ a = b := by
  change [] = events ∧ Except.ok a = Except.ok b ↔ _
  rw [Except.ok.injEq, eq_comm (a := events)]

/- Two computations in a row report their events in a row. -/
theorem runs_bind_iff
    {x : Traced α}
    {f : α → Traced β}
    {b : β} :
    (x >>= f).Runs events b ↔
      ∃ front a back,
        x.Runs front a ∧ (f a).Runs back b ∧
          events = front ++ back := by
  constructor
  · intro h
    rcases outcome_bind_eq_ok_iff.1 h.2 with ⟨a, hFirst, hRest⟩
    have hEvents := events_bind_of_ok hFirst (f := f)
    exact ⟨_, a, _, ⟨rfl, hFirst⟩, ⟨rfl, hRest⟩,
      h.1.symm.trans hEvents⟩
  · rintro ⟨front, a, back, hFirst, hRest, rfl⟩
    refine ⟨?_, ?_⟩
    · rw [events_bind_of_ok hFirst.2, hFirst.1, hRest.1]
    · rw [outcome_bind_of_ok hFirst.2, hRest.2]

/- What reports nothing is followed by what comes behind it. -/
theorem runs_lift_bind_iff
    {x : Except Fault α}
    {f : α → Traced β}
    {b : β} :
    ((liftM x : Traced α) >>= f).Runs events b ↔
      ∃ a, x = .ok a ∧ (f a).Runs events b := by
  rw [runs_bind_iff]
  constructor
  · rintro ⟨_, a, back, ⟨rfl, hFirst⟩, hRest, rfl⟩
    exact ⟨a, hFirst, hRest⟩
  · rintro ⟨a, hFirst, hRest⟩
    exact ⟨[], a, events, ⟨rfl, hFirst⟩, hRest, rfl⟩

/- A report comes in front of what is reported behind it. -/
theorem runs_report_bind_iff
    {event : Event}
    {f : Unit → Traced β}
    {b : β} :
    (report event >>= f).Runs events b ↔
      ∃ back, (f ()).Runs back b ∧ events = event :: back := by
  rw [runs_bind_iff]
  constructor
  · rintro ⟨_, _, back, ⟨rfl, _⟩, hRest, rfl⟩
    exact ⟨back, hRest, rfl⟩
  · rintro ⟨back, hRest, rfl⟩
    exact ⟨[event], (), back, ⟨rfl, rfl⟩, hRest, rfl⟩

end Traced

------------------------------------------------------------
-- Events without Importance
------------------------------------------------------------

namespace Event

/- None of the events is a warning. -/
def Quiet
    (events : List Event) : Prop :=
  ∀ event ∈ events, event.level ≠ .warn

/- Where nothing is reported, nothing is a warning. -/
@[simp] theorem quiet_nil :
    Quiet [] := by
  simp [Quiet]

/- The first event is no warning, and none behind it is. -/
@[simp] theorem quiet_cons_iff
    {event : Event}
    {events : List Event} :
    Quiet (event :: events) ↔
      event.level ≠ .warn ∧ Quiet events := by
  simp [Quiet]

/- Both parts are without warnings. -/
@[simp] theorem quiet_append_iff
    {events later : List Event} :
    Quiet (events ++ later) ↔ Quiet events ∧ Quiet later := by
  simp [Quiet, or_imp, forall_and]

end Event

------------------------------------------------------------
-- Parts of a Request
------------------------------------------------------------

namespace Allocator

variable {a next : Allocator}
variable {table : SentinelTable}
variable {events : List Event}
variable {size adjusted bp : Nat}

/-
  A heap that does not grow reports nothing, and one that
  grows reports by how much.
-/
theorem cases_of_extend
    {answer : Except Error Nat}
    (hMod : size % doubleWord = 0)
    (h : (a.extend table (size / wordSize)).Runs events
      (answer, next)) :
    next.table = a.table ∧
      ((∃ error,
        answer = .error error ∧ events = [] ∧
          (a.region.grow size).1 = .error error) ∨
        ∃ start heapSize,
          answer = .ok start ∧
            events = [.extended size heapSize]) := by
  unfold extend at h
  rw [Traced.runs_lift_bind_iff] at h
  rcases h with ⟨bytes, hBytes, h⟩
  obtain rfl := ((evenBytes_eq_ok_iff hMod).1 hBytes).2
  split at h
  · rename_i error region hGrow
    rw [Traced.runs_pure_iff] at h
    rcases h with ⟨rfl, hAnswer⟩
    cases hAnswer
    exact ⟨rfl, Or.inl ⟨error, rfl, rfl,
      congrArg Prod.fst hGrow⟩⟩
  · simp only [Traced.runs_lift_bind_iff,
      Traced.runs_report_bind_iff, Traced.runs_pure_iff] at h
    rcases h with
      ⟨m, _, _, _, back, ⟨⟨_, start⟩, _, rfl, hAnswer⟩, rfl⟩
    cases hAnswer
    exact ⟨rfl, Or.inr ⟨start, m.size, rfl, rfl⟩⟩

/-
  If no free block is found, nothing is reported and the
  region has refused to grow.
-/
theorem cases_of_freeBlockFor
    {answer : Except Error Nat}
    (hMod : adjusted % doubleWord = 0)
    (h : (a.freeBlockFor table adjusted).Runs events
      (answer, next)) :
    next.table = a.table ∧
      ((∃ error,
        answer = .error error ∧ events = [] ∧
          (a.region.grow
            (max adjusted a.config.chunkSize)).1 =
              .error error) ∨
        ∃ start, answer = .ok start ∧ Event.Quiet events) := by
  unfold freeBlockFor at h
  rw [Traced.runs_lift_bind_iff] at h
  rcases h with ⟨found, _, h⟩
  cases found with
  | some bp =>
      rcases Traced.runs_pure_iff.1 h with ⟨rfl, hAnswer⟩
      cases hAnswer
      exact ⟨rfl, Or.inr ⟨bp, rfl, Event.quiet_nil⟩⟩
  | none =>
      have hGrowthMod :=
        Config.max_mod_of_validate a.config_valid hMod
      rcases cases_of_extend hGrowthMod h with
        ⟨hTable, hRefused | hGrown⟩
      · exact ⟨hTable, Or.inl hRefused⟩
      · rcases hGrown with ⟨start, heapSize, hAnswer, rfl⟩
        exact ⟨hTable, Or.inr ⟨start, hAnswer, by
          simp [Event.level]⟩⟩

/- Handing out a block is reported without warnings. -/
theorem quiet_of_handOut
    (h : (a.handOut table size adjusted bp).Runs events next) :
    next.table = a.table ∧ Event.Quiet events := by
  unfold handOut at h
  rw [Traced.runs_lift_bind_iff] at h
  rcases h with ⟨⟨m, remainder⟩, _, h⟩
  cases remainder with
  | none =>
      simp only [Traced.runs_lift_bind_iff,
        Traced.runs_report_bind_iff, Traced.runs_pure_iff] at h
      rcases h with ⟨_, _, _, ⟨rfl, rfl⟩, rfl⟩
      exact ⟨rfl, by simp [Event.level]⟩
  | some rest =>
      simp only [Traced.runs_lift_bind_iff,
        Traced.runs_report_bind_iff, Traced.runs_pure_iff] at h
      rcases h with ⟨_, ⟨_, _, _, ⟨rfl, rfl⟩, rfl⟩, rfl⟩
      exact ⟨rfl, by simp [Event.level]⟩

/- In a heap that is laid out a block is freed without warnings. -/
theorem quiet_of_free
    (hTable : a.table = some table)
    (h : (a.free (some { offset := bp })).Runs events next) :
    Event.Quiet events := by
  unfold free at h
  simp only [hTable, Traced.runs_lift_bind_iff,
    Traced.runs_report_bind_iff, Traced.runs_pure_iff] at h
  rcases h with ⟨_, _, _, _, _, _, _, _, _, ⟨rfl, _⟩, rfl⟩
  simp [Event.level]

------------------------------------------------------------
-- Requests
------------------------------------------------------------

/-
  How a request for a number of bytes ends and what it
  reports, if a request that comes too early reports the
  event `early`.
-/
inductive Ends
    (a : Allocator)
    (early : Event)
    (requested : Nat) :
    List Event → Option Address → Prop
| tooEarly (table_eq : a.table = none) :
    Ends a early requested [early] none
| tooLarge (initialized : a.table ≠ none)
    (large : Word.limit ≤ requested + 2 * doubleWord) :
    Ends a early requested [] none
| refused {error : Error} (initialized : a.table ≠ none)
    (small : requested + 2 * doubleWord < Word.limit)
    (refusal :
      (a.region.grow
        (max (Request.sizeFor (Request.rounded requested))
          a.config.chunkSize)).1 = .error error) :
    Ends a early requested
      [.allocationFailed (Request.rounded requested) error] none
| granted {events : List Event} {address : Address}
    (initialized : a.table ≠ none)
    (quiet : Event.Quiet events) :
    Ends a early requested events (some address)

/-
  An allocation ends in one of these ways, and a heap that is
  laid out stays so.
-/
theorem ends_of_allocate
    {early : Event}
    {address : Option Address}
    (hEarly : a.table = none →
      early = .allocationBeforeInit size)
    (hSize : size ≠ 0)
    (h : (a.allocate size).Runs events (address, next)) :
    next.table = a.table ∧ a.Ends early size events address := by
  unfold allocate at h
  rw [if_neg hSize] at h
  cases hTable : a.table with
  | none =>
      simp only [hTable, Traced.runs_report_bind_iff,
        Traced.runs_pure_iff] at h
      rcases h with ⟨_, ⟨rfl, hAnswer⟩, rfl⟩
      cases hAnswer
      rw [← hEarly hTable]
      exact ⟨hTable, .tooEarly hTable⟩
  | some table =>
      have hInitialized : a.table ≠ none := by
        simp [hTable]
      simp only [hTable, Traced.runs_lift_bind_iff] at h
      rcases h with ⟨found, hFound, h⟩
      -- Whether there is a block is the same before rounding.
      cases found with
      | none =>
          rw [Request.blockSize?_eq_none_iff,
            Request.rounded_lt_iff] at hFound
          rcases Traced.runs_pure_iff.1 h with ⟨rfl, hAnswer⟩
          cases hAnswer
          exact ⟨hTable, .tooLarge hInitialized
            (Nat.le_of_not_lt hFound)⟩
      | some adjusted =>
          rw [Request.blockSize?_eq_some_iff,
            Request.rounded_lt_iff] at hFound
          rcases hFound with ⟨hSmall, rfl⟩
          rw [Traced.runs_bind_iff] at h
          rcases h with
            ⟨front, ⟨answer, ready⟩, back, hFree, h, rfl⟩
          have hMod := Request.sizeFor_mod (Request.rounded size)
          rcases cases_of_freeBlockFor hMod hFree with
            ⟨hReady, hRefused | hFound⟩
          · rcases hRefused with ⟨error, rfl, rfl, hGrow⟩
            dsimp only at h
            simp only [Traced.runs_report_bind_iff,
              Traced.runs_pure_iff] at h
            rcases h with ⟨_, ⟨rfl, hAnswer⟩, rfl⟩
            cases hAnswer
            exact ⟨hReady.trans hTable,
              .refused hInitialized hSmall hGrow⟩
          · rcases hFound with ⟨start, rfl, hQuiet⟩
            dsimp only at h
            rw [Traced.runs_bind_iff] at h
            rcases h with
              ⟨events, last, _, hHand, h, rfl⟩
            rcases Traced.runs_pure_iff.1 h with ⟨rfl, hAnswer⟩
            cases hAnswer
            rcases quiet_of_handOut hHand with ⟨hLast, hQuiet'⟩
            exact ⟨hLast.trans (hReady.trans hTable),
              .granted hInitialized (by simp [hQuiet, hQuiet'])⟩

/-
  A request that is too large for any block has no effect and
  no event.
-/
theorem allocate_of_large
    (hInitialized : a.table ≠ none)
    (hLarge : Word.limit ≤ size + 2 * doubleWord) :
    a.allocate size = pure (none, a) := by
  have hSizes := Word.sizes_eq
  have hFound :
      Request.blockSize? (Request.rounded size) = .ok none := by
    rw [Request.blockSize?_eq_none_iff, Request.rounded_lt_iff]
    exact Nat.not_lt.2 hLarge
  unfold allocate
  rw [if_neg (by omega)]
  cases hTable : a.table with
  | none => exact absurd hTable hInitialized
  | some table => exact Traced.lift_bind_of_ok _ hFound

/- Nor has a resize to such a size, be the block large or small. -/
theorem resize_of_large
    {address : Option Address}
    (hInitialized : a.table ≠ none)
    (hLarge : Word.limit ≤ size + 2 * doubleWord) :
    a.resize address size = pure (none, a) := by
  have hSizes := Word.sizes_eq
  have hFound : Request.blockSize? size = .ok none :=
    Request.blockSize?_eq_none_iff.2 (Nat.not_lt.2 hLarge)
  unfold resize
  rw [if_neg (by omega)]
  cases address with
  | none => exact allocate_of_large hInitialized hLarge
  | some address =>
      have hTable : a.isInitialized = true := by
        simpa [isInitialized, Option.isSome_iff_ne_none]
          using hInitialized
      dsimp only
      rw [if_pos hTable]
      exact Traced.lift_bind_of_ok _ hFound

/-
  A block that has to move ends like a request for its new
  size times the multiplier.
-/
theorem ends_of_relocate
    {early : Event}
    {blockSize : Nat}
    {address : Option Address}
    (hInitialized : a.table ≠ none)
    (hSize : size ≠ 0)
    (h : (a.relocate bp blockSize size).Runs events
      (address, next)) :
    a.Ends early (size * a.config.resizeMultiplier) events
      address := by
  have hMultiplier :=
    (Config.validate_eq_ok_iff.1 a.config_valid).2.2
  have hRequest : size * a.config.resizeMultiplier ≠ 0 :=
    Nat.mul_ne_zero hSize (Nat.ne_of_gt hMultiplier)
  unfold relocate at h
  rw [Traced.runs_lift_bind_iff] at h
  rcases h with ⟨usable, _, h⟩
  dsimp only at h
  split at h
  · rw [Traced.runs_bind_iff] at h
    rcases h with
      ⟨front, ⟨target, served⟩, back, hAllocate, h, rfl⟩
    rcases ends_of_allocate
        (fun hTable => absurd hTable hInitialized)
        hRequest hAllocate with
      ⟨hServed, hEnds⟩
    cases target with
    | none =>
        rcases Traced.runs_pure_iff.1 h with ⟨rfl, hAnswer⟩
        cases hAnswer
        rw [List.append_nil]
        exact hEnds
    | some target =>
        cases hEnds with
        | granted _ hQuiet =>
            -- The old block is freed in a heap still laid out.
            cases hTable : a.table with
            | none => exact absurd hTable hInitialized
            | some table =>
                rw [Traced.runs_lift_bind_iff] at h
                rcases h with ⟨m, _, h⟩
                rw [Traced.runs_bind_iff] at h
                rcases h with
                  ⟨freeing, _, _, hFree, h, rfl⟩
                have hLaidOut :
                    (served.withMemory m).table = some table :=
                  hServed.trans hTable
                have hQuiet' := quiet_of_free hLaidOut hFree
                simp only [Traced.runs_report_bind_iff,
                  Traced.runs_pure_iff] at h
                rcases h with ⟨_, ⟨rfl, hAnswer⟩, rfl⟩
                cases hAnswer
                exact .granted hInitialized (by
                  simp [hQuiet, hQuiet', Event.level])
  · rename_i hLarge
    rcases Traced.runs_pure_iff.1 h with ⟨rfl, hAnswer⟩
    cases hAnswer
    exact .tooLarge hInitialized (by omega)

/- So does a resize to some bytes, unless the block is kept. -/
theorem ends_of_resize
    {address : Option Address}
    (hSize : size ≠ 0)
    (h : (a.resize (some { offset := bp }) size).Runs events
      (address, next)) :
    a.Ends (.resizeBeforeInit bp size)
      (size * a.config.resizeMultiplier) events address := by
  unfold resize at h
  rw [if_neg hSize] at h
  dsimp only at h
  split at h
  · rename_i hTable
    have hInitialized : a.table ≠ none := by
      simpa [isInitialized, Option.isSome_iff_ne_none]
        using hTable
    rw [Traced.runs_lift_bind_iff] at h
    rcases h with ⟨found, hFound, h⟩
    cases found with
    | none =>
        -- The multiplier makes a large request no smaller.
        have hMultiplier :=
          (Config.validate_eq_ok_iff.1 a.config_valid).2.2
        have hLe := Nat.le_mul_of_pos_right size hMultiplier
        rw [Request.blockSize?_eq_none_iff] at hFound
        rcases Traced.runs_pure_iff.1 h with ⟨rfl, hAnswer⟩
        cases hAnswer
        exact .tooLarge hInitialized (by omega)
    | some adjusted =>
        rw [Traced.runs_lift_bind_iff] at h
        rcases h with ⟨tag, _, h⟩
        split at h
        · simp only [Traced.runs_report_bind_iff,
            Traced.runs_pure_iff] at h
          rcases h with ⟨_, ⟨rfl, hAnswer⟩, rfl⟩
          cases hAnswer
          exact .granted hInitialized (by simp [Event.level])
        · exact ends_of_relocate hInitialized hSize h
  · rename_i hTable
    have hNone : a.table = none := by
      simpa [isInitialized] using hTable
    simp only [Traced.runs_report_bind_iff,
      Traced.runs_pure_iff] at h
    rcases h with ⟨_, ⟨rfl, hAnswer⟩, rfl⟩
    cases hAnswer
    exact .tooEarly hNone

end Allocator

end SegregatedFit
