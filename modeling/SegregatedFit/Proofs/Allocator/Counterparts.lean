import SegregatedFit.Allocator.Operations
import SegregatedFit.Allocator.Payload
import SegregatedFit.Proofs.Region.Growth

/-
  Two allocators with the same bytes in different regions.

  Only growths ask a region for more than its bytes.  As long
  as no growth is refused on either side, counterparts do the
  same, whatever bytes they have: they report the same
  events, give the same answers, fault alike, and stay
  counterparts.

  Key definitions include:
    * `Event.isRefusal`, `Traced.TellsRefusal`
    * `Traced.Mirrors`
    * `Allocator.Counterparts`

  Key theorems include:
    * `Allocator.Counterparts.extend`
    * `Allocator.Counterparts.init`
    * `Allocator.Counterparts.allocate`
    * `Allocator.Counterparts.resize`
-/

namespace SegregatedFit

/- A request failed because the heap was refused to grow. -/
def Event.isRefusal :
    Event → Bool
| .allocationFailed _ _ => true
| _ => false

------------------------------------------------------------
-- Computations That Mirror Each Other
------------------------------------------------------------

namespace Traced

/-
  Both computations report the same events, and then both end
  in the same fault, or both succeed with related results.
-/
inductive Mirrors
    {α β : Type}
    (R : α → β → Prop) :
    Traced α → Traced β → Prop where
  | ok
      (events : List Event)
      {a : α}
      {b : β}
      (related : R a b) :
      Mirrors R
        { events := events, outcome := .ok a }
        { events := events, outcome := .ok b }
  | fault
      (events : List Event)
      (fault : Fault) :
      Mirrors R
        { events := events, outcome := .error fault }
        { events := events, outcome := .error fault }

/- A growth was refused on behalf of a request. -/
def TellsRefusal
    {α : Type}
    (x : Traced α) : Prop :=
  ∃ event ∈ x.events, event.isRefusal = true

variable {α β γ δ : Type}

/- Later parts of a computation take no event back. -/
theorem TellsRefusal.bind
    {x : Traced α}
    (h : x.TellsRefusal)
    (f : α → Traced β) :
    (x >>= f).TellsRefusal := by
  rcases h with ⟨event, hEvent, hRefusal⟩
  refine ⟨event, ?_, hRefusal⟩
  cases hOutcome : x.outcome with
  | error fault =>
      rw [bind_of_error hOutcome]
      exact hEvent
  | ok a =>
      rw [events_bind_of_ok hOutcome]
      exact List.mem_append_left _ hEvent

namespace Mirrors

variable {R : α → β → Prop}
variable {S : γ → δ → Prop}
variable {x : Traced α}
variable {y : Traced β}

/- Results alone mirror each other if they are related. -/
theorem pure
    {a : α}
    {b : β}
    (h : R a b) :
    Mirrors R (Pure.pure a) (Pure.pure b) :=
  ok [] h

/- Sequences mirror each other if their parts do. -/
theorem bind
    {f : α → Traced γ}
    {g : β → Traced δ}
    (h : Mirrors R x y)
    (hNext : ∀ a b, R a b → Mirrors S (f a) (g b)) :
    Mirrors S (x >>= f) (y >>= g) := by
  cases h with
  | fault events fault => exact .fault events fault
  | @ok events a b related =>
      have hRest := hNext a b related
      rw [bind_of_eq f rfl, bind_of_eq g rfl]
      generalize f a = first at hRest ⊢
      generalize g b = second at hRest ⊢
      cases hRest with
      | ok later results => exact .ok (events ++ later) results
      | fault later fault => exact .fault (events ++ later) fault

/- Both may go on with the result of the same part. -/
theorem lift_bind
    {f : α → Traced γ}
    {g : α → Traced δ}
    (x : Except Fault α)
    (h : ∀ a, x = .ok a → Mirrors S (f a) (g a)) :
    Mirrors S ((liftM x : Traced α) >>= f)
      ((liftM x : Traced α) >>= g) := by
  cases x with
  | error fault => exact .fault [] fault
  | ok a =>
      rw [lift_bind_of_ok f rfl, lift_bind_of_ok g rfl]
      exact h a rfl

/- Both may report the same event first. -/
theorem report_bind
    {f : Unit → Traced γ}
    {g : Unit → Traced δ}
    (event : Event)
    (h : Mirrors S (f ()) (g ())) :
    Mirrors S (report event >>= f) (report event >>= g) := by
  rw [Traced.report_bind, Traced.report_bind]
  generalize f () = first at h ⊢
  generalize g () = second at h ⊢
  cases h with
  | ok events results => exact .ok (event :: events) results
  | fault events fault => exact .fault (event :: events) fault

/- What is known of mirrored computations that succeed. -/
theorem of_outcomes
    {a : α}
    {b : β}
    (h : Mirrors R x y)
    (hLeft : x.outcome = .ok a)
    (hRight : y.outcome = .ok b) :
    x.events = y.events ∧ R a b := by
  cases h with
  | ok events related =>
      cases hLeft
      cases hRight
      exact ⟨rfl, related⟩
  | fault events fault => cases hLeft

end Mirrors

end Traced

------------------------------------------------------------
-- Counterparts
------------------------------------------------------------

/-
  Of two regions with the same bytes one refuses to grow, or
  both grow by the same bytes.
-/
theorem Region.grow_both
    {r s : Region}
    (hMemory : s.memory = r.memory)
    (increment : Nat) :
    (∃ error next, r.grow increment = (.error error, next)) ∨
    (∃ error next, s.grow increment = (.error error, next)) ∨
    ∃ next next',
      r.grow increment = (.ok r.size, next) ∧
        s.grow increment = (.ok r.size, next') ∧
        next'.memory = next.memory := by
  have hSize : s.size = r.size := by
    unfold size
    rw [hMemory]
  cases hGrow : r.grow increment with
  | mk answer next =>
      cases answer with
      | error error => exact Or.inl ⟨error, next, rfl⟩
      | ok offset =>
          right
          cases hGrow' : s.grow increment with
          | mk answer' next' =>
              cases answer' with
              | error error => exact Or.inl ⟨error, next', rfl⟩
              | ok offset' =>
                  right
                  rcases grow_ok hGrow with ⟨_, _, rfl, hNext, _⟩
                  rcases grow_ok hGrow' with
                    ⟨_, _, rfl, hNext', _⟩
                  refine ⟨next, next', rfl, by rw [hSize], ?_⟩
                  rw [hNext, hNext']
                  dsimp only
                  rw [hMemory]

namespace Allocator

/- Two allocators differ in nothing but where their bytes are. -/
def Counterparts
    (a b : Allocator) : Prop :=
  ∃ region : Region,
    region.memory = a.region.memory ∧
      b = { a with region := region }

/- Two answers are the same, and counterparts gave them. -/
def SameReply
    {α : Type}
    (x y : α × Allocator) : Prop :=
  x.1 = y.1 ∧ x.2.Counterparts y.2

/- The region did not grow as it was asked to. -/
def Refused
    {α : Type}
    (x : Traced (Except Error α × Allocator)) : Prop :=
  ∃ error next, x.outcome = .ok (.error error, next)

namespace Counterparts

variable {a b : Allocator}
variable {table : SentinelTable}

/- Counterparts have the same bytes. -/
theorem memory_eq
    (h : a.Counterparts b) :
    b.memory = a.memory := by
  rcases h with ⟨region, hMemory, rfl⟩
  exact hMemory

/- Counterparts that get the same bytes stay counterparts. -/
theorem withMemory
    (h : a.Counterparts b)
    (m : Memory) :
    (a.withMemory m).Counterparts (b.withMemory m) := by
  rcases h with ⟨region, _, rfl⟩
  exact ⟨{ region with memory := m }, rfl, rfl⟩

------------------------------------------------------------
-- Growing
------------------------------------------------------------

/-
  Where neither region refuses, the heaps grow by the same
  block.
-/
theorem extend
    {words : Nat}
    (h : a.Counterparts b)
    (hLeft : ¬ Refused (a.extend table words))
    (hRight : ¬ Refused (b.extend table words)) :
    Traced.Mirrors SameReply (a.extend table words)
      (b.extend table words) := by
  rcases h with ⟨region, hMemory, rfl⟩
  unfold Allocator.extend at hLeft hRight ⊢
  apply Traced.Mirrors.lift_bind
  intro size hBytes
  rw [Traced.lift_bind_of_ok _ hBytes] at hLeft hRight
  dsimp only at hRight ⊢
  rcases Region.grow_both hMemory size with
    ⟨error, next, hGrow⟩ | ⟨error, next, hGrow⟩ |
      ⟨grown, grown', hGrow, hGrow', hGrown⟩
  · rw [hGrow] at hLeft
    exact absurd ⟨error, _, rfl⟩ hLeft
  · rw [hGrow] at hRight
    exact absurd ⟨error, _, rfl⟩ hRight
  · rw [hGrow, hGrow']
    dsimp only
    rw [hGrown]
    apply Traced.Mirrors.lift_bind
    intro m _
    apply Traced.Mirrors.lift_bind
    intro extensions _
    apply Traced.Mirrors.report_bind
    apply Traced.Mirrors.lift_bind
    rintro ⟨n, start⟩ _
    exact .pure ⟨rfl, { grown' with memory := n }, rfl, rfl⟩

/- Where neither region refuses, both heaps are laid out. -/
theorem layOut
    (h : a.Counterparts b)
    (hTable : a.table = none)
    (hLeft : ¬ Refused a.init)
    (hRight : ¬ Refused b.init) :
    Traced.Mirrors SameReply a.init b.init := by
  rcases h with ⟨region, hMemory, rfl⟩
  unfold Allocator.init at hLeft hRight ⊢
  dsimp only at hRight ⊢
  rw [hTable] at hLeft hRight ⊢
  dsimp only at hLeft hRight ⊢
  rcases Region.grow_both hMemory SentinelTable.size with
    ⟨error, next, hGrow⟩ | ⟨error, next, hGrow⟩ |
      ⟨first, first', hGrow, hGrow', hFirst⟩
  · rw [hGrow] at hLeft
    exact absurd ⟨error, _, rfl⟩ hLeft
  · rw [hGrow] at hRight
    exact absurd ⟨error, _, rfl⟩ hRight
  rw [hGrow] at hLeft ⊢
  rw [hGrow'] at hRight ⊢
  dsimp only at hLeft hRight ⊢
  rw [hFirst] at hRight ⊢
  apply Traced.Mirrors.lift_bind
  intro m hClear
  rw [Traced.lift_bind_of_ok _ hClear] at hLeft hRight
  have hSame : ({ first' with memory := m } : Region).memory =
      ({ first with memory := m } : Region).memory :=
    rfl
  rcases Region.grow_both hSame SentinelTable.frameSize with
    ⟨error, next, hGrow⟩ | ⟨error, next, hGrow⟩ |
      ⟨second, second', hGrow, hGrow', hSecond⟩
  · rw [hGrow] at hLeft
    exact absurd ⟨error, _, rfl⟩ hLeft
  · rw [hGrow] at hRight
    exact absurd ⟨error, _, rfl⟩ hRight
  rw [hGrow] at hLeft ⊢
  rw [hGrow'] at hRight ⊢
  dsimp only at hLeft hRight ⊢
  rw [hSecond] at hRight ⊢
  apply Traced.Mirrors.lift_bind
  intro n hFrame
  rw [Traced.lift_bind_of_ok _ hFrame] at hLeft hRight
  have hLaidOut : Counterparts
      { a with
        region := { second with memory := n },
        table := some { offset := a.region.size } }
      { a with
        region := { second' with memory := n },
        table := some { offset := a.region.size } } :=
    ⟨{ second' with memory := n }, rfl, rfl⟩
  apply (hLaidOut.extend ?_ ?_).bind
  · rintro ⟨answer, x⟩ ⟨answer', y⟩ ⟨hAnswer, hNext⟩
    dsimp only at hAnswer hNext
    subst hAnswer
    cases answer with
    | error error => exact .pure ⟨rfl, hNext⟩
    | ok start =>
        have hSizes : y.region.size = x.region.size := by
          rcases hNext with ⟨_, hMemory, rfl⟩
          unfold Region.size
          rw [hMemory]
        have hChunks : y.config = x.config := by
          rcases hNext with ⟨_, _, rfl⟩
          rfl
        dsimp only
        rw [hSizes, hChunks]
        exact Traced.Mirrors.report_bind _ (.pure ⟨rfl, hNext⟩)
  · rintro ⟨error, next, hRefused⟩
    exact hLeft ⟨error, next, by
      rw [Traced.outcome_bind_of_ok hRefused]
      rfl⟩
  · rintro ⟨error, next, hRefused⟩
    exact hRight ⟨error, next, by
      rw [Traced.outcome_bind_of_ok hRefused]
      rfl⟩

/-
  Where neither region refuses, both heaps are laid out, or
  both have been before.
-/
theorem init
    (h : a.Counterparts b)
    (hLeft : a.table = none → ¬ Refused a.init)
    (hRight : b.table = none → ¬ Refused b.init) :
    Traced.Mirrors SameReply a.init b.init := by
  have hTables : b.table = a.table := by
    rcases h with ⟨_, _, rfl⟩
    rfl
  cases hTable : a.table with
  | none =>
      exact h.layOut hTable (hLeft hTable)
        (hRight (hTables.trans hTable))
  | some table =>
      unfold Allocator.init
      rw [hTables, hTable]
      exact .pure ⟨rfl, h⟩

------------------------------------------------------------
-- Allocating
------------------------------------------------------------

/- A block that is handed out is the same one. -/
theorem handOut
    (h : a.Counterparts b)
    (size adjusted bp : Nat) :
    Traced.Mirrors Counterparts
      (a.handOut table size adjusted bp)
      (b.handOut table size adjusted bp) := by
  rcases h with ⟨region, hMemory, rfl⟩
  have hBytes : ({ a with region := region } :
      Allocator).memory = a.memory :=
    hMemory
  unfold Allocator.handOut
  rw [hBytes]
  apply Traced.Mirrors.lift_bind
  rintro ⟨m, remainder⟩ _
  have hRest : Traced.Mirrors Counterparts
      (do
        let allocations ← (liftM (Word.add a.allocations 1) : Traced Nat)
        Traced.report (.allocated size adjusted bp)
        return { a.withMemory m with allocations := allocations })
      (do
        let allocations ← (liftM (Word.add a.allocations 1) : Traced Nat)
        Traced.report (.allocated size adjusted bp)
        return { ({ a with region := region } : Allocator).withMemory m with
          allocations := allocations }) := by
    apply Traced.Mirrors.lift_bind
    intro allocations _
    apply Traced.Mirrors.report_bind
    exact .pure ⟨{ region with memory := m }, rfl, rfl⟩
  cases remainder with
  | none => exact hRest
  | some rest => exact hRest.report_bind _

/- Both find the same free block, or grow by one. -/
theorem freeBlockFor
    {adjusted : Nat}
    (h : a.Counterparts b)
    (hLeft : ¬ Refused (a.freeBlockFor table adjusted))
    (hRight : ¬ Refused (b.freeBlockFor table adjusted)) :
    Traced.Mirrors SameReply (a.freeBlockFor table adjusted)
      (b.freeBlockFor table adjusted) := by
  have hConfig : b.config = a.config := by
    rcases h with ⟨_, _, rfl⟩
    rfl
  unfold Allocator.freeBlockFor at hLeft hRight ⊢
  rw [h.memory_eq, hConfig] at hRight ⊢
  cases hFound : table.firstFit a.memory adjusted with
  | error fault => exact .fault [] fault
  | ok found =>
      rw [hFound] at hLeft hRight
      cases found with
      | some bp => exact .pure ⟨rfl, h⟩
      | none => exact h.extend hLeft hRight

/- Both allocate the same block, or none. -/
theorem allocate
    {size : Nat}
    (h : a.Counterparts b)
    (hLeft : ¬ (a.allocate size).TellsRefusal)
    (hRight : ¬ (b.allocate size).TellsRefusal) :
    Traced.Mirrors SameReply (a.allocate size)
      (b.allocate size) := by
  unfold Allocator.allocate at hLeft hRight ⊢
  by_cases hZero : size = 0
  · rw [if_pos hZero, if_pos hZero]
    exact .pure ⟨rfl, h⟩
  rw [if_neg hZero] at hLeft hRight
  rw [if_neg hZero, if_neg hZero]
  have hTables : b.table = a.table := by
    rcases h with ⟨_, _, rfl⟩
    rfl
  rw [hTables] at hRight ⊢
  cases hTable : a.table with
  | none => exact .report_bind _ (.pure ⟨rfl, h⟩)
  | some table =>
      rw [hTable] at hLeft hRight
      dsimp only at hLeft hRight ⊢
      apply Traced.Mirrors.lift_bind
      intro found hFound
      rw [Traced.lift_bind_of_ok _ hFound] at hLeft hRight
      cases found with
      | none => exact .pure ⟨rfl, h⟩
      | some adjusted =>
          dsimp only at hLeft hRight ⊢
          -- Without a block the request tells so.
          apply (h.freeBlockFor ?_ ?_).bind
          · rintro ⟨answer, x⟩ ⟨answer', y⟩ ⟨hAnswer, hNext⟩
            dsimp only at hAnswer hNext
            subst hAnswer
            cases answer with
            | error error =>
                exact .report_bind _ (.pure ⟨rfl, hNext⟩)
            | ok bp =>
                apply (hNext.handOut _ _ _).bind
                intro next next' hOut
                exact .pure ⟨rfl, hOut⟩
          · rintro ⟨error, next, hRefused⟩
            refine hLeft ⟨.allocationFailed
              (Request.rounded size) error, ?_, rfl⟩
            rw [Traced.events_bind_of_ok hRefused]
            exact List.mem_append_right _ List.mem_cons_self
          · rintro ⟨error, next, hRefused⟩
            refine hRight ⟨.allocationFailed
              (Request.rounded size) error, ?_, rfl⟩
            rw [Traced.events_bind_of_ok hRefused]
            exact List.mem_append_right _ List.mem_cons_self

------------------------------------------------------------
-- Freeing
------------------------------------------------------------

/- Both free the same block. -/
theorem free
    (h : a.Counterparts b)
    (address : Option Address) :
    Traced.Mirrors Counterparts (a.free address)
      (b.free address) := by
  have hMemory := h.memory_eq
  have hSame := h
  rcases h with ⟨region, _, rfl⟩
  unfold Allocator.free
  cases address with
  | none => exact .pure hSame
  | some address =>
      dsimp only
      cases hTable : a.table with
      | none =>
          rw [hTable] at hSame
          exact .report_bind _ (.pure hSame)
      | some table =>
          rw [hTable] at hMemory
          dsimp only
          rw [hMemory]
          apply Traced.Mirrors.lift_bind
          intro tag _
          apply Traced.Mirrors.lift_bind
          intro half _
          apply Traced.Mirrors.lift_bind
          rintro ⟨m, start⟩ _
          apply Traced.Mirrors.lift_bind
          intro frees _
          apply Traced.Mirrors.report_bind
          exact .pure ⟨{ region with memory := m }, rfl, by
            rw [← hTable]
            rfl⟩

------------------------------------------------------------
-- Resizing
------------------------------------------------------------

/- Both move the same block to the same new one, or not. -/
theorem relocate
    {bp blockSize size : Nat}
    (h : a.Counterparts b)
    (hLeft : ¬ (a.relocate bp blockSize size).TellsRefusal)
    (hRight : ¬ (b.relocate bp blockSize size).TellsRefusal) :
    Traced.Mirrors SameReply (a.relocate bp blockSize size)
      (b.relocate bp blockSize size) := by
  have hConfig : b.config = a.config := by
    rcases h with ⟨_, _, rfl⟩
    rfl
  unfold Allocator.relocate at hLeft hRight ⊢
  rw [hConfig] at hRight ⊢
  apply Traced.Mirrors.lift_bind
  intro usable hUsable
  rw [Traced.lift_bind_of_ok _ hUsable] at hLeft hRight
  dsimp only at hLeft hRight ⊢
  by_cases hRequest :
      size * a.config.resizeMultiplier < Word.limit
  · rw [if_pos hRequest] at hLeft hRight
    rw [if_pos hRequest, if_pos hRequest]
    apply (h.allocate (fun hTells => hLeft (hTells.bind _))
      (fun hTells => hRight (hTells.bind _))).bind
    rintro ⟨target, x⟩ ⟨target', y⟩ ⟨hTarget, hNext⟩
    dsimp only at hTarget hNext
    subst hTarget
    cases target with
    | none => exact .pure ⟨rfl, hNext⟩
    | some target =>
        dsimp only
        rw [hNext.memory_eq]
        apply Traced.Mirrors.lift_bind
        intro m _
        apply ((hNext.withMemory m).free _).bind
        intro next next' hFreed
        exact .report_bind _ (.pure ⟨rfl, hFreed⟩)
  · rw [if_neg hRequest, if_neg hRequest]
    exact .pure ⟨rfl, h⟩

/- Both resize the same block with the same answer. -/
theorem resize
    {address : Option Address}
    {size : Nat}
    (h : a.Counterparts b)
    (hLeft : ¬ (a.resize address size).TellsRefusal)
    (hRight : ¬ (b.resize address size).TellsRefusal) :
    Traced.Mirrors SameReply (a.resize address size)
      (b.resize address size) := by
  have hInitialized : b.isInitialized = a.isInitialized := by
    rcases h with ⟨_, _, rfl⟩
    rfl
  unfold Allocator.resize at hLeft hRight ⊢
  by_cases hZero : size = 0
  · rw [if_pos hZero, if_pos hZero]
    apply (h.free address).bind
    intro next next' hFreed
    exact .pure ⟨rfl, hFreed⟩
  rw [if_neg hZero] at hLeft hRight
  rw [if_neg hZero, if_neg hZero]
  cases address with
  | none => exact h.allocate hLeft hRight
  | some address =>
      dsimp only at hLeft hRight ⊢
      rw [hInitialized, h.memory_eq] at hRight ⊢
      by_cases hLaidOut : a.isInitialized = true
      · rw [if_pos hLaidOut] at hLeft hRight
        rw [if_pos hLaidOut, if_pos hLaidOut]
        apply Traced.Mirrors.lift_bind
        intro found hFound
        rw [Traced.lift_bind_of_ok _ hFound] at hLeft hRight
        cases found with
        | none => exact .pure ⟨rfl, h⟩
        | some adjusted =>
            dsimp only at hLeft hRight ⊢
            apply Traced.Mirrors.lift_bind
            intro tag hTag
            rw [Traced.lift_bind_of_ok _ hTag] at hLeft hRight
            by_cases hFits : adjusted ≤ tag.size
            · rw [if_pos hFits, if_pos hFits]
              exact .report_bind _ (.pure ⟨rfl, h⟩)
            · rw [if_neg hFits] at hLeft hRight
              rw [if_neg hFits, if_neg hFits]
              exact h.relocate hLeft hRight
      · rw [if_neg hLaidOut, if_neg hLaidOut]
        exact .report_bind _ (.pure ⟨rfl, h⟩)

------------------------------------------------------------
-- Writing
------------------------------------------------------------

/- Both find the same block at an address. -/
theorem usableSize_eq
    (h : a.Counterparts b)
    (address : Address) :
    b.usableSize address = a.usableSize address := by
  unfold Allocator.usableSize
  rw [h.memory_eq]

/- Both write the same bytes to the same place. -/
theorem writePayload
    (h : a.Counterparts b)
    (address : Address)
    (position : Nat)
    (bytes : List UInt8) :
    Traced.Mirrors Counterparts
      (liftM (a.writePayload address position bytes))
      (liftM (b.writePayload address position bytes)) := by
  have hPayload : b.payload address = a.payload address := by
    unfold payload
    rw [h.memory_eq]
  unfold Allocator.writePayload
  rw [hPayload, h.memory_eq]
  cases a.payload address with
  | error fault => exact .fault [] fault
  | ok span =>
      rw [Fault.bind_of_ok rfl, Fault.bind_of_ok rfl]
      split
      · cases a.memory.store (span.start + position) bytes with
        | error fault => exact .fault [] fault
        | ok m => exact .pure (h.withMemory m)
      · exact .fault [] .outOfBounds

end Counterparts

end Allocator

end SegregatedFit
