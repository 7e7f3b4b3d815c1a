import SegregatedFit.Client.History
import SegregatedFit.Proofs.Allocator.Initializing
import SegregatedFit.Proofs.Client.Ledger

/-
  What one allowed call does to an allocator at rest.

  The call succeeds, the allocator is at rest again, and the
  record is backed by its allocated blocks.  Blocks that the
  call is not about stay with their payloads.

  Key definitions include:
    * `Call.Concerns`
    * `Allocator.CountedBy`
    * `Allocator.Serves`

  Key theorems include:
    * `Allocator.AtRest.perform_ok`
-/

namespace SegregatedFit

/- Calls that free, resize or write the block of an address. -/
def Call.Concerns :
    Call → Address → Prop
| .free (some address), other => address = other
| .resize (some address) _, other => address = other
| .write address _ _, other => address = other
| _, _ => False

namespace Allocator

/- No counter is above a number. -/
structure CountedBy
    (a : Allocator)
    (n : Nat) : Prop where
  extensions_le : a.extensions ≤ n
  allocations_le : a.allocations ≤ n
  frees_le : a.frees ≤ n

/- No counter is above a larger number. -/
theorem CountedBy.add
    {a : Allocator}
    {n : Nat}
    (h : a.CountedBy n)
    (k : Nat) :
    a.CountedBy (n + k) where
  extensions_le := Nat.le_add_right_of_le h.extensions_le
  allocations_le := Nat.le_add_right_of_le h.allocations_le
  frees_le := Nat.le_add_right_of_le h.frees_le

------------------------------------------------------------
-- Calls and Operations
------------------------------------------------------------

section Calls

variable {a next : Allocator}
variable {events : List Event}
variable {address target : Option Address}
variable {size : Nat}

/- An attempt to lay out a heap that fails gives its error. -/
theorem perform_init_of_error
    {error : Error}
    (h : a.init = pure (.error error, next)) :
    a.perform .init = pure (.failed error, next) := by
  unfold perform
  dsimp only
  rw [h]
  rfl

/- A heap that is laid out is reported as such. -/
theorem perform_init_of_ok
    (h : a.init =
      { events := events, outcome := .ok (.ok (), next) }) :
    a.perform .init =
      { events := events, outcome := .ok (.done, next) } := by
  unfold perform
  dsimp only
  rw [h]
  exact Traced.bind_of_silent rfl rfl

/- A call for a block answers with what the allocator gives. -/
theorem perform_allocate
    (h : (a.allocate size).outcome = .ok (address, next)) :
    a.perform (.allocate size) = {
      events := (a.allocate size).events,
      outcome := .ok (.address address, next) } :=
  Traced.bind_of_silent h rfl

/- A call that gives a block back has no answer. -/
theorem perform_free
    (h : (a.free address).outcome = .ok next) :
    a.perform (.free address) = {
      events := (a.free address).events,
      outcome := .ok (.done, next) } :=
  Traced.bind_of_silent h rfl

/- A call for another size answers with what the allocator gives. -/
theorem perform_resize
    (h : (a.resize address size).outcome = .ok (target, next)) :
    a.perform (.resize address size) = {
      events := (a.resize address size).events,
      outcome := .ok (.address target, next) } :=
  Traced.bind_of_silent h rfl

/- A resize to zero bytes frees. -/
theorem resize_zero
    (h : (a.free address).outcome = .ok next) :
    a.resize address 0 = {
      events := (a.free address).events,
      outcome := .ok (none, next) } := by
  unfold resize
  rw [if_pos rfl]
  exact Traced.bind_of_silent h rfl

/- A call that writes bytes reports nothing. -/
theorem perform_write
    {address : Address}
    {position : Nat}
    {bytes : List UInt8}
    (h : a.writePayload address position bytes = .ok next) :
    a.perform (.write address position bytes) =
      pure (.done, next) :=
  Traced.lift_bind_of_ok _ h

end Calls

------------------------------------------------------------
-- Steps
------------------------------------------------------------

/-
  One allocator at rest becomes another one, and the blocks
  that a call does not concern stay with their payloads.
-/
structure Serves
    (a next : Allocator)
    (call : Call)
    (table : SentinelTable)
    (view view' : HeapView) : Prop where
  rest : next.AtRest table view'
  base_eq : next.region.base = a.region.base
  stays :
    ∀ block ∈ view.allocatedBlocks,
      ¬ call.Concerns { offset := block.offset } →
        block ∈ view'.allocatedBlocks ∧
          a.memory.Agrees next.memory block.offset
            (block.offset + block.header.size - doubleWord)

namespace AtRest

variable {a next : Allocator}
variable {table : SentinelTable}
variable {view view' : HeapView}
variable {owned : List Owned}
variable {n : Nat}

/- An allocator whose bytes are the same serves any call. -/
theorem serves_of_undisturbed
    {region : Region}
    (h : a.AtRest table view)
    (call : Call)
    (hSame : a.region.Undisturbed region) :
    a.Serves { a with region := region } call table view
      view := by
  refine ⟨h.of_undisturbed hSame, hSame.base_eq, ?_⟩
  intro block hBlock _
  refine ⟨hBlock, ?_⟩
  intro i _ _
  change region.memory.byte i = a.region.memory.byte i
  rw [hSame.memory_eq]

/-
  An allocator that becomes another one serves a call that
  concerns no block that is not kept.
-/
theorem serves_of_becomes
    {kept : List ChainBlock}
    {call : Call}
    (h : a.AtRest table view)
    (hTable : next.table = a.table)
    (hBecomes : a.region.Becomes next.region table view' kept)
    (hKept : ∀ block ∈ view.allocatedBlocks,
      ¬ call.Concerns { offset := block.offset } →
        block ∈ kept)
    (hStays : ∀ block ∈ kept, block ∈ view'.allocatedBlocks) :
    a.Serves next call table view view' := by
  refine ⟨h.of_becomes hTable hBecomes, hBecomes.base_eq, ?_⟩
  intro block hBlock hOther
  have hMem := hKept block hBlock hOther
  have hAllocated :=
    (HeapView.mem_allocatedBlocks_iff.1 hBlock).2
  exact ⟨hStays block hMem,
    hBecomes.keeps block hMem hAllocated⟩

/- The blocks that are kept are those at other addresses. -/
theorem mem_others
    {block other : ChainBlock}
    (hOther : other ∈ view.allocatedBlocks)
    (hNe : ¬ ({ offset := block.offset } : Address) =
      { offset := other.offset }) :
    other ∈ view.others block.offset := by
  refine List.mem_filter.2 ⟨hOther, decide_eq_true ?_⟩
  intro hEq
  apply hNe
  rw [hEq]

------------------------------------------------------------
-- Allocating
------------------------------------------------------------

/- An allocation succeeds, with or without an address. -/
theorem allocate_ok
    (h : a.AtRest table view)
    (call : Call)
    (size : Nat)
    (hBacked : Backed view.allocatedBlocks owned)
    (hCounted : a.CountedBy n)
    (hFew : n + 1 < Word.limit) :
    ∃ address next view',
      (a.allocate size).outcome = .ok (address, next) ∧
      a.Serves next call table view view' ∧
      next.CountedBy (n + 1) ∧
      Backed view'.allocatedBlocks
        (Client.record owned (.allocate size)
          (.address address)) ∧
      a.Accounts next (a.allocate size).events
        view.allocatedOffsets view'.allocatedOffsets := by
  have hExtensions := hCounted.extensions_le
  have hAllocations := hCounted.allocations_le
  have hFrees := hCounted.frees_le
  rcases h.allocate_new size (by omega) (by omega) with
    hBad | hGood
  · rcases hBad with ⟨region, hOutcome, hSame, hRemarks⟩
    refine ⟨none, _, view, hOutcome,
      h.serves_of_undisturbed call hSame, ?_, hBacked,
      accounts_undisturbed _ hSame hRemarks⟩
    constructor
    all_goals
      dsimp only
      omega
  · rcases hGood with
      ⟨region, view', block, grew, hOutcome, hGrew, hRoom, _,
        hPerm, hBecomes, hAccounts⟩
    refine ⟨some { offset := block.offset }, _, view',
      hOutcome, ?_, ?_, ?_, hAccounts⟩
    · refine h.serves_of_becomes (by rfl) hBecomes ?_ ?_
      · intro other hOther _
        exact hOther
      · intro other hOther
        exact hPerm.mem_iff.2
          (List.mem_cons_of_mem block hOther)
    · constructor
      all_goals
        dsimp only
        omega
    · exact (hBacked.cons hRoom).perm hPerm

------------------------------------------------------------
-- Freeing
------------------------------------------------------------

/- An address that is owned is freed. -/
theorem free_owned
    {address : Address}
    (h : a.AtRest table view)
    (call : Call)
    (hBacked : Backed view.allocatedBlocks owned)
    (hOwned : ∃ entry ∈ owned, entry.address = address)
    (hConcerns : ∀ other, address = other →
      call.Concerns other)
    (hCounted : a.CountedBy n)
    (hFew : n + 1 < Word.limit) :
    ∃ next view',
      (a.free (some address)).outcome = .ok next ∧
      a.Serves next call table view view' ∧
      next.CountedBy (n + 1) ∧
      Backed view'.allocatedBlocks
        (Client.disown owned (some address)) ∧
      a.Accounts next (a.free (some address)).events
        view.allocatedOffsets view'.allocatedOffsets := by
  have hExtensions := hCounted.extensions_le
  have hAllocations := hCounted.allocations_le
  have hFrees := hCounted.frees_le
  rcases hBacked.exists_block hOwned with ⟨block, hBlock, rfl⟩
  rcases h.free_ok hBlock (by omega) with
    ⟨region, view', hFree, hSize, hTakes, hBecomes⟩
  have hBlocks := hTakes.allocatedBlocks_eq h.stands
  refine ⟨_, view', congrArg Traced.outcome hFree, ?_, ?_, ?_,
    ?_⟩
  · refine h.serves_of_becomes (by rfl) hBecomes ?_ ?_
    · intro other hOther hNot
      apply mem_others hOther
      intro hEq
      exact hNot (hConcerns _ hEq)
    · intro other hOther
      rw [hBlocks]
      exact hOther
  · constructor
    all_goals
      dsimp only
      omega
  · rw [hBlocks]
    exact hBacked.disown { offset := block.offset }
  · rw [hFree]
    exact accounts_freed block.header.size hSize
      (hTakes.perm_offsets h.stands)

------------------------------------------------------------
-- Resizing
------------------------------------------------------------

/- An address that is owned is resized to some bytes. -/
theorem resize_owned
    {address : Address}
    {size : Nat}
    (h : a.AtRest table view)
    (hBacked : Backed view.allocatedBlocks owned)
    (hOwned : ∃ entry ∈ owned, entry.address = address)
    (hSize : size ≠ 0)
    (hCounted : a.CountedBy n)
    (hFew : n + 1 < Word.limit) :
    ∃ target next view',
      (a.resize (some address) size).outcome =
        .ok (target, next) ∧
      a.Serves next (.resize (some address) size) table view
        view' ∧
      next.CountedBy (n + 1) ∧
      Backed view'.allocatedBlocks
        (Client.record owned (.resize (some address) size)
          (.address target)) ∧
      a.Accounts next (a.resize (some address) size).events
        view.allocatedOffsets view'.allocatedOffsets := by
  have hExtensions := hCounted.extensions_le
  have hAllocations := hCounted.allocations_le
  have hFrees := hCounted.frees_le
  have hSame : a.region.Undisturbed a.region :=
    ⟨rfl, rfl, h.placed⟩
  have hCounted' : a.CountedBy (n + 1) :=
    ⟨by omega, by omega, by omega⟩
  rcases hBacked.exists_block hOwned with ⟨block, hBlock, rfl⟩
  rw [h.resize_eq hBlock hSize]
  by_cases hWord : size + 2 * doubleWord < Word.limit
  · rw [if_pos hWord]
    by_cases hFits : Request.sizeFor size ≤ block.header.size
    · -- The block stays and is asked for anew.
      rw [if_pos hFits]
      have hRoom := Request.le_sizeFor size
      refine ⟨_, a, view, rfl,
        h.serves_of_undisturbed _ hSame, hCounted', ?_,
        accounts_remark _ _ trivial⟩
      rw [Client.record_resize _ _ hSize]
      apply ((hBacked.disown { offset := block.offset }).cons
        (by omega)).perm
      exact h.stands.perm_others hBlock
    · rw [if_neg hFits]
      rcases h.relocate_cases size hBlock (by omega)
          (by omega) (by omega) with hBad | hGood
      · rcases hBad with ⟨region, hOutcome, hKept, hRemarks⟩
        refine ⟨none, _, view, hOutcome,
          h.serves_of_undisturbed _ hKept,
          ⟨hCounted'.1, hCounted'.2, hCounted'.3⟩, ?_,
          accounts_undisturbed _ hKept hRemarks⟩
        rw [Client.record_resize_none _ hSize]
        exact hBacked
      · rcases hGood with
          ⟨region, view', new, grew, hOutcome, hGrew, _,
            hLarge, hPerm, hBecomes, _, hAccounts⟩
        refine ⟨_, _, view', hOutcome, ?_, ?_, ?_, hAccounts⟩
        · refine h.serves_of_becomes (by rfl) hBecomes ?_ ?_
          · intro other hOther hNot
            exact mem_others hOther hNot
          · intro other hOther
            exact hPerm.mem_iff.2
              (List.mem_cons_of_mem new hOther)
        · constructor
          all_goals
            dsimp only
            omega
        · rw [Client.record_resize _ _ hSize]
          exact ((hBacked.disown
            { offset := block.offset }).cons hLarge).perm hPerm
  · rw [if_neg hWord]
    refine ⟨none, a, view, rfl,
      h.serves_of_undisturbed _ hSame, hCounted', ?_,
      accounts_nothing _ rfl⟩
    rw [Client.record_resize_none _ hSize]
    exact hBacked

/- A resize succeeds, with or without an address. -/
theorem resize_ok
    {address : Option Address}
    (h : a.AtRest table view)
    (size : Nat)
    (hBacked : Backed view.allocatedBlocks owned)
    (hOwned : ∀ target ∈ address,
      ∃ entry ∈ owned, entry.address = target)
    (hCounted : a.CountedBy n)
    (hFew : n + 1 < Word.limit) :
    ∃ target next view',
      (a.resize address size).outcome = .ok (target, next) ∧
      a.Serves next (.resize address size) table view view' ∧
      next.CountedBy (n + 1) ∧
      Backed view'.allocatedBlocks
        (Client.record owned (.resize address size)
          (.address target)) ∧
      a.Accounts next (a.resize address size).events
        view.allocatedOffsets view'.allocatedOffsets := by
  by_cases hSize : size = 0
  · subst hSize
    cases address with
    | none =>
        refine ⟨none, a, view, rfl,
          h.serves_of_undisturbed _ ⟨rfl, rfl, h.placed⟩,
          hCounted.add 1, ?_, accounts_nothing _ rfl⟩
        change Backed view.allocatedBlocks
          (Client.disown owned none)
        rw [Client.disown_none]
        exact hBacked
    | some address =>
        rcases h.free_owned (.resize (some address) 0) hBacked
            (hOwned address rfl) (fun _ hEq => hEq) hCounted
            hFew with
          ⟨next, view', hOutcome, hServes, hNext, hRecord,
            hAccounts⟩
        rw [resize_zero hOutcome]
        exact ⟨none, next, view', rfl, hServes, hNext, hRecord,
          hAccounts⟩
  · cases address with
    | none =>
        rcases h.allocate_ok (.resize none size) size hBacked
            hCounted hFew with
          ⟨address, next, view', hOutcome, hServes, hNext,
            hRecord, hAccounts⟩
        unfold resize
        rw [if_neg hSize]
        refine ⟨address, next, view', hOutcome, hServes, hNext,
          ?_, hAccounts⟩
        cases address with
        | none =>
            rw [Client.record_resize_none _ hSize]
            exact hRecord
        | some target =>
            rw [Client.record_resize _ _ hSize,
              Client.disown_none]
            exact hRecord
    | some address =>
        exact h.resize_owned hBacked (hOwned address rfl) hSize
          hCounted hFew

------------------------------------------------------------
-- Writing
------------------------------------------------------------

/- Bytes are written into the payload of an address that is owned. -/
theorem write_owned
    {address : Address}
    {position usable : Nat}
    {bytes : List UInt8}
    (h : a.AtRest table view)
    (hBacked : Backed view.allocatedBlocks owned)
    (hOwned : ∃ entry ∈ owned, entry.address = address)
    (hUsable : a.usableSize address = .ok usable)
    (hInside : position + bytes.length ≤ usable) :
    ∃ region,
      a.writePayload address position bytes =
        .ok { a with region := region } ∧
      region.memory.size = a.region.memory.size ∧
      a.Serves { a with region := region }
        (.write address position bytes) table view view := by
  rcases hBacked.exists_block hOwned with ⟨block, hBlock, rfl⟩
  have hEq := hUsable.symm.trans (h.usableSize_eq hBlock)
  cases hEq
  rcases h.writePayload_ok hBlock hInside with
    ⟨n, hWrite, hSize, hBecomes⟩
  refine ⟨{ a.region with memory := n }, hWrite, hSize,
    h.serves_of_becomes (by rfl) hBecomes ?_ ?_⟩
  · intro other hOther hNot
    exact mem_others hOther hNot
  · intro other hOther
    exact (List.mem_filter.1 hOther).1

------------------------------------------------------------
-- All Calls
------------------------------------------------------------

/- An allowed call to an allocator at rest succeeds. -/
theorem perform_ok
    {call : Call}
    (h : a.AtRest table view)
    (hBacked : Backed view.allocatedBlocks owned)
    (hAllowed : call.Allowed
      { allocator := a, owned := owned, operations := n })
    (hCounted : a.CountedBy n)
    (hFew : n + call.operations < Word.limit) :
    ∃ reply next view',
      (a.perform call).outcome = .ok (reply, next) ∧
      a.Serves next call table view view' ∧
      next.CountedBy (n + call.operations) ∧
      Backed view'.allocatedBlocks
        (Client.record owned call reply) ∧
      a.Accounts next (a.perform call).events
        view.allocatedOffsets view'.allocatedOffsets := by
  have hSame : a.region.Undisturbed a.region :=
    ⟨rfl, rfl, h.placed⟩
  have hNothing : Backed view.allocatedBlocks
      (Client.disown owned none) := by
    rw [Client.disown_none]
    exact hBacked
  have hLater := hCounted.add call.operations
  cases call with
  | init =>
      rw [perform_init_of_error (init_again h.table_eq)]
      exact ⟨_, a, view, rfl, h.serves_of_undisturbed _ hSame,
        hLater, hBacked, accounts_nothing _ rfl⟩
  | allocate size =>
      rcases h.allocate_ok (.allocate size) size hBacked
          hCounted hFew with
        ⟨address, next, view', hOutcome, hServed⟩
      rw [perform_allocate hOutcome]
      exact ⟨.address address, next, view', rfl, hServed⟩
  | free address =>
      cases address with
      | none =>
          exact ⟨.done, a, view, rfl,
            h.serves_of_undisturbed _ hSame, hLater, hNothing,
            accounts_nothing _ rfl⟩
      | some address =>
          rcases h.free_owned (.free (some address)) hBacked
              hAllowed (fun _ hEq => hEq) hCounted hFew with
            ⟨next, view', hOutcome, hServed⟩
          rw [perform_free hOutcome]
          exact ⟨.done, next, view', rfl, hServed⟩
  | resize address size =>
      have hOwned : ∀ target ∈ address,
          ∃ entry ∈ owned, entry.address = target := by
        intro target hTarget
        cases hTarget
        exact hAllowed.1
      rcases h.resize_ok size hBacked hOwned hCounted hFew with
        ⟨target, next, view', hOutcome, hServed⟩
      rw [perform_resize hOutcome]
      exact ⟨.address target, next, view', rfl, hServed⟩
  | write address position bytes =>
      rcases hAllowed with ⟨hOwned, usable, hUsable, hInside⟩
      rcases h.write_owned hBacked hOwned hUsable hInside with
        ⟨region, hWrite, hSize, hServes⟩
      rw [perform_write hWrite]
      exact ⟨.done, { a with region := region }, view, rfl,
        hServes, ⟨hLater.1, hLater.2, hLater.3⟩, hBacked,
        accounts_nothing _ hSize⟩
  | moveBreak displacement =>
      unfold perform
      dsimp only
      cases hMove : a.region.moveBreak displacement with
      | none =>
          exact ⟨.done, a, view, rfl,
            h.serves_of_undisturbed _ hSame, hLater, hBacked,
            accounts_nothing _ rfl⟩
      | some region =>
          have hMoved := h.placed.moveBreak hMove
          exact ⟨.done, { a with region := region }, view, rfl,
            h.serves_of_undisturbed _ hMoved,
            ⟨hLater.1, hLater.2, hLater.3⟩, hBacked,
            accounts_nothing _
              (congrArg Memory.size hMoved.memory_eq)⟩

end AtRest

end Allocator

end SegregatedFit
