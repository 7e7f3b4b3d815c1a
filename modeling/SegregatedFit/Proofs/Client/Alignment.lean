import SegregatedFit.Proofs.Client.Resizing

/-
  The addresses that callers are given, up to double words.

  Nothing aligns a heap when it is laid out: the table stands
  where the region ends, and all blocks are whole double
  words behind it.  So addresses are aligned exactly if the
  region was a whole number of double words long when the
  allocator was made, and otherwise a check tells of every
  block.

  Key theorems include:
    * `Client.Sound.heapStart_mod`
    * `Client.History.heapStart_mod`
    * `Client.History.pointer_mod`
    * `Client.History.alignment_kept`
    * `Client.alignment_lost`
-/

namespace SegregatedFit

------------------------------------------------------------
-- Replies with an Address
------------------------------------------------------------

/- Only requests and resizes are replied to with an address. -/
theorem Allocator.perform_address
    {a next : Allocator}
    {call : Call}
    {address : Address}
    (h : (a.perform call).outcome =
      .ok (.address (some address), next)) :
    (∃ size, call = .allocate size) ∨
      ∃ target size, size ≠ 0 ∧ call = .resize target size := by
  unfold perform at h
  cases call with
  | init =>
      rcases Traced.outcome_bind_eq_ok_iff.1 h with
        ⟨⟨result, _⟩, _, hReply⟩
      cases result with
      | ok => cases hReply
      | error error => cases hReply
  | allocate size => exact Or.inl ⟨size, rfl⟩
  | free target =>
      rcases Traced.outcome_bind_eq_ok_iff.1 h with
        ⟨_, _, hReply⟩
      cases hReply
  | resize target size =>
      refine Or.inr ⟨target, size, ?_, rfl⟩
      intro hZero
      subst hZero
      rcases Traced.outcome_bind_eq_ok_iff.1 h with
        ⟨result, hResize, hReply⟩
      rcases Traced.outcome_bind_eq_ok_iff.1 hResize with
        ⟨_, _, hNone⟩
      cases hNone
      cases hReply
  | write target position bytes =>
      rcases Traced.outcome_bind_eq_ok_iff.1 h with
        ⟨_, _, hReply⟩
      cases hReply
  | moveBreak displacement =>
      cases hMove : a.region.moveBreak displacement with
      | none =>
          dsimp only at h
          rw [hMove] at h
          cases h
      | some region =>
          dsimp only at h
          rw [hMove] at h
          cases h

namespace Client

variable {start : Allocator}
variable {events : List Event}
variable {client next : Client}
variable {call : Call}
variable {address : Address}

/- A client owns the address that it is given. -/
theorem owns_of_reply
    (h : (client.perform call).outcome =
      .ok (.address (some address), next)) :
    next.Owns address := by
  rcases Traced.outcome_bind_eq_ok_iff.1 h with
    ⟨⟨reply, a⟩, hPerform, hNext⟩
  cases hNext
  rcases Allocator.perform_address hPerform with
    hAllocate | hResize
  · rcases hAllocate with ⟨size, rfl⟩
    exact ⟨_, List.mem_cons_self, rfl⟩
  · rcases hResize with ⟨target, size, hSize, rfl⟩
    cases size with
    | zero => exact absurd rfl hSize
    | succ size => exact ⟨_, List.mem_cons_self, rfl⟩

------------------------------------------------------------
-- Where the Heap Begins
------------------------------------------------------------

/-
  A heap that is laid out stays where it is.  Until then it
  would begin where the region ends, which moves by whole
  double words.
-/
theorem Sound.heapStart_mod
    {reply : Reply}
    (h : client.Sound)
    (hAllowed : call.Allowed client)
    (hFew :
      client.operations + call.operations < Word.limit)
    (hOutcome :
      (client.perform call).outcome = .ok (reply, next)) :
    next.allocator.heapStart % doubleWord =
      client.allocator.heapStart % doubleWord := by
  cases hTable : client.allocator.table with
  | none =>
      have hOwned := h.unowned hTable
      rcases client with ⟨a, owned, n⟩
      dsimp only at hOwned hTable hFew
      subst hOwned
      rcases Allocator.perform_fresh hTable h.placed hAllowed
          h.counted hFew with
        ⟨_, _, hPerform, _, _, _, hMod⟩
      rw [perform_outcome hPerform] at hOutcome
      cases hOutcome
      exact hMod
  | some table =>
      rcases h.backed table hTable with ⟨view, hRest, hBacked⟩
      rcases hRest.perform_ok hBacked hAllowed h.counted hFew
        with
        ⟨_, _, _, hPerform, hServes, _⟩
      rw [perform_outcome hPerform] at hOutcome
      cases hOutcome
      rw [Allocator.heapStart_of_some hTable,
        Allocator.heapStart_of_some hServes.rest.table_eq]

namespace History

/- A heap begins as far off the double word as its region ended. -/
theorem heapStart_mod
    (h : History start events client) :
    client.allocator.heapStart % doubleWord =
      start.region.size % doubleWord := by
  induction h with
  | start hFresh =>
      rw [Allocator.heapStart_of_none hFresh.table_eq]
  | step past allowed few outcome ih =>
      exact (past.sound.heapStart_mod allowed few outcome).trans
        ih

/- So is every address that a client owns. -/
theorem pointer_mod
    (h : History start events client)
    (hOwned : client.Owns address) :
    client.allocator.pointer address % doubleWord =
      start.region.size % doubleWord := by
  rcases h.sound.exists_block hOwned with
    ⟨table, view, block, hRest, _, hBlock, rfl⟩
  have hBounds := hRest.bounds hBlock
  have hWord : client.allocator.region.base + block.offset <
      Word.limit := by
    have hSize : client.allocator.region.base +
        client.allocator.memory.size < Word.limit :=
      hRest.placed.size_lt
    omega
  have hMem := (HeapView.mem_allocatedBlocks_iff.1 hBlock).1
  have hDescribes := hRest.describes
  have hOffset := hDescribes.offset_mod
    (List.mem_cons_of_mem _ hMem)
  have hStart := h.heapStart_mod
  rw [Allocator.heapStart_of_some hRest.table_eq] at hStart
  have hPointer : client.allocator.pointer
      { offset := block.offset } =
        client.allocator.region.base + block.offset :=
    Nat.mod_eq_of_lt hWord
  rw [hPointer, Nat.add_mod, hRest.placed.1, Nat.zero_add,
    Nat.mod_mod, hOffset, hStart]

/-
  Every address that a call returns is as far off the double
  word as the region's size was when the allocator was made.
  A check finds nothing wrong if that was a whole number of
  double words, and otherwise tells that every block of the
  chain is misaligned.
-/
theorem alignment_kept
    (h : History start events client) :
    (∀ (call : Call) (address : Address) (next : Client),
      call.Allowed client →
      client.operations + call.operations < Word.limit →
      (client.perform call).outcome =
        .ok (.address (some address), next) →
      next.allocator.pointer address % doubleWord =
        start.region.size % doubleWord) ∧
    ∀ (table : SentinelTable) (verbose : Bool),
      client.allocator.table = some table →
      ∃ chain report,
        client.allocator.memory.chain table.prologue =
          .ok chain ∧
        (client.allocator.checkConsistency verbose).outcome =
          .ok report ∧
        report.violations =
          if start.region.size % doubleWord = 0 then
            []
          else
            chain.blocks.map
              (fun block => .misaligned block.offset) := by
  constructor
  · intro call address next hAllowed hFew hOutcome
    have hNext := h.step hAllowed hFew hOutcome
    exact hNext.pointer_mod (owns_of_reply hOutcome)
  · intro table verbose hTable
    have hStart := h.heapStart_mod
    rw [Allocator.heapStart_of_some hTable] at hStart
    rcases h.sound.backed table hTable with ⟨view, hRest, _⟩
    have hWord : client.allocator.region.base +
        client.allocator.memory.size < Word.limit :=
      hRest.placed.size_lt
    have hDescribes := hRest.describes
    rcases Allocator.checkConsistency_eq hTable
        (hDescribes.gather_eq (by omega))
        (hDescribes.violations_eq_misalignments hWord)
        verbose with
      ⟨report, hCheck, hViolations⟩
    refine ⟨_, report, hDescribes.chain_eq (by omega), ?_, ?_⟩
    · rw [hCheck]
    · rw [hViolations, hDescribes.misalignments_eq
        hRest.placed.1, hStart]

/- A smaller size for the block of the sample leaves it aligned. -/
theorem alignment_kept_sample :
    ∃ next,
      (sample.perform
        (.resize (some { offset := 192 }) 8)).outcome =
          .ok (.address (some { offset := 192 }), next) ∧
      next.allocator.pointer { offset := 192 } % doubleWord =
        0 ∧
      ∃ report,
        (sample.allocator.checkConsistency true).outcome =
          .ok report ∧
        report.violations = [] := by
  have hAllowed :
      (Call.resize (some { offset := 192 }) 8).Allowed
        sample :=
    ⟨sample_owns, by decide⟩
  have hFew : sample.operations +
      (Call.resize (some { offset := 192 }) 8).operations <
        Word.limit := by
    rw [sample_eq.2.2]
    decide
  rcases sample_history with ⟨events, hHistory⟩
  have hInPlace := hHistory.sound.resize_inPlace sample_owns
    sample_usableSize (show 8 ≠ 0 by decide) (by decide)
  have hOutcome := perform_outcome (congrArg Traced.outcome
    (Allocator.perform_resize hInPlace))
  rcases alignment_kept hHistory with ⟨hAligned, hChecked⟩
  rcases hChecked _ true sample_eq.1 with
    ⟨_, report, _, hReport, hNone⟩
  exact ⟨_, hOutcome,
    hAligned _ _ _ hAllowed hFew hOutcome,
    report, hReport, hNone⟩

end History

------------------------------------------------------------
-- Regions That Are off the Double Word
------------------------------------------------------------

/- An allocator on a region that has grown by a word. -/
def unevenStart : Allocator :=
  { sampleStart with region :=
    { sampleStart.region with
      memory := Memory.empty.extend 8 } }

/- A client that laid out its heap there. -/
def uneven : Client :=
  ({ allocator := unevenStart, owned := [], operations := 0 } :
    Client).after .init

/- Nothing has been asked of it. -/
theorem unevenStart_fresh :
    unevenStart.Fresh := by
  have hPlaced : 8 ≤ 256 ∧ 4096 + 256 < Word.limit := by
    decide
  exact ⟨⟨by decide, by decide, hPlaced⟩, rfl, rfl, rfl, rfl⟩

/-
  On a region that has grown by a word, the first address
  that is given to the caller is off the double word, and a
  check tells so of the prologue and of its block.
-/
theorem alignment_lost :
    ∃ events next report,
      History unevenStart events uneven ∧
      (uneven.perform (.allocate 8)).outcome =
        .ok (.address (some { offset := 200 }), next) ∧
      next.allocator.pointer { offset := 200 } % doubleWord =
        8 ∧
      (next.allocator.checkConsistency false).outcome =
        .ok report ∧
      report.violations = [.misaligned 184, .misaligned 200] := by
  have hStart : ∃ events, History unevenStart events
      { allocator := unevenStart, owned := [],
        operations := 0 } :=
    ⟨[], .start unevenStart_fresh⟩
  have hFacts :
      uneven.replyTo (.allocate 8) =
        some (.address (some { offset := 200 })) ∧
      (uneven.after (.allocate 8)).allocator.pointer
        { offset := 200 } % doubleWord = 8 ∧
      ((uneven.after (.allocate 8)).allocator.checkConsistency
        false).outcome = .ok {
          violations := [.misaligned 184, .misaligned 200],
          blocks := 2,
          freeBlocks := 0,
          details := [] } := by
    decide +kernel
  rcases hFacts with ⟨hReply, hPointer, hCheck⟩
  rcases History.after hStart .init trivial (by decide) with
    ⟨⟨events, hHistory⟩, _⟩
  exact ⟨events, _, _, hHistory, perform_of_replyTo hReply,
    hPointer, hCheck, rfl⟩

end Client

end SegregatedFit
