import SegregatedFit.Proofs.Consistency.Decision

/-
  What a check tells, whether or not it tells the details,
  and wherever the heap is.

  The walks and the comparisons are the same either way.  A
  report without details is the report with them, less the
  details, and the same events go with it.  Of the address of
  a heap only its alignment matters.

  Key theorems include:
    * `Findings.violations_moved`
    * `Allocator.inspect_plain`
    * `Allocator.checkConsistency_plain`
    * `Allocator.checkConsistency_total`
-/

namespace SegregatedFit

------------------------------------------------------------
-- Heaps at Other Addresses
------------------------------------------------------------

/- Blocks at aligned bases are aligned alike. -/
theorem tagViolations_moved
    {base base' : Nat}
    {block : ChainBlock}
    (hBase : base % doubleWord = 0)
    (hBase' : base' % doubleWord = 0)
    (hWord : base + block.offset < Word.limit)
    (hWord' : base' + block.offset < Word.limit) :
    tagViolations base' block = tagViolations base block := by
  have hAligned : (base' + block.offset) % doubleWord =
      (base + block.offset) % doubleWord := by
    rw [Nat.add_mod, hBase', Nat.add_mod base, hBase]
  unfold tagViolations
  rw [Fault.bind_of_ok (Word.add_of_lt hWord),
    Fault.bind_of_ok (Word.add_of_lt hWord'), hAligned]

/- All blocks of a chain are told of alike. -/
theorem blockViolations_moved
    {base base' : Nat}
    {listing : Listing}
    {prologue : Nat}
    {previousFree : Option Nat}
    {blocks : List ChainBlock}
    (hBase : base % doubleWord = 0)
    (hBase' : base' % doubleWord = 0)
    (hWord : ∀ block ∈ blocks,
      base + block.offset < Word.limit)
    (hWord' : ∀ block ∈ blocks,
      base' + block.offset < Word.limit) :
    blockViolations base' listing prologue previousFree blocks =
      blockViolations base listing prologue previousFree
        blocks := by
  induction blocks generalizing previousFree with
  | nil => rfl
  | cons block blocks ih =>
      unfold blockViolations
      rw [tagViolations_moved hBase hBase'
          (hWord block List.mem_cons_self)
          (hWord' block List.mem_cons_self),
        ih (fun other hOther =>
            hWord other (List.mem_cons_of_mem block hOther))
          (fun other hOther =>
            hWord' other (List.mem_cons_of_mem block hOther))]

/- A heap that is moved by double words is told of alike. -/
theorem Findings.violations_moved
    {table : SentinelTable}
    {findings : Findings}
    {base base' : Nat}
    (heapSize : Nat)
    (hBase : base % doubleWord = 0)
    (hBase' : base' % doubleWord = 0)
    (hWord : ∀ block ∈ findings.chain.blocks,
      base + block.offset < Word.limit)
    (hWord' : ∀ block ∈ findings.chain.blocks,
      base' + block.offset < Word.limit) :
    findings.violations table base' heapSize =
      findings.violations table base heapSize := by
  unfold violations
  rw [blockViolations_moved hBase hBase' hWord hWord']

------------------------------------------------------------
-- Details
------------------------------------------------------------

namespace Allocator

variable {a : Allocator}
variable {table : SentinelTable}
variable {report : Report}

/- Without the details, the rest of a report is the same. -/
theorem inspect_plain
    (h : a.inspect table true = .ok report) :
    a.inspect table false = .ok { report with details := [] } := by
  unfold inspect at h ⊢
  dsimp only at h ⊢
  rw [Fault.bind_eq_ok_iff] at h
  rcases h with ⟨findings, hGather, h⟩
  rw [Fault.bind_eq_ok_iff] at h
  rcases h with ⟨violations, hViolations, hReport⟩
  rw [Fault.bind_of_ok hGather, Fault.bind_of_ok hViolations]
  cases hReport
  rfl

/- Whoever asks for no details is told the rest. -/
theorem checkConsistency_plain
    (h : (a.checkConsistency true).outcome = .ok report) :
    a.checkConsistency false = {
      events := (a.checkConsistency true).events,
      outcome := .ok { report with details := [] } } := by
  cases hTable : a.table with
  | none =>
      unfold checkConsistency at h ⊢
      rw [hTable] at h ⊢
      cases h
      rfl
  | some table =>
      unfold checkConsistency at h ⊢
      rw [hTable] at h ⊢
      dsimp only at h ⊢
      rw [Traced.outcome_bind_eq_ok_iff] at h
      rcases h with ⟨told, hInspect, h⟩
      rw [Traced.outcome_bind_eq_ok_iff] at h
      rcases h with ⟨_, _, hReport⟩
      cases hReport
      have hDetailed : a.inspect table true = .ok report :=
        hInspect
      rw [Traced.lift_bind_of_ok _ hDetailed,
        Traced.lift_bind_of_ok _ (inspect_plain hDetailed),
        Traced.bind_of_eq _ (reportViolations_eq _),
        Traced.bind_of_eq _ (reportViolations_eq _)]
      rfl

/-
  Whatever the bytes of a heap are, a check of it ends with a
  report.  With or without the details it tells the same
  violations, in the same order, and counts the same blocks.
-/
theorem checkConsistency_total
    (hRoom : ∀ table, a.table = some table →
      table.firstBlock ≤ a.memory.size)
    (hWord : a.region.base + a.memory.size < Word.limit) :
    ∃ plain detailed,
      (a.checkConsistency false).outcome = .ok plain ∧
      (a.checkConsistency true).outcome = .ok detailed ∧
      plain.violations = detailed.violations ∧
      plain.blocks = detailed.blocks ∧
      plain.freeBlocks = detailed.freeBlocks ∧
      (a.checkConsistency false).events =
        (a.checkConsistency true).events := by
  rcases checkConsistency_ok hRoom hWord true with
    ⟨detailed, hDetailed⟩
  have hPlain := checkConsistency_plain hDetailed
  refine ⟨{ detailed with details := [] }, detailed, ?_,
    hDetailed, rfl, rfl, rfl, ?_⟩
  · rw [hPlain]
  · rw [hPlain]

/-
  Both checks end alike, be the list of the heap as it should
  or lead back to its only block.
-/
theorem checkConsistency_total_linked :
    (∃ plain detailed,
      ((linked 0).checkConsistency false).outcome =
        .ok plain ∧
      ((linked 0).checkConsistency true).outcome =
        .ok detailed ∧
      plain.violations = [] ∧
      detailed.violations = [] ∧
      plain.blocks = detailed.blocks ∧
      plain.freeBlocks = detailed.freeBlocks) ∧
    ∃ plain detailed,
      ((linked 192).checkConsistency false).outcome =
        .ok plain ∧
      ((linked 192).checkConsistency true).outcome =
        .ok detailed ∧
      plain.violations =
        [.brokenLink 0 192, .listedTwice 0 192] ∧
      detailed.violations =
        [.brokenLink 0 192, .listedTwice 0 192] ∧
      plain.blocks = detailed.blocks ∧
      plain.freeBlocks = detailed.freeBlocks := by
  have hTotal : ∀ next violations,
      (linked next).memory.size = 224 →
      ((linked next).checkConsistency false).outcome.map
        Report.violations = .ok violations →
      ∃ plain detailed,
        ((linked next).checkConsistency false).outcome =
          .ok plain ∧
        ((linked next).checkConsistency true).outcome =
          .ok detailed ∧
        plain.violations = violations ∧
        detailed.violations = violations ∧
        plain.blocks = detailed.blocks ∧
        plain.freeBlocks = detailed.freeBlocks := by
    intro next violations hSize hTold
    have hRoom : ∀ table, (linked next).table = some table →
        table.firstBlock ≤ (linked next).memory.size := by
      intro table hTable
      cases hTable
      rw [hSize]
      decide
    have hWord : (linked next).region.base +
        (linked next).memory.size < Word.limit := by
      rw [hSize]
      exact show 4096 + 224 < Word.limit by decide
    rcases checkConsistency_total hRoom hWord with
      ⟨plain, detailed, hPlain, hDetailed, hSame, hBlocks,
        hFree, _⟩
    rw [hPlain] at hTold
    have hViolations := Except.ok.inj hTold
    exact ⟨plain, detailed, hPlain, hDetailed, hViolations,
      hSame.symm.trans hViolations, hBlocks, hFree⟩
  exact ⟨hTotal _ _ linked_eq.1.1 linked_eq.1.2,
    hTotal _ _ linked_eq.2.1 linked_eq.2.2⟩

end Allocator

end SegregatedFit
