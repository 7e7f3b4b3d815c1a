import SegregatedFit.Consistency.Check
import SegregatedFit.Proofs.Heap.Workspace

/-
  The consistency check ends with a report, whatever bytes
  the heap has.

  The walks only read where they have found room, and they
  are bounded.  All that is asked of the heap is that its
  table and its prologue lie in memory.

  Key theorems include:
    * `SentinelTable.walkLists_ok`
    * `Memory.chainFrom_ok`
    * `Findings.exists_violations`
    * `Allocator.checkConsistency_eq`
    * `Allocator.checkConsistency_ok`
-/

namespace SegregatedFit

------------------------------------------------------------
-- Free Lists
------------------------------------------------------------

namespace SentinelTable

variable {table : SentinelTable}
variable {m : Memory}

/- A walk of a list ends, wherever its links lead. -/
theorem walkFrom_ok
    {c : Nat}
    (steps node : Nat)
    (listing : Listing)
    (hClass : c < SizeClass.count)
    (hRoom : table.firstBlock ≤ m.size)
    (hWord : m.size < Word.limit) :
    ∃ result,
      table.walkFrom m c steps node listing = .ok result := by
  have hSizes := layout_sizes
  have hFirst := table.firstBlock_eq
  have hInside := table.sentinel_inside hClass
  induction steps generalizing node listing with
  | zero =>
      unfold walkFrom
      by_cases hEnd : node = table.sentinel c
      · rw [if_pos hEnd]
        rcases m.exists_previousLink node (by omega)
            (by omega) with
          ⟨previous, hPrevious⟩
        rw [Fault.bind_of_ok hPrevious]
        exact ⟨_, rfl⟩
      · rw [if_neg hEnd]
        exact ⟨_, rfl⟩
  | succ steps ih =>
      unfold walkFrom
      by_cases hEnd : node = table.sentinel c
      · rw [if_pos hEnd]
        rcases m.exists_previousLink node (by omega)
            (by omega) with
          ⟨previous, hPrevious⟩
        rw [Fault.bind_of_ok hPrevious]
        exact ⟨_, rfl⟩
      · rw [if_neg hEnd]
        dsimp only
        by_cases hNode : table.isNode m node = true
        · rw [if_pos hNode]
          simp only [isNode, Bool.and_eq_true,
            decide_eq_true_eq] at hNode
          rcases m.exists_previousLink node (by omega)
              (by omega) with
            ⟨previous, hPrevious⟩
          rcases m.exists_header node (by omega)
              (by omega) with
            ⟨header, hHeader⟩
          rcases m.exists_loadWord node (by omega) with
            ⟨next, hNext⟩
          have hNext' : m.nextLink node = .ok next := hNext
          rcases ih next (listing.insert node c) with
            ⟨result, hResult⟩
          rw [Fault.bind_of_ok hPrevious]
          by_cases hMet : listing.contains node = true
          · rw [if_pos hMet]
            exact ⟨_, rfl⟩
          · rw [if_neg hMet, Fault.bind_of_ok hHeader,
              Fault.bind_of_ok hNext',
              Fault.bind_of_ok hResult]
            exact ⟨_, rfl⟩
        · rw [if_neg hNode]
          exact ⟨_, rfl⟩

/- The lists of a heap can be walked. -/
theorem walkLists_ok
    (hRoom : table.firstBlock ≤ m.size)
    (hWord : m.size < Word.limit) :
    ∃ result, table.walkLists m = .ok result := by
  have hSizes := layout_sizes
  have hFirst := table.firstBlock_eq
  have hClasses : ∀ (cs : List Nat) (listing : Listing),
      (∀ c ∈ cs, c < SizeClass.count) →
      ∃ result, table.walkClasses m cs listing =
        .ok result := by
    intro cs
    induction cs with
    | nil =>
        intro listing _
        exact ⟨_, rfl⟩
    | cons c cs ih =>
        intro listing hAll
        have hClass := hAll c List.mem_cons_self
        have hInside := table.sentinel_inside hClass
        rcases m.exists_loadWord (table.sentinel c)
            (by omega) with
          ⟨head, hHead⟩
        have hHead' : m.nextLink (table.sentinel c) =
            .ok head :=
          hHead
        rcases walkFrom_ok (m.blockBound + 1) head listing
            hClass hRoom hWord with
          ⟨walked, hWalk⟩
        rcases ih walked.2 (fun d hd =>
            hAll d (List.mem_cons_of_mem c hd)) with
          ⟨rest, hRest⟩
        unfold walkClasses
        rw [Fault.bind_of_ok hHead', Fault.bind_of_ok hWalk]
        dsimp only
        rw [Fault.bind_of_ok hRest]
        exact ⟨_, rfl⟩
  apply hClasses
  intro c hc
  exact SizeClass.mem_all_iff.1 hc

end SentinelTable

------------------------------------------------------------
-- The Chain
------------------------------------------------------------

namespace Memory

/- A walk of the chain ends and stays in memory. -/
theorem chainFrom_ok
    (m : Memory)
    (steps bp : Nat)
    (hFront : wordSize ≤ bp) :
    ∃ chain, m.chainFrom steps bp = .ok chain ∧
      ∀ block ∈ chain.blocks, block.offset ≤ m.size := by
  have hSizes := Word.sizes_eq
  induction steps generalizing bp with
  | zero =>
      refine ⟨_, rfl, ?_⟩
      intro block hBlock
      cases hBlock
  | succ steps ih =>
      unfold chainFrom
      by_cases hOut : m.size < bp
      · rw [if_pos hOut]
        refine ⟨_, rfl, ?_⟩
        intro block hBlock
        cases hBlock
      · rw [if_neg hOut]
        rcases m.exists_header bp hFront
            (Nat.le_of_not_lt hOut) with
          ⟨header, hHeader⟩
        rw [Fault.bind_of_ok hHeader]
        by_cases hZero : header.size = 0
        · rw [if_pos hZero]
          refine ⟨_, rfl, ?_⟩
          intro block hBlock
          cases hBlock
        · rw [if_neg hZero]
          by_cases hPast : Word.limit ≤ bp + header.size ∨
              m.size < bp + header.size - wordSize
          · rw [if_pos hPast]
            refine ⟨_, rfl, ?_⟩
            intro block hBlock
            cases hBlock
          · rw [if_neg hPast]
            -- A size that is not zero has room for two tags.
            have hMod : header.size % 16 = 0 := by
              have hTag := hHeader
              rw [header_eq_ok_iff, loadTag_eq_ok_iff] at hTag
              rcases hTag with ⟨_, word, _, hUnpack⟩
              rw [← hUnpack]
              exact Tag.size_unpack_mod word
            rcases m.exists_loadWord
                (bp + header.size - doubleWord)
                (by omega) with
              ⟨word, hWord⟩
            have hFooter : m.footer bp =
                .ok (Tag.unpack word) := by
              rw [footer_eq_ok_iff]
              refine ⟨header, hHeader, by omega, ?_⟩
              rw [previousFooter_eq_ok_iff]
              refine ⟨by omega, ?_⟩
              rw [loadTag_eq_ok_iff]
              exact ⟨word, hWord, rfl⟩
            rcases ih (bp + header.size) (by omega) with
              ⟨rest, hRest, hInside⟩
            rw [Fault.bind_of_ok hFooter,
              Fault.bind_of_ok hRest]
            refine ⟨_, rfl, ?_⟩
            intro block hBlock
            rcases List.mem_cons.1 hBlock with hEq | hBlock
            · rw [hEq]
              exact Nat.le_of_not_lt hOut
            · exact hInside block hBlock

end Memory

------------------------------------------------------------
-- The Check
------------------------------------------------------------

namespace Findings

/- All that the check looks at can be read. -/
theorem gather_ok
    {table : SentinelTable}
    {m : Memory}
    (hRoom : table.firstBlock ≤ m.size)
    (hWord : m.size < Word.limit) :
    ∃ findings, gather table m = .ok findings ∧
      ∀ block ∈ findings.chain.blocks,
        block.offset ≤ m.size := by
  have hSizes := layout_sizes
  have hFirst := table.firstBlock_eq
  have hPrologue := table.prologue_eq
  rcases m.exists_header table.prologue (by omega)
      (by omega) with
    ⟨header, hHeader⟩
  rcases m.exists_loadWord table.prologue (by omega) with
    ⟨word, hFooter⟩
  have hTag : m.loadTag table.prologue =
      .ok (Tag.unpack word) :=
    Memory.loadTag_eq_ok_iff.2 ⟨word, hFooter, rfl⟩
  rcases SentinelTable.walkLists_ok hRoom hWord with
    ⟨listed, hListed⟩
  rcases m.chainFrom_ok (m.blockBound + 1) table.prologue
      (by omega) with
    ⟨chain, hChain, hInside⟩
  have hChain' : m.chain table.prologue = .ok chain := hChain
  unfold gather
  rw [Fault.bind_of_ok hHeader, Fault.bind_of_ok hTag,
    Fault.bind_of_ok hListed]
  dsimp only
  rw [Fault.bind_of_ok hChain']
  exact ⟨_, rfl, hInside⟩

/- The violations are told if all addresses are words. -/
theorem violations_ok
    (findings : Findings)
    (table : SentinelTable)
    {base : Nat}
    (heapSize : Nat)
    (hWord : ∀ block ∈ findings.chain.blocks,
      base + block.offset < Word.limit) :
    ∃ violations,
      findings.violations table base heapSize =
        .ok violations := by
  have hBlocks : ∀ (blocks : List ChainBlock)
      (previousFree : Option Nat),
      (∀ block ∈ blocks, base + block.offset < Word.limit) →
      ∃ violations,
        blockViolations base findings.listing table.prologue
          previousFree blocks = .ok violations := by
    intro blocks
    induction blocks with
    | nil =>
        intro previousFree _
        exact ⟨_, rfl⟩
    | cons block blocks ih =>
        intro previousFree hAll
        have hAdd :=
          Word.add_of_lt (hAll block List.mem_cons_self)
        rcases ih
            (if block.header.allocated then
              none
            else
              some block.offset)
            (fun other hOther =>
              hAll other (List.mem_cons_of_mem block hOther))
          with ⟨rest, hRest⟩
        unfold blockViolations tagViolations
        rw [Fault.bind_of_ok hAdd]
        dsimp only
        rw [pure_bind, Fault.bind_of_ok hRest]
        exact ⟨_, rfl⟩
  rcases hBlocks findings.chain.blocks none hWord with
    ⟨found, hFound⟩
  unfold violations
  rw [Fault.bind_of_ok hFound]
  exact ⟨_, rfl⟩

/- The walks and the violations that they find are told. -/
theorem exists_violations
    {table : SentinelTable}
    {m : Memory}
    {base : Nat}
    (hRoom : table.firstBlock ≤ m.size)
    (hWord : base + m.size < Word.limit) :
    ∃ findings violations,
      gather table m = .ok findings ∧
        findings.violations table base m.size =
          .ok violations := by
  rcases gather_ok hRoom (by omega) with
    ⟨findings, hGather, hInside⟩
  have hAddresses : ∀ block ∈ findings.chain.blocks,
      base + block.offset < Word.limit := by
    intro block hBlock
    have hLe := hInside block hBlock
    omega
  rcases findings.violations_ok table m.size hAddresses with
    ⟨violations, hViolations⟩
  exact ⟨findings, violations, hGather, hViolations⟩

end Findings

namespace Allocator

variable {a : Allocator}
variable {table : SentinelTable}
variable {findings : Findings}
variable {violations : List Violation}

/- Violations are reported one by one. -/
theorem reportViolations_eq
    (violations : List Violation) :
    reportViolations violations = {
      events := violations.map Event.inconsistent,
      outcome := .ok () } := by
  induction violations with
  | nil => rfl
  | cons violation violations ih =>
      rw [reportViolations, Traced.report_bind, ih]
      rfl

/- The report of a check tells the violations that were found. -/
theorem checkConsistency_eq
    (hTable : a.table = some table)
    (hGather : Findings.gather table a.memory = .ok findings)
    (hViolations :
      findings.violations table a.region.base a.memory.size =
        .ok violations)
    (verbose : Bool) :
    ∃ report,
      a.checkConsistency verbose = {
        events := violations.map Event.inconsistent,
        outcome := .ok report } ∧
      report.violations = violations := by
  have hInspect : ∃ report,
      a.inspect table verbose = .ok report ∧
        report.violations = violations := by
    unfold inspect
    dsimp only
    rw [Fault.bind_of_ok hGather, Fault.bind_of_ok hViolations]
    exact ⟨_, rfl, rfl⟩
  rcases hInspect with ⟨report, hReport, rfl⟩
  refine ⟨report, ?_, rfl⟩
  unfold checkConsistency
  rw [hTable]
  dsimp only
  rw [Traced.lift_bind_of_ok _ hReport,
    Traced.bind_of_eq _ (reportViolations_eq _)]
  change Traced.mk (_ ++ []) _ = _
  rw [List.append_nil]
  rfl

/-
  Every check ends with a report if the table and the
  prologue of the heap lie in memory and addresses are words.
-/
theorem checkConsistency_ok
    (hRoom : ∀ table, a.table = some table →
      table.firstBlock ≤ a.memory.size)
    (hWord : a.region.base + a.memory.size < Word.limit)
    (verbose : Bool) :
    ∃ report,
      (a.checkConsistency verbose).outcome = .ok report := by
  cases hTable : a.table with
  | none =>
      unfold checkConsistency
      rw [hTable]
      exact ⟨{
        violations := [.notInitialized],
        blocks := 0,
        freeBlocks := 0,
        details := [] }, rfl⟩
  | some table =>
      rcases Findings.exists_violations (hRoom table hTable)
          hWord with
        ⟨findings, violations, hGather, hViolations⟩
      rcases checkConsistency_eq hTable hGather hViolations
          verbose with
        ⟨report, hCheck, _⟩
      exact ⟨report, by rw [hCheck]⟩

end Allocator

end SegregatedFit
