import SegregatedFit.Proofs.Client.Runs
import SegregatedFit.Proofs.Consistency.Redundancy

/-
  What the consistency check finds after any history.

  No word of the heap's own can be overwritten unnoticed,
  whatever bytes callers have left in their payloads.

  Key theorems include:
    * `Client.History.corruption_detected`
-/

namespace SegregatedFit

namespace Client

variable {start : Allocator}
variable {events : List Event}
variable {client : Client}
variable {table : SentinelTable}

namespace History

/-
  The chain of a heap can be walked.  If a tag or a link of
  its blocks or of the table is overwritten with another one,
  a check reports at least one violation.
-/
theorem corruption_detected
    (h : History start events client)
    (hTable : client.allocator.table = some table) :
    ∃ chain,
      client.allocator.memory.chain table.prologue =
        .ok chain ∧
      ∀ offset value,
        value < Word.limit →
        client.allocator.memory.Corrupts table chain.blocks
          offset value →
        ∃ m,
          client.allocator.memory.storeWord offset value =
            .ok m ∧
          ∀ verbose, ∃ report,
            ((client.allocator.withMemory m).checkConsistency
              verbose).outcome = .ok report ∧
            report.violations ≠ [] := by
  have hWord := h.sound.placed.size_lt
  have hRoom := h.sound.firstBlock_le hTable
  rcases h.sound.backed table hTable with ⟨view, hRest, _⟩
  rcases HeapView.stands_iff.1 hRest.stands with
    ⟨hDescribes, hRoomy⟩
  refine ⟨_, hRest.stands.chain_eq (by omega), ?_⟩
  intro offset value hValue hCorrupts
  rcases hDescribes.exists_storeWord hCorrupts with ⟨m, hStore⟩
  have hSize : m.size = client.allocator.memory.size :=
    Memory.size_of_storeWord hStore
  refine ⟨m, hStore, fun verbose => ?_⟩
  -- The store keeps the size, so a check can be made.
  have hCheck := Allocator.checkConsistency_sound
    (a := client.allocator.withMemory m) hTable
    (show table.firstBlock ≤ m.size by rw [hSize]; exact hRoom)
    (show client.allocator.region.base + m.size < Word.limit by
      rw [hSize]; exact hWord)
    verbose
  rcases hCheck with ⟨report, hReport, hSound⟩
  refine ⟨report, hReport, fun hClean => ?_⟩
  rcases hSound hClean with ⟨other, hOther, _⟩
  exact hDescribes.not_describes_of_corrupts hRoomy hValue
    hCorrupts hStore hOther

/- The header of the block of the sample is not set to zero. -/
theorem corruption_detected_sample :
    ∃ m,
      sample.allocator.memory.storeWord 184 0 = .ok m ∧
      ∀ verbose, ∃ report,
        ((sample.allocator.withMemory m).checkConsistency
          verbose).outcome = .ok report ∧
        report.violations ≠ [] := by
  rcases sample_history with ⟨events, hHistory⟩
  rcases hHistory.sound.exists_block sample_owns with
    ⟨table, view, block, hRest, _, hBlock, hAddress⟩
  have hTable := hRest.table_eq
  have hWord := hRest.placed.size_lt
  have hOffset : 192 = block.offset :=
    congrArg Address.offset hAddress
  have hMem := (HeapView.mem_allocatedBlocks_iff.1 hBlock).1
  have hHeader := (Memory.header_eq_ok_iff.1
    (hRest.header_eq hBlock)).2
  have hBounds := hRest.bounds hBlock
  rcases corruption_detected hHistory hTable with
    ⟨chain, hChain, hDetected⟩
  have hFound := hRest.stands.chain_eq (by omega)
  have hSame := Except.ok.inj (hFound.symm.trans hChain)
  subst hSame
  rw [← hOffset] at hHeader
  apply hDetected 184 0 (by decide)
  refine .tag ?_ ?_
  · have hWord : TagWord sample.allocator.memory.size
        (table.prologueBlock :: view.blocks)
        (block.offset - wordSize) :=
      .header block (List.mem_cons_of_mem _ hMem)
    rw [← hOffset] at hWord
    exact hWord
  · intro hZero
    have hTag := Except.ok.inj (hHeader.symm.trans hZero)
    rw [hTag] at hBounds
    exact absurd hBounds.2.1 (by decide)

end History

end Client

end SegregatedFit
