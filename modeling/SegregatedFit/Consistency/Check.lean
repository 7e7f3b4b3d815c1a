import Std.Data.TreeSet
import SegregatedFit.Allocator.Basic
import SegregatedFit.Consistency.Listing
import SegregatedFit.Consistency.Report
import SegregatedFit.Traced

/-
  The consistency check of a heap.

  It walks the free lists and the chain of blocks over
  whatever bytes there are and then compares the two.  It
  only reads.

  Key definitions include:
    * `Findings`
    * `Allocator.checkConsistency`
-/

namespace SegregatedFit

------------------------------------------------------------
-- Violations of Blocks
------------------------------------------------------------

/- The violations of one block by its own tags. -/
def tagViolations
    (base : Nat)
    (block : ChainBlock) : Except Fault (List Violation) := do
  let address ← Word.add base block.offset
  let misaligned : List Violation :=
    if address % doubleWord ≠ 0 then
      [.misaligned block.offset]
    else
      []
  let mismatch : List Violation :=
    if block.header ≠ block.footer then
      [.tagMismatch block.offset block.header block.footer]
    else
      []
  return misaligned ++ mismatch

/- Free blocks have to stand in the list of their class. -/
def freeBlockViolations
    (listing : Listing)
    (block : ChainBlock) : List Violation :=
  let expected := SizeClass.classify block.header.size
  match listing[block.offset]? with
  | none =>
      [.freeBlockNotListed block.offset block.header.size
        expected]
  | some found =>
      if found ≠ expected then
        [.wrongClass block.offset expected found]
      else
        []

/- Allocated blocks have to stand in no list. -/
def allocatedBlockViolations
    (listing : Listing)
    (block : ChainBlock) : List Violation :=
  match listing[block.offset]? with
  | none => []
  | some found =>
      [.allocatedBlockListed block.offset found]

/- No free block may follow a free block. -/
def neighbourViolations
    (previousFree : Option Nat)
    (block : ChainBlock) : List Violation :=
  match previousFree with
  | none => []
  | some first => [.uncoalesced first block.offset]

/- The violations of one block by its lists and neighbours. -/
def placeViolations
    (listing : Listing)
    (prologue : Nat)
    (previousFree : Option Nat)
    (block : ChainBlock) : List Violation :=
  if block.offset = prologue then
    []
  else if block.header.allocated then
    allocatedBlockViolations listing block
  else
    freeBlockViolations listing block ++
      neighbourViolations previousFree block

/-
  The violations of the blocks of a chain.  `previousFree`
  is the block in front of them if that is free.
-/
def blockViolations
    (base : Nat)
    (listing : Listing)
    (prologue : Nat) :
    Option Nat → List ChainBlock →
      Except Fault (List Violation)
| _, [] => .ok []
| previousFree, block :: blocks => do
    let own ← tagViolations base block
    let placed :=
      placeViolations listing prologue previousFree block
    let rest ←
      blockViolations base listing prologue
        (if block.header.allocated then
          none
        else
          some block.offset)
        blocks
    return own ++ placed ++ rest

/- A chain has to end with an allocated header at the heap end. -/
def endViolations
    (heapSize : Nat) :
    ChainEnd → List Violation
| .outOfBounds offset => [.outOfBounds offset]
| .sizeZero offset header =>
    if header.allocated = true ∧ offset = heapSize then
      []
    else
      [.badEpilogue offset header]

------------------------------------------------------------
-- Findings
------------------------------------------------------------

/- All that the walks over a heap find. -/
structure Findings where
  header : Tag
  footer : Tag
  walks : List ListWalk
  listing : Listing
  chain : Chain

namespace Findings

/- Walk the free lists and the chain of a heap. -/
def gather
    (table : SentinelTable)
    (m : Memory) : Except Fault Findings := do
  let header ← m.header table.prologue
  let footer ← m.loadTag table.prologue
  let (walks, listing) ← table.walkLists m
  let chain ← m.chain table.prologue
  return {
    header := header,
    footer := footer,
    walks := walks,
    listing := listing,
    chain := chain }

/- The number of free blocks behind the prologue. -/
def freeBlocks
    (table : SentinelTable)
    (findings : Findings) : Nat :=
  findings.chain.blocks.countP (fun block =>
    block.offset ≠ table.prologue && !block.header.allocated)

/- Both tags of the prologue have to be as they were laid out. -/
def prologueViolations
    (findings : Findings) : List Violation :=
  if findings.header = Tag.prologue ∧
      findings.footer = findings.header then
    []
  else
    [.badPrologue findings.header findings.footer]

/- Every listed node has to be a block of the chain. -/
def strayViolations
    (findings : Findings) : List Violation :=
  let offsets :=
    Std.TreeSet.ofList
      (findings.chain.blocks.map ChainBlock.offset)
  let strays :=
    findings.listing.toList.filter
      (fun entry => !offsets.contains entry.1)
  strays.map (fun entry => .listedNotABlock entry.2 entry.1)

/- As many nodes have to be listed as there are free blocks. -/
def countViolations
    (table : SentinelTable)
    (findings : Findings) : List Violation :=
  let listed := findings.listing.size
  let walked := findings.freeBlocks table
  if listed ≠ walked then
    [.countMismatch listed walked]
  else
    []

/- All violations, in the order of their discovery. -/
def violations
    (table : SentinelTable)
    (base heapSize : Nat)
    (findings : Findings) :
    Except Fault (List Violation) := do
  let blocks ←
    blockViolations base findings.listing table.prologue none
      findings.chain.blocks
  return findings.prologueViolations ++
    findings.walks.flatMap (ListWalk.violations table) ++
    blocks ++
    endViolations heapSize findings.chain.stop ++
    findings.strayViolations ++
    findings.countViolations table

------------------------------------------------------------
-- Details
------------------------------------------------------------

/- The lines of one free list. -/
def listLines
    (walk : ListWalk) : List ReportLine :=
  match walk.nodes, walk.stop with
  | [], .sentinel _ => [.emptyList walk.sizeClass]
  | nodes, _ =>
      nodes.map (fun node =>
        .listed walk.sizeClass node.offset node.header)

/- The line of the end of a chain. -/
def endLines :
    ChainEnd → List ReportLine
| .outOfBounds _ => []
| .sizeZero offset _ => [.endOfHeap offset]

/- The lines of the whole heap. -/
def details
    (base heapSize : Nat)
    (findings : Findings) : List ReportLine :=
  [.heap base heapSize] ++
    findings.walks.flatMap listLines ++
    findings.chain.blocks.map (fun block =>
      .block block.offset block.header block.footer) ++
    endLines findings.chain.stop

end Findings

------------------------------------------------------------
-- The Check
------------------------------------------------------------

namespace Allocator

/- The report on a heap that begins with a table. -/
def inspect
    (a : Allocator)
    (table : SentinelTable)
    (verbose : Bool) : Except Fault Report := do
  let base := a.region.base
  let heapSize := a.memory.size
  let findings ← Findings.gather table a.memory
  let violations ← findings.violations table base heapSize
  let blocks := findings.chain.blocks.length
  let freeBlocks := findings.freeBlocks table
  let closing : List ReportLine :=
    if violations.isEmpty then
      [.consistent blocks freeBlocks]
    else
      []
  return {
    violations := violations,
    blocks := blocks,
    freeBlocks := freeBlocks,
    details :=
      if verbose then
        findings.details base heapSize ++ closing
      else
        [] }

/- Report every violation as an event. -/
def reportViolations :
    List Violation → Traced Unit
| [] => pure ()
| violation :: violations => do
    Traced.report (.inconsistent violation)
    reportViolations violations

/-
  Check every invariant of the heap.  The details list every
  block and every free list.
-/
def checkConsistency
    (a : Allocator)
    (verbose : Bool) : Traced Report := do
  let report ←
    match a.table with
    | none =>
        pure {
          violations := [.notInitialized],
          blocks := 0,
          freeBlocks := 0,
          details := [] }
    | some table => a.inspect table verbose
  reportViolations report.violations
  return report

end Allocator

end SegregatedFit
