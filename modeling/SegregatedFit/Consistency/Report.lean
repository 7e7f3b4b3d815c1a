import SegregatedFit.Consistency.Violation

/-
  The report of a consistency check and its text.
-/

namespace SegregatedFit

/- A line of the detailed part of a report. -/
inductive ReportLine where
  | heap (base size : Nat)
  | emptyList (sizeClass : Nat)
  | listed (sizeClass offset : Nat) (header : Tag)
  | block (offset : Nat) (header footer : Tag)
  | endOfHeap (offset : Nat)
  | consistent (blocks freeBlocks : Nat)
  deriving DecidableEq, Repr

/-
  The text of a line.  How the base address is shown is up to
  the caller, since it differs from run to run.
-/
def ReportLine.toText
    (showBase : Nat → String) :
    ReportLine → String
| heap base size =>
    "Heap (" ++ showBase base ++ ", " ++ toString size ++
      " bytes):"
| emptyList sizeClass =>
    "  list " ++ toString sizeClass ++ ": empty"
| listed sizeClass offset header =>
    "  list " ++ toString sizeClass ++ ": " ++
      Text.hexadecimal offset ++ " [" ++ header.toText ++ "]"
| block offset header footer =>
    Text.hexadecimal offset ++ ": header: [" ++
      header.toText ++ "] footer: [" ++ footer.toText ++ "]"
| endOfHeap offset =>
    Text.hexadecimal offset ++ ": end of heap"
| consistent blocks freeBlocks =>
    toString blocks ++ " blocks, " ++ toString freeBlocks ++
      " free: heap is consistent"

/-
  What a check found: the violations in order, the number of
  blocks from the prologue on, the number of those that are
  free, and the details if they were asked for.
-/
structure Report where
  violations : List Violation
  blocks : Nat
  freeBlocks : Nat
  details : List ReportLine
  deriving DecidableEq, Repr

namespace Report

/- Reports without violations. -/
def isConsistent
    (report : Report) : Bool :=
  report.violations.isEmpty

/- The lines of a report: the details and then the violations. -/
def lines
    (showBase : Nat → String)
    (report : Report) : List String :=
  report.details.map (ReportLine.toText showBase) ++
    report.violations.map
      (fun violation => "Error: " ++ violation.message)

/- The text of a report, in which every line is ended. -/
def toText
    (showBase : Nat → String)
    (report : Report) : String :=
  String.join
    ((report.lines showBase).map (fun line => line ++ "\n"))

end Report

end SegregatedFit
