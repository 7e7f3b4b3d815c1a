import Std.Data.TreeMap
import SegregatedFit.Consistency.Violation
import SegregatedFit.FreeList.Basic

/-
  What a careful walk of the free lists finds.

  The walk trusts no link.  It ends at the sentinel, at a
  link that cannot lead to a block, and at a node that it has
  met before, be it in this list or in an earlier one.

  Key definitions include:
    * `Listing`
    * `ListWalk`
    * `SentinelTable.walkLists`
    * `ListWalk.violations`
-/

namespace SegregatedFit

------------------------------------------------------------
-- Walks
------------------------------------------------------------

/- The nodes met so far, in ascending order, and their classes. -/
abbrev Listing :=
  Std.TreeMap Nat Nat

/- A node of a list with its back link and its header. -/
structure ListNode where
  offset : Nat
  previous : Nat
  header : Tag
  deriving DecidableEq, Repr

/-
  How a walk ends: at the sentinel, whose back link is told,
  at a link that leads nowhere, or at a node met before.
-/
inductive ListEnd where
  | sentinel (previous : Nat)
  | broken
  | repeated (offset previous : Nat)
  deriving DecidableEq, Repr

/- The nodes of one list and how the walk of it ended. -/
structure ListWalk where
  sizeClass : Nat
  nodes : List ListNode
  stop : ListEnd
  deriving DecidableEq, Repr

/- Links that can lead to a block. -/
def SentinelTable.isNode
    (table : SentinelTable)
    (m : Memory)
    (node : Nat) : Bool :=
  wordSize ≤ node &&
    node ≤ m.size - doubleWord &&
    !table.isSentinel node

/-
  Walk the list of class `c` from `node` on, over at most
  `steps` nodes.
-/
def SentinelTable.walkFrom
    (table : SentinelTable)
    (m : Memory)
    (c : Nat) :
    Nat → Nat → Listing → Except Fault (ListWalk × Listing)
| steps, node, listing =>
    if node = table.sentinel c then do
      let previous ← m.previousLink node
      return (
        { sizeClass := c, nodes := [],
          stop := .sentinel previous }, listing)
    else
      match steps with
      | 0 =>
          .ok ({ sizeClass := c, nodes := [], stop := .broken },
            listing)
      | steps + 1 =>
          if table.isNode m node then do
            let previous ← m.previousLink node
            if listing.contains node then
              return (
                { sizeClass := c, nodes := [],
                  stop := .repeated node previous },
                listing.insert node c)
            else
              let header ← m.header node
              let next ← m.nextLink node
              let (rest, listing) ←
                walkFrom table m c steps next
                  (listing.insert node c)
              return (
                { rest with
                  nodes :=
                    { offset := node, previous := previous,
                      header := header } :: rest.nodes },
                listing)
          else
            .ok ({ sizeClass := c, nodes := [], stop := .broken },
              listing)

/- Walk the lists of the given classes one after the other. -/
def SentinelTable.walkClasses
    (table : SentinelTable)
    (m : Memory) :
    List Nat → Listing → Except Fault (List ListWalk × Listing)
| [], listing => .ok ([], listing)
| c :: cs, listing => do
    let head ← m.nextLink (table.sentinel c)
    let (walk, listing) ←
      table.walkFrom m c (m.blockBound + 1) head listing
    let (walks, listing) ← walkClasses table m cs listing
    return (walk :: walks, listing)

/- Walk all lists. -/
def SentinelTable.walkLists
    (table : SentinelTable)
    (m : Memory) : Except Fault (List ListWalk × Listing) :=
  table.walkClasses m SizeClass.all ∅

------------------------------------------------------------
-- Violations
------------------------------------------------------------

/- A back link that does not name the node in front. -/
def backLinkViolations
    (c previous node back : Nat) : List Violation :=
  if back ≠ previous then
    [.brokenLink c node]
  else
    []

/-
  The violations of a list from the node `previous` on.  A
  link that leads nowhere is the fault of the node that holds
  it.
-/
def listViolations
    (c sentinel : Nat)
    (stop : ListEnd) :
    Nat → List ListNode → List Violation
| previous, [] =>
    match stop with
    | .sentinel back =>
        backLinkViolations c previous sentinel back
    | .broken => [.brokenLink c previous]
    | .repeated offset back =>
        backLinkViolations c previous offset back ++
          [.listedTwice c offset]
| previous, node :: nodes =>
    backLinkViolations c previous node.offset node.previous ++
      listViolations c sentinel stop node.offset nodes

/- The violations of a walk. -/
def ListWalk.violations
    (table : SentinelTable)
    (walk : ListWalk) : List Violation :=
  let sentinel := table.sentinel walk.sizeClass
  listViolations walk.sizeClass sentinel walk.stop sentinel
    walk.nodes

end SegregatedFit
