import SegregatedFit.Block.Chain
import SegregatedFit.FreeList.SizeClass

/-
  Free lists.

  Each size class has a circular list of free blocks with
  links in both directions.  It begins and ends at a
  sentinel, a pair of link words in the sentinel table.  New
  blocks enter at the head, and a block leaves its list
  without the list being named.

  Walks trust the links only as far as they must: they stop
  at the sentinel and at a link that leaves the memory.

  Key definitions include:
    * `SentinelTable`
    * `SentinelTable.clear`
    * `SentinelTable.insert`
    * `Memory.unlink`
    * `SentinelTable.firstFit`
    * `SentinelTable.freeBytes`
-/

namespace SegregatedFit

/- The table of sentinels, known by the offset of its first byte. -/
structure SentinelTable where
  offset : Nat
  deriving DecidableEq, Repr

namespace SentinelTable

------------------------------------------------------------
-- Sentinels
------------------------------------------------------------

/- The size of the table in bytes. -/
abbrev size : Nat :=
  160

/- The sentinel of a class. -/
def sentinel
    (table : SentinelTable)
    (c : Nat) : Nat :=
  table.offset + c * doubleWord

/- Offsets at which a sentinel stands. -/
def isSentinel
    (table : SentinelTable)
    (node : Nat) : Bool :=
  table.offset ≤ node &&
    node < table.offset + size &&
    (node - table.offset) % doubleWord = 0

/- Make the given lists empty: their sentinels name themselves. -/
def clearClasses
    (table : SentinelTable) :
    List Nat → Memory → Except Fault Memory
| [], m => .ok m
| c :: cs, m => do
    let node := table.sentinel c
    let m ← m.setNextLink node node
    let m ← m.setPreviousLink node node
    clearClasses table cs m

/- Make all lists empty. -/
def clear
    (table : SentinelTable)
    (m : Memory) : Except Fault Memory :=
  table.clearClasses SizeClass.all m

------------------------------------------------------------
-- Insertion and Removal
------------------------------------------------------------

/- Put the block at `bp` at the head of the list for `blockSize`. -/
def insert
    (table : SentinelTable)
    (m : Memory)
    (bp blockSize : Nat) : Except Fault Memory := do
  let start := table.sentinel (SizeClass.classify blockSize)
  let after ← m.nextLink start
  let m ← m.setPreviousLink bp start
  let m ← m.setNextLink bp after
  let m ← m.setPreviousLink after bp
  m.setNextLink start bp

end SentinelTable

/- Take the block at `bp` out of the list that holds it. -/
def Memory.unlink
    (m : Memory)
    (bp : Nat) : Except Fault Memory := do
  let previous ← m.previousLink bp
  let next ← m.nextLink bp
  let m ← m.setNextLink previous next
  m.setPreviousLink next previous

------------------------------------------------------------
-- Walks
------------------------------------------------------------

namespace FreeList

/- A walk is over at the sentinel and outside the memory. -/
def atEnd
    (m : Memory)
    (sentinel node : Nat) : Bool :=
  node = sentinel || m.size - doubleWord < node

/-
  The first block from `node` on that has at least `size`
  bytes, looked for among at most `steps` nodes.

  A walk that passes more nodes than the memory has bytes has
  met one of them twice and would never end.
-/
def firstFitFrom
    (m : Memory)
    (sentinel size : Nat) :
    Nat → Nat → Except Fault (Option Nat)
| 0, node =>
    if atEnd m sentinel node then
      .ok none
    else
      .error .endless
| steps + 1, node =>
    if atEnd m sentinel node then
      .ok none
    else do
      let next ← m.nextLink node
      let tag ← m.header node
      if size ≤ tag.size then
        return some node
      else
        firstFitFrom m sentinel size steps next

/-
  The sum of the block sizes from `node` on, over at most
  `steps` nodes, added to a total.
-/
def totalFrom
    (m : Memory)
    (sentinel : Nat) :
    Nat → Nat → Nat → Except Fault Nat
| 0, _, total => .ok total
| steps + 1, node, total =>
    if atEnd m sentinel node then
      .ok total
    else do
      let next ← m.nextLink node
      let tag ← m.header node
      let total ← Word.add total tag.size
      totalFrom m sentinel steps next total

end FreeList

namespace SentinelTable

/- The first block of a class that has at least `size` bytes. -/
def firstFitIn
    (table : SentinelTable)
    (m : Memory)
    (size c : Nat) : Except Fault (Option Nat) := do
  let head ← m.nextLink (table.sentinel c)
  FreeList.firstFitFrom m (table.sentinel c) size m.size head

/- The first block of at least `size` bytes in the given classes. -/
def firstFitAmong
    (table : SentinelTable)
    (m : Memory)
    (size : Nat) :
    List Nat → Except Fault (Option Nat)
| [] => .ok none
| c :: cs => do
    match ← table.firstFitIn m size c with
    | some bp => return some bp
    | none => firstFitAmong table m size cs

/-
  The first block of at least `size` bytes, looked for from
  the class of that size upwards.
-/
def firstFit
    (table : SentinelTable)
    (m : Memory)
    (size : Nat) : Except Fault (Option Nat) :=
  table.firstFitAmong m size
    (SizeClass.upFrom (SizeClass.classify size))

/- The sum of the sizes in the given lists, added to a total. -/
def freeBytesAmong
    (table : SentinelTable)
    (m : Memory) :
    List Nat → Nat → Except Fault Nat
| [], total => .ok total
| c :: cs, total => do
    let head ← m.nextLink (table.sentinel c)
    let total ←
      FreeList.totalFrom m (table.sentinel c) m.blockBound
        head total
    freeBytesAmong table m cs total

/-
  The sum of the sizes of all listed blocks.  In each list no
  more nodes are visited than the memory can hold blocks.
-/
def freeBytes
    (table : SentinelTable)
    (m : Memory) : Except Fault Nat :=
  table.freeBytesAmong m SizeClass.all 0

end SentinelTable

end SegregatedFit
