import SegregatedFit.FreeList.Basic

/-
  How blocks merge and split.

  A block that becomes free absorbs its free neighbours and
  is then listed (`SentinelTable.coalesce`).  A free block
  that is handed out gives back what is more than a least
  block (`SentinelTable.place`).
-/

namespace SegregatedFit

------------------------------------------------------------
-- Merging
------------------------------------------------------------

/- A free block after a merge, not yet listed. -/
structure Merged where
  memory : Memory
  start : Nat
  size : Nat

/-
  Merge the free block at `bp` with those of its neighbours
  that are free.  They leave their lists.
-/
def Memory.merge
    (m : Memory)
    (bp : Nat) : Except Fault Merged := do
  let tag ← m.header bp
  let before ← m.previousFooter bp
  let next ← m.nextBlock bp
  let after ← m.header next
  match before.allocated, after.allocated with
  | true, true =>
      return { memory := m, start := bp, size := tag.size }
  | true, false => do
      let size ← Word.add tag.size after.size
      let m ← m.unlink next
      let m ← m.writeTags bp { size := size, allocated := false }
      return { memory := m, start := bp, size := size }
  | false, true => do
      let previous ← m.previousBlock bp
      let front ← m.header previous
      let size ← Word.add tag.size front.size
      let m ← m.unlink previous
      let m ← m.writeTags previous
        { size := size, allocated := false }
      return { memory := m, start := previous, size := size }
  | false, false => do
      let previous ← m.previousBlock bp
      let front ← m.header previous
      let around ← Word.add front.size after.size
      let size ← Word.add tag.size around
      let m ← m.unlink previous
      let m ← m.unlink next
      let m ← m.writeTags previous
        { size := size, allocated := false }
      return { memory := m, start := previous, size := size }

/-
  Merge the free block at `bp` with its free neighbours and
  list the result.  The answer is where it starts.
-/
def SentinelTable.coalesce
    (table : SentinelTable)
    (m : Memory)
    (bp : Nat) : Except Fault (Memory × Nat) := do
  let merged ← m.merge bp
  let m ← table.insert merged.memory merged.start merged.size
  return (m, merged.start)

------------------------------------------------------------
-- Splitting
------------------------------------------------------------

/-
  Hand out `size` bytes at the start of the free block at
  `bp`.  The rest becomes a free block of its own if it is
  large enough, and the answer is then its size.
-/
def SentinelTable.place
    (table : SentinelTable)
    (m : Memory)
    (bp size : Nat) : Except Fault (Memory × Option Nat) := do
  let tag ← m.header bp
  let m ← m.unlink bp
  let rest ← Word.sub tag.size size
  if minimumBlock ≤ rest then
    let m ← m.writeTags bp { size := size, allocated := true }
    let remainder ← Word.add bp size
    let m ← m.writeTags remainder
      { size := rest, allocated := false }
    let m ← table.insert m remainder rest
    return (m, some rest)
  else
    let m ← m.writeTags bp
      { size := tag.size, allocated := true }
    return (m, none)

end SegregatedFit
