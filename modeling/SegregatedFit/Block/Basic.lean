import SegregatedFit.Block.Tag
import SegregatedFit.Memory.Basic

/-
  Blocks in memory.

  A block is known by the offset of its payload.  Its header
  is the word in front of the payload and its footer is the
  last word of the block, so both neighbours of a block are
  found without a search: the next block starts where the
  size in the header ends, and the word in front of a header
  is the footer of the block before.  A free block keeps its
  two list links in the first two words of its payload.

  Key definitions include:
    * `Block`
    * `Memory.header`, `Memory.footer`
    * `Memory.nextBlock`, `Memory.previousBlock`
    * `Memory.writeTags`
    * `Memory.nextLink`, `Memory.previousLink`
    * `Memory.block`
-/

namespace SegregatedFit

/- The least block: a header, a footer and two links. -/
abbrev minimumBlock : Nat :=
  32

/- What can be read of a block. -/
inductive Block where
  | free (size previous next : Nat)
  | allocated (size : Nat)
  deriving DecidableEq, Repr

namespace Block

/- The size of a block. -/
def size :
    Block → Nat
| free size _ _ => size
| allocated size => size

/- Free blocks. -/
def isFree :
    Block → Bool
| free _ _ _ => true
| allocated _ => false

end Block

namespace Memory

------------------------------------------------------------
-- Boundary Tags
------------------------------------------------------------

/- The tag in the word at an offset. -/
def loadTag
    (m : Memory)
    (offset : Nat) : Except Fault Tag := do
  let word ← m.loadWord offset
  return Tag.unpack word

/- The header of the block at `bp`. -/
def header
    (m : Memory)
    (bp : Nat) : Except Fault Tag := do
  let offset ← Word.sub bp wordSize
  m.loadTag offset

/- The footer of the block at `bp`. -/
def footer
    (m : Memory)
    (bp : Nat) : Except Fault Tag := do
  let tag ← m.header bp
  let stop ← Word.add bp tag.size
  let offset ← Word.sub stop doubleWord
  m.loadTag offset

/- The footer of the block in front of the one at `bp`. -/
def previousFooter
    (m : Memory)
    (bp : Nat) : Except Fault Tag := do
  let offset ← Word.sub bp doubleWord
  m.loadTag offset

/- The block behind the one at `bp`. -/
def nextBlock
    (m : Memory)
    (bp : Nat) : Except Fault Nat := do
  let tag ← m.header bp
  Word.add bp tag.size

/- The block in front of the one at `bp`. -/
def previousBlock
    (m : Memory)
    (bp : Nat) : Except Fault Nat := do
  let tag ← m.previousFooter bp
  Word.sub bp tag.size

/-
  Write the header and the footer of the block at `bp`.  The
  footer goes where the new size ends, whatever size the
  header had before.
-/
def writeTags
    (m : Memory)
    (bp : Nat)
    (tag : Tag) : Except Fault Memory := do
  let front ← Word.sub bp wordSize
  let m ← m.storeWord front tag.pack
  let stop ← Word.add bp tag.size
  let back ← Word.sub stop doubleWord
  m.storeWord back tag.pack

------------------------------------------------------------
-- List Links
------------------------------------------------------------

/- The node behind a node of a free list. -/
def nextLink
    (m : Memory)
    (node : Nat) : Except Fault Nat :=
  m.loadWord node

/- The node in front of a node of a free list. -/
def previousLink
    (m : Memory)
    (node : Nat) : Except Fault Nat := do
  let offset ← Word.add node wordSize
  m.loadWord offset

/- Set the node behind a node of a free list. -/
def setNextLink
    (m : Memory)
    (node next : Nat) : Except Fault Memory :=
  m.storeWord node next

/- Set the node in front of a node of a free list. -/
def setPreviousLink
    (m : Memory)
    (node previous : Nat) : Except Fault Memory := do
  let offset ← Word.add node wordSize
  m.storeWord offset previous

------------------------------------------------------------
-- Views
------------------------------------------------------------

/- The block at `bp`, read from its header and its links. -/
def block
    (m : Memory)
    (bp : Nat) : Except Fault Block := do
  let tag ← m.header bp
  if tag.allocated then
    return .allocated tag.size
  else
    let previous ← m.previousLink bp
    let next ← m.nextLink bp
    return .free tag.size previous next

end Memory

end SegregatedFit
