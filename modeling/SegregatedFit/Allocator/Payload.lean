import SegregatedFit.Allocator.Basic
import SegregatedFit.Memory.Runs

/-
  What callers do with the payload of a block.

  A payload is the stretch between the two tags of its block.
  Reads and writes that leave it are faults.
-/

namespace SegregatedFit

/- A stretch of memory. -/
structure Span where
  start : Nat
  length : Nat
  deriving DecidableEq, Repr

namespace Allocator

------------------------------------------------------------
-- Views of a Block
------------------------------------------------------------

/- The block of an address. -/
def block
    (a : Allocator)
    (address : Address) : Except Fault Block :=
  a.memory.block address.offset

/- The number of payload bytes of a block. -/
def usableSize
    (a : Allocator)
    (address : Address) : Except Fault Nat := do
  let tag ← a.memory.header address.offset
  Word.sub tag.size doubleWord

/-
  The address in the machine of the first payload byte.  It
  wraps at the limit of the words.
-/
def pointer
    (a : Allocator)
    (address : Address) : Nat :=
  (a.region.base + address.offset) % Word.limit

/- The payload of a block, which must lie in memory. -/
def payload
    (a : Allocator)
    (address : Address) : Except Fault Span := do
  let tag ← a.memory.header address.offset
  let next ← Word.add address.offset tag.size
  let stop ← Word.sub next doubleWord
  if address.offset ≤ stop ∧ stop ≤ a.memory.size then
    return {
      start := address.offset,
      length := stop - address.offset }
  else
    throw .outOfBounds

------------------------------------------------------------
-- Reading and Writing
------------------------------------------------------------

/- The `length` payload bytes from a position on. -/
def readPayload
    (a : Allocator)
    (address : Address)
    (position length : Nat) : Except Fault (List UInt8) := do
  let span ← a.payload address
  if position + length ≤ span.length then
    a.memory.load (span.start + position) length
  else
    throw .outOfBounds

/- Replace the payload bytes from a position on. -/
def writePayload
    (a : Allocator)
    (address : Address)
    (position : Nat)
    (bs : List UInt8) : Except Fault Allocator := do
  let span ← a.payload address
  if position + bs.length ≤ span.length then
    let m ← a.memory.store (span.start + position) bs
    return a.withMemory m
  else
    throw .outOfBounds

/- The runs of the whole payload. -/
def payloadRuns
    (a : Allocator)
    (address : Address) : Except Fault (List Run) := do
  let span ← a.payload address
  return a.memory.runs span.start span.length

end Allocator

end SegregatedFit
