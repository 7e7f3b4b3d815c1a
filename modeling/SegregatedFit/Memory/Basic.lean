import SegregatedFit.Word.LittleEndian

/-
  Memory: a finite row of bytes that grows only at its end.

  Bytes are loaded and stored at offsets counted from the
  first one.  An access that is not wholly inside the memory
  is a fault and stores nothing.

  Key definitions include:
    * `Memory`
    * `Memory.byte`
    * `Memory.slice`
    * `Memory.overwrite`
    * `Memory.extend`
    * `Memory.load`
    * `Memory.store`
    * `Memory.loadWord`
    * `Memory.storeWord`
    * `Memory.move`
-/

namespace SegregatedFit

/- A finite row of bytes. -/
structure Memory where
  bytes : ByteArray

namespace Memory

------------------------------------------------------------
-- Bytes
------------------------------------------------------------

/- The memory without bytes. -/
def empty : Memory where
  bytes := ByteArray.empty

/- The number of bytes. -/
def size
    (m : Memory) : Nat :=
  m.bytes.size

/- The byte at an offset, zero outside the memory. -/
def byte
    (m : Memory)
    (offset : Nat) : UInt8 :=
  if h : offset < m.bytes.size then
    m.bytes[offset]
  else
    0

/- The `length` bytes from `start` on. -/
def slice
    (m : Memory)
    (start length : Nat) : List UInt8 :=
  (List.range' start length).map m.byte

/- Replace the bytes from an offset on by the given ones. -/
def overwrite
    (m : Memory) :
    Nat → List UInt8 → Memory
| _, [] => m
| offset, b :: bs =>
    overwrite { bytes := m.bytes.set! offset b } (offset + 1) bs

/- Append `n` zero bytes. -/
def extend
    (m : Memory) :
    Nat → Memory
| 0 => m
| n + 1 => extend { bytes := m.bytes.push 0 } n

------------------------------------------------------------
-- Checked Access
------------------------------------------------------------

/- The `length` bytes from `start` on, if all are there. -/
def load
    (m : Memory)
    (start length : Nat) : Except Fault (List UInt8) :=
  if start + length ≤ m.size then
    .ok (m.slice start length)
  else
    .error .outOfBounds

/- Store bytes from `start` on, if there is room for all. -/
def store
    (m : Memory)
    (start : Nat)
    (bs : List UInt8) : Except Fault Memory :=
  if start + bs.length ≤ m.size then
    .ok (m.overwrite start bs)
  else
    .error .outOfBounds

/- The word at an offset. -/
def loadWord
    (m : Memory)
    (offset : Nat) : Except Fault Nat := do
  let bs ← m.load offset wordSize
  return Word.ofBytes bs

/- Store a word at an offset. -/
def storeWord
    (m : Memory)
    (offset : Nat)
    (value : Nat) : Except Fault Memory :=
  m.store offset (Word.toBytes value)

/-
  Copy `length` bytes from one place to another.  They are
  all loaded before any is stored, so the places may overlap.
-/
def move
    (m : Memory)
    (source target length : Nat) : Except Fault Memory := do
  let bs ← m.load source length
  m.store target bs

end Memory

end SegregatedFit
