import SegregatedFit.Allocator.Basic
import SegregatedFit.Allocator.Placement
import SegregatedFit.Allocator.Request
import SegregatedFit.Traced

/-
  What an allocator does for its callers.

  Key definitions include:
    * `Allocator.init`
    * `Allocator.allocate`
    * `Allocator.free`
    * `Allocator.resize`
-/

namespace SegregatedFit

namespace Allocator

------------------------------------------------------------
-- Growing the Heap
------------------------------------------------------------

/-
  Put a free block of `size` bytes and a new epilogue where
  the old epilogue ends.
-/
def appendBlock
    (m : Memory)
    (bp size : Nat) : Except Fault Memory := do
  let m ← m.writeTags bp { size := size, allocated := false }
  let next ← m.nextBlock bp
  let front ← Word.sub next wordSize
  m.storeWord front Tag.epilogue.pack

/-
  The bytes of so many words.  Blocks are whole double words,
  so an odd number of words is made even.
-/
def evenBytes
    (words : Nat) : Except Fault Nat :=
  if words % 2 = 1 then do
    let even ← Word.add words 1
    Word.mul even wordSize
  else
    Word.mul words wordSize

/- Whole double words are as many bytes as their words have. -/
theorem evenBytes_eq_ok_iff
    {size bytes : Nat}
    (hMod : size % doubleWord = 0) :
    evenBytes (size / wordSize) = .ok bytes ↔
      size < Word.limit ∧ bytes = size := by
  change size % 16 = 0 at hMod
  have hEven : ¬ size / wordSize % 2 = 1 := by
    change ¬ size / 8 % 2 = 1
    omega
  have hBytes : size / wordSize * wordSize = size := by
    change size / 8 * 8 = size
    omega
  unfold evenBytes
  rw [if_neg hEven, Word.mul_eq_ok_iff, hBytes]

/- They are counted without a fault if they are a word. -/
theorem evenBytes_of_lt
    {size : Nat}
    (hMod : size % doubleWord = 0)
    (hWord : size < Word.limit) :
    evenBytes (size / wordSize) = .ok size :=
  (evenBytes_eq_ok_iff hMod).2 ⟨hWord, rfl⟩

/-
  Grow the heap by a free block of `words` words, made even,
  and merge it with the last block if that is free.  The
  answer is where the result starts.
-/
def extend
    (a : Allocator)
    (table : SentinelTable)
    (words : Nat) :
    Traced (Except Error Nat × Allocator) := do
  let size ← evenBytes words
  match a.region.grow size with
  | (.error error, region) =>
      pure (.error error, { a with region := region })
  | (.ok bp, region) => do
      let m ← appendBlock region.memory bp size
      let extensions ← Word.add a.extensions 1
      Traced.report (.extended size m.size)
      let (m, start) ← table.coalesce m bp
      return (.ok start,
        { a with
          region := { region with memory := m },
          extensions := extensions })

------------------------------------------------------------
-- Laying Out the Heap
------------------------------------------------------------

/-
  Write the padding, the prologue and the epilogue behind the
  sentinel table.
-/
def writeFrame
    (table : SentinelTable)
    (m : Memory) : Except Fault Memory := do
  let start := table.offset + SentinelTable.size
  let m ← m.storeWord start 0
  let m ← m.storeWord (start + wordSize) Tag.prologue.pack
  let m ← m.storeWord (start + 2 * wordSize) Tag.prologue.pack
  m.storeWord (start + 3 * wordSize) Tag.epilogue.pack

/-
  Lay out the heap and grow it by a first chunk.

  If the table or the frame finds no room, the heap is not
  laid out and a later call starts again behind what was
  granted so far.  If only the first chunk finds no room,
  the error is the answer but the heap is laid out, and later
  requests grow it.
-/
def init
    (a : Allocator) : Traced (Except Error Unit × Allocator) :=
  match a.table with
  | some _ => pure (.error .alreadyInitialized, a)
  | none =>
    match a.region.grow SentinelTable.size with
    | (.error error, region) =>
        pure (.error error, { a with region := region })
    | (.ok offset, region) => do
        let table : SentinelTable := { offset := offset }
        let m ← table.clear region.memory
        match { region with memory := m : Region }.grow
            SentinelTable.frameSize with
        | (.error error, region) =>
            return (.error error, { a with region := region })
        | (.ok _, region) => do
            let m ← writeFrame table region.memory
            let a :=
              { a with
                region := { region with memory := m },
                table := some table }
            match ←
                a.extend table (a.config.chunkSize / wordSize)
              with
            | (.error error, a) => return (.error error, a)
            | (.ok _, a) => do
                Traced.report (.initialized
                  a.region.size a.config.chunkSize)
                return (.ok (), a)

------------------------------------------------------------
-- Allocating
------------------------------------------------------------

/-
  A free block of at least `adjusted` bytes: the first one
  that fits, or else one that the heap grows by.
-/
def freeBlockFor
    (a : Allocator)
    (table : SentinelTable)
    (adjusted : Nat) :
    Traced (Except Error Nat × Allocator) := do
  match ← table.firstFit a.memory adjusted with
  | some bp => return (.ok bp, a)
  | none =>
      a.extend table
        (max adjusted a.config.chunkSize / wordSize)

/- Hand out `adjusted` bytes of the free block at `bp`. -/
def handOut
    (a : Allocator)
    (table : SentinelTable)
    (size adjusted bp : Nat) : Traced Allocator := do
  let (m, remainder) ← table.place a.memory bp adjusted
  match remainder with
  | some rest => Traced.report (.split bp adjusted rest)
  | none => pure ()
  let allocations ← Word.add a.allocations 1
  Traced.report (.allocated size adjusted bp)
  return { a.withMemory m with allocations := allocations }

/-
  Allocate a block with at least `size` bytes of payload.
  There is none for zero bytes, before the heap is laid out,
  for a size that has no block, and when the heap cannot
  grow.
-/
def allocate
    (a : Allocator)
    (size : Nat) : Traced (Option Address × Allocator) :=
  if size = 0 then
    pure (none, a)
  else
    match a.table with
    | none => do
        Traced.report (.allocationBeforeInit size)
        return (none, a)
    | some table => do
        let size := Request.rounded size
        match ← Request.blockSize? size with
        | none => return (none, a)
        | some adjusted =>
            match ← a.freeBlockFor table adjusted with
            | (.error error, a) => do
                Traced.report (.allocationFailed size error)
                return (none, a)
            | (.ok bp, a) => do
                let a ← a.handOut table size adjusted bp
                return (some { offset := bp }, a)

------------------------------------------------------------
-- Freeing
------------------------------------------------------------

/-
  Free the block of an address.  Without an address nothing
  happens.
-/
def free
    (a : Allocator)
    (address : Option Address) : Traced Allocator :=
  match address with
  | none => pure a
  | some { offset := bp } =>
      match a.table with
      | none => do
          Traced.report (.freeBeforeInit bp)
          return a
      | some table => do
          let tag ← a.memory.header bp
          let m ← a.memory.writeTags bp
            { size := tag.size, allocated := false }
          let (m, _) ← table.coalesce m bp
          let frees ← Word.add a.frees 1
          Traced.report (.freed tag.size bp)
          return { a.withMemory m with frees := frees }

------------------------------------------------------------
-- Resizing
------------------------------------------------------------

/-
  Move the block at `bp` to a new one for `size` bytes, asked
  for with the resize multiplier.  Without a new block the
  old one stays as it is.
-/
def relocate
    (a : Allocator)
    (bp blockSize size : Nat) :
    Traced (Option Address × Allocator) := do
  let usable ← Word.sub blockSize doubleWord
  let request := size * a.config.resizeMultiplier
  if request < Word.limit then
    match ← a.allocate request with
    | (none, a) => return (none, a)
    | (some target, a) => do
        let m ←
          a.memory.move bp target.offset (min usable size)
        let a ← (a.withMemory m).free (some { offset := bp })
        Traced.report (.moved bp target.offset size)
        return (some target, a)
  else
    return (none, a)

/-
  Resize the block of an address to at least `size` bytes.

  Zero bytes free the block, and without an address a block
  is allocated.  A block that is large enough stays where it
  is, and any other one moves.
-/
def resize
    (a : Allocator)
    (address : Option Address)
    (size : Nat) : Traced (Option Address × Allocator) :=
  if size = 0 then do
    let a ← a.free address
    return (none, a)
  else
    match address with
    | none => a.allocate size
    | some { offset := bp } =>
        if a.isInitialized then do
          match ← Request.blockSize? size with
          | none => return (none, a)
          | some adjusted => do
              let tag ← a.memory.header bp
              if adjusted ≤ tag.size then
                Traced.report
                  (.resizedInPlace bp size tag.size)
                return (some { offset := bp }, a)
              else
                a.relocate bp tag.size size
        else do
          Traced.report (.resizeBeforeInit bp size)
          return (none, a)

end Allocator

end SegregatedFit
