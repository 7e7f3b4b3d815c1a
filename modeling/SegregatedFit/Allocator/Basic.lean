import SegregatedFit.Config.Basic
import SegregatedFit.FreeList.Basic
import SegregatedFit.Region.Basic

/-
  The allocator: a region, its settings, where the heap
  begins in it, and counters.

  The heap begins with the sentinel table.  Behind it stand a
  padding word, the prologue, which is a block of two tags
  and no payload, and then the blocks, up to the header of
  size zero at the very end, which is the epilogue.

  Key definitions include:
    * `Address`
    * `Allocator`
    * `Allocator.ofRegion`
    * `Allocator.ofConfig`
    * `Statistics`
    * `Allocator.statistics`
-/

namespace SegregatedFit

------------------------------------------------------------
-- Layout
------------------------------------------------------------

namespace SentinelTable

/- The bytes of the padding, the prologue and the epilogue. -/
abbrev frameSize : Nat :=
  32

/- The prologue of the heap that begins with a table. -/
def prologue
    (table : SentinelTable) : Nat :=
  table.offset + size + doubleWord

/- The first block behind the prologue. -/
def firstBlock
    (table : SentinelTable) : Nat :=
  table.prologue + doubleWord

end SentinelTable

/- The tag of the prologue. -/
def Tag.prologue : Tag where
  size := doubleWord
  allocated := true

/- The tag of the epilogue. -/
def Tag.epilogue : Tag where
  size := 0
  allocated := true

------------------------------------------------------------
-- The Allocator
------------------------------------------------------------

/- A payload that was handed out, known by its offset. -/
structure Address where
  offset : Nat
  deriving DecidableEq, Repr

/-
  An allocator.  The table is there once the heap has been
  laid out.
-/
structure Allocator where
  region : Region
  config : Config
  config_valid : config.validate = .ok ()
  table : Option SentinelTable
  extensions : Nat
  allocations : Nat
  frees : Nat

namespace Allocator

/- An allocator on a region, with the default settings. -/
def ofRegion
    (region : Region) : Allocator where
  region := region
  config := Config.default
  config_valid := Config.validate_default
  table := none
  extensions := 0
  allocations := 0
  frees := 0

/- An allocator on a region, with settings that are accepted. -/
def ofConfig
    (region : Region)
    (config : Config) : Except Error Allocator :=
  match h : config.validate with
  | .ok () =>
      .ok { ofRegion region with
        config := config,
        config_valid := h }
  | .error error => .error error

/- Allocators whose heap has been laid out. -/
def isInitialized
    (a : Allocator) : Bool :=
  a.table.isSome

/- The memory of the heap. -/
def memory
    (a : Allocator) : Memory :=
  a.region.memory

/- It has the size of the region. -/
theorem size_memory
    (a : Allocator) :
    a.memory.size = a.region.size :=
  rfl

/- The same allocator with other bytes. -/
def withMemory
    (a : Allocator)
    (m : Memory) : Allocator :=
  { a with region := { a.region with memory := m } }

------------------------------------------------------------
-- Statistics
------------------------------------------------------------

end Allocator

/- What an allocator tells of itself. -/
structure Statistics where
  heapSize : Nat
  extensions : Nat
  allocations : Nat
  frees : Nat
  freeBytes : Nat
  deriving DecidableEq, Repr

/- The counters and sizes of an allocator. -/
def Allocator.statistics
    (a : Allocator) : Except Fault Statistics := do
  let freeBytes ←
    match a.table with
    | some table => table.freeBytes a.memory
    | none => pure 0
  return {
    heapSize := a.region.size,
    extensions := a.extensions,
    allocations := a.allocations,
    frees := a.frees,
    freeBytes := freeBytes }

end SegregatedFit
