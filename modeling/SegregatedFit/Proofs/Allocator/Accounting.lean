import Mathlib.Algebra.Order.Group.Nat
import Mathlib.Data.List.Perm.Basic
import SegregatedFit.Heap.View
import SegregatedFit.Journal
import SegregatedFit.Proofs.Region.Growth

/-
  Events that account for what becomes of an allocator.

  Each counter goes up by the events of its kind, the room
  for blocks goes up by the growth that is reported, and the
  blocks in use can be followed event by event.  Parts of an
  operation that account for what they do make an operation
  that does: `Allocator.Accounts.trans`.

  Key definitions include:
    * `Allocator.blockBytes`
    * `Allocator.Accounts`

  Key theorems include:
    * `Allocator.Accounts.trans`
    * `Allocator.accounts_extended`
    * `Allocator.accounts_allocated`
    * `Allocator.accounts_freed`
-/

namespace SegregatedFit

namespace Allocator

variable {a middle next : Allocator}
variable {region : Region}
variable {events later : List Event}
variable {used used' others : List Nat}

------------------------------------------------------------
-- Room for Blocks
------------------------------------------------------------

/- The number of bytes that a heap has behind its prologue. -/
def blockBytes
    (a : Allocator) : Nat :=
  match a.table with
  | some table => a.memory.size - table.firstBlock
  | none => 0

/- Heaps of one size that begin at one table have the same room. -/
theorem blockBytes_congr
    (hTable : next.table = a.table)
    (hSize : next.memory.size = a.memory.size) :
    next.blockBytes = a.blockBytes := by
  unfold blockBytes
  rw [hTable, hSize]

/- Before the heap is laid out there is no room for blocks. -/
theorem blockBytes_of_none
    (h : a.table = none) :
    a.blockBytes = 0 := by
  unfold blockBytes
  rw [h]

/- A heap that was laid out has its room behind the prologue. -/
theorem blockBytes_eq
    {table : SentinelTable}
    (h : a.table = some table) :
    a.blockBytes = a.memory.size - table.firstBlock := by
  unfold blockBytes
  rw [h]

------------------------------------------------------------
-- Accounts
------------------------------------------------------------

/-
  Events account for the counters, for the room for blocks,
  and for the blocks in use before and afterwards.  Every
  extension has room for a block.
-/
structure Accounts
    (a next : Allocator)
    (events : List Event)
    (used used' : List Nat) : Prop where
  extensions_eq :
    next.extensions =
      a.extensions + Journal.count .debug "extended heap" events
  allocations_eq :
    next.allocations =
      a.allocations +
        Journal.count .trace "allocated block" events
  frees_eq :
    next.frees =
      a.frees + Journal.count .trace "freed block" events
  blockBytes_eq :
    next.blockBytes = a.blockBytes + Journal.growth events
  growth_ge :
    Journal.count .debug "extended heap" events * minimumBlock ≤
      Journal.growth events
  replay_eq :
    ∀ offsets : List Nat, offsets.Perm used →
      ∃ offsets', Journal.replay offsets events = some offsets' ∧
        offsets'.Perm used'

/- The order of the blocks in use does not matter. -/
theorem Accounts.perm
    {others' : List Nat}
    (h : a.Accounts next events used used')
    (hUsed : others.Perm used)
    (hUsed' : others'.Perm used') :
    a.Accounts next events others others' := by
  refine { h with replay_eq := ?_ }
  intro offsets hOffsets
  rcases h.replay_eq offsets (hOffsets.trans hUsed) with
    ⟨offsets', hReplay, hPerm⟩
  exact ⟨offsets', hReplay, hPerm.trans hUsed'.symm⟩

/- What two parts account for is accounted for by both together. -/
theorem Accounts.trans
    (h : a.Accounts middle events used others)
    (h' : middle.Accounts next later others used') :
    a.Accounts next (events ++ later) used used' where
  extensions_eq := by
    rw [h'.extensions_eq, h.extensions_eq, Journal.count_append,
      Nat.add_assoc]
  allocations_eq := by
    rw [h'.allocations_eq, h.allocations_eq,
      Journal.count_append, Nat.add_assoc]
  frees_eq := by
    rw [h'.frees_eq, h.frees_eq, Journal.count_append,
      Nat.add_assoc]
  blockBytes_eq := by
    rw [h'.blockBytes_eq, h.blockBytes_eq,
      Journal.growth_append, Nat.add_assoc]
  growth_ge := by
    rw [Journal.count_append, Journal.growth_append,
      Nat.add_mul]
    exact Nat.add_le_add h.growth_ge h'.growth_ge
  replay_eq := by
    intro offsets hOffsets
    rcases h.replay_eq offsets hOffsets with
      ⟨half, hHalf, hMiddle⟩
    rcases h'.replay_eq half hMiddle with
      ⟨offsets', hReplay, hPerm⟩
    refine ⟨offsets', ?_, hPerm⟩
    rw [Journal.replay_append, hHalf]
    exact hReplay

------------------------------------------------------------
-- Single Steps
------------------------------------------------------------

/- Remarks account for an allocator that counts as before. -/
theorem accounts_remarks
    (used : List Nat)
    (hRoom : next.blockBytes = a.blockBytes)
    (hCounters : next.extensions = a.extensions ∧
      next.allocations = a.allocations ∧
      next.frees = a.frees)
    (hEvents : ∀ event ∈ events, event.IsRemark) :
    a.Accounts next events used used where
  extensions_eq := by
    rw [Journal.count_eq_zero_of_remarks (Or.inl rfl) hEvents]
    exact hCounters.1
  allocations_eq := by
    rw [Journal.count_eq_zero_of_remarks
      (Or.inr (Or.inl rfl)) hEvents]
    exact hCounters.2.1
  frees_eq := by
    rw [Journal.count_eq_zero_of_remarks
      (Or.inr (Or.inr rfl)) hEvents]
    exact hCounters.2.2
  blockBytes_eq := by
    rw [Journal.growth_of_remarks hEvents]
    exact hRoom
  growth_ge := by
    rw [Journal.count_eq_zero_of_remarks (Or.inl rfl) hEvents,
      Nat.zero_mul]
    exact Nat.zero_le _
  replay_eq := by
    intro offsets hOffsets
    exact ⟨offsets, Journal.replay_of_remarks hEvents, hOffsets⟩

/- A remark accounts for an allocator that stays as it is. -/
theorem accounts_remark
    (used : List Nat)
    (event : Event)
    (hEvent : event.IsRemark) :
    a.Accounts a [event] used used :=
  accounts_remarks used rfl ⟨rfl, rfl, rfl⟩
    (fun _ hMem => List.mem_singleton.1 hMem ▸ hEvent)

/- No events account for an allocator with other bytes. -/
theorem accounts_nothing
    (used : List Nat)
    (hSize : region.memory.size = a.region.memory.size) :
    a.Accounts { a with region := region } [] used used :=
  accounts_remarks used (blockBytes_congr rfl hSize)
    ⟨rfl, rfl, rfl⟩
    (fun _ hEvent => absurd hEvent List.not_mem_nil)

/- Remarks account for a region that keeps its bytes. -/
theorem accounts_undisturbed
    (used : List Nat)
    (hSame : a.region.Undisturbed region)
    (hEvents : ∀ event ∈ events, event.IsRemark) :
    a.Accounts { a with region := region } events used used :=
  accounts_remarks used
    (blockBytes_congr rfl
      (congrArg Memory.size hSame.memory_eq))
    ⟨rfl, rfl, rfl⟩ hEvents

/- An extension accounts for the bytes behind the old end. -/
theorem accounts_extended
    {table : SentinelTable}
    {size : Nat}
    (heapSize : Nat)
    (used : List Nat)
    (hTable : a.table = some table)
    (hRoom : table.firstBlock ≤ a.region.memory.size)
    (hSize : region.memory.size = a.region.memory.size + size)
    (hLeast : minimumBlock ≤ size) :
    a.Accounts
      { a with region := region, extensions := a.extensions + 1 }
      [.extended size heapSize] used used where
  extensions_eq := rfl
  allocations_eq := rfl
  frees_eq := rfl
  blockBytes_eq := by
    rw [blockBytes_eq hTable, blockBytes_eq
      (a := { a with
        region := region, extensions := a.extensions + 1 })
      hTable]
    change region.memory.size - _ =
      a.region.memory.size - _ + (size + 0)
    omega
  growth_ge := by
    change 1 * minimumBlock ≤ size + 0
    omega
  replay_eq := by
    intro offsets hOffsets
    exact ⟨offsets, rfl, hOffsets⟩

/- A heap without blocks accounts for no bytes behind its frame. -/
theorem accounts_laidOut
    {table : SentinelTable}
    (used : List Nat)
    (hTable : a.table = none)
    (hSize : region.memory.size = table.firstBlock) :
    a.Accounts
      { a with region := region, table := some table }
      [] used used := by
  refine accounts_remarks used ?_ ⟨rfl, rfl, rfl⟩
    (fun _ hEvent => absurd hEvent List.not_mem_nil)
  rw [blockBytes_of_none hTable, blockBytes_eq rfl]
  exact Nat.sub_eq_zero_of_le (Nat.le_of_eq hSize)

/- A heap with a first chunk accounts for the bytes of the chunk. -/
theorem accounts_initialized
    {table : SentinelTable}
    {size : Nat}
    (heapSize : Nat)
    (used : List Nat)
    (hTable : a.table = none)
    (hSize : region.memory.size = table.firstBlock + size)
    (hLeast : minimumBlock ≤ size) :
    a.Accounts
      { a with
        region := region,
        table := some table,
        extensions := a.extensions + 1 }
      [.extended size heapSize, .initialized heapSize size]
      used used where
  extensions_eq := rfl
  allocations_eq := rfl
  frees_eq := rfl
  blockBytes_eq := by
    rw [blockBytes_of_none hTable, blockBytes_eq rfl]
    change region.memory.size - _ = 0 + (size + (0 + 0))
    omega
  growth_ge := by
    change 1 * minimumBlock ≤ size + (0 + 0)
    omega
  replay_eq := by
    intro offsets hOffsets
    exact ⟨offsets, rfl, hOffsets⟩

/- A block that goes into use was not in use before. -/
theorem accounts_allocated
    {size adjusted offset : Nat}
    (hSize : region.memory.size = a.region.memory.size)
    (hFresh : offset ∉ used)
    (hUsed : used'.Perm (offset :: used)) :
    a.Accounts
      { a with region := region, allocations := a.allocations + 1 }
      [.allocated size adjusted offset] used used' where
  extensions_eq := rfl
  allocations_eq := rfl
  frees_eq := rfl
  blockBytes_eq := blockBytes_congr rfl hSize
  growth_ge := Nat.le_refl 0
  replay_eq := by
    intro offsets hOffsets
    have hNew : offset ∉ offsets := by
      rw [hOffsets.mem_iff]
      exact hFresh
    refine ⟨offset :: offsets, ?_,
      (hOffsets.cons offset).trans hUsed.symm⟩
    unfold Journal.replay
    rw [List.foldlM_cons, Event.replay, if_neg hNew]
    rfl

/- A block that goes out of use was in use before. -/
theorem accounts_freed
    {offset : Nat}
    (size : Nat)
    (hSize : region.memory.size = a.region.memory.size)
    (hUsed : used.Perm (offset :: used')) :
    a.Accounts
      { a with region := region, frees := a.frees + 1 }
      [.freed size offset] used used' where
  extensions_eq := rfl
  allocations_eq := rfl
  frees_eq := rfl
  blockBytes_eq := blockBytes_congr rfl hSize
  growth_ge := Nat.le_refl 0
  replay_eq := by
    intro offsets hOffsets
    have hPerm := hOffsets.trans hUsed
    have hOld : offset ∈ offsets := by
      rw [hPerm.mem_iff]
      exact List.mem_cons_self
    refine ⟨offsets.erase offset, ?_, ?_⟩
    · unfold Journal.replay
      rw [List.foldlM_cons, Event.replay, if_pos hOld]
      rfl
    · have hErased := hPerm.erase offset
      rw [List.erase_cons_head] at hErased
      exact hErased

end Allocator

end SegregatedFit
