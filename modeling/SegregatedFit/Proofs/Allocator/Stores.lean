import SegregatedFit.Allocator.Operations
import SegregatedFit.Allocator.Payload
import SegregatedFit.Block.Lemmas
import SegregatedFit.FreeList.Ring
import SegregatedFit.Proofs.Region.Hosting

/-
  How an allocator uses its region.

  Whatever an allocator does, and whatever its heap holds, it
  only asks the region to grow and stores bytes in it.

  Key theorems include:
    * `SentinelTable.storesTo_coalesce`
    * `SentinelTable.storesTo_place`
    * `Allocator.leadsTo_init`
    * `Allocator.leadsTo_allocate`
    * `Allocator.leadsTo_resize`
-/

namespace SegregatedFit

------------------------------------------------------------
-- Words
------------------------------------------------------------

namespace Memory

variable {m n : Memory}

/- A word is stored byte by byte. -/
theorem storesTo_storeWord
    {offset value : Nat}
    (h : m.storeWord offset value = .ok n) :
    m.StoresTo n :=
  .store offset (Word.toBytes value) .refl h

/- A back link is a word. -/
theorem storesTo_setPreviousLink
    {node previous : Nat}
    (h : m.setPreviousLink node previous = .ok n) :
    m.StoresTo n :=
  storesTo_storeWord (setPreviousLink_eq_ok_iff.1 h).2

/- Tags are two words. -/
theorem storesTo_writeTags
    {bp : Nat}
    {tag : Tag}
    (h : m.writeTags bp tag = .ok n) :
    m.StoresTo n := by
  rcases writeTags_eq_ok_iff.1 h with
    ⟨half, _, hFront, _, _, hBack⟩
  exact (storesTo_storeWord hFront).trans
    (storesTo_storeWord hBack)

/- Bytes that are moved are stored where they arrive. -/
theorem storesTo_move
    {source target length : Nat}
    (h : m.move source target length = .ok n) :
    m.StoresTo n := by
  unfold move at h
  rw [Fault.bind_eq_ok_iff] at h
  rcases h with ⟨bytes, _, hStore⟩
  exact .store target bytes .refl hStore

------------------------------------------------------------
-- Lists and Blocks
------------------------------------------------------------

/- A node leaves its list by two links of its neighbours. -/
theorem storesTo_unlink
    {bp : Nat}
    (h : m.unlink bp = .ok n) :
    m.StoresTo n := by
  unfold unlink at h
  simp only [Fault.bind_eq_ok_iff] at h
  rcases h with ⟨_, _, _, _, _, hNext, hPrevious⟩
  exact (storesTo_storeWord hNext).trans
    (storesTo_setPreviousLink hPrevious)

end Memory

namespace SentinelTable

variable {table : SentinelTable}
variable {m n : Memory}

/- A node enters a list by four links. -/
theorem storesTo_insert
    {bp size : Nat}
    (h : table.insert m bp size = .ok n) :
    m.StoresTo n := by
  unfold insert at h
  simp only [Fault.bind_eq_ok_iff] at h
  rcases h with
    ⟨_, _, _, hBack, _, hNext, _, hAfter, hFirst⟩
  exact (Memory.storesTo_setPreviousLink hBack).trans
    ((Memory.storesTo_storeWord hNext).trans
      ((Memory.storesTo_setPreviousLink hAfter).trans
        (Memory.storesTo_storeWord hFirst)))

/- Lists become empty by the links of their sentinels. -/
theorem storesTo_clearClasses
    {cs : List Nat}
    (h : table.clearClasses cs m = .ok n) :
    m.StoresTo n := by
  induction cs generalizing m with
  | nil =>
      cases h
      exact .refl
  | cons c cs ih =>
      unfold clearClasses at h
      simp only [Fault.bind_eq_ok_iff] at h
      rcases h with ⟨_, hNext, _, hPrevious, hRest⟩
      exact (Memory.storesTo_storeWord hNext).trans
        ((Memory.storesTo_setPreviousLink hPrevious).trans
          (ih hRest))

end SentinelTable

/- A block merges by links of its neighbours and two tags. -/
theorem Memory.storesTo_merge
    {m : Memory}
    {bp : Nat}
    {merged : Merged}
    (h : m.merge bp = .ok merged) :
    m.StoresTo merged.memory := by
  unfold merge at h
  simp only [Fault.bind_eq_ok_iff] at h
  rcases h with ⟨tag, _, before, _, next, _, after, _, h⟩
  cases hBefore : before.allocated with
  | true =>
      cases hAfter : after.allocated with
      | true =>
          rw [hBefore, hAfter] at h
          cases h
          exact .refl
      | false =>
          rw [hBefore, hAfter] at h
          simp only [Fault.bind_eq_ok_iff] at h
          rcases h with ⟨_, _, _, hUnlink, _, hWrite, hResult⟩
          cases hResult
          exact (storesTo_unlink hUnlink).trans
            (storesTo_writeTags hWrite)
  | false =>
      cases hAfter : after.allocated with
      | true =>
          rw [hBefore, hAfter] at h
          simp only [Fault.bind_eq_ok_iff] at h
          rcases h with
            ⟨_, _, _, _, _, _, _, hUnlink, _, hWrite, hResult⟩
          cases hResult
          exact (storesTo_unlink hUnlink).trans
            (storesTo_writeTags hWrite)
      | false =>
          rw [hBefore, hAfter] at h
          simp only [Fault.bind_eq_ok_iff] at h
          rcases h with
            ⟨_, _, _, _, _, _, _, _, _, hFirst, _, hSecond, _,
              hWrite, hResult⟩
          cases hResult
          exact (storesTo_unlink hFirst).trans
            ((storesTo_unlink hSecond).trans
              (storesTo_writeTags hWrite))

namespace SentinelTable

variable {table : SentinelTable}
variable {m n : Memory}

/- A block merges and is listed. -/
theorem storesTo_coalesce
    {bp start : Nat}
    (h : table.coalesce m bp = .ok (n, start)) :
    m.StoresTo n := by
  unfold coalesce at h
  simp only [Fault.bind_eq_ok_iff] at h
  rcases h with ⟨_, hMerge, _, hInsert, hResult⟩
  cases hResult
  exact (Memory.storesTo_merge hMerge).trans
    (storesTo_insert hInsert)

/- A block is handed out, and what is left of it is listed. -/
theorem storesTo_place
    {bp size : Nat}
    {remainder : Option Nat}
    (h : table.place m bp size = .ok (n, remainder)) :
    m.StoresTo n := by
  unfold place at h
  simp only [Fault.bind_eq_ok_iff] at h
  rcases h with ⟨tag, _, _, hUnlink, rest, _, h⟩
  apply (Memory.storesTo_unlink hUnlink).trans
  split at h
  · simp only [Fault.bind_eq_ok_iff] at h
    rcases h with
      ⟨_, hFront, _, _, _, hBack, _, hInsert, hResult⟩
    cases hResult
    exact (Memory.storesTo_writeTags hFront).trans
      ((Memory.storesTo_writeTags hBack).trans
        (storesTo_insert hInsert))
  · simp only [Fault.bind_eq_ok_iff] at h
    rcases h with ⟨_, hWrite, hResult⟩
    cases hResult
    exact Memory.storesTo_writeTags hWrite

end SentinelTable

------------------------------------------------------------
-- Allocators
------------------------------------------------------------

namespace Allocator

variable {a next : Allocator}
variable {table : SentinelTable}
variable {m n : Memory}

/- A block and an epilogue are tags. -/
theorem storesTo_appendBlock
    {bp size : Nat}
    (h : appendBlock m bp size = .ok n) :
    m.StoresTo n := by
  unfold appendBlock at h
  simp only [Fault.bind_eq_ok_iff] at h
  rcases h with ⟨_, hWrite, _, _, _, _, hLast⟩
  exact (Memory.storesTo_writeTags hWrite).trans
    (Memory.storesTo_storeWord hLast)

/- The frame of a heap is four words. -/
theorem storesTo_writeFrame
    (h : writeFrame table m = .ok n) :
    m.StoresTo n := by
  unfold writeFrame at h
  simp only [Fault.bind_eq_ok_iff] at h
  rcases h with ⟨_, hPadding, _, hHeader, _, hFooter, hLast⟩
  exact (Memory.storesTo_storeWord hPadding).trans
    ((Memory.storesTo_storeWord hHeader).trans
      ((Memory.storesTo_storeWord hFooter).trans
        (Memory.storesTo_storeWord hLast)))

/- A heap is extended by a growth and stores. -/
theorem leadsTo_extend
    {words : Nat}
    {answer : Except Error Nat}
    (h : (a.extend table words).outcome = .ok (answer, next)) :
    a.region.LeadsTo next.region := by
  unfold extend at h
  rw [Traced.outcome_bind_eq_ok_iff] at h
  rcases h with ⟨bytes, _, h⟩
  split at h
  · rename_i hGrow
    cases h
    exact .of_grow hGrow
  · rename_i hGrow
    simp only [Traced.outcome_bind_eq_ok_iff] at h
    rcases h with
      ⟨_, hAppend, _, _, _, _, ⟨_, _⟩, hCoalesce, hResult⟩
    cases hResult
    exact (Region.LeadsTo.of_grow hGrow).stores
      ((storesTo_appendBlock hAppend).trans
        (SentinelTable.storesTo_coalesce hCoalesce))

/- A heap is laid out by growths and stores. -/
theorem leadsTo_init
    {answer : Except Error Unit}
    (h : a.init.outcome = .ok (answer, next)) :
    a.region.LeadsTo next.region := by
  unfold init at h
  split at h
  · cases h
    exact .refl
  split at h
  · rename_i hGrow
    cases h
    exact .of_grow hGrow
  · rename_i hGrow
    have hFirst := Region.LeadsTo.of_grow hGrow
    dsimp only at h
    rw [Traced.outcome_bind_eq_ok_iff] at h
    rcases h with ⟨m, hClear, h⟩
    have hTable := hFirst.stores
      (SentinelTable.storesTo_clearClasses hClear)
    split at h
    · rename_i hGrow'
      cases h
      exact hTable.trans (.of_grow hGrow')
    · rename_i hGrow'
      have hSecond := hTable.trans (.of_grow hGrow')
      rw [Traced.outcome_bind_eq_ok_iff] at h
      rcases h with ⟨n, hFrame, h⟩
      have hLaidOut := hSecond.stores
        (storesTo_writeFrame hFrame)
      rw [Traced.outcome_bind_eq_ok_iff] at h
      rcases h with ⟨⟨answer', last⟩, hExtend, h⟩
      have hLast := hLaidOut.trans (leadsTo_extend hExtend)
      cases answer' with
      | error error =>
          cases h
          exact hLast
      | ok start =>
          cases h
          exact hLast

/- A free block is found, or the heap is extended. -/
theorem leadsTo_freeBlockFor
    {adjusted : Nat}
    {answer : Except Error Nat}
    (h : (a.freeBlockFor table adjusted).outcome =
      .ok (answer, next)) :
    a.region.LeadsTo next.region := by
  unfold freeBlockFor at h
  rw [Traced.outcome_bind_eq_ok_iff] at h
  rcases h with ⟨found, _, h⟩
  cases found with
  | some bp =>
      cases h
      exact .refl
  | none => exact leadsTo_extend h

/- A block is handed out by stores. -/
theorem leadsTo_handOut
    {size adjusted bp : Nat}
    (h : (a.handOut table size adjusted bp).outcome =
      .ok next) :
    a.region.LeadsTo next.region := by
  unfold handOut at h
  rw [Traced.outcome_bind_eq_ok_iff] at h
  rcases h with ⟨⟨m, remainder⟩, hPlace, h⟩
  dsimp only at h
  have hStores := SentinelTable.storesTo_place hPlace
  have hPlaced := Region.LeadsTo.stores .refl hStores
  cases remainder with
  | none =>
      simp only [Traced.outcome_bind_eq_ok_iff] at h
      rcases h with ⟨_, _, _, _, hResult⟩
      cases hResult
      exact hPlaced
  | some rest =>
      simp only [Traced.outcome_bind_eq_ok_iff] at h
      rcases h with ⟨_, _, _, _, _, _, hResult⟩
      cases hResult
      exact hPlaced

/- A request is served by growths and stores. -/
theorem leadsTo_allocate
    {size : Nat}
    {address : Option Address}
    (h : (a.allocate size).outcome = .ok (address, next)) :
    a.region.LeadsTo next.region := by
  unfold allocate at h
  split at h
  · cases h
    exact .refl
  split at h
  · cases h
    exact .refl
  rw [Traced.outcome_bind_eq_ok_iff] at h
  rcases h with ⟨found, _, h⟩
  cases found with
  | none =>
      cases h
      exact .refl
  | some adjusted =>
      dsimp only at h
      rw [Traced.outcome_bind_eq_ok_iff] at h
      rcases h with ⟨⟨answer, asked⟩, hFree, h⟩
      have hAsked := leadsTo_freeBlockFor hFree
      cases answer with
      | error error =>
          cases h
          exact hAsked
      | ok bp =>
          dsimp only at h
          rw [Traced.outcome_bind_eq_ok_iff] at h
          rcases h with ⟨served, hOut, hResult⟩
          cases hResult
          exact hAsked.trans (leadsTo_handOut hOut)

/- A block is freed by stores. -/
theorem leadsTo_free
    {address : Option Address}
    (h : (a.free address).outcome = .ok next) :
    a.region.LeadsTo next.region := by
  unfold free at h
  split at h
  · cases h
    exact .refl
  split at h
  · cases h
    exact .refl
  · simp only [Traced.outcome_bind_eq_ok_iff] at h
    rcases h with
      ⟨_, _, _, hWrite, ⟨_, _⟩, hCoalesce, _, _, _, _, hResult⟩
    cases hResult
    exact Region.LeadsTo.stores .refl
      ((Memory.storesTo_writeTags hWrite).trans
        (SentinelTable.storesTo_coalesce hCoalesce))

/- A block moves by growths and stores. -/
theorem leadsTo_relocate
    {bp blockSize size : Nat}
    {address : Option Address}
    (h : (a.relocate bp blockSize size).outcome =
      .ok (address, next)) :
    a.region.LeadsTo next.region := by
  unfold relocate at h
  rw [Traced.outcome_bind_eq_ok_iff] at h
  rcases h with ⟨usable, _, h⟩
  dsimp only at h
  split at h
  · rw [Traced.outcome_bind_eq_ok_iff] at h
    rcases h with ⟨⟨target, served⟩, hAllocate, h⟩
    have hServed := leadsTo_allocate hAllocate
    cases target with
    | none =>
        cases h
        exact hServed
    | some target =>
        dsimp only at h
        simp only [Traced.outcome_bind_eq_ok_iff] at h
        rcases h with ⟨m, hMove, freed, hFree, _, _, hResult⟩
        cases hResult
        have hMoved := hServed.stores (Memory.storesTo_move hMove)
        exact hMoved.trans (leadsTo_free hFree)
  · cases h
    exact .refl

/- A block is resized by growths and stores. -/
theorem leadsTo_resize
    {size : Nat}
    {address answer : Option Address}
    (h : (a.resize address size).outcome = .ok (answer, next)) :
    a.region.LeadsTo next.region := by
  unfold resize at h
  split at h
  · rw [Traced.outcome_bind_eq_ok_iff] at h
    rcases h with ⟨freed, hFree, hResult⟩
    cases hResult
    exact leadsTo_free hFree
  split at h
  · exact leadsTo_allocate h
  split at h
  · rw [Traced.outcome_bind_eq_ok_iff] at h
    rcases h with ⟨found, _, h⟩
    cases found with
    | none =>
        cases h
        exact .refl
    | some adjusted =>
        dsimp only at h
        rw [Traced.outcome_bind_eq_ok_iff] at h
        rcases h with ⟨tag, _, h⟩
        split at h
        · cases h
          exact .refl
        · exact leadsTo_relocate h
  · cases h
    exact .refl

/- A payload is written by a store. -/
theorem leadsTo_writePayload
    {address : Address}
    {position : Nat}
    {bytes : List UInt8}
    (h : a.writePayload address position bytes = .ok next) :
    a.region.LeadsTo next.region := by
  unfold writePayload at h
  rw [Fault.bind_eq_ok_iff] at h
  rcases h with ⟨span, _, h⟩
  split at h
  · rw [Fault.bind_eq_ok_iff] at h
    rcases h with ⟨m, hStore, hResult⟩
    cases hResult
    exact .store _ _ .refl hStore
  · cases h

end Allocator

end SegregatedFit
