import SegregatedFit.Client.Basic
import SegregatedFit.Proofs.Allocator.Payloads

/-
  The record that a client keeps, and the blocks behind it.

  A record is backed by blocks if the owned addresses are
  those of the blocks, once each, and every block has room
  for what it was asked for with.

  Key definitions include:
    * `Call.AsksFor`
    * `Backed`

  Key theorems include:
    * `Backed.cons`, `Backed.disown`
    * `Backed.owned_iff`
-/

namespace SegregatedFit

/- The offset of an address that is owned. -/
def Owned.offset
    (entry : Owned) : Nat :=
  entry.address.offset

/- The calls that ask for a block with `n` bytes of payload. -/
def Call.AsksFor
    (n : Nat) :
    Call → Prop
| .allocate size => size = n
| .resize _ size => size = n
| _ => False

/- Only allocations and resizes ask for bytes. -/
theorem Call.asksFor_iff
    {call : Call}
    {n : Nat} :
    call.AsksFor n ↔
      call = .allocate n ∨ ∃ target, call = .resize target n := by
  cases call <;> simp [AsksFor]

namespace Client

variable {owned : List Owned}

/- Without an address nothing is given back. -/
theorem disown_none :
    disown owned none = owned := by
  simp [disown]

/- A block that is resized is recorded anew. -/
theorem record_resize
    {size : Nat}
    (address : Option Address)
    (target : Address)
    (hSize : size ≠ 0) :
    record owned (.resize address size)
        (.address (some target)) =
      { address := target, requested := size } ::
        disown owned address := by
  cases size with
  | zero => exact absurd rfl hSize
  | succ size => rfl

/- A block that is not resized stays in the record. -/
theorem record_resize_none
    {size : Nat}
    (address : Option Address)
    (hSize : size ≠ 0) :
    record owned (.resize address size) (.address none) =
      owned := by
  cases size with
  | zero => exact absurd rfl hSize
  | succ size => rfl

/- The address that a call is given is recorded with its bytes. -/
theorem mem_record_of_asksFor
    {call : Call}
    {address : Address}
    {n : Nat}
    (hAsks : call.AsksFor n)
    (hSize : n ≠ 0) :
    { address := address, requested := n } ∈
      record owned call (.address (some address)) := by
  rcases Call.asksFor_iff.1 hAsks with rfl | ⟨target, rfl⟩
  · exact List.mem_cons_self
  · rw [record_resize target address hSize]
    exact List.mem_cons_self

end Client

/-
  The owned addresses are those of the blocks, and every
  block is large enough.
-/
structure Backed
    (blocks : List ChainBlock)
    (owned : List Owned) : Prop where
  offsets :
    (owned.map Owned.offset).Perm
      (blocks.map ChainBlock.offset)
  room :
    ∀ entry ∈ owned, ∃ block ∈ blocks,
      block.offset = entry.offset ∧
        entry.requested + doubleWord ≤ block.header.size

namespace Backed

variable {blocks others : List ChainBlock}
variable {owned : List Owned}

/- A new client owns nothing. -/
theorem nil :
    Backed [] [] :=
  ⟨List.Perm.refl _, by simp⟩

/- The order of the blocks does not matter. -/
theorem perm
    (h : Backed blocks owned)
    (hPerm : others.Perm blocks) :
    Backed others owned := by
  refine ⟨h.offsets.trans (hPerm.map _).symm, ?_⟩
  intro entry hEntry
  rcases h.room entry hEntry with ⟨block, hBlock, hRest⟩
  exact ⟨block, hPerm.mem_iff.2 hBlock, hRest⟩

/- A block that is handed out enters the record. -/
theorem cons
    {block : ChainBlock}
    {requested : Nat}
    (h : Backed blocks owned)
    (hRoom : requested + doubleWord ≤ block.header.size) :
    Backed (block :: blocks)
      ({ address := { offset := block.offset },
         requested := requested } :: owned) := by
  refine ⟨h.offsets.cons block.offset, ?_⟩
  intro entry hEntry
  rcases List.mem_cons.1 hEntry with hEq | hEntry
  · subst hEq
    exact ⟨block, List.mem_cons_self, rfl, hRoom⟩
  · rcases h.room entry hEntry with ⟨other, hOther, hRest⟩
    exact ⟨other, List.mem_cons_of_mem block hOther, hRest⟩

/- A block that is given back leaves the record. -/
theorem disown
    (h : Backed blocks owned)
    (address : Address) :
    Backed
      (blocks.filter (fun block =>
        block.offset ≠ address.offset))
      (Client.disown owned (some address)) := by
  have hSame : ∀ entry : Owned,
      decide (some entry.address ≠ some address) =
        decide (entry.offset ≠ address.offset) := by
    intro entry
    rcases entry with ⟨⟨offset⟩, requested⟩
    rcases address with ⟨offset'⟩
    rw [decide_eq_decide]
    simp [Owned.offset]
  refine ⟨?_, ?_⟩
  · have hOwned :
        (Client.disown owned (some address)).map Owned.offset =
          (owned.map Owned.offset).filter (fun offset =>
            offset ≠ address.offset) := by
      unfold Client.disown
      rw [List.filter_map]
      congr 1
      apply List.filter_congr
      intro entry _
      exact hSame entry
    have hBlocks :
        (blocks.filter (fun block =>
            block.offset ≠ address.offset)).map
              ChainBlock.offset =
          (blocks.map ChainBlock.offset).filter (fun offset =>
            offset ≠ address.offset) := by
      rw [List.filter_map]
      rfl
    rw [hOwned, hBlocks]
    exact h.offsets.filter _
  · intro entry hEntry
    rcases List.mem_filter.1 hEntry with ⟨hMem, hNe⟩
    rcases h.room entry hMem with ⟨block, hBlock, hOffset, hRest⟩
    refine ⟨block, List.mem_filter.2 ⟨hBlock, ?_⟩, hOffset,
      hRest⟩
    rw [hOffset, ← hSame]
    exact hNe

/- The addresses that are owned are those of the blocks. -/
theorem owned_iff
    {address : Address}
    (h : Backed blocks owned) :
    (∃ entry ∈ owned, entry.address = address) ↔
      ∃ block ∈ blocks, block.offset = address.offset := by
  have hMem := h.offsets.mem_iff (a := address.offset)
  rw [List.mem_map, List.mem_map] at hMem
  rw [← hMem]
  constructor
  · intro hOwned
    rcases hOwned with ⟨entry, hEntry, hAddress⟩
    exact ⟨entry, hEntry, congrArg Address.offset hAddress⟩
  · intro hOwned
    rcases hOwned with ⟨⟨⟨offset⟩, requested⟩, hEntry, hOffset⟩
    rcases address with ⟨offset'⟩
    change offset = offset' at hOffset
    subst hOffset
    exact ⟨_, hEntry, rfl⟩

/- Addresses are owned once if the blocks have their own offsets. -/
theorem nodup_addresses
    (h : Backed blocks owned)
    (hNodup : (blocks.map ChainBlock.offset).Nodup) :
    (owned.map Owned.address).Nodup := by
  have hOffsets := h.offsets.nodup_iff.2 hNodup
  have hMap : owned.map Owned.offset =
      (owned.map Owned.address).map Address.offset := by
    rw [List.map_map]
    rfl
  rw [hMap] at hOffsets
  exact hOffsets.of_map

/- An address that is owned has a block. -/
theorem exists_block
    {address : Address}
    (h : Backed blocks owned)
    (hOwned : ∃ entry ∈ owned, entry.address = address) :
    ∃ block ∈ blocks, address = { offset := block.offset } := by
  rcases h.owned_iff.1 hOwned with ⟨block, hBlock, hOffset⟩
  rcases address with ⟨offset⟩
  exact ⟨block, hBlock, congrArg Address.mk hOffset.symm⟩

end Backed

end SegregatedFit
