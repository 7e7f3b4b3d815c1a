import SegregatedFit.Proofs.Client.Recovery

/-
  The sizes of requests and of the blocks that serve them.

  The block of a request has the least size that will do, up
  to the last request that has a block at all.  A request is
  served as if it were rounded, which keeps the order of the
  requests and never makes a block smaller.  So an address
  that was given for some bytes stays where it is when it is
  resized to as many or fewer of them, however long it has
  been owned.

  Key theorems include:
    * `Request.blockSize?_cases`
    * `Request.blockSize?_rounded_mono`
    * `Client.Retains.resize_inPlace`
    * `Client.blockSizes_least_and_kept`
-/

namespace SegregatedFit

------------------------------------------------------------
-- Sizes of Blocks
------------------------------------------------------------

namespace Request

/-
  A request has a block unless it is within two double words
  of the limit, and the block is the least one that will do.
-/
theorem blockSize?_cases
    (n : Nat) :
    ∃ answer, blockSize? n = .ok answer ∧
      (answer = none ↔ Word.limit - 33 < n) ∧
      ∀ size, answer = some size →
        IsLeast
          {size | doubleWord ∣ size ∧
            max minimumBlock (n + doubleWord) ≤ size}
          size := by
  have hSizes := Word.sizes_eq
  by_cases hWord : n + 2 * doubleWord < Word.limit
  · refine ⟨some (sizeFor n),
      blockSize?_eq_some_iff.2 ⟨hWord, rfl⟩, ?_, ?_⟩
    · simp only [reduceCtorEq, false_iff]
      omega
    · intro size hSize
      cases hSize
      exact sizeFor_isLeast n
  · refine ⟨none, blockSize?_eq_none_iff.2 hWord, ?_, ?_⟩
    · simp only [true_iff]
      omega
    · intro size hSize
      cases hSize

/- If a request has a block, so has every smaller one. -/
theorem blockSize?_rounded_mono
    {m n large : Nat}
    (h : m ≤ n)
    (hLarge : blockSize? (rounded n) = .ok (some large)) :
    ∃ small, blockSize? (rounded m) = .ok (some small) ∧
      small ≤ large := by
  rw [blockSize?_eq_some_iff] at hLarge
  rcases hLarge with ⟨hWord, rfl⟩
  have hRounded := rounded_mono h
  exact ⟨sizeFor (rounded m),
    blockSize?_eq_some_iff.2 ⟨by omega, rfl⟩,
    sizeFor_mono hRounded⟩

/-
  Rounding neither makes a block smaller nor takes it away
  from a request.
-/
theorem blockSize?_le_rounded
    {n least : Nat}
    (h : blockSize? n = .ok (some least)) :
    ∃ served, blockSize? (rounded n) = .ok (some served) ∧
      least ≤ served := by
  rw [blockSize?_eq_some_iff] at h
  rcases h with ⟨hWord, rfl⟩
  exact ⟨sizeFor (rounded n),
    blockSize?_eq_some_iff.2 ⟨rounded_lt_iff.2 hWord, rfl⟩,
    sizeFor_mono (le_rounded n)⟩

/- A request without a block has none after it was rounded. -/
theorem blockSize?_rounded_eq_none_iff
    {n : Nat} :
    blockSize? (rounded n) = .ok none ↔
      blockSize? n = .ok none := by
  rw [blockSize?_eq_none_iff, blockSize?_eq_none_iff,
    rounded_lt_iff]

end Request

------------------------------------------------------------
-- Addresses and Their Requests
------------------------------------------------------------

namespace Client

variable {client first : Client}
variable {address : Address}
variable {m n : Nat}

/- What is recorded for an address fits into its payload. -/
theorem Sound.requested_le_usableSize
    {entry : Owned}
    (h : client.Sound)
    (hEntry : entry ∈ client.owned) :
    ∃ usable,
      client.allocator.usableSize entry.address = .ok usable ∧
        entry.requested ≤ usable := by
  rcases h.exists_block ⟨entry, hEntry, rfl⟩ with
    ⟨_, _, _, hRest, hBacked, _, _⟩
  rcases hBacked.room entry hEntry with
    ⟨block, hBlock, hOffset, hRoom⟩
  have hAddress :
      entry.address = { offset := block.offset } := by
    rw [hOffset]
    rfl
  have hUsable := hRest.usableSize_eq hBlock
  rw [← hAddress] at hUsable
  exact ⟨_, hUsable, Nat.le_sub_of_add_le hRoom⟩

/-
  While an address is retained, it is resized in place to all
  sizes up to the one it was recorded with.
-/
theorem Retains.resize_inPlace
    (h : Retains address first client)
    (hSound : first.Sound)
    (hEntry :
      { address := address, requested := n } ∈ first.owned)
    (hLeast : 1 ≤ m)
    (hMost : m ≤ n) :
    (client.allocator.resize (some address) m).outcome =
      .ok (some address, client.allocator) := by
  rcases hSound.requested_le_usableSize hEntry with
    ⟨usable, hUsable, hRoom⟩
  have hKept := h.usableSize_eq hSound
  exact hKept.1.resize_inPlace h.owns (hKept.2.trans hUsable)
    (Nat.one_le_iff_ne_zero.1 hLeast)
    (Nat.le_trans hMost hRoom)

/-
  The size of a block is found for every request without a
  fault.  There is none exactly for the last requests below
  the limit, and otherwise it is the least multiple of the
  double word with room for the bytes and the tags.

  A request is rounded to the least power of two that is
  enough, up to 256 bytes, and stays as it is beyond that.
  The block that serves a request is not smaller, and grows
  with the request.  An address that a call is given for `n`
  bytes is resized to as many or fewer without being moved,
  as long as it is owned.
-/
theorem blockSizes_least_and_kept :
    (∀ n, ∃ answer, Request.blockSize? n = .ok answer ∧
      (answer = none ↔ Word.limit - 33 < n) ∧
      ∀ size, answer = some size →
        IsLeast
          {size | doubleWord ∣ size ∧
            max minimumBlock (n + doubleWord) ≤ size}
          size) ∧
    (∀ n, Request.ServedAs n (Request.rounded n)) ∧
    (∀ m n large, m ≤ n →
      Request.blockSize? (Request.rounded n) =
        .ok (some large) →
      ∃ small,
        Request.blockSize? (Request.rounded m) =
          .ok (some small) ∧
        small ≤ large) ∧
    (∀ n,
      (Request.blockSize? (Request.rounded n) = .ok none ↔
        Request.blockSize? n = .ok none) ∧
      ∀ least, Request.blockSize? n = .ok (some least) →
        ∃ served,
          Request.blockSize? (Request.rounded n) =
            .ok (some served) ∧
          least ≤ served) ∧
    ∀ start past before call n address first client m,
      History start past before →
      call.Allowed before →
      before.operations + call.operations < Word.limit →
      call.AsksFor n →
      (before.perform call).outcome =
        .ok (.address (some address), first) →
      Retains address first client →
      1 ≤ m → m ≤ n →
      (client.allocator.resize (some address) m).outcome =
        .ok (some address, client.allocator) := by
  refine ⟨Request.blockSize?_cases, Request.servedAs_rounded,
    ?_, ?_, ?_⟩
  · intro m n large hLe hLarge
    exact Request.blockSize?_rounded_mono hLe hLarge
  · intro n
    exact ⟨Request.blockSize?_rounded_eq_none_iff,
      fun _ hLeast => Request.blockSize?_le_rounded hLeast⟩
  · intro start past before call n address first client m
      hPast hAllowed hFew hAsks hGiven hRetains hLeast hMost
    have hFirst := (hPast.step hAllowed hFew hGiven).sound
    have hEntry :
        { address := address, requested := n } ∈
          first.owned := by
      rw [owned_eq hGiven]
      exact mem_record_of_asksFor hAsks (by omega)
    exact hRetains.resize_inPlace hFirst hEntry hLeast hMost

/-
  The block of the sample was given for eight bytes, so it
  stays where it is for five of them.  Of two requests that
  follow each other, the last one that is rounded has no
  larger block than the one behind it, and only the first one
  has a block where the limit comes close.
-/
theorem blockSizes_least_and_kept_sample :
    (∃ small, Request.blockSize? (Request.rounded 256) =
        .ok (some small) ∧
      small ≤ 288) ∧
    (∃ size, Request.blockSize? (Word.limit - 33) =
      .ok (some size)) ∧
    Request.blockSize? (Word.limit - 32) = .ok none ∧
    (sample.allocator.resize
        (some { offset := 192 }) 5).outcome =
      .ok (some { offset := 192 }, sample.allocator) := by
  have hSizes := Word.sizes_eq
  have hBehind : Request.blockSize? (Request.rounded 257) =
      .ok (some 288) := by
    decide
  rcases blockSizes_least_and_kept with
    ⟨hLeast, _, hMono, _, hKept⟩
  refine ⟨hMono 256 257 288 (by decide) hBehind, ?_, ?_, ?_⟩
  · rcases hLeast (Word.limit - 33) with
      ⟨answer, hAnswer, hNone, _⟩
    cases answer with
    | none => exact absurd (hNone.1 rfl) (by omega)
    | some size => exact ⟨size, hAnswer⟩
  · rcases hLeast (Word.limit - 32) with
      ⟨answer, hAnswer, hNone, _⟩
    rw [hNone.2 (by omega)] at hAnswer
    exact hAnswer
  · have hStart : ∃ events, History sampleStart events
        { allocator := sampleStart, owned := [],
          operations := 0 } :=
      ⟨[], .start sampleStart_fresh⟩
    have hInit := History.after hStart .init trivial (by decide)
    rcases hInit.1 with ⟨past, hPast⟩
    have hReply : Client.replyTo
        (({ allocator := sampleStart, owned := [],
            operations := 0 } : Client).after .init)
        (.allocate 8) =
          some (.address (some { offset := 192 })) := by
      decide +kernel
    exact hKept _ past _ (.allocate 8) 8 _ _ sample 5 hPast
      (show 8 < Word.limit by decide)
      (by rw [hInit.2]; decide) rfl
      (perform_of_replyTo hReply) (.start sample_owns)
      (by decide) (by decide)

end Client

end SegregatedFit
