import SegregatedFit.Client.Transcript
import SegregatedFit.Proofs.Allocator.Twins
import SegregatedFit.Proofs.Client.Runs
import SegregatedFit.Proofs.Consistency.Decision

/-
  What clients write into their payloads changes nothing else
  that they see.

  Two clients that make the same calls, but write different
  bytes, own the same addresses of twins.  Twins answer all
  questions alike, so the transcripts are equal.

  Key definitions include:
    * `Client.Alike`

  Key theorems include:
    * `Client.Alike.perform`
    * `Client.Alike.observe_eq`
    * `Client.History.noninterference`
-/

namespace SegregatedFit

namespace Allocator

namespace Twins

variable {a b : Allocator}
variable {table : SentinelTable}
variable {view : HeapView}
variable {block : ChainBlock}
variable {owned : List Owned}
variable {n : Nat}

------------------------------------------------------------
-- What Twins Tell
------------------------------------------------------------

/- Twins have the same statistics. -/
theorem statistics_eq
    (h : a.Twins b table view) :
    b.statistics = a.statistics := by
  have hSize : b.region.size = a.region.size := h.size_eq
  rcases h.counters_eq with ⟨_, hExtensions, hCount, hFrees⟩
  rw [h.left.statistics_eq, h.right.statistics_eq, hSize,
    hExtensions, hCount, hFrees]

/- An allocated block looks the same in both twins. -/
theorem looks_eq
    (h : a.Twins b table view)
    (hBlock : block ∈ view.allocatedBlocks) :
    b.usableSize { offset := block.offset } =
        a.usableSize { offset := block.offset } ∧
      b.block { offset := block.offset } =
        a.block { offset := block.offset } := by
  rw [h.left.usableSize_eq hBlock,
    h.right.usableSize_eq hBlock, h.left.block_eq hBlock,
    h.right.block_eq hBlock]
  exact ⟨rfl, rfl⟩

/- Twins find the same when they check their heaps. -/
theorem checkConsistency_eq
    (h : a.Twins b table view)
    (verbose : Bool) :
    b.checkConsistency verbose = a.checkConsistency verbose := by
  have hWord := h.left.placed.size_lt
  have hWord' := h.right.placed.size_lt
  have hSize : b.memory.size = a.memory.size := h.size_eq
  have hBase : b.region.base = a.region.base := by
    rcases h.same with ⟨_, rfl⟩
    rfl
  have hGather : Findings.gather table a.memory =
      .ok (view.findings table a.memory.size) :=
    (HeapView.stands_iff.1 h.left.stands).1.gather_eq (by omega)
  have hGather' : Findings.gather table b.memory =
      .ok (view.findings table b.memory.size) :=
    (HeapView.stands_iff.1 h.right.stands).1.gather_eq (by omega)
  have hInspect :
      b.inspect table verbose = a.inspect table verbose := by
    unfold inspect
    dsimp only
    rw [hGather, hGather', hSize, hBase]
  unfold checkConsistency
  rw [h.left.table_eq, h.right.table_eq]
  dsimp only
  rw [hInspect]

------------------------------------------------------------
-- What Twins Do
------------------------------------------------------------

/- Twins serve writes of any bytes into their payloads. -/
theorem perform_write
    {address address' : Address}
    {position position' : Nat}
    {bytes bytes' : List UInt8}
    (h : a.Twins b table view)
    (hBacked : Backed view.allocatedBlocks owned)
    (hAllowed : (Call.write address position bytes).Allowed
      { allocator := a, owned := owned, operations := n })
    (hAllowed' : (Call.write address' position' bytes').Allowed
      { allocator := b, owned := owned, operations := n }) :
    Traced.InStep (SameAnswer table)
      (a.perform (.write address position bytes))
      (b.perform (.write address' position' bytes')) := by
  rcases hAllowed with ⟨hOwned, usable, hUsable, hInside⟩
  rcases hAllowed' with ⟨hOwned', usable', hUsable', hInside'⟩
  rcases hBacked.exists_block hOwned with ⟨block, hBlock, rfl⟩
  rcases hBacked.exists_block hOwned' with ⟨other, hOther, rfl⟩
  cases hUsable.symm.trans (h.left.usableSize_eq hBlock)
  cases hUsable'.symm.trans (h.right.usableSize_eq hOther)
  rcases h.writePayload hBlock hOther hInside hInside' with
    ⟨m, n, hWrite, hWrite', hWritten⟩
  rw [Allocator.perform_write hWrite,
    Allocator.perform_write hWrite']
  exact .pure ⟨rfl, view, hWritten⟩

/- Twins resize what is owned, or allocate, alike. -/
theorem resize_owned
    {address : Option Address}
    (h : a.Twins b table view)
    (size : Nat)
    (hBacked : Backed view.allocatedBlocks owned)
    (hOwned : ∀ target ∈ address,
      ∃ entry ∈ owned, entry.address = target)
    (hExtensions : a.extensions + 1 < Word.limit)
    (hAllocations : a.allocations + 1 < Word.limit)
    (hFrees : a.frees + 1 < Word.limit) :
    Traced.InStep (SameAnswer table)
      (a.resize address size) (b.resize address size) := by
  cases address with
  | none =>
      by_cases hSize : size = 0
      · subst hSize
        exact .pure ⟨rfl, view, h⟩
      · unfold Allocator.resize
        rw [if_neg hSize, if_neg hSize]
        exact h.allocate size hExtensions hAllocations
  | some target =>
      rcases hBacked.exists_block (hOwned target rfl) with
        ⟨block, hBlock, rfl⟩
      by_cases hSize : size = 0
      · subst hSize
        apply (h.free hBlock hFrees).bind
        intro next next' hNext
        exact .pure ⟨rfl, hNext⟩
      · exact h.resize hBlock hSize hExtensions hAllocations
          hFrees

/- Twins serve the same call alike. -/
theorem perform_same
    {call : Call}
    (h : a.Twins b table view)
    (hBacked : Backed view.allocatedBlocks owned)
    (hAllowed : call.Allowed
      { allocator := a, owned := owned, operations := n })
    (hAllowed' : call.Allowed
      { allocator := b, owned := owned, operations := n })
    (hCounted : a.CountedBy n)
    (hFew : n + call.operations < Word.limit) :
    Traced.InStep (SameAnswer table)
      (a.perform call) (b.perform call) := by
  have hExtensions := hCounted.extensions_le
  have hAllocations := hCounted.allocations_le
  have hFrees := hCounted.frees_le
  have hSame : ∀ reply, SameAnswer table
      ((reply, a) : Reply × Allocator) (reply, b) :=
    fun _ => ⟨rfl, view, h⟩
  cases call with
  | init =>
      rw [perform_init_of_error (init_again h.left.table_eq),
        perform_init_of_error (init_again h.right.table_eq)]
      exact .pure (hSame (.failed .alreadyInitialized))
  | allocate size =>
      change n + 1 < Word.limit at hFew
      apply (h.allocate size (by omega) (by omega)).bind
      rintro ⟨address, next⟩ ⟨_, next'⟩ ⟨rfl, hNext⟩
      exact .pure ⟨rfl, hNext⟩
  | free address =>
      change n + 1 < Word.limit at hFew
      cases address with
      | none => exact .pure (hSame .done)
      | some address =>
          rcases hBacked.exists_block hAllowed with
            ⟨block, hBlock, rfl⟩
          apply (h.free hBlock (by omega)).bind
          intro next next' hNext
          exact .pure ⟨rfl, hNext⟩
  | resize address size =>
      change n + 1 < Word.limit at hFew
      have hOwned : ∀ target ∈ address,
          ∃ entry ∈ owned, entry.address = target := by
        intro target hTarget
        cases hTarget
        exact hAllowed.1
      apply (h.resize_owned size hBacked hOwned (by omega)
        (by omega) (by omega)).bind
      rintro ⟨target, next⟩ ⟨_, next'⟩ ⟨rfl, hNext⟩
      exact .pure ⟨rfl, hNext⟩
  | write address position bytes =>
      exact h.perform_write hBacked hAllowed hAllowed'
  | moveBreak displacement =>
      unfold perform
      dsimp only
      rcases h.regions.moveBreak displacement with hStays | hMoves
      · rw [hStays.1, hStays.2]
        exact .pure (hSame .done)
      · rcases hMoves with ⟨r, s, hMove, hMove', hRegions⟩
        rw [hMove, hMove']
        exact .pure ⟨rfl, view, h.of_undisturbed
          (h.left.placed.moveBreak hMove)
          (h.right.placed.moveBreak hMove') hRegions⟩

/- Twins serve calls alike that are the same but for writes. -/
theorem perform
    {call call' : Call}
    (h : a.Twins b table view)
    (hBacked : Backed view.allocatedBlocks owned)
    (hCalls : call.SameButWrites call')
    (hAllowed : call.Allowed
      { allocator := a, owned := owned, operations := n })
    (hAllowed' : call'.Allowed
      { allocator := b, owned := owned, operations := n })
    (hCounted : a.CountedBy n)
    (hFew : n + call.operations < Word.limit) :
    Traced.InStep (SameAnswer table)
      (a.perform call) (b.perform call') := by
  cases hCalls with
  | same call =>
      exact h.perform_same hBacked hAllowed hAllowed' hCounted
        hFew
  | write _ _ _ _ _ _ =>
      exact h.perform_write hBacked hAllowed hAllowed'

end Twins

end Allocator

------------------------------------------------------------
-- Clients
------------------------------------------------------------

namespace Call.SameButWrites

variable {call call' : Call}

/- Writes are no operations of the allocator. -/
theorem operations_eq
    (h : call.SameButWrites call') :
    call'.operations = call.operations := by
  cases h with
  | same call => rfl
  | write _ _ _ _ _ _ => rfl

/- Writes leave the record as it is. -/
theorem record_eq
    (h : call.SameButWrites call')
    (owned : List Owned)
    (reply : Reply) :
    Client.record owned call' reply =
      Client.record owned call reply := by
  cases h with
  | same call => rfl
  | write _ _ _ _ _ _ => rfl

end Call.SameButWrites

namespace Client

/-
  Two clients are the same, or their allocators are twins
  and they agree in everything else.
-/
inductive Alike :
    Client → Client → Prop where
  | same
      (client : Client) :
      Alike client client
  | twins
      {a b : Allocator}
      {table : SentinelTable}
      {view : HeapView}
      (owned : List Owned)
      (operations : Nat)
      (twins : a.Twins b table view) :
      Alike
        { allocator := a, owned := owned,
          operations := operations }
        { allocator := b, owned := owned,
          operations := operations }

variable {client other : Client}
variable {call call' : Call}

namespace Alike

/- Clients that are alike look alike. -/
theorem observe_eq
    (h : client.Alike other)
    (hSound : client.Sound) :
    other.observe = client.observe := by
  cases h with
  | same => rfl
  | @twins a b table view owned operations twins =>
      have hBacked := hSound.backed_of_rest twins.left
      have hLooks : ∀ entry ∈ owned,
          b.usableSize entry.address =
              a.usableSize entry.address ∧
            b.block entry.address = a.block entry.address := by
        intro entry hEntry
        rcases hBacked.exists_block ⟨entry, hEntry, rfl⟩ with
          ⟨block, hBlock, hAddress⟩
        rw [hAddress]
        exact twins.looks_eq hBlock
      have hSizes := List.map_congr_left
        (fun entry hEntry => (hLooks entry hEntry).1)
      have hBlocks := List.map_congr_left
        (fun entry hEntry => (hLooks entry hEntry).2)
      unfold observe
      dsimp only
      rw [twins.statistics_eq, twins.checkConsistency_eq,
        twins.checkConsistency_eq, hSizes, hBlocks]

end Alike

/- Clients of twins stay alike. -/
theorem perform_twins
    {a b : Allocator}
    {table : SentinelTable}
    {view : HeapView}
    {owned : List Owned}
    {n : Nat}
    (h : a.Twins b table view)
    (hSound : Sound
      { allocator := a, owned := owned, operations := n })
    (hCalls : call.SameButWrites call')
    (hAllowed : call.Allowed
      { allocator := a, owned := owned, operations := n })
    (hAllowed' : call'.Allowed
      { allocator := b, owned := owned, operations := n })
    (hFew : n + call.operations < Word.limit) :
    Traced.InStep
      (fun x y => x.1 = y.1 ∧ x.2.Alike y.2)
      (Client.perform
        { allocator := a, owned := owned, operations := n }
        call)
      (Client.perform
        { allocator := b, owned := owned, operations := n }
        call') := by
  have hBacked := hSound.backed_of_rest h.left
  apply (h.perform hBacked hCalls hAllowed hAllowed'
    hSound.counted hFew).bind
  rintro ⟨reply, next⟩ ⟨_, next'⟩ ⟨rfl, view', hNext⟩
  have hRecord := hCalls.record_eq owned reply
  have hOperations := hCalls.operations_eq
  dsimp only
  rw [hRecord, hOperations]
  exact .pure ⟨rfl, .twins _ _ hNext⟩

/- Clients that are alike before a call are alike after it. -/
theorem Alike.perform
    (h : client.Alike other)
    (hSound : client.Sound)
    (hCalls : call.SameButWrites call')
    (hAllowed : call.Allowed client)
    (hAllowed' : call'.Allowed other)
    (hFew :
      client.operations + call.operations < Word.limit) :
    Traced.InStep
      (fun x y => x.1 = y.1 ∧ x.2.Alike y.2)
      (client.perform call) (other.perform call') := by
  cases h with
  | twins owned operations twins =>
      exact perform_twins twins hSound hCalls hAllowed hAllowed'
        hFew
  | same client =>
      cases hTable : client.allocator.table with
      | some table =>
          rcases hSound.backed table hTable with ⟨view, hRest, _⟩
          exact perform_twins (.refl hRest) hSound hCalls
            hAllowed hAllowed' hFew
      | none =>
          rcases hSound.perform_ok hAllowed hFew with
            ⟨reply, next, hOutcome, _⟩
          cases hCalls with
          | same call =>
              exact .refl hOutcome ⟨rfl, .same next⟩
          | write _ _ _ _ _ _ =>
              -- Nothing is owned that could be written to.
              rcases hAllowed.1 with ⟨entry, hEntry, _⟩
              rw [hSound.unowned hTable] at hEntry
              cases hEntry

------------------------------------------------------------
-- Transcripts
------------------------------------------------------------

variable {start : Allocator}
variable {events : List Event}
variable {calls calls' : List Call}
variable {lines lines' : List Line}

/- Clients that are alike have the same transcripts. -/
theorem Transcript.eq_of_alike
    (hFirst : client.Transcript calls lines)
    (hSecond : other.Transcript calls' lines')
    (h : client.Alike other)
    (hSound : client.Sound)
    (hCalls : List.Forall₂ Call.SameButWrites calls calls') :
    lines = lines' := by
  induction hFirst generalizing other calls' lines' with
  | done client =>
      cases hCalls
      cases hSecond
      rfl
  | @call client next call calls reply lines allowed few outcome
      rest ih =>
      cases hCalls with
      | cons hCall hRest =>
          cases hSecond with
          | @call _ next' call' _ reply' lines' allowed' few'
              outcome' rest' =>
              have hStep :=
                h.perform hSound hCall allowed allowed' few
              rcases hSound.perform_ok allowed few with
                ⟨_, _, hOutcome, hNextSound, _⟩
              cases outcome.symm.trans hOutcome
              -- The rest goes on from clients that are alike.
              rcases hStep.of_outcomes outcome outcome' with
                ⟨hEvents, hReply, hNext⟩
              dsimp only at hReply
              rw [ih rest' hNext hNextSound hRest, hReply,
                hEvents, hNext.observe_eq hNextSound]

namespace History

/-
  Two transcripts of the same calls that differ only in what
  is written into payloads are equal: the replies, the events,
  and all that is seen after each call.
-/
theorem noninterference
    (h : History start events client)
    (hFirst : client.Transcript calls lines)
    (hSecond : client.Transcript calls' lines')
    (hCalls : List.Forall₂ Call.SameButWrites calls calls') :
    lines = lines' :=
  hFirst.eq_of_alike hSecond (.same client) h.sound hCalls

/- A transcript begins with any allowed call. -/
theorem transcript_after
    (h : ∃ events, History start events client)
    (allowed : call.Allowed client)
    (few :
      client.operations + call.operations < Word.limit)
    (hRest : ∃ lines,
      (client.after call).Transcript calls lines) :
    ∃ lines, client.Transcript (call :: calls) lines := by
  rcases h with ⟨events, past⟩
  rcases past.sound.perform_ok allowed few with
    ⟨reply, next, hOutcome, _⟩
  rw [after_eq hOutcome] at hRest
  rcases hRest with ⟨lines, rest⟩
  exact ⟨_, .call allowed few hOutcome rest⟩

/- A write to the block of the sample, which is freed then. -/
def sampleCalls
    (byte : UInt8) : List Call :=
  [.write { offset := 192 } 0 (List.replicate wordSize byte),
    .free (some { offset := 192 })]

/- The sample allows these calls. -/
theorem sampleCalls_transcript
    (byte : UInt8) :
    ∃ lines, sample.Transcript (sampleCalls byte) lines := by
  let written := Call.write { offset := 192 } 0
    (List.replicate wordSize byte)
  have hInside :
      0 + (List.replicate wordSize byte).length ≤ 16 := by
    rw [List.length_replicate]
    decide
  have hWrite : written.Allowed sample :=
    ⟨sample_owns, 16, sample_usableSize, hInside⟩
  have hFew : sample.operations + written.operations <
      Word.limit := by
    rw [sample_eq.2.2]
    exact (by decide : 2 + 0 < Word.limit)
  rcases History.after sample_history written hWrite hFew with
    ⟨hWritten, hOperations⟩
  have hOwns : (sample.after written).Owns
      { offset := 192 } := by
    unfold Owns
    rw [owned_after_write]
    exact sample_owns
  have hFree : (Call.free (some { offset := 192 })).Allowed
      (sample.after written) :=
    hOwns
  have hFew' : (sample.after written).operations + 1 <
      Word.limit := by
    rw [hOperations, sample_eq.2.2]
    exact (by decide : 2 + 0 + 1 < Word.limit)
  exact transcript_after sample_history hWrite hFew
    (transcript_after hWritten hFree hFew' ⟨[], .done _⟩)

/- Links of the freed block do not depend on what was there. -/
theorem noninterference_sample :
    ∃ lines lines',
      sample.Transcript (sampleCalls 0) lines ∧
      sample.Transcript (sampleCalls 255) lines' ∧
      lines = lines' := by
  rcases sample_history with ⟨events, hHistory⟩
  rcases sampleCalls_transcript 0 with ⟨lines, hFirst⟩
  rcases sampleCalls_transcript 255 with ⟨lines', hSecond⟩
  have hCalls : List.Forall₂ Call.SameButWrites
      (sampleCalls 0) (sampleCalls 255) :=
    .cons (.write _ _ _ _ _ _) (.cons (.same _) .nil)
  exact ⟨lines, lines', hFirst, hSecond,
    noninterference hHistory hFirst hSecond hCalls⟩

end History

end Client

end SegregatedFit
