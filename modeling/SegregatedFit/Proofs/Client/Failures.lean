import SegregatedFit.Proofs.Allocator.Refusals
import SegregatedFit.Proofs.Client.Runs

/-
  Requests that fail.

  A request for some bytes that gives no address leaves the
  heap, the counters and the record as they were.

  Key theorems include:
    * `Client.History.failure_atomic`
-/

namespace SegregatedFit

/- A break that moves up stays behind the region. -/
theorem Region.WellPlaced.le_of_movesUp
    {r : Region}
    {source : Source}
    {position limit : Nat}
    (h : r.WellPlaced)
    (hMoves : r.source.MovesUp source)
    (hBreak : source = .programBreak position limit) :
    r.stop ≤ position := by
  have hSource := h.2.2
  subst hBreak
  generalize r.source = before at hMoves hSource
  cases hMoves with
  | programBreak limit le => exact Nat.le_trans hSource le

namespace Client

variable {start : Allocator}
variable {events : List Event}
variable {client next : Client}
variable {call : Call}
variable {size : Nat}

/- A request without an address takes nothing and gives nothing. -/
theorem untouched_of_perform
    (hSize : size ≠ 0)
    (hCall : call = .allocate size ∨
      ∃ address, call = .resize address size)
    (h : (client.perform call).outcome =
      .ok (.address none, next)) :
    client.allocator.Untouched next.allocator ∧
      next.owned = client.owned := by
  unfold perform at h
  rw [Traced.outcome_bind_eq_ok_iff] at h
  rcases h with ⟨⟨reply, a⟩, hAllocator, hResult⟩
  cases hResult
  dsimp only
  unfold Allocator.perform at hAllocator
  rcases hCall with rfl | ⟨address, rfl⟩
  · dsimp only at hAllocator
    rw [Traced.outcome_bind_eq_ok_iff] at hAllocator
    rcases hAllocator with ⟨⟨target, b⟩, hOutcome, hReply⟩
    cases hReply
    exact ⟨Allocator.untouched_of_allocate hOutcome, rfl⟩
  · dsimp only at hAllocator
    rw [Traced.outcome_bind_eq_ok_iff] at hAllocator
    rcases hAllocator with ⟨⟨target, b⟩, hOutcome, hReply⟩
    cases hReply
    exact ⟨Allocator.untouched_of_resize hSize hOutcome,
      record_resize_none address hSize⟩

namespace History

/-
  A request for some bytes that gives no address, before or
  after the heap is laid out, changes no byte, no counter and
  nothing in the record.  Only a program break may have moved
  up behind the region.
-/
theorem failure_atomic
    (h : History start events client)
    (hSize : size ≠ 0)
    (hCall : call = .allocate size ∨
      ∃ address, call = .resize address size)
    (hOutcome : (client.perform call).outcome =
      .ok (.address none, next)) :
    next.allocator.memory = client.allocator.memory ∧
    next.allocator.table = client.allocator.table ∧
    next.allocator.statistics = client.allocator.statistics ∧
    (∀ address position length,
      next.allocator.readPayload address position length =
        client.allocator.readPayload address position
          length) ∧
    next.owned = client.owned ∧
    ∃ source growths,
      next.allocator =
        client.allocator.withSource source growths ∧
      client.allocator.region.source.MovesUp source ∧
      ∀ position limit,
        source = .programBreak position limit →
          client.allocator.region.stop ≤ position := by
  rcases untouched_of_perform hSize hCall hOutcome with
    ⟨⟨source, growths, hNext, hMoves⟩, hOwned⟩
  rw [hNext]
  refine ⟨rfl, rfl, rfl, fun _ _ _ => rfl, hOwned, source,
    growths, rfl, hMoves, ?_⟩
  intro position limit hBreak
  exact h.sound.placed.le_of_movesUp hMoves hBreak

/- The region of the sample is too small for another block. -/
theorem failure_atomic_sample :
    ∃ next,
      (sample.perform (.allocate 100)).outcome =
        .ok (.address none, next) ∧
      next.allocator.statistics =
        sample.allocator.statistics := by
  have hAllowed : (Call.allocate 100).Allowed sample := by
    change 100 < Word.limit
    decide
  have hFew : sample.operations +
      (Call.allocate 100).operations < Word.limit := by
    rw [sample_eq.2.2]
    decide
  rcases sample_history with ⟨events, hHistory⟩
  rcases hHistory.sound.perform_ok hAllowed hFew with
    ⟨reply, next, hOutcome, _⟩
  have hReply :
      (sample.perform (.allocate 100)).outcome.map Prod.fst =
        .ok (.address none) := by
    decide +kernel
  rw [hOutcome] at hReply
  have hNone : reply = .address none := Except.ok.inj hReply
  subst hNone
  have hKept := failure_atomic hHistory (by decide)
    (Or.inl rfl) hOutcome
  exact ⟨next, hOutcome, hKept.2.2.1⟩

end History

end Client

end SegregatedFit
