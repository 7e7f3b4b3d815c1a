import SegregatedFit.Proofs.Allocator.Warnings
import SegregatedFit.Proofs.Client.Resizing

/-
  What is reported of requests that fail.

  A request that gets no address is reported with one warning
  that names the cause, and a request that gets one is not
  warned of.  The exception are requests so large that no
  block has their size: they fail without a word.

  Key definitions include:
    * `Call.requestedBytes`
    * `Call.NamesCause`

  Key theorems include:
    * `Allocator.ends_of_perform`
    * `Client.History.failures_reported`
    * `Client.failure_unreported`
-/

namespace SegregatedFit

------------------------------------------------------------
-- Causes
------------------------------------------------------------

/-
  The bytes that a call asks for.  A block that is resized
  asks for its new size times the multiplier.
-/
def Call.requestedBytes
    (multiplier : Nat) :
    Call → Nat
| .allocate size => size
| .resize none size => size
| .resize (some _) size => size * multiplier
| _ => 0

/-
  The event names why the call gets no address: the heap is
  not laid out yet, or the region refuses to grow by what the
  call needs.
-/
def Call.NamesCause
    (call : Call)
    (a : Allocator) :
    Event → Prop
| .allocationBeforeInit size =>
    a.table = none ∧
      (call = .allocate size ∨ call = .resize none size)
| .resizeBeforeInit bp size =>
    a.table = none ∧
      call = .resize (some { offset := bp }) size
| .allocationFailed size error =>
    a.table ≠ none ∧
      size = Request.rounded
        (call.requestedBytes a.config.resizeMultiplier) ∧
      (a.region.grow
        (max (Request.sizeFor size) a.config.chunkSize)).1 =
          .error error
| _ => False

namespace Allocator

variable {a next : Allocator}
variable {events : List Event}
variable {call : Call}
variable {reply : Reply}
variable {n : Nat}

/-
  A call that asks for some bytes ends as such a request does,
  and what it reports too early names the cause.
-/
theorem ends_of_perform
    (hAsks : call.AsksFor n)
    (hSize : n ≠ 0)
    (h : (a.perform call).Runs events (reply, next)) :
    ∃ answer early,
      reply = .address answer ∧
        a.Ends early
          (call.requestedBytes a.config.resizeMultiplier)
          events answer ∧
        (a.table = none →
          early.level = .warn ∧ call.NamesCause a early) := by
  unfold perform at h
  rcases Call.asksFor_iff.1 hAsks with rfl | ⟨target, rfl⟩
  · rw [Traced.runs_bind_iff] at h
    rcases h with ⟨front, ⟨answer, b⟩, back, hRun, h, rfl⟩
    rcases Traced.runs_pure_iff.1 h with ⟨rfl, hReply⟩
    cases hReply
    rw [List.append_nil]
    exact ⟨answer, _, rfl,
      (ends_of_allocate (fun _ => rfl) hSize hRun).2,
      fun hTable => ⟨rfl, hTable, Or.inl rfl⟩⟩
  · rw [Traced.runs_bind_iff] at h
    rcases h with ⟨front, ⟨answer, b⟩, back, hRun, h, rfl⟩
    rcases Traced.runs_pure_iff.1 h with ⟨rfl, hReply⟩
    cases hReply
    rw [List.append_nil]
    cases target with
    | none =>
        unfold resize at hRun
        rw [if_neg hSize] at hRun
        exact ⟨answer, _, rfl,
          (ends_of_allocate (fun _ => rfl) hSize hRun).2,
          fun hTable => ⟨rfl, hTable, Or.inr rfl⟩⟩
    | some target =>
        exact ⟨answer, _, rfl, ends_of_resize hSize hRun,
          fun hTable => ⟨rfl, hTable, rfl⟩⟩

end Allocator

------------------------------------------------------------
-- Failures of Clients
------------------------------------------------------------

namespace Client

variable {start : Allocator}
variable {past events : List Event}
variable {client next : Client}
variable {call : Call}
variable {reply : Reply}
variable {n : Nat}

/- A client reports what its allocator reports. -/
theorem runs_of_perform
    (h : (client.perform call).Runs events (reply, next)) :
    (client.allocator.perform call).Runs events
      (reply, next.allocator) := by
  unfold perform at h
  rw [Traced.runs_bind_iff] at h
  rcases h with ⟨front, ⟨answer, a⟩, back, hRun, h, rfl⟩
  rcases Traced.runs_pure_iff.1 h with ⟨rfl, hNext⟩
  cases hNext
  rw [List.append_nil]
  exact hRun

/-
  A call for more bytes than any block has fails, and nothing
  is reported.
-/
theorem silent_of_large
    (hTable : client.allocator.table ≠ none)
    (hAsks : call.AsksFor n)
    (hLarge : Word.limit ≤ n + 2 * doubleWord) :
    client.replyTo call = some (.address none) ∧
      (client.perform call).events = [] := by
  have hPerform : client.allocator.perform call =
      pure (.address none, client.allocator) := by
    unfold Allocator.perform
    rcases Call.asksFor_iff.1 hAsks with rfl | ⟨target, rfl⟩
    · dsimp only
      rw [Allocator.allocate_of_large hTable hLarge, pure_bind]
    · dsimp only
      rw [Allocator.resize_of_large hTable hLarge, pure_bind]
  unfold replyTo perform
  rw [hPerform]
  exact ⟨rfl, rfl⟩

/-
  A call for some bytes ends with an address or without one.
  With an address nothing is warned of.  Without one there is
  a single event, a warning that names the cause, unless the
  heap is laid out and the call asks for so many bytes that
  no block has their size.  Then there is no event.
-/
theorem History.failures_reported
    (h : History start past client)
    (hAllowed : call.Allowed client)
    (hFew :
      client.operations + call.operations < Word.limit)
    (hAsks : call.AsksFor n)
    (hSize : n ≠ 0) :
    ∃ answer next,
      (client.perform call).outcome =
        .ok (.address answer, next) ∧
      (answer ≠ none →
        ∀ event ∈ (client.perform call).events,
          event.level ≠ .warn) ∧
      (answer = none →
        (client.allocator.table = none ∨
          call.requestedBytes
              client.allocator.config.resizeMultiplier +
            2 * doubleWord < Word.limit →
          ∃ event,
            (client.perform call).events = [event] ∧
              event.level = .warn ∧
              call.NamesCause client.allocator event) ∧
        (client.allocator.table ≠ none →
          Word.limit ≤ call.requestedBytes
              client.allocator.config.resizeMultiplier +
            2 * doubleWord →
          (client.perform call).events = [])) := by
  rcases h.sound.perform_ok hAllowed hFew with
    ⟨reply, next, hOutcome, _⟩
  rcases Allocator.ends_of_perform hAsks hSize
      (runs_of_perform ⟨rfl, hOutcome⟩) with
    ⟨answer, early, rfl, hEnds, hEarly⟩
  refine ⟨answer, next, hOutcome, ?_⟩
  generalize (client.perform call).events = events at hEnds
  cases hEnds with
  | tooEarly hTable =>
      have hCause := hEarly hTable
      refine ⟨fun hSome => absurd rfl hSome, fun _ => ⟨?_, ?_⟩⟩
      · intro _
        exact ⟨early, rfl, hCause⟩
      · intro hInitialized
        exact absurd hTable hInitialized
  | tooLarge hInitialized hLarge =>
      refine ⟨fun hSome => absurd rfl hSome, fun _ => ⟨?_, ?_⟩⟩
      · rintro (hTable | hSmall)
        · exact absurd hTable hInitialized
        · omega
      · intro _ _
        rfl
  | refused hInitialized hSmall hRefusal =>
      refine ⟨fun hSome => absurd rfl hSome, fun _ => ⟨?_, ?_⟩⟩
      · intro _
        exact ⟨_, rfl, rfl, hInitialized, rfl, hRefusal⟩
      · intro _ hLarge
        omega
  | granted hInitialized hQuiet =>
      exact ⟨fun _ => hQuiet, fun hNone => by cases hNone⟩

/-
  The sample cannot grow by a block for a hundred bytes, and
  there is a warning that says so.  For five of its eight
  bytes it can stay where it is, and nothing is warned of.
-/
theorem failures_reported_sample :
    (∃ event,
      (sample.perform (.allocate 100)).events = [event] ∧
        event.level = .warn ∧
        (Call.allocate 100).NamesCause sample.allocator
          event) ∧
      ∀ event ∈ (sample.perform
          (.resize (some { offset := 192 }) 5)).events,
        event.level ≠ .warn := by
  rcases sample_history with ⟨past, hHistory⟩
  constructor
  · have hAllowed : (Call.allocate 100).Allowed sample :=
      show 100 < Word.limit by decide
    have hAsks : (Call.allocate 100).AsksFor 100 :=
      rfl
    have hReply : sample.replyTo (.allocate 100) =
        some (.address none) := by
      decide +kernel
    rcases History.failures_reported hHistory hAllowed
        (by rw [sample_eq.2.2]; decide) hAsks (by decide) with
      ⟨answer, next, hOutcome, _, hNone⟩
    rw [perform_of_replyTo hReply] at hOutcome
    cases hOutcome
    exact (hNone rfl).1
      (Or.inr (show 100 + 2 * doubleWord < Word.limit by decide))
  · have hAllowed : (Call.resize (some { offset := 192 })
        5).Allowed sample :=
      ⟨sample_owns, show 5 < Word.limit by decide⟩
    have hAsks : (Call.resize (some { offset := 192 })
        5).AsksFor 5 :=
      rfl
    have hStays :
        (sample.allocator.resize
            (some { offset := 192 }) 5).outcome =
          .ok (some { offset := 192 }, sample.allocator) :=
      hHistory.sound.resize_inPlace sample_owns
        sample_usableSize (by decide) (by decide)
    rcases History.failures_reported hHistory hAllowed
        (by rw [sample_eq.2.2]; decide) hAsks (by decide) with
      ⟨answer, next, hOutcome, hSome, _⟩
    rw [perform_outcome (congrArg Traced.outcome
      (Allocator.perform_resize hStays))] at hOutcome
    cases hOutcome
    exact hSome (by simp)

/-
  A request for the largest word fails and nothing at all is
  reported, nor is it for a resize to that size.
-/
theorem failure_unreported :
    ∃ past, History sampleStart past sample ∧
      (Call.allocate (Word.limit - 1)).Allowed sample ∧
      sample.replyTo (.allocate (Word.limit - 1)) =
        some (.address none) ∧
      (sample.perform (.allocate (Word.limit - 1))).events = [] ∧
      (Call.resize (some { offset := 192 })
        (Word.limit - 1)).Allowed sample ∧
      sample.replyTo (.resize (some { offset := 192 })
        (Word.limit - 1)) = some (.address none) ∧
      (sample.perform (.resize (some { offset := 192 })
        (Word.limit - 1))).events = [] := by
  have hSize : Word.limit - 1 < Word.limit := by
    decide
  have hLarge :
      Word.limit ≤ Word.limit - 1 + 2 * doubleWord := by
    decide
  have hTable : sample.allocator.table ≠ none := by
    rw [sample_eq.1]
    simp
  have hAllocate :
      (Call.allocate (Word.limit - 1)).AsksFor
        (Word.limit - 1) :=
    rfl
  have hResize :
      (Call.resize (some { offset := 192 })
        (Word.limit - 1)).AsksFor (Word.limit - 1) :=
    rfl
  have hSilent := silent_of_large hTable hAllocate hLarge
  have hSilent' := silent_of_large hTable hResize hLarge
  rcases sample_history with ⟨past, hHistory⟩
  exact ⟨past, hHistory, hSize, hSilent.1, hSilent.2,
    ⟨sample_owns, hSize⟩, hSilent'.1, hSilent'.2⟩

end Client

end SegregatedFit
