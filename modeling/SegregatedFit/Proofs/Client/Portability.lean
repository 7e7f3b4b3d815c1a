import SegregatedFit.Proofs.Allocator.Counterparts
import SegregatedFit.Proofs.Allocator.Initializing
import SegregatedFit.Proofs.Allocator.Stores
import SegregatedFit.Proofs.Client.Runs
import SegregatedFit.Proofs.Consistency.Reports
import SegregatedFit.Proofs.Region.Sharing

/-
  The same calls have the same effects on any region.

  A client keeps a diary of all that it can see after each
  call, down to the last byte of the heap.  Two clients of
  counterparts, one on a reservation and one at the program
  break, say, keep the same diary as long as no growth is
  refused.  Processes that host the two regions show the same
  bytes all along, whether a growth uncovers zero bytes or
  clears what it takes.

  Key definitions include:
    * `Reply.isRefusal`
    * `Snapshot`, `Snapshot.Granted`
    * `Client.diary`, `Client.afterAll`
    * `Client.Allows`

  Key theorems include:
    * `Allocator.Counterparts.perform`
    * `Client.leadsTo_afterAll`
    * `Client.Counterparts.step`
    * `Client.diary_portable`
-/

namespace SegregatedFit

/- Calls that the client makes, and no other code. -/
def Call.isOwn :
    Call → Bool
| .moveBreak _ => false
| _ => true

/- The heap could not be laid out for want of memory. -/
def Reply.isRefusal :
    Reply → Bool
| .failed error => error ≠ .alreadyInitialized
| _ => false

------------------------------------------------------------
-- What Counterparts Tell
------------------------------------------------------------

namespace Allocator

namespace Counterparts

variable {a b : Allocator}
variable {call : Call}

/- Counterparts have the same statistics. -/
theorem statistics_eq
    (h : a.Counterparts b) :
    b.statistics = a.statistics := by
  rcases h with ⟨region, hMemory, rfl⟩
  unfold statistics memory Region.size
  dsimp only
  rw [hMemory]

/- Counterparts find the same when they check their heaps. -/
theorem checkConsistency_eq
    (h : a.Counterparts b)
    (hPlaced : a.region.WellPlaced)
    (hPlaced' : b.region.WellPlaced)
    (hRoom : ∀ table, a.table = some table →
      table.firstBlock ≤ a.memory.size) :
    b.checkConsistency false = a.checkConsistency false := by
  rcases h with ⟨region, hMemory, rfl⟩
  unfold checkConsistency
  dsimp only
  cases hTable : a.table with
  | none => rfl
  | some table =>
      have hWord : a.region.base + a.memory.size < Word.limit :=
        hPlaced.size_lt
      have hWord' : region.base + a.memory.size < Word.limit := by
        have hSize := hPlaced'.size_lt
        dsimp only at hSize
        rw [hMemory] at hSize
        exact hSize
      rcases Findings.gather_ok (hRoom table hTable) (by omega)
        with ⟨findings, hGather, hInside⟩
      have hMoved : findings.violations table region.base
          a.memory.size =
            findings.violations table a.region.base
              a.memory.size := by
        apply Findings.violations_moved _ hPlaced.1 hPlaced'.1
        · intro block hBlock
          have hLe := hInside block hBlock
          omega
        · intro block hBlock
          have hLe := hInside block hBlock
          change region.base + block.offset < Word.limit
          omega
      have hInspect :
          ({ a with region := region, table := some table } :
            Allocator).inspect table false =
              a.inspect table false := by
        unfold inspect memory
        dsimp only
        rw [hMemory]
        change (Findings.gather table a.memory >>= _) =
          (Findings.gather table a.memory >>= _)
        rw [Fault.bind_of_ok hGather, Fault.bind_of_ok hGather]
        change (findings.violations table region.base
            a.memory.size >>= _) =
          (findings.violations table a.region.base
            a.memory.size >>= _)
        rw [hMoved]
        rfl
      dsimp only
      rw [hInspect]

end Counterparts

------------------------------------------------------------
-- What Counterparts Do
------------------------------------------------------------

/- No refused growth is mistaken for a heap that is there. -/
theorem init_error
    {a next : Allocator}
    {error : Error}
    (hTable : a.table = none)
    (hPlaced : a.region.WellPlaced)
    (hFew : a.extensions + 1 < Word.limit)
    (h : a.init.outcome = .ok (.error error, next)) :
    error ≠ .alreadyInitialized := by
  have hRefused : ∃ index,
      a.region.firstRefusal a.layoutGrowths =
        some (index, error) := by
    rcases init_cases hTable hPlaced hFew with
      hBare | hEmpty | hWhole
    · rcases hBare with
        ⟨index, error', region, hFirst, _, hInit, _⟩
      rw [hInit] at h
      cases h
      exact ⟨index, hFirst⟩
    · rcases hEmpty with ⟨error', region, hFirst, hInit, _⟩
      rw [hInit] at h
      cases h
      exact ⟨2, hFirst⟩
    · rcases hWhole with ⟨region, table, _, _, hInit, _⟩
      rw [hInit] at h
      cases h
  rcases hRefused with ⟨index, hFirst⟩
  rcases Region.error_of_firstRefusal hFirst with
    ⟨requested, rfl⟩ | rfl
  · exact Error.noConfusion
  · exact Error.noConfusion

/-
  A growth was refused during a call: the answer to an init
  says so, and so does an event of a request.
-/
def Declined
    {α : Type}
    (x : Traced (Reply × α)) : Prop :=
  x.TellsRefusal ∨
    ∃ reply next,
      x.outcome = .ok (reply, next) ∧ reply.isRefusal = true

/- A refused growth shows in the answer to an init. -/
theorem declined_init
    {a : Allocator}
    (hTable : a.table = none)
    (hPlaced : a.region.WellPlaced)
    (hFew : a.extensions + 1 < Word.limit)
    (h : Refused a.init) :
    Declined (a.perform .init) := by
  rcases h with ⟨error, next, hInit⟩
  refine Or.inr ⟨.failed error, next, ?_,
    decide_eq_true (init_error hTable hPlaced hFew hInit)⟩
  unfold perform
  rw [Traced.outcome_bind_of_ok hInit]
  rfl

namespace Counterparts

variable {a b : Allocator}
variable {call : Call}

/- Counterparts serve a call alike. -/
theorem perform
    (h : a.Counterparts b)
    (hOwn : call.isOwn = true)
    (hPlaced : a.region.WellPlaced)
    (hPlaced' : b.region.WellPlaced)
    (hFew : a.extensions + call.operations < Word.limit)
    (hLeft : ¬ Declined (a.perform call))
    (hRight : ¬ Declined (b.perform call)) :
    Traced.Mirrors SameReply (a.perform call)
      (b.perform call) := by
  have hExtensions : b.extensions = a.extensions := by
    rcases h with ⟨_, _, rfl⟩
    rfl
  cases call with
  | init =>
      apply (h.init ?_ ?_).bind
      · rintro ⟨answer, x⟩ ⟨answer', y⟩ ⟨hAnswer, hNext⟩
        dsimp only at hAnswer hNext
        subst hAnswer
        cases answer with
        | error error => exact .pure ⟨rfl, hNext⟩
        | ok done => exact .pure ⟨rfl, hNext⟩
      · intro hTable hRefused
        exact hLeft (declined_init hTable hPlaced hFew hRefused)
      · intro hTable hRefused
        exact hRight (declined_init hTable hPlaced'
          (by rw [hExtensions]; exact hFew) hRefused)
  | allocate size =>
      apply (h.allocate
        (fun hTells => hLeft (Or.inl (hTells.bind _)))
        (fun hTells => hRight (Or.inl (hTells.bind _)))).bind
      rintro ⟨answer, x⟩ ⟨answer', y⟩ ⟨hAnswer, hNext⟩
      dsimp only at hAnswer hNext
      subst hAnswer
      exact .pure ⟨rfl, hNext⟩
  | free address =>
      apply (h.free address).bind
      intro next next' hNext
      exact .pure ⟨rfl, hNext⟩
  | resize address size =>
      apply (h.resize
        (fun hTells => hLeft (Or.inl (hTells.bind _)))
        (fun hTells => hRight (Or.inl (hTells.bind _)))).bind
      rintro ⟨answer, x⟩ ⟨answer', y⟩ ⟨hAnswer, hNext⟩
      dsimp only at hAnswer hNext
      subst hAnswer
      exact .pure ⟨rfl, hNext⟩
  | write address position bytes =>
      apply (h.writePayload address position bytes).bind
      intro next next' hNext
      exact .pure ⟨rfl, hNext⟩
  | moveBreak displacement => cases hOwn

end Counterparts

/- A call is served by growths and stores. -/
theorem leadsTo_perform
    {a next : Allocator}
    {call : Call}
    {reply : Reply}
    (hOwn : call.isOwn = true)
    (h : (a.perform call).outcome = .ok (reply, next)) :
    a.region.LeadsTo next.region := by
  cases call with
  | init =>
      unfold perform at h
      rw [Traced.outcome_bind_eq_ok_iff] at h
      rcases h with ⟨⟨answer, laidOut⟩, hInit, h⟩
      cases answer with
      | error error =>
          cases h
          exact leadsTo_init hInit
      | ok done =>
          cases h
          exact leadsTo_init hInit
  | allocate size =>
      unfold perform at h
      rw [Traced.outcome_bind_eq_ok_iff] at h
      rcases h with ⟨⟨answer, served⟩, hAllocate, hResult⟩
      cases hResult
      exact leadsTo_allocate hAllocate
  | free address =>
      unfold perform at h
      rw [Traced.outcome_bind_eq_ok_iff] at h
      rcases h with ⟨freed, hFree, hResult⟩
      cases hResult
      exact leadsTo_free hFree
  | resize address size =>
      unfold perform at h
      rw [Traced.outcome_bind_eq_ok_iff] at h
      rcases h with ⟨⟨answer, served⟩, hResize, hResult⟩
      cases hResult
      exact leadsTo_resize hResize
  | write address position bytes =>
      unfold perform at h
      rw [Traced.outcome_bind_eq_ok_iff] at h
      rcases h with ⟨written, hWrite, hResult⟩
      cases hResult
      exact leadsTo_writePayload hWrite
  | moveBreak displacement => cases hOwn

end Allocator

------------------------------------------------------------
-- Diaries
------------------------------------------------------------

/-
  All that a client can see after a call: the reply and the
  events, what it owns, the statistics, what a check finds,
  and the bytes of the heap.
-/
structure Snapshot where
  reply : Except Fault Reply
  events : List Event
  owned : List Owned
  statistics : Except Fault Statistics
  check : Traced Report
  bytes : Memory

/-
  No growth was refused during the call.  A refused one is
  the answer to an init or the reason of a request that
  failed, and nothing else asks for growth.
-/
def Snapshot.Granted
    (snapshot : Snapshot) : Prop :=
  (∀ reply ∈ snapshot.reply.toOption,
    reply.isRefusal = false) ∧
  ∀ event ∈ snapshot.events, event.isRefusal = false

instance
    (snapshot : Snapshot) :
    Decidable snapshot.Granted := by
  unfold Snapshot.Granted
  infer_instance

namespace Client

/- A client that has not made a call yet. -/
def opening
    (a : Allocator) : Client where
  allocator := a
  owned := []
  operations := 0

/- What the client sees after a call. -/
def snapshot
    (client : Client)
    (call : Call) : Snapshot where
  reply := (client.perform call).outcome.map Prod.fst
  events := (client.perform call).events
  owned := (client.after call).owned
  statistics := (client.after call).allocator.statistics
  check := (client.after call).allocator.checkConsistency false
  bytes := (client.after call).allocator.memory

/- What the client sees after each one of some calls. -/
def diary :
    Client → List Call → List Snapshot
| _, [] => []
| client, call :: calls =>
    client.snapshot call :: (client.after call).diary calls

/- The client after all of some calls. -/
def afterAll
    (client : Client)
    (calls : List Call) : Client :=
  calls.foldl after client

/- The calls are allowed one after the other. -/
def Allows :
    Client → List Call → Prop
| _, [] => True
| client, call :: calls =>
    call.Allowed client ∧
      client.operations + call.operations < Word.limit ∧
      (client.after call).Allows calls

/- All calls of a client's own are served that way. -/
theorem leadsTo_afterAll
    {client : Client}
    {calls : List Call}
    (hOwn : ∀ call ∈ calls, call.isOwn = true) :
    client.allocator.region.LeadsTo
      (client.afterAll calls).allocator.region := by
  induction calls generalizing client with
  | nil => exact .refl
  | cons call calls ih =>
      have hRest : (client.after call).allocator.region.LeadsTo
          ((client.after call).afterAll calls).allocator.region :=
        ih (fun later hLater =>
          hOwn later (List.mem_cons_of_mem call hLater))
      have hFirst : client.allocator.region.LeadsTo
          (client.after call).allocator.region := by
        cases hOutcome : (client.perform call).outcome with
        | error fault =>
            unfold after
            rw [hOutcome]
            exact .refl
        | ok result =>
            rw [after_eq hOutcome]
            unfold perform at hOutcome
            rw [Traced.outcome_bind_eq_ok_iff] at hOutcome
            rcases hOutcome with ⟨⟨reply, a⟩, hServed, hResult⟩
            cases hResult
            exact Allocator.leadsTo_perform
              (hOwn call List.mem_cons_self) hServed
      exact hFirst.trans hRest

/- A process that hosts the region of a client follows its calls. -/
theorem exists_follows
    {client : Client}
    {calls : List Call}
    {p : Process}
    (hHost : p.region = client.allocator.region)
    (hOwn : ∀ call ∈ calls, call.isOwn = true) :
    ∃ next,
      p.Follows (client.afterAll calls).allocator.region
        next := by
  have hUse : client.allocator.region.LeadsTo
      (client.afterAll calls).allocator.region :=
    leadsTo_afterAll hOwn
  rw [← hHost] at hUse
  exact Process.exists_follows hUse

/- Two clients differ in nothing but where their bytes are. -/
structure Counterparts
    (client other : Client) : Prop where
  allocators :
    client.allocator.Counterparts other.allocator
  owned_eq : other.owned = client.owned
  operations_eq : other.operations = client.operations

namespace Counterparts

variable {client other : Client}
variable {call : Call}

/- Counterparts allow the same calls. -/
theorem allowed
    (h : client.Counterparts other)
    (hAllowed : call.Allowed client) :
    call.Allowed other := by
  have hOwns : ∀ address, client.Owns address →
      other.Owns address := by
    intro address hAddress
    unfold Owns
    rw [h.owned_eq]
    exact hAddress
  cases call with
  | init => trivial
  | allocate size => exact hAllowed
  | free address =>
      cases address with
      | none => trivial
      | some address => exact hOwns address hAllowed
  | resize address size =>
      cases address with
      | none => exact hAllowed
      | some address =>
          exact ⟨hOwns address hAllowed.1, hAllowed.2⟩
  | write address position bytes =>
      rcases hAllowed with ⟨hOwned, usable, hUsable, hInside⟩
      refine ⟨hOwns address hOwned, usable, ?_, hInside⟩
      rw [h.allocators.usableSize_eq]
      exact hUsable
  | moveBreak displacement => trivial

/- Sound counterparts find the same in a check. -/
theorem check_eq
    (h : client.Counterparts other)
    (hSound : client.Sound)
    (hSound' : other.Sound) :
    other.allocator.checkConsistency false =
      client.allocator.checkConsistency false :=
  h.allocators.checkConsistency_eq hSound.placed hSound'.placed
    (fun _ hTable => hSound.firstBlock_le hTable)

end Counterparts

/-
  An allowed call of a sound client succeeds, and this is
  what becomes of the client and what it sees.
-/
theorem Sound.snapshot_eq
    {client : Client}
    {call : Call}
    (h : client.Sound)
    (hAllowed : call.Allowed client)
    (hFew :
      client.operations + call.operations < Word.limit) :
    ∃ reply a,
      (client.allocator.perform call).outcome =
        .ok (reply, a) ∧
      client.after call = {
        allocator := a,
        owned := record client.owned call reply,
        operations := client.operations + call.operations } ∧
      (client.after call).Sound ∧
      client.snapshot call = {
        reply := .ok reply,
        events := (client.allocator.perform call).events,
        owned := record client.owned call reply,
        statistics := a.statistics,
        check := a.checkConsistency false,
        bytes := a.memory } := by
  rcases h.perform_ok hAllowed hFew with
    ⟨reply, next, hOutcome, hNext, _⟩
  have hParts := hOutcome
  unfold perform at hParts
  rw [Traced.outcome_bind_eq_ok_iff] at hParts
  rcases hParts with ⟨⟨reply', a⟩, hServed, hResult⟩
  cases hResult
  have hAfter := after_eq hOutcome
  refine ⟨reply, a, hServed, hAfter, ?_, ?_⟩
  · rw [hAfter]
    exact hNext
  · unfold snapshot
    rw [hAfter, perform_eq hServed]
    rfl

/- A granted call was not declined. -/
theorem not_declined
    {client : Client}
    {call : Call}
    {reply : Reply}
    {a : Allocator}
    (hGranted : (client.snapshot call).Granted)
    (hOutcome : (client.allocator.perform call).outcome =
      .ok (reply, a)) :
    ¬ Allocator.Declined (client.allocator.perform call) := by
  have hPerform := perform_eq hOutcome
  unfold snapshot at hGranted
  rw [hPerform] at hGranted
  rcases hGranted with ⟨hReply, hEvents⟩
  rintro (⟨event, hEvent, hRefusal⟩ | ⟨_, _, hServed, hRefusal⟩)
  · rw [hEvents event hEvent] at hRefusal
    cases hRefusal
  · rw [hOutcome] at hServed
    cases hServed
    rw [hReply reply rfl] at hRefusal
    cases hRefusal

namespace Counterparts

variable {client other : Client}
variable {call : Call}
variable {calls : List Call}

/- Counterparts see the same after a call and stay such. -/
theorem step
    (h : client.Counterparts other)
    (hSound : client.Sound)
    (hSound' : other.Sound)
    (hOwn : call.isOwn = true)
    (hAllowed : call.Allowed client)
    (hFew :
      client.operations + call.operations < Word.limit)
    (hGranted : (client.snapshot call).Granted)
    (hGranted' : (other.snapshot call).Granted) :
    other.snapshot call = client.snapshot call ∧
      (client.after call).Counterparts (other.after call) := by
  have hExtensions := hSound.counted.extensions_le
  rcases hSound.snapshot_eq hAllowed hFew with
    ⟨reply, a, hServed, hAfter, hNext, hSeen⟩
  rcases hSound'.snapshot_eq (h.allowed hAllowed)
      (by rw [h.operations_eq]; exact hFew) with
    ⟨reply', b, hServed', hAfter', hNext', hSeen'⟩
  have hServes := h.allocators.perform hOwn hSound.placed
    hSound'.placed (by omega) (not_declined hGranted hServed)
    (not_declined hGranted' hServed')
  rcases hServes.of_outcomes hServed hServed' with
    ⟨hEvents, hReply, hAllocators⟩
  dsimp only at hReply hAllocators
  subst hReply
  have hBecome :
      (client.after call).Counterparts (other.after call) := by
    rw [hAfter, hAfter', h.owned_eq, h.operations_eq]
    exact ⟨hAllocators, rfl, rfl⟩
  refine ⟨?_, hBecome⟩
  have hCheck := hBecome.check_eq hNext hNext'
  rw [hAfter, hAfter'] at hCheck
  rw [hSeen, hSeen', hEvents, h.owned_eq, hCheck,
    hAllocators.statistics_eq, hAllocators.memory_eq]

/- Counterparts keep the same diary and stay counterparts. -/
theorem diary_eq
    (h : client.Counterparts other)
    (hSound : client.Sound)
    (hSound' : other.Sound)
    (hOwn : ∀ call ∈ calls, call.isOwn = true)
    (hAllows : client.Allows calls)
    (hGranted : ∀ seen ∈ client.diary calls, seen.Granted)
    (hGranted' : ∀ seen ∈ other.diary calls, seen.Granted) :
    other.diary calls = client.diary calls ∧
      other.Allows calls ∧
      (∀ seen ∈ client.diary calls,
        ∃ reply, seen.reply = .ok reply) ∧
      ∀ n, (client.afterAll (calls.take n)).Counterparts
        (other.afterAll (calls.take n)) := by
  induction calls generalizing client other with
  | nil =>
      refine ⟨rfl, trivial, fun _ hSeen =>
        absurd hSeen List.not_mem_nil, fun n => ?_⟩
      rw [List.take_nil]
      exact h
  | cons call calls ih =>
      rcases hAllows with ⟨hAllowed, hFew, hRest⟩
      have hFew' : other.operations + call.operations <
          Word.limit := by
        rw [h.operations_eq]
        exact hFew
      have hAllowed' := h.allowed hAllowed
      rcases h.step hSound hSound'
          (hOwn call List.mem_cons_self) hAllowed hFew
          (hGranted _ List.mem_cons_self)
          (hGranted' _ List.mem_cons_self) with
        ⟨hSeen, hNext⟩
      rcases hSound.snapshot_eq hAllowed hFew with
        ⟨reply, _, _, _, hAfter, hFirst⟩
      rcases hSound'.snapshot_eq hAllowed' hFew' with
        ⟨_, _, _, _, hAfter', _⟩
      rcases ih hNext hAfter hAfter'
          (fun later hLater =>
            hOwn later (List.mem_cons_of_mem call hLater))
          hRest
          (fun seen hMem =>
            hGranted seen (List.mem_cons_of_mem _ hMem))
          (fun seen hMem =>
            hGranted' seen (List.mem_cons_of_mem _ hMem)) with
        ⟨hDiary, hAllows', hReplies, hStay⟩
      refine ⟨?_, ⟨hAllowed', hFew', hAllows'⟩, ?_, ?_⟩
      · unfold diary
        rw [hSeen, hDiary]
      · intro seen hMem
        rcases List.mem_cons.1 hMem with rfl | hMem
        · exact ⟨reply, by rw [hFirst]⟩
        · exact hReplies seen hMem
      · intro n
        cases n with
        | zero => exact h
        | succ n => exact hStay n

end Counterparts

------------------------------------------------------------
-- Any Region
------------------------------------------------------------

/-
  The same calls on two fresh allocators that differ in
  nothing but their regions: if every growth is granted on
  both, both clients see the same after every call, down to
  the last byte of the heap, and every call is answered.

  Take any two sound processes that host the regions: a
  reservation that is never cleared, say, and a program break
  with anything behind it.  Both can follow call by call, and
  however they do, they show the same bytes after each call.
-/
theorem diary_portable
    {start other : Allocator}
    {calls : List Call}
    (hStart : start.Fresh)
    (hOther : other.Fresh)
    (hSame : start.Counterparts other)
    (hOwn : ∀ call ∈ calls, call.isOwn = true)
    (hAllows : (opening start).Allows calls)
    (hGranted :
      ∀ seen ∈ (opening start).diary calls, seen.Granted)
    (hGranted' :
      ∀ seen ∈ (opening other).diary calls, seen.Granted) :
    (opening other).diary calls = (opening start).diary calls ∧
      (opening other).Allows calls ∧
      (∀ seen ∈ (opening start).diary calls,
        ∃ reply, seen.reply = .ok reply) ∧
      ∀ p q : Process,
        p.Sound → p.region = start.region →
        q.Sound → q.region = other.region →
        ∀ n,
          (∃ p', p.Follows ((opening start).afterAll
            (calls.take n)).allocator.region p') ∧
          (∃ q', q.Follows ((opening other).afterAll
            (calls.take n)).allocator.region q') ∧
          ∀ p' q',
            p.Follows ((opening start).afterAll
              (calls.take n)).allocator.region p' →
            q.Follows ((opening other).afterAll
              (calls.take n)).allocator.region q' →
            q'.bytes = p'.bytes := by
  have hOpening : (opening start).Counterparts (opening other) :=
    ⟨hSame, rfl, rfl⟩
  rcases hOpening.diary_eq (sound_start hStart)
      (sound_start hOther) hOwn hAllows hGranted hGranted' with
    ⟨hDiary, hAllows', hReplies, hStay⟩
  refine ⟨hDiary, hAllows', hReplies, ?_⟩
  intro p q hp hHost hq hHost' n
  have hTaken : ∀ call ∈ calls.take n, call.isOwn = true :=
    fun call hCall => hOwn call (List.mem_of_mem_take hCall)
  refine ⟨exists_follows hHost hTaken,
    exists_follows hHost' hTaken, ?_⟩
  intro p' q' hFollows hFollows'
  rw [hFollows.bytes_eq hp, hFollows'.bytes_eq hq]
  exact congrArg (fun m => m.slice 0 m.size)
    (hStay n).allocators.memory_eq

/- The allocator of the sample, but at the program break. -/
def sampleAtBreak : Allocator :=
  { sampleStart with
    region := {
      memory := Memory.empty,
      base := 8192,
      source := .programBreak 8192 0x10000000000,
      refusals := fun _ => none,
      growths := 0 } }

/- A block is handed out, filled and given back. -/
def sampleRun : List Call :=
  [.init, .allocate 8,
    .write { offset := 192 } 0 (List.replicate 16 255),
    .free (some { offset := 192 })]

/- The sample allows its run. -/
theorem sampleRun_allowed :
    (opening sampleStart).Allows sampleRun := by
  let write := Call.write { offset := 192 } 0
    (List.replicate 16 255)
  have hStart : ∃ events,
      History sampleStart events (opening sampleStart) :=
    ⟨[], .start sampleStart_fresh⟩
  rcases History.after hStart .init trivial (by decide) with
    ⟨_, hLaidOut⟩
  have hInside : 0 + (List.replicate 16 (255 : UInt8)).length ≤
      16 := by
    decide
  have hWrite : write.Allowed sample :=
    ⟨sample_owns, 16, sample_usableSize, hInside⟩
  have hFew : sample.operations + write.operations <
      Word.limit := by
    rw [sample_eq.2.2]
    exact (by decide : 2 + 0 < Word.limit)
  rcases History.after sample_history write hWrite hFew with
    ⟨_, hWritten⟩
  have hOwns : (sample.after write).Owns { offset := 192 } := by
    unfold Owns
    rw [owned_after_write]
    exact sample_owns
  have hFew' : (sample.after write).operations + 1 <
      Word.limit := by
    rw [hWritten, sample_eq.2.2]
    exact (by decide : 2 + 0 + 1 < Word.limit)
  have hRest : sample.Allows (sampleRun.drop 2) :=
    ⟨hWrite, hFew, hOwns, hFew', trivial⟩
  have hWord : 8 < Word.limit := by
    decide
  refine ⟨trivial, by decide, hWord, ?_, hRest⟩
  rw [hLaidOut]
  decide

/-
  A reservation of zeros and a program break with anything
  behind it serve the same run.
-/
theorem diary_portable_sample :
    (opening sampleAtBreak).diary sampleRun =
        (opening sampleStart).diary sampleRun ∧
      ∃ p q : Process,
        p.region =
          ((opening sampleStart).afterAll
            sampleRun).allocator.region ∧
        q.region =
          ((opening sampleAtBreak).afterAll
            sampleRun).allocator.region ∧
        q.bytes = p.bytes := by
  have hPlaced : 8192 ≤ 8192 := Nat.le_refl _
  have hOther : sampleAtBreak.Fresh :=
    ⟨⟨by decide, by decide, hPlaced⟩, rfl, rfl, rfl, rfl⟩
  have hOwn : ∀ call ∈ sampleRun, call.isOwn = true := by
    decide
  rcases diary_portable sampleStart_fresh hOther
      ⟨sampleAtBreak.region, rfl, rfl⟩ hOwn sampleRun_allowed
      (by decide +kernel) (by decide +kernel) with
    ⟨hDiary, _, _, hHosts⟩
  have hReserve :
      Region.reserve {
        reservationAddress := 4096,
        reservationLimit := 0x10000000000,
        breakAddress := 8192,
        breakLimit := 0x10000000000 } 256 =
          .ok sampleStart.region :=
    rfl
  have hGranted :
      Region.tryAnchor {
        reservationAddress := 4096,
        reservationLimit := 0x10000000000,
        breakAddress := 8192,
        breakLimit := 0x10000000000 } =
          .ok (.ok sampleAtBreak.region) :=
    rfl
  have hAnchor := Region.anchor_of_tryAnchor hGranted
  have hZeros : Process.Sound {
      region := sampleStart.region,
      space := fun _ => 0,
      held := fun _ => False } :=
    Process.sound_reserve (fun _ => none) (fun _ => False)
      (by decide) (by decide) hReserve (fun _ _ => rfl)
  have hOnes : Process.Sound {
      region := sampleAtBreak.region,
      space := fun _ => 1,
      held := fun _ => False } :=
    (Process.sound_anchor (fun _ => none) (fun _ => 1)
      hAnchor (fun _ hHeld => hHeld.elim)).1
  have hEnd := hHosts _ _ hZeros rfl hOnes rfl sampleRun.length
  rw [List.take_length] at hEnd
  rcases hEnd with ⟨⟨p, hp⟩, ⟨q, hq⟩, hBytes⟩
  exact ⟨hDiary, p, q, hp.2, hq.2, hBytes p q hp hq⟩

end Client

end SegregatedFit
