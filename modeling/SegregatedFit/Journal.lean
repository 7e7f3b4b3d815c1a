import Mathlib.Algebra.GroupWithZero.Nat
import SegregatedFit.Event

/-
  Journals: what the events of an allocator tell of its heap.

  The events in their order say by how many bytes the heap
  was extended and which blocks are in use.  A journal can be
  followed (`Journal.replay`) as long as no block goes into
  use that is in use, or out of use that is not.

  Key definitions include:
    * `Journal.count`
    * `Journal.growth`
    * `Journal.replay`
    * `Event.IsRemark`

  Key theorems include:
    * `Journal.replay_append`
    * `Journal.length_replay`
-/

namespace SegregatedFit

------------------------------------------------------------
-- Single Events
------------------------------------------------------------

namespace Event

/- The number of bytes by which the heap was extended. -/
def growth :
    Event → Nat
| extended size _ => size
| _ => 0

/-
  The offsets of the blocks in use after an event.  A block
  is allocated only if it is not in use, and freed only if it
  is.
-/
def replay
    (used : List Nat) :
    Event → Option (List Nat)
| allocated _ _ offset =>
    if offset ∈ used then
      none
    else
      some (offset :: used)
| freed _ offset =>
    if offset ∈ used then
      some (used.erase offset)
    else
      none
| _ => some used

/-
  Events that are neither about the size of the heap nor
  about which blocks are in use.
-/
def IsRemark :
    Event → Prop
| extended _ _ => False
| allocated _ _ _ => False
| freed _ _ => False
| _ => True

end Event

------------------------------------------------------------
-- Journals
------------------------------------------------------------

namespace Journal

/- How many events have a level and a message. -/
def count
    (level : Level)
    (message : String)
    (events : List Event) : Nat :=
  events.countP (fun event =>
    event.level = level && event.message = message)

/- The number of bytes by which the heap was extended in all. -/
def growth
    (events : List Event) : Nat :=
  (events.map Event.growth).sum

/-
  The offsets of the blocks in use after all events, unless a
  block goes into use twice or out of use unused.
-/
def replay
    (used : List Nat)
    (events : List Event) : Option (List Nat) :=
  events.foldlM Event.replay used

variable {events later : List Event}
variable {level : Level}
variable {message : String}
variable {used : List Nat}

/- Events are counted part by part. -/
theorem count_append :
    count level message (events ++ later) =
      count level message events +
        count level message later :=
  List.countP_append

/- Without an extension there is no growth. -/
theorem growth_of_count
    (h : count .debug "extended heap" events = 0) :
    growth events = 0 := by
  unfold count at h
  rw [List.countP_eq_zero] at h
  unfold growth
  rw [List.sum_eq_zero_iff_forall_eq_nat]
  intro size hSize
  rcases List.mem_map.1 hSize with ⟨event, hEvent, rfl⟩
  have hOther := h event hEvent
  cases event with
  | extended size heapSize => exact absurd rfl hOther
  | _ => rfl

/- The growth of a journal is that of its parts. -/
theorem growth_append :
    growth (events ++ later) = growth events + growth later := by
  unfold growth
  rw [List.map_append, List.sum_append]

/- A journal is followed part by part. -/
theorem replay_append :
    replay used (events ++ later) =
      (replay used events).bind (fun used =>
        replay used later) :=
  List.foldlM_append

------------------------------------------------------------
-- Blocks in Use
------------------------------------------------------------

/- One event puts one block in use, or out of use, or neither. -/
theorem length_replay_event
    {event : Event}
    {used' : List Nat}
    (h : event.replay used = some used') :
    used'.length + count .trace "freed block" [event] =
      used.length + count .trace "allocated block" [event] := by
  cases event with
  | allocated size adjusted offset =>
      rw [Event.replay] at h
      by_cases hUsed : offset ∈ used
      · rw [if_pos hUsed] at h
        cases h
      · rw [if_neg hUsed] at h
        cases h
        rfl
  | freed size offset =>
      rw [Event.replay] at h
      by_cases hUsed : offset ∈ used
      · rw [if_pos hUsed] at h
        cases h
        change (used.erase offset).length + 1 = used.length
        have hPositive := List.length_pos_of_mem hUsed
        rw [List.length_erase_of_mem hUsed]
        omega
      · rw [if_neg hUsed] at h
        cases h
  | _ =>
      cases h
      rfl

/-
  As many blocks are in use as were allocated and not freed.
-/
theorem length_replay
    {used' : List Nat}
    (h : replay used events = some used') :
    used'.length + count .trace "freed block" events =
      used.length + count .trace "allocated block" events := by
  induction events generalizing used with
  | nil =>
      cases h
      rfl
  | cons event events ih =>
      change replay used ([event] ++ events) = _ at h
      change _ + count _ _ ([event] ++ events) =
        _ + count _ _ ([event] ++ events)
      rw [replay_append, Option.bind_eq_some_iff] at h
      rcases h with ⟨middle, hEvent, hRest⟩
      have hFirst : event.replay used = some middle := by
        unfold replay at hEvent
        rw [List.foldlM_cons] at hEvent
        simpa using hEvent
      have hStep := length_replay_event hFirst
      have hLater := ih hRest
      rw [count_append, count_append]
      omega

------------------------------------------------------------
-- Remarks
------------------------------------------------------------

/- A remark has the message of no other kind of event. -/
theorem count_eq_zero_of_remarks
    (hMessage : message = "extended heap" ∨
      message = "allocated block" ∨ message = "freed block")
    (h : ∀ event ∈ events, event.IsRemark) :
    count level message events = 0 := by
  unfold count
  rw [List.countP_eq_zero]
  intro event hEvent
  have hRemark := h event hEvent
  rcases hMessage with rfl | rfl | rfl
  all_goals
    cases event <;> simp_all [Event.message, Event.IsRemark]

/- Remarks tell of no growth. -/
theorem growth_of_remarks
    (h : ∀ event ∈ events, event.IsRemark) :
    growth events = 0 := by
  unfold growth
  rw [List.sum_eq_zero_iff_forall_eq_nat]
  intro size hSize
  rcases List.mem_map.1 hSize with ⟨event, hEvent, rfl⟩
  have hRemark := h event hEvent
  cases event <;> simp_all [Event.growth, Event.IsRemark]

/- Remarks change nothing about the blocks in use. -/
theorem replay_of_remarks
    (h : ∀ event ∈ events, event.IsRemark) :
    replay used events = some used := by
  induction events with
  | nil => rfl
  | cons event events ih =>
      have hRest := ih (fun other hOther =>
        h other (List.mem_cons_of_mem event hOther))
      have hRemark := h event List.mem_cons_self
      unfold replay at hRest ⊢
      rw [List.foldlM_cons]
      cases event <;>
        simp_all [Event.replay, Event.IsRemark]

end Journal

end SegregatedFit
