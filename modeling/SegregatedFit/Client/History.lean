import SegregatedFit.Client.Basic

/-
  Histories: what can become of a client that makes allowed
  calls only.

  A history starts with an allocator on a region that is well
  placed and whose heap is not laid out yet.  Its events are
  kept in order.

  Key definitions include:
    * `Region.WellPlaced`
    * `Allocator.Fresh`
    * `Client.History`
-/

namespace SegregatedFit

/-
  Regions as they are handed out: aligned to the double word,
  at addresses that are words, and within their capacity or
  below the program break.
-/
def Region.WellPlaced
    (r : Region) : Prop :=
  r.base % doubleWord = 0 ∧
    r.stop < Word.limit ∧
    match r.source with
    | .reservation capacity =>
        r.size ≤ capacity ∧ r.base + capacity < Word.limit
    | .programBreak position _ => r.stop ≤ position

/- Allocators that nothing has been asked of. -/
structure Allocator.Fresh
    (a : Allocator) : Prop where
  region_placed : a.region.WellPlaced
  table_eq : a.table = none
  extensions_eq : a.extensions = 0
  allocations_eq : a.allocations = 0
  frees_eq : a.frees = 0

/-
  `History start events client`: allowed calls lead from a
  fresh allocator to a client and report the events on the
  way.  The operations are so few that they can be counted
  in a word.
-/
inductive Client.History
    (start : Allocator) :
    List Event → Client → Prop where
  | start :
      start.Fresh →
      History start []
        { allocator := start, owned := [], operations := 0 }
  | step
      {events : List Event}
      {client next : Client}
      {call : Call}
      {reply : Reply}
      (past : History start events client)
      (allowed : call.Allowed client)
      (few :
        client.operations + call.operations < Word.limit)
      (outcome :
        (client.perform call).outcome = .ok (reply, next)) :
      History start (events ++ (client.perform call).events) next

end SegregatedFit
