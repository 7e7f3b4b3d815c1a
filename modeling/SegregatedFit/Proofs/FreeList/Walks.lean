import Mathlib.Data.List.Perm.Subperm
import SegregatedFit.Proofs.FreeList.Filing

/-
  Walks along free lists.

  A walk visits the nodes of a list one after the other
  (`SentinelTable.visited`).  A search asks these nodes in their
  order whether the block at them fits, and a total adds up
  the sizes of their blocks in that order.

  A walk of a list that a table holds visits exactly its
  nodes.  It ends before its bound, because nodes that do not
  overlap are no more than the double words of the memory.

  Key definitions include:
    * `FreeList.nodesFrom`
    * `SentinelTable.visited`

  Key theorems include:
    * `SentinelTable.firstFitIn_of_visited`
    * `SentinelTable.freeBytesAmong_of_visited`
    * `SentinelTable.Holds.visited_eq`
-/

namespace SegregatedFit

namespace FreeList

variable {m : Memory}
variable {sentinel node steps : Nat}
variable {nodes : List Nat}

------------------------------------------------------------
-- Nodes of a Walk
------------------------------------------------------------

/- The nodes that a walk visits from `node` on, at most `steps`. -/
def nodesFrom
    (m : Memory)
    (sentinel : Nat) :
    Nat → Nat → Except Fault (List Nat)
| 0, node =>
    if atEnd m sentinel node then
      .ok []
    else
      .error .endless
| steps + 1, node =>
    if atEnd m sentinel node then
      .ok []
    else do
      let next ← m.nextLink node
      let rest ← nodesFrom m sentinel steps next
      return node :: rest

/- The block at a node has at least `size` bytes. -/
def fits
    (m : Memory)
    (size node : Nat) : Except Fault Bool := do
  let tag ← m.header node
  return size ≤ tag.size

/- A total with the size of the block at a node added to it. -/
def addSize
    (m : Memory)
    (total node : Nat) : Except Fault Nat := do
  let tag ← m.header node
  Word.add total tag.size

/- Whether the block at a node fits is told by its header. -/
theorem fits_of_header
    {size : Nat}
    {tag : Tag}
    (hTag : m.header node = .ok tag) :
    fits m size node = .ok (decide (size ≤ tag.size)) := by
  unfold fits
  rw [Fault.bind_of_ok hTag]
  rfl

/- What the block at a node adds is told by its header. -/
theorem addSize_of_header
    {tag : Tag}
    (total : Nat)
    (hTag : m.header node = .ok tag) :
    addSize m total node = Word.add total tag.size := by
  unfold addSize
  rw [Fault.bind_of_ok hTag]

/- A walk is over at the sentinel. -/
theorem atEnd_sentinel
    (m : Memory)
    (sentinel : Nat) :
    atEnd m sentinel sentinel = true := by
  simp [atEnd]

/- At its end a walk visits no node. -/
theorem nodesFrom_of_atEnd
    (hEnd : atEnd m sentinel node = true) :
    nodesFrom m sentinel steps node = .ok [] := by
  cases steps <;> simp [nodesFrom, hEnd]

/-
  A walk that comes to its end is there already, or it visits
  the node at hand and goes on behind it.
-/
theorem cases_of_nodesFrom
    (h : nodesFrom m sentinel steps node = .ok nodes) :
    (atEnd m sentinel node = true ∧ nodes = []) ∨
      ∃ fewer next rest,
        steps = fewer + 1 ∧
          atEnd m sentinel node = false ∧
          m.nextLink node = .ok next ∧
          nodesFrom m sentinel fewer next = .ok rest ∧
          nodes = node :: rest := by
  cases hEnd : atEnd m sentinel node with
  | true =>
      rw [nodesFrom_of_atEnd hEnd] at h
      exact Or.inl ⟨rfl, (Except.ok.inj h).symm⟩
  | false =>
      cases steps with
      | zero => simp [nodesFrom, hEnd] at h
      | succ fewer =>
          simp only [nodesFrom, hEnd, Bool.false_eq_true,
            if_false, Fault.bind_eq_ok_iff] at h
          rcases h with ⟨next, hNext, rest, hRest, hNodes⟩
          exact Or.inr ⟨fewer, next, rest, rfl, rfl, hNext,
            hRest, (Except.ok.inj hNodes).symm⟩

/-
  A walk over linked nodes that lie in memory visits all of
  them and stops at the sentinel.
-/
theorem nodesFrom_eq
    (hLinks : m.Links (nodes ++ [sentinel]))
    (hMiddle : ∀ node ∈ nodes, atEnd m sentinel node = false)
    (hSteps : nodes.length ≤ steps) :
    nodesFrom m sentinel steps (nodes.headD sentinel) =
      .ok nodes := by
  induction nodes generalizing steps with
  | nil => exact nodesFrom_of_atEnd (atEnd_sentinel m sentinel)
  | cons node rest ih =>
      cases steps with
      | zero => cases hSteps
      | succ steps =>
          have hRest := ih hLinks.behind
            (fun other hOther =>
              hMiddle other (List.mem_cons_of_mem node hOther))
            (Nat.le_of_succ_le_succ hSteps)
          have hNode := hMiddle node List.mem_cons_self
          rw [List.headD_cons, nodesFrom,
            if_neg (by simp [hNode]),
            Fault.bind_of_ok hLinks.nextLink_eq,
            Fault.bind_of_ok hRest]
          rfl

------------------------------------------------------------
-- Searches and Totals
------------------------------------------------------------

/- A search asks the nodes of the walk in their order. -/
theorem firstFitFrom_of_nodesFrom
    {size : Nat}
    (h : nodesFrom m sentinel steps node = .ok nodes) :
    firstFitFrom m sentinel size steps node =
      nodes.findM? (fits m size) := by
  induction steps generalizing node nodes with
  | zero =>
      rcases cases_of_nodesFrom h with
        ⟨hEnd, rfl⟩ | ⟨_, _, _, hSteps, _⟩
      · simp [firstFitFrom, hEnd, pure, Except.pure]
      · cases hSteps
  | succ steps ih =>
      rcases cases_of_nodesFrom h with
        ⟨hEnd, rfl⟩ | ⟨fewer, next, rest, hSteps, hEnd,
          hNext, hRest, rfl⟩
      · simp [firstFitFrom, hEnd, pure, Except.pure]
      · cases hSteps
        rw [firstFitFrom, if_neg (by simp [hEnd]),
          Fault.bind_of_ok hNext, ih hRest, List.findM?]
        -- The link was read; all else depends on the header.
        cases hTag : m.header node with
        | error fault =>
            unfold fits
            rw [hTag]
            rfl
        | ok tag =>
            rw [Fault.bind_of_ok rfl,
              Fault.bind_of_ok (fits_of_header hTag)]
            by_cases hFits : size ≤ tag.size
            · simp [hFits]
            · simp [hFits]

/- A total adds up the nodes of the walk in their order. -/
theorem totalFrom_of_nodesFrom
    {fewer total : Nat}
    (h : nodesFrom m sentinel steps node = .ok nodes)
    (hFewer : nodes.length ≤ fewer) :
    totalFrom m sentinel fewer node total =
      nodes.foldlM (addSize m) total := by
  induction nodes generalizing fewer node steps total with
  | nil =>
      rcases cases_of_nodesFrom h with
        ⟨hEnd, _⟩ | ⟨_, _, _, _, _, _, _, hCons⟩
      · cases fewer with
        | zero => rfl
        | succ fewer =>
            simp [totalFrom, hEnd, pure, Except.pure]
      · cases hCons
  | cons first rest ih =>
      rcases cases_of_nodesFrom h with
        ⟨_, hNil⟩ | ⟨_, next, _, _, hEnd, hNext, hRest, hCons⟩
      · cases hNil
      · cases hCons
        cases fewer with
        | zero => cases hFewer
        | succ fewer =>
            rw [totalFrom, if_neg (by simp [hEnd]),
              Fault.bind_of_ok hNext, List.foldlM_cons]
            unfold addSize
            rw [bind_assoc]
            congr 1
            funext tag
            congr 1
            funext sum
            exact ih hRest (Nat.le_of_succ_le_succ hFewer)

end FreeList

namespace SentinelTable

variable {table : SentinelTable}
variable {m : Memory}
variable {lists : FreeLists}
variable {c : Nat}
variable {nodes : List Nat}

/- The nodes that a walk of the list of a class visits. -/
def visited
    (table : SentinelTable)
    (m : Memory)
    (c : Nat) : Except Fault (List Nat) := do
  let head ← m.nextLink (table.sentinel c)
  FreeList.nodesFrom m (table.sentinel c) m.size head

/- A search in a class asks the nodes of its walk in turn. -/
theorem firstFitIn_of_visited
    (h : table.visited m c = .ok nodes)
    (size : Nat) :
    table.firstFitIn m size c =
      nodes.findM? (FreeList.fits m size) := by
  unfold SentinelTable.visited at h
  rw [Fault.bind_eq_ok_iff] at h
  rcases h with ⟨head, hHead, hNodes⟩
  unfold firstFitIn
  rw [Fault.bind_of_ok hHead]
  exact FreeList.firstFitFrom_of_nodesFrom hNodes

/-
  The total of a class adds up the nodes of its walk in turn,
  if they are no more than the blocks that memory can hold.
-/
theorem freeBytesAmong_of_visited
    (h : table.visited m c = .ok nodes)
    (hLength : nodes.length ≤ m.blockBound)
    (total : Nat) :
    table.freeBytesAmong m [c] total =
      nodes.foldlM (FreeList.addSize m) total := by
  unfold SentinelTable.visited at h
  rw [Fault.bind_eq_ok_iff] at h
  rcases h with ⟨head, hHead, hNodes⟩
  unfold freeBytesAmong
  rw [Fault.bind_of_ok hHead,
    FreeList.totalFrom_of_nodesFrom hNodes hLength]
  exact bind_pure _

------------------------------------------------------------
-- Lists of a Table
------------------------------------------------------------

/-
  Nodes that do not overlap are no more than there are double
  words: each of them begins in another one.
-/
theorem length_le_of_apart
    (h : nodes.Pairwise Apart)
    (hInside : ∀ node ∈ nodes, node + doubleWord ≤ m.size) :
    nodes.length ≤ m.size / doubleWord := by
  have hSizes := Word.sizes_eq
  have hNodup : (nodes.map (· / doubleWord)).Nodup := by
    unfold List.Nodup
    rw [List.pairwise_map]
    apply h.imp
    intro x y hApart
    simp only [Apart, hSizes.2.1] at hApart ⊢
    omega
  have hSub : nodes.map (· / doubleWord) ⊆
      List.range (m.size / doubleWord) := by
    intro slot hSlot
    rcases List.mem_map.1 hSlot with ⟨node, hNode, rfl⟩
    have hNode' := hInside node hNode
    simp only [List.mem_range, hSizes.2.1] at hNode' ⊢
    omega
  have hLength := (List.Nodup.subperm hNodup hSub).length_le
  rwa [List.length_map, List.length_range] at hLength

namespace Holds

/- A list has no more nodes than memory has double words. -/
theorem length_list_le
    (h : table.Holds m lists)
    (hc : c < SizeClass.count) :
    (lists c).length ≤ m.size / doubleWord := by
  apply length_le_of_apart
    (List.pairwise_cons.1 (h.ring_apart hc)).2
  intro node hNode
  exact ((h.ring c hc).inside
    (List.mem_cons_of_mem _ hNode)).1

/- The walk of a class visits the nodes of its list. -/
theorem visited_eq
    (h : table.Holds m lists)
    (hc : c < SizeClass.count) :
    table.visited m c = .ok (lists c) := by
  have hSizes := Word.sizes_eq
  have hRing := h.ring c hc
  have hLength := Nat.le_trans (h.length_list_le hc)
    (Nat.div_le_self m.size doubleWord)
  unfold SentinelTable.visited
  rw [Fault.bind_of_ok hRing.nextLink_eq]
  apply FreeList.nodesFrom_eq hRing.behind
  · intro node hNode
    have hInside := hRing.inside
      (List.mem_cons_of_mem _ hNode)
    have hApart := h.sentinel_apart_node hc hc hNode
    unfold Apart at hApart
    unfold FreeList.atEnd
    rw [Bool.or_eq_false_iff, decide_eq_false_iff_not,
      decide_eq_false_iff_not]
    omega
  · exact hLength

end Holds

end SentinelTable

end SegregatedFit
