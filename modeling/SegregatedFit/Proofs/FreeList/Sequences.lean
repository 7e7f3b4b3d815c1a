import Mathlib.Logic.Function.Basic
import SegregatedFit.Proofs.FreeList.Walks
import SegregatedFit.Proofs.Memory.Changes

/-
  The exact effect of insertion and removal.

  A table that holds ten sequences of nodes holds ten
  sequences afterwards, and only one of them is another one.
  In memory the links of the node and of its two neighbours
  change, be they nodes or the sentinel, and nothing else.
  Insertion and removal of one node cancel out but for the
  link words of that node.

  Key definitions include:
    * `SentinelTable.Fresh`

  Key theorems include:
    * `SentinelTable.Holds.insert_head`
    * `SentinelTable.Holds.unlink_between`
    * `SentinelTable.Holds.unlink_insert`
    * `SentinelTable.Holds.lists_as_sequences`
-/

namespace SegregatedFit

------------------------------------------------------------
-- Words That Are Set
------------------------------------------------------------

/- Unlinking a node sets one link of each of its neighbours. -/
theorem Memory.changesOnly_unlink
    {m n : Memory}
    {previous node next : Nat}
    (hPrevious : m.previousLink node = .ok previous)
    (hNext : m.nextLink node = .ok next)
    (h : m.unlink node = .ok n) :
    m.ChangesOnly n
      [(previous, wordSize), (next + wordSize, wordSize)] := by
  unfold Memory.unlink at h
  rw [Fault.bind_of_ok hPrevious, Fault.bind_of_ok hNext,
    Fault.bind_eq_ok_iff] at h
  rcases h with ⟨half, hHalf, hLast⟩
  exact (changesOnly_storeWord hHalf).trans
    (changesOnly_setPreviousLink hLast)

/-
  Inserting a node sets both of its links and one link of
  each of its neighbours.
-/
theorem SentinelTable.changesOnly_insert
    {table : SentinelTable}
    {m n : Memory}
    {node blockSize after : Nat}
    (hAfter :
      m.nextLink (table.sentinel (SizeClass.classify blockSize)) =
        .ok after)
    (h : table.insert m node blockSize = .ok n) :
    m.ChangesOnly n
      [(node, doubleWord),
        (table.sentinel (SizeClass.classify blockSize), wordSize),
        (after + wordSize, wordSize)] := by
  have hSizes := Word.sizes_eq
  unfold SentinelTable.insert at h
  simp only [Fault.bind_of_ok hAfter, Fault.bind_eq_ok_iff] at h
  rcases h with
    ⟨first, hBehind, second, hAhead, third, hThird, hStart⟩
  have hOwn := (Memory.changesOnly_setPreviousLink hBehind).trans
    (Memory.changesOnly_storeWord hAhead)
  have hOthers :=
    (Memory.changesOnly_setPreviousLink hThird).trans
      (Memory.changesOnly_storeWord hStart)
  apply (hOwn.trans hOthers).cover
  -- Both links of the node lie in its first two words.
  simp [hSizes]

/- The neighbours of a node are read off its list. -/
theorem Memory.Ring.links_of_split
    {m : Memory}
    {sentinel node : Nat}
    {front back : List Nat}
    (h : m.Ring sentinel (front ++ node :: back)) :
    m.previousLink node = .ok (front.getLastD sentinel) ∧
      m.nextLink node = .ok (back.headD sentinel) := by
  have hParts : m.Links ((sentinel :: front) ++
      node :: (back ++ [sentinel])) := by
    simpa [Memory.Ring] using h
  rw [Memory.links_append_iff] at hParts
  exact ⟨hParts.1.previousLink_eq, hParts.2.nextLink_eq⟩

namespace SentinelTable

variable {table : SentinelTable}
variable {m n : Memory}
variable {lists others : FreeLists}
variable {node : Nat}

/-
  The link words of a node lie in memory and overlap neither
  the table nor a listed node.
-/
structure Fresh
    (table : SentinelTable)
    (m : Memory)
    (lists : FreeLists)
    (node : Nat) : Prop where
  inside : node + doubleWord ≤ m.size
  off_table :
    node + doubleWord ≤ table.offset ∨
      table.offset + size ≤ node
  apart :
    ∀ c, c < SizeClass.count → ∀ x ∈ lists c, Apart node x

namespace Holds

/- What a table holds depends on the lists of its classes alone. -/
theorem congr
    (h : table.Holds m lists)
    (hSame : ∀ c, c < SizeClass.count → others c = lists c) :
    table.Holds m others := by
  refine ⟨?_, ?_, ?_, ?_⟩
  · intro c hc
    rw [hSame c hc]
    exact h.ring c hc
  · intro c hc
    rw [hSame c hc]
    exact h.nodup c hc
  · intro c d hc hd
    rw [hSame c hc, hSame d hd]
    exact h.apart c d hc hd
  · intro c hc
    rw [hSame c hc]
    exact h.off_table c hc

------------------------------------------------------------
-- Insertion and Removal
------------------------------------------------------------

/-
  A fresh node comes to stand at the head of the list of its
  class.  Its own links change, the forward link of the
  sentinel and the back link of the former head.
-/
theorem insert_head
    {blockSize c : Nat}
    (h : table.Holds m lists)
    (hWord : m.size < Word.limit)
    (hFresh : table.Fresh m lists node)
    (hClass : SizeClass.classify blockSize = c) :
    ∃ n, table.insert m node blockSize = .ok n ∧
      table.Holds n (Function.update lists c (node :: lists c)) ∧
      m.ChangesOnly n
        [(node, doubleWord),
          (table.sentinel c, wordSize),
          ((lists c).headD (table.sentinel c) + wordSize,
            wordSize)] := by
  subst hClass
  have hSizes := Word.sizes_eq
  have hInside := hFresh.inside
  have hRing := h.ring _ (SizeClass.classify_lt blockSize)
  rcases h.insert blockSize hFresh.off_table hFresh.apart
      hInside (by omega) with
    ⟨n, hInsert, _, hHolds, _⟩
  refine ⟨n, hInsert, ?_,
    changesOnly_insert hRing.nextLink_eq hInsert⟩
  apply hHolds.congr
  intro c _
  by_cases hSame : c = SizeClass.classify blockSize
  · subst hSame
    simp [FreeLists.push]
  · simp [FreeLists.push, hSame]

/-
  Wherever a node stands in its list, it is taken out of that
  list, and no other list has it.  The forward link of the
  node in front of it changes and the back link of the node
  behind it.
-/
theorem unlink_between
    {c : Nat}
    {front back : List Nat}
    (h : table.Holds m lists)
    (hc : c < SizeClass.count)
    (hSplit : lists c = front ++ node :: back) :
    (∀ d, d < SizeClass.count → d ≠ c → node ∉ lists d) ∧
      ∃ n, m.unlink node = .ok n ∧
        table.Holds n (Function.update lists c (front ++ back)) ∧
        m.ChangesOnly n
          [(front.getLastD (table.sentinel c), wordSize),
            (back.headD (table.sentinel c) + wordSize,
              wordSize)] := by
  have hNode : node ∈ lists c := by
    simp [hSplit]
  have hOther : ∀ d, d < SizeClass.count → d ≠ c →
      node ∉ lists d := by
    intro d hd hNe
    exact h.not_mem_of_mem hc hd hNe hNode
  have hRing := h.ring c hc
  have hNodup := h.nodup c hc
  rw [hSplit] at hRing hNodup
  have hLinks := hRing.links_of_split
  rcases h.unlink hc hNode with ⟨n, hUnlink, _, hHolds, _⟩
  refine ⟨hOther, n, hUnlink, ?_,
    Memory.changesOnly_unlink hLinks.1 hLinks.2 hUnlink⟩
  apply hHolds.congr
  intro d hd
  by_cases hClass : d = c
  · subst hClass
    have hFront : node ∉ front := by
      intro hMem
      exact (List.nodup_append.1 hNodup).2.2 node hMem node
        List.mem_cons_self rfl
    rw [Function.update_self, FreeLists.drop, hSplit,
      List.erase_append_right _ hFront, List.erase_cons_head]
  · rw [Function.update_of_ne hClass, FreeLists.drop,
      List.erase_of_not_mem (hOther d hd hClass)]

/-
  Taking out the node that was put in last gives back the
  lists of before and all bytes but those of its links.
-/
theorem unlink_insert
    {blockSize : Nat}
    (h : table.Holds m lists)
    (hWord : m.size < Word.limit)
    (hFresh : table.Fresh m lists node)
    (hInsert : table.insert m node blockSize = .ok n) :
    ∃ k, n.unlink node = .ok k ∧
      table.Holds k lists ∧
      m.ChangesOnly k [(node, doubleWord)] := by
  have hc := SizeClass.classify_lt blockSize
  generalize hClass : SizeClass.classify blockSize = c at hc
  rcases h.insert_head hWord hFresh hClass with
    ⟨n', hInsert', hHeld, hFirst⟩
  have hSame := Except.ok.inj (hInsert'.symm.trans hInsert)
  subst hSame
  have hHead : Function.update lists c (node :: lists c) c =
      [] ++ node :: lists c :=
    Function.update_self _ _ _
  rcases (hHeld.unlink_between hc hHead).2 with
    ⟨k, hUnlink, hBack, hLast⟩
  rw [List.nil_append, Function.update_idem,
    Function.update_eq_self] at hBack
  refine ⟨k, hUnlink, hBack, ?_⟩
  -- The neighbours are linked with each other as they were.
  have hRing := h.ring c hc
  have hRing' := hBack.ring c hc
  have hAhead := Memory.agrees_of_loadWord hRing.nextLink_eq
    hRing'.nextLink_eq
  have hBehind := Memory.agrees_of_loadWord
    (Memory.previousLink_eq_ok_iff.1 hRing.previousLink_headD).2
    (Memory.previousLink_eq_ok_iff.1 hRing'.previousLink_headD).2
  have hAll : m.ChangesOnly k
      ([(node, doubleWord)] ++
        [(table.sentinel c, wordSize),
          ((lists c).headD (table.sentinel c) + wordSize,
            wordSize)]) := by
    apply (hFirst.trans hLast).cover
    simp
  apply hAll.restored
  simp only [List.mem_cons, List.not_mem_nil, or_false,
    forall_eq_or_imp, forall_eq]
  exact ⟨hAhead, hBehind⟩

------------------------------------------------------------
-- Lists as Sequences
------------------------------------------------------------

/-
  A table that holds ten lists behaves like ten sequences.
  The walk of a class yields its sequence, and a search and a
  total consume it in that order.  Insertion and removal
  succeed, change one sequence alone, at its head or at the
  node, and write no other words than the links of the node
  and of its neighbours.  Removal after insertion leaves no
  trace outside of the node.
-/
theorem lists_as_sequences
    (h : table.Holds m lists)
    (hWord : m.size < Word.limit) :
    (∀ c, c < SizeClass.count →
      table.visited m c = .ok (lists c) ∧
        (∀ size, table.firstFitIn m size c =
          (lists c).findM? (FreeList.fits m size)) ∧
        ∀ total, table.freeBytesAmong m [c] total =
          (lists c).foldlM (FreeList.addSize m) total) ∧
    (∀ node blockSize c,
      table.Fresh m lists node →
      SizeClass.classify blockSize = c →
      ∃ n, table.insert m node blockSize = .ok n ∧
        table.Holds n
          (Function.update lists c (node :: lists c)) ∧
        m.ChangesOnly n
          [(node, doubleWord),
            (table.sentinel c, wordSize),
            ((lists c).headD (table.sentinel c) + wordSize,
              wordSize)] ∧
        ∃ k, n.unlink node = .ok k ∧
          table.Holds k lists ∧
          m.ChangesOnly k [(node, doubleWord)]) ∧
    ∀ c front node back, c < SizeClass.count →
      lists c = front ++ node :: back →
      (∀ d, d < SizeClass.count → d ≠ c → node ∉ lists d) ∧
        ∃ n, m.unlink node = .ok n ∧
          table.Holds n (Function.update lists c (front ++ back)) ∧
          m.ChangesOnly n
            [(front.getLastD (table.sentinel c), wordSize),
              (back.headD (table.sentinel c) + wordSize,
                wordSize)] := by
  refine ⟨?_, ?_, ?_⟩
  · intro c hc
    have hNodes := h.visited_eq hc
    have hLength : (lists c).length ≤ m.blockBound :=
      Nat.le_succ_of_le (h.length_list_le hc)
    exact ⟨hNodes, firstFitIn_of_visited hNodes,
      freeBytesAmong_of_visited hNodes hLength⟩
  · intro node blockSize c hFresh hClass
    rcases h.insert_head hWord hFresh hClass with
      ⟨n, hInsert, hHolds, hChanges⟩
    exact ⟨n, hInsert, hHolds, hChanges,
      h.unlink_insert hWord hFresh hInsert⟩
  · intro c front node back hc hSplit
    exact h.unlink_between hc hSplit

/-
  In a table just cleared, two blocks of one class are listed
  with the last one first, and the other one can be taken out
  from behind it.
-/
theorem lists_as_sequences_lifo :
    ∃ m a b k,
      SentinelTable.clear { offset := 0 }
          (Memory.empty.extend 256) = .ok m ∧
        SentinelTable.insert { offset := 0 } m 160 32 = .ok a ∧
        SentinelTable.insert { offset := 0 } a 192 32 = .ok b ∧
        SentinelTable.visited { offset := 0 } b 0 =
          .ok [192, 160] ∧
        b.unlink 160 = .ok k ∧
        SentinelTable.visited { offset := 0 } k 0 =
          .ok [192] := by
  have hSize : (Memory.empty.extend 256).size = 256 :=
    Memory.size_extend _ _
  have hSmall : 256 < Word.limit := by
    decide
  have hClass : SizeClass.classify 32 = 0 := by
    decide
  rcases clear_ok { offset := 0 }
      (show 0 + size ≤ (Memory.empty.extend 256).size by
        rw [hSize]; decide) (by decide) with
    ⟨m, hClear, hClearSize, hRings, _⟩
  have hm : m.size = 256 := hClearSize.trans hSize
  -- The first block enters an empty list.
  rcases (lists_as_sequences (holds_nil hRings)
      (hm.symm ▸ hSmall)).2.1 160 32 0
      ⟨by rw [hm]; decide, by decide,
        fun _ _ _ hx => absurd hx List.not_mem_nil⟩ hClass with
    ⟨a, hFirst, hHolds, hChanges, _⟩
  have ha : a.size = 256 := hChanges.1.trans hm
  -- The second one enters in front of it.
  have hFresh : SentinelTable.Fresh { offset := 0 } a
      (Function.update (fun _ => []) 0 [160]) 192 := by
    refine ⟨by rw [ha]; decide, by decide, ?_⟩
    intro c _ x hx
    by_cases hc : c = 0
    · subst hc
      rw [Function.update_self, List.mem_singleton] at hx
      subst hx
      exact Or.inr (by decide)
    · rw [Function.update_of_ne hc] at hx
      cases hx
  rcases (lists_as_sequences hHolds
      (ha.symm ▸ hSmall)).2.1 192 32 0 hFresh hClass with
    ⟨b, hSecond, hHolds', hChanges', _⟩
  have hb : b.size = 256 := hChanges'.1.trans ha
  have hBoth := lists_as_sequences hHolds' (hb.symm ▸ hSmall)
  rcases (hBoth.2.2 0 [192] 160 [] (by decide)
      (by simp)).2 with
    ⟨k, hUnlink, hRest, hChanges''⟩
  have hk : k.size = 256 := hChanges''.1.trans hb
  have hLast := lists_as_sequences hRest (hk.symm ▸ hSmall)
  refine ⟨m, a, b, k, hClear, hFirst, hSecond, ?_, hUnlink, ?_⟩
  · simpa using (hBoth.1 0 (by decide)).1
  · simpa using (hLast.1 0 (by decide)).1

end Holds

end SentinelTable

end SegregatedFit
