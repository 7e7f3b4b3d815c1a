import SegregatedFit.Proofs.FreeList.Edits

/-
  The free lists as ten sequences of nodes.

  A table holds given lists if each of them is a ring at its
  sentinel and no two nodes overlap.  Clearing the table makes
  all lists empty, insertion puts a node at the head of the
  list of its class, removal takes a node out of whichever
  list has it, and the other lists stay as they are.

  Key definitions include:
    * `FreeLists.push`, `FreeLists.drop`
    * `SentinelTable.Holds`

  Key theorems include:
    * `SentinelTable.clear_ok`
    * `SentinelTable.Holds.insert`
    * `SentinelTable.Holds.unlink`
-/

namespace SegregatedFit

------------------------------------------------------------
-- Lists of Nodes
------------------------------------------------------------

/- The nodes of each class. -/
abbrev FreeLists :=
  Nat → List Nat

namespace FreeLists

/- The lists with a node at the head of class `c`. -/
def push
    (lists : FreeLists)
    (c node : Nat) : FreeLists :=
  fun d => if d = c then node :: lists d else lists d

/- The lists without a node. -/
def drop
    (lists : FreeLists)
    (node : Nat) : FreeLists :=
  fun d => (lists d).erase node

/- The nodes after a push are the new one and the old ones. -/
theorem mem_push_iff
    {lists : FreeLists}
    {c d node x : Nat} :
    x ∈ push lists c node d ↔
      (d = c ∧ x = node) ∨ x ∈ lists d := by
  unfold push
  split
  · rename_i hEq
    simp [hEq]
  · rename_i hNe
    simp [hNe]

end FreeLists

namespace SentinelTable

variable {table : SentinelTable}
variable {m n : Memory}
variable {lists : FreeLists}

------------------------------------------------------------
-- Tables and Their Lists
------------------------------------------------------------

/-
  Each list is a ring at its sentinel.  The link words of all
  nodes overlap neither each other nor the table.
-/
structure Holds
    (table : SentinelTable)
    (m : Memory)
    (lists : FreeLists) : Prop where
  ring :
    ∀ c, c < SizeClass.count →
      m.Ring (table.sentinel c) (lists c)
  nodup :
    ∀ c, c < SizeClass.count → (lists c).Nodup
  apart :
    ∀ c d, c < SizeClass.count → d < SizeClass.count →
      ∀ x ∈ lists c, ∀ y ∈ lists d,
        c ≠ d ∨ x ≠ y → Apart x y
  off_table :
    ∀ c, c < SizeClass.count → ∀ x ∈ lists c,
      x + doubleWord ≤ table.offset ∨
        table.offset + size ≤ x

/- Bytes that belong to no link word of the lists. -/
def OffLinks
    (table : SentinelTable)
    (lists : FreeLists)
    (i : Nat) : Prop :=
  (i < table.offset ∨ table.offset + size ≤ i) ∧
    ∀ c, c < SizeClass.count → ∀ x ∈ lists c,
      i < x ∨ x + doubleWord ≤ i

/- The sizes of the table as numbers, for linear arithmetic. -/
theorem sizes_eq :
    size = 160 ∧ SizeClass.count = 10 := by
  decide

/- Sentinels are double words apart. -/
theorem sentinel_eq
    (table : SentinelTable)
    (c : Nat) :
    table.sentinel c = table.offset + c * 16 :=
  rfl

/- Sentinels stand in the table. -/
theorem sentinel_inside
    (table : SentinelTable)
    {c : Nat}
    (hc : c < SizeClass.count) :
    table.offset ≤ table.sentinel c ∧
      table.sentinel c + doubleWord ≤ table.offset + size := by
  have hWords := Word.sizes_eq
  have hSizes := sizes_eq
  rw [sentinel_eq]
  omega

/- Sentinels of different classes do not overlap. -/
theorem sentinel_apart
    (table : SentinelTable)
    {c d : Nat}
    (hNe : c ≠ d) :
    Apart (table.sentinel c) (table.sentinel d) := by
  have hWords := Word.sizes_eq
  unfold Apart
  rw [sentinel_eq, sentinel_eq]
  omega

------------------------------------------------------------
-- Clearing
------------------------------------------------------------

/- Classes that are cleared have empty lists. -/
theorem clearClasses_ok
    (cs : List Nat)
    (hClasses : ∀ c ∈ cs, c < SizeClass.count)
    (hRoom : table.offset + size ≤ m.size)
    (hWord : table.offset + size < Word.limit) :
    ∃ n, table.clearClasses cs m = .ok n ∧
      n.size = m.size ∧
      (∀ c ∈ cs, n.Ring (table.sentinel c) []) ∧
      ∀ i, (∀ c ∈ cs, i < table.sentinel c ∨
          table.sentinel c + doubleWord ≤ i) →
        n.byte i = m.byte i := by
  induction cs generalizing m with
  | nil =>
      refine ⟨m, rfl, rfl, ?_, fun _ _ => rfl⟩
      intro c hc
      cases hc
  | cons c cs ih =>
      have hWords := Word.sizes_eq
      have hInside := table.sentinel_inside (hClasses c List.mem_cons_self)
      rcases m.exists_emptyRing (table.sentinel c) (by omega)
          (by omega) with
        ⟨half, first, hNext, hPrevious, hFirstSize, hFirst,
          hFirstBytes⟩
      rcases ih
          (fun d hd => hClasses d (List.mem_cons_of_mem c hd))
          (show table.offset + size ≤ first.size by omega) with
        ⟨n, hClear, hSize, hRings, hBytes⟩
      refine ⟨n, ?_, hSize.trans hFirstSize, ?_, ?_⟩
      · unfold clearClasses
        rw [Fault.bind_of_ok hNext, Fault.bind_of_ok hPrevious]
        exact hClear
      · intro d hd
        by_cases hIn : d ∈ cs
        · exact hRings d hIn
        · -- The list is made empty once and then left alone.
          have hEq : d = c := by
            rcases List.mem_cons.1 hd with hEq | hMem
            · exact hEq
            · exact absurd hMem hIn
          subst hEq
          apply hFirst.of_agrees (Nat.le_of_eq hSize.symm)
          intro x hx i hi hi'
          rw [List.mem_singleton.1 hx] at hi hi'
          apply hBytes
          intro e he
          have hNe : d ≠ e := by
            intro hEq
            exact hIn (hEq ▸ he)
          have hApart := table.sentinel_apart hNe
          unfold Apart at hApart
          omega
      · intro i hi
        rw [hBytes i (fun d hd =>
            hi d (List.mem_cons_of_mem c hd)),
          hFirstBytes i (hi c List.mem_cons_self)]

/- A cleared table holds empty lists. -/
theorem clear_ok
    (table : SentinelTable)
    (hRoom : table.offset + size ≤ m.size)
    (hWord : table.offset + size < Word.limit) :
    ∃ n, table.clear m = .ok n ∧
      n.size = m.size ∧
      (∀ c, c < SizeClass.count →
        n.Ring (table.sentinel c) []) ∧
      ∀ i, i < table.offset ∨ table.offset + size ≤ i →
        n.byte i = m.byte i := by
  rcases clearClasses_ok SizeClass.all
      (fun c hc => SizeClass.mem_all_iff.1 hc) hRoom hWord with
    ⟨n, hClear, hSize, hRings, hBytes⟩
  refine ⟨n, hClear, hSize, ?_, ?_⟩
  · intro c hc
    exact hRings c (SizeClass.mem_all_iff.2 hc)
  · intro i hi
    apply hBytes
    intro c hc
    have hInside :=
      table.sentinel_inside (SizeClass.mem_all_iff.1 hc)
    omega

/- A table whose lists are all empty holds no nodes. -/
theorem holds_nil
    (h : ∀ c, c < SizeClass.count →
      m.Ring (table.sentinel c) []) :
    table.Holds m (fun _ => []) where
  ring := h
  nodup _ _ := List.nodup_nil
  apart _ _ _ _ _ hx := absurd hx List.not_mem_nil
  off_table _ _ _ hx := absurd hx List.not_mem_nil

------------------------------------------------------------
-- Nodes That Do Not Overlap
------------------------------------------------------------

namespace Holds

/- Nodes do not overlap sentinels. -/
theorem sentinel_apart_node
    {c d x : Nat}
    (h : table.Holds m lists)
    (hc : c < SizeClass.count)
    (hd : d < SizeClass.count)
    (hx : x ∈ lists d) :
    Apart (table.sentinel c) x := by
  have hInside := table.sentinel_inside hc
  have hOff := h.off_table d hd x hx
  unfold Apart
  omega

/- No two nodes of a ring overlap. -/
theorem ring_apart
    {c : Nat}
    (h : table.Holds m lists)
    (hc : c < SizeClass.count) :
    (table.sentinel c :: lists c).Pairwise Apart := by
  rw [List.pairwise_cons]
  refine ⟨?_, ?_⟩
  · intro x hx
    exact h.sentinel_apart_node hc hc hx
  · apply (h.nodup c hc).imp_of_mem
    intro x y hx hy hNe
    exact h.apart c c hc hc x hx y hy (Or.inr hNe)

/- Nodes of different rings do not overlap. -/
theorem apart_of_ne
    {c d x y : Nat}
    (h : table.Holds m lists)
    (hc : c < SizeClass.count)
    (hd : d < SizeClass.count)
    (hNe : c ≠ d)
    (hx : x ∈ table.sentinel c :: lists c)
    (hy : y ∈ table.sentinel d :: lists d) :
    Apart x y := by
  rcases List.mem_cons.1 hx with hx | hx
  · subst hx
    rcases List.mem_cons.1 hy with hy | hy
    · exact hy ▸ table.sentinel_apart hNe
    · exact h.sentinel_apart_node hc hd hy
  · rcases List.mem_cons.1 hy with hy | hy
    · exact hy ▸ (h.sentinel_apart_node hd hc hx).symm
    · exact h.apart c d hc hd x hx y hy (Or.inl hNe)

/- Bytes off all links are off the ring of each class. -/
theorem off_ring
    {c i : Nat}
    (hc : c < SizeClass.count)
    (hi : table.OffLinks lists i) :
    ∀ x ∈ table.sentinel c :: lists c,
      i < x ∨ x + doubleWord ≤ i := by
  intro x hx
  rcases List.mem_cons.1 hx with hx | hx
  · have hInside := table.sentinel_inside hc
    have hOff := hi.1
    omega
  · exact hi.2 c hc x hx

------------------------------------------------------------
-- Removal
------------------------------------------------------------

/- A node that is in one list is in no other one. -/
theorem not_mem_of_mem
    {c d x : Nat}
    (h : table.Holds m lists)
    (hc : c < SizeClass.count)
    (hd : d < SizeClass.count)
    (hNe : d ≠ c)
    (hx : x ∈ lists c) :
    x ∉ lists d := by
  intro hx'
  have hApart := h.apart c d hc hd x hx x hx'
    (Or.inl (Ne.symm hNe))
  have hSizes := Word.sizes_eq
  unfold Apart at hApart
  omega

/- A listed node can be removed, whichever list it is in. -/
theorem unlink
    {c node : Nat}
    (h : table.Holds m lists)
    (hc : c < SizeClass.count)
    (hNode : node ∈ lists c) :
    ∃ n, m.unlink node = .ok n ∧
      n.size = m.size ∧
      table.Holds n (FreeLists.drop lists node) ∧
      ∀ i, table.OffLinks lists i → n.byte i = m.byte i := by
  rcases (h.ring c hc).unlink (h.ring_apart hc) hNode with
    ⟨n, hUnlink, hSize, hRing, hBytes⟩
  have hSub : ∀ d x, x ∈ FreeLists.drop lists node d →
      x ∈ lists d := by
    intro d x hx
    exact List.mem_of_mem_erase hx
  refine ⟨n, hUnlink, hSize, ?_, ?_⟩
  · refine ⟨?_, ?_, ?_, ?_⟩
    · intro d hd
      by_cases hEq : d = c
      · subst hEq
        exact hRing
      · have hSame : FreeLists.drop lists node d = lists d :=
          List.erase_of_not_mem
            (h.not_mem_of_mem hc hd hEq hNode)
        rw [hSame]
        apply (h.ring d hd).of_agrees (Nat.le_of_eq hSize.symm)
        intro y hy i hi hi'
        apply hBytes
        intro x hx
        have hApart := h.apart_of_ne hc hd (Ne.symm hEq) hx hy
        unfold Apart at hApart
        omega
    · intro d hd
      exact (h.nodup d hd).erase node
    · intro d e hd he x hx y hy hNe
      exact h.apart d e hd he x (hSub d x hx) y (hSub e y hy)
        hNe
    · intro d hd x hx
      exact h.off_table d hd x (hSub d x hx)
  · intro i hi
    exact hBytes i (off_ring hc hi)

------------------------------------------------------------
-- Insertion
------------------------------------------------------------

/-
  A node that overlaps neither the table nor a listed node
  can be listed.
-/
theorem insert
    {node : Nat}
    (h : table.Holds m lists)
    (blockSize : Nat)
    (hTable : node + doubleWord ≤ table.offset ∨
      table.offset + size ≤ node)
    (hFresh : ∀ c, c < SizeClass.count → ∀ x ∈ lists c,
      Apart node x)
    (hRoom : node + doubleWord ≤ m.size)
    (hWord : node + wordSize < Word.limit) :
    ∃ n, table.insert m node blockSize = .ok n ∧
      n.size = m.size ∧
      table.Holds n (FreeLists.push lists
        (SizeClass.classify blockSize) node) ∧
      ∀ i, (i < node ∨ node + doubleWord ≤ i) →
        table.OffLinks lists i → n.byte i = m.byte i := by
  have hSizes := Word.sizes_eq
  have hc := SizeClass.classify_lt blockSize
  have hSentinel : ∀ d, d < SizeClass.count →
      Apart node (table.sentinel d) := by
    intro d hd
    have hInside := table.sentinel_inside hd
    unfold Apart
    omega
  have hRingApart :
      (node :: table.sentinel (SizeClass.classify blockSize) ::
        lists (SizeClass.classify blockSize)).Pairwise
          Apart := by
    rw [List.pairwise_cons]
    refine ⟨?_, h.ring_apart hc⟩
    intro x hx
    rcases List.mem_cons.1 hx with hx | hx
    · exact hx ▸ hSentinel _ hc
    · exact hFresh _ hc x hx
  rcases (h.ring _ hc).insert hRingApart hRoom hWord with
    ⟨n, hInsert, hSize, hRing, hBytes⟩
  refine ⟨n, hInsert, hSize, ?_, ?_⟩
  · refine ⟨?_, ?_, ?_, ?_⟩
    · intro d hd
      unfold FreeLists.push
      split
      · rename_i hEq
        subst hEq
        exact hRing
      · rename_i hNe
        apply (h.ring d hd).of_agrees (Nat.le_of_eq hSize.symm)
        intro y hy i hi hi'
        have hNode : Apart node y := by
          rcases List.mem_cons.1 hy with hy | hy
          · exact hy ▸ hSentinel d hd
          · exact hFresh d hd y hy
        unfold Apart at hNode
        apply hBytes i (by omega)
        intro x hx
        have hApart := h.apart_of_ne hc hd (Ne.symm hNe) hx hy
        unfold Apart at hApart
        omega
    · intro d hd
      unfold FreeLists.push
      split
      · rw [List.nodup_cons]
        refine ⟨?_, h.nodup d hd⟩
        intro hMem
        have hApart := hFresh d hd node hMem
        unfold Apart at hApart
        omega
      · exact h.nodup d hd
    · intro d e hd he x hx y hy hNe
      rcases FreeLists.mem_push_iff.1 hx with hx | hx
      · rcases FreeLists.mem_push_iff.1 hy with hy | hy
        · exfalso
          rcases hNe with hNe | hNe
          · exact hNe (hx.1.trans hy.1.symm)
          · exact hNe (hx.2.trans hy.2.symm)
        · exact hx.2 ▸ hFresh e he y hy
      · rcases FreeLists.mem_push_iff.1 hy with hy | hy
        · exact hy.2 ▸ (hFresh d hd x hx).symm
        · exact h.apart d e hd he x hx y hy hNe
    · intro d hd x hx
      rcases FreeLists.mem_push_iff.1 hx with hx | hx
      · exact hx.2 ▸ hTable
      · exact h.off_table d hd x hx
  · intro i hNode hi
    exact hBytes i hNode (off_ring hc hi)

end Holds

end SentinelTable

end SegregatedFit
