import SegregatedFit.FreeList.Basic
import SegregatedFit.Proofs.Memory.Agreement

/-
  Taking a node out of a ring of links and putting one in.

  Both are local: the link words of a node and of its two
  neighbours change, and the other nodes of the ring keep
  theirs because link words of different nodes do not
  overlap.

  Key theorems include:
    * `Memory.Ring.unlink`
    * `Memory.Ring.insert`
-/

namespace SegregatedFit

namespace Memory

variable {m n : Memory}

------------------------------------------------------------
-- Reading Along Links
------------------------------------------------------------

/- In a sequence with a pair in it the pair is linked. -/
theorem Links.pair
    {first second : Nat}
    {front back : List Nat}
    (h : m.Links (front ++ first :: second :: back)) :
    m.nextLink first = .ok second ∧
      m.previousLink second = .ok first := by
  rw [links_append_iff] at h
  exact ⟨h.2.1, h.2.2.1⟩

/- A node links to the first of the nodes behind it. -/
theorem Links.nextLink_eq
    {node last : Nat}
    {nodes : List Nat}
    (h : m.Links (node :: (nodes ++ [last]))) :
    m.nextLink node = .ok (nodes.headD last) := by
  cases nodes with
  | nil => exact h.1
  | cons next rest => exact h.1

/- The first node behind another one links back to it. -/
theorem Links.previousLink_headD
    {node last : Nat}
    {nodes : List Nat}
    (h : m.Links (node :: (nodes ++ [last]))) :
    m.previousLink (nodes.headD last) = .ok node := by
  cases nodes with
  | nil => exact h.2.1
  | cons next rest => exact h.2.1

/- The last node of a sequence links back to the one before it. -/
theorem Links.previousLink_eq
    {node last : Nat}
    {nodes : List Nat}
    (h : m.Links (node :: (nodes ++ [last]))) :
    m.previousLink last = .ok (nodes.getLastD node) := by
  induction nodes generalizing node with
  | nil => exact h.2.1
  | cons next rest ih =>
      rw [List.getLastD_cons]
      exact ih h.2.2

/- What is behind a node of a sequence is a sequence. -/
theorem Links.behind
    {node last : Nat}
    {nodes : List Nat}
    (h : m.Links (node :: (nodes ++ [last]))) :
    m.Links (nodes ++ [last]) := by
  cases nodes with
  | nil => trivial
  | cons next rest => exact h.2.2

/- All nodes but the first one have a back link. -/
theorem Links.exists_previousLink
    {nodes : List Nat}
    {node : Nat}
    (h : m.Links nodes)
    (hNode : node ∈ nodes.tail) :
    ∃ previous, m.previousLink node = .ok previous := by
  induction nodes with
  | nil => cases hNode
  | cons x xs ih =>
      cases xs with
      | nil => cases hNode
      | cons y ys =>
          rcases List.mem_cons.1 hNode with hEq | hTail
          · subst hEq
            exact ⟨x, h.2.1⟩
          · exact ih h.2.2 hTail

/- The link words of the nodes of a ring lie in memory. -/
theorem Ring.inside
    {sentinel node : Nat}
    {nodes : List Nat}
    (h : m.Ring sentinel nodes)
    (hNode : node ∈ sentinel :: nodes) :
    node + doubleWord ≤ m.size ∧
      node + wordSize < Word.limit := by
  have hSizes := Word.sizes_eq
  have hTail :
      node ∈ (sentinel :: (nodes ++ [sentinel])).tail := by
    rw [List.tail_cons]
    rcases List.mem_cons.1 hNode with hEq | hMem
    · subst hEq
      simp
    · exact List.mem_append_left _ hMem
  rcases Links.exists_previousLink h hTail with
    ⟨previous, hPrevious⟩
  rw [previousLink_eq_ok_iff, loadWord_eq_ok_iff] at hPrevious
  exact ⟨by omega, hPrevious.1⟩

/-
  A ring stays a ring in every memory with the same link
  words.
-/
theorem Ring.of_agrees
    {sentinel : Nat}
    {nodes : List Nat}
    (h : m.Ring sentinel nodes)
    (hSize : m.size ≤ n.size)
    (hAgrees : ∀ x ∈ sentinel :: nodes,
      m.Agrees n x (x + doubleWord)) :
    n.Ring sentinel nodes := by
  -- A link that is read in `m` reads the same in `n`.
  have hPairs : ∀ l, m.Links l → (∀ x ∈ l,
      m.Agrees n x (x + doubleWord)) → n.Links l := by
    intro l
    induction l with
    | nil =>
        intro _ _
        trivial
    | cons x xs ih =>
        cases xs with
        | nil =>
            intro _ _
            trivial
        | cons y ys =>
            intro hLinks hAll
            refine ⟨?_, ?_, ?_⟩
            · exact nextLink_of_agrees hSize
                (hAll x (by simp)) hLinks.1
            · exact previousLink_of_agrees hSize
                (hAll y (by simp)) hLinks.2.1
            · apply ih hLinks.2.2
              intro z hz
              exact hAll z (List.mem_cons_of_mem x hz)
  apply hPairs _ h
  intro x hx
  apply hAgrees x
  rcases List.mem_cons.1 hx with hEq | hMem
  · exact hEq ▸ List.mem_cons_self
  · rcases List.mem_append.1 hMem with hNodes | hLast
    · exact List.mem_cons_of_mem sentinel hNodes
    · exact List.mem_singleton.1 hLast ▸ List.mem_cons_self

/- A node of a ring stands between two others. -/
theorem Ring.neighbours
    (sentinel : Nat)
    {node : Nat}
    {nodes : List Nat}
    (hNode : node ∈ nodes)
    (hNodup : nodes.Nodup) :
    ∃ front previous next back,
      sentinel :: (nodes ++ [sentinel]) =
        front ++ previous :: node :: next :: back ∧
      sentinel :: (nodes.erase node ++ [sentinel]) =
        front ++ previous :: next :: back := by
  rcases List.append_of_mem hNode with ⟨before, after, rfl⟩
  have hFresh : node ∉ before := by
    intro hMem
    have hDisjoint := (List.nodup_append.1 hNodup).2.2
    exact hDisjoint node hMem node (by simp) rfl
  have hErase :
      (before ++ node :: after).erase node =
        before ++ after := by
    rw [List.erase_append_right _ hFresh,
      List.erase_cons_head]
  -- The sentinel stands in front of the first and behind the last.
  rcases List.eq_nil_or_concat (sentinel :: before) with
    hNil | ⟨front, previous, hFront⟩
  · cases hNil
  cases hBack : after ++ [sentinel] with
  | nil => simp at hBack
  | cons next back =>
      refine ⟨front, previous, next, back, ?_, ?_⟩
      · calc
          sentinel :: (before ++ node :: after ++ [sentinel]) =
              (sentinel :: before) ++
                node :: (after ++ [sentinel]) := by
            simp
          _ = front ++ previous :: node :: next :: back := by
            rw [hFront, hBack]
            simp
      · rw [hErase]
        calc
          sentinel :: (before ++ after ++ [sentinel]) =
              (sentinel :: before) ++
                (after ++ [sentinel]) := by
            simp
          _ = front ++ previous :: next :: back := by
            rw [hFront, hBack]
            simp

------------------------------------------------------------
-- Nodes Apart
------------------------------------------------------------

/- Two nodes of a ring are the same or do not overlap. -/
theorem eq_or_apart
    {nodes : List Nat}
    {x y : Nat}
    (h : nodes.Pairwise Apart)
    (hx : x ∈ nodes)
    (hy : y ∈ nodes) :
    x = y ∨ Apart x y := by
  induction nodes with
  | nil => cases hx
  | cons z zs ih =>
      rw [List.pairwise_cons] at h
      rcases List.mem_cons.1 hx with hxz | hx'
      · rcases List.mem_cons.1 hy with hyz | hy'
        · exact Or.inl (hxz.trans hyz.symm)
        · exact Or.inr (hxz ▸ h.1 y hy')
      · rcases List.mem_cons.1 hy with hyz | hy'
        · exact Or.inr (hyz ▸ (h.1 x hx').symm)
        · exact ih h.2 hx' hy'

/- Nodes that do not overlap are different. -/
theorem nodup_of_apart
    {nodes : List Nat}
    (h : nodes.Pairwise Apart) :
    nodes.Nodup := by
  apply h.imp
  intro x y hApart hEq
  have hSizes := Word.sizes_eq
  unfold Apart at hApart
  omega

------------------------------------------------------------
-- Removal
------------------------------------------------------------

/-
  Two nodes that name each other close a gap between two
  sequences whose links stay as they are.
-/
theorem Links.close
    {previous next : Nat}
    {front middle back : List Nat}
    (h : m.Links (front ++ previous :: (middle ++ next :: back)))
    (hNext : n.nextLink previous = .ok next)
    (hPrevious : n.previousLink next = .ok previous)
    (hFront : ∀ x ∈ front, n.nextLink x = m.nextLink x)
    (hFront' : ∀ x ∈ (front ++ [previous]).tail,
      n.previousLink x = m.previousLink x)
    (hBack : ∀ x ∈ (next :: back).dropLast,
      n.nextLink x = m.nextLink x)
    (hBack' : ∀ x ∈ back,
      n.previousLink x = m.previousLink x) :
    n.Links (front ++ previous :: next :: back) := by
  have hSplit := links_append_iff.1 h
  have hRest :
      m.Links ((previous :: middle) ++ next :: back) :=
    hSplit.2
  have hLast := (links_append_iff.1 hRest).2
  rw [links_append_iff]
  refine ⟨?_, hNext, hPrevious, ?_⟩
  · apply hSplit.1.congr _ hFront'
    rw [List.dropLast_concat]
    exact hFront
  · exact hLast.congr hBack hBack'

/-
  Linking the neighbours of a node with each other takes the
  node out of its ring.
-/
theorem Ring.relink
    {half : Memory}
    {sentinel previous node next : Nat}
    {nodes front back : List Nat}
    (h : m.Ring sentinel nodes)
    (hApart : (sentinel :: nodes).Pairwise Apart)
    (hSplit :
      sentinel :: (nodes ++ [sentinel]) =
        front ++ previous :: node :: next :: back)
    (hNext : m.setNextLink previous next = .ok half)
    (hPrevious : half.setPreviousLink next previous = .ok n) :
    n.Links (front ++ previous :: next :: back) := by
  -- Forward links stand in all nodes but the last one, back
  -- links in all nodes but the first one.
  have hHeads :
      sentinel :: nodes =
        front ++ previous :: node :: (next :: back).dropLast := by
    have hDrop := congrArg List.dropLast hSplit
    rw [← List.cons_append, List.dropLast_concat] at hDrop
    simpa using hDrop
  have hTails :
      nodes ++ [sentinel] =
        (front ++ [previous]).tail ++ node :: next :: back := by
    have hTail := congrArg List.tail hSplit
    cases front <;> simpa using hTail
  have hHeadsApart := hApart
  rw [hHeads, List.pairwise_append] at hHeadsApart
  have hTailsApart : (nodes ++ [sentinel]).Pairwise Apart := by
    have hPerm := List.perm_append_singleton sentinel nodes
    exact (hPerm.symm.pairwise_iff Apart.symm).1 hApart
  rw [hTails, List.pairwise_append] at hTailsApart
  have hMemHeads : ∀ x ∈ front ++ previous ::
      node :: (next :: back).dropLast, x ∈ sentinel :: nodes := by
    intro x hx
    exact hHeads ▸ hx
  have hMemTails : ∀ x ∈ (front ++ [previous]).tail ++
      node :: next :: back, x ∈ sentinel :: nodes := by
    intro x hx
    rw [← hTails] at hx
    simpa [or_comm] using hx
  have hPreviousMem : previous ∈ sentinel :: nodes :=
    hMemHeads previous (by simp)
  have hNextMem : next ∈ sentinel :: nodes :=
    hMemTails next (by simp)
  have hSeparate : ∀ x ∈ sentinel :: nodes,
      ∀ y ∈ sentinel :: nodes, x = y ∨ Apart x y := by
    intro x hx y hy
    exact eq_or_apart hApart hx hy
  -- A forward link stays unless it is that of `previous`, and
  -- a back link stays unless it is that of `next`.
  have hKeepNext : ∀ x ∈ sentinel :: nodes,
      Apart x previous → n.nextLink x = m.nextLink x := by
    intro x hx hOff
    rw [nextLink_of_setPreviousLink
        (hSeparate x hx next hNextMem) hPrevious,
      nextLink_of_setNextLink hOff hNext]
  have hKeepPrevious : ∀ x ∈ sentinel :: nodes,
      Apart x next → n.previousLink x = m.previousLink x := by
    intro x hx hOff
    rw [previousLink_of_setPreviousLink hOff hPrevious,
      previousLink_of_setNextLink
        (hSeparate x hx previous hPreviousMem) hNext]
  have hLinks : m.Links (front ++ previous ::
      ([node] ++ next :: back)) := by
    unfold Ring at h
    rw [hSplit] at h
    exact h
  have hPreviousLt : previous < Word.limit := by
    have hInside := h.inside hPreviousMem
    omega
  have hNextLt : next < Word.limit := by
    have hInside := h.inside hNextMem
    omega
  apply hLinks.close
  · rw [nextLink_of_setPreviousLink
      (hSeparate previous hPreviousMem next hNextMem) hPrevious]
    exact nextLink_of_setNextLink_self hNextLt hNext
  · exact previousLink_of_setPreviousLink_self
      hPreviousLt hPrevious
  · intro x hx
    apply hKeepNext x (hMemHeads x (by simp [hx]))
    exact hHeadsApart.2.2 x hx previous (by simp)
  · intro x hx
    apply hKeepPrevious x (hMemTails x (by simp [hx]))
    exact hTailsApart.2.2 x hx next (by simp)
  · intro x hx
    apply hKeepNext x (hMemHeads x (by simp [hx]))
    have hRest := hHeadsApart.2.1
    rw [List.pairwise_cons] at hRest
    exact (hRest.1 x (List.mem_cons_of_mem node hx)).symm
  · intro x hx
    apply hKeepPrevious x (hMemTails x (by simp [hx]))
    have hRest := hTailsApart.2.1
    rw [List.pairwise_cons, List.pairwise_cons] at hRest
    exact (hRest.2.1 x hx).symm

/-
  A node of a ring can be unlinked.  The others stay in their
  order, and only link words of nodes of the ring change.
-/
theorem Ring.unlink
    {sentinel node : Nat}
    {nodes : List Nat}
    (h : m.Ring sentinel nodes)
    (hApart : (sentinel :: nodes).Pairwise Apart)
    (hNode : node ∈ nodes) :
    ∃ n, m.unlink node = .ok n ∧
      n.size = m.size ∧
      n.Ring sentinel (nodes.erase node) ∧
      ∀ i, (∀ x ∈ sentinel :: nodes,
        i < x ∨ x + doubleWord ≤ i) → n.byte i = m.byte i := by
  have hSizes := Word.sizes_eq
  rcases Ring.neighbours sentinel hNode
      (List.nodup_cons.1 (nodup_of_apart hApart)).2 with
    ⟨front, previous, next, back, hSplit, hErased⟩
  have hLinks := h
  unfold Ring at hLinks
  rw [hSplit] at hLinks
  have hFirst := hLinks.pair
  have hSecond :
      m.nextLink node = .ok next ∧
        m.previousLink next = .ok node := by
    rw [List.append_cons] at hLinks
    exact hLinks.pair
  have hMem : ∀ x, x = previous ∨ x = next →
      x ∈ sentinel :: nodes := by
    intro x hx
    have hAll : x ∈ sentinel :: (nodes ++ [sentinel]) := by
      rw [hSplit]
      rcases hx with hEq | hEq <;> simp [hEq]
    simpa [or_comm, or_left_comm] using hAll
  have hPreviousInside := h.inside (hMem previous (Or.inl rfl))
  have hNextInside := h.inside (hMem next (Or.inr rfl))
  rcases m.exists_setNextLink previous next (by omega) with
    ⟨half, hHalf⟩
  have hHalfSize := size_of_setNextLink hHalf
  rcases half.exists_setPreviousLink next previous
      hNextInside.2 (by omega) with
    ⟨n, hLast⟩
  have hUnlink : m.unlink node = .ok n := by
    unfold Memory.unlink
    rw [Fault.bind_of_ok hFirst.2, Fault.bind_of_ok hSecond.1,
      Fault.bind_of_ok hHalf]
    exact hLast
  refine ⟨n, hUnlink, ?_, ?_, ?_⟩
  · rw [size_of_setPreviousLink hLast, hHalfSize]
  · unfold Ring
    rw [hErased]
    exact h.relink hApart hSplit hHalf hLast
  · intro i hi
    have hOffPrevious := hi previous (hMem previous (Or.inl rfl))
    have hOffNext := hi next (hMem next (Or.inr rfl))
    rw [byte_of_setPreviousLink hLast (by omega),
      byte_of_setNextLink hHalf (by omega)]

------------------------------------------------------------
-- Empty Lists
------------------------------------------------------------

/- A node that is linked to itself is an empty list. -/
theorem exists_emptyRing
    (m : Memory)
    (node : Nat)
    (hRoom : node + doubleWord ≤ m.size)
    (hWord : node + wordSize < Word.limit) :
    ∃ half n,
      m.setNextLink node node = .ok half ∧
      half.setPreviousLink node node = .ok n ∧
      n.size = m.size ∧
      n.Ring node [] ∧
      ∀ i, i < node ∨ node + doubleWord ≤ i →
        n.byte i = m.byte i := by
  have hSizes := Word.sizes_eq
  rcases m.exists_setNextLink node node (by omega) with
    ⟨half, hNext⟩
  have hHalfSize := size_of_setNextLink hNext
  rcases half.exists_setPreviousLink node node hWord
      (by omega) with
    ⟨n, hPrevious⟩
  have hSize := size_of_setPreviousLink hPrevious
  refine ⟨half, n, hNext, hPrevious, hSize.trans hHalfSize,
    ⟨?_, ?_, trivial⟩, ?_⟩
  · rw [nextLink_of_setPreviousLink (Or.inl rfl) hPrevious]
    exact nextLink_of_setNextLink_self (by omega) hNext
  · exact previousLink_of_setPreviousLink_self (by omega)
      hPrevious
  · intro i hi
    rw [byte_of_setPreviousLink hPrevious (by omega),
      byte_of_setNextLink hNext (by omega)]

------------------------------------------------------------
-- Insertion
------------------------------------------------------------

/-
  A node that is linked with the sentinel and with the node
  behind it stands at the head of the ring.
-/
theorem Ring.linkIn
    {first second third : Memory}
    {sentinel node after : Nat}
    {nodes rest : List Nat}
    (h : m.Ring sentinel nodes)
    (hApart : (node :: sentinel :: nodes).Pairwise Apart)
    (hSplit : nodes ++ [sentinel] = after :: rest)
    (hBehind : m.setPreviousLink node sentinel = .ok first)
    (hAhead : first.setNextLink node after = .ok second)
    (hAfter : second.setPreviousLink after node = .ok third)
    (hStart : third.setNextLink sentinel node = .ok n)
    (hNodeLt : node < Word.limit) :
    n.Ring sentinel (node :: nodes) := by
  rw [List.pairwise_cons] at hApart
  have hTailsApart : (nodes ++ [sentinel]).Pairwise Apart := by
    have hPerm := List.perm_append_singleton sentinel nodes
    exact (hPerm.symm.pairwise_iff Apart.symm).1 hApart.2
  rw [hSplit, List.pairwise_cons] at hTailsApart
  have hMem : ∀ x ∈ after :: rest, x ∈ sentinel :: nodes := by
    intro x hx
    rw [← hSplit] at hx
    simpa [or_comm] using hx
  have hAfterMem : after ∈ sentinel :: nodes :=
    hMem after List.mem_cons_self
  have hSentinelMem : sentinel ∈ sentinel :: nodes :=
    List.mem_cons_self
  have hOff : ∀ x ∈ sentinel :: nodes, Apart x node := by
    intro x hx
    exact (hApart.1 x hx).symm
  have hSeparate : ∀ x ∈ sentinel :: nodes,
      ∀ y ∈ sentinel :: nodes, x = y ∨ Apart x y := by
    intro x hx y hy
    exact eq_or_apart hApart.2 hx hy
  have hSentinelLt : sentinel < Word.limit := by
    have hInside := h.inside hSentinelMem
    omega
  have hAfterLt : after < Word.limit := by
    have hInside := h.inside hAfterMem
    omega
  have hLinks : m.Links (after :: rest) := by
    unfold Ring at h
    rw [hSplit] at h
    exact h.2.2
  unfold Ring
  rw [List.cons_append, hSplit]
  refine ⟨?_, ?_, ?_, ?_, ?_⟩
  · exact nextLink_of_setNextLink_self hNodeLt hStart
  · rw [previousLink_of_setNextLink
        (Or.inr (hOff sentinel hSentinelMem).symm) hStart,
      previousLink_of_setPreviousLink
        (hOff after hAfterMem).symm hAfter,
      previousLink_of_setNextLink (Or.inl rfl) hAhead]
    exact previousLink_of_setPreviousLink_self
      hSentinelLt hBehind
  · rw [nextLink_of_setNextLink
        (hOff sentinel hSentinelMem).symm hStart,
      nextLink_of_setPreviousLink
        (Or.inr (hOff after hAfterMem).symm) hAfter]
    exact nextLink_of_setNextLink_self hAfterLt hAhead
  · rw [previousLink_of_setNextLink
        (hSeparate after hAfterMem sentinel hSentinelMem) hStart]
    exact previousLink_of_setPreviousLink_self hNodeLt hAfter
  · apply hLinks.congr
    · intro x hx
      have hNodes : x ∈ nodes := by
        rw [← hSplit, List.dropLast_concat] at hx
        exact hx
      have hx' := List.mem_cons_of_mem sentinel hNodes
      have hSentinelApart : Apart x sentinel :=
        ((List.pairwise_cons.1 hApart.2).1 x hNodes).symm
      rw [nextLink_of_setNextLink hSentinelApart hStart,
        nextLink_of_setPreviousLink
          (hSeparate x hx' after hAfterMem) hAfter,
        nextLink_of_setNextLink (hOff x hx') hAhead,
        nextLink_of_setPreviousLink
          (Or.inr (hOff x hx')) hBehind]
    · intro x hx
      have hx' := hMem x (List.mem_cons_of_mem after hx)
      rw [previousLink_of_setNextLink
          (hSeparate x hx' sentinel hSentinelMem) hStart,
        previousLink_of_setPreviousLink
          (hTailsApart.1 x hx).symm hAfter,
        previousLink_of_setNextLink
          (Or.inr (hOff x hx')) hAhead,
        previousLink_of_setPreviousLink (hOff x hx') hBehind]

/-
  A block whose link words are apart from the list of its
  class can be put at the head of that list.
-/
theorem Ring.insert
    {table : SentinelTable}
    {node blockSize : Nat}
    {nodes : List Nat}
    (h : m.Ring
      (table.sentinel (SizeClass.classify blockSize)) nodes)
    (hApart :
      (node :: table.sentinel (SizeClass.classify blockSize) ::
        nodes).Pairwise Apart)
    (hRoom : node + doubleWord ≤ m.size)
    (hWord : node + wordSize < Word.limit) :
    ∃ n, table.insert m node blockSize = .ok n ∧
      n.size = m.size ∧
      n.Ring (table.sentinel (SizeClass.classify blockSize))
        (node :: nodes) ∧
      ∀ i, (i < node ∨ node + doubleWord ≤ i) →
        (∀ x ∈ table.sentinel (SizeClass.classify blockSize) ::
          nodes, i < x ∨ x + doubleWord ≤ i) →
        n.byte i = m.byte i := by
  have hSizes := Word.sizes_eq
  generalize hStart :
    table.sentinel (SizeClass.classify blockSize) = start at *
  cases hSplit : nodes ++ [start] with
  | nil => simp at hSplit
  | cons after rest =>
      have hAfterMem : after ∈ start :: nodes := by
        have hAll : after ∈ nodes ++ [start] := by
          rw [hSplit]
          exact List.mem_cons_self
        simpa [or_comm] using hAll
      have hHead : m.nextLink start = .ok after := by
        have hLinks := h
        unfold Ring at hLinks
        rw [hSplit] at hLinks
        exact hLinks.1
      have hStartInside := h.inside List.mem_cons_self
      have hAfterInside := h.inside hAfterMem
      rcases m.exists_setPreviousLink node start
          hWord hRoom with
        ⟨first, hBehind⟩
      have hFirstSize := size_of_setPreviousLink hBehind
      rcases first.exists_setNextLink node after
          (by omega) with
        ⟨second, hAhead⟩
      have hSecondSize := size_of_setNextLink hAhead
      rcases second.exists_setPreviousLink after node
          hAfterInside.2 (by omega) with
        ⟨third, hAfter⟩
      have hThirdSize := size_of_setPreviousLink hAfter
      rcases third.exists_setNextLink start node
          (by omega) with
        ⟨n, hLast⟩
      have hInsert : table.insert m node blockSize = .ok n := by
        unfold SentinelTable.insert
        rw [hStart, Fault.bind_of_ok hHead,
          Fault.bind_of_ok hBehind, Fault.bind_of_ok hAhead,
          Fault.bind_of_ok hAfter]
        exact hLast
      refine ⟨n, hInsert, ?_, ?_, ?_⟩
      · rw [size_of_setNextLink hLast]
        omega
      · exact h.linkIn hApart hSplit hBehind hAhead hAfter hLast
          (by omega)
      · intro i hNode hi
        have hOffStart := hi start List.mem_cons_self
        have hOffAfter := hi after hAfterMem
        rw [byte_of_setNextLink hLast (by omega),
          byte_of_setPreviousLink hAfter (by omega),
          byte_of_setNextLink hAhead (by omega),
          byte_of_setPreviousLink hBehind (by omega)]

end Memory

end SegregatedFit
