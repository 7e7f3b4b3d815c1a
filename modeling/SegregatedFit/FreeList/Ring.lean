import SegregatedFit.FreeList.Basic
import SegregatedFit.Memory.Lemmas

/-
  Free lists as sequences of nodes.

  A sequence of nodes is linked if each node names the next
  one and is named by it in turn (`Memory.Links`).  A free
  list is a sequence that leads from its sentinel back to it
  (`Memory.Ring`).  Links take the first two words of a node,
  so nodes whose link words do not overlap do not disturb
  each other (`Apart`).

  Key theorems include:
    * `Memory.links_append_iff`
    * `Memory.Links.congr`
    * `Memory.nextLink_of_setNextLink`
    * `Memory.previousLink_of_setPreviousLink`
-/

namespace SegregatedFit

/- Nodes whose link words do not overlap. -/
def Apart
    (x y : Nat) : Prop :=
  x + doubleWord ≤ y ∨ y + doubleWord ≤ x

/- Being apart is symmetric. -/
theorem Apart.symm
    {x y : Nat}
    (h : Apart x y) :
    Apart y x :=
  Or.symm h

namespace Memory

------------------------------------------------------------
-- Sequences of Nodes
------------------------------------------------------------

/- Each node names the next one and is named by it in turn. -/
def Links
    (m : Memory) :
    List Nat → Prop
| first :: second :: rest =>
    m.nextLink first = .ok second ∧
      m.previousLink second = .ok first ∧
      Links m (second :: rest)
| _ => True

/- The nodes of a list in order, without its sentinel. -/
def Ring
    (m : Memory)
    (sentinel : Nat)
    (nodes : List Nat) : Prop :=
  m.Links (sentinel :: (nodes ++ [sentinel]))

/- A sequence is linked exactly when both of its parts are. -/
theorem links_append_iff
    {m : Memory}
    {node : Nat}
    {front back : List Nat} :
    m.Links (front ++ node :: back) ↔
      m.Links (front ++ [node]) ∧ m.Links (node :: back) := by
  induction front with
  | nil => simp [Links]
  | cons x xs ih =>
      cases xs with
      | nil =>
          simp only [List.cons_append, List.nil_append, Links]
          constructor
          · intro h
            exact ⟨⟨h.1, h.2.1, trivial⟩, h.2.2⟩
          · intro h
            exact ⟨h.1.1, h.1.2.1, h.2⟩
      | cons y ys =>
          simp only [List.cons_append, Links] at ih ⊢
          rw [ih]
          constructor
          · intro h
            exact ⟨⟨h.1, h.2.1, h.2.2.1⟩, h.2.2.2⟩
          · intro h
            exact ⟨h.1.1, h.1.2.1, h.1.2.2, h.2⟩

/-
  A sequence is linked in every memory with the same links:
  the forward links of all nodes but the last one and the
  back links of all nodes but the first one.
-/
theorem Links.congr
    {m n : Memory}
    {nodes : List Nat}
    (h : m.Links nodes)
    (hNext : ∀ x ∈ nodes.dropLast,
      n.nextLink x = m.nextLink x)
    (hPrevious : ∀ x ∈ nodes.tail,
      n.previousLink x = m.previousLink x) :
    n.Links nodes := by
  induction nodes with
  | nil => trivial
  | cons x xs ih =>
      cases xs with
      | nil => trivial
      | cons y ys =>
          rcases h with ⟨h₁, h₂, hRest⟩
          refine ⟨?_, ?_, ?_⟩
          · rw [hNext x (by simp)]
            exact h₁
          · rw [hPrevious y (by simp)]
            exact h₂
          · apply ih hRest
            · intro z hz
              apply hNext
              rw [List.dropLast_cons_cons]
              exact List.mem_cons_of_mem x hz
            · intro z hz
              exact hPrevious z (List.mem_of_mem_tail hz)

------------------------------------------------------------
-- Setting Links
------------------------------------------------------------

/- A back link is the second word of a node. -/
theorem previousLink_eq_ok_iff
    {m : Memory}
    {node previous : Nat} :
    m.previousLink node = .ok previous ↔
      node + wordSize < Word.limit ∧
        m.loadWord (node + wordSize) = .ok previous := by
  unfold previousLink
  rw [Fault.bind_eq_ok_iff]
  constructor
  · rintro ⟨offset, h, h'⟩
    rw [Word.add_eq_ok_iff] at h
    rcases h with ⟨hlt, rfl⟩
    exact ⟨hlt, h'⟩
  · rintro ⟨hlt, h⟩
    exact ⟨node + wordSize, Word.add_of_lt hlt, h⟩

/- A back link is stored in the second word of a node. -/
theorem setPreviousLink_eq_ok_iff
    {m n : Memory}
    {node previous : Nat} :
    m.setPreviousLink node previous = .ok n ↔
      node + wordSize < Word.limit ∧
        m.storeWord (node + wordSize) previous = .ok n := by
  unfold setPreviousLink
  rw [Fault.bind_eq_ok_iff]
  constructor
  · rintro ⟨offset, h, h'⟩
    rw [Word.add_eq_ok_iff] at h
    rcases h with ⟨hlt, rfl⟩
    exact ⟨hlt, h'⟩
  · rintro ⟨hlt, h⟩
    exact ⟨node + wordSize, Word.add_of_lt hlt, h⟩

/- Memories that agree on a word agree on a back link. -/
theorem previousLink_congr
    {m n : Memory}
    {node : Nat}
    (h : n.loadWord (node + wordSize) =
      m.loadWord (node + wordSize)) :
    n.previousLink node = m.previousLink node := by
  unfold previousLink Word.add
  split
  · exact h
  · rfl

/- A forward link can be set wherever there is room. -/
theorem exists_setNextLink
    (m : Memory)
    (node next : Nat)
    (h : node + wordSize ≤ m.size) :
    ∃ n, m.setNextLink node next = .ok n :=
  ⟨_, storeWord_eq_ok_iff.2 ⟨h, rfl⟩⟩

/- A back link can be set wherever there is room. -/
theorem exists_setPreviousLink
    (m : Memory)
    (node previous : Nat)
    (hWord : node + wordSize < Word.limit)
    (h : node + doubleWord ≤ m.size) :
    ∃ n, m.setPreviousLink node previous = .ok n :=
  ⟨_, setPreviousLink_eq_ok_iff.2
    ⟨hWord, storeWord_eq_ok_iff.2 ⟨h, rfl⟩⟩⟩

/- Setting a forward link keeps the size. -/
theorem size_of_setNextLink
    {m n : Memory}
    {node next : Nat}
    (h : m.setNextLink node next = .ok n) :
    n.size = m.size :=
  size_of_storeWord h

/- Setting a back link keeps the size. -/
theorem size_of_setPreviousLink
    {m n : Memory}
    {node previous : Nat}
    (h : m.setPreviousLink node previous = .ok n) :
    n.size = m.size :=
  size_of_storeWord (setPreviousLink_eq_ok_iff.1 h).2

/- A forward link that was set is read back. -/
theorem nextLink_of_setNextLink_self
    {m n : Memory}
    {node next : Nat}
    (hNext : next < Word.limit)
    (h : m.setNextLink node next = .ok n) :
    n.nextLink node = .ok next :=
  loadWord_storeWord_self hNext h

/- A back link that was set is read back. -/
theorem previousLink_of_setPreviousLink_self
    {m n : Memory}
    {node previous : Nat}
    (hPrevious : previous < Word.limit)
    (h : m.setPreviousLink node previous = .ok n) :
    n.previousLink node = .ok previous := by
  rw [setPreviousLink_eq_ok_iff] at h
  rw [previousLink_eq_ok_iff]
  exact ⟨h.1, loadWord_storeWord_self hPrevious h.2⟩

/- A forward link of one node does not disturb another one. -/
theorem nextLink_of_setNextLink
    {m n : Memory}
    {node next x : Nat}
    (hApart : Apart x node)
    (h : m.setNextLink node next = .ok n) :
    n.nextLink x = m.nextLink x := by
  have hSizes := Word.sizes_eq
  unfold Apart at hApart
  exact loadWord_storeWord_of_disjoint (by omega) h

/- A forward link does not disturb back links. -/
theorem previousLink_of_setNextLink
    {m n : Memory}
    {node next x : Nat}
    (hApart : x = node ∨ Apart x node)
    (h : m.setNextLink node next = .ok n) :
    n.previousLink x = m.previousLink x := by
  have hSizes := Word.sizes_eq
  unfold Apart at hApart
  apply previousLink_congr
  exact loadWord_storeWord_of_disjoint (by omega) h

/- A back link does not disturb forward links. -/
theorem nextLink_of_setPreviousLink
    {m n : Memory}
    {node previous x : Nat}
    (hApart : x = node ∨ Apart x node)
    (h : m.setPreviousLink node previous = .ok n) :
    n.nextLink x = m.nextLink x := by
  have hSizes := Word.sizes_eq
  unfold Apart at hApart
  rw [setPreviousLink_eq_ok_iff] at h
  exact loadWord_storeWord_of_disjoint (by omega) h.2

/- A back link of one node does not disturb another one. -/
theorem previousLink_of_setPreviousLink
    {m n : Memory}
    {node previous x : Nat}
    (hApart : Apart x node)
    (h : m.setPreviousLink node previous = .ok n) :
    n.previousLink x = m.previousLink x := by
  have hSizes := Word.sizes_eq
  unfold Apart at hApart
  rw [setPreviousLink_eq_ok_iff] at h
  apply previousLink_congr
  exact loadWord_storeWord_of_disjoint (by omega) h.2

end Memory

end SegregatedFit
