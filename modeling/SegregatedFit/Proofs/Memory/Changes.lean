import SegregatedFit.Proofs.Memory.Agreement

/-
  Which bytes a write changes.

  A write is known by the stretches of bytes that it may
  change.  All other bytes stay, and so does the size.  Writes
  in a row change no more than each of them may change.

  A word determines the bytes that spell it, so where a word
  reads as before, its bytes are those of before.

  Key definitions include:
    * `Memory.ChangesOnly`

  Key theorems include:
    * `Memory.ChangesOnly.trans`
    * `Memory.changesOnly_storeWord`
    * `Memory.changesOnly_writeTags`
    * `Memory.agrees_of_loadWord`
-/

namespace SegregatedFit

namespace Memory

variable {m n k : Memory}

------------------------------------------------------------
-- Stretches That Change
------------------------------------------------------------

/-
  Both memories have one size, and the same bytes outside the
  given stretches.  A stretch is an offset and a length.
-/
def ChangesOnly
    (m n : Memory)
    (stretches : List (Nat × Nat)) : Prop :=
  n.size = m.size ∧
    ∀ i,
      (∀ stretch ∈ stretches,
        i < stretch.1 ∨ stretch.1 + stretch.2 ≤ i) →
      n.byte i = m.byte i

/- Two changes in a row change what either of them may change. -/
theorem ChangesOnly.trans
    {stretches others : List (Nat × Nat)}
    (h : m.ChangesOnly n stretches)
    (h' : n.ChangesOnly k others) :
    m.ChangesOnly k (stretches ++ others) := by
  refine ⟨h'.1.trans h.1, ?_⟩
  intro i hi
  rw [h'.2 i (fun stretch hStretch =>
      hi stretch (List.mem_append_right _ hStretch)),
    h.2 i (fun stretch hStretch =>
      hi stretch (List.mem_append_left _ hStretch))]

/- A stretch that lies in another one need not be named. -/
theorem ChangesOnly.cover
    {stretches others : List (Nat × Nat)}
    (h : m.ChangesOnly n stretches)
    (hCover : ∀ inner ∈ stretches, ∃ outer ∈ others,
      outer.1 ≤ inner.1 ∧
        inner.1 + inner.2 ≤ outer.1 + outer.2) :
    m.ChangesOnly n others := by
  refine ⟨h.1, fun i hi => h.2 i ?_⟩
  intro inner hInner
  rcases hCover inner hInner with
    ⟨outer, hOuter, hStart, hStop⟩
  have hOff := hi outer hOuter
  omega

/- Stretches whose bytes are the same after all need not be named. -/
theorem ChangesOnly.restored
    {stretches others : List (Nat × Nat)}
    (h : m.ChangesOnly n (stretches ++ others))
    (hSame : ∀ stretch ∈ others,
      m.Agrees n stretch.1 (stretch.1 + stretch.2)) :
    m.ChangesOnly n stretches := by
  refine ⟨h.1, fun i hi => ?_⟩
  by_cases hIn : ∃ stretch ∈ others,
      stretch.1 ≤ i ∧ i < stretch.1 + stretch.2
  · rcases hIn with ⟨stretch, hStretch, hStart, hStop⟩
    exact hSame stretch hStretch i hStart hStop
  · apply h.2 i
    intro stretch hStretch
    rcases List.mem_append.1 hStretch with hNamed | hOther
    · exact hi stretch hNamed
    · rcases Nat.lt_or_ge i stretch.1 with hBefore | hStart
      · exact Or.inl hBefore
      · apply Or.inr
        apply Nat.le_of_not_lt
        intro hStop
        exact hIn ⟨stretch, hOther, hStart, hStop⟩

/- A stretch apart from all that change is the same. -/
theorem ChangesOnly.agrees
    {stretches : List (Nat × Nat)}
    {start stop : Nat}
    (h : m.ChangesOnly n stretches)
    (hApart : ∀ stretch ∈ stretches,
      stop ≤ stretch.1 ∨ stretch.1 + stretch.2 ≤ start) :
    m.Agrees n start stop := by
  intro i hi hi'
  apply h.2 i
  intro stretch hStretch
  have hOff := hApart stretch hStretch
  omega

------------------------------------------------------------
-- Single Writes
------------------------------------------------------------

/- A stored word changes its own bytes. -/
theorem changesOnly_storeWord
    {offset value : Nat}
    (h : m.storeWord offset value = .ok n) :
    m.ChangesOnly n [(offset, wordSize)] := by
  refine ⟨size_of_storeWord h, fun i hi => ?_⟩
  exact byte_of_storeWord h (hi _ List.mem_cons_self)

/- A back link is the second word of its node. -/
theorem changesOnly_setPreviousLink
    {node previous : Nat}
    (h : m.setPreviousLink node previous = .ok n) :
    m.ChangesOnly n [(node + wordSize, wordSize)] :=
  changesOnly_storeWord (setPreviousLink_eq_ok_iff.1 h).2

/- Tags are the words at both ends of their block. -/
theorem changesOnly_writeTags
    {bp : Nat}
    {tag : Tag}
    (h : m.writeTags bp tag = .ok n) :
    m.ChangesOnly n
      [(bp - wordSize, wordSize),
        (bp + tag.size - doubleWord, wordSize)] := by
  rcases writeTags_eq_ok_iff.1 h with
    ⟨half, _, hFront, _, _, hBack⟩
  exact (changesOnly_storeWord hFront).trans
    (changesOnly_storeWord hBack)

------------------------------------------------------------
-- Words and Their Bytes
------------------------------------------------------------

/- Where the same word is loaded, the bytes are the same. -/
theorem agrees_of_loadWord
    {offset value : Nat}
    (h : m.loadWord offset = .ok value)
    (h' : n.loadWord offset = .ok value) :
    m.Agrees n offset (offset + wordSize) := by
  rw [loadWord_eq_ok_iff] at h h'
  -- Eight bytes are the lowest bytes of the number they spell.
  have hSlice : n.slice offset wordSize =
      m.slice offset wordSize := by
    have hSpelled := Word.lowBytes_ofBytes
      (m.slice offset wordSize)
    have hSpelled' := Word.lowBytes_ofBytes
      (n.slice offset wordSize)
    rw [length_slice, ← h.2] at hSpelled
    rw [length_slice, ← h'.2] at hSpelled'
    exact hSpelled'.symm.trans hSpelled
  intro i hi hi'
  have hByte := congrArg (fun bs => bs[i - offset]?) hSlice
  have hIn : i - offset < wordSize := by
    omega
  simpa [slice, hIn, Nat.add_sub_cancel' hi] using hByte

end Memory

end SegregatedFit
