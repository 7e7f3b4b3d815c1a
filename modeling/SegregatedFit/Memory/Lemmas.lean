import SegregatedFit.Memory.Basic

/-
  What each memory operation does to the size and to the
  single bytes.

  A memory is determined by its size and its bytes
  (`Memory.ext_byte`), so these statements say all there is
  to say about an operation:
    * `Memory.size_overwrite`, `Memory.byte_overwrite`
    * `Memory.size_extend`, `Memory.byte_extend`
    * `Memory.load_eq_ok_iff`, `Memory.store_eq_ok_iff`
    * `Memory.loadWord_storeWord_self`
    * `Memory.loadWord_storeWord_of_disjoint`
-/

namespace SegregatedFit

namespace Memory

------------------------------------------------------------
-- The Byte View
------------------------------------------------------------

/- Outside the memory every byte reads as zero. -/
theorem byte_of_size_le
    {m : Memory}
    {i : Nat}
    (h : m.size ≤ i) :
    m.byte i = 0 := by
  unfold byte
  exact dif_neg (Nat.not_lt.2 h)

/- A memory is determined by its size and its bytes. -/
@[ext]
theorem ext_byte
    {m n : Memory}
    (hSize : m.size = n.size)
    (hByte : ∀ i, i < m.size → m.byte i = n.byte i) :
    m = n := by
  rcases m with ⟨⟨as⟩⟩
  rcases n with ⟨⟨bs⟩⟩
  congr 2
  apply Array.ext hSize
  intro i hi hi'
  have hBytes := hByte i hi
  unfold byte at hBytes
  rw [dif_pos (show i < (ByteArray.mk as).size from hi),
    dif_pos (show i < (ByteArray.mk bs).size from hi')] at hBytes
  exact hBytes

/- A slice has the length asked for. -/
theorem length_slice
    (m : Memory)
    (start length : Nat) :
    (m.slice start length).length = length := by
  simp [slice]

/- The bytes of a slice are the bytes of the memory. -/
theorem getElem_slice
    (m : Memory)
    {start length i : Nat}
    (h : i < (m.slice start length).length) :
    (m.slice start length)[i] = m.byte (start + i) := by
  simp [slice]

/- Slices are equal if their bytes are, wherever they begin. -/
theorem slice_eq_slice
    {m n : Memory}
    {start start' length : Nat}
    (h : ∀ i, i < length →
      m.byte (start + i) = n.byte (start' + i)) :
    m.slice start length = n.slice start' length := by
  apply List.ext_getElem
  · rw [length_slice, length_slice]
  · intro i hi hi'
    rw [getElem_slice, getElem_slice]
    rw [length_slice] at hi
    exact h i hi

/- Equal bytes give equal slices. -/
theorem slice_congr
    {m n : Memory}
    {start length : Nat}
    (h : ∀ i, start ≤ i → i < start + length →
      m.byte i = n.byte i) :
    m.slice start length = n.slice start length :=
  slice_eq_slice (fun i hi => h (start + i)
    (Nat.le_add_right start i) (Nat.add_lt_add_left hi start))

------------------------------------------------------------
-- Overwriting
------------------------------------------------------------

/- Setting one byte keeps the size. -/
private theorem size_set
    (bytes : ByteArray)
    (i : Nat)
    (b : UInt8) :
    (Memory.mk (bytes.set! i b)).size = (Memory.mk bytes).size := by
  rcases bytes with ⟨as⟩
  change (as.setIfInBounds i b).size = as.size
  exact Array.size_setIfInBounds

/- Setting one byte changes that byte alone. -/
private theorem byte_set
    (bytes : ByteArray)
    (i j : Nat)
    (b : UInt8) :
    (Memory.mk (bytes.set! i b)).byte j =
      if i = j ∧ j < bytes.size then
        b
      else
        (Memory.mk bytes).byte j := by
  rcases bytes with ⟨as⟩
  have hSize : (as.setIfInBounds i b).size = as.size :=
    Array.size_setIfInBounds
  unfold byte
  by_cases hj : j < as.size
  · have hj' : j < (as.setIfInBounds i b).size := by
      omega
    rw [dif_pos (show j < (ByteArray.mk as).size from hj),
      dif_pos (show j < ((ByteArray.mk as).set! i b).size from hj')]
    change (as.setIfInBounds i b)[j] = _
    rw [Array.getElem_setIfInBounds hj]
    by_cases hij : i = j
    · rw [if_pos hij, if_pos ⟨hij, hj⟩]
    · rw [if_neg hij, if_neg (fun h => hij h.1)]
      rfl
  · have hj' : ¬ j < (as.setIfInBounds i b).size := by
      omega
    rw [dif_neg (show ¬ j < (ByteArray.mk as).size from hj),
      dif_neg (show ¬ j < ((ByteArray.mk as).set! i b).size from hj'),
      if_neg (fun h => hj h.2)]

/- Overwriting keeps the size. -/
theorem size_overwrite
    (m : Memory)
    (start : Nat)
    (bs : List UInt8) :
    (m.overwrite start bs).size = m.size := by
  induction bs generalizing m start with
  | nil => rfl
  | cons b bs ih =>
      rw [overwrite, ih]
      exact size_set m.bytes start b

/- Overwriting replaces exactly the bytes it is given. -/
theorem byte_overwrite
    (m : Memory)
    (start i : Nat)
    (bs : List UInt8) :
    (m.overwrite start bs).byte i =
      if start ≤ i ∧ i < start + bs.length ∧ i < m.size then
        bs.getD (i - start) 0
      else
        m.byte i := by
  induction bs generalizing m start with
  | nil =>
      rw [overwrite, if_neg]
      intro h
      have := h.2.1
      simp at this
      omega
  | cons b bs ih =>
      have hSize := size_set m.bytes start b
      have hRest := ih (Memory.mk (m.bytes.set! start b)) (start + 1)
      rw [overwrite, hRest, hSize, byte_set, List.length_cons]
      change _ = if start ≤ i ∧ i < start + (bs.length + 1) ∧
        i < m.size then _ else _
      change (if start + 1 ≤ i ∧ i < start + 1 + bs.length ∧
          i < m.size then _ else
        if start = i ∧ i < m.size then b else m.byte i) = _
      by_cases hi : i < m.size
      · by_cases hs : start = i
        · subst hs
          rw [if_neg (by omega), if_pos ⟨rfl, hi⟩, if_pos (by omega)]
          simp
        · by_cases hin : start + 1 ≤ i ∧ i < start + 1 + bs.length
          · rw [if_pos ⟨hin.1, hin.2, hi⟩, if_pos (by omega)]
            have hsub : i - start = (i - (start + 1)) + 1 := by
              omega
            rw [hsub, List.getD_cons_succ]
          · rw [if_neg (by omega), if_neg (by omega),
              if_neg (by omega)]
      · rw [if_neg (by omega), if_neg (by omega),
          if_neg (by omega)]

/- Bytes outside the overwritten ones stay. -/
theorem byte_overwrite_of_outside
    {m : Memory}
    {start i : Nat}
    {bs : List UInt8}
    (h : i < start ∨ start + bs.length ≤ i) :
    (m.overwrite start bs).byte i = m.byte i := by
  rw [byte_overwrite, if_neg (by omega)]

/- A slice that meets no overwritten byte stays. -/
theorem slice_overwrite_of_disjoint
    {m : Memory}
    {start from' length : Nat}
    {bs : List UInt8}
    (h : from' + length ≤ start ∨
      start + bs.length ≤ from') :
    (m.overwrite start bs).slice from' length =
      m.slice from' length := by
  apply slice_congr
  intro i hi hi'
  apply byte_overwrite_of_outside
  omega

/- What was overwritten is what is read back. -/
theorem slice_overwrite_self
    {m : Memory}
    {start : Nat}
    {bs : List UInt8}
    (h : start + bs.length ≤ m.size) :
    (m.overwrite start bs).slice start bs.length = bs := by
  apply List.ext_getElem
  · exact length_slice _ _ _
  · intro i hi hi'
    rw [getElem_slice, byte_overwrite, if_pos (by omega)]
    rw [Nat.add_sub_cancel_left, ← List.getElem_eq_getD 0]

------------------------------------------------------------
-- Extending
------------------------------------------------------------

/- Extending adds as many bytes as it is asked for. -/
theorem size_extend
    (m : Memory)
    (n : Nat) :
    (m.extend n).size = m.size + n := by
  induction n generalizing m with
  | zero => rfl
  | succ n ih =>
      rw [extend, ih]
      rcases m with ⟨⟨as⟩⟩
      change (as.push 0).size + n = as.size + (n + 1)
      rw [Array.size_push]
      omega

/-
  Extending keeps every byte: the new ones are zero, as they
  were while they were outside.
-/
theorem byte_extend
    (m : Memory)
    (n i : Nat) :
    (m.extend n).byte i = m.byte i := by
  induction n generalizing m with
  | zero => rfl
  | succ n ih =>
      rw [extend, ih]
      rcases m with ⟨⟨as⟩⟩
      unfold byte
      by_cases hi : i < as.size
      · have hi' : i < (as.push 0).size := by
          rw [Array.size_push]
          omega
        rw [dif_pos (show i < (ByteArray.mk as).size from hi),
          dif_pos (show i < ((ByteArray.mk as).push 0).size from hi')]
        exact Array.getElem_push_lt hi
      · rw [dif_neg (show ¬ i < (ByteArray.mk as).size from hi)]
        split
        · rename_i hi'
          have hlt : i < (as.push 0).size := hi'
          have hEq : i = as.size := by
            rw [Array.size_push] at hlt
            omega
          subst hEq
          exact Array.getElem_push_eq
        · rfl

------------------------------------------------------------
-- Checked Access
------------------------------------------------------------

/- A load succeeds exactly inside the memory. -/
theorem load_eq_ok_iff
    {m : Memory}
    {start length : Nat}
    {bs : List UInt8} :
    m.load start length = .ok bs ↔
      start + length ≤ m.size ∧
        bs = m.slice start length := by
  unfold load
  split
  · rename_i h
    simp [h, eq_comm]
  · rename_i h
    simp [h]

/- A store succeeds exactly inside the memory. -/
theorem store_eq_ok_iff
    {m n : Memory}
    {start : Nat}
    {bs : List UInt8} :
    m.store start bs = .ok n ↔
      start + bs.length ≤ m.size ∧
        n = m.overwrite start bs := by
  unfold store
  split
  · rename_i h
    simp [h, eq_comm]
  · rename_i h
    simp [h]

/- A word is loaded exactly inside the memory. -/
theorem loadWord_eq_ok_iff
    {m : Memory}
    {offset value : Nat} :
    m.loadWord offset = .ok value ↔
      offset + wordSize ≤ m.size ∧
        value = Word.ofBytes (m.slice offset wordSize) := by
  unfold loadWord load
  split
  · rename_i h
    change Except.ok _ = _ ↔ _
    simp [h, eq_comm]
  · rename_i h
    change Except.error _ = _ ↔ _
    simp [h]

/- A word is stored exactly inside the memory. -/
theorem storeWord_eq_ok_iff
    {m n : Memory}
    {offset value : Nat} :
    m.storeWord offset value = .ok n ↔
      offset + wordSize ≤ m.size ∧
        n = m.overwrite offset (Word.toBytes value) := by
  unfold storeWord
  rw [store_eq_ok_iff, Word.length_toBytes]

/- Storing a word keeps the size. -/
theorem size_of_storeWord
    {m n : Memory}
    {offset value : Nat}
    (h : m.storeWord offset value = .ok n) :
    n.size = m.size := by
  rw [storeWord_eq_ok_iff] at h
  rw [h.2, size_overwrite]

/- A stored word is the word that is loaded. -/
theorem loadWord_storeWord_self
    {m n : Memory}
    {offset value : Nat}
    (hValue : value < Word.limit)
    (h : m.storeWord offset value = .ok n) :
    n.loadWord offset = .ok value := by
  have hSize := size_of_storeWord h
  rw [storeWord_eq_ok_iff] at h
  rw [loadWord_eq_ok_iff, hSize]
  refine ⟨h.1, ?_⟩
  have hLength := Word.length_toBytes value
  have hSlice :
      (m.overwrite offset (Word.toBytes value)).slice
          offset (Word.toBytes value).length =
        Word.toBytes value :=
    slice_overwrite_self (by rw [hLength]; exact h.1)
  rw [hLength] at hSlice
  rw [h.2, hSlice, Word.ofBytes_toBytes hValue]

/- Words apart from a stored word stay. -/
theorem loadWord_storeWord_of_disjoint
    {m n : Memory}
    {offset other value : Nat}
    (hApart : other + wordSize ≤ offset ∨
      offset + wordSize ≤ other)
    (h : m.storeWord offset value = .ok n) :
    n.loadWord other = m.loadWord other := by
  have hSize := size_of_storeWord h
  rw [storeWord_eq_ok_iff] at h
  have hSlice :
      n.slice other wordSize = m.slice other wordSize := by
    rw [h.2]
    apply slice_overwrite_of_disjoint
    rw [Word.length_toBytes]
    exact hApart
  unfold loadWord load
  rw [hSize, hSlice]

end Memory

end SegregatedFit
