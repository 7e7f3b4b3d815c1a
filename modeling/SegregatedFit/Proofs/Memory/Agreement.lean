import SegregatedFit.Block.Lemmas
import SegregatedFit.FreeList.Ring

/-
  Memories that agree on a stretch of bytes.

  What is read at a place depends on the bytes there alone,
  so it is read from every memory that agrees on them and is
  not smaller.  Every write leaves the bytes outside its
  words as they are.

  Key definitions include:
    * `Memory.Agrees`

  Key theorems include:
    * `Memory.loadWord_of_agrees`
    * `Memory.header_of_agrees`, `Memory.footer_of_agrees`
    * `Memory.byte_of_storeWord`, `Memory.byte_of_writeTags`
    * `Memory.exists_move`
-/

namespace SegregatedFit

namespace Memory

variable {m n k : Memory}

/- The bytes from `start` up to `stop` are the same. -/
def Agrees
    (m n : Memory)
    (start stop : Nat) : Prop :=
  ∀ i, start ≤ i → i < stop → n.byte i = m.byte i

/- Agreement holds on every part of a stretch. -/
theorem Agrees.mono
    {start stop start' stop' : Nat}
    (h : m.Agrees n start stop)
    (hStart : start ≤ start')
    (hStop : stop' ≤ stop) :
    m.Agrees n start' stop' := by
  intro i hi hi'
  exact h i (by omega) (by omega)

/- Agreement carries over from one memory to the next. -/
theorem Agrees.trans
    {start stop : Nat}
    (h : m.Agrees n start stop)
    (h' : n.Agrees k start stop) :
    m.Agrees k start stop := by
  intro i hi hi'
  rw [h' i hi hi', h i hi hi']

/- Every memory agrees with itself. -/
theorem Agrees.refl
    (m : Memory)
    (start stop : Nat) :
    m.Agrees m start stop := by
  intro i _ _
  rfl

------------------------------------------------------------
-- Reading
------------------------------------------------------------

/- A word is read wherever its eight bytes are the same. -/
theorem loadWord_of_agrees
    {offset value : Nat}
    (hSize : m.size ≤ n.size)
    (h : m.Agrees n offset (offset + wordSize))
    (hLoad : m.loadWord offset = .ok value) :
    n.loadWord offset = .ok value := by
  rw [loadWord_eq_ok_iff] at hLoad ⊢
  have hSlice :
      n.slice offset wordSize = m.slice offset wordSize :=
    slice_congr h
  rw [hSlice]
  exact ⟨Nat.le_trans hLoad.1 hSize, hLoad.2⟩

/- A tag is read wherever its word is the same. -/
theorem loadTag_of_agrees
    {offset : Nat}
    {tag : Tag}
    (hSize : m.size ≤ n.size)
    (h : m.Agrees n offset (offset + wordSize))
    (hLoad : m.loadTag offset = .ok tag) :
    n.loadTag offset = .ok tag := by
  rw [loadTag_eq_ok_iff] at hLoad ⊢
  rcases hLoad with ⟨word, hWord, hTag⟩
  exact ⟨word, loadWord_of_agrees hSize h hWord, hTag⟩

/- A header is read wherever the word in front is the same. -/
theorem header_of_agrees
    {bp : Nat}
    {tag : Tag}
    (hSize : m.size ≤ n.size)
    (h : m.Agrees n (bp - wordSize) bp)
    (hHeader : m.header bp = .ok tag) :
    n.header bp = .ok tag := by
  rw [header_eq_ok_iff] at hHeader ⊢
  refine ⟨hHeader.1, loadTag_of_agrees hSize ?_ hHeader.2⟩
  apply h.mono (Nat.le_refl _)
  exact Nat.le_of_eq (Nat.sub_add_cancel hHeader.1)

/- The footer of the block in front is read likewise. -/
theorem previousFooter_of_agrees
    {bp : Nat}
    {tag : Tag}
    (hSize : m.size ≤ n.size)
    (h : m.Agrees n (bp - doubleWord) (bp - wordSize))
    (hFooter : m.previousFooter bp = .ok tag) :
    n.previousFooter bp = .ok tag := by
  have hSizes := Word.sizes_eq
  rw [previousFooter_eq_ok_iff] at hFooter ⊢
  refine ⟨hFooter.1, loadTag_of_agrees hSize ?_ hFooter.2⟩
  have hLe := hFooter.1
  exact h.mono (by omega) (by omega)

/- A footer is read wherever both tags are the same. -/
theorem footer_of_agrees
    {bp : Nat}
    {header tag : Tag}
    (hSize : m.size ≤ n.size)
    (hHeader : m.header bp = .ok header)
    (hFront : m.Agrees n (bp - wordSize) bp)
    (hBack : m.Agrees n (bp + header.size - doubleWord)
      (bp + header.size - wordSize))
    (hFooter : m.footer bp = .ok tag) :
    n.footer bp = .ok tag := by
  rw [footer_eq_ok_iff] at hFooter ⊢
  rcases hFooter with ⟨header', hHeader', hWord, hTag⟩
  rw [hHeader] at hHeader'
  cases hHeader'
  refine ⟨header, ?_, hWord, ?_⟩
  · exact header_of_agrees hSize hFront hHeader
  · exact previousFooter_of_agrees hSize hBack hTag

/- A forward link is read wherever it is the same. -/
theorem nextLink_of_agrees
    {node next : Nat}
    (hSize : m.size ≤ n.size)
    (h : m.Agrees n node (node + doubleWord))
    (hNext : m.nextLink node = .ok next) :
    n.nextLink node = .ok next := by
  have hSizes := Word.sizes_eq
  apply loadWord_of_agrees hSize _ hNext
  exact h.mono (Nat.le_refl _) (by omega)

/- A back link is read wherever it is the same. -/
theorem previousLink_of_agrees
    {node previous : Nat}
    (hSize : m.size ≤ n.size)
    (h : m.Agrees n node (node + doubleWord))
    (hPrevious : m.previousLink node = .ok previous) :
    n.previousLink node = .ok previous := by
  have hSizes := Word.sizes_eq
  rw [previousLink_eq_ok_iff] at hPrevious ⊢
  refine ⟨hPrevious.1, ?_⟩
  apply loadWord_of_agrees hSize _ hPrevious.2
  exact h.mono (by omega) (by omega)

/- A word is loaded wherever there is one. -/
theorem exists_loadWord
    (m : Memory)
    (offset : Nat)
    (h : offset + wordSize ≤ m.size) :
    ∃ value, m.loadWord offset = .ok value :=
  ⟨_, loadWord_eq_ok_iff.2 ⟨h, rfl⟩⟩

/- A header is read wherever there is a word for it. -/
theorem exists_header
    (m : Memory)
    (bp : Nat)
    (hFront : wordSize ≤ bp)
    (hStart : bp ≤ m.size) :
    ∃ tag, m.header bp = .ok tag := by
  have hRoom : bp - wordSize + wordSize ≤ m.size := by
    omega
  rcases m.exists_loadWord _ hRoom with ⟨word, hWord⟩
  exact ⟨_, header_eq_ok_iff.2
    ⟨hFront, loadTag_eq_ok_iff.2 ⟨word, hWord, rfl⟩⟩⟩

/- A back link is read wherever there are two words. -/
theorem exists_previousLink
    (m : Memory)
    (node : Nat)
    (hRoom : node + doubleWord ≤ m.size)
    (hWord : node + wordSize < Word.limit) :
    ∃ previous, m.previousLink node = .ok previous := by
  have hSizes := Word.sizes_eq
  have hBack : node + wordSize + wordSize ≤ m.size := by
    omega
  rcases m.exists_loadWord _ hBack with
    ⟨previous, hPrevious⟩
  exact ⟨previous, previousLink_eq_ok_iff.2
    ⟨hWord, hPrevious⟩⟩

------------------------------------------------------------
-- Writing
------------------------------------------------------------

/- A word is stored wherever there is room for it. -/
theorem exists_storeWord
    (m : Memory)
    (offset value : Nat)
    (h : offset + wordSize ≤ m.size) :
    ∃ n, m.storeWord offset value = .ok n :=
  ⟨_, storeWord_eq_ok_iff.2 ⟨h, rfl⟩⟩

/- Storing a word keeps the bytes outside of it. -/
theorem byte_of_storeWord
    {offset value i : Nat}
    (h : m.storeWord offset value = .ok n)
    (hi : i < offset ∨ offset + wordSize ≤ i) :
    n.byte i = m.byte i := by
  rw [storeWord_eq_ok_iff] at h
  rw [h.2]
  apply byte_overwrite_of_outside
  rw [Word.length_toBytes]
  exact hi

/- Setting a forward link keeps the bytes outside of it. -/
theorem byte_of_setNextLink
    {node next i : Nat}
    (h : m.setNextLink node next = .ok n)
    (hi : i < node ∨ node + wordSize ≤ i) :
    n.byte i = m.byte i :=
  byte_of_storeWord h hi

/- Setting a back link keeps the bytes outside of it. -/
theorem byte_of_setPreviousLink
    {node previous i : Nat}
    (h : m.setPreviousLink node previous = .ok n)
    (hi : i < node + wordSize ∨ node + doubleWord ≤ i) :
    n.byte i = m.byte i := by
  have hSizes := Word.sizes_eq
  rw [setPreviousLink_eq_ok_iff] at h
  exact byte_of_storeWord h.2 (by omega)

/- Tags are written wherever there is room for both. -/
theorem exists_writeTags
    (m : Memory)
    (bp : Nat)
    (tag : Tag)
    (hFront : wordSize ≤ bp)
    (hBack : doubleWord ≤ bp + tag.size)
    (hWord : bp + tag.size < Word.limit)
    (hStart : bp ≤ m.size)
    (hStop : bp + tag.size ≤ m.size + wordSize) :
    ∃ n, m.writeTags bp tag = .ok n := by
  have hSizes := Word.sizes_eq
  have hFirst : bp - wordSize + wordSize ≤ m.size := by
    omega
  rcases m.exists_storeWord _ tag.pack hFirst with
    ⟨half, hHalf⟩
  have hHalfSize := size_of_storeWord hHalf
  have hLast :
      bp + tag.size - doubleWord + wordSize ≤ half.size := by
    omega
  rcases half.exists_storeWord _ tag.pack hLast with
    ⟨n, hn⟩
  refine ⟨n, ?_⟩
  rw [writeTags_eq_ok_iff]
  exact ⟨half, hFront, hHalf, hWord, hBack, hn⟩

/- Writing tags keeps the bytes outside of them. -/
theorem byte_of_writeTags
    {bp i : Nat}
    {tag : Tag}
    (h : m.writeTags bp tag = .ok n)
    (hFront : i + wordSize < bp ∨ bp ≤ i)
    (hBack : i + doubleWord < bp + tag.size ∨
      bp + tag.size ≤ i + wordSize) :
    n.byte i = m.byte i := by
  have hSizes := Word.sizes_eq
  rcases writeTags_eq_ok_iff.1 h with
    ⟨half, _, hHalf, _, _, hLast⟩
  rw [byte_of_storeWord hLast (by omega),
    byte_of_storeWord hHalf (by omega)]

------------------------------------------------------------
-- Moving
------------------------------------------------------------

/-
  Bytes are moved wherever both places lie in memory.  They
  arrive as they were, and the bytes outside of the target
  are kept.
-/
theorem exists_move
    (m : Memory)
    (source target length : Nat)
    (hSource : source + length ≤ m.size)
    (hTarget : target + length ≤ m.size) :
    ∃ n, m.move source target length = .ok n ∧
      n.size = m.size ∧
      (∀ i, i < length →
        n.byte (target + i) = m.byte (source + i)) ∧
      ∀ i, i < target ∨ target + length ≤ i →
        n.byte i = m.byte i := by
  have hLength := length_slice m source length
  have hLoad : m.load source length =
      .ok (m.slice source length) :=
    load_eq_ok_iff.2 ⟨hSource, rfl⟩
  have hStore : m.store target (m.slice source length) =
      .ok (m.overwrite target (m.slice source length)) :=
    store_eq_ok_iff.2 ⟨by rw [hLength]; exact hTarget, rfl⟩
  refine ⟨m.overwrite target (m.slice source length), ?_,
    size_overwrite _ _ _, ?_, ?_⟩
  · unfold move
    rw [Fault.bind_of_ok hLoad]
    exact hStore
  · intro i hi
    rw [byte_overwrite, hLength, if_pos (by omega),
      Nat.add_sub_cancel_left, List.getD_eq_getElem?_getD,
      List.getElem?_eq_getElem (by omega), Option.getD_some,
      getElem_slice]
  · intro i hi
    apply byte_overwrite_of_outside
    rw [hLength]
    exact hi

end Memory

end SegregatedFit
