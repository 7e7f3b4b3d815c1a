import SegregatedFit.Block.Basic

/-
  The chain of blocks in memory.

  From a block on, the sizes in the headers lead from block to
  block up to a header of size zero.  `Memory.chain` follows
  them over arbitrary bytes, so it also tells how the chain
  ends.  `Memory.Chained` states that given blocks fill a
  stretch of memory, and the walk finds them:
  `Memory.chainFrom_of_chained`.
-/

namespace SegregatedFit

/- A block of the chain with both of its tags. -/
structure ChainBlock where
  offset : Nat
  header : Tag
  footer : Tag
  deriving DecidableEq, Repr

/-
  How a chain ends: at a header of size zero, or at a block
  that does not lie in memory.
-/
inductive ChainEnd where
  | sizeZero (offset : Nat) (header : Tag)
  | outOfBounds (offset : Nat)
  deriving DecidableEq, Repr

/- The blocks of a chain and its end. -/
structure Chain where
  blocks : List ChainBlock
  stop : ChainEnd
  deriving DecidableEq, Repr

namespace Memory

/-
  The most blocks that a walk needs to meet.  Blocks take two
  words at least.
-/
def blockBound
    (m : Memory) : Nat :=
  m.size / doubleWord + 1

/- The chain from `bp` on, over at most `steps` blocks. -/
def chainFrom
    (m : Memory) :
    Nat → Nat → Except Fault Chain
| 0, bp =>
    .ok { blocks := [], stop := .outOfBounds bp }
| steps + 1, bp =>
    if m.size < bp then
      .ok { blocks := [], stop := .outOfBounds bp }
    else do
      let header ← m.header bp
      if header.size = 0 then
        return { blocks := [], stop := .sizeZero bp header }
      else if Word.limit ≤ bp + header.size ∨
          m.size < bp + header.size - wordSize then
        return { blocks := [], stop := .outOfBounds bp }
      else
        let footer ← m.footer bp
        let rest ← chainFrom m steps (bp + header.size)
        return {
          blocks :=
            { offset := bp, header := header, footer := footer } ::
              rest.blocks,
          stop := rest.stop }

/- The chain from `bp` on. -/
def chain
    (m : Memory)
    (bp : Nat) : Except Fault Chain :=
  m.chainFrom (m.blockBound + 1) bp

------------------------------------------------------------
-- Stretches of Blocks
------------------------------------------------------------

/- The given blocks follow each other from `start` to `stop`. -/
def Chained
    (m : Memory) :
    Nat → List ChainBlock → Nat → Prop
| start, [], stop => start = stop
| start, block :: blocks, stop =>
    block.offset = start ∧
      m.header start = .ok block.header ∧
      m.footer start = .ok block.footer ∧
      block.header.size ≠ 0 ∧
      Chained m (start + block.header.size) blocks stop

/- A stretch of blocks does not end before it starts. -/
theorem Chained.le
    {m : Memory}
    {start stop : Nat}
    {blocks : List ChainBlock}
    (h : m.Chained start blocks stop) :
    start ≤ stop := by
  induction blocks generalizing start with
  | nil => exact Nat.le_of_eq h
  | cons block blocks ih =>
      rcases h with ⟨_, _, _, _, hRest⟩
      have hLe := ih hRest
      omega

/- A stretch of blocks is cut in two at any of them. -/
theorem chained_append_iff
    {m : Memory}
    {start stop : Nat}
    {front back : List ChainBlock} :
    m.Chained start (front ++ back) stop ↔
      ∃ middle, m.Chained start front middle ∧
        m.Chained middle back stop := by
  induction front generalizing start with
  | nil =>
      constructor
      · intro h
        exact ⟨start, rfl, h⟩
      · rintro ⟨middle, hFront, hBack⟩
        cases hFront
        exact hBack
  | cons block blocks ih =>
      simp only [List.cons_append, Chained]
      rw [ih]
      constructor
      · rintro ⟨h₁, h₂, h₃, h₄, middle, hFront, hBack⟩
        exact ⟨middle, ⟨h₁, h₂, h₃, h₄, hFront⟩, hBack⟩
      · rintro ⟨middle, ⟨h₁, h₂, h₃, h₄, hFront⟩, hBack⟩
        exact ⟨h₁, h₂, h₃, h₄, middle, hFront, hBack⟩

/-
  A walk finds the blocks of a stretch that fills the memory
  up to its end.
-/
theorem chainFrom_of_chained
    {m : Memory}
    {steps start : Nat}
    {blocks : List ChainBlock}
    {last : Tag}
    (hWord : m.size < Word.limit)
    (hSteps : blocks.length < steps)
    (h : m.Chained start blocks m.size)
    (hLast : m.header m.size = .ok last)
    (hZero : last.size = 0) :
    m.chainFrom steps start =
      .ok { blocks := blocks, stop := .sizeZero m.size last } := by
  induction blocks generalizing steps start with
  | nil =>
      cases h
      cases steps with
      | zero => cases hSteps
      | succ steps =>
          rw [chainFrom, if_neg (Nat.lt_irrefl m.size),
            Fault.bind_of_ok hLast, if_pos hZero]
          rfl
  | cons block blocks ih =>
      rcases h with ⟨rfl, hHeader, hFooter, hSize, hRest⟩
      have hLe := hRest.le
      cases steps with
      | zero => cases hSteps
      | succ steps =>
          have hTail := ih (Nat.lt_of_succ_lt_succ hSteps) hRest
          rw [chainFrom, if_neg (by omega),
            Fault.bind_of_ok hHeader, if_neg hSize,
            if_neg (by omega), Fault.bind_of_ok hFooter,
            Fault.bind_of_ok hTail]
          rfl

end Memory

end SegregatedFit
