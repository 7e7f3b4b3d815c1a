import SegregatedFit.Block.Tag
import SegregatedFit.Text.Hexadecimal

/-
  The ways in which a heap can be broken, and their wording.
-/

namespace SegregatedFit

/-
  A broken heap invariant.  Offsets are those of blocks,
  except that a broken link is told by the node that holds
  it.
-/
inductive Violation where
  | notInitialized
  | badPrologue (header footer : Tag)
  | badEpilogue (offset : Nat) (tag : Tag)
  | misaligned (offset : Nat)
  | tagMismatch (offset : Nat) (header footer : Tag)
  | outOfBounds (offset : Nat)
  | freeBlockNotListed (offset size sizeClass : Nat)
  | wrongClass (offset expected found : Nat)
  | allocatedBlockListed (offset sizeClass : Nat)
  | uncoalesced (first second : Nat)
  | brokenLink (sizeClass offset : Nat)
  | listedTwice (sizeClass offset : Nat)
  | listedNotABlock (sizeClass offset : Nat)
  | countMismatch (listed walked : Nat)
  deriving DecidableEq, Repr

namespace Violation

/- The wording of a violation. -/
def message :
    Violation → String
| notInitialized =>
    "heap is not initialized"
| badPrologue header footer =>
    "bad prologue: header [" ++ header.toText ++
      "] footer [" ++ footer.toText ++ "]"
| badEpilogue offset tag =>
    "bad epilogue header [" ++ tag.toText ++ "] at " ++
      Text.hexadecimal offset
| misaligned offset =>
    Text.hexadecimal offset ++ " is not double-word aligned"
| tagMismatch offset header footer =>
    "header [" ++ header.toText ++
      "] does not match footer [" ++ footer.toText ++
      "] at " ++ Text.hexadecimal offset
| outOfBounds offset =>
    "block at " ++ Text.hexadecimal offset ++
      " runs past the end of the heap"
| freeBlockNotListed offset size sizeClass =>
    "free block " ++ Text.hexadecimal offset ++
      " of size " ++ toString size ++
      " is not in free list " ++ toString sizeClass
| wrongClass offset expected found =>
    "free block " ++ Text.hexadecimal offset ++
      " is in free list " ++ toString found ++
      " instead of " ++ toString expected
| allocatedBlockListed offset sizeClass =>
    "allocated block " ++ Text.hexadecimal offset ++
      " is in free list " ++ toString sizeClass
| uncoalesced first second =>
    "adjacent free blocks " ++ Text.hexadecimal first ++
      " and " ++ Text.hexadecimal second ++
      " escaped coalescing"
| brokenLink sizeClass offset =>
    "broken link at " ++ Text.hexadecimal offset ++
      " in free list " ++ toString sizeClass
| listedTwice sizeClass offset =>
    Text.hexadecimal offset ++
      " appears twice in the free lists (list " ++
      toString sizeClass ++ ")"
| listedNotABlock sizeClass offset =>
    "free list " ++ toString sizeClass ++ " holds " ++
      Text.hexadecimal offset ++ ", which is not a block"
| countMismatch listed walked =>
    "free lists hold " ++ toString listed ++
      " blocks but the heap has " ++ toString walked ++
      " free blocks"

end Violation

end SegregatedFit
