import SegregatedFit.Error
import SegregatedFit.Memory.Basic

/-
  Regions: memory that a heap can be laid out in.

  A region begins at a base address and grows at its end
  only.  Its bytes come from a reservation of fixed capacity
  or from behind the program break.  The break is shared: if
  other code moves it, the next bytes no longer join the
  region.

  A schedule of refusals stands for whatever else may turn a
  growth down.

  Key definitions include:
    * `Region`
    * `Region.grow`
    * `Region.moveBreak`
-/

namespace SegregatedFit

------------------------------------------------------------
-- Regions
------------------------------------------------------------

/-
  Where the bytes of a region come from: a reservation with a
  capacity, or the program break, which stands at some
  address and refuses to move by `limit` bytes or more and
  to an address that is not a word.  The highest address is
  how a break says that it refused.
-/
inductive Source where
  | reservation (capacity : Nat)
  | programBreak (position limit : Nat)
  deriving DecidableEq, Repr

/- A growth that is turned down before the source is asked. -/
inductive Refusal where
  | outOfMemory
  | discontiguous
  deriving DecidableEq, Repr

/- The error that a refusal of `increment` bytes gives. -/
def Refusal.error
    (increment : Nat) :
    Refusal → Error
| outOfMemory => .outOfMemory increment
| discontiguous => .discontiguous

/-
  Memory at a base address, its source, the refusals of
  growths by their number, and how many growths were asked
  for so far.
-/
structure Region where
  memory : Memory
  base : Nat
  source : Source
  refusals : Nat → Option Refusal
  growths : Nat

namespace Region

/- The number of bytes. -/
def size
    (r : Region) : Nat :=
  r.memory.size

/- The address behind the last byte. -/
def stop
    (r : Region) : Nat :=
  r.base + r.size

/- The most bytes that a region may have, if that is fixed. -/
def capacity?
    (r : Region) : Option Nat :=
  match r.source with
  | .reservation capacity => some capacity
  | .programBreak _ _ => none

------------------------------------------------------------
-- Growth
------------------------------------------------------------

/- The program break moves by a signed word. -/
abbrev displacementLimit : Nat :=
  0x8000000000000000

/-
  Ask the source for `increment` more bytes.

  A reservation gives them within its capacity.  The program
  break moves first and is compared afterwards, so it stays
  moved when the new bytes do not join the region.
-/
def extend
    (r : Region)
    (increment : Nat) : Except Error Nat × Region :=
  match r.source with
  | .reservation capacity =>
      if r.size + increment ≤ capacity then
        (.ok r.size,
          { r with memory := r.memory.extend increment })
      else
        (.error (.outOfMemory increment), r)
  | .programBreak position limit =>
      if displacementLimit ≤ increment ∨ limit ≤ increment ∨
          Word.limit ≤ position + increment ∨
          position = Word.limit - 1 then
        (.error (.outOfMemory increment), r)
      else
        let source := .programBreak (position + increment) limit
        if position = r.stop then
          (.ok r.size,
            { r with
              memory := r.memory.extend increment,
              source := source })
        else
          (.error .discontiguous, { r with source := source })

/-
  Grow by `increment` zero bytes.  The answer is the offset
  of the first new byte, which is the size before.
-/
def grow
    (r : Region)
    (increment : Nat) : Except Error Nat × Region :=
  let counted := { r with growths := r.growths + 1 }
  match r.refusals r.growths with
  | some refusal => (.error (refusal.error increment), counted)
  | none => counted.extend increment

/-
  Let other code move the program break.  It may not end
  inside the region, and a reservation has no break to move.
-/
def moveBreak
    (r : Region)
    (displacement : Int) : Option Region :=
  match r.source with
  | .reservation _ => none
  | .programBreak position limit =>
      let moved : Int := position + displacement
      if (r.stop : Int) ≤ moved then
        some { r with
          source := .programBreak moved.toNat limit }
      else
        none

end Region

end SegregatedFit
