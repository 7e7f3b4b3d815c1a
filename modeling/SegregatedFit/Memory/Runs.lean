import SegregatedFit.Memory.Basic

/-
  Runs of equal bytes, a short form for long stretches of
  memory.

  `Memory.runs` lists the longest runs of a stretch in order.
  Writing every run out gives the stretch back:
  `Memory.flatten_runs`.
-/

namespace SegregatedFit

/- A byte and how often it stands in a row. -/
structure Run where
  count : Nat
  value : UInt8
  deriving DecidableEq, Repr

namespace Run

/- The bytes of a run. -/
def toList
    (r : Run) : List UInt8 :=
  List.replicate r.count r.value

/- The bytes of several runs. -/
def flatten
    (rs : List Run) : List UInt8 :=
  rs.flatMap toList

/-
  Put a byte in front of runs that are listed from the last
  one to the first one: it lengthens the run at hand or
  begins a new one.
-/
def push
    (b : UInt8) :
    List Run → List Run
| [] => [{ count := 1, value := b }]
| r :: rs =>
    if r.value = b then
      { count := r.count + 1, value := b } :: rs
    else
      { count := 1, value := b } :: r :: rs

/- A pushed byte stands behind all others. -/
theorem flatten_reverse_push
    (b : UInt8)
    (rs : List Run) :
    flatten (push b rs).reverse =
      flatten rs.reverse ++ [b] := by
  cases rs with
  | nil => simp [push, flatten, toList]
  | cons r rs =>
      by_cases h : r.value = b
      · subst h
        simp [push, flatten, toList, List.replicate_succ']
      · simp [push, h, flatten, toList]

end Run

namespace Memory

/-
  The runs of `length` bytes from an offset on, in front of
  the earlier runs, listed from the last one to the first one.
-/
def runsFrom
    (m : Memory) :
    Nat → Nat → List Run → List Run
| 0, _, rs => rs
| n + 1, offset, rs =>
    runsFrom m n (offset + 1) (Run.push (m.byte offset) rs)

/- The longest runs of the `length` bytes from `start` on. -/
def runs
    (m : Memory)
    (start length : Nat) : List Run :=
  (m.runsFrom length start []).reverse

/- Runs collected so far stay in front of those that follow. -/
theorem flatten_runsFrom
    (m : Memory)
    (length start : Nat)
    (rs : List Run) :
    Run.flatten (m.runsFrom length start rs).reverse =
      Run.flatten rs.reverse ++ m.slice start length := by
  induction length generalizing start rs with
  | zero => simp [runsFrom, slice]
  | succ n ih =>
      rw [runsFrom, ih, Run.flatten_reverse_push]
      simp [slice, List.range'_succ]

/- The runs of a stretch spell the stretch. -/
theorem flatten_runs
    (m : Memory)
    (start length : Nat) :
    Run.flatten (m.runs start length) =
      m.slice start length := by
  rw [runs, flatten_runsFrom]
  simp [Run.flatten]

end Memory

end SegregatedFit
