import SegregatedFit.Region.Host

/-
  Regions in the address space of a process.

  The bytes of a region stand in the address space from its
  base on.  A reservation is zero before it is used, and a
  growth only uncovers more of it.  Behind the program break
  there may be anything, so a growth clears what it takes.

  Other code writes elsewhere, and it moves the program break
  up and down.  What it gets by moving the break up it holds
  until it moves the break down again.

  Key definitions include:
    * `Process`
    * `Process.bytes`
    * `Process.grow`
    * `Process.Act`, `Process.act`
    * `Process.run`
-/

namespace SegregatedFit

------------------------------------------------------------
-- Address Spaces
------------------------------------------------------------

/- A byte for each address. -/
abbrev AddressSpace :=
  Nat → UInt8

/- Put bytes at an address and the addresses behind it. -/
def AddressSpace.put
    (space : AddressSpace)
    (start : Nat)
    (bytes : List UInt8) : AddressSpace :=
  fun address =>
    if start ≤ address ∧ address < start + bytes.length then
      bytes.getD (address - start) 0
    else
      space address

/-
  The address behind the last one that is kept for a region:
  all of a reservation, but nothing above the last byte of a
  region at the program break.
-/
def Region.reach
    (r : Region) : Nat :=
  match r.source with
  | .reservation capacity => r.base + capacity
  | .programBreak _ _ => r.stop

------------------------------------------------------------
-- Processes
------------------------------------------------------------

/-
  A region, the address space that it is part of, and the
  addresses that other code got from the program break and
  did not give back.
-/
structure Process where
  region : Region
  space : AddressSpace
  held : Nat → Prop

namespace Process

/- The bytes of the region, as the address space has them. -/
def bytes
    (p : Process) : List UInt8 :=
  (List.range' p.region.base p.region.size).map p.space

/-
  Let the region grow.  Bytes from behind the program break
  are cleared, and those of a reservation are taken as they
  are.
-/
def grow
    (p : Process)
    (increment : Nat) : Except Error Nat × Process :=
  match p.region.grow increment with
  | (.error error, region) =>
      (.error error, { p with region := region })
  | (.ok offset, region) =>
      let space :=
        match region.source with
        | .reservation _ => p.space
        | .programBreak _ _ =>
            p.space.put (region.base + offset)
              (List.replicate increment 0)
      (.ok offset, { p with region := region, space := space })

/- Write bytes into the region. -/
def write
    (p : Process)
    (offset : Nat)
    (bytes : List UInt8) : Except Fault Process := do
  let m ← p.region.memory.store offset bytes
  return { p with
    region := { p.region with memory := m },
    space := p.space.put (p.region.base + offset) bytes }

/-
  Let other code move the program break.  It gets what the
  break moves over on its way up, and it gives back all that
  the break leaves above on its way down.
-/
def moveBreak
    (p : Process)
    (displacement : Int) : Option Process :=
  match p.region.source with
  | .reservation _ => none
  | .programBreak position _ => do
      let region ← p.region.moveBreak displacement
      let moved := (position + displacement).toNat
      return { p with
        region := region,
        held := fun address =>
          address < moved ∧
            (p.held address ∨ position ≤ address) }

/- Let other code write a byte that is not kept for the region. -/
def disturb
    (p : Process)
    (address : Nat)
    (byte : UInt8) : Option Process :=
  if address < p.region.base ∨ p.region.reach ≤ address then
    some { p with space := p.space.put address [byte] }
  else
    none

------------------------------------------------------------
-- Runs
------------------------------------------------------------

/- What may happen next in a process. -/
inductive Act where
  | grow (increment : Nat)
  | write (offset : Nat) (bytes : List UInt8)
  | moveBreak (displacement : Int)
  | disturb (address : Nat) (byte : UInt8)
  deriving DecidableEq, Repr

/- The process after an act, if the act is possible. -/
def act
    (p : Process) :
    Act → Option Process
| .grow increment => some (p.grow increment).2
| .write offset bytes => (p.write offset bytes).toOption
| .moveBreak displacement => p.moveBreak displacement
| .disturb address byte => p.disturb address byte

/- The process after some acts, if they are all possible. -/
def run
    (p : Process)
    (acts : List Act) : Option Process :=
  acts.foldlM act p

end Process

end SegregatedFit
