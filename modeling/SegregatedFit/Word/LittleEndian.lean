import SegregatedFit.Word.Basic

/-
  Words as bytes, the least significant byte first.

  `Word.toBytes` writes the eight bytes of a word and
  `Word.ofBytes` reads a number back from bytes of any
  length.  The two undo each other: `Word.ofBytes_toBytes`.
-/

namespace SegregatedFit

namespace Word

------------------------------------------------------------
-- Reading and Writing Bytes
------------------------------------------------------------

/- The number whose bytes are given, least significant first. -/
def ofBytes :
    List UInt8 → Nat
| [] => 0
| b :: bs => b.toNat + 256 * ofBytes bs

/- The lowest `n` bytes of a number, least significant first. -/
def lowBytes :
    Nat → Nat → List UInt8
| 0, _ => []
| n + 1, a => UInt8.ofNat a :: lowBytes n (a / 256)

/- How many numbers can be told apart by `n` bytes. -/
def byteLimit :
    Nat → Nat
| 0 => 1
| n + 1 => 256 * byteLimit n

/- The bytes of a word. -/
def toBytes
    (a : Nat) : List UInt8 :=
  lowBytes wordSize a

------------------------------------------------------------
-- Lengths
------------------------------------------------------------

/- There are as many low bytes as were asked for. -/
theorem length_lowBytes
    (n a : Nat) :
    (lowBytes n a).length = n := by
  induction n generalizing a with
  | zero => rfl
  | succ n ih => simp [lowBytes, ih]

/- A word takes eight bytes. -/
theorem length_toBytes
    (a : Nat) :
    (toBytes a).length = wordSize :=
  length_lowBytes wordSize a

------------------------------------------------------------
-- Round Trip
------------------------------------------------------------

/- Low bytes read back as the number modulo their limit. -/
theorem ofBytes_lowBytes
    (n a : Nat) :
    ofBytes (lowBytes n a) = a % byteLimit n := by
  induction n generalizing a with
  | zero => simp [ofBytes, lowBytes, byteLimit, Nat.mod_one]
  | succ n ih =>
      have hsplit : a % byteLimit (n + 1) =
          a % 256 + 256 * (a / 256 % byteLimit n) := by
        rw [byteLimit, Nat.mod_mul]
      rw [lowBytes, ofBytes, ih, hsplit, UInt8.toNat_ofNat']

/- The bytes of a word read back as the word. -/
theorem ofBytes_toBytes
    {a : Nat}
    (h : a < limit) :
    ofBytes (toBytes a) = a := by
  have hLimit : byteLimit wordSize = limit := by
    decide
  rw [toBytes, ofBytes_lowBytes, hLimit]
  exact Nat.mod_eq_of_lt h

/- Bytes are recovered from the number they spell. -/
theorem lowBytes_ofBytes
    (bs : List UInt8) :
    lowBytes bs.length (ofBytes bs) = bs := by
  induction bs with
  | nil => rfl
  | cons b bs ih =>
      have hb : b.toNat < 256 := b.toNat_lt
      have hlow : UInt8.ofNat (b.toNat + 256 * ofBytes bs) = b := by
        apply UInt8.toNat_inj.1
        rw [UInt8.toNat_ofNat']
        omega
      have hhigh : (b.toNat + 256 * ofBytes bs) / 256 = ofBytes bs := by
        omega
      rw [ofBytes, List.length_cons, lowBytes, hlow, hhigh, ih]

end Word

end SegregatedFit
