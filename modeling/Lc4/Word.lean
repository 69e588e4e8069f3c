/-!
# Words and their bit fields

A word is 16 bits. This module holds the masks and extensions that all operand fields are made
of. A field length or extension width of 16 or more leaves a word as it is; a width of 0 has no
sign bit, so a signed extension from it also leaves the word as it is.
-/
namespace Lc4

abbrev Word := BitVec 16

/-- How the bits of a field are read as a number. -/
inductive Signedness
  | signed
  | unsigned
deriving DecidableEq

namespace Signedness

def value {n : Nat} : Signedness → BitVec n → Int
  | signed, x => x.toInt
  | unsigned, x => x.toNat

end Signedness

namespace Word

/-- The bits at and above position `bits`. -/
def highMask (bits : Nat) : Word :=
  if 16 ≤ bits then 0 else BitVec.allOnes 16 <<< bits

/-- The low `bits` bits, the highest of them copied into every bit above. -/
def extendSigned (w : Word) (bits : Nat) : Word :=
  if bits = 0 ∨ 16 ≤ bits then w
  else if w.getLsbD (bits - 1) then w ||| highMask bits
  else w &&& ~~~highMask bits

/-- The low `bits` bits, with zeros above. -/
def extendUnsigned (w : Word) (bits : Nat) : Word :=
  w &&& ~~~highMask bits

/-- The `len` bits from position `lo` up, moved down to position 0. -/
def field (w : Word) (lo len : Nat) : Word :=
  extendUnsigned (w >>> lo) len

def signedField (w : Word) (lo len : Nat) : Int :=
  (extendSigned (field w lo len) len).toInt

def bit (w : Word) (i : Nat) : Bool :=
  w.getLsbD i

/-- A bare field, put into a word with its lowest bit at position `lo`. -/
def place {n : Nat} (x : BitVec n) (lo : Nat) : Word :=
  x.setWidth 16 <<< lo

theorem getElem_place {n : Nat} (x : BitVec n) (lo i : Nat) (h : i < 16) :
    (place x lo)[i] = (decide (lo ≤ i) && x.getLsbD (i - lo)) := by
  by_cases hlo : i < lo
  · have : ¬ lo ≤ i := by omega
    simp [place, hlo, this]
  · have : lo ≤ i := by omega
    simp [place, hlo, this]

theorem highMask_of_le {bits : Nat} (h : 16 ≤ bits) : highMask bits = 0 := by
  simp [highMask, h]

theorem extendUnsigned_of_le {bits : Nat} (h : 16 ≤ bits) (w : Word) :
    extendUnsigned w bits = w := by
  rw [extendUnsigned, highMask_of_le h]
  exact BitVec.and_allOnes

theorem extendSigned_of_le {bits : Nat} (h : 16 ≤ bits) (w : Word) :
    extendSigned w bits = w := by
  simp [extendSigned, h]

@[simp] theorem extendSigned_zero (w : Word) : extendSigned w 0 = w := by
  simp [extendSigned]

end Word

end Lc4
