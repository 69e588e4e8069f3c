import Lc4.Offset

/-!
# Operands in words

A word that fits a field is what its low bits give when they are extended again.
-/
namespace Lc4

namespace Word
variable {bits : Nat}

theorem getElem_highMask (bits : Nat) {i : Nat} (hi : i < 16) :
    (highMask bits)[i] = !decide (i < bits) := by
  unfold highMask
  by_cases wide : 16 ≤ bits
  · have below : i < bits := by omega
    simp [wide, below]
  · rw [if_neg wide, BitVec.getElem_shiftLeft, BitVec.getElem_allOnes, Bool.and_true]

theorem extendUnsigned_eq_setWidth (bits : Nat) (w : Word) :
    w.extendUnsigned bits = (w.setWidth bits).setWidth 16 := by
  unfold extendUnsigned
  ext i hi
  rw [BitVec.getElem_and, BitVec.getElem_not, getElem_highMask bits hi, Bool.not_not,
    BitVec.getElem_setWidth, BitVec.getLsbD_setWidth, BitVec.getLsbD_eq_getElem hi, Bool.and_comm]

/-- Masking or setting the high bits is the extension by the sign. -/
theorem extendSigned_eq_signExtend (some : bits ≠ 0) (fits : bits ≤ 16) (w : Word) :
    w.extendSigned bits = (w.setWidth bits).signExtend 16 := by
  rcases Nat.lt_or_ge bits 16 with narrow | wide
  · have range : ¬ (bits = 0 ∨ 16 ≤ bits) := by omega
    have sign : (w.setWidth bits).msb = w.getLsbD (bits - 1) := by
      have last : bits - 1 < bits := by omega
      simp [BitVec.msb_eq_getLsbD_last, last]
    unfold extendSigned
    rw [if_neg range]
    ext i hi
    rw [BitVec.getElem_signExtend hi, sign]
    by_cases negative : w.getLsbD (bits - 1) = true
    · rw [if_pos negative, BitVec.getElem_or, getElem_highMask bits hi]
      by_cases low : i < bits <;> simp [low, negative, BitVec.getLsbD_eq_getElem hi]
    · rw [if_neg negative, BitVec.getElem_and, BitVec.getElem_not, getElem_highMask bits hi]
      by_cases low : i < bits <;> simp [low, negative, BitVec.getLsbD_eq_getElem hi]
  · obtain rfl : bits = 16 := by omega
    simp [extendSigned]

end Word

namespace Offset
variable {bits : Nat}

/-- An operand is read back from the word with its value. -/
theorem immediate_ofInt (s : Signedness) (some : bits ≠ 0) (fits : bits ≤ 16) (v : BitVec bits) :
    immediate s bits (BitVec.ofInt 16 (s.value v)) = .ok v := by
  cases s with
  | signed =>
    have kept : (v.signExtend 16).setWidth bits = v := by
      ext i hi
      have inside : i < 16 := by omega
      simp [BitVec.getElem_signExtend, hi, inside]
    have whole : truncate .signed bits (v.signExtend 16) = v.signExtend 16 := by
      rw [truncate, Word.extendSigned_eq_signExtend some fits, kept]
    change immediate .signed bits (v.signExtend 16) = .ok v
    rw [immediate, check, if_pos whole]
    exact congrArg Except.ok kept
  | unsigned =>
    have kept : (v.setWidth 16).setWidth bits = v := by
      rw [BitVec.setWidth_setWidth_of_le v fits, BitVec.setWidth_eq]
    have whole : truncate .unsigned bits (v.setWidth 16) = v.setWidth 16 := by
      rw [truncate, Word.extendUnsigned_eq_setWidth, kept]
    have word : BitVec.ofInt 16 (Signedness.unsigned.value v) = v.setWidth 16 := by
      rw [Signedness.value, BitVec.ofInt_natCast, BitVec.ofNat_toNat]
    rw [word, immediate, check, if_pos whole]
    exact congrArg Except.ok kept

/-- A field takes no word but one with the value that the field then has. -/
theorem value_of_immediate {s : Signedness} {w : Word} {v : BitVec bits} (some : bits ≠ 0)
    (fits : bits ≤ 16) (h : immediate s bits w = .ok v) : s.value v = s.value w := by
  cases checked : check s bits w with
  | error e =>
    rw [immediate, checked] at h
    cases h
  | ok u =>
    obtain ⟨whole, rfl⟩ := check_eq_ok_iff.mp checked
    rw [immediate, checked] at h
    obtain rfl := Except.ok.inj h
    cases s with
    | signed =>
      rw [truncate, Word.extendSigned_eq_signExtend some fits] at whole
      rw [Signedness.value, Signedness.value, ← BitVec.toInt_signExtend_of_le fits, whole]
    | unsigned =>
      rw [truncate, Word.extendUnsigned_eq_setWidth] at whole
      rw [Signedness.value, Signedness.value, ← BitVec.toNat_setWidth_of_le fits, whole]

end Offset

end Lc4
