import Lc4.Proofs.Offsets
import Mathlib.Algebra.Group.Int.Defs
import Mathlib.Algebra.Group.Nat.Defs

/-!
# Ranges of operands

The operands of `bits` bits are the numbers of an interval with 2 ^ `bits` members, so each word has
exactly one of them with the same low bits. Truncation finds it, and a word is accepted if it
already is that number.
-/
namespace Lc4

theorem Text.Numeral.decimal_plain_eq_toString (i : Int) : decimal .plain i = toString i := by
  cases i with
  | ofNat n =>
    simp [decimal, signMark, DecimalStyle.plain, decimalDigits]
    rfl
  | negSucc n =>
    simp [decimal, signMark, DecimalStyle.plain, decimalDigits]
    rfl

/-- Numbers with one remainder that are closer than the modulus are equal. -/
theorem eq_of_emod_eq_of_close {m x y : Int} (same : x % m = y % m) (above : x - y < m)
    (below : y - x < m) : x = y := by
  have multiple : m ∣ x - y :=
    Int.dvd_of_emod_eq_zero (Int.emod_eq_emod_iff_emod_sub_eq_zero.mp same)
  have zero : x - y = 0 := Int.eq_zero_of_dvd_of_natAbs_lt_natAbs multiple (by omega)
  omega

namespace Offset
variable {s : Signedness} {bits : Nat} {u w : Word} {x : Int}

def least : Signedness → Nat → Int
  | .signed, bits => -2 ^ (bits - 1)
  | .unsigned, _ => 0

def greatest : Signedness → Nat → Int
  | .signed, bits => 2 ^ (bits - 1) - 1
  | .unsigned, bits => 2 ^ bits - 1

/-- The numbers of the operands. -/
def InRange (s : Signedness) (bits : Nat) (x : Int) : Prop :=
  least s bits ≤ x ∧ x ≤ greatest s bits

instance (s : Signedness) (bits : Nat) (x : Int) : Decidable (InRange s bits x) :=
  inferInstanceAs (Decidable (_ ∧ _))

/-- The bounds are those of an interval with 2 ^ `bits` members. -/
theorem greatest_eq (some : bits ≠ 0) (s : Signedness) :
    greatest s bits = least s bits + 2 ^ bits - 1 := by
  cases s with
  | signed =>
    have halves : (2 : Int) ^ bits = 2 * 2 ^ (bits - 1) := by
      rw [← Int.pow_succ', Nat.sub_add_cancel (Nat.pos_of_ne_zero some)]
    rw [greatest, least, halves]
    omega
  | unsigned => rw [greatest, least, Int.zero_add]

/-- The error of an operand names its range. -/
theorem help_rangeError (s : Signedness) (bits : Nat) :
    (rangeError s bits).help = "the range for " ++ (match s with
      | .signed => "a signed "
      | .unsigned => "an unsigned ") ++ toString bits ++ "-bit integer is [" ++
        toString (least s bits) ++ ", " ++ toString (greatest s bits) ++ "]" := by
  have power (n : Nat) : Int.ofNat (1 <<< n) = 2 ^ n := by
    rw [Nat.one_shiftLeft]
    exact Int.natCast_pow 2 n
  rw [← Text.Numeral.decimal_plain_eq_toString, ← Text.Numeral.decimal_plain_eq_toString]
  cases s with
  | signed =>
    rw [least, greatest, ← power]
    rfl
  | unsigned =>
    rw [least, greatest, ← power]
    rfl

theorem inRange_value (s : Signedness) (v : BitVec bits) : InRange s bits (s.value v) := by
  cases s with
  | signed => exact ⟨v.le_toInt, Int.le_sub_one_of_lt v.toInt_lt⟩
  | unsigned =>
    have below : (v.toNat : Int) < 2 ^ bits := by exact_mod_cast v.isLt
    exact ⟨Int.natCast_nonneg _, Int.le_sub_one_of_lt below⟩

theorem value_inj {s : Signedness} {u w : Word} (h : s.value u = s.value w) : u = w := by
  cases s with
  | signed => exact BitVec.eq_of_toInt_eq h
  | unsigned => exact BitVec.eq_of_toNat_eq (Int.ofNat.inj h)

theorem value_emod (s : Signedness) {n : Nat} (v : BitVec n) :
    s.value v % 2 ^ n = v.toNat % 2 ^ n := by
  cases s with
  | signed =>
    rw [Signedness.value, BitVec.toInt_eq_toNat_bmod]
    exact_mod_cast Int.bmod_emod
  | unsigned => rfl

theorem toNat_field_truncate_lt (fits : bits ≤ 16) (s : Signedness) (w : Word) :
    (field s bits (truncate s bits w)).toNat < 2 ^ bits := by
  have low (u : Word) : (u.extendUnsigned bits).toNat < 2 ^ bits := by
    rw [Word.extendUnsigned_eq_setWidth, BitVec.toNat_setWidth_of_le fits]
    exact (u.setWidth bits).isLt
  cases s with
  | signed => exact low _
  | unsigned => exact low w

section Truncate
variable (some : bits ≠ 0) (fits : bits ≤ 16)
include some fits

/-- Truncation reads the low bits as a field of their own. -/
theorem value_truncate (s : Signedness) (w : Word) :
    s.value (truncate s bits w) = s.value (w.setWidth bits) := by
  cases s with
  | signed =>
    rw [truncate, Word.extendSigned_eq_signExtend some fits]
    exact BitVec.toInt_signExtend_of_le fits
  | unsigned =>
    rw [truncate, Word.extendUnsigned_eq_setWidth]
    exact congrArg Int.ofNat (BitVec.toNat_setWidth_of_le fits)

theorem truncate_congr (s : Signedness) (low : u.setWidth bits = w.setWidth bits) :
    truncate s bits u = truncate s bits w := by
  apply value_inj
  rw [value_truncate some fits, value_truncate some fits, low]

theorem value_truncate_emod (s : Signedness) (w : Word) :
    s.value (truncate s bits w) % 2 ^ bits = s.value w % 2 ^ bits := by
  have divides : (2 : Int) ^ bits ∣ 2 ^ 16 :=
    ⟨2 ^ (16 - bits), by rw [← Int.pow_add, Nat.add_sub_cancel' fits]⟩
  rw [value_truncate some fits, value_emod, BitVec.toNat_setWidth,
    ← Int.emod_emod_of_dvd (s.value w) divides, value_emod, Int.emod_emod_of_dvd _ divides]
  push_cast
  exact Int.emod_emod_of_dvd _ (Int.dvd_refl _)

/-- Of the numbers of the range one alone has the low bits of a word. -/
theorem eq_value_truncate_iff (s : Signedness) (w : Word) (x : Int) :
    InRange s bits x ∧ x % 2 ^ bits = s.value w % 2 ^ bits ↔ x = s.value (truncate s bits w) := by
  have range : InRange s bits (s.value (truncate s bits w)) := by
    rw [value_truncate some fits]
    exact inRange_value s _
  constructor
  · rintro ⟨⟨low, high⟩, same⟩
    obtain ⟨low', high'⟩ := range
    rw [greatest_eq some] at high high'
    refine eq_of_emod_eq_of_close (same.trans ?_) (by omega) (by omega)
    exact (value_truncate_emod some fits s w).symm
  · rintro rfl
    exact ⟨range, value_truncate_emod some fits s w⟩

/-- Truncation keeps exactly what is in the range. -/
theorem truncate_eq_self_iff (s : Signedness) (w : Word) :
    truncate s bits w = w ↔ InRange s bits (s.value w) := by
  have unique := eq_value_truncate_iff some fits s w (s.value w)
  constructor
  · intro whole
    exact (unique.mpr (congrArg s.value whole.symm)).1
  · intro range
    exact (value_inj (unique.mp ⟨range, rfl⟩)).symm

theorem truncate_truncate (s : Signedness) (w : Word) :
    truncate s bits (truncate s bits w) = truncate s bits w := by
  rw [truncate_eq_self_iff some fits, value_truncate some fits]
  exact inRange_value s _

/-- An operand is read back from its field. -/
theorem truncate_field_truncate (s : Signedness) (w : Word) :
    truncate s bits (field s bits (truncate s bits w)) = truncate s bits w := by
  cases s with
  | signed =>
    refine (truncate_congr some fits .signed ?_).trans (truncate_truncate some fits .signed w)
    rw [field, Word.extendUnsigned_eq_setWidth, BitVec.setWidth_setWidth_of_le _ fits,
      BitVec.setWidth_eq]
  | unsigned => exact truncate_truncate some fits .unsigned w

/-- The check accepts exactly what is in the range. -/
theorem check_eq_ite (s : Signedness) (w : Word) : check s bits w =
    if InRange s bits (s.value w) then .ok w else .error (rangeError s bits) := by
  unfold check
  simp only [truncate_eq_self_iff some fits]

end Truncate

end Offset

namespace Word

theorem extendSigned_extendSigned (bits : Nat) (w : Word) :
    (w.extendSigned bits).extendSigned bits = w.extendSigned bits := by
  by_cases wide : 16 ≤ bits
  · rw [extendSigned_of_le wide]
  · by_cases none : bits = 0
    · subst none
      rw [extendSigned_zero]
    · exact Offset.truncate_truncate none (by omega) .signed w

theorem extendUnsigned_extendUnsigned (bits : Nat) (w : Word) :
    (w.extendUnsigned bits).extendUnsigned bits = w.extendUnsigned bits := by
  rw [extendUnsigned, extendUnsigned, BitVec.and_assoc, BitVec.and_self]

theorem signedField_zero {bits : Nat} (some : bits ≠ 0) (w : Word) :
    w.signedField 0 bits = (w.extendSigned bits).toInt := by
  rw [signedField, field, BitVec.ushiftRight_zero]
  by_cases wide : 16 ≤ bits
  · rw [extendUnsigned_of_le wide]
  · have fits : bits ≤ 16 := by omega
    have low : (w.extendUnsigned bits).setWidth bits = w.setWidth bits := by
      rw [extendUnsigned_eq_setWidth, BitVec.setWidth_setWidth_of_le _ fits, BitVec.setWidth_eq]
    exact congrArg BitVec.toInt (Offset.truncate_congr some fits .signed low)

end Word

namespace Offset

/-- At each width from 1 to 16 a word is accepted, and kept, if its number is in the range that the
error names. Truncation gives the only number of the range that agrees with the word modulo
2 ^ `bits`, so it leaves alone just the words that are accepted, and it finds its number again from
the field. The extensions behind it do nothing the second time, and nothing at all from width 16
on. -/
theorem truncate_exact :
    (∀ (s : Signedness) (bits : Nat), 1 ≤ bits → bits ≤ 16 →
      (rangeError s bits).help = "the range for " ++ (match s with
        | .signed => "a signed "
        | .unsigned => "an unsigned ") ++ toString bits ++ "-bit integer is [" ++
          toString (least s bits) ++ ", " ++ toString (greatest s bits) ++ "]" ∧
      ∀ w : Word,
        (check s bits w =
          if InRange s bits (s.value w) then .ok w else .error (rangeError s bits)) ∧
        (∀ x, InRange s bits x ∧ x % 2 ^ bits = s.value w % 2 ^ bits ↔
          x = s.value (truncate s bits w)) ∧
        (truncate s bits w = w ↔ ∃ v, check s bits w = .ok v) ∧
        truncate s bits (truncate s bits w) = truncate s bits w ∧
        (field s bits (truncate s bits w)).toNat < 2 ^ bits ∧
        truncate s bits (field s bits (truncate s bits w)) = truncate s bits w ∧
        w.extendSigned bits = truncate .signed bits w ∧
        w.extendUnsigned bits = truncate .unsigned bits w) ∧
    ∀ (bits : Nat) (w : Word),
      (w.extendSigned bits).extendSigned bits = w.extendSigned bits ∧
      (w.extendUnsigned bits).extendUnsigned bits = w.extendUnsigned bits ∧
      (16 ≤ bits → w.extendSigned bits = w ∧ w.extendUnsigned bits = w) ∧
      (1 ≤ bits → w.signedField 0 bits = (w.extendSigned bits).toInt) := by
  refine ⟨?_, ?_⟩
  · intro s bits positive fits
    have some : bits ≠ 0 := Nat.ne_of_gt positive
    refine ⟨help_rangeError s bits, fun w => ?_⟩
    refine ⟨check_eq_ite some fits s w, eq_value_truncate_iff some fits s w, ?_,
      truncate_truncate some fits s w, toNat_field_truncate_lt fits s w,
      truncate_field_truncate some fits s w, rfl, rfl⟩
    constructor
    · intro whole
      exact ⟨w, check_eq_ok_iff.mpr ⟨whole, rfl⟩⟩
    · rintro ⟨v, accepted⟩
      exact (check_eq_ok_iff.mp accepted).1
  · intro bits w
    refine ⟨w.extendSigned_extendSigned bits, w.extendUnsigned_extendUnsigned bits, ?_, ?_⟩
    · intro wide
      exact ⟨Word.extendSigned_of_le wide w, Word.extendUnsigned_of_le wide w⟩
    · intro positive
      exact Word.signedField_zero (Nat.ne_of_gt positive) w

/-- The range of one signed bit, and a word with other bits above it. -/
theorem truncate_exact_one_bit :
    1 ≤ 1 ∧ 1 ≤ 16 ∧
      (rangeError .signed 1).help = "the range for a signed 1-bit integer is [-1, 0]" ∧
      check .signed 1 0x8001 = .error (.cannotFitSigned 1) ∧
      truncate .signed 1 0x8001 = 0xFFFF ∧ truncate .signed 1 (field .signed 1 0xFFFF) = 0xFFFF ∧
      Word.signedField 0x8001 0 1 = -1 := by
  have positive : 1 ≤ 1 := Nat.le_refl 1
  have fits : 1 ≤ 16 := by decide
  obtain ⟨narrow, every⟩ := truncate_exact
  obtain ⟨help, words⟩ := narrow .signed 1 positive fits
  obtain ⟨checked, unique, -, -, -, back, extended, -⟩ := words 0x8001
  have outside : ¬ InRange .signed 1 (Signedness.signed.value (0x8001 : Word)) := by decide
  have least : (-1 : Int) = Signedness.signed.value (truncate .signed 1 0x8001) :=
    (unique (-1)).mp ⟨by decide, by decide⟩
  have truncated : truncate .signed 1 0x8001 = 0xFFFF := value_inj least.symm
  rw [if_neg outside] at checked
  rw [truncated] at back extended
  have read := (every 1 0x8001).2.2.2 positive
  rw [extended] at read
  exact ⟨positive, fits, help, checked, truncated, back, read⟩

end Offset

end Lc4
