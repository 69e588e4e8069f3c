import Lc4.Shell.Literal
import Lc4.Text.Numeral

/-!
# Numbers that are read

Digits make a number, whatever limit it is read with: the limit only decides between the number and
an error. The digits that a number is written with make that number again.
-/
namespace Lc4

namespace Shell.Literal

/-- The number that digits make when they go on from `acc`, if all of them are digits. -/
def valueOnto? (radix acc : Nat) (cs : List Char) : Option Nat :=
  cs.foldlM (fun n c => (digitValue? radix c).map (n * radix + ·)) acc

theorem digitValue?_eq_some_iff {radix d : Nat} {c : Char} : digitValue? radix c = some d ↔
    d < radix ∧ (48 ≤ c.toNat ∧ c.toNat ≤ 57 ∧ d = c.toNat - 48 ∨
      65 ≤ c.toNat ∧ c.toNat ≤ 90 ∧ d = c.toNat - 55 ∨
      97 ≤ c.toNat ∧ c.toNat ≤ 122 ∧ d = c.toNat - 87) := by
  simp only [digitValue?, Option.filter_eq_some_iff, decide_eq_true_eq]
  constructor
  · rintro ⟨value, inside⟩
    refine ⟨inside, ?_⟩
    repeat' split at value
    all_goals simp only [Option.some.injEq, reduceCtorEq] at value
    all_goals omega
  · rintro ⟨inside, range⟩
    refine ⟨?_, inside⟩
    rcases range with ⟨first, last, rfl⟩ | ⟨first, last, rfl⟩ | ⟨first, last, rfl⟩
    · rw [if_pos ⟨first, last⟩]
    · rw [if_neg (by omega), if_pos ⟨first, last⟩]
    · rw [if_neg (by omega), if_neg (by omega), if_pos ⟨first, last⟩]

section Value
variable {radix acc limit v : Nat} {c : Char} {cs ds : List Char}

theorem valueOnto?_cons : valueOnto? radix acc (c :: cs) =
    (digitValue? radix c).bind fun d => valueOnto? radix (acc * radix + d) cs := by
  rw [valueOnto?, List.foldlM_cons]
  cases digitValue? radix c <;> rfl

theorem valueOnto?_append : valueOnto? radix acc (cs ++ ds) =
    (valueOnto? radix acc cs).bind fun n => valueOnto? radix n ds := by
  rw [valueOnto?, List.foldlM_append]
  rfl

theorem valueOnto?_cons_eq_some_iff : valueOnto? radix acc (c :: cs) = some v ↔
    ∃ d, digitValue? radix c = some d ∧ valueOnto? radix (acc * radix + d) cs = some v := by
  rw [valueOnto?_cons, Option.bind_eq_some_iff]

/-- Further digits make no number smaller, so a number past the limit stays past it. -/
theorem le_of_valueOnto? (h : valueOnto? radix acc cs = some v) : acc ≤ v := by
  induction cs generalizing acc with
  | nil => exact Nat.le_of_eq (Option.some.inj h)
  | cons c cs ih =>
    obtain ⟨d, digit, rest⟩ := valueOnto?_cons_eq_some_iff.mp h
    have positive : 0 < radix := Nat.zero_lt_of_lt (digitValue?_eq_some_iff.mp digit).1
    have grown : acc ≤ acc * radix := Nat.le_mul_of_pos_right acc positive
    exact Nat.le_trans (Nat.le_trans grown (Nat.le_add_right _ d)) (ih rest)

theorem digit_of_valueOnto? (h : valueOnto? radix acc cs = some v) :
    ∀ c ∈ cs, ∃ d, digitValue? radix c = some d := by
  induction cs generalizing acc with
  | nil => simp
  | cons c cs ih =>
    obtain ⟨d, digit, rest⟩ := valueOnto?_cons_eq_some_iff.mp h
    intro b hb
    rcases List.mem_cons.mp hb with rfl | hb
    · exact ⟨d, digit⟩
    · exact ih rest b hb

/-- The limit is met exactly if the whole number is within it. -/
theorem readOnto_of_valueOnto? (small : acc ≤ limit) (h : valueOnto? radix acc cs = some v) :
    readOnto radix limit acc cs = if v ≤ limit then .ok v else .error .tooLarge := by
  induction cs generalizing acc with
  | nil =>
    obtain rfl := Option.some.inj h
    rw [readOnto, if_pos small]
  | cons c cs ih =>
    obtain ⟨d, digit, rest⟩ := valueOnto?_cons_eq_some_iff.mp h
    simp only [readOnto, digit]
    by_cases large : limit < acc * radix + d
    · have beyond : ¬ v ≤ limit :=
        Nat.not_le_of_lt (Nat.lt_of_lt_of_le large (le_of_valueOnto? rest))
      rw [if_pos large, if_neg beyond]
    · rw [if_neg large]
      exact ih (Nat.le_of_not_lt large) rest

/-- The limit decides between the number and an error, and nothing else does. -/
theorem read_of_valueOnto? (some : cs ≠ []) (h : valueOnto? radix 0 cs = .some v) :
    read radix limit cs = if v ≤ limit then .ok v else .error .tooLarge := by
  rw [read, List.isEmpty_eq_false_iff.mpr some]
  exact readOnto_of_valueOnto? (Nat.zero_le limit) h

theorem readOnto_of_eq_none (h : valueOnto? radix acc cs = none) :
    readOnto radix limit acc cs = .error .invalidDigit ∨
      readOnto radix limit acc cs = .error .tooLarge := by
  induction cs generalizing acc with
  | nil => cases h
  | cons c cs ih =>
    rw [valueOnto?_cons] at h
    cases digit : digitValue? radix c with
    | none => exact .inl (by simp only [readOnto, digit])
    | some d =>
      rw [digit, Option.bind_some] at h
      by_cases large : limit < acc * radix + d
      · exact .inr (by simp only [readOnto, digit, if_pos large])
      · simpa only [readOnto, digit, if_neg large] using ih h

/-- What is not a number within the limit is one of two faults. -/
theorem read_of_ne_nil (some : cs ≠ []) :
    (∃ v ≤ limit, valueOnto? radix 0 cs = .some v ∧ read radix limit cs = .ok v) ∨
      (∀ v, valueOnto? radix 0 cs = .some v → limit < v) ∧
        (read radix limit cs = .error .invalidDigit ∨ read radix limit cs = .error .tooLarge) := by
  cases value : valueOnto? radix 0 cs with
  | some v =>
    have outcome : read radix limit cs = if v ≤ limit then .ok v else .error .tooLarge :=
      read_of_valueOnto? some value
    by_cases fits : v ≤ limit
    · exact .inl ⟨v, fits, rfl, outcome.trans (if_pos fits)⟩
    · refine .inr ⟨?_, .inr (outcome.trans (if_neg fits))⟩
      rintro _ ⟨⟩
      exact Nat.lt_of_not_le fits
  | none =>
    refine .inr ⟨nofun, ?_⟩
    rw [read, List.isEmpty_eq_false_iff.mpr some]
    exact readOnto_of_eq_none value

theorem digitValue?_digitChar :
    ∀ radix ≤ 16, ∀ d < radix, digitValue? radix d.digitChar = some d := by
  decide

theorem digitValue?_toUpper (radix : Nat) (c : Char) :
    digitValue? radix c.toUpper = digitValue? radix c := by
  by_cases lower : 'a'.val ≤ c.val ∧ c.val ≤ 'z'.val
  · have first : 97 ≤ c.toNat := UInt32.le_iff_toNat_le.mp lower.1
    have last : c.toNat ≤ 122 := UInt32.le_iff_toNat_le.mp lower.2
    have moved : c.toUpper.toNat = c.toNat - 32 := by
      have shift : ('A'.val - 'a'.val).toNat = 2 ^ 32 - 32 := by decide
      have upper : c.toUpper.val = c.val + ('A'.val - 'a'.val) := by
        delta Char.toUpper
        rw [dif_pos lower]
      simp only [Char.toNat, upper, UInt32.toNat_add, shift] at first last ⊢
      omega
    ext d
    rw [digitValue?_eq_some_iff, digitValue?_eq_some_iff, moved]
    omega
  · delta Char.toUpper
    rw [dif_neg lower]

theorem valueOnto?_map_toUpper :
    valueOnto? radix acc (cs.map Char.toUpper) = valueOnto? radix acc cs := by
  induction cs generalizing acc with
  | nil => rfl
  | cons c cs ih => simp only [List.map_cons, valueOnto?_cons, digitValue?_toUpper, ih]

/-- The digits that a number is written with are read as that number. -/
theorem valueOnto?_toDigits (base : 1 < radix) (letters : radix ≤ 16) (n : Nat) :
    valueOnto? radix 0 (Nat.toDigits radix n) = some n := by
  have one : ∀ acc, ∀ k < radix, valueOnto? radix acc [k.digitChar] = some (acc * radix + k) := by
    intro acc k inside
    rw [valueOnto?_cons, digitValue?_digitChar radix letters k inside]
    rfl
  induction n using Nat.base_induction radix base with
  | single m inside =>
    rw [Nat.toDigits_of_lt_base inside, one 0 m inside, Nat.zero_mul, Nat.zero_add]
  | digit m k inside positive ih =>
    rw [← Nat.toDigits_append_toDigits base positive inside, valueOnto?_append, ih,
      Nat.toDigits_of_lt_base inside, Option.bind_some, one m k inside, Nat.mul_comm]

/-- Zeros in front of a number do not count. -/
theorem valueOnto?_leftpad (base : 0 < radix) (width : Nat) :
    valueOnto? radix 0 (cs.leftpad width '0') = valueOnto? radix 0 cs := by
  have zero : digitValue? radix '0' = some 0 := by simp [digitValue?, base]
  rw [List.leftpad]
  induction width - cs.length with
  | zero => rfl
  | succ k ih =>
    rw [List.replicate_succ, List.cons_append, valueOnto?_cons, zero, Option.bind_some,
      Nat.zero_mul, ih]

end Value

end Shell.Literal

namespace Text.Numeral

open Shell.Literal

theorem valueOnto?_decimalDigits (n : Nat) : valueOnto? 10 0 (decimalDigits n) = some n :=
  valueOnto?_toDigits (by decide) (by decide) n

theorem valueOnto?_hex (width n : Nat) : valueOnto? 16 0 (hex width n).toList = some n := by
  rw [hex, String.toList_ofList, valueOnto?_leftpad (by decide), hexDigits, valueOnto?_map_toUpper]
  exact valueOnto?_toDigits (by decide) (by decide) n

theorem toList_decimal_plain (i : Int) : (decimal .plain i).toList =
    (if i < 0 then ['-'] else []) ++ decimalDigits i.natAbs := by
  simp [decimal, signMark, DecimalStyle.plain]

theorem decimalDigits_ne_nil (n : Nat) : decimalDigits n ≠ [] :=
  Nat.toDigits_ne_nil

theorem toList_hex_ne_nil (width n : Nat) : (hex width n).toList ≠ [] := by
  simp [hex, hexDigits, List.leftpad]

end Text.Numeral

end Lc4
