import Lc4.Proofs.Lexing
import Mathlib.Data.Nat.Digits.Defs

/-!
# Notations for numbers

Numbers are written in decimal, or in a radix that a mark in front of the digits names. In each
notation a text of digits is one lexeme, which is the number if a word can hold it and an error
otherwise, however many digits there are.
-/
namespace Lc4.Shell

namespace Literal
variable {radix acc v : Nat} {ds : List Nat} {cs : List Char}

/-- Digits, the highest one first, written in either letter case. -/
def Written (radix : Nat) (ds : List Nat) (cs : List Char) : Prop :=
  List.Forall₂ (fun d c => d < radix ∧ (c = d.digitChar ∨ c = d.digitChar.toUpper)) ds cs

/-- The characters are digits, one at least, and their number is `v`. -/
def Means (radix : Nat) (cs : List Char) (v : Nat) : Prop :=
  ∃ ds, ds ≠ [] ∧ Written radix ds cs ∧ v = Nat.ofDigits radix ds.reverse

theorem Written.valueOnto? (letters : radix ≤ 16) (h : Written radix ds cs) :
    valueOnto? radix acc cs = some (ds.foldl (fun n d => n * radix + d) acc) := by
  induction h generalizing acc with
  | nil => rfl
  | @cons d c ds cs digit rest ih =>
    obtain ⟨inside, text⟩ := digit
    have value : digitValue? radix c = some d := by
      rcases text with rfl | rfl
      · exact digitValue?_digitChar radix letters d inside
      · rw [digitValue?_toUpper]
        exact digitValue?_digitChar radix letters d inside
    rw [valueOnto?_cons, value, Option.bind_some, ih]
    rfl

theorem ofDigits_reverse (radix : Nat) (ds : List Nat) :
    Nat.ofDigits radix ds.reverse = ds.foldl (fun n d => n * radix + d) 0 := by
  rw [Nat.ofDigits_eq_foldr, List.foldr_reverse]
  congr 1
  funext n d
  rw [Nat.cast_id, Nat.mul_comm, Nat.add_comm]

/-- The number that digits stand for is the one that reading them yields. -/
theorem Means.valueOnto? (letters : radix ≤ 16) (h : Means radix cs v) :
    valueOnto? radix 0 cs = some v := by
  obtain ⟨ds, -, written, rfl⟩ := h
  rw [written.valueOnto? letters, ofDigits_reverse]

theorem Means.ne_nil (h : Means radix cs v) : cs ≠ [] := by
  obtain ⟨ds, some, written, -⟩ := h
  rintro rfl
  cases written
  exact some rfl

/-- The marks behind a leading zero, and the radix that each of them stands for. -/
def marks : List (Char × Nat) :=
  [('x', 16), ('X', 16), ('o', 8), ('O', 8), ('b', 2), ('B', 2)]

theorem splitRadix_of_mark {mark : Char} (known : (mark, radix) ∈ marks) (cs : List Char) :
    splitRadix ('0' :: mark :: cs) = (radix, cs) := by
  simp only [marks, List.mem_cons, Prod.mk.injEq, List.not_mem_nil, or_false] at known
  rcases known with ⟨rfl, rfl⟩ | ⟨rfl, rfl⟩ | ⟨rfl, rfl⟩ | ⟨rfl, rfl⟩ | ⟨rfl, rfl⟩ | ⟨rfl, rfl⟩ <;>
    rfl

theorem splitRadix_of_zero {c : Char} (unmarked : ∀ radix, (c, radix) ∉ marks) (cs : List Char) :
    splitRadix ('0' :: c :: cs) = (8, c :: cs) := by
  simp only [marks, List.mem_cons, Prod.mk.injEq, List.not_mem_nil, or_false] at unmarked
  unfold splitRadix
  split <;> simp_all

theorem splitRadix_of_plain (plain : cs.head? = some '0' → cs = ['0']) :
    splitRadix cs = (10, cs) := by
  unfold splitRadix
  split <;> simp_all

/-- A text that begins with a digit and is a number as a whole. -/
structure Numeral (cs : List Char) (v : Nat) : Prop where
  first : ∃ c ∈ cs.head?, c.isDigit = true
  word : ∀ c ∈ cs, Text.isWordChar c = true
  read : ∃ radix ds, ds ≠ [] ∧ valueOnto? radix 0 ds = some v ∧
    readMarked cs = Literal.read radix 0xFFFFFFFF ds

theorem isWordChar_of_filter (value : valueOnto? radix acc (cs.filter (· != '_')) = some v) :
    ∀ c ∈ cs, Text.isWordChar c = true := by
  intro c hc
  by_cases space : c = '_'
  · subst space
    decide
  · have kept : c ∈ cs.filter (· != '_') := by simp [hc, space]
    obtain ⟨d, digit⟩ := digit_of_valueOnto? value c kept
    exact Text.isWordChar_of_digitValue? digit

/-- Decimal digits are read as they stand; a zero in front would choose another radix. -/
theorem numeral_of_plain (h : Means 10 cs v) (plain : cs.head? = some '0' → cs = ['0']) :
    Numeral cs v := by
  have value := h.valueOnto? (by decide)
  obtain ⟨c, rest, rfl⟩ := List.exists_cons_of_ne_nil h.ne_nil
  constructor
  · obtain ⟨d, digit⟩ := digit_of_valueOnto? value c List.mem_cons_self
    have range := digitValue?_eq_some_iff.mp digit
    exact ⟨c, rfl, Text.isDigit_iff.mpr (by omega)⟩
  · intro e he
    obtain ⟨d, digit⟩ := digit_of_valueOnto? value e he
    exact Text.isWordChar_of_digitValue? digit
  · refine ⟨10, c :: rest, List.cons_ne_nil c rest, value, ?_⟩
    rw [readMarked, splitRadix_of_plain plain]
    rfl

/-- A zero and a mark choose the radix, and underscores between the digits do not count. -/
theorem numeral_of_mark {mark : Char} (known : (mark, radix) ∈ marks)
    (h : Means radix (cs.filter (· != '_')) v) : Numeral ('0' :: mark :: cs) v := by
  have facts : ∀ p ∈ marks, p.2 ≤ 16 ∧ p.2 ≠ 10 ∧ Text.isWordChar p.1 = true := by decide
  obtain ⟨letters, marked, letter⟩ := facts _ known
  have value := h.valueOnto? letters
  constructor
  · exact ⟨'0', rfl, rfl⟩
  · rw [List.forall_mem_cons, List.forall_mem_cons]
    exact ⟨by decide, letter, isWordChar_of_filter value⟩
  · refine ⟨radix, _, h.ne_nil, value, ?_⟩
    rw [readMarked, splitRadix_of_mark known]
    simp only [if_neg marked]

theorem numeral_of_zero (h : Means 8 (cs.filter (· != '_')) v) : Numeral ('0' :: cs) v := by
  have value := h.valueOnto? (by decide)
  constructor
  · exact ⟨'0', rfl, rfl⟩
  · rw [List.forall_mem_cons]
    exact ⟨by decide, isWordChar_of_filter value⟩
  · refine ⟨8, _, h.ne_nil, value, ?_⟩
    rcases cs with _ | ⟨c, cs⟩
    · exact absurd rfl h.ne_nil
    · have unmarked : ∀ radix, (c, radix) ∉ marks := by
        intro radix mark
        have facts : ∀ p ∈ marks, p.1 ≠ '_' ∧ digitValue? 8 p.1 = none := by decide
        obtain ⟨letter, none⟩ := facts _ mark
        have kept : c ∈ (c :: cs).filter (· != '_') := by simpa using letter
        obtain ⟨d, digit⟩ := digit_of_valueOnto? value c kept
        rw [none] at digit
        cases digit
      rw [readMarked, splitRadix_of_zero unmarked]
      rfl

end Literal

namespace Token

namespace Rule
variable {c x : Char}

theorem longest_digit (digit : c.isDigit = true) (cs : List Char) :
    longest (c :: cs) = some (.unsignedLiteral, 1 + runLength Text.isWordChar cs) := by
  have range := Text.isDigit_iff.mp digit
  have apart : ∀ d : Char, d.toNat < 48 ∨ 57 < d.toNat → (c == d) = false := by
    intro d outside
    simp only [beq_eq_false_iff_ne]
    rintro rfl
    omega
  have letter : c.isAlpha = false := by
    rw [Bool.eq_false_iff, Ne, Text.isAlpha_iff]
    omega
  refine longest_of_only (by simp [length?, Text.isDecimalDigit_of_isDigit digit]) ?_
  intro rule distinct
  apply length?_eq_none
  cases rule with
  | unsignedLiteral => exact absurd rfl distinct
  | unsignedHex | signedHex | register =>
    exact Bool.or_eq_false_iff.mpr ⟨apart _ (by decide), apart _ (by decide)⟩
  | ident => exact Bool.or_eq_false_iff.mpr ⟨letter, apart _ (by decide)⟩
  | _ => exact apart _ (by decide)

theorem longest_minus (cs : List Char) :
    longest ('-' :: cs) = some (.signedLiteral, 1 + runLength Text.isWordChar cs) := by
  have rules : all.filter (starts '-') = [signedLiteral] := by decide
  rw [longest_eq_foldl, rules]
  rfl

theorem longest_hex_minus (mark : x = 'x' ∨ x = 'X') (cs : List Char) :
    longest (x :: '-' :: cs) = some (.signedHex, 2 + runLength Text.isWordChar cs) := by
  obtain ⟨rules, letter⟩ := filter_starts_of_mark mark
  have digit : Text.isDecimalDigit '-' = false ∧ isHexLetter '-' = false := by decide
  have alone : runLength isIdentChar ('-' :: cs) = 0 := rfl
  rw [longest_eq_foldl, rules]
  simp [better, length?, mark, letter, digit, alone]

end Rule

section Spelling
open Literal
variable {v : Nat} {cs : List Char}

theorem spells_literal (h : Numeral cs v) : Spells cs (Rule.unsignedOfNat v) := by
  obtain ⟨c, hc, digit⟩ := h.first
  obtain ⟨radix, ds, some, value, read⟩ := h.read
  obtain ⟨cs, rfl⟩ := List.head?_eq_some_iff.mp hc
  intro rest delimited
  refine ⟨.unsignedLiteral, ?_, ?_⟩
  · have run : runLength Text.isWordChar (cs ++ rest) = cs.length :=
      runLength_append (List.forall_mem_cons.mp h.word).2 fun d hd => (delimited.classes d hd).word
    rw [List.cons_append, Rule.longest_digit digit, run, List.length_cons, Nat.add_comm]
  · rw [Rule.token, read]
    exact judge_read some value fun large => if_neg (by omega)

theorem spells_minus_literal (h : Numeral cs v) : Spells ('-' :: cs) (Rule.negativeOfNat v) := by
  obtain ⟨radix, ds, some, value, read⟩ := h.read
  intro rest delimited
  refine ⟨.signedLiteral, ?_, ?_⟩
  · have run : runLength Text.isWordChar (cs ++ rest) = cs.length :=
      runLength_append h.word fun d hd => (delimited.classes d hd).word
    rw [List.cons_append, Rule.longest_minus, run, List.length_cons, Nat.add_comm]
  · simp only [Rule.token, List.drop_succ_cons, List.drop_zero]
    rw [read]
    exact judge_read some value fun large => if_neg (by omega)

theorem spells_hex_minus {x : Char} (mark : x = 'x' ∨ x = 'X') (some : cs ≠ [])
    (value : valueOnto? 16 0 cs = .some v) : Spells (x :: '-' :: cs) (Rule.negativeOfNat v) := by
  intro rest delimited
  refine ⟨.signedHex, ?_, judge_read some value fun large => if_neg large⟩
  rw [List.cons_append, List.cons_append, Rule.longest_hex_minus mark,
    (runLength_digits value delimited).1, List.length_cons, List.length_cons, Nat.add_comm]

end Spelling

end Token

namespace Lexeme

/-- The whole text is one lexeme. -/
def Alone (cs : List Char) (result : Except LexError Token) : Prop :=
  ofString (String.ofList cs) = [⟨result, cs, 0, byteLength cs⟩]

/-- A text that one rule takes whole is one lexeme. -/
theorem alone_of_longest {rule : Token.Rule} {c : Char} {cs : List Char}
    (taken : Token.Rule.longest (c :: cs) = some (rule, cs.length + 1)) :
    Alone (c :: cs) (rule.token (c :: cs)) := by
  have visible : Token.isSkipped c = false := by
    refine Bool.eq_false_iff.mpr fun skipped => ?_
    rw [Token.Rule.longest_of_isSkipped skipped] at taken
    cases taken
  have whole : front c cs = (rule.token (c :: cs), c :: cs) := by
    simp [front, taken]
  have behind : ∀ fuel pos, lexFrom fuel pos [] = [] := by
    intro fuel pos
    cases fuel <;> rfl
  rw [Alone, ofString, String.toList_ofList, ofChars, List.length_cons, lexFrom_cons visible,
    whole, Nat.zero_add, List.drop_length, behind]

theorem alone_of_spells {cs : List Char} {result : Except LexError Token}
    (spells : Token.Spells cs result) : Alone cs result := by
  have none : Token.Delimited [] := nofun
  obtain ⟨rule, taken, rfl⟩ := spells [] none
  rw [List.append_nil] at taken
  cases cs with
  | nil =>
    have positive := Token.Rule.length?_pos (Token.Rule.length?_of_longest taken)
    exact absurd positive (Nat.lt_irrefl 0)
  | cons c cs => exact alone_of_longest taken

end Lexeme

namespace Literal

/-- The notations for numbers. -/
inductive Form
  | plain
  | hash
  | hex (mark : Char) (known : mark = 'x' ∨ mark = 'X')
  | marked (mark : Char) (radix : Nat) (known : (mark, radix) ∈ marks)
  | octal

namespace Form

/-- The text of a number with a sign or without it. -/
def write (sign : List Char) : Form → List Char → List Char
  | plain, cs => sign ++ cs
  | hash, cs => '#' :: (sign ++ cs)
  | hex mark _, cs => mark :: (sign ++ cs)
  | marked mark _ _, cs => sign ++ '0' :: mark :: cs
  | octal, cs => sign ++ '0' :: cs

/-- The digits with the number `v`. There may be underscores behind a zero that says the radix,
and a plain number has no zeros in front. -/
def Digits : Form → List Char → Nat → Prop
  | plain, cs, v => Means 10 cs v ∧ (cs.head? = some '0' → cs = ['0'])
  | hash, cs, v => Means 10 cs v
  | hex _ _, cs, v => Means 16 cs v
  | marked _ radix _, cs, v => Means radix (cs.filter (· != '_')) v
  | octal, cs, v => Means 8 (cs.filter (· != '_')) v

variable {form : Form} {cs : List Char} {v : Nat}

/-- In each notation the text of a number without a sign is one lexeme. -/
theorem alone_unsigned (h : form.Digits cs v) :
    Lexeme.Alone (form.write [] cs) (Token.Rule.unsignedOfNat v) := by
  apply Lexeme.alone_of_spells
  cases form with
  | plain => exact Token.spells_literal (numeral_of_plain h.1 h.2)
  | hash => exact Token.spells_decimal h.ne_nil (h.valueOnto? (by decide))
  | hex mark known => exact Token.spells_hex known h.ne_nil (h.valueOnto? (by decide))
  | marked mark radix known => exact Token.spells_literal (numeral_of_mark known h)
  | octal => exact Token.spells_literal (numeral_of_zero h)

theorem alone_negative (h : form.Digits cs v) :
    Lexeme.Alone (form.write ['-'] cs) (Token.Rule.negativeOfNat v) := by
  apply Lexeme.alone_of_spells
  cases form with
  | plain => exact Token.spells_minus_literal (numeral_of_plain h.1 h.2)
  | hash => exact Token.spells_negative h.ne_nil (h.valueOnto? (by decide))
  | hex mark known => exact Token.spells_hex_minus known h.ne_nil (h.valueOnto? (by decide))
  | marked mark radix known => exact Token.spells_minus_literal (numeral_of_mark known h)
  | octal => exact Token.spells_minus_literal (numeral_of_zero h)

end Form

theorem toInt_neg_ofNat {v : Nat} (fits : v ≤ 0x8000) :
    (-BitVec.ofNat 16 v).toInt = -(v : Int) := by
  have word : -BitVec.ofNat 16 v = BitVec.ofInt 16 (-v) := by
    rw [BitVec.ofInt_neg, BitVec.ofInt_natCast]
  rw [word, BitVec.toInt_ofInt]
  exact Int.bmod_eq_of_le (by omega) (by omega)

/-- Digits of any length are one lexeme in every notation. Without a sign it is the number if 16
bits can hold it, behind a minus sign it is the negative number if a signed word can. -/
theorem lex_number (form : Form) (cs : List Char) (v : Nat) (digits : form.Digits cs v) :
    (v ≤ 0xFFFF → ∃ w : Word, w.toNat = v ∧
      Lexeme.Alone (form.write [] cs) (.ok (.unsigned w))) ∧
    (0xFFFF < v → Lexeme.Alone (form.write [] cs) (.error .doesNotFitUnsigned)) ∧
    (v ≤ 0x8000 → ∃ w : Word, w.toInt = -(v : Int) ∧
      Lexeme.Alone (form.write ['-'] cs) (.ok (.signed w))) ∧
    (0x8000 < v → Lexeme.Alone (form.write ['-'] cs) (.error .doesNotFitSigned)) := by
  have unsigned := form.alone_unsigned digits
  have negative := form.alone_negative digits
  unfold Token.Rule.unsignedOfNat at unsigned
  unfold Token.Rule.negativeOfNat at negative
  refine ⟨fun fits => ?_, fun large => ?_, fun fits => ?_, fun large => ?_⟩
  · rw [if_pos fits] at unsigned
    refine ⟨_, ?_, unsigned⟩
    rw [BitVec.toNat_ofNat, Nat.mod_eq_of_lt (by omega)]
  · rwa [if_neg (by omega)] at unsigned
  · rw [if_pos fits] at negative
    exact ⟨_, toInt_neg_ofNat fits, negative⟩
  · rwa [if_neg (by omega)] at negative

/-- A number with its mark in capitals, small and capital digits and underscores. -/
theorem lex_number_underscored :
    Lexeme.Alone "0X0_fF_".toList (.ok (.unsigned 0xFF)) ∧
      Lexeme.Alone "-0X0_fF_".toList (.ok (.signed (-0xFF))) := by
  have digits : (Form.marked 'X' 16 (by decide)).Digits "0_fF_".toList 0xFF := by
    refine ⟨[0, 15, 15], by decide, ?_, by decide⟩
    unfold Written
    decide
  obtain ⟨unsigned, -, negative, -⟩ := lex_number _ _ _ digits
  obtain ⟨w, value, alone⟩ := unsigned (by decide)
  obtain ⟨n, value', alone'⟩ := negative (by decide)
  obtain rfl : w = 0xFF := BitVec.eq_of_toNat_eq value
  obtain rfl : n = -0xFF := BitVec.eq_of_toInt_eq value'
  exact ⟨alone, alone'⟩

end Literal

end Lc4.Shell
