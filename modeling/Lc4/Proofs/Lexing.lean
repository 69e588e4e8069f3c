import Lc4.Proofs.Numerals
import Lc4.Shell.Argument
import Lc4.Text.Blank

/-!
# How texts are lexed

The first character of a text says which rules can take anything, and the rule that wins is found
among those. A token is read from its text alone if a comma, a blank or nothing follows it.
-/
namespace Lc4

namespace Text
variable {radix d : Nat} {c : Char}

theorem isAlpha_iff : c.isAlpha = true ↔
    65 ≤ c.toNat ∧ c.toNat ≤ 90 ∨ 97 ≤ c.toNat ∧ c.toNat ≤ 122 := by
  delta Char.isAlpha Char.isUpper Char.isLower
  simp [UInt32.le_iff_toNat_le]

theorem isDigit_iff : c.isDigit = true ↔ 48 ≤ c.toNat ∧ c.toNat ≤ 57 := by
  simp [Char.isDigit, UInt32.le_iff_toNat_le]

theorem isWordChar_of_isAlpha (h : c.isAlpha = true) : isWordChar c = true := by
  have ascii : c.toNat < 0x80 := by
    rcases isAlpha_iff.mp h with range | range <;> omega
  simp [isWordChar, ascii, Char.isAlphanum, h]

theorem isDecimalDigit_of_isAlpha (h : c.isAlpha = true) : isDecimalDigit c = false := by
  have range := isAlpha_iff.mp h
  have ascii : c.toNat < 0x80 := by omega
  have none : ¬ c.isDigit = true := by
    rw [isDigit_iff]
    omega
  simpa [isDecimalDigit, ascii] using none

theorem isWordChar_of_digitValue? (h : Shell.Literal.digitValue? radix c = some d) :
    isWordChar c = true := by
  rcases (Shell.Literal.digitValue?_eq_some_iff.mp h).2 with digit | upper | lower
  · have isDigit : c.isDigit = true := isDigit_iff.mpr ⟨digit.1, digit.2.1⟩
    have ascii : c.toNat < 0x80 := by omega
    simp [isWordChar, ascii, Char.isAlphanum, isDigit]
  · exact isWordChar_of_isAlpha (isAlpha_iff.mpr (.inl ⟨upper.1, upper.2.1⟩))
  · exact isWordChar_of_isAlpha (isAlpha_iff.mpr (.inr ⟨lower.1, lower.2.1⟩))

theorem isHex_of_digitValue? (h : Shell.Literal.digitValue? 16 c = some d) :
    isDecimalDigit c = true ∨ Shell.Token.isHexLetter c = true := by
  have inside := Shell.Literal.digitValue?_eq_some_iff.mp h
  by_cases digit : c.toNat ≤ 57
  · exact .inl (isDecimalDigit_of_isDigit (isDigit_iff.mpr (by omega)))
  · refine .inr ?_
    simp [Shell.Token.isHexLetter, Char.le_def, UInt32.le_iff_toNat_le]
    omega

theorem isBlank_of_range (first : 33 ≤ c.toNat) (last : c.toNat ≤ 126) : isBlank c = false := by
  simp [isBlank]
  omega

theorem isBlank_of_isAlpha (h : c.isAlpha = true) : isBlank c = false := by
  have range := isAlpha_iff.mp h
  exact isBlank_of_range (by omega) (by omega)

theorem isBlank_of_digitValue? (h : Shell.Literal.digitValue? radix c = some d) :
    isBlank c = false := by
  have inside := Shell.Literal.digitValue?_eq_some_iff.mp h
  exact isBlank_of_range (by omega) (by omega)

theorem isDecimalDigit_of_digitValue? (h : Shell.Literal.digitValue? 10 c = some d) :
    isDecimalDigit c = true := by
  have inside := Shell.Literal.digitValue?_eq_some_iff.mp h
  exact isDecimalDigit_of_isDigit (isDigit_iff.mpr (by omega))

end Text

namespace Shell

namespace Token

section Runs
variable {p : Char → Bool} {rest : List Char}

theorem takeWhile_of_stop (stop : ∀ c ∈ rest.head?, p c = false) : rest.takeWhile p = [] := by
  cases rest with
  | nil => rfl
  | cons c rest => simp [stop c rfl]

theorem runLength_append_of_stop (stop : ∀ c ∈ rest.head?, p c = false) (word : List Char) :
    runLength p (word ++ rest) = runLength p word := by
  unfold runLength
  rw [List.takeWhile_append, takeWhile_of_stop stop]
  split <;> simp_all

theorem runLength_append {cs : List Char} (all : ∀ c ∈ cs, p c = true)
    (stop : ∀ c ∈ rest.head?, p c = false) : runLength p (cs ++ rest) = cs.length := by
  rw [runLength, List.takeWhile_append_of_pos all, takeWhile_of_stop stop, List.append_nil]

end Runs

namespace Rule

/-- Whether a text that the rule takes can begin with a character. -/
def starts (c : Char) : Rule → Bool
  | unsignedLiteral => Text.isDecimalDigit c
  | unsignedDecimal | signedDecimal => c == '#'
  | unsignedHex | signedHex => c == 'x' || c == 'X'
  | signedLiteral => c == '-'
  | register => c == 'r' || c == 'R'
  | ident => c.isAlpha || c == '_'
  | comma => c == ','
  | comment => c == ';'

/-- The better of a rule and the best one before it. -/
def better (cs : List Char) (best : Option (Rule × Nat)) (rule : Rule) : Option (Rule × Nat) :=
  match rule.length? cs, best with
  | some n, some (_, m) => if m < n then some (rule, n) else best
  | some n, none => some (rule, n)
  | none, _ => best

section Longest
variable {rule : Rule} {c x : Char} {cs : List Char}

theorem length?_eq_none (h : rule.starts c = false) (cs : List Char) :
    rule.length? (c :: cs) = none := by
  unfold length?
  split <;> simp_all [starts]

/-- How much the rule takes from a text that it can begin with, by what stands behind the first
character. -/
def takes? (cs : List Char) : Rule → Option Nat
  | unsignedLiteral | unsignedDecimal | signedLiteral => some (1 + runLength Text.isWordChar cs)
  | unsignedHex =>
    if cs.head?.any fun d => Text.isDecimalDigit d || isHexLetter d then
      some (2 + runLength Text.isWordChar cs.tail)
    else none
  | signedDecimal | signedHex =>
    if cs.head? = some '-' then some (2 + runLength Text.isWordChar cs.tail) else none
  | register =>
    let digits := runLength Text.isDecimalDigit cs
    if digits = 0 then none else some (1 + digits)
  | ident => some (1 + runLength isIdentChar cs)
  | comma => some 1
  | comment => some (1 + runLength (· != '\n') cs)

theorem length?_cons (rule : Rule) (c : Char) (cs : List Char) :
    rule.length? (c :: cs) = if rule.starts c then rule.takes? cs else none := by
  by_cases start : rule.starts c = true
  · rw [if_pos start]
    cases rule with
    | unsignedLiteral | ident => exact if_pos start
    | unsignedDecimal | signedLiteral | comma | comment =>
      obtain rfl := eq_of_beq start
      rfl
    | register =>
      simp only [starts] at start
      by_cases digits : runLength Text.isDecimalDigit cs = 0 <;>
        simp [length?, takes?, start, digits]
    | unsignedHex =>
      simp only [starts] at start
      cases cs with
      | nil => rfl
      | cons d cs => simp [length?, takes?, start]
    | signedDecimal =>
      obtain rfl := eq_of_beq start
      rcases cs with _ | ⟨d, cs⟩
      · rfl
      · by_cases minus : d = '-'
        · subst minus
          rfl
        · simp [length?, takes?, minus]
    | signedHex =>
      rcases cs with _ | ⟨d, cs⟩
      · rfl
      · by_cases minus : d = '-'
        · subst minus
          exact if_pos start
        · simp [length?, takes?, minus]
  · rw [if_neg start]
    exact length?_eq_none (Bool.eq_false_iff.mpr start) cs

theorem longest_congr {ds : List Char} (same : ∀ rule : Rule, rule.length? cs = rule.length? ds) :
    longest cs = longest ds := by
  have same : better cs = better ds := by
    funext best rule
    simp only [better, same]
  change all.foldl (better cs) none = all.foldl (better ds) none
  rw [same]

/-- Only the rules that the first character starts compete. -/
theorem longest_eq_foldl (c : Char) (cs : List Char) :
    longest (c :: cs) = (all.filter (starts c)).foldl (better (c :: cs)) none := by
  have skipped : ∀ best rule, (if starts c rule = true then better (c :: cs) best rule else best) =
      better (c :: cs) best rule := by
    intro best rule
    by_cases h : starts c rule = true
    · rw [if_pos h]
    · simp only [if_neg h, better, length?_eq_none (Bool.eq_false_iff.mpr h)]
  simp only [List.foldl_filter, skipped]
  rfl

theorem longest_of_isSkipped (h : isSkipped c = true) (cs : List Char) :
    longest (c :: cs) = none := by
  have rules : all.filter (starts c) = [] := by
    simp only [isSkipped, Bool.or_eq_true, beq_iff_eq] at h
    rcases h with ((rfl | rfl) | rfl) | rfl <;> decide
  rw [longest_eq_foldl, rules]
  rfl

theorem longest_comma (cs : List Char) : longest (',' :: cs) = some (.comma, 1) := by
  have rules : all.filter (starts ',') = [comma] := by decide
  rw [longest_eq_foldl, rules]
  rfl

theorem longest_hash (plain : ∀ c ∈ cs.head?, c ≠ '-') :
    longest ('#' :: cs) = some (.unsignedDecimal, 1 + runLength Text.isWordChar cs) := by
  have rules : all.filter (starts '#') = [unsignedDecimal, signedDecimal] := by decide
  rw [longest_eq_foldl, rules]
  cases cs with
  | nil => rfl
  | cons c cs => simp [better, length?, plain c rfl]

theorem longest_hash_minus (cs : List Char) :
    longest ('#' :: '-' :: cs) = some (.signedDecimal, 2 + runLength Text.isWordChar cs) := by
  have rules : all.filter (starts '#') = [unsignedDecimal, signedDecimal] := by decide
  have mark : runLength Text.isWordChar ('-' :: cs) = 0 := rfl
  have longer : 1 < 2 + runLength Text.isWordChar cs := by omega
  rw [longest_eq_foldl, rules]
  simp [better, length?, mark, longer]

theorem filter_starts_of_mark (mark : x = 'x' ∨ x = 'X') :
    all.filter (starts x) = [unsignedHex, signedHex, ident] ∧ x.isAlpha = true := by
  rcases mark with rfl | rfl <;> decide

/-- A hexadecimal number wins against a name, as long as the name takes no more. -/
theorem longest_hex (mark : x = 'x' ∨ x = 'X')
    (digit : Text.isDecimalDigit c = true ∨ isHexLetter c = true)
    (tie : runLength isIdentChar (c :: cs) ≤ 1 + runLength Text.isWordChar cs) :
    longest (x :: c :: cs) = some (.unsignedHex, 2 + runLength Text.isWordChar cs) := by
  obtain ⟨rules, letter⟩ := filter_starts_of_mark mark
  have plain : c ≠ '-' := by
    rintro rfl
    revert digit
    decide
  have kept : ¬ 2 + runLength Text.isWordChar cs < 1 + runLength isIdentChar (c :: cs) := by omega
  rw [longest_eq_foldl, rules]
  simp [better, length?, mark, letter, digit, plain, kept]

/-- A register wins against a name, as long as the name takes no more. -/
theorem longest_register (mark : x = 'r' ∨ x = 'R')
    (some : runLength Text.isDecimalDigit cs ≠ 0)
    (tie : runLength isIdentChar cs ≤ runLength Text.isDecimalDigit cs) :
    longest (x :: cs) = .some (.register, 1 + runLength Text.isDecimalDigit cs) := by
  have rules : all.filter (starts x) = [register, ident] ∧ x.isAlpha = true := by
    rcases mark with rfl | rfl <;> decide
  have kept : ¬ 1 + runLength Text.isDecimalDigit cs < 1 + runLength isIdentChar cs := by omega
  rw [longest_eq_foldl, rules.1]
  simp [better, length?, mark, some, rules.2, kept]

/-- Of rules that take different lengths the order does not matter. -/
theorem foldl_better_of_longer {n : Nat} (takes : rule.length? cs = some n)
    (longer : ∀ other m, other ≠ rule → other.length? cs = some m → m < n) {rules : List Rule}
    {best : Option (Rule × Nat)}
    (ahead : best = some (rule, n) ∨ rule ∈ rules ∧ ∀ p ∈ best, p.2 < n) :
    rules.foldl (better cs) best = some (rule, n) := by
  induction rules generalizing best with
  | nil => exact ahead.resolve_right fun h => nomatch h.1
  | cons other rules ih =>
    rw [List.foldl_cons]
    apply ih
    by_cases same : other = rule
    · subst same
      left
      rcases ahead with rfl | ⟨-, behind⟩
      · simp [better, takes]
      · cases best with
        | none => simp [better, takes]
        | some p => simp [better, takes, behind p rfl]
    · cases taken : other.length? cs with
      | none =>
        have unchanged : better cs best other = best := by simp [better, taken]
        rw [unchanged]
        exact ahead.imp_right fun h => ⟨(List.mem_cons.mp h.1).resolve_left (Ne.symm same), h.2⟩
      | some m =>
        have less := longer other m same taken
        rcases ahead with rfl | ⟨listed, behind⟩
        · left
          simp [better, taken, Nat.not_lt.mpr (Nat.le_of_lt less)]
        · refine .inr ⟨(List.mem_cons.mp listed).resolve_left (Ne.symm same), ?_⟩
          intro p hp
          cases best with
          | none =>
            simp only [better, taken, Option.mem_def, Option.some.injEq] at hp
            exact hp ▸ less
          | some q =>
            simp only [better, taken] at hp
            split at hp
            · exact Option.some.inj hp ▸ less
            · exact behind p hp

theorem mem_all (rule : Rule) : rule ∈ all := by
  cases rule <;> decide

/-- A rule that takes more than all others wins, wherever it stands among them. -/
theorem longest_of_longer {n : Nat} (takes : rule.length? cs = some n)
    (longer : ∀ other m, other ≠ rule → other.length? cs = some m → m < n) :
    longest cs = some (rule, n) := by
  change all.foldl (better cs) none = some (rule, n)
  exact foldl_better_of_longer takes longer (.inr ⟨mem_all rule, nofun⟩)

theorem longest_of_only {n : Nat} (takes : rule.length? cs = some n)
    (only : ∀ other, other ≠ rule → other.length? cs = none) : longest cs = some (rule, n) := by
  refine longest_of_longer takes ?_
  intro other m distinct taken
  rw [only other distinct] at taken
  cases taken

/-- A word is an identifier if it is neither a hexadecimal number nor a register. -/
theorem longest_ident (letter : c.isAlpha = true)
    (other : ∀ rule ∈ [unsignedHex, signedHex, register], rule.length? (c :: cs) = none) :
    longest (c :: cs) = some (.ident, 1 + runLength isIdentChar cs) := by
  have apart : ∀ d, d.isAlpha = false → (c == d) = false := by
    rintro d h
    simp only [beq_eq_false_iff_ne]
    rintro rfl
    rw [letter] at h
    cases h
  refine longest_of_only (by simp [length?, letter]) ?_
  intro rule distinct
  cases rule with
  | ident => exact absurd rfl distinct
  | unsignedHex | signedHex | register => exact other _ (by simp)
  | unsignedLiteral =>
    apply length?_eq_none
    exact Text.isDecimalDigit_of_isAlpha letter
  | _ => exact length?_eq_none (apart _ (by decide)) cs

theorem better_sound {cs : List Char} {best : Option (Rule × Nat)} {rule : Rule}
    (sound : ∀ p ∈ best, p.1.length? cs = some p.2) :
    ∀ p ∈ better cs best rule, p.1.length? cs = some p.2 := by
  unfold better
  split
  · split
    · rintro p ⟨⟩
      assumption
    · exact sound
  · rintro p ⟨⟩
    assumption
  · exact sound

theorem length?_of_second (h : ∀ d ∈ cs.head?, Text.isDecimalDigit d = false ∧ d ≠ '-' ∧
    (c = 'x' ∨ c = 'X' → isHexLetter d = false)) :
    ∀ rule ∈ [unsignedHex, signedHex, register], rule.length? (c :: cs) = none := by
  intro rule hrule
  simp only [List.mem_cons, List.not_mem_nil, or_false] at hrule
  cases cs with
  | nil => rcases hrule with rfl | rfl | rfl <;> simp [length?, runLength]
  | cons d cs =>
    obtain ⟨digit, minus, hex⟩ := h d rfl
    rcases hrule with rfl | rfl | rfl
    · simpa [length?, digit] using hex
    · simp [length?, minus]
    · simp [length?, runLength, digit]

end Longest

/-- The rule that wins takes what it was chosen for. -/
theorem length?_of_longest {rule : Rule} {cs : List Char} {n : Nat}
    (h : longest cs = some (rule, n)) : rule.length? cs = some n := by
  have sound : ∀ p ∈ all.foldl (better cs) none, p.1.length? cs = some p.2 :=
    List.foldlRecOn (motive := fun best => ∀ p ∈ best, p.1.length? cs = some p.2)
      all (better cs) (by simp) fun _ sound _ _ => better_sound sound
  exact sound (rule, n) h

theorem length?_pos {rule : Rule} {cs : List Char} {n : Nat} (h : rule.length? cs = some n) :
    0 < n := by
  unfold length? at h
  dsimp only at h
  repeat' split at h
  all_goals simp only [Option.some.injEq, reduceCtorEq] at h
  all_goals omega

end Rule

/-- What may follow a token without becoming part of it. -/
def Delimited (rest : List Char) : Prop :=
  ∀ c ∈ rest.head?, c = ',' ∨ isSkipped c = true

/-- A character that goes on no token. -/
structure Breaks (c : Char) : Prop where
  ident : isIdentChar c = false
  word : Text.isWordChar c = false
  digit : Text.isDecimalDigit c = false
  hex : isHexLetter c = false
  minus : c ≠ '-'

/-- What may follow a token goes on none of its classes of characters. -/
theorem Delimited.classes {rest : List Char} (h : Delimited rest) : ∀ c ∈ rest.head?, Breaks c := by
  intro c hc
  have delimiter := h c hc
  simp only [isSkipped, Bool.or_eq_true, beq_iff_eq] at delimiter
  rcases delimiter with rfl | ((rfl | rfl) | rfl) | rfl <;> constructor <;> decide

/-- The characters are taken together wherever a delimiter follows them, with this outcome. -/
def Spells (cs : List Char) (result : Except LexError Token) : Prop :=
  ∀ rest, Delimited rest →
    ∃ rule, Rule.longest (cs ++ rest) = some (rule, cs.length) ∧ rule.token cs = result

section Spelling
open Literal
variable {radix limit acc v : Nat} {cs rest : List Char}

theorem runLength_digits (value : valueOnto? radix acc cs = some v) (delimited : Delimited rest) :
    runLength Text.isWordChar (cs ++ rest) = cs.length ∧
      runLength isIdentChar (cs ++ rest) = cs.length := by
  have word : ∀ c ∈ cs, Text.isWordChar c = true := by
    intro c hc
    obtain ⟨d, digit⟩ := digit_of_valueOnto? value c hc
    exact Text.isWordChar_of_digitValue? digit
  constructor
  · exact runLength_append word fun c hc => (delimited.classes c hc).word
  · refine runLength_append (fun c hc => ?_) fun c hc => (delimited.classes c hc).ident
    rw [isIdentChar, word c hc, Bool.true_or]

/-- A limit on the digits changes nothing if the number is judged anyway. -/
theorem judge_read {error : NumberError → LexError} {judge : Nat → Except LexError Token}
    (some : cs ≠ []) (value : valueOnto? radix 0 cs = .some v)
    (beyond : ¬ v ≤ limit → judge v = .error (error .tooLarge)) :
    ((read radix limit cs).mapError error >>= judge) = judge v := by
  rw [read_of_valueOnto? some value]
  by_cases fits : v ≤ limit
  · rw [if_pos fits]
    rfl
  · rw [if_neg fits, beyond fits]
    rfl

/-- A number after a hash mark is one token, however many digits it has. -/
theorem spells_decimal (some : cs ≠ []) (value : valueOnto? 10 0 cs = .some v) :
    Spells ('#' :: cs) (Rule.unsignedOfNat v) := by
  intro rest delimited
  have plain : ∀ c ∈ (cs ++ rest).head?, c ≠ '-' := by
    obtain ⟨c, ds, rfl⟩ := List.exists_cons_of_ne_nil some
    rintro _ ⟨⟩ rfl
    obtain ⟨d, digit⟩ := digit_of_valueOnto? value '-' List.mem_cons_self
    cases digit
  refine ⟨.unsignedDecimal, ?_, judge_read some value fun large => if_neg large⟩
  rw [List.cons_append, Rule.longest_hash plain, (runLength_digits value delimited).1,
    List.length_cons, Nat.add_comm]

theorem spells_negative (some : cs ≠ []) (value : valueOnto? 10 0 cs = .some v) :
    Spells ('#' :: '-' :: cs) (Rule.negativeOfNat v) := by
  intro rest delimited
  refine ⟨.signedDecimal, ?_, judge_read some value fun large => if_neg large⟩
  rw [List.cons_append, List.cons_append, Rule.longest_hash_minus,
    (runLength_digits value delimited).1, List.length_cons, List.length_cons, Nat.add_comm]

/-- A number after the mark of hexadecimal ones is one token, however many digits it has. -/
theorem spells_hex {x : Char} (mark : x = 'x' ∨ x = 'X') (some : cs ≠ [])
    (value : valueOnto? 16 0 cs = .some v) : Spells (x :: cs) (Rule.unsignedOfNat v) := by
  intro rest delimited
  have whole := (runLength_digits value delimited).2
  refine ⟨.unsignedHex, ?_, judge_read some value fun large => if_neg large⟩
  obtain ⟨c, ds, rfl⟩ := List.exists_cons_of_ne_nil some
  obtain ⟨d, digit, value⟩ := valueOnto?_cons_eq_some_iff.mp value
  have behind := (runLength_digits value delimited).1
  have tie : runLength isIdentChar (c :: (ds ++ rest)) =
      1 + runLength Text.isWordChar (ds ++ rest) := by
    rw [behind, ← List.cons_append, whole, List.length_cons, Nat.add_comm]
  rw [List.cons_append, List.cons_append, Rule.longest_hex mark
    (Text.isHex_of_digitValue? digit) (Nat.le_of_eq tie), behind, List.length_cons,
    List.length_cons, Nat.add_comm]

theorem spells_register (some : cs ≠ []) (value : valueOnto? 10 0 cs = .some v) (small : v ≤ 7) :
    Spells ('R' :: cs) (.ok (.reg (BitVec.ofNat 3 v))) := by
  intro rest delimited
  have digits : runLength Text.isDecimalDigit (cs ++ rest) = cs.length := by
    refine runLength_append (fun c hc => ?_) fun c hc => (delimited.classes c hc).digit
    obtain ⟨d, digit⟩ := digit_of_valueOnto? value c hc
    exact Text.isDecimalDigit_of_digitValue? digit
  have tie : runLength isIdentChar (cs ++ rest) = runLength Text.isDecimalDigit (cs ++ rest) := by
    rw [digits, (runLength_digits value delimited).2]
  refine ⟨.register, ?_, ?_⟩
  · rw [List.cons_append, Rule.longest_register (.inr rfl) ?_ (Nat.le_of_eq tie), digits,
      List.length_cons, Nat.add_comm]
    rwa [digits, Ne, List.length_eq_zero_iff]
  · simp only [Rule.token, List.drop_one, List.tail_cons]
    rw [read_of_valueOnto? some value, if_pos small]

/-- A word of letters is an identifier, unless it begins like a hexadecimal number. -/
theorem spells_letters {c : Char} (letters : ∀ d ∈ c :: cs, d.isAlpha = true)
    (plain : c = 'x' ∨ c = 'X' → ∀ d ∈ cs.head?, isHexLetter d = false) :
    Spells (c :: cs) (.ok (.ident (String.ofList (c :: cs)))) := by
  intro rest delimited
  have letter := letters c List.mem_cons_self
  have words : ∀ d ∈ cs, isIdentChar d = true := by
    intro d hd
    rw [isIdentChar, Text.isWordChar_of_isAlpha (letters d (List.mem_cons_of_mem c hd)),
      Bool.true_or]
  have run : runLength isIdentChar (cs ++ rest) = cs.length :=
    runLength_append words fun d hd => (delimited.classes d hd).ident
  have other : ∀ d ∈ (cs ++ rest).head?, Text.isDecimalDigit d = false ∧ d ≠ '-' ∧
      (c = 'x' ∨ c = 'X' → isHexLetter d = false) := by
    cases cs with
    | nil => exact fun d hd => ⟨(delimited.classes d hd).digit, (delimited.classes d hd).minus,
        fun _ => (delimited.classes d hd).hex⟩
    | cons e es =>
      rintro d ⟨⟩
      have letter := letters e (List.mem_cons_of_mem c List.mem_cons_self)
      refine ⟨Text.isDecimalDigit_of_isAlpha letter, ?_, fun x => plain x e rfl⟩
      rintro rfl
      cases letter
  refine ⟨.ident, ?_, rfl⟩
  rw [List.cons_append, Rule.longest_ident letter (Rule.length?_of_second other), run,
    List.length_cons, Nat.add_comm]

end Spelling

end Token

namespace Lexeme

def argument (x : Lexeme) : Argument :=
  ⟨x.result, x.text⟩

theorem front_of_longest {rule : Token.Rule} {c : Char} {cs rest : List Char}
    (h : Token.Rule.longest (c :: (cs ++ rest)) = some (rule, cs.length + 1)) :
    front c (cs ++ rest) = (rule.token (c :: cs), c :: cs) := by
  simp [front, h]

theorem front_comma (cs : List Char) : front ',' cs = (.ok .comma, [',']) := by
  rw [front, Token.Rule.longest_comma]
  rfl

/-- Characters that are taken together are visible, and all of them are taken at once. -/
theorem exists_front_of_spells {cs rest : List Char} {result : Except LexError Token}
    (spells : Token.Spells cs result) (delimited : Token.Delimited rest) : ∃ c ds, cs = c :: ds ∧
      Token.isSkipped c = false ∧ front c (ds ++ rest) = (result, c :: ds) := by
  obtain ⟨rule, longest, outcome⟩ := spells rest delimited
  rcases cs with _ | ⟨c, ds⟩
  · exact absurd (Token.Rule.length?_pos (Token.Rule.length?_of_longest longest))
      (Nat.lt_irrefl 0)
  · refine ⟨c, ds, rfl, Bool.eq_false_iff.mpr fun skipped => ?_, ?_⟩
    · rw [List.cons_append, Token.Rule.longest_of_isSkipped skipped] at longest
      cases longest
    · rw [← outcome]
      exact front_of_longest longest

theorem length_front_pos (c : Char) (cs : List Char) : 0 < (front c cs).2.length := by
  unfold front
  cases h : Token.Rule.longest (c :: cs) with
  | none => exact Nat.one_pos
  | some best =>
    obtain ⟨rule, n⟩ := best
    have positive := Token.Rule.length?_pos (Token.Rule.length?_of_longest h)
    simp only [List.length_take, List.length_cons]
    omega

theorem lexFrom_cons {fuel pos : Nat} {c : Char} {cs : List Char}
    (visible : Token.isSkipped c = false) : lexFrom (fuel + 1) pos (c :: cs) =
      ⟨(front c cs).1, (front c cs).2, pos, pos + byteLength (front c cs).2⟩ ::
        lexFrom fuel (pos + byteLength (front c cs).2) ((c :: cs).drop (front c cs).2.length) := by
  rw [lexFrom, visible]
  rfl

/-- The lexeme in a line in which it stands `k` bytes further on. -/
def moved (k : Nat) (x : Lexeme) : Lexeme :=
  { x with start := k + x.start, stop := k + x.stop }

/-- What is read does not depend on the fuel if there is enough, and it moves with the text. -/
theorem lexFrom_eq_map_moved (k pos : Nat) {fuel more : Nat} {cs : List Char}
    (enough : cs.length ≤ fuel) (enough' : cs.length ≤ more) :
    lexFrom fuel (k + pos) cs = (lexFrom more pos cs).map (moved k) := by
  induction fuel generalizing more pos cs with
  | zero =>
    obtain rfl := List.length_eq_zero_iff.mp (Nat.le_zero.mp enough)
    cases more <;> rfl
  | succ fuel ih =>
    rcases cs with _ | ⟨c, cs⟩
    · cases more <;> rfl
    · obtain ⟨more, rfl⟩ : ∃ k, more = k + 1 := ⟨more - 1, by simp at enough'; omega⟩
      simp only [List.length_cons, Nat.add_le_add_iff_right] at enough enough'
      cases visible : Token.isSkipped c with
      | true =>
        simp only [lexFrom, visible, if_true]
        rw [Nat.add_assoc]
        exact ih _ enough enough'
      | false =>
        have shorter : ((c :: cs).drop (front c cs).2.length).length ≤ cs.length := by
          have := length_front_pos c cs
          simp only [List.length_drop, List.length_cons]
          omega
        rw [lexFrom_cons visible, lexFrom_cons visible, List.map_cons, Nat.add_assoc,
          ih _ (Nat.le_trans shorter enough) (Nat.le_trans shorter enough')]
        rfl

/-- More fuel than characters changes nothing. -/
theorem lexFrom_congr {fuel more pos : Nat} {cs : List Char} (enough : cs.length ≤ fuel)
    (enough' : cs.length ≤ more) : lexFrom fuel pos cs = lexFrom more pos cs := by
  have same := lexFrom_eq_map_moved 0 pos enough enough'
  have still : moved 0 = id := by
    funext x
    simp [moved]
  rwa [Nat.zero_add, still, List.map_id] at same

theorem map_argument_congr {fuel more pos other : Nat} {cs : List Char}
    (enough : cs.length ≤ fuel) (enough' : cs.length ≤ more) :
    (lexFrom fuel pos cs).map argument = (lexFrom more other cs).map argument := by
  have moves : ∀ k, argument ∘ moved k = argument := fun _ => rfl
  have first := lexFrom_eq_map_moved pos 0 enough (Nat.le_refl _)
  have second := lexFrom_eq_map_moved other 0 enough' (Nat.le_refl _)
  rw [Nat.add_zero] at first second
  rw [first, second, List.map_map, List.map_map, moves, moves]

/-- A text is read lexeme by lexeme, with what is skipped between them. -/
theorem induction {P : List Char → Prop} (nil : P [])
    (skip : ∀ c cs, Token.isSkipped c = true → P cs → P (c :: cs))
    (lexeme : ∀ c cs, Token.isSkipped c = false →
      P ((c :: cs).drop (front c cs).2.length) → P (c :: cs)) (cs : List Char) : P cs := by
  induction length : cs.length using Nat.strongRecOn generalizing cs with
  | ind n ih =>
    subst length
    cases cs with
    | nil => exact nil
    | cons c cs =>
      cases visible : Token.isSkipped c with
      | true => exact skip c cs visible (ih cs.length (by simp) cs rfl)
      | false =>
        have shorter : ((c :: cs).drop (front c cs).2.length).length < (c :: cs).length := by
          have := length_front_pos c cs
          simp only [List.length_drop, List.length_cons]
          omega
        exact lexeme c cs visible (ih _ shorter _ rfl)

end Lexeme

namespace Argument
open Token

theorem filter_map_argument (pos : Nat) {fuel : Nat} {cs : List Char} (enough : cs.length ≤ fuel) :
    ((Lexeme.lexFrom fuel pos cs).map Lexeme.argument).filter (!·.isSeparator) = ofChars cs := by
  rw [Lexeme.map_argument_congr enough (Nat.le_refl _)]
  rfl

theorem ofChars_of_isSkipped {c : Char} (h : isSkipped c = true) (cs : List Char) :
    ofChars (c :: cs) = ofChars cs := by
  rw [← filter_map_argument (0 + c.utf8Size) (Nat.le_refl cs.length)]
  simp only [ofChars, Lexeme.ofChars, Lexeme.lexFrom, List.length_cons, h, if_true]
  rfl

theorem ofChars_cons {c : Char} (visible : isSkipped c = false) (cs : List Char) :
    ofChars (c :: cs) =
      [⟨(Lexeme.front c cs).1, String.ofList (Lexeme.front c cs).2⟩].filter (!·.isSeparator) ++
        ofChars ((c :: cs).drop (Lexeme.front c cs).2.length) := by
  have shorter : ((c :: cs).drop (Lexeme.front c cs).2.length).length ≤ cs.length := by
    have := Lexeme.length_front_pos c cs
    simp only [List.length_drop, List.length_cons]
    omega
  rw [← filter_map_argument (0 + Lexeme.byteLength (Lexeme.front c cs).2) shorter,
    ← List.filter_append]
  simp only [ofChars, Lexeme.ofChars, List.length_cons, Lexeme.lexFrom_cons visible]
  rfl

theorem ofChars_comma (cs : List Char) : ofChars (',' :: cs) = ofChars cs := by
  rw [ofChars_cons (by decide), Lexeme.front_comma]
  rfl

/-- A token that something delimits is the first argument, and the others are those behind it. -/
theorem ofChars_of_spells {cs rest : List Char} {result : Except LexError Token}
    (spells : Spells cs result) (delimited : Delimited rest)
    (plain : (⟨result, String.ofList cs⟩ : Argument).isSeparator = false) :
    ofChars (cs ++ rest) = ⟨result, String.ofList cs⟩ :: ofChars rest := by
  obtain ⟨c, cs, rfl, visible, front⟩ := Lexeme.exists_front_of_spells spells delimited
  have kept : [(⟨result, String.ofList (c :: cs)⟩ : Argument)].filter (!·.isSeparator) =
      [⟨result, String.ofList (c :: cs)⟩] := by
    simp only [List.filter, plain, Bool.not_false]
  rw [List.cons_append, ofChars_cons visible, front]
  dsimp only
  rw [kept]
  simp

end Argument

end Shell

end Lc4
