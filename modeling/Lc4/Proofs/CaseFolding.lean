import Lc4.Proofs.Lines
import Lc4.Proofs.Literals

/-!
# The case of letters

No rule tells a capital letter from a small one. A line in small letters is read like the line
itself, but for the paths, labels and quoted texts that are copied from it.
-/
namespace Lc4

namespace Text

/-- The text in small letters. -/
def uncased (s : String) : String :=
  String.ofList (s.toList.map Char.toLower)

theorem toList_uncased (s : String) : (uncased s).toList = s.toList.map Char.toLower :=
  String.toList_ofList

theorem uncased_ofList (cs : List Char) :
    uncased (String.ofList cs) = String.ofList (cs.map Char.toLower) := by
  rw [uncased, String.toList_ofList]

section Characters
variable {c : Char} {p : Char → Bool} {cs : List Char}

/-- Only the capital letters change when they are made small. -/
theorem toLower_induction {P : Char → Char → Prop} (same : ∀ c, P c c)
    (letter : ∀ n < 26, P (Char.ofNat (n + 65)) (Char.ofNat (n + 65)).toLower) (c : Char) :
    P c c.toLower := by
  by_cases capital : c.val ≥ 'A'.val ∧ c.val ≤ 'Z'.val
  · have first : 65 ≤ c.toNat := UInt32.le_iff_toNat_le.mp capital.1
    have last : c.toNat ≤ 90 := UInt32.le_iff_toNat_le.mp capital.2
    have code := letter (c.toNat - 65) (by omega)
    rwa [Nat.sub_add_cancel first, Char.ofNat_toNat] at code
  · have kept : c.toLower = c := by
      delta Char.toLower
      rw [dif_neg capital]
    rw [kept]
    exact same c

/-- Whether a character is in the class does not depend on its case. -/
def IgnoresCase (p : Char → Bool) : Prop :=
  ∀ c, p c.toLower = p c

/-- To ignore the case of letters is a matter of 26 of them. -/
theorem ignoresCase_of_letters (letter : ∀ n < 26,
    p (Char.ofNat (n + 65)).toLower = p (Char.ofNat (n + 65))) : IgnoresCase p :=
  toLower_induction (P := fun c d => p d = p c) (fun _ => rfl) letter

theorem ignoresCase_isBlank : IgnoresCase isBlank :=
  ignoresCase_of_letters (by decide)

theorem ignoresCase_isDecimalDigit : IgnoresCase isDecimalDigit :=
  ignoresCase_of_letters (by decide)

theorem ignoresCase_isWordChar : IgnoresCase isWordChar :=
  ignoresCase_of_letters (by decide)

theorem ignoresCase_not (h : IgnoresCase p) : IgnoresCase fun c => !p c :=
  fun c => congrArg _ (h c)

/-- A character that is no letter stays the same, and none other becomes one like it. -/
theorem ignoresCase_beq (mark : c.isAlpha = false) : IgnoresCase (· == c) := by
  apply ignoresCase_of_letters
  intro n small
  have letters : ∀ n < 26, (Char.ofNat (n + 65)).toLower.isAlpha = true ∧
      (Char.ofNat (n + 65)).isAlpha = true := by decide
  obtain ⟨lower, upper⟩ := letters n small
  have apart : ∀ d : Char, d.isAlpha = true → (d == c) = false := by
    rintro d letter
    simp only [beq_eq_false_iff_ne]
    rintro rfl
    rw [mark] at letter
    cases letter
  rw [apart _ lower, apart _ upper]

theorem toLower_eq_iff (mark : c.isAlpha = false) {d : Char} : d.toLower = c ↔ d = c := by
  have same := ignoresCase_beq mark d
  rw [Bool.eq_iff_iff] at same
  simpa only [beq_iff_eq] using same

theorem comp_toLower (h : IgnoresCase p) : p ∘ Char.toLower = p :=
  funext h

theorem takeWhile_map_toLower (h : IgnoresCase p) (cs : List Char) :
    (cs.map Char.toLower).takeWhile p = (cs.takeWhile p).map Char.toLower := by
  rw [List.takeWhile_map, comp_toLower h]

theorem dropWhile_map_toLower (h : IgnoresCase p) (cs : List Char) :
    (cs.map Char.toLower).dropWhile p = (cs.dropWhile p).map Char.toLower := by
  rw [List.dropWhile_map, comp_toLower h]

theorem filter_map_toLower (h : IgnoresCase p) (cs : List Char) :
    (cs.map Char.toLower).filter p = (cs.filter p).map Char.toLower := by
  rw [List.filter_map, comp_toLower h]

theorem trim_map_toLower (cs : List Char) :
    trim (cs.map Char.toLower) = (trim cs).map Char.toLower := by
  simp only [trim, dropWhile_map_toLower ignoresCase_isBlank, ← List.map_reverse]

theorem splitWord_map_toLower (cs : List Char) : splitWord (cs.map Char.toLower) =
    ((splitWord cs).1.map Char.toLower, (splitWord cs).2.map Char.toLower) := by
  have solid := ignoresCase_not ignoresCase_isBlank
  simp only [splitWord, takeWhile_map_toLower solid, dropWhile_map_toLower solid, List.map_drop]

theorem upper_map_toLower (cs : List Char) : upper (cs.map Char.toLower) = upper cs := by
  have same : ∀ c : Char, upperChar c.toLower = upperChar c :=
    toLower_induction (P := fun c d => upperChar d = upperChar c) (fun _ => rfl) (by decide)
  simp only [upper, List.flatMap_map, same]

theorem lower_map_toLower (cs : List Char) : lower (cs.map Char.toLower) = lower cs := by
  have same : ∀ c : Char, lowerChar c.toLower = lowerChar c :=
    toLower_induction (P := fun c d => lowerChar d = lowerChar c) (fun _ => rfl) (by decide)
  simp only [lower, List.map_map, Function.comp_def, same]

end Characters

end Text

namespace Shell

open Text

namespace Literal

theorem digitValue?_toLower (radix : Nat) (c : Char) :
    digitValue? radix c.toLower = digitValue? radix c := by
  rw [← digitValue?_toUpper, ← digitValue?_toUpper radix c]
  congr 1
  exact toLower_induction (P := fun c d => d.toUpper = c.toUpper) (fun _ => rfl) (by decide) c

theorem read_map_toLower (radix limit : Nat) (cs : List Char) :
    read radix limit (cs.map Char.toLower) = read radix limit cs := by
  have onto : ∀ acc, readOnto radix limit acc (cs.map Char.toLower) =
      readOnto radix limit acc cs := by
    induction cs with
    | nil => exact fun _ => rfl
    | cons c cs ih =>
      intro acc
      simp only [List.map_cons, readOnto, digitValue?_toLower, ih]
  simp only [read, List.isEmpty_map, onto]

theorem mem_marks_toLower (c : Char) :
    ∀ p ∈ marks, (p.1 = c.toLower → (c, p.2) ∈ marks) ∧ (p.1 = c → (c.toLower, p.2) ∈ marks) :=
  toLower_induction
    (P := fun c d => ∀ p ∈ marks, (p.1 = d → (c, p.2) ∈ marks) ∧ (p.1 = c → (d, p.2) ∈ marks))
    (fun c p hp => ⟨fun same => same ▸ hp, fun same => same ▸ hp⟩) (by decide) c

theorem splitRadix_map_toLower (cs : List Char) : splitRadix (cs.map Char.toLower) =
    ((splitRadix cs).1, (splitRadix cs).2.map Char.toLower) := by
  have zero {c : Char} : c.toLower = '0' ↔ c = '0' := toLower_eq_iff rfl
  rcases cs with _ | ⟨c, cs⟩
  · rfl
  · by_cases octal : c = '0'
    · subst octal
      rcases cs with _ | ⟨d, cs⟩
      · rfl
      · by_cases marked : ∃ radix, (d, radix) ∈ marks
        · obtain ⟨radix, known⟩ := marked
          have known' := (mem_marks_toLower d _ known).2 rfl
          rw [splitRadix_of_mark known]
          exact splitRadix_of_mark known' _
        · have unmarked : ∀ radix, (d, radix) ∉ marks := fun radix h => marked ⟨radix, h⟩
          have unmarked' : ∀ radix, (d.toLower, radix) ∉ marks := by
            intro radix h
            exact unmarked radix ((mem_marks_toLower d _ h).1 rfl)
          rw [splitRadix_of_zero unmarked]
          exact splitRadix_of_zero unmarked' _
    · have plain : ∀ {e : Char} {es : List Char}, e ≠ '0' → splitRadix (e :: es) = (10, e :: es) :=
        fun other => splitRadix_of_plain fun first => absurd (Option.some.inj first) other
      rw [plain octal]
      exact plain (mt zero.mp octal)

theorem readMarked_map_toLower (cs : List Char) :
    readMarked (cs.map Char.toLower) = readMarked cs := by
  have space := ignoresCase_not (ignoresCase_beq (c := '_') rfl)
  have filter : ∀ ds : List Char, (ds.map Char.toLower).filter (· != '_') =
      (ds.filter (· != '_')).map Char.toLower := filter_map_toLower space
  simp only [readMarked, splitRadix_map_toLower, filter]
  split <;> exact read_map_toLower _ _ _

end Literal

namespace Token

/-- The token with its name in small letters. -/
def uncased : Token → Token
  | ident name => ident (Text.uncased name)
  | t => t

section Classes
variable {p : Char → Bool}

theorem ignoresCase_isSkipped : IgnoresCase isSkipped :=
  ignoresCase_of_letters (by decide)

theorem ignoresCase_isHexLetter : IgnoresCase isHexLetter :=
  ignoresCase_of_letters (by decide)

theorem ignoresCase_isIdentChar : IgnoresCase isIdentChar :=
  ignoresCase_of_letters (by decide)

theorem runLength_map_toLower (h : IgnoresCase p) (cs : List Char) :
    runLength p (cs.map Char.toLower) = runLength p cs := by
  rw [runLength, takeWhile_map_toLower h, List.length_map, runLength]

end Classes

namespace Rule

/-- No rule is started by a letter in one case only. -/
theorem ignoresCase_starts (rule : Rule) : IgnoresCase (starts · rule) := by
  cases rule <;> exact ignoresCase_of_letters (by decide)

theorem takes?_map_toLower (rule : Rule) (cs : List Char) :
    rule.takes? (cs.map Char.toLower) = rule.takes? cs := by
  have words := runLength_map_toLower ignoresCase_isWordChar
  have digits := runLength_map_toLower ignoresCase_isDecimalDigit
  have idents := runLength_map_toLower ignoresCase_isIdentChar
  have line := runLength_map_toLower (ignoresCase_not (ignoresCase_beq (c := '\n') rfl))
  cases rule with
  | comma => rfl
  | comment => exact congrArg (fun n => some (1 + n)) (line cs)
  | unsignedLiteral | unsignedDecimal | signedLiteral | register | ident =>
    simp only [takes?, words, digits, idents]
  | unsignedHex =>
    simp only [takes?, List.head?_map, Option.any_map, ← List.map_tail, words,
      ignoresCase_isDecimalDigit _, ignoresCase_isHexLetter _]
  | signedDecimal | signedHex =>
    have minus : (cs.map Char.toLower).head? = some '-' ↔ cs.head? = some '-' := by
      cases cs with
      | nil => rfl
      | cons d cs => simpa using toLower_eq_iff rfl
    simp only [takes?, minus, ← List.map_tail, words]

/-- The same rule takes as much of a text in small letters. -/
theorem longest_map_toLower (cs : List Char) : longest (cs.map Char.toLower) = longest cs := by
  refine longest_congr fun rule => ?_
  rcases cs with _ | ⟨c, cs⟩
  · rfl
  · have first : starts c.toLower rule = starts c rule := ignoresCase_starts rule c
    rw [List.map_cons, length?_cons, length?_cons, first, takes?_map_toLower]

/-- What a rule makes of a text in small letters is the same token, with its name in small letters.
-/
theorem token_map_toLower (rule : Rule) (cs : List Char) :
    rule.token (cs.map Char.toLower) = (rule.token cs).map Token.uncased := by
  have judged : ∀ (judge : Nat → Except LexError Token) (r : Except LexError Nat),
      (∀ n, (judge n).map Token.uncased = judge n) →
        (r >>= judge).map Token.uncased = r >>= judge := by
    rintro judge (_ | n) h
    · rfl
    · exact h n
  have unsigned : ∀ n, (unsignedOfNat n).map Token.uncased = unsignedOfNat n := by
    intro n
    unfold unsignedOfNat
    split <;> rfl
  have negative : ∀ n, (negativeOfNat n).map Token.uncased = negativeOfNat n := by
    intro n
    unfold negativeOfNat
    split <;> rfl
  cases rule with
  | unsignedLiteral | unsignedDecimal | unsignedHex =>
    simp only [token, ← List.map_drop, Literal.readMarked_map_toLower, Literal.read_map_toLower]
    exact (judged _ _ unsigned).symm
  | signedLiteral | signedDecimal | signedHex =>
    simp only [token, ← List.map_drop, Literal.readMarked_map_toLower, Literal.read_map_toLower]
    exact (judged _ _ negative).symm
  | register =>
    simp only [token, ← List.map_drop, Literal.read_map_toLower]
    split <;> rfl
  | ident =>
    simp only [token, ← uncased_ofList]
    rfl
  | comma | comment => rfl

end Rule

end Token

namespace Lexeme

/-- The first lexeme of a text in small letters is that of the text, in small letters. -/
theorem front_map_toLower (c : Char) (cs : List Char) : front c.toLower (cs.map Char.toLower) =
    ((front c cs).1.map Token.uncased, (front c cs).2.map Char.toLower) := by
  unfold front
  rw [← List.map_cons, Token.Rule.longest_map_toLower]
  split
  · rw [← List.map_take, Token.Rule.token_map_toLower]
  · rfl

end Lexeme

namespace Argument

def uncased (a : Argument) : Argument :=
  ⟨a.result.map Token.uncased, Text.uncased a.text⟩

theorem isSeparator_uncased (a : Argument) : a.uncased.isSeparator = a.isSeparator := by
  obtain ⟨_ | t, text⟩ := a
  · rfl
  · cases t <;> rfl

/-- A text in small letters has the same arguments in small letters. -/
theorem ofChars_map_toLower (cs : List Char) :
    ofChars (cs.map Char.toLower) = (ofChars cs).map uncased := by
  induction cs using Lexeme.induction with
  | nil => rfl
  | skip c cs skipped ih =>
    have skipped' : Token.isSkipped c.toLower = true := by
      rw [Token.ignoresCase_isSkipped, skipped]
    rw [List.map_cons, ofChars_of_isSkipped skipped, ofChars_of_isSkipped skipped', ih]
  | lexeme c cs visible ih =>
    have visible' : Token.isSkipped c.toLower = false := by
      rw [Token.ignoresCase_isSkipped, visible]
    have kept : ∀ args : List Argument, (args.map uncased).filter (!·.isSeparator) =
        (args.filter (!·.isSeparator)).map uncased := by
      intro args
      simp only [List.filter_map, Function.comp_def, isSeparator_uncased]
    rw [List.map_cons, ofChars_cons visible, ofChars_cons visible', Lexeme.front_map_toLower,
      List.length_map, ← List.map_cons, ← List.map_drop, ih, List.map_append, ← kept]
    simp only [List.map_cons, List.map_nil, uncased, uncased_ofList]

end Argument

end Shell

end Lc4
