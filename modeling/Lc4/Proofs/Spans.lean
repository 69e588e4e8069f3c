import Lc4.Proofs.Literals
import Lc4.Text.Utf8
import Mathlib.Data.List.TakeWhile

/-!
# Spans of lexemes

The lexemes of a line stand behind each other in it, each over its own characters, and only blanks
stand between them. A name is one lexeme with the text of the name, unless it is a word for a
hexadecimal number or a register.
-/
namespace Lc4.Shell

namespace Token

/-- The words of the form `[A-Za-z_][\w.]*`. -/
def isName : List Char → Bool
  | [] => false
  | c :: cs => (c.isAlpha || c == '_') && cs.all isIdentChar

/-- The words of the form `[Xx][\dA-Fa-f]\w*`. -/
def isHexWord : List Char → Bool
  | x :: c :: cs =>
    (x == 'x' || x == 'X') && (Text.isDecimalDigit c || isHexLetter c) && cs.all Text.isWordChar
  | _ => false

/-- The words of the form `[Rr]\d+`. -/
def isRegisterWord : List Char → Bool
  | [] => false
  | x :: cs => (x == 'r' || x == 'R') && !cs.isEmpty && cs.all Text.isDecimalDigit

section Runs
variable {p : Char → Bool} {cs : List Char}

theorem runLength_le (p : Char → Bool) (cs : List Char) : runLength p cs ≤ cs.length :=
  (List.takeWhile_prefix p).length_le

theorem runLength_eq_length_iff : runLength p cs = cs.length ↔ cs.all p = true := by
  rw [List.all_eq_true, ← List.takeWhile_eq_self_iff]
  exact ⟨(List.takeWhile_prefix p).eq_of_length, congrArg List.length⟩

theorem runLength_lt (some : cs.all p = false) : runLength p cs < cs.length := by
  refine Nat.lt_of_le_of_ne (runLength_le p cs) fun whole => ?_
  rw [runLength_eq_length_iff, some] at whole
  cases whole

end Runs

namespace Rule
variable {x c : Char} {cs : List Char} {rule : Rule}

theorem longest_isHexWord (word : isHexWord (x :: cs) = true) :
    longest (x :: cs) = some (.unsignedHex, cs.length + 1) := by
  rcases cs with _ | ⟨c, cs⟩
  · cases word
  · simp only [isHexWord, Bool.and_eq_true, Bool.or_eq_true, beq_iff_eq] at word
    obtain ⟨⟨mark, digit⟩, rest⟩ := word
    have run : runLength Text.isWordChar cs = cs.length := runLength_eq_length_iff.mpr rest
    have tie : runLength isIdentChar (c :: cs) ≤ 1 + runLength Text.isWordChar cs := by
      rw [run, Nat.add_comm]
      exact runLength_le isIdentChar (c :: cs)
    rw [longest_hex mark digit tie, run, List.length_cons, Nat.add_comm]

theorem longest_isRegisterWord (word : isRegisterWord (x :: cs) = true) :
    longest (x :: cs) = some (.register, cs.length + 1) := by
  simp only [isRegisterWord, Bool.and_eq_true, Bool.or_eq_true, beq_iff_eq, Bool.not_eq_true',
    List.isEmpty_eq_false_iff] at word
  obtain ⟨⟨mark, some⟩, digits⟩ := word
  have run : runLength Text.isDecimalDigit cs = cs.length := runLength_eq_length_iff.mpr digits
  have tie : runLength isIdentChar cs ≤ runLength Text.isDecimalDigit cs := by
    rw [run]
    exact runLength_le isIdentChar cs
  rw [longest_register mark ?_ tie, run, Nat.add_comm]
  rwa [run, Ne, List.length_eq_zero_iff]

theorem lt_of_isHexWord {n : Nat} (word : isHexWord (c :: cs) = false)
    (taken : unsignedHex.length? (c :: cs) = some n) : n < 1 + cs.length := by
  rw [length?_cons, Option.ite_none_right_eq_some] at taken
  obtain ⟨start, taken⟩ := taken
  rcases cs with _ | ⟨d, cs⟩
  · cases taken
  · rw [takes?, Option.ite_none_right_eq_some] at taken
    obtain ⟨digit, taken⟩ := taken
    obtain rfl := Option.some.inj taken
    simp only [starts] at start
    simp only [List.head?_cons, Option.any_some] at digit
    simp only [isHexWord, start, digit, Bool.true_and] at word
    have shorter := runLength_lt word
    rw [List.tail_cons, List.length_cons]
    omega

theorem lt_of_isRegisterWord {n : Nat} (word : isRegisterWord (c :: cs) = false)
    (taken : register.length? (c :: cs) = some n) : n < 1 + cs.length := by
  rw [length?_cons, Option.ite_none_right_eq_some] at taken
  obtain ⟨start, taken⟩ := taken
  simp only [takes?, Option.ite_none_left_eq_some, Option.some.injEq] at taken
  obtain ⟨some, rfl⟩ := taken
  have present : cs.isEmpty = false := by
    cases cs with
    | nil => exact absurd rfl some
    | cons d cs => rfl
  simp only [starts] at start
  simp only [isRegisterWord, start, present, Bool.not_false, Bool.true_and] at word
  exact Nat.add_lt_add_left (runLength_lt word) 1

/-- The rules that a name can begin with. -/
theorem mem_of_starts (first : c.isAlpha = true ∨ c = '_') (start : rule.starts c = true) :
    rule ∈ [unsignedHex, signedHex, register, ident] := by
  cases rule with
  | unsignedHex | signedHex | register | ident => simp
  | unsignedLiteral =>
    rcases first with letter | rfl
    · rw [starts, Text.isDecimalDigit_of_isAlpha letter] at start
      cases start
    · exact absurd start (by decide)
  | unsignedDecimal | signedDecimal | signedLiteral | comma | comment =>
    obtain rfl := eq_of_beq start
    exact absurd first (by decide)

/-- What another rule takes from a name ends before it. -/
theorem lt_of_isName {n : Nat} (name : isName (c :: cs) = true)
    (hex : isHexWord (c :: cs) = false) (reg : isRegisterWord (c :: cs) = false)
    (other : rule ≠ ident) (taken : rule.length? (c :: cs) = some n) : n < 1 + cs.length := by
  simp only [isName, Bool.and_eq_true, Bool.or_eq_true, beq_iff_eq] at name
  obtain ⟨first, behind⟩ := name
  have start : rule.starts c = true := by
    by_contra none
    rw [length?_cons, if_neg none] at taken
    cases taken
  have listed := mem_of_starts first start
  simp only [List.mem_cons, List.not_mem_nil, or_false] at listed
  rcases listed with rfl | rfl | rfl | rfl
  · exact lt_of_isHexWord hex taken
  · -- A negative number has a minus sign behind its mark, and a name has none.
    rw [length?_cons, if_pos start, takes?, Option.ite_none_right_eq_some] at taken
    have minus : isIdentChar '-' = true :=
      List.all_eq_true.mp behind '-' (List.mem_of_head? taken.1)
    exact absurd minus (by decide)
  · exact lt_of_isRegisterWord reg taken
  · exact absurd rfl other

/-- A name that is no word for a number or a register is one identifier. -/
theorem longest_isName (name : isName (c :: cs) = true) (hex : isHexWord (c :: cs) = false)
    (reg : isRegisterWord (c :: cs) = false) :
    longest (c :: cs) = some (.ident, cs.length + 1) := by
  have parts := name
  simp only [isName, Bool.and_eq_true] at parts
  have run : runLength isIdentChar cs = cs.length := runLength_eq_length_iff.mpr parts.2
  have takes : ident.length? (c :: cs) = some (1 + cs.length) := by
    rw [length?_cons, starts, if_pos parts.1, takes?, run]
  rw [Nat.add_comm]
  exact longest_of_longer takes fun other n => lt_of_isName name hex reg

/-- A name keeps its characters, and the error for characters that no rule takes is not used. -/
def Keeps (cs : List Char) : Except LexError Token → Prop
  | .ok (.ident name) => name = String.ofList cs
  | .ok _ => True
  | .error e => e ≠ .invalidSymbol

theorem keeps_bind {read : Except Literal.NumberError Nat} {error : Literal.NumberError → LexError}
    {judge : Nat → Except LexError Token} (faults : ∀ e, error e ≠ .invalidSymbol)
    (judged : ∀ n, Keeps cs (judge n)) : Keeps cs (read.mapError error >>= judge) := by
  cases read with
  | ok n => exact judged n
  | error e => exact faults e

theorem keeps_unsignedOfNat (n : Nat) : Keeps cs (unsignedOfNat n) := by
  rw [unsignedOfNat]
  split <;> simp [Keeps]

theorem keeps_negativeOfNat (n : Nat) : Keeps cs (negativeOfNat n) := by
  rw [negativeOfNat]
  split <;> simp [Keeps]

/-- No rule reports an unknown symbol, and an identifier keeps its text. -/
theorem keeps_token (rule : Rule) (cs : List Char) : Keeps cs (rule.token cs) := by
  have unsigned : ∀ e, unsignedError e ≠ .invalidSymbol := by
    intro e
    cases e <;> decide
  have signed : ∀ e, signedError e ≠ .invalidSymbol := by
    intro e
    cases e <;> decide
  have hex (tooLarge : LexError) (other : tooLarge ≠ .invalidSymbol) :
      ∀ e, hexError tooLarge e ≠ .invalidSymbol := by
    intro e
    cases e with
    | empty | invalidDigit => simp [hexError]
    | tooLarge => exact other
  cases rule with
  | unsignedLiteral | unsignedDecimal => exact keeps_bind unsigned keeps_unsignedOfNat
  | unsignedHex => exact keeps_bind (hex _ (by decide)) keeps_unsignedOfNat
  | signedLiteral | signedDecimal => exact keeps_bind signed keeps_negativeOfNat
  | signedHex => exact keeps_bind (hex _ (by decide)) keeps_negativeOfNat
  | register =>
    rw [token]
    split <;> simp [Keeps]
  | ident => rfl
  | comma | comment => trivial

end Rule

/-- Digits give the token of their number if it is at most `limit`, and one of the errors
otherwise. -/
def Judged (radix limit : Nat) (token : Nat → Token) (errors : List LexError) (digits : List Char)
    (result : Except LexError Token) : Prop :=
  (∃ v ≤ limit, Literal.valueOnto? radix 0 digits = some v ∧ result = .ok (token v)) ∨
    (∀ v, Literal.valueOnto? radix 0 digits = some v → limit < v) ∧
      ∃ e ∈ errors, result = .error e

def JudgedHex : List Char → Except LexError Token → Prop :=
  Judged 16 0xFFFF (fun v => .unsigned (BitVec.ofNat 16 v)) [.invalidHex, .doesNotFitUnsigned]

def JudgedRegister : List Char → Except LexError Token → Prop :=
  Judged 10 7 (fun v => .reg (BitVec.ofNat 3 v)) [.invalidRegister]

section Judged
variable {x : Char} {cs : List Char}

/-- A word for a hexadecimal number is judged by its digits. -/
theorem judgedHex_token (some : cs ≠ []) : JudgedHex cs (Rule.unsignedHex.token (x :: cs)) := by
  rw [Rule.token, List.drop_one, List.tail_cons]
  rcases Literal.read_of_ne_nil some with ⟨v, fits, value, outcome⟩ | ⟨large, outcome | outcome⟩
  · refine .inl ⟨v, fits, value, ?_⟩
    rw [outcome]
    exact if_pos fits
  · refine .inr ⟨large, .invalidHex, by simp, ?_⟩
    rw [outcome]
    rfl
  · refine .inr ⟨large, .doesNotFitUnsigned, by simp, ?_⟩
    rw [outcome]
    rfl

theorem judgedRegister_token (some : cs ≠ []) :
    JudgedRegister cs (Rule.register.token (x :: cs)) := by
  rw [Rule.token, List.drop_one, List.tail_cons]
  rcases Literal.read_of_ne_nil some with ⟨v, fits, value, outcome⟩ | ⟨large, outcome | outcome⟩
  · exact .inl ⟨v, fits, value, by rw [outcome]⟩
  · exact .inr ⟨large, .invalidRegister, by simp, by rw [outcome]⟩
  · exact .inr ⟨large, .invalidRegister, by simp, by rw [outcome]⟩

end Judged

end Token

namespace Lexeme
open Token

section Words
variable {cs : List Char}

theorem alone_of_isName (name : isName cs = true) (hex : isHexWord cs = false)
    (reg : isRegisterWord cs = false) : Alone cs (.ok (.ident (String.ofList cs))) := by
  cases cs with
  | nil => cases name
  | cons c cs => exact alone_of_longest (Rule.longest_isName name hex reg)

theorem alone_of_isHexWord (word : isHexWord cs = true) :
    ∃ result, JudgedHex cs.tail result ∧ Alone cs result := by
  cases cs with
  | nil => cases word
  | cons c cs =>
    have some : cs ≠ [] := by
      rintro rfl
      cases word
    exact ⟨_, judgedHex_token some, alone_of_longest (Rule.longest_isHexWord word)⟩

theorem alone_of_isRegisterWord (word : isRegisterWord cs = true) :
    ∃ result, JudgedRegister cs.tail result ∧ Alone cs result := by
  cases cs with
  | nil => cases word
  | cons c cs =>
    have some : cs ≠ [] := by
      rintro rfl
      simp [isRegisterWord] at word
    exact ⟨_, judgedRegister_token some, alone_of_longest (Rule.longest_isRegisterWord word)⟩

end Words

section Bytes
variable {c : Char} {cs ds : List Char}

theorem byteLength_append (cs ds : List Char) :
    byteLength (cs ++ ds) = byteLength cs + byteLength ds := by
  induction cs with
  | nil => exact (Nat.zero_add _).symm
  | cons c cs ih =>
    change c.utf8Size + byteLength (cs ++ ds) = c.utf8Size + byteLength cs + byteLength ds
    rw [ih, Nat.add_assoc]

theorem byteLength_pos (some : cs ≠ []) : 0 < byteLength cs := by
  obtain ⟨c, rest, rfl⟩ := List.exists_cons_of_ne_nil some
  exact Nat.lt_of_lt_of_le c.utf8Size_pos (Nat.le_add_right _ _)

/-- Spans count bytes as the encoding of the text does. -/
theorem length_flatMap_utf8EncodeChar (cs : List Char) :
    (cs.flatMap String.utf8EncodeChar).length = byteLength cs := by
  induction cs with
  | nil => rfl
  | cons c cs ih =>
    rw [List.flatMap_cons, List.length_append, String.length_utf8EncodeChar, ih]
    rfl

theorem utf8ByteSize_ofList (cs : List Char) : (String.ofList cs).utf8ByteSize = byteLength cs := by
  rw [← length_flatMap_utf8EncodeChar, String.utf8ByteSize, String.toByteArray_ofList,
    List.utf8Encode, List.size_toByteArray]

/-- The bytes of the characters that are skipped. -/
def blankBytes : List UInt8 :=
  [0x20, 0x09, 0x0D, 0x0A]

theorem mem_blankBytes {b : UInt8} (skipped : isSkipped c = true)
    (mem : b ∈ String.utf8EncodeChar c) : b ∈ blankBytes := by
  simp only [isSkipped, Bool.or_eq_true, beq_iff_eq] at skipped
  rcases skipped with ((rfl | rfl) | rfl) | rfl <;>
    (obtain rfl := List.mem_singleton.mp mem; decide)

end Bytes

/-- The lexemes stand behind each other in a text that begins `pos` bytes into the line, and what
stands between them is skipped. -/
inductive Tiles : Nat → List Char → List Lexeme → Prop
  | nil (pos : Nat) : Tiles pos [] []
  | skip {pos : Nat} {c : Char} {cs : List Char} {xs : List Lexeme} (skipped : isSkipped c = true)
      (behind : Tiles (pos + c.utf8Size) cs xs) : Tiles pos (c :: cs) xs
  | lexeme {pos : Nat} {c : Char} {cs rest : List Char} {x : Lexeme} {xs : List Lexeme}
      (taken : front c cs = (x.result, x.chars)) (text : c :: cs = x.chars ++ rest)
      (start : x.start = pos) (stop : x.stop = pos + byteLength x.chars)
      (behind : Tiles x.stop rest xs) : Tiles pos (c :: cs) (x :: xs)

theorem exists_eq_front_append (c : Char) (cs : List Char) :
    ∃ rest, c :: cs = (front c cs).2 ++ rest := by
  unfold front
  split
  · exact ⟨_, (List.take_append_drop _ _).symm⟩
  · exact ⟨cs, rfl⟩

/-- Every lexeme takes a character, so the fuel lasts for what is left. -/
theorem tiles_lexFrom {fuel pos : Nat} {cs : List Char} (enough : cs.length ≤ fuel) :
    Tiles pos cs (lexFrom fuel pos cs) := by
  induction fuel generalizing pos cs with
  | zero =>
    obtain rfl := List.length_eq_zero_iff.mp (Nat.le_zero.mp enough)
    exact .nil pos
  | succ fuel ih =>
    rcases cs with _ | ⟨c, cs⟩
    · exact .nil pos
    · have enough : cs.length ≤ fuel := Nat.le_of_succ_le_succ enough
      cases visible : isSkipped c with
      | true =>
        rw [lexFrom, if_pos visible]
        exact .skip visible (ih enough)
      | false =>
        obtain ⟨rest, text⟩ := exists_eq_front_append c cs
        have behind : (c :: cs).drop (front c cs).2.length = rest := by
          conv_lhs => rw [text]
          exact List.drop_left
        -- A lexeme has a character, so the fuel is enough for what stands behind it.
        have shorter : rest.length ≤ fuel := by
          have some := length_front_pos c cs
          have length := congrArg List.length text
          rw [List.length_cons, List.length_append] at length
          omega
        rw [lexFrom_cons visible, behind]
        exact .lexeme rfl text rfl rfl (ih shorter)

section Tiles
variable {pos : Nat} {cs : List Char} {xs : List Lexeme}

theorem Tiles.exists_front (tiles : Tiles pos cs xs) :
    ∀ x ∈ xs, ∃ c ds, front c ds = (x.result, x.chars) := by
  induction tiles with
  | nil => nofun
  | skip skipped behind ih => exact ih
  | lexeme taken text start stop behind ih =>
    exact List.forall_mem_cons.mpr ⟨⟨_, _, taken⟩, ih⟩

/-- Each lexeme has its own part of the text, at the place that its span says. -/
theorem Tiles.exists_split (tiles : Tiles pos cs xs) :
    ∀ x ∈ xs, ∃ before behind, cs = before ++ x.chars ++ behind ∧
      x.start = pos + byteLength before ∧ x.stop = x.start + byteLength x.chars := by
  induction tiles with
  | nil => nofun
  | @skip pos c cs xs skipped behind ih =>
    intro x hx
    obtain ⟨before, rest, rfl, start, stop⟩ := ih x hx
    exact ⟨c :: before, rest, rfl, start.trans (Nat.add_assoc _ _ _), stop⟩
  | @lexeme pos c cs rest y xs taken text start stop behind ih =>
    rw [List.forall_mem_cons, text]
    refine ⟨⟨[], rest, rfl, start, start.symm ▸ stop⟩, fun x hx => ?_⟩
    obtain ⟨before, rest, rfl, start', stop'⟩ := ih x hx
    refine ⟨y.chars ++ before, rest, by simp only [List.append_assoc], ?_, stop'⟩
    rw [start', stop, byteLength_append, Nat.add_assoc]

theorem Tiles.start_lt_stop (tiles : Tiles pos cs xs) : ∀ x ∈ xs, x.start < x.stop := by
  intro x hx
  obtain ⟨c, ds, taken⟩ := tiles.exists_front x hx
  obtain ⟨-, -, -, -, stop⟩ := tiles.exists_split x hx
  have some : x.chars ≠ [] := by
    have length := length_front_pos c ds
    rw [taken] at length
    exact List.ne_nil_of_length_pos length
  rw [stop]
  exact Nat.lt_add_of_pos_right (byteLength_pos some)

/-- Spans stand behind each other, by induction on the tiles. -/
theorem Tiles.pairwise (tiles : Tiles pos cs xs) :
    xs.Pairwise fun x y => x.start < y.start ∧ x.stop ≤ y.start := by
  induction tiles with
  | nil => exact .nil
  | skip skipped behind ih => exact ih
  | lexeme taken text start stop behind ih =>
    refine .cons (fun y hy => ?_) ih
    have nonempty := (Tiles.lexeme taken text start stop behind).start_lt_stop _ List.mem_cons_self
    obtain ⟨before, -, -, start', -⟩ := behind.exists_split y hy
    omega

/-- A byte in no span belongs to a blank. -/
theorem Tiles.mem_blankBytes (tiles : Tiles pos cs xs) {i : Nat} {b : UInt8}
    (byte : (cs.flatMap String.utf8EncodeChar)[i]? = some b)
    (outside : ∀ x ∈ xs, pos + i < x.start ∨ x.stop ≤ pos + i) : b ∈ blankBytes := by
  induction tiles generalizing i with
  | nil => cases byte
  | @skip pos c cs xs skipped behind ih =>
    rw [List.flatMap_cons, List.getElem?_append, String.length_utf8EncodeChar] at byte
    by_cases within : i < c.utf8Size
    · rw [if_pos within] at byte
      exact Lexeme.mem_blankBytes skipped (List.mem_of_getElem? byte)
    · rw [if_neg within] at byte
      have position : pos + c.utf8Size + (i - c.utf8Size) = pos + i := by omega
      exact ih byte (position.symm ▸ outside)
  | @lexeme pos c cs rest x xs taken text start stop behind ih =>
    rw [text, List.flatMap_append, List.getElem?_append, length_flatMap_utf8EncodeChar] at byte
    obtain ⟨apart, outside⟩ := List.forall_mem_cons.mp outside
    -- The lexeme begins the text, so a byte outside of its span stands behind it.
    have beyond : byteLength x.chars ≤ i := by omega
    rw [if_neg (Nat.not_lt_of_le beyond)] at byte
    have position : x.stop + (i - byteLength x.chars) = pos + i := by omega
    exact ih byte (position.symm ▸ outside)

end Tiles

/-- The spans of the lexemes are parts of the text, they do not overlap, and only blanks are in none
of them. -/
structure Cover (s : String) (xs : List Lexeme) : Prop where
  nonempty : ∀ x ∈ xs, x.start < x.stop
  increasing : xs.Pairwise fun x y => x.start < y.start ∧ x.stop ≤ y.start
  parts : ∀ x ∈ xs, ∃ before behind, s = before ++ x.text ++ behind ∧
    before.utf8ByteSize = x.start ∧ (before ++ x.text).utf8ByteSize = x.stop
  blanks : ∀ i b, (Text.Utf8.encode s)[i]? = some b →
    (∀ x ∈ xs, i < x.start ∨ x.stop ≤ i) → b ∈ blankBytes

/-- Lexemes that tile a text cover it. -/
theorem Tiles.cover {s : String} {xs : List Lexeme} (tiles : Tiles 0 s.toList xs) :
    Cover s xs where
  nonempty := tiles.start_lt_stop
  increasing := tiles.pairwise
  parts := by
    intro x hx
    obtain ⟨before, behind, text, start, stop⟩ := tiles.exists_split x hx
    have size : (String.ofList before).utf8ByteSize = x.start := by
      rw [utf8ByteSize_ofList, start, Nat.zero_add]
    refine ⟨String.ofList before, String.ofList behind, ?_, size, ?_⟩
    · rw [Lexeme.text, ← String.ofList_append, ← String.ofList_append, ← text, String.ofList_toList]
    · rw [String.utf8ByteSize_append, size, Lexeme.text, utf8ByteSize_ofList, stop]
  blanks := by
    intro i b byte outside
    have position : 0 + i = i := Nat.zero_add i
    exact tiles.mem_blankBytes byte (position.symm ▸ outside)

/-- An invalid symbol is one character, and a name is its text. -/
theorem of_front {x : Lexeme} {c : Char} {cs : List Char}
    (taken : front c cs = (x.result, x.chars)) :
    (x.result = .error .invalidSymbol → x.chars.length = 1) ∧
      ∀ name, x.result = .ok (.ident name) → name = x.text := by
  unfold front at taken
  split at taken
  case h_1 rule n longest =>
    obtain ⟨result, chars⟩ := Prod.mk.inj taken
    have keeps := Rule.keeps_token rule x.chars
    rw [chars] at result
    rw [result] at keeps
    constructor
    · intro symbol
      rw [symbol] at keeps
      exact absurd rfl keeps
    · intro name ident
      rw [ident] at keeps
      exact keeps
  case h_2 =>
    obtain ⟨result, chars⟩ := Prod.mk.inj taken
    rw [← result, ← chars]
    exact ⟨fun _ => rfl, nofun⟩

/-- Lexing covers every text: the characters are fuel enough, the spans of the lexemes are
characters of the text in order, and only blanks are outside of them. An invalid symbol is one
character and a name the text of its span. A text that is a name as a whole is that name, unless it
is a word for a hexadecimal number or a register, which is judged by its digits. -/
theorem ofString_covers :
    (∀ s, Cover s (ofString s) ∧
      (∀ fuel, s.toList.length ≤ fuel → lexFrom fuel 0 s.toList = ofString s) ∧
      ∀ x ∈ ofString s, (x.result = .error .invalidSymbol → x.text.length = 1) ∧
        ∀ name, x.result = .ok (.ident name) → name = x.text) ∧
    ∀ cs,
      (isName cs = true → isHexWord cs = false → isRegisterWord cs = false →
        Alone cs (.ok (.ident (String.ofList cs)))) ∧
      (isHexWord cs = true → ∃ result, JudgedHex cs.tail result ∧ Alone cs result) ∧
      (isRegisterWord cs = true → ∃ result, JudgedRegister cs.tail result ∧ Alone cs result) := by
  refine ⟨fun s => ?_, fun cs => ⟨alone_of_isName, alone_of_isHexWord, alone_of_isRegisterWord⟩⟩
  have tiles : Tiles 0 s.toList (ofString s) := tiles_lexFrom (Nat.le_refl _)
  refine ⟨tiles.cover, fun fuel enough => lexFrom_congr enough (Nat.le_refl _), fun x hx => ?_⟩
  obtain ⟨c, cs, taken⟩ := tiles.exists_front x hx
  obtain ⟨symbol, name⟩ := of_front taken
  refine ⟨fun result => ?_, name⟩
  rw [Lexeme.text, String.length_ofList]
  exact symbol result

/-- A symbol of two bytes between blanks, a name that begins like a number and one that begins like
a register, a number and a register that does not exist. -/
theorem ofString_covers_mixed :
    ((ofString "\té xA.b").map fun x => (x.result, x.start, x.stop)) =
        [(.error .invalidSymbol, 1, 3), (.ok (.ident "xA.b"), 4, 8)] ∧
      Cover "\té xA.b" (ofString "\té xA.b") ∧
      lexFrom 8 0 "\té xA.b".toList = ofString "\té xA.b" ∧
      Alone "r2d2".toList (.ok (.ident "r2d2")) ∧
      Alone "xfF".toList (.ok (.unsigned 0xFF)) ∧
      Alone "R9".toList (.error .invalidRegister) := by
  obtain ⟨texts, words⟩ := ofString_covers
  obtain ⟨cover, fuel, -⟩ := texts "\té xA.b"
  have name := (words "r2d2".toList).1 (by decide) (by decide) (by decide)
  obtain ⟨hex, judged, hexAlone⟩ := (words "xfF".toList).2.1 (by decide)
  obtain ⟨reg, judged', regAlone⟩ := (words "R9".toList).2.2 (by decide)
  have value : Literal.valueOnto? 16 0 "fF".toList = some 0xFF := by decide
  have value' : Literal.valueOnto? 10 0 "9".toList = some 9 := by decide
  refine ⟨by decide, cover, fuel 8 (by decide), name, ?_, ?_⟩
  · rcases judged with ⟨v, -, same, rfl⟩ | ⟨large, -⟩
    · obtain rfl := Option.some.inj (value.symm.trans same)
      exact hexAlone
    · exact absurd (large _ value) (by decide)
  · rcases judged' with ⟨v, small, same, -⟩ | ⟨-, e, listed, rfl⟩
    · obtain rfl := Option.some.inj (value'.symm.trans same)
      exact absurd small (by decide)
    · obtain rfl := List.mem_singleton.mp listed
      exact regAlone

end Lexeme

end Lc4.Shell
