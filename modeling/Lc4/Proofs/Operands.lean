import Lc4.Proofs.Lexing
import Lc4.Proofs.Offsets

/-!
# Operands that are read back

The text of an operand is one token, and the reader for operands of its kind gives the operand
again. Operands between commas are read one after the other.
-/
namespace Lc4

/-- There are no blanks in the text. -/
def Text.Solid (cs : List Char) : Prop :=
  ∀ c ∈ cs, isBlank c = false

theorem Text.Solid.cons {c : Char} {cs : List Char} (first : isBlank c = false)
    (rest : Solid cs) : Solid (c :: cs) :=
  List.forall_mem_cons.mpr ⟨first, rest⟩

/-- The text ends, and not with a blank. -/
def Text.EndsSolid (cs : List Char) : Prop :=
  ∃ c, cs.getLast? = some c ∧ isBlank c = false

theorem Text.EndsSolid.append (front : List Char) {cs : List Char} (h : EndsSolid cs) :
    EndsSolid (front ++ cs) := by
  obtain ⟨c, last, solid⟩ := h
  exact ⟨c, by rw [List.getLast?_append, last]; rfl, solid⟩

theorem Text.trim_eq_self {cs : List Char} (first : ∀ c ∈ cs.head?, isBlank c = false)
    (last : EndsSolid cs) : trim cs = cs := by
  have kept : ∀ {ds : List Char}, (∀ c ∈ ds.head?, isBlank c = false) →
      ds.dropWhile isBlank = ds := by
    intro ds h
    cases ds with
    | nil => rfl
    | cons c ds => simp [h c rfl]
  obtain ⟨c, hc, solid⟩ := last
  have back : ∀ d ∈ cs.reverse.head?, isBlank d = false := by
    rw [List.head?_reverse, hc]
    rintro d ⟨⟩
    exact solid
  rw [trim, kept first, kept back, List.reverse_reverse]

theorem Text.splitWord_append {word rest : List Char} {c : Char} (solid : Solid word)
    (blank : isBlank c = true) : splitWord (word ++ c :: rest) = (word, rest) := by
  have inside : ∀ d ∈ word, (!isBlank d) = true := fun d hd => by simp [solid d hd]
  rw [splitWord, List.takeWhile_append_of_pos inside, List.dropWhile_append_of_pos inside]
  simp [blank]

namespace Shell

open Token

/-- The text has no blanks, and is one argument with this token if a delimiter or nothing follows
it. -/
structure Denotes (s : String) (t : Token) : Prop where
  solid : Text.Solid s.toList
  read : ∀ rest, Delimited rest →
    Argument.ofChars (s.toList ++ rest) = ⟨.ok t, s⟩ :: Argument.ofChars rest

namespace Denotes
variable {s : String} {t : Token} {rest : List Char}

theorem of_spells {cs : List Char} (spells : Spells cs (.ok t))
    (solid : Text.Solid cs) (text : s.toList = cs)
    (plain : (⟨.ok t, s⟩ : Argument).isSeparator = false) : Denotes s t := by
  obtain rfl : s = String.ofList cs := by rw [← text, String.ofList_toList]
  refine ⟨by rwa [text], fun rest delimited => ?_⟩
  rw [text, Argument.ofChars_of_spells spells delimited plain]

theorem ofChars (h : Denotes s t) : Argument.ofChars s.toList = [⟨.ok t, s⟩] := by
  have alone := h.read [] nofun
  rwa [List.append_nil] at alone

theorem toList_ne_nil (h : Denotes s t) : s.toList ≠ [] := by
  intro empty
  have one := h.ofChars
  rw [empty] at one
  cases one

theorem ofChars_append (h : Denotes s t) (delimited : Delimited rest) :
    Argument.ofChars (s.toList ++ rest) =
      Argument.ofChars s.toList ++ Argument.ofChars rest := by
  rw [h.read rest delimited, h.ofChars]
  rfl

/-- The texts of tokens between commas give the arguments of each, in order. -/
theorem ofChars_intercalate {ss : List String} (each : ∀ s ∈ ss, ∃ t, Denotes s t) :
    Argument.ofChars (", ".intercalate ss).toList =
      ss.flatMap fun s => Argument.ofChars s.toList := by
  induction ss with
  | nil => rfl
  | cons s ss ih =>
    obtain ⟨t, denotes⟩ := each s List.mem_cons_self
    have rest := ih fun u hu => each u (List.mem_cons_of_mem s hu)
    by_cases last : ss = []
    · subst last
      simp
    · have split : (", ".intercalate (s :: ss)).toList =
          s.toList ++ ',' :: ' ' :: (", ".intercalate ss).toList := by
        simp [String.intercalate_cons_of_ne_nil last]
      have delimited : Delimited (',' :: ' ' :: (", ".intercalate ss).toList) := by
        rintro c ⟨⟩
        exact .inl rfl
      rw [split, denotes.ofChars_append delimited, Argument.ofChars_comma,
        Argument.ofChars_of_isSkipped rfl, rest, List.flatMap_cons]

theorem endsSolid (h : Denotes s t) : Text.EndsSolid s.toList := by
  have last := List.getLast?_eq_some_getLast h.toList_ne_nil
  exact ⟨_, last, h.solid _ (List.getLast_mem _)⟩

theorem endsSolid_intercalate {ss : List String} (some : ss ≠ [])
    (each : ∀ s ∈ ss, ∃ t, Denotes s t) : Text.EndsSolid (", ".intercalate ss).toList := by
  induction ss with
  | nil => exact absurd rfl some
  | cons s ss ih =>
    by_cases last : ss = []
    · subst last
      obtain ⟨t, denotes⟩ := each s List.mem_cons_self
      simpa using denotes.endsSolid
    · rw [String.intercalate_cons_of_ne_nil last, String.toList_append]
      exact .append _ (ih last fun u hu => each u (List.mem_cons_of_mem s hu))

end Denotes

theorem solid_digits {radix v : Nat} {cs : List Char}
    (value : Literal.valueOnto? radix 0 cs = some v) : Text.Solid cs := by
  intro c hc
  obtain ⟨d, digit⟩ := Literal.digit_of_valueOnto? value c hc
  exact Text.isBlank_of_digitValue? digit

theorem denotes_name (r : Reg) : Denotes r.name (.reg r) := by
  have value := Text.Numeral.valueOnto?_decimalDigits r.toNat
  have small : r.toNat ≤ 7 := Nat.le_of_lt_succ r.isLt
  have spells := spells_register (Text.Numeral.decimalDigits_ne_nil _) value small
  rw [BitVec.ofNat_toNat, BitVec.setWidth_eq] at spells
  have text : r.name.toList = 'R' :: Text.Numeral.decimalDigits r.toNat := by
    simp [Reg.name, Text.Numeral.decimalDigits]
  exact .of_spells spells (.cons rfl (solid_digits value)) text rfl

/-- The token of a decimal number. -/
def Token.ofInt (i : Int) : Token :=
  if i < 0 then .signed (BitVec.ofInt 16 i) else .unsigned (BitVec.ofInt 16 i)

/-- A decimal text denotes its number, with a sign if that is negative. -/
theorem denotes_decimal {i : Int} (low : -0x8000 ≤ i) (high : i ≤ 0xFFFF) :
    Denotes ("#" ++ Text.Numeral.decimal .plain i) (.ofInt i) := by
  have value := Text.Numeral.valueOnto?_decimalDigits i.natAbs
  have some := Text.Numeral.decimalDigits_ne_nil i.natAbs
  have digits := solid_digits value
  by_cases negative : i < 0
  · have spells := spells_negative some value
    have word : -BitVec.ofNat 16 i.natAbs = BitVec.ofInt 16 i := by
      rw [← BitVec.ofInt_natCast, ← BitVec.ofInt_neg]
      congr 1
      omega
    rw [Rule.negativeOfNat, if_pos (by omega), word] at spells
    rw [ofInt, if_pos negative]
    refine .of_spells spells (.cons rfl (.cons rfl digits)) ?_ rfl
    simp [Text.Numeral.toList_decimal_plain, negative]
  · have spells := spells_decimal some value
    have word : BitVec.ofNat 16 i.natAbs = BitVec.ofInt 16 i := by
      rw [← BitVec.ofInt_natCast]
      congr 1
      omega
    rw [Rule.unsignedOfNat, if_pos (by omega), word] at spells
    rw [ofInt, if_neg negative]
    refine .of_spells spells (.cons rfl digits) ?_ rfl
    simp [Text.Numeral.toList_decimal_plain, negative]

theorem denotes_hex {n : Nat} (width : Nat) (fits : n ≤ 0xFFFF) :
    Denotes ("x" ++ Text.Numeral.hex width n) (.unsigned (BitVec.ofNat 16 n)) := by
  have value := Text.Numeral.valueOnto?_hex width n
  have spells := spells_hex (.inl rfl) (Text.Numeral.toList_hex_ne_nil width n) value
  rw [Rule.unsignedOfNat, if_pos fits] at spells
  exact .of_spells spells (.cons rfl (solid_digits value)) (by simp) rfl

section Fields
variable {bits : Nat}

theorem toInt_range (fits : bits ≤ 16) (v : BitVec bits) :
    -0x8000 ≤ v.toInt ∧ v.toInt < 0x8000 := by
  have low := v.le_two_mul_toInt
  have high := v.two_mul_toInt_lt
  have powers : (2 : Int) ^ bits ≤ 2 ^ 16 := by
    exact_mod_cast Nat.pow_le_pow_right (by decide) fits
  omega

theorem denotes_signed (fits : bits ≤ 16) (v : BitVec bits) :
    Denotes (Offset.text .signed v) (.ofInt v.toInt) := by
  obtain ⟨low, high⟩ := toInt_range fits v
  exact denotes_decimal (i := v.toInt) low (by omega)

theorem denotes_unsigned (fits : bits ≤ 16) (v : BitVec bits) :
    Denotes (Offset.text .unsigned v) (.ofInt v.toNat) := by
  have small : v.toNat < 2 ^ 16 := Nat.lt_of_lt_of_le v.isLt (Nat.pow_le_pow_right (by decide) fits)
  exact denotes_decimal (i := v.toNat) (by omega) (by omega)

theorem denotes_offset_hex (fits : bits ≤ 16) (width : Nat) (v : BitVec bits) :
    Denotes (Offset.hex width v) (.unsigned (BitVec.ofNat 16 v.toNat)) := by
  have small : v.toNat < 2 ^ 16 := Nat.lt_of_lt_of_le v.isLt (Nat.pow_le_pow_right (by decide) fits)
  exact denotes_hex width (n := v.toNat) (by omega)

end Fields

namespace Reader

/-- The arguments are what the reader takes, whatever follows them, and it gives this value. -/
def Reads {α : Type} (x : Reader α) (args : List Argument) (a : α) : Prop :=
  ∀ rest, x.run (args ++ rest) = .ok (a, rest)

namespace Reads
variable {α β : Type} {args more : List Argument} {a : α} {b : β}

theorem pure (a : α) : Reads (pure a) [] a :=
  fun _ => rfl

theorem bind {x : Reader α} {f : α → Reader β} (first : Reads x args a)
    (last : Reads (f a) more b) : Reads (x >>= f) (args ++ more) b := by
  intro rest
  rw [StateT.run_bind, List.append_assoc, first]
  exact last rest

end Reads

section Operands
variable {bits : Nat} {rest : List Argument}

theorem reads_reg (r : Reg) : Reads reg (Argument.ofChars r.name.toList) r := by
  rw [(denotes_name r).ofChars]
  exact fun _ => rfl

theorem run_fit (s : Signedness) (some : bits ≠ 0) (fits : bits ≤ 16) (v : BitVec bits) :
    (fit s bits (BitVec.ofInt 16 (s.value v))).run rest = .ok (v, rest) := by
  rw [fit, Offset.immediate_ofInt s some fits v]
  rfl

theorem run_nonnegative (fits : bits ≤ 16) {v : BitVec bits} (plain : ¬ v.toInt < 0)
    (found : String) :
    (nonnegative (BitVec.ofInt 16 v.toInt) found).run rest =
      .ok (BitVec.ofInt 16 v.toInt, rest) := by
  have msb : (BitVec.ofInt 16 v.toInt).msb = false := by
    change (v.signExtend 16).msb = false
    rw [BitVec.msb_eq_toInt, BitVec.toInt_signExtend_of_le fits]
    exact decide_eq_false plain
  rw [nonnegative, msb]
  rfl

/-- A signed field is read back from its text. A text without a minus goes through the check that it
is not too large for the sign. -/
theorem reads_signed (some : bits ≠ 0) (fits : bits ≤ 16) (v : BitVec bits) :
    Reads (signed bits) (Argument.ofChars (Offset.text .signed v).toList) v := by
  rw [(denotes_signed fits v).ofChars]
  intro rest
  have last : (fit .signed bits (BitVec.ofInt 16 v.toInt)).run rest = .ok (v, rest) :=
    run_fit .signed some fits v
  by_cases negative : v.toInt < 0
  · rw [ofInt, if_pos negative]
    exact last
  · rw [ofInt, if_neg negative]
    change (nonnegative _ _ >>= fit .signed bits).run rest = _
    rw [StateT.run_bind, run_nonnegative fits negative]
    exact last

theorem reads_unsigned (some : bits ≠ 0) (fits : bits ≤ 16) (v : BitVec bits) :
    Reads (unsigned bits) (Argument.ofChars (Offset.text .unsigned v).toList) v := by
  rw [(denotes_unsigned fits v).ofChars, ofInt, if_neg (by omega)]
  exact fun rest => run_fit .unsigned some fits v

theorem reads_hex (some : bits ≠ 0) (fits : bits ≤ 16) (width : Nat) (v : BitVec bits) :
    Reads (unsigned bits) (Argument.ofChars (Offset.hex width v).toList) v := by
  rw [(denotes_offset_hex fits width v).ofChars]
  exact fun rest => run_fit .unsigned some fits v

/-- Where a register may stand too, an immediate is read as where none may. -/
theorem run_regOrSigned (i : Int) (text : String) :
    (regOrSigned bits).run (⟨.ok (.ofInt i), text⟩ :: rest) =
      (signed bits >>= fun v => Pure.pure (Operand.imm v)).run
        (⟨.ok (.ofInt i), text⟩ :: rest) := by
  by_cases negative : i < 0
  · rw [ofInt, if_pos negative]
    rfl
  · rw [ofInt, if_neg negative]
    have last : (regOrSigned bits).run
        (⟨.ok (.unsigned (BitVec.ofInt 16 i)), text⟩ :: rest) =
          ((nonnegative (BitVec.ofInt 16 i) text >>= fit .signed bits) >>=
            fun v => Pure.pure (Operand.imm v)).run rest := by
      rw [bind_assoc]
      rfl
    exact last

/-- An operand that may be a register or an immediate is read back as what it was. -/
theorem reads_operand (some : bits ≠ 0) (fits : bits ≤ 16) (v : Operand bits) :
    Reads (regOrSigned bits) (Argument.ofChars v.text.toList) v := by
  cases v with
  | reg r =>
    rw [Operand.text, (denotes_name r).ofChars]
    exact fun _ => rfl
  | imm v =>
    rw [Operand.text, (denotes_signed fits v).ofChars]
    have read := reads_signed some fits v
    rw [(denotes_signed fits v).ofChars] at read
    intro rest
    exact (run_regOrSigned v.toInt _).trans (read.bind (.pure (Operand.imm v)) rest)

end Operands

/-- The reader takes the arguments on texts that stand one after the other. -/
def ReadsTexts {α : Type} (x : Reader α) (texts : List String) (a : α) : Prop :=
  Reads x (texts.flatMap fun s => Argument.ofChars s.toList) a

/-! An operand is read by the reader for its kind, and the ones behind it by what comes next. -/

namespace ReadsTexts
variable {α β : Type} {bits : Nat} {s : String} {texts : List String} {b : β}

theorem nil (b : β) : ReadsTexts (Pure.pure b) [] b :=
  .pure b

theorem cons {x : Reader α} {f : α → Reader β} {a : α}
    (first : Reads x (Argument.ofChars s.toList) a) (rest : ReadsTexts (f a) texts b) :
    ReadsTexts (x >>= f) (s :: texts) b :=
  first.bind rest

theorem reg {f : Reg → Reader β} {r : Reg} (rest : ReadsTexts (f r) texts b) :
    ReadsTexts (Reader.reg >>= f) (r.name :: texts) b :=
  cons (reads_reg r) rest

theorem offset {f : BitVec bits → Reader β} {v : BitVec bits} (some : bits ≠ 0) (fits : bits ≤ 16)
    (rest : ReadsTexts (f v) texts b) :
    ReadsTexts (signed bits >>= f) (Offset.text .signed v :: texts) b :=
  cons (reads_signed some fits v) rest

theorem amount {f : BitVec bits → Reader β} {v : BitVec bits} (some : bits ≠ 0) (fits : bits ≤ 16)
    (rest : ReadsTexts (f v) texts b) :
    ReadsTexts (unsigned bits >>= f) (Offset.text .unsigned v :: texts) b :=
  cons (reads_unsigned some fits v) rest

theorem hex {f : BitVec bits → Reader β} {v : BitVec bits} (some : bits ≠ 0) (fits : bits ≤ 16)
    {width : Nat} (rest : ReadsTexts (f v) texts b) :
    ReadsTexts (unsigned bits >>= f) (Offset.hex width v :: texts) b :=
  cons (reads_hex some fits width v) rest

theorem operand {f : Operand bits → Reader β} {v : Operand bits} (some : bits ≠ 0)
    (fits : bits ≤ 16) (rest : ReadsTexts (f v) texts b) :
    ReadsTexts (regOrSigned bits >>= f) (v.text :: texts) b :=
  cons (reads_operand some fits v) rest

end ReadsTexts

end Reader

end Shell

end Lc4
