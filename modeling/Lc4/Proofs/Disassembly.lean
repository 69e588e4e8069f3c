import Lc4.Proofs.Encoding
import Lc4.Proofs.Lines
import Lc4.Shell.Session

/-!
# Listed instructions are read back

The text of an instruction is its mnemonic and its operands. The assembler chooses the readers of
the operands by the mnemonic, and each of them gives its operand again.
-/
namespace Lc4

namespace Shell

open Token

/-- A word of letters that does not begin like a hexadecimal number. -/
def IsName (s : String) : Prop :=
  s.toList ≠ [] ∧ s.toList.all Char.isAlpha = true ∧
    (s.toList.head? = some 'x' ∨ s.toList.head? = some 'X' →
      s.toList.tail.head?.any isHexLetter = false)

instance (s : String) : Decidable (IsName s) :=
  inferInstanceAs (Decidable (_ ∧ _ ∧ _))

theorem denotes_of_isName {s : String} (h : IsName s) : Denotes s (.ident s) := by
  obtain ⟨some, letters, plain⟩ := h
  obtain ⟨c, cs, text⟩ := List.exists_cons_of_ne_nil some
  rw [text] at letters plain
  rw [List.all_eq_true] at letters
  have plain : c = 'x' ∨ c = 'X' → ∀ d ∈ cs.head?, isHexLetter d = false := by
    intro hex d hd
    have follow : cs.head?.any isHexLetter = false := plain (hex.imp (congrArg _) (congrArg _))
    rwa [Option.mem_def.mp hd] at follow
  have spells := spells_letters letters plain
  rw [← text, String.ofList_toList, text] at spells
  exact .of_spells spells (fun d hd => Text.isBlank_of_isAlpha (letters d hd)) text rfl

end Shell

namespace Instr

open Shell

theorem isName_mnemonic {i : Instr} (plain : i.Plain) : IsName i.mnemonic := by
  cases i with
  | lea | lc | unknown => exact plain.elim
  | br c o =>
    simp only [mnemonic, condLetters]
    cases c.getLsbD 2 <;> cases c.getLsbD 1 <;> cases c.getLsbD 0 <;> decide
  | alu op =>
    cases op <;> simp only [mnemonic, AluOp.mnemonic] <;> decide
  | shift op =>
    cases op <;> simp only [mnemonic, ShiftOp.mnemonic] <;> decide
  | cmp reading | cmpImm reading =>
    cases reading <;> simp only [mnemonic] <;> decide
  | jsr target | jmp target => cases target <;> simp only [mnemonic] <;> decide
  | _ =>
    simp only [mnemonic]
    decide

theorem denotes_operandTexts {i : Instr} (plain : i.Plain) :
    ∀ s ∈ i.operandTexts, ∃ t, Denotes s t := by
  have name : ∀ r : Reg, ∃ t, Denotes r.name t := fun r => ⟨_, denotes_name r⟩
  have offset : ∀ (s : Signedness) {bits : Nat} (v : BitVec bits), bits ≤ 16 →
      ∃ t, Denotes (Offset.text s v) t := by
    intro s bits v fits
    cases s with
    | signed => exact ⟨_, denotes_signed fits v⟩
    | unsigned => exact ⟨_, denotes_unsigned fits v⟩
  have operand : ∀ {bits : Nat} (v : Operand bits), bits ≤ 16 → ∃ t, Denotes v.text t := by
    intro bits v fits
    cases v with
    | imm v => exact offset .signed v fits
    | reg r => exact name r
  have hex : ∀ v : BitVec 8, ∃ t, Denotes (Offset.hex 2 v) t :=
    fun v => ⟨_, denotes_offset_hex (by decide) 2 v⟩
  cases i with
  | lea | lc | unknown => exact plain.elim
  | _ => simp [operandTexts, name, offset, operand, hex]

theorem ofChars_text {i : Instr} (plain : i.Plain) : Argument.ofChars i.text.toList =
    ⟨.ok (.ident i.mnemonic), i.mnemonic⟩ ::
      i.operandTexts.flatMap fun s => Argument.ofChars s.toList := by
  have mnemonic := denotes_of_isName (isName_mnemonic plain)
  have operands := Denotes.ofChars_intercalate (denotes_operandTexts plain)
  unfold text
  cases texts : i.operandTexts with
  | nil => exact mnemonic.ofChars
  | cons s ss =>
    have split : (i.mnemonic ++ " " ++ ", ".intercalate (s :: ss)).toList =
        i.mnemonic.toList ++ ' ' :: (", ".intercalate (s :: ss)).toList := by
      simp
    have blank : Token.Delimited (' ' :: (", ".intercalate (s :: ss)).toList) := by
      rintro c ⟨⟩
      exact .inr rfl
    dsimp only
    rw [split, mnemonic.read _ blank, Argument.ofChars_of_isSkipped rfl, ← texts, operands]

open Reader

/-- The assembler finds a reader for the operands of a mnemonic that takes them as they are
listed. -/
theorem exists_operands {i : Instr} (plain : i.Plain)
    (cond : ∀ c o, i = br c o → 1 ≤ c ∧ c ≤ 7) :
    ∃ x, Assembly.operands? (Text.upper i.mnemonic.toList) = some x ∧
      ReadsTexts x i.operandTexts (.instr i) := by
  cases i with
  | lea | lc | unknown => exact plain.elim
  | br c o =>
    -- The reader is found by the letters of the flags, so each set of flags is a case.
    have flags : c = 1 ∨ c = 2 ∨ c = 3 ∨ c = 4 ∨ c = 5 ∨ c = 6 ∨ c = 7 := by
      have range := cond c o rfl
      bv_omega
    rcases flags with rfl | rfl | rfl | rfl | rfl | rfl | rfl
    all_goals
      simp only [mnemonic]
      refine ⟨_, rfl, ?_⟩
      exact .offset (by decide) (by decide) (.nil _)
  | nop | ret | rti =>
    simp only [mnemonic]
    refine ⟨_, rfl, ?_⟩
    exact .nil _
  | alu op =>
    cases op
    all_goals
      simp only [mnemonic, AluOp.mnemonic]
      refine ⟨_, rfl, ?_⟩
      exact .reg (.reg (.reg (.nil _)))
  | shift op =>
    cases op
    all_goals
      simp only [mnemonic, ShiftOp.mnemonic]
      refine ⟨_, rfl, ?_⟩
      exact .reg (.reg (.amount (by decide) (by decide) (.nil _)))
  | add | and =>
    simp only [mnemonic]
    refine ⟨_, rfl, ?_⟩
    exact .reg (.reg (.operand (by decide) (by decide) (.nil _)))
  | not =>
    simp only [mnemonic]
    refine ⟨_, rfl, ?_⟩
    exact .reg (.reg (.nil _))
  | cmp reading =>
    cases reading
    all_goals
      simp only [mnemonic]
      refine ⟨_, rfl, ?_⟩
      exact .reg (.reg (.nil _))
  | cmpImm reading =>
    cases reading
    all_goals
      simp only [mnemonic]
      refine ⟨_, rfl, ?_⟩
    · exact .reg (.offset (by decide) (by decide) (.nil _))
    · exact .reg (.amount (by decide) (by decide) (.nil _))
  | jsr target | jmp target =>
    cases target
    all_goals
      simp only [mnemonic]
      refine ⟨_, rfl, ?_⟩
    · exact .offset (by decide) (by decide) (.nil _)
    · exact .reg (.nil _)
  | trap =>
    simp only [mnemonic]
    refine ⟨_, rfl, ?_⟩
    exact .hex (by decide) (by decide) (.nil _)
  | ldr | str =>
    simp only [mnemonic]
    refine ⟨_, rfl, ?_⟩
    exact .reg (.reg (.offset (by decide) (by decide) (.nil _)))
  | const =>
    simp only [mnemonic]
    refine ⟨_, rfl, ?_⟩
    exact .reg (.offset (by decide) (by decide) (.nil _))
  | hiconst =>
    simp only [mnemonic]
    refine ⟨_, rfl, ?_⟩
    exact .reg (.hex (by decide) (by decide) (.nil _))

/-- The text of an instruction is read as that instruction. -/
theorem parse_text {i : Instr} (plain : i.Plain) (cond : ∀ c o, i = br c o → 1 ≤ c ∧ c ≤ 7) :
    Assembly.parse i.text.toList = .ok (.instr i) := by
  obtain ⟨x, found, reads⟩ := exists_operands plain cond
  have operands := reads []
  rw [List.append_nil] at operands
  have next (a : Argument) (args : List Argument) :
      Reader.next?.run (a :: args) = .ok (some a, args) := rfl
  rw [Assembly.parse, ofChars_text plain, StateT.run'_eq, Assembly.reader, StateT.run_bind, next]
  simp only [bind, Except.bind, found]
  change Prod.fst <$> (x >>= fun a => finish >>= fun _ => pure a : Reader Assembly).run _ = _
  rw [StateT.run_bind, operands]
  rfl

theorem cond_decode {w : Word} {c : BitVec 8} {o : BitVec 9} (h : decode w = br c o) :
    1 ≤ c ∧ c ≤ 7 := by
  have range : ∀ flags : BitVec 3, flags ≠ 0 →
      1 ≤ flags.setWidth 8 ∧ flags.setWidth 8 ≤ 7 := by
    decide
  have same := canon_decode w
  simp only [h, canon] at same
  by_cases none : condFlags c = 0
  · rw [if_pos none] at same
    cases same
  · rw [if_neg none] at same
    exact (br.inj same).1 ▸ range (condFlags c) none

/-- A text ends in no blank, so trimming its line takes nothing of it. -/
theorem endsSolid_text {i : Instr} (plain : i.Plain) : Text.EndsSolid i.text.toList := by
  have mnemonic := denotes_of_isName (isName_mnemonic plain)
  unfold text
  cases texts : i.operandTexts with
  | nil => exact mnemonic.endsSolid
  | cons s ss =>
    simp only [String.toList_append]
    refine .append _ (Denotes.endsSolid_intercalate (by simp) ?_)
    rw [← texts]
    exact denotes_operandTexts plain

theorem head_text {i : Instr} (plain : i.Plain) :
    ∃ c, i.text.toList.head? = some c ∧ Text.isBlank c = false := by
  have mnemonic := denotes_of_isName (isName_mnemonic plain)
  obtain ⟨c, cs, letters⟩ := List.exists_cons_of_ne_nil mnemonic.toList_ne_nil
  refine ⟨c, ?_, mnemonic.solid c (by simp [letters])⟩
  unfold text
  split <;> simp [letters]

theorem parse_eval_text {i : Instr} (plain : i.Plain)
    (cond : ∀ c o, i = br c o → 1 ≤ c ∧ c ≤ 7) :
    Command.parse ("eval " ++ i.text) = .ok (some (.eval (.instr i))) := by
  have ends := endsSolid_text plain
  obtain ⟨c, head, solid⟩ := head_text plain
  have trimmed : Text.trim i.text.toList = i.text.toList := by
    refine Text.trim_eq_self ?_ ends
    rw [head]
    rintro d ⟨⟩
    exact solid
  have some : i.text.toList.isEmpty = false := by
    obtain ⟨cs, letters⟩ := List.head?_eq_some_iff.mp head
    rw [letters]
    rfl
  have line : ("eval " ++ i.text).toList = 'e' :: ['v', 'a', 'l'] ++ ' ' :: i.text.toList := by
    simp
  have blank : ∀ b ∈ (' ' :: i.text.toList).head?, Text.isBlank b = true := by
    rintro b ⟨⟩
    rfl
  have solid : Text.Solid ['e', 'v', 'a', 'l'] :=
    .cons rfl (.cons rfl (.cons rfl (.cons rfl nofun)))
  have name : String.ofList (Text.lower ['e', 'v', 'a', 'l']) = "eval" := by decide
  rw [Command.parse_of_word line solid blank (by decide), Text.trim_cons_of_blank rfl, trimmed,
    Command.ofParts, name]
  rw [some, parse_text plain cond]
  rfl

/-- The text that a listing of code or memory shows for an instruction is read as that
instruction, and the line that evaluates it does nothing else. -/
theorem disassembly_assembles :
    (∀ i : Instr, i.Plain → (∀ c o, i = br c o → 1 ≤ c ∧ c ≤ 7) →
      Assembly.parse i.text.toList = .ok (.instr i)) ∧
    (∀ w : Word, (∀ v, decode w ≠ unknown v) →
      (∀ a, ∃ front, Listing.word a w = Listing.line (front ++ "\t" ++ (decode w).text)) ∧
      Command.parse ("eval " ++ (decode w).text) = .ok (some (.eval (.instr (decode w)))) ∧
      ∀ (sh : Shell) (m : Machine), sh.executeLine m ("eval " ++ (decode w).text) =
        some ⟨(m.eval (decode w)).machine,
          ((m.eval (decode w)).fault.map (Listing.fault sh.coloured)).getD "", .continue⟩) ∧
    ∀ (coloured : Bool) (m : Machine),
      Listing.target coloured m .code = Listing.word m.pc (m.mem.get m.pc) ∧
      ∀ (location : Location) (a n : Word), location.resolve m.labels = .ok a →
        Listing.target coloured m (.mem location n) =
          String.join ((m.mem.window a n.toNat).map fun p => Listing.word p.1 p.2) := by
  refine ⟨fun i plain cond => parse_text plain cond, ?_, ?_⟩
  · intro w known
    have plain : (decode w).Plain := (plain_decode_or w).resolve_right (known w)
    have cond : ∀ c o, decode w = br c o → 1 ≤ c ∧ c ≤ 7 := fun c o h => cond_decode h
    have read := parse_eval_text plain cond
    refine ⟨fun a => ⟨_, rfl⟩, read, fun sh m => ?_⟩
    rw [Shell.executeLine, read]
    rfl
  · intro coloured m
    refine ⟨rfl, fun location a n found => ?_⟩
    rw [Listing.target, found]

/-- A branch back as far as its offset goes. -/
theorem disassembly_assembles_branch :
    decode 0x0900 = br 4 0x100 ∧ (decode 0x0900).text = "BRn #-256" ∧
      Assembly.parse "BRn #-256".toList = .ok (.instr (br 4 0x100)) ∧
      Command.parse "eval BRn #-256" = .ok (some (.eval (.instr (br 4 0x100)))) := by
  have decoded : decode 0x0900 = br 4 0x100 := by decide
  have text : (decode 0x0900).text = "BRn #-256" := by decide +kernel
  obtain ⟨assembles, listed, _⟩ := disassembly_assembles
  have parsed := assembles (br 4 0x100) trivial (by rintro c o ⟨⟩; decide)
  have known : ∀ v, decode 0x0900 ≠ unknown v := by
    rw [decoded]
    nofun
  have line := (listed 0x0900 known).2.1
  rw [← decoded, text] at parsed
  rw [text] at line
  rw [decoded] at parsed line
  exact ⟨decoded, text, parsed, line⟩

end Instr

end Lc4
