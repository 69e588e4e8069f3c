import Lc4.Proofs.Disassembly
import Lc4.Proofs.OffsetRanges

/-!
# What the assembler makes of a line

An instruction is assembled from a mnemonic and one argument for each of its operands, and every
operand is what its argument says. Nothing is assembled from a number that the field of an operand
cannot hold.
-/
namespace Lc4

namespace Shell

/-- What the field of an operand can hold: a register, a number of so many bits, or either. -/
inductive Place
  | reg
  | imm (s : Signedness) (bits : Nat)
  | regOrImm (bits : Nat)
deriving DecidableEq

/-- How many bits of a word hold the operand. -/
def Place.bits : Place → Nat
  | reg => 3
  | imm _ bits | regOrImm bits => bits

/-- What is written for an operand. -/
inductive Written
  | reg (r : Reg)
  | number (n : Int)
deriving DecidableEq

/-- The numbers of a field of so many bits. -/
def Place.InRange (n : Int) : Signedness → Nat → Prop
  | .signed, bits => -2 ^ (bits - 1) ≤ n ∧ n < 2 ^ (bits - 1)
  | .unsigned, bits => 0 ≤ n ∧ n < 2 ^ bits

theorem Place.inRange_iff {n : Int} {s : Signedness} {bits : Nat} :
    InRange n s bits ↔ Offset.InRange s bits n := by
  cases s <;> exact and_congr_right fun _ => Int.le_sub_one_iff.symm

def Place.Admits : Place → Written → Prop
  | reg, .reg _ | regOrImm _, .reg _ => True
  | imm s bits, .number n => InRange n s bits
  | regOrImm bits, .number n => InRange n .signed bits
  | _, _ => False

/-- An operand of an instruction, with the field that holds it. -/
structure Field where
  place : Place
  written : Written

namespace Field
variable {bits : Nat}

def reg (r : Reg) : Field :=
  ⟨.reg, .reg r⟩

def imm (s : Signedness) (v : BitVec bits) : Field :=
  ⟨.imm s bits, .number (s.value v)⟩

def operand (v : Operand bits) : Field where
  place := .regOrImm bits
  written := match v with
    | .imm v => .number v.toInt
    | .reg r => .reg r

theorem inRange_value (s : Signedness) (v : BitVec bits) :
    Place.InRange (s.value v) s bits :=
  Place.inRange_iff.mpr (Offset.inRange_value s v)

theorem admits_reg (r : Reg) : (reg r).place.Admits (reg r).written :=
  trivial

theorem admits_imm (s : Signedness) (v : BitVec bits) :
    (imm s v).place.Admits (imm s v).written :=
  inRange_value s v

theorem admits_operand (v : Operand bits) : (operand v).place.Admits (operand v).written := by
  cases v with
  | imm v => exact inRange_value .signed v
  | reg r => trivial

end Field

end Shell

namespace Instr

open Shell

/-- The operands in the order in which they are written. -/
def fields : Instr → List Field
  | nop | ret | rti | lea _ _ | lc _ _ | unknown _ => []
  | br _ o => [.imm .signed o]
  | add d s v | and d s v => [.reg d, .reg s, .operand v]
  | alu _ d s t => [.reg d, .reg s, .reg t]
  | not d s => [.reg d, .reg s]
  | cmp _ s t => [.reg s, .reg t]
  | cmpImm reading s v => [.reg s, .imm reading v]
  | jsr (.imm v) | jmp (.imm v) => [.imm .signed v]
  | jsr (.reg s) | jmp (.reg s) => [.reg s]
  | trap v => [.imm .unsigned v]
  | ldr r s o | str r s o => [.reg r, .reg s, .imm .signed o]
  | const d v => [.reg d, .imm .signed v]
  | hiconst d v => [.reg d, .imm .unsigned v]
  | shift _ d s n => [.reg d, .reg s, .imm .unsigned n]

/-- What an instruction holds fits its fields. -/
theorem admits_fields (i : Instr) : ∀ f ∈ i.fields, f.place.Admits f.written := by
  have reg := Field.admits_reg
  have imm := @Field.admits_imm
  have operand := @Field.admits_operand
  cases i with
  | jsr target | jmp target => cases target <;> simp [fields, reg, imm]
  | _ => simp [fields, reg, imm, operand]

/-- The instructions that a line can say: those of the machine, and a branch on flags that exist. -/
structure Assembled (i : Instr) : Prop where
  plain : i.Plain
  cond : ∀ c o, i = br c o → 1 ≤ c ∧ c ≤ 7

/-- The mnemonic is that of the instruction, but for `BR`, which stands for `BRNZP`. -/
def Named (i : Instr) (mnemonic : String) : Prop :=
  String.ofList (Text.upper i.mnemonic.toList) = mnemonic ∨
    mnemonic = "BR" ∧ i.mnemonic = "BRnzp"

theorem Named.of_eq {i : Instr} {mnemonic : String} (same : i.mnemonic = mnemonic)
    (capital : String.ofList (Text.upper mnemonic.toList) = mnemonic) : i.Named mnemonic :=
  .inl (by rw [same, capital])

/-- Only one assembled instruction has a second spelling: the jump that is a return. -/
theorem canon_of_assembled {i : Instr} (h : i.Assembled) :
    i.canon = if i = jmp (.reg Reg.link) then ret else i := by
  cases i with
  | br c o =>
    have kept : ∀ c : BitVec 8, 1 ≤ c → c ≤ 7 →
        condFlags c ≠ 0 ∧ (condFlags c).setWidth 8 = c := by decide
    obtain ⟨low, high⟩ := h.cond c o rfl
    obtain ⟨some, same⟩ := kept c low high
    rw [canon, if_neg some, same]
    rfl
  | jmp target => cases target <;> simp [canon]
  | _ => simp [canon]

end Instr

namespace Shell

/-- What a token says as an operand. -/
def Token.written? : Token → Option Written
  | unsigned w => some (.number w.toNat)
  | signed w => some (.number w.toInt)
  | reg r => some (.reg r)
  | _ => none

def Argument.written? (a : Argument) : Option Written :=
  a.result.toOption.bind Token.written?

namespace Reader
variable {α β : Type} {args rest : List Argument}

theorem exists_of_run_bind {x : Reader α} {f : α → Reader β} {b : β}
    (h : (x >>= f).run args = .ok (b, rest)) :
    ∃ a mid, x.run args = .ok (a, mid) ∧ (f a).run mid = .ok (b, rest) := by
  rw [StateT.run_bind] at h
  cases first : x.run args with
  | error e =>
    rw [first] at h
    cases h
  | ok r =>
    rw [first] at h
    exact ⟨r.1, r.2, rfl, h⟩

theorem exists_of_run' {x : Reader α} {a : α} (h : x.run' args = .ok a) :
    ∃ rest, x.run args = .ok (a, rest) := by
  rw [StateT.run'_eq] at h
  cases result : x.run args with
  | error e =>
    rw [result] at h
    cases h
  | ok r =>
    rw [result] at h
    obtain rfl : r.1 = a := Except.ok.inj h
    exact ⟨r.2, rfl⟩

theorem of_run_next? {next : Option Argument} (h : next?.run args = .ok (next, rest)) :
    next = none ∧ args = [] ∨ ∃ a, next = some a ∧ args = a :: rest := by
  rcases args with _ | ⟨a, args⟩
  · cases h
    exact .inl ⟨rfl, rfl⟩
  · cases h
    exact .inr ⟨a, rfl, rfl⟩

theorem of_run_finish {u : Unit} (h : finish.run args = .ok (u, rest)) : args = [] ∧ rest = [] := by
  rcases args with _ | ⟨a, args⟩
  · cases h
    exact ⟨rfl, rfl⟩
  · cases h

theorem eq_of_run_operand {expected : String} {p : Token × String}
    (h : (operand expected).run args = .ok (p, rest)) : args = ⟨.ok p.1, p.2⟩ :: rest := by
  obtain ⟨next, mid, first, last⟩ := exists_of_run_bind h
  rcases of_run_next? first with ⟨rfl, -⟩ | ⟨⟨e | t, text⟩, rfl, whole⟩
  · cases last
  · cases last
  · cases last
    exact whole

/-- The reader takes one argument, which says what it gives. -/
def Takes (written : α → Written) (x : Reader α) : Prop :=
  ∀ args a rest, x.run args = .ok (a, rest) →
    ∃ b : Argument, args = b :: rest ∧ b.written? = some (written a)

/-- The reader of registers takes one argument that names the register. -/
theorem takes_reg : Takes .reg reg := by
  intro args r rest h
  obtain ⟨⟨t, text⟩, mid, first, last⟩ := exists_of_run_bind h
  obtain rfl := eq_of_run_operand first
  cases t with
  | reg r =>
    cases last
    exact ⟨_, rfl, rfl⟩
  | _ => cases last

section Numbers
variable {bits : Nat}

theorem of_run_fit (some : bits ≠ 0) (fits : bits ≤ 16) {s : Signedness} {w : Word}
    {v : BitVec bits} (h : (fit s bits w).run args = .ok (v, rest)) :
    rest = args ∧ s.value v = s.value w := by
  unfold fit at h
  split at h
  · rename_i u immediate
    cases h
    exact ⟨rfl, Offset.value_of_immediate some fits immediate⟩
  · cases h

theorem of_run_nonnegative {w u : Word} {found : String}
    (h : (nonnegative w found).run args = .ok (u, rest)) :
    rest = args ∧ u = w ∧ w.toInt = w.toNat := by
  unfold nonnegative at h
  split at h
  · cases h
  · rename_i plain
    cases h
    refine ⟨rfl, rfl, ?_⟩
    rw [BitVec.toInt_eq_msb_cond, if_neg plain]

theorem takes_signed (some : bits ≠ 0) (fits : bits ≤ 16) :
    Takes (fun v => .number (Signedness.signed.value v)) (signed bits) := by
  intro args v rest h
  obtain ⟨⟨t, text⟩, mid, first, last⟩ := exists_of_run_bind h
  obtain rfl := eq_of_run_operand first
  cases t with
  | signed w =>
    obtain ⟨rfl, same⟩ := of_run_fit some fits last
    exact ⟨_, rfl, congrArg (Option.some ∘ Written.number) same.symm⟩
  | unsigned w =>
    obtain ⟨u, mid, second, third⟩ := exists_of_run_bind last
    obtain ⟨rfl, rfl, plain⟩ := of_run_nonnegative second
    obtain ⟨rfl, same⟩ := of_run_fit some fits third
    exact ⟨_, rfl, congrArg (Option.some ∘ Written.number) (plain.symm.trans same.symm)⟩
  | _ => cases last

theorem takes_unsigned (some : bits ≠ 0) (fits : bits ≤ 16) :
    Takes (fun v => .number (Signedness.unsigned.value v)) (unsigned bits) := by
  intro args v rest h
  obtain ⟨⟨t, text⟩, mid, first, last⟩ := exists_of_run_bind h
  obtain rfl := eq_of_run_operand first
  cases t with
  | unsigned w =>
    obtain ⟨rfl, same⟩ := of_run_fit some fits last
    exact ⟨_, rfl, congrArg (Option.some ∘ Written.number) same.symm⟩
  | _ => cases last

theorem takes_regOrSigned (some : bits ≠ 0) (fits : bits ≤ 16) :
    Takes (fun v => (Field.operand v).written) (regOrSigned bits) := by
  intro args v rest h
  obtain ⟨⟨t, text⟩, mid, first, last⟩ := exists_of_run_bind h
  obtain rfl := eq_of_run_operand first
  cases t with
  | reg r =>
    cases last
    exact ⟨_, rfl, rfl⟩
  | signed w =>
    obtain ⟨u, mid, fitted, given⟩ := exists_of_run_bind last
    cases given
    obtain ⟨rfl, same⟩ := of_run_fit some fits fitted
    exact ⟨_, rfl, congrArg (Option.some ∘ Written.number) same.symm⟩
  | unsigned w =>
    obtain ⟨u, mid, second, third⟩ := exists_of_run_bind last
    obtain ⟨rfl, rfl, plain⟩ := of_run_nonnegative second
    obtain ⟨u, mid, fitted, given⟩ := exists_of_run_bind third
    cases given
    obtain ⟨rfl, same⟩ := of_run_fit some fits fitted
    exact ⟨_, rfl, congrArg (Option.some ∘ Written.number) (plain.symm.trans same.symm)⟩
  | _ => cases last

end Numbers

/-- What is read is an instruction with this mnemonic and these places for its operands, written as
`ws` and the arguments that are taken. -/
def Yields (mnemonic : String) (places : List Place) (ws : List Written) (x : Reader Assembly) :
    Prop :=
  ∀ args a rest, x.run args = .ok (a, rest) → ∃ i taken, a = .instr i ∧ args = taken ++ rest ∧
    i.Assembled ∧ i.Named mnemonic ∧ i.fields.map Field.place = places ∧
    i.fields.map (fun f => some f.written) = ws.map some ++ taken.map Argument.written?

namespace Yields
variable {mnemonic : String} {places : List Place} {ws : List Written}

theorem pure {i : Instr} (assembled : i.Assembled) (named : i.Named mnemonic)
    (shape : i.fields.map Field.place = places) (written : i.fields.map Field.written = ws) :
    Yields mnemonic places ws (pure (.instr i)) := by
  intro args a rest h
  cases h
  refine ⟨i, [], rfl, rfl, assembled, named, shape, ?_⟩
  rw [← written, List.map_map, List.map_nil, List.append_nil]
  rfl

theorem bind {w : α → Written} {x : Reader α} {f : α → Reader Assembly} (first : Takes w x)
    (last : ∀ a, Yields mnemonic places (ws ++ [w a]) (f a)) :
    Yields mnemonic places ws (x >>= f) := by
  intro args b rest h
  obtain ⟨a, mid, front, behind⟩ := exists_of_run_bind h
  obtain ⟨c, rfl, written⟩ := first args a mid front
  obtain ⟨i, taken, rfl, rfl, assembled, named, shape, same⟩ := last a mid b rest behind
  refine ⟨i, c :: taken, rfl, rfl, assembled, named, shape, ?_⟩
  rw [same, List.map_append, List.append_assoc, List.map_cons, List.map_cons, written]
  rfl

end Yields

end Reader

open Reader

/-- The fields for the operands of a mnemonic in upper case. `LEA` and `LC` stand for two
instructions and are not among them. -/
def places? (mnemonic : String) : Option (List Place) :=
  match mnemonic with
  | "NOP" | "RET" | "RTI" => some []
  | "BR" | "BRN" | "BRZ" | "BRP" | "BRNZ" | "BRNP" | "BRZP" | "BRNZP" => some [.imm .signed 9]
  | "ADD" | "AND" => some [.reg, .reg, .regOrImm 5]
  | "MUL" | "SUB" | "DIV" | "MOD" | "OR" | "XOR" => some [.reg, .reg, .reg]
  | "NOT" | "CMP" | "CMPU" => some [.reg, .reg]
  | "CMPI" => some [.reg, .imm .signed 7]
  | "CMPIU" => some [.reg, .imm .unsigned 7]
  | "JSR" | "JMP" => some [.imm .signed 11]
  | "JSRR" | "JMPR" => some [.reg]
  | "TRAP" => some [.imm .unsigned 8]
  | "LDR" | "STR" => some [.reg, .reg, .imm .signed 6]
  | "CONST" => some [.reg, .imm .signed 9]
  | "HICONST" => some [.reg, .imm .unsigned 8]
  | "SLL" | "SRA" | "SRL" => some [.reg, .reg, .imm .unsigned 4]
  | _ => none

namespace Assembly

/-- Takes a flag off the front of a suffix if it is there. -/
def takeFlag (c : Char) (bit : BitVec 8) : BitVec 8 × List Char → BitVec 8 × List Char
  | (cond, d :: rest) => if d = c then (cond ||| bit, rest) else (cond, d :: rest)
  | (cond, []) => (cond, [])

theorem takeFlag_eq_or (c : Char) (bit cond : BitVec 8) (cs : List Char) :
    takeFlag c bit (cond, cs) = (cond, cs) ∨
      ∃ rest, cs = c :: rest ∧ takeFlag c bit (cond, cs) = (cond ||| bit, rest) := by
  rcases cs with _ | ⟨d, rest⟩
  · exact .inl rfl
  · by_cases same : d = c
    · exact .inr ⟨rest, by rw [same], if_pos same⟩
    · exact .inl (if_neg same)

theorem condOfSuffix?_cons {c : Char} {cs : List Char} {cond : BitVec 8}
    (h : condOfSuffix? (c :: cs) = some cond) :
    takeFlag 'P' 1 (takeFlag 'Z' 2 (takeFlag 'N' 4 (0, c :: cs))) = (cond, []) := by
  unfold condOfSuffix? at h
  dsimp only at h
  split at h
  · rename_i taken
    cases h
    exact taken
  · cases h

/-- The suffixes of branches, with the flags that they name. -/
def suffixes : List (List Char × BitVec 8) :=
  [([], 7), (['N'], 4), (['Z'], 2), (['P'], 1), (['N', 'Z'], 6), (['N', 'P'], 5), (['Z', 'P'], 3),
    (['N', 'Z', 'P'], 7)]

/-- The suffixes of branches are these and no others. -/
theorem mem_suffixes {suffix : List Char} {cond : BitVec 8}
    (h : condOfSuffix? suffix = some cond) : (suffix, cond) ∈ suffixes := by
  rcases suffix with _ | ⟨c, cs⟩
  · cases h
    decide
  · have taken := condOfSuffix?_cons h
    have some : c :: cs ≠ [] := List.cons_ne_nil c cs
    generalize c :: cs = word at taken some
    have last : ∀ {flags : BitVec 8} {word : List Char},
        takeFlag 'P' 1 (flags, word) = (cond, []) →
          word = [] ∧ cond = flags ∨ word = ['P'] ∧ cond = flags ||| 1 := by
      intro flags word taken
      rcases takeFlag_eq_or 'P' 1 flags word with p | ⟨behind, rfl, p⟩ <;> rw [p] at taken <;>
        cases taken <;> simp
    rcases takeFlag_eq_or 'N' 4 0 word with n | ⟨word, rfl, n⟩ <;> rw [n] at taken
    · rcases takeFlag_eq_or 'Z' 2 0 word with z | ⟨word, rfl, z⟩ <;> rw [z] at taken
      · obtain ⟨rfl, rfl⟩ | ⟨rfl, rfl⟩ := last taken
        · exact absurd rfl some
        · decide
      · obtain ⟨rfl, rfl⟩ | ⟨rfl, rfl⟩ := last taken <;> decide
    · rcases takeFlag_eq_or 'Z' 2 (0 ||| 4) word with z | ⟨word, rfl, z⟩ <;> rw [z] at taken
      · obtain ⟨rfl, rfl⟩ | ⟨rfl, rfl⟩ := last taken <;> decide
      · obtain ⟨rfl, rfl⟩ | ⟨rfl, rfl⟩ := last taken <;> decide

theorem range_of_suffix : ∀ p ∈ suffixes, 1 ≤ p.2 ∧ p.2 ≤ 7 := by
  decide

theorem places?_of_suffix : ∀ p ∈ suffixes,
    places? (String.ofList ('B' :: 'R' :: p.1)) = some [.imm .signed 9] := by
  decide

theorem named_of_suffix : ∀ p ∈ suffixes, ∀ o,
    (Instr.br p.2 o).Named (String.ofList ('B' :: 'R' :: p.1)) := by
  have letters : ∀ p ∈ suffixes,
      String.ofList (Text.upper ("BR" ++ Instr.condLetters p.2).toList) =
          String.ofList ('B' :: 'R' :: p.1) ∨
        String.ofList ('B' :: 'R' :: p.1) = "BR" ∧ "BR" ++ Instr.condLetters p.2 = "BRnzp" := by
    decide
  exact fun p hp _ => letters p hp

/-- Where a label is read, there is no instruction yet. -/
theorem run_label_ne {f : Reg → String → Assembly} (other : ∀ rd label i, f rd label ≠ .instr i)
    (args : List Argument) (i : Instr) (rest : List Argument) :
    (reg >>= fun rd => label >>= fun l => pure (f rd l) : Reader Assembly).run args ≠
      .ok (.instr i, rest) := by
  intro h
  obtain ⟨rd, mid, -, last⟩ := exists_of_run_bind h
  obtain ⟨l, mid, -, last⟩ := exists_of_run_bind last
  cases found : f rd l with
  | instr i => exact other rd l i found
  | lea | lc =>
    rw [found] at last
    cases last

/-- Every mnemonic reads an argument for each of its fields and makes an instruction with that
mnemonic; the two that name labels make none. -/
theorem yields_operands {mnemonic : List Char} {x : Reader Assembly}
    (h : operands? mnemonic = some x) :
    places? (String.ofList mnemonic) = none ∧
      (∀ args i rest, x.run args ≠ .ok (.instr i, rest)) ∨
    ∃ places, places? (String.ofList mnemonic) = some places ∧
      Yields (String.ofList mnemonic) places [] x := by
  unfold operands? at h
  split at h
  · obtain ⟨cond, flags, rfl⟩ := Option.map_eq_some_iff.mp h
    have known := mem_suffixes flags
    refine .inr ⟨_, places?_of_suffix _ known, ?_⟩
    refine .bind (takes_signed (by decide) (by decide)) fun o => ?_
    refine .pure ⟨trivial, ?_⟩ (named_of_suffix _ known o) rfl rfl
    rintro _ _ ⟨⟩
    exact range_of_suffix _ known
  · split at h
    all_goals cases h
    all_goals
      rename_i name
      rw [name]
    any_goals refine Or.inr ⟨_, rfl, ?_⟩
    any_goals exact Or.inl ⟨rfl, run_label_ne nofun⟩
    -- All but `LEA` and `LC` read one operand after the other.
    all_goals repeat' first
      | refine .bind takes_reg fun _ => ?_
      | refine .bind (takes_signed (by decide) (by decide)) fun _ => ?_
      | refine .bind (takes_unsigned (by decide) (by decide)) fun _ => ?_
      | refine .bind (takes_regOrSigned (by decide) (by decide)) fun _ => ?_
      | exact .pure ⟨trivial, nofun⟩ (.of_eq rfl (by decide)) rfl rfl

theorem exists_of_parse {cs : List Char} {a : Assembly} (h : parse cs = .ok a) :
    ∃ name text args x, Argument.ofChars cs = ⟨.ok (.ident name), text⟩ :: args ∧
      operands? (Text.upper name.toList) = some x ∧ x.run args = .ok (a, []) := by
  obtain ⟨rest, ran⟩ := exists_of_run' h
  obtain ⟨next, args, first, last⟩ := exists_of_run_bind ran
  rcases of_run_next? first with ⟨rfl, -⟩ | ⟨⟨e | t, text⟩, rfl, whole⟩
  · cases last
  · cases last
  · cases t with
    | ident name =>
      dsimp only at last
      split at last
      · cases last
      · rename_i x known
        obtain ⟨b, mid, read, last⟩ := exists_of_run_bind last
        obtain ⟨u, behind, ended, last⟩ := exists_of_run_bind last
        cases last
        obtain ⟨rfl, rfl⟩ := of_run_finish ended
        exact ⟨name, text, args, x, whole, known, read⟩
    | _ => cases last

/-- What a line was assembled into has the mnemonic of the line and an operand for each argument. -/
theorem made_of_parse {cs : List Char} {i : Instr} (h : parse cs = .ok (.instr i)) :
    i.Assembled ∧ ∃ name text args, Argument.ofChars cs = ⟨.ok (.ident name), text⟩ :: args ∧
      i.Named (String.ofList (Text.upper name.toList)) ∧
      places? (String.ofList (Text.upper name.toList)) = some (i.fields.map Field.place) ∧
      args.map Argument.written? = i.fields.map fun f => some f.written := by
  obtain ⟨name, text, args, x, whole, known, read⟩ := exists_of_parse h
  rcases yields_operands known with ⟨-, other⟩ | ⟨places, shape, yields⟩
  · exact absurd read (other args i [])
  · obtain ⟨i, taken, same, rfl, assembled, named, rfl, written⟩ := yields args _ [] read
    cases same
    refine ⟨assembled, name, text, _, whole, named, shape, ?_⟩
    rw [List.append_nil, written]
    rfl

/-- The argument stands where the mnemonic of the line wants an operand for this field. -/
def StandsAt (cs : List Char) (a : Argument) (place : Place) : Prop :=
  ∃ (name text : String) (args : List Argument) (places : List Place) (k : Nat),
    Argument.ofChars cs = ⟨.ok (.ident name), text⟩ :: args ∧
      places? (String.ofList (Text.upper name.toList)) = some places ∧
      args[k]? = some a ∧ places[k]? = some place

/-- An argument that its place does not admit makes the line an error. -/
theorem exists_error {cs : List Char} {a : Argument} {place : Place} (stands : StandsAt cs a place)
    (bad : ∀ w, a.written? = some w → ¬ place.Admits w) : ∃ e, parse cs = .error e := by
  obtain ⟨name, text, args, places, k, whole, shape, there, wanted⟩ := stands
  cases parsed : parse cs with
  | error e => exact ⟨e, rfl⟩
  | ok b =>
    obtain ⟨name', text', args', x, whole', known, read⟩ := exists_of_parse parsed
    rw [whole] at whole'
    cases whole'
    rcases yields_operands known with ⟨none, -⟩ | ⟨places', shape', yields⟩
    · rw [shape] at none
      cases none
    · rw [shape] at shape'
      cases shape'
      obtain ⟨i, taken, -, rfl, -, -, rfl, written⟩ := yields args b [] read
      rw [List.append_nil] at there
      rw [List.getElem?_map, Option.map_eq_some_iff] at wanted
      obtain ⟨f, found, rfl⟩ := wanted
      have same : (i.fields.map fun f => some f.written)[k]? = some a.written? := by
        rw [written, List.map_nil, List.nil_append, List.getElem?_map, there]
        rfl
      rw [List.getElem?_map, found] at same
      have fits := i.admits_fields f (List.mem_of_getElem? found)
      exact absurd fits (bad f.written (Option.some.inj same).symm)

theorem bits_le_of_places? {mnemonic : String} {places : List Place}
    (h : places? mnemonic = some places) : ∀ p ∈ places, p.bits ≤ 16 := by
  unfold places? at h
  split at h <;> cases h <;> decide

/-- A number without a sign that only a signed word could take for a negative one is no operand
where a signed number is wanted. -/
theorem exists_error_of_large {cs : List Char} {a : Argument} {place : Place} {w : Word}
    (stands : StandsAt cs a place) (wanted : place = .imm .signed place.bits ∨
      place = .regOrImm place.bits) (token : a.result = .ok (.unsigned w))
    (large : 0x7FFF < w.toNat) : ∃ e, parse cs = .error e := by
  refine exists_error stands ?_
  have narrow : place.bits ≤ 16 := by
    obtain ⟨name, text, args, places, k, -, shape, -, there⟩ := stands
    exact bits_le_of_places? shape place (List.mem_of_getElem? there)
  have said : a.written? = some (.number w.toNat) := by
    rw [Argument.written?, token]
    rfl
  intro v written fits
  rw [said] at written
  obtain rfl := Option.some.inj written
  have range : Place.InRange w.toNat .signed place.bits := by
    rcases wanted with same | same <;> rw [same] at fits <;> exact fits
  have power : (2 : Int) ^ (place.bits - 1) ≤ 2 ^ 15 := by
    exact_mod_cast Nat.pow_le_pow_right (by decide) (by omega)
  have below := range.2
  omega

/-- The instructions that some line says are the assembled ones; each says itself by its own text.
-/
theorem exists_parse_iff {i : Instr} :
    (∃ src : String, parse src.toList = .ok (.instr i)) ↔ i.Assembled := by
  constructor
  · rintro ⟨src, h⟩
    exact (made_of_parse h).1
  · intro h
    exact ⟨i.text, Instr.parse_text h.plain h.cond⟩

/-- Lines say the instructions of the machine and no others. The instruction that a line says has
the mnemonic of the line, an operand for each of the arguments and every number in the range of its
field. Its word stands for it alone, but for the return that a jump to the link register is, and
its text is read as the same instruction. A number out of the range of its field is an error, and
so is one without a sign where a signed one is wanted if it would have to be taken for a negative
one. -/
theorem parse_represents :
    (∀ i, (∃ src : String, parse src.toList = .ok (.instr i)) ↔
      i.Plain ∧ ∀ c o, i = .br c o → 1 ≤ c ∧ c ≤ 7) ∧
    (∀ (src : String) (i : Instr), parse src.toList = .ok (.instr i) →
      (∃ name text args, Argument.ofChars src.toList = ⟨.ok (.ident name), text⟩ :: args ∧
        i.Named (String.ofList (Text.upper name.toList)) ∧
        places? (String.ofList (Text.upper name.toList)) = some (i.fields.map Field.place) ∧
        args.map Argument.written? = i.fields.map fun f => some f.written) ∧
      (∀ f ∈ i.fields, f.place.Admits f.written) ∧
      (∃ w, i.encode = some w ∧
        Instr.decode w = if i = .jmp (.reg Reg.link) then .ret else i) ∧
      parse i.text.toList = .ok (.instr i)) ∧
    (∀ (src : String) (a : Argument) (place : Place), StandsAt src.toList a place →
      ((∀ v, a.written? = some v → ¬ place.Admits v) → ∃ e, parse src.toList = .error e) ∧
      ∀ w : Word, (place = .imm .signed place.bits ∨ place = .regOrImm place.bits) →
        a.result = .ok (.unsigned w) → 0x7FFF < w.toNat → ∃ e, parse src.toList = .error e) := by
  refine ⟨fun i => ?_, fun src i parsed => ?_, fun src a place stands => ?_⟩
  · rw [exists_parse_iff]
    exact ⟨fun h => ⟨h.plain, h.cond⟩, fun h => ⟨h.1, h.2⟩⟩
  · obtain ⟨assembled, made⟩ := made_of_parse parsed
    obtain ⟨w, encoded, decoded⟩ := Instr.decode_encode assembled.plain
    rw [Instr.canon_of_assembled assembled] at decoded
    exact ⟨made, i.admits_fields, ⟨w, encoded, decoded⟩,
      Instr.parse_text assembled.plain assembled.cond⟩
  · exact ⟨exists_error stands, fun w => exists_error_of_large stands⟩

theorem parse_represents_narrow :
    parse "Add r1, R2, -0x10".toList = .ok (.instr (.add 1 2 (.imm 0x10))) ∧
      parse "ADD R1, R2, #-16".toList = .ok (.instr (.add 1 2 (.imm 0x10))) ∧
      ∃ e, parse "CONST R0, 0xFFFF".toList = .error e := by
  have parsed : parse "Add r1, R2, -0x10".toList = .ok (.instr (.add 1 2 (.imm 0x10))) := by
    decide +kernel
  have text : (Instr.add 1 2 (.imm 0x10)).text = "ADD R1, R2, #-16" := by decide +kernel
  obtain ⟨-, represented, refused⟩ := parse_represents
  have listed := (represented _ _ parsed).2.2.2
  rw [text] at listed
  have arguments : Argument.ofChars "CONST R0, 0xFFFF".toList =
      [⟨.ok (.ident "CONST"), "CONST"⟩, ⟨.ok (.reg 0), "R0"⟩,
        ⟨.ok (.unsigned 0xFFFF), "0xFFFF"⟩] := by
    rfl
  have stands : StandsAt "CONST R0, 0xFFFF".toList ⟨.ok (.unsigned 0xFFFF), "0xFFFF"⟩
      (.imm .signed 9) :=
    ⟨_, _, _, _, 1, arguments, rfl, rfl, rfl⟩
  have large := (refused "CONST R0, 0xFFFF" _ _ stands).2 0xFFFF (.inl rfl) rfl
  exact ⟨parsed, listed, large (by decide)⟩

end Assembly

end Shell

end Lc4
