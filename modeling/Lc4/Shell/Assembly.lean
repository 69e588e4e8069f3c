import Lc4.Labels
import Lc4.Memory
import Lc4.Shell.Argument
import Lc4.Text.LetterCase

/-!
# One-line assembly

An instruction is written as a mnemonic, in any letter case, and its operands. `LEA` and `LC` name
a label, which is looked up when the instruction is needed.
-/
namespace Lc4.Shell

/-- An instruction, or one that waits for the address of a label or the word there. -/
inductive Assembly
  | instr (i : Instr)
  | lea (rd : Reg) (label : String)
  | lc (rd : Reg) (label : String)
deriving DecidableEq

namespace Assembly

/-- The flags of a branch: `n`, `z` and `p` in this order, each at most once, or nothing for all
three. -/
def condOfSuffix? (suffix : List Char) : Option (BitVec 8) :=
  let flag (c : Char) (bit : BitVec 8) : BitVec 8 × List Char → BitVec 8 × List Char
    | (cond, d :: rest) => if d = c then (cond ||| bit, rest) else (cond, d :: rest)
    | (cond, []) => (cond, [])
  match suffix with
  | [] => some 0b111
  | _ =>
    match flag 'P' 0b001 (flag 'Z' 0b010 (flag 'N' 0b100 (0, suffix))) with
    | (cond, []) => some cond
    | (_, _ :: _) => none

open Reader

private def threeRegs (f : Reg → Reg → Reg → Instr) : Reader Assembly :=
  return .instr (f (← reg) (← reg) (← reg))

private def regsAndOperand (f : Reg → Reg → Operand 5 → Instr) : Reader Assembly :=
  return .instr (f (← reg) (← reg) (← regOrSigned 5))

private def shiftOperands (op : ShiftOp) : Reader Assembly :=
  return .instr (.shift op (← reg) (← reg) (← unsigned 4))

/-- Reads the operands that a mnemonic in upper case asks for; none if there is no such
instruction. -/
def operands? (mnemonic : List Char) : Option (Reader Assembly) :=
  match mnemonic with
  | 'B' :: 'R' :: suffix =>
    (condOfSuffix? suffix).map fun cond => return .instr (.br cond (← signed 9))
  | _ =>
    match String.ofList mnemonic with
    | "NOP" => some (return .instr .nop)
    | "ADD" => some (regsAndOperand .add)
    | "AND" => some (regsAndOperand .and)
    | "MUL" => some (threeRegs (.alu .mul))
    | "SUB" => some (threeRegs (.alu .sub))
    | "DIV" => some (threeRegs (.alu .div))
    | "MOD" => some (threeRegs (.alu .mod))
    | "OR" => some (threeRegs (.alu .or))
    | "XOR" => some (threeRegs (.alu .xor))
    | "NOT" => some (return .instr (.not (← reg) (← reg)))
    | "CMP" => some (return .instr (.cmp .signed (← reg) (← reg)))
    | "CMPU" => some (return .instr (.cmp .unsigned (← reg) (← reg)))
    | "CMPI" => some (return .instr (.cmpImm .signed (← reg) (← signed 7)))
    | "CMPIU" => some (return .instr (.cmpImm .unsigned (← reg) (← unsigned 7)))
    | "JSR" => some (return .instr (.jsr (.imm (← signed 11))))
    | "JSRR" => some (return .instr (.jsr (.reg (← reg))))
    | "JMP" => some (return .instr (.jmp (.imm (← signed 11))))
    | "JMPR" => some (return .instr (.jmp (.reg (← reg))))
    | "RET" => some (return .instr .ret)
    | "RTI" => some (return .instr .rti)
    | "TRAP" => some (return .instr (.trap (← unsigned 8)))
    | "LDR" => some (return .instr (.ldr (← reg) (← reg) (← signed 6)))
    | "STR" => some (return .instr (.str (← reg) (← reg) (← signed 6)))
    | "CONST" => some (return .instr (.const (← reg) (← signed 9)))
    | "HICONST" => some (return .instr (.hiconst (← reg) (← unsigned 8)))
    | "SLL" => some (shiftOperands .sll)
    | "SRA" => some (shiftOperands .sra)
    | "SRL" => some (shiftOperands .srl)
    | "LEA" => some (return .lea (← reg) (← label))
    | "LC" => some (return .lc (← reg) (← label))
    | _ => none

def reader : Reader Assembly := do
  match ← next? with
  | none => throw (.missingArgument "an instruction")
  | some ⟨.ok (.ident name), _⟩ =>
    match operands? (Text.upper name.toList) with
    | none => throw (.unknownInstruction name)
    | some operands =>
      let a ← operands
      finish
      return a
  | some a => throw (.unknownInstruction a.text)

def parse (cs : List Char) : Except CommandError Assembly :=
  reader.run' (Argument.ofChars cs)

/-- The instruction itself, for the labels and the memory at hand. -/
def resolve (labels : Labels) (mem : Memory) : Assembly → Except CommandError Instr
  | instr i => .ok i
  | lea rd label =>
    match labels.find? label with
    | some a => .ok (.lea rd a)
    | none => .error (.unknownLabel label)
  | lc rd label =>
    match labels.find? label with
    | some a => .ok (.lc rd (mem.get a))
    | none => .error (.unknownLabel label)

end Assembly

end Lc4.Shell
