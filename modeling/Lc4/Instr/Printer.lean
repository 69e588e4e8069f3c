import Lc4.Instr.Basic

/-!
# Assembly text of instructions

Operands follow the mnemonic and are separated by a comma and a space. A decimal immediate is
marked by `#`, a hexadecimal one by `x`.
-/
namespace Lc4

namespace Word

/-- A word as an address or a bit pattern: `x` and four digits. -/
def hex (w : Word) : String :=
  "x" ++ Text.Numeral.hex 4 w.toNat

end Word

namespace AluOp

def mnemonic : AluOp → String
  | mul => "MUL"
  | sub => "SUB"
  | div => "DIV"
  | mod => "MOD"
  | or => "OR"
  | xor => "XOR"

end AluOp

namespace ShiftOp

def mnemonic : ShiftOp → String
  | sll => "SLL"
  | sra => "SRA"
  | srl => "SRL"

end ShiftOp

namespace Instr

/-- The letters of a branch condition, in the order `n`, `z`, `p`. -/
def condLetters (cond : BitVec 8) : String :=
  (if cond.getLsbD 2 then "n" else "") ++ (if cond.getLsbD 1 then "z" else "")
    ++ (if cond.getLsbD 0 then "p" else "")

def mnemonic : Instr → String
  | nop => "NOP"
  | br c _ => "BR" ++ condLetters c
  | add _ _ _ => "ADD"
  | and _ _ _ => "AND"
  | alu op _ _ _ => op.mnemonic
  | not _ _ => "NOT"
  | cmp .signed _ _ => "CMP"
  | cmp .unsigned _ _ => "CMPU"
  | cmpImm .signed _ _ => "CMPI"
  | cmpImm .unsigned _ _ => "CMPIU"
  | jsr (.imm _) => "JSR"
  | jsr (.reg _) => "JSRR"
  | jmp (.imm _) => "JMP"
  | jmp (.reg _) => "JMPR"
  | ret => "RET"
  | rti => "RTI"
  | trap _ => "TRAP"
  | ldr _ _ _ => "LDR"
  | str _ _ _ => "STR"
  | const _ _ => "CONST"
  | hiconst _ _ => "HICONST"
  | shift op _ _ _ => op.mnemonic
  | lea _ _ => "LEA"
  | lc _ _ => "LC"
  | unknown _ => ".FILL"

def operandTexts : Instr → List String
  | nop | ret | rti => []
  | br _ o => [Offset.text .signed o]
  | add d s v => [d.name, s.name, v.text]
  | and d s v => [d.name, s.name, v.text]
  | alu _ d s t => [d.name, s.name, t.name]
  | not d s => [d.name, s.name]
  | cmp _ s t => [s.name, t.name]
  | cmpImm reading s v => [s.name, Offset.text reading v]
  | jsr v => [v.text]
  | jmp v => [v.text]
  | trap v => [Offset.hex 2 v]
  | ldr d s o => [d.name, s.name, Offset.text .signed o]
  | str t s o => [t.name, s.name, Offset.text .signed o]
  | const d v => [d.name, Offset.text .signed v]
  | hiconst d v => [d.name, Offset.hex 2 v]
  | shift _ d s a => [d.name, s.name, Offset.text .unsigned a]
  | lea d v => [d.name, v.hex]
  | lc d v => [d.name, v.hex]
  | unknown w => [w.hex]

def text (i : Instr) : String :=
  match i.operandTexts with
  | [] => i.mnemonic
  | operands => i.mnemonic ++ " " ++ ", ".intercalate operands

end Instr

end Lc4
