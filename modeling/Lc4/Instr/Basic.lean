import Lc4.Offset
import Lc4.Reg

/-!
# Instructions

An instruction holds its operands as the bit fields that encode them, so no operand can be out of
range. The branch condition is a byte of which only the low three bits, `n`, `z` and `p`, count.
`lea` and `lc` stand for two machine words and carry the value that they load.
-/
namespace Lc4

/-- A signed immediate value or a register. -/
inductive Operand (bits : Nat)
  | imm (value : BitVec bits)
  | reg (r : Reg)
deriving DecidableEq

namespace Operand

def text {bits : Nat} : Operand bits → String
  | imm v => Offset.text .signed v
  | reg r => r.name

end Operand

/-- The operations that take all their operands from registers. -/
inductive AluOp
  | mul
  | sub
  | div
  | mod
  | or
  | xor
deriving DecidableEq

inductive ShiftOp
  | sll
  | sra
  | srl
deriving DecidableEq

inductive Instr
  | nop
  | br (cond : BitVec 8) (offset : BitVec 9)
  | add (rd rs : Reg) (operand : Operand 5)
  | and (rd rs : Reg) (operand : Operand 5)
  | alu (op : AluOp) (rd rs rt : Reg)
  | not (rd rs : Reg)
  | cmp (reading : Signedness) (rs rt : Reg)
  | cmpImm (reading : Signedness) (rs : Reg) (value : BitVec 7)
  | jsr (target : Operand 11)
  | jmp (target : Operand 11)
  | ret
  | rti
  | trap (vector : BitVec 8)
  | ldr (rd base : Reg) (offset : BitVec 6)
  | str (rs base : Reg) (offset : BitVec 6)
  | const (rd : Reg) (value : BitVec 9)
  | hiconst (rd : Reg) (value : BitVec 8)
  | shift (op : ShiftOp) (rd rs : Reg) (amount : BitVec 4)
  | lea (rd : Reg) (value : Word)
  | lc (rd : Reg) (value : Word)
  | unknown (word : Word)
deriving DecidableEq

namespace Instr

/-- The three flags of a branch condition that count. -/
def condFlags (cond : BitVec 8) : BitVec 3 :=
  cond.setWidth 3

/-- Whether an instruction that executes sets the condition code. -/
def setsCond : Instr → Bool
  | nop | br _ _ | str _ _ _ | rti | jmp _ | ret | unknown _ => false
  | _ => true

end Instr

end Lc4
