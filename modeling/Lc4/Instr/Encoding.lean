import Lc4.Instr.Basic

/-!
# Machine words of instructions

The top four bits of a word name an opcode group; a group with several operations tells them
apart by further bits. `decode` is total: a word of no instruction decodes to `unknown`. `encode`
writes zeros for the bits that `decode` does not look at, and has no word for the two
instructions that take two.
-/
namespace Lc4

namespace AluOp

/-- The opcode group of an operation and its selector in bits 5 to 3. -/
def code : AluOp → BitVec 4 × BitVec 3
  | mul => (0x1, 1)
  | sub => (0x1, 2)
  | div => (0x1, 3)
  | or => (0x5, 2)
  | xor => (0x5, 3)
  | mod => (0xA, 6)

end AluOp

namespace ShiftOp

/-- The selector in bits 5 and 4. -/
def code : ShiftOp → BitVec 2
  | sll => 0
  | sra => 1
  | srl => 2

end ShiftOp

namespace Instr

def decode (w : Word) : Instr :=
  let rd : Reg := w.extractLsb' 9 3
  let rs : Reg := w.extractLsb' 6 3
  let rt : Reg := w.extractLsb' 0 3
  match w.extractLsb' 12 4 with
  | 0x0#4 => if rd = 0 then nop else br (rd.setWidth 8) (w.setWidth 9)
  | 0x1#4 =>
    if w.getLsbD 5 then add rd rs (.imm (w.setWidth 5))
    else match w.extractLsb' 3 2 with
      | 0#2 => add rd rs (.reg rt)
      | 1#2 => alu .mul rd rs rt
      | 2#2 => alu .sub rd rs rt
      | _ => alu .div rd rs rt
  | 0x2#4 =>
    match w.extractLsb' 7 2 with
    | 0#2 => cmp .signed rd rt
    | 1#2 => cmp .unsigned rd rt
    | 2#2 => cmpImm .signed rd (w.setWidth 7)
    | _ => cmpImm .unsigned rd (w.setWidth 7)
  | 0x4#4 => if w.getLsbD 11 then jsr (.imm (w.setWidth 11)) else jsr (.reg rs)
  | 0x5#4 =>
    if w.getLsbD 5 then and rd rs (.imm (w.setWidth 5))
    else match w.extractLsb' 3 2 with
      | 0#2 => and rd rs (.reg rt)
      | 1#2 => not rd rs
      | 2#2 => alu .or rd rs rt
      | _ => alu .xor rd rs rt
  | 0x6#4 => ldr rd rs (w.setWidth 6)
  | 0x7#4 => str rd rs (w.setWidth 6)
  | 0x8#4 => rti
  | 0x9#4 => const rd (w.setWidth 9)
  | 0xA#4 =>
    match w.extractLsb' 4 2 with
    | 0#2 => shift .sll rd rs (w.setWidth 4)
    | 1#2 => shift .sra rd rs (w.setWidth 4)
    | 2#2 => shift .srl rd rs (w.setWidth 4)
    | _ => alu .mod rd rs rt
  | 0xC#4 =>
    if w.getLsbD 11 then jmp (.imm (w.setWidth 11))
    else if rs = Reg.link then ret
    else jmp (.reg rs)
  | 0xD#4 => if w.getLsbD 8 then hiconst rd (w.setWidth 8) else unknown w
  | 0xF#4 => trap (w.setWidth 8)
  | _ => unknown w

/-- A word with only its opcode group filled in. -/
def group (opcode : BitVec 4) : Word :=
  Word.place opcode 12

def encode : Instr → Option Word
  | nop => some (group 0x0)
  | br c o => some (group 0x0 ||| .place (condFlags c) 9 ||| .place o 0)
  | add d s (.imm v) =>
    some (group 0x1 ||| .place d 9 ||| .place s 6 ||| .place 1#1 5 ||| .place v 0)
  | add d s (.reg t) => some (group 0x1 ||| .place d 9 ||| .place s 6 ||| .place t 0)
  | and d s (.imm v) =>
    some (group 0x5 ||| .place d 9 ||| .place s 6 ||| .place 1#1 5 ||| .place v 0)
  | and d s (.reg t) => some (group 0x5 ||| .place d 9 ||| .place s 6 ||| .place t 0)
  | alu op d s t =>
    some (group op.code.1 ||| .place d 9 ||| .place s 6 ||| .place op.code.2 3 ||| .place t 0)
  | not d s => some (group 0x5 ||| .place d 9 ||| .place s 6 ||| .place 1#3 3)
  | cmp .signed s t => some (group 0x2 ||| .place s 9 ||| .place t 0)
  | cmp .unsigned s t => some (group 0x2 ||| .place s 9 ||| .place 1#2 7 ||| .place t 0)
  | cmpImm .signed s v => some (group 0x2 ||| .place s 9 ||| .place 2#2 7 ||| .place v 0)
  | cmpImm .unsigned s v => some (group 0x2 ||| .place s 9 ||| .place 3#2 7 ||| .place v 0)
  | jsr (.imm v) => some (group 0x4 ||| .place 1#1 11 ||| .place v 0)
  | jsr (.reg s) => some (group 0x4 ||| .place s 6)
  | jmp (.imm v) => some (group 0xC ||| .place 1#1 11 ||| .place v 0)
  | jmp (.reg s) => some (group 0xC ||| .place s 6)
  | ret => some (group 0xC ||| .place Reg.link 6)
  | rti => some (group 0x8)
  | trap v => some (group 0xF ||| .place v 0)
  | ldr d s o => some (group 0x6 ||| .place d 9 ||| .place s 6 ||| .place o 0)
  | str t s o => some (group 0x7 ||| .place t 9 ||| .place s 6 ||| .place o 0)
  | const d v => some (group 0x9 ||| .place d 9 ||| .place v 0)
  | hiconst d v => some (group 0xD ||| .place d 9 ||| .place 1#1 8 ||| .place v 0)
  | shift op d s a =>
    some (group 0xA ||| .place d 9 ||| .place s 6 ||| .place op.code 4 ||| .place a 0)
  | lea _ _ | lc _ _ => none
  | unknown w => some w

/-- The instructions of one word each that do the work of an instruction. Loading a whole word
takes a constant with the low byte and then the high byte. -/
def expand : Instr → List Instr
  | lea d v | lc d v =>
    [const d (BitVec.setWidth 9 (v.extractLsb' 0 8)), hiconst d (v.extractLsb' 8 8)]
  | i => [i]

def toWords (i : Instr) : List Word :=
  i.expand.filterMap encode

end Instr

end Lc4
