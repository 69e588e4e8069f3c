import Lc4.Instr.Basic
import Lc4.Machine.Basic
import Lc4.Machine.Fault

/-!
# What one instruction does

`Machine.effect` is an account of what an instruction does at the program counter, or of its fault,
that leaves the machine alone; `Machine.apply` carries an effect out all at once. An effect writes
at most one register and at most one memory word. How an instruction works on the machine in place
is told by `Instr.carryOut`, which comes to the same.
-/
namespace Lc4

/-- What an instruction does to memory. -/
inductive MemoryUse
  | none
  | load (a : Word)
  | store (a v : Word)
deriving DecidableEq

inductive CallChange
  | none
  | push (frame : Frame)
  | pop
deriving DecidableEq

/-- Something an instruction should not do, passed over outside strict mode. -/
inductive Warning
  | divisionByZero
  | storeSkipped (a : Word)
  | unknownOpcode (word : Word)
deriving DecidableEq

structure Effect where
  pc : Word
  /-- The register written, with its new value. -/
  reg : Option (Reg × Word)
  cond : Option Cond
  memory : MemoryUse
  privilege : Option Bool
  calls : CallChange
  warning : Option Warning
deriving DecidableEq

namespace Effect

/-- Only the program counter moves. -/
def goto (pc : Word) : Effect :=
  ⟨pc, none, none, .none, none, .none, none⟩

/-- Writes a register and sets the condition to the sign of the value. -/
def writing (e : Effect) (r : Reg) (v : Word) : Effect :=
  { e with reg := some (r, v), cond := some (.ofWord v) }

end Effect

namespace AluOp

/-- The result on two words; a division by zero gives zero. -/
def eval : AluOp → Word → Word → Word
  | mul, a, b => a * b
  | sub, a, b => a - b
  | div, a, b => a / b
  | mod, a, b => if b = 0 then 0 else a % b
  | or, a, b => a ||| b
  | xor, a, b => a ^^^ b

def divides : AluOp → Bool
  | div | mod => true
  | mul | sub | or | xor => false

end AluOp

namespace ShiftOp

def eval : ShiftOp → Word → BitVec 4 → Word
  | sll, a, n => a <<< n.toNat
  | sra, a, n => a.sshiftRight n.toNat
  | srl, a, n => a >>> n.toNat

end ShiftOp

namespace Machine

/-- The address after the program counter; there is none after the last address. -/
def fallThrough (m : Machine) : Except Fault Word :=
  if m.pc = 0xFFFF then .error (.pcOutOfBounds m.pc 0x10000) else .ok (m.pc + 1)

/-- An address given by its distance from `base`. -/
def relative (m : Machine) (base : Word) {n : Nat} (offset : BitVec n) : Except Fault Word :=
  let target := base.toNat + offset.toInt
  if 0 ≤ target ∧ target ≤ 0xFFFF then .ok (BitVec.ofInt 16 target)
  else .error (.pcOutOfBounds m.pc target)

def reg (m : Machine) (r : Reg) : Word :=
  m.regs.read r

def operand (m : Machine) {n : Nat} : Operand n → Word
  | .imm v => v.signExtend 16
  | .reg r => m.reg r

/-- A call leaves the return address in the link register. -/
def callEffect (m : Machine) (returnTo callee : Word) (kind : CallKind) : Effect :=
  { Effect.goto callee with calls := .push ⟨m.pc, callee, kind⟩ }.writing Reg.link returnTo

def returnEffect (m : Machine) : Effect :=
  { Effect.goto (m.reg .link) with calls := .pop }

def aluEffect (m : Machine) (next : Word) (op : AluOp) (rd rs rt : Reg) : Except Fault Effect :=
  let e := (Effect.goto next).writing rd (op.eval (m.reg rs) (m.reg rt))
  if op.divides && m.reg rt == 0 then
    if m.flags.strict then .error (.divideByZero m.pc)
    else .ok { e with warning := some .divisionByZero }
  else .ok e

def storeEffect (m : Machine) (next a v : Word) : Except Fault Effect :=
  if writable m.privileged a then .ok { Effect.goto next with memory := .store a v }
  else if m.flags.strict then .error (.accessViolation a)
  else .ok { Effect.goto next with warning := some (.storeSkipped a) }

/-- The effect of an instruction at the program counter. -/
def effect (m : Machine) : Instr → Except Fault Effect
  | .nop => do
    let next ← m.fallThrough
    return .goto next
  | .br cond offset => do
    let next ← m.fallThrough
    if m.psr.takes (Instr.condFlags cond) then return .goto (← m.relative next offset)
    else return .goto next
  | .add rd rs v => do
    let next ← m.fallThrough
    return (Effect.goto next).writing rd (m.reg rs + m.operand v)
  | .and rd rs v => do
    let next ← m.fallThrough
    return (Effect.goto next).writing rd (m.reg rs &&& m.operand v)
  | .alu op rd rs rt => do
    let next ← m.fallThrough
    m.aluEffect next op rd rs rt
  | .not rd rs => do
    let next ← m.fallThrough
    return (Effect.goto next).writing rd (~~~m.reg rs)
  | .cmp reading rs rt => do
    let next ← m.fallThrough
    return { Effect.goto next with cond := some (.compare reading (m.reg rs) (m.reg rt)) }
  | .cmpImm reading rs v => do
    let next ← m.fallThrough
    let v := match reading with
      | .signed => v.signExtend 16
      | .unsigned => v.setWidth 16
    return { Effect.goto next with cond := some (.compare reading (m.reg rs) v) }
  | .jsr (.imm v) => do
    let next ← m.fallThrough
    return m.callEffect next ((m.pc &&& 0x8000) ||| (v.signExtend 16 <<< 4)) .subroutine
  | .jsr (.reg rs) => do
    let next ← m.fallThrough
    return m.callEffect next (m.reg rs) .subroutine
  | .jmp (.imm v) => do
    let next ← m.fallThrough
    return .goto (← m.relative next v)
  | .jmp (.reg rs) =>
    return if rs = Reg.link then m.returnEffect else .goto (m.reg rs)
  | .ret => return m.returnEffect
  | .rti => return { m.returnEffect with privilege := some false }
  | .trap v => do
    let next ← m.fallThrough
    let e := m.callEffect next (0x8000 ||| v.setWidth 16) .trap
    return { e with privilege := some true }
  | .ldr rd base offset => do
    let next ← m.fallThrough
    let a := m.reg base + offset.signExtend 16
    return { (Effect.goto next).writing rd (m.mem.get a) with memory := .load a }
  | .str rs base offset => do
    let next ← m.fallThrough
    m.storeEffect next (m.reg base + offset.signExtend 16) (m.reg rs)
  | .const rd v => do
    let next ← m.fallThrough
    return (Effect.goto next).writing rd (v.signExtend 16)
  | .hiconst rd v => do
    let next ← m.fallThrough
    return (Effect.goto next).writing rd (v ++ (m.reg rd).extractLsb' 0 8)
  | .shift op rd rs n => do
    let next ← m.fallThrough
    return (Effect.goto next).writing rd (op.eval (m.reg rs) n)
  | .lea rd v => do
    let next ← m.fallThrough
    return (Effect.goto next).writing rd v
  | .lc rd v => do
    let next ← m.fallThrough
    return (Effect.goto next).writing rd v
  | .unknown word =>
    if m.flags.strict then .error (.illegalOpcode m.pc word)
    else do
      let next ← m.fallThrough
      return { Effect.goto next with warning := some (.unknownOpcode word) }

def writeReg (m : Machine) (r : Reg) (v : Word) : Machine :=
  { m with
    regs := m.regs.write r v
    observer := m.observer.noteReg r (.ofWrite (m.reg r) v) }

def useMemory (m : Machine) : MemoryUse → Machine
  | .none => m
  | .load a => { m with observer := m.observer.noteWord a .ofRead }
  | .store a v =>
    { m with
      mem := m.mem.set a v
      observer := m.observer.noteWord a (.ofWrite (m.mem.get a) v) }

def changeCalls (m : Machine) : CallChange → Machine
  | .none => m
  | .push f => { m with calls := m.calls.push f }
  | .pop => { m with calls := m.calls.pop }

/-- Carries an effect out. -/
def apply (m : Machine) (e : Effect) : Machine :=
  let m := (m.useMemory e.memory).changeCalls e.calls
  let m := match e.reg with
    | some (r, v) => m.writeReg r v
    | none => m
  { m with
    pc := e.pc
    psr := ⟨e.privilege.getD m.psr.privileged, e.cond.getD m.psr.cond⟩ }

end Machine

end Lc4
