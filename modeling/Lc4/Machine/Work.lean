import Lc4.Machine.Effect

/-!
# The work of an instruction

An instruction works on the machine in place: it looks things up, some of which may be refused with
a fault, and writes parts of the machine one after the other. A fault takes nothing back that has
been written. Every instruction asks for all that may be refused before its first write, so its work
comes to its effect, or to a fault with nothing written.
-/
namespace Lc4

/-- Work on a machine. A fault ends it and leaves the machine with what has been written so far. -/
abbrev Work := EStateM Fault Machine

namespace Work
variable {α : Type}

/-- Looks something up that the machine may refuse. -/
def ask (lookUp : Machine → Except Fault α) : Work α := do
  match lookUp (← get) with
  | .ok a => return a
  | .error f => throw f

def setPc (a : Word) : Work Unit :=
  modify fun m => { m with pc := a }

def setReg (r : Reg) (v : Word) : Work Unit :=
  modify (·.writeReg r v)

def setCond (c : Cond) : Work Unit :=
  modify fun m => { m with psr := { m.psr with cond := c } }

/-- Writes a register and sets the condition to the sign of the value. -/
def setRegCond (r : Reg) (v : Word) : Work Unit := do
  setReg r v
  setCond (.ofWord v)

def setPrivileged (b : Bool) : Work Unit :=
  modify fun m => { m with psr := m.psr.setPrivileged b }

def useMemory (u : MemoryUse) : Work Unit :=
  modify (·.useMemory u)

def pushFrame (f : Frame) : Work Unit :=
  modify (·.changeCalls (.push f))

def popFrame : Work Unit :=
  modify (·.changeCalls .pop)

end Work

namespace Machine

/-- The result of an operation on two words. -/
def aluResult (m : Machine) (op : AluOp) (a b : Word) : Except Fault Word :=
  if op.divides && b == 0 then
    if m.flags.strict then .error (.divideByZero m.pc) else .ok 0
  else .ok (op.eval a b)

end Machine

namespace Instr
open Work

/-- Carries an instruction out as if it stood at the program counter. -/
def carryOut : Instr → Work Unit
  | .nop => do
    setPc (← ask (·.fallThrough))
  | .br cond offset => do
    let next ← ask (·.fallThrough)
    if (← get).psr.takes (condFlags cond) then setPc (← ask (·.relative next offset))
    else setPc next
  | .add rd rs v => do
    let next ← ask (·.fallThrough)
    let m ← get
    setRegCond rd (m.reg rs + m.operand v)
    setPc next
  | .and rd rs v => do
    let next ← ask (·.fallThrough)
    let m ← get
    setRegCond rd (m.reg rs &&& m.operand v)
    setPc next
  | .alu op rd rs rt => do
    let next ← ask (·.fallThrough)
    let result ← ask fun m => m.aluResult op (m.reg rs) (m.reg rt)
    setRegCond rd result
    setPc next
  | .not rd rs => do
    let next ← ask (·.fallThrough)
    setRegCond rd (~~~(← get).reg rs)
    setPc next
  | .cmp reading rs rt => do
    let next ← ask (·.fallThrough)
    let m ← get
    setCond (.compare reading (m.reg rs) (m.reg rt))
    setPc next
  | .cmpImm reading rs v => do
    let next ← ask (·.fallThrough)
    let v := match reading with
      | .signed => v.signExtend 16
      | .unsigned => v.setWidth 16
    setCond (.compare reading ((← get).reg rs) v)
    setPc next
  | .jsr target => do
    let m ← get
    let next ← ask (·.fallThrough)
    let callee := match target with
      | .imm v => (m.pc &&& 0x8000) ||| (v.signExtend 16 <<< 4)
      | .reg rs => m.reg rs
    setRegCond .link next
    pushFrame ⟨m.pc, callee, .subroutine⟩
    setPc callee
  | .jmp (.imm v) => do
    let next ← ask (·.fallThrough)
    setPc (← ask (·.relative next v))
  | .jmp (.reg rs) => do
    setPc ((← get).reg rs)
    if rs = .link then popFrame
  | .ret => do
    setPc ((← get).reg .link)
    popFrame
  | .rti => do
    setPc ((← get).reg .link)
    setPrivileged false
    popFrame
  | .trap v => do
    let m ← get
    let next ← ask (·.fallThrough)
    let callee := 0x8000 ||| v.setWidth 16
    setRegCond .link next
    setPrivileged true
    pushFrame ⟨m.pc, callee, .trap⟩
    setPc callee
  | .ldr rd base offset => do
    let next ← ask (·.fallThrough)
    let m ← get
    let a := m.reg base + offset.signExtend 16
    useMemory (.load a)
    setRegCond rd (m.mem.get a)
    setPc next
  | .str rs base offset => do
    let next ← ask (·.fallThrough)
    let m ← get
    let a := m.reg base + offset.signExtend 16
    if writable m.privileged a then useMemory (.store a (m.reg rs))
    else if m.flags.strict then throw (.accessViolation a)
    setPc next
  | .const rd v => do
    let next ← ask (·.fallThrough)
    setRegCond rd (v.signExtend 16)
    setPc next
  | .hiconst rd v => do
    let next ← ask (·.fallThrough)
    setRegCond rd (v ++ ((← get).reg rd).extractLsb' 0 8)
    setPc next
  | .shift op rd rs n => do
    let next ← ask (·.fallThrough)
    setRegCond rd (op.eval ((← get).reg rs) n)
    setPc next
  | .lea rd v | .lc rd v => do
    let next ← ask (·.fallThrough)
    setRegCond rd v
    setPc next
  | .unknown word => do
    let m ← get
    if m.flags.strict then throw (.illegalOpcode m.pc word)
    setPc (← ask (·.fallThrough))

end Instr

namespace Machine

/-- What an effect comes to when it is carried out: a fault in its place leaves the machine. -/
def settle (m : Machine) : Except Fault Effect → EStateM.Result Fault Machine Unit
  | .ok e => .ok () (m.apply e)
  | .error f => .error f m

end Machine

section Settle
variable {α : Type} {m : Machine}

theorem Work.run_get_bind (rest : Machine → Work α) (m : Machine) :
    (get >>= rest).run m = (rest m).run m :=
  rfl

theorem Work.run_ask (lookUp : Machine → Except Fault α) (m : Machine) :
    (ask lookUp).run m = match lookUp m with
      | .ok a => .ok a m
      | .error f => .error f m := by
  change (match lookUp m with
    | .ok a => (pure a : Work α)
    | .error f => throw f).run m = _
  cases lookUp m <;> rfl

/-- A question that comes before all writes leaves the machine for what follows it. -/
theorem Work.run_ask_bind {lookUp : Machine → Except Fault α} {rest : α → Work Unit}
    {effect : α → Except Fault Effect}
    (settles : ∀ a, (rest a).run m = m.settle (effect a)) :
    (ask lookUp >>= rest).run m = m.settle (lookUp m >>= effect) := by
  rw [EStateM.run_bind, run_ask]
  cases lookUp m with
  | ok a => exact settles a
  | error f => rfl

end Settle

/-- By zero, both divisions give what is written when the division is passed over. -/
theorem AluOp.eval_zero {op : AluOp} (h : op.divides = true) (a : Word) : op.eval a 0 = 0 := by
  cases op with
  | div => exact BitVec.udiv_zero
  | mod => rfl
  | mul | sub | or | xor => cases h

namespace Instr
open Work

/-- The work of an instruction comes to its effect, carried out all at once, or to the fault in
place of an effect, with nothing written. -/
theorem run_carryOut (i : Instr) (m : Machine) : i.carryOut.run m = m.settle (m.effect i) := by
  cases i with
  | nop | add | and | not | cmp | cmpImm | ldr | const | hiconst | shift | lea | lc | trap =>
    -- Only the next address may be refused. Once it is there, the writes come to the effect.
    exact run_ask_bind fun next => rfl
  | ret | rti => rfl
  | jsr target => cases target <;> exact run_ask_bind fun next => rfl
  | jmp target =>
    cases target with
    | imm v => exact run_ask_bind fun next => run_ask_bind fun there => rfl
    | reg rs =>
      by_cases link : rs = .link
      · simp only [carryOut, Machine.effect, if_pos link]
        subst link
        rfl
      · simp only [carryOut, Machine.effect, if_neg link]
        rfl
  | br cond offset =>
    refine run_ask_bind fun next => ?_
    rw [run_get_bind]
    cases taken : m.psr.takes (condFlags cond) with
    | true =>
      simp only [if_true]
      exact run_ask_bind fun there => rfl
    | false => rfl
  | alu op rd rs rt =>
    -- `aluEffect` is not written as a question and what follows from it, so the second one is run
    -- by hand.
    refine run_ask_bind fun next => ?_
    rw [EStateM.run_bind, run_ask, Machine.aluResult, Machine.aluEffect]
    by_cases zero : (op.divides && m.reg rt == 0) = true
    · rw [if_pos zero, if_pos zero]
      cases strict : m.flags.strict with
      | true => rfl
      | false =>
        rw [Bool.and_eq_true, beq_iff_eq] at zero
        rw [zero.2, AluOp.eval_zero zero.1]
        rfl
    · rw [if_neg zero, if_neg zero]
      rfl
  | str rs base offset =>
    refine run_ask_bind fun next => ?_
    rw [run_get_bind, Machine.storeEffect]
    by_cases may : writable m.privileged (m.reg base + offset.signExtend 16) = true
    · simp only [if_pos may]
      rfl
    · simp only [if_neg may]
      cases strict : m.flags.strict <;> rfl
  | unknown word =>
    rw [carryOut, run_get_bind, Machine.effect]
    cases strict : m.flags.strict with
    | true => rfl
    | false =>
      simp only [Bool.false_eq_true, if_false]
      exact run_ask_bind fun next => rfl

end Instr

end Lc4
