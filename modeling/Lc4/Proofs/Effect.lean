import Lc4.Machine.Step

/-!
# What instructions see and change

Instructions work on the core of a machine: memory, registers, program counter, status register,
call stack and flags. The ledger, which is kept for the user of the machine, neither changes
when an instruction runs nor decides what it does. An effect touches memory and privilege, and
warns, only as the form of its instruction says.
-/
namespace Lc4

theorem bind_eq_ok_iff {ε α β : Type} {x : Except ε α} {f : α → Except ε β} {b : β} :
    x >>= f = .ok b ↔ ∃ a, x = .ok a ∧ f a = .ok b := by
  cases x <;> simp [bind, Except.bind]

theorem bind_eq_error_iff {ε α β : Type} {x : Except ε α} {f : α → Except ε β} {e : ε} :
    x >>= f = .error e ↔ x = .error e ∨ ∃ a, x = .ok a ∧ f a = .error e := by
  cases x <;> simp [bind, Except.bind]

theorem pure_eq_ok_iff {ε α : Type} {a b : α} : (pure a : Except ε α) = .ok b ↔ a = b := by
  simp [pure, Except.pure]

theorem pure_ne_error {ε α : Type} {a : α} {e : ε} : (pure a : Except ε α) ≠ .error e := by
  simp [pure, Except.pure]

/-- The part of a machine on which instructions work. -/
structure Core where
  mem : Memory
  regs : RegFile
  pc : Word
  psr : Psr
  calls : CallStack
  flags : Flags

/-- The part of a machine that is kept for its user, apart from the observer. -/
structure Ledger where
  count : BitVec 64
  status : RunStatus
  pause : Pause
  labels : Labels
  notes : Notes

def MemoryUse.after (mem : Memory) : MemoryUse → Memory
  | none | load _ => mem
  | store a v => mem.set a v

def CallChange.after (calls : CallStack) : CallChange → CallStack
  | none => calls
  | push f => calls.push f
  | pop => calls.pop

namespace Effect

def regsAfter (e : Effect) (regs : RegFile) : RegFile :=
  match e.reg with
  | some (r, v) => regs.write r v
  | none => regs

def psrAfter (e : Effect) (psr : Psr) : Psr :=
  ⟨e.privilege.getD psr.privileged, e.cond.getD psr.cond⟩

theorem read_regsAfter {e : Effect} {r : Reg} {w : Word} (written : e.reg = some (r, w))
    (regs : RegFile) : (e.regsAfter regs).read r = w := by
  rw [regsAfter, written]
  exact RegFile.read_write_self regs r w

end Effect

/-- The privilege that an instruction gives or takes away. -/
def Instr.privilege : Instr → Option Bool
  | trap _ => some true
  | rti => some false
  | _ => none

namespace Machine

def core (m : Machine) : Core :=
  ⟨m.mem, m.regs, m.pc, m.psr, m.calls, m.flags⟩

def ledger (m : Machine) : Ledger :=
  ⟨m.count, m.status, m.pause, m.labels, m.notes⟩

/-- A machine is its core, its ledger and its observer. -/
theorem eq_of_parts {m n : Machine} (core : m.core = n.core) (ledger : m.ledger = n.ledger)
    (observer : m.observer = n.observer) : m = n := by
  rcases m with ⟨mem, regs, pc, psr, calls, count, o, status, pause, labels, notes, flags⟩
  rcases n with
    ⟨mem', regs', pc', psr', calls', count', o', status', pause', labels', notes', flags'⟩
  obtain ⟨rfl, rfl, rfl, rfl, rfl, rfl⟩ := Core.mk.inj core
  obtain ⟨rfl, rfl, rfl, rfl, rfl⟩ := Ledger.mk.inj ledger
  obtain rfl : o = o' := observer
  rfl

/-- What an effect leaves of the core, part by part. -/
theorem core_apply (m : Machine) (e : Effect) : (m.apply e).core =
    ⟨e.memory.after m.mem, e.regsAfter m.regs, e.pc, e.psrAfter m.psr, e.calls.after m.calls,
      m.flags⟩ := by
  rcases e with ⟨pc, _ | ⟨r, v⟩, cond, memory, privilege, calls, warning⟩ <;>
    cases memory <;> cases calls <;> rfl

/-- Carrying an effect out leaves alone what is kept for the user. -/
@[simp] theorem ledger_apply (m : Machine) (e : Effect) : (m.apply e).ledger = m.ledger := by
  rcases e with ⟨pc, _ | ⟨r, v⟩, cond, memory, privilege, calls, warning⟩ <;>
    cases memory <;> cases calls <;> rfl

theorem fallThrough_eq_ok_iff {m : Machine} {a : Word} :
    m.fallThrough = .ok a ↔ m.pc ≠ 0xFFFF ∧ m.pc + 1 = a := by
  unfold fallThrough
  split <;> simp_all

theorem fallThrough_eq_error_iff {m : Machine} {f : Fault} :
    m.fallThrough = .error f ↔ m.pc = 0xFFFF ∧ f = .pcOutOfBounds m.pc 65536 := by
  unfold fallThrough
  split <;> simp_all [eq_comm]

theorem checkPc_eq_ok_iff {m : Machine} :
    m.checkPc = .ok () ↔ executable m.privileged m.pc = true ∧
      (m.flags.strict = true → (Region.of m.pc).isCode = true) := by
  unfold checkPc
  repeat' split
  all_goals simp_all

/-- What an instruction does to memory if it runs. -/
def memoryUse (m : Machine) : Instr → MemoryUse
  | .ldr _ base offset => .load (m.reg base + offset.signExtend 16)
  | .str rs base offset =>
    if writable m.privileged (m.reg base + offset.signExtend 16) then
      .store (m.reg base + offset.signExtend 16) (m.reg rs)
    else .none
  | _ => .none

/-- What strict mode refuses of an instruction; without it, what is passed over with a warning. -/
def lapse (m : Machine) : Instr → Option Warning
  | .alu op _ _ rt => if op.divides && m.reg rt == 0 then some .divisionByZero else none
  | .str _ base offset =>
    if writable m.privileged (m.reg base + offset.signExtend 16) then none
    else some (.storeSkipped (m.reg base + offset.signExtend 16))
  | .unknown word => some (.unknownOpcode word)
  | _ => none

/-- What an instruction does if it runs and goes to `pc`. -/
def work (m : Machine) (i : Instr) (pc : Word) : Effect :=
  match i with
  | .nop | .br _ _ | .jmp (.imm _) => .goto pc
  | .add rd rs v => (Effect.goto pc).writing rd (m.reg rs + m.operand v)
  | .and rd rs v => (Effect.goto pc).writing rd (m.reg rs &&& m.operand v)
  | .alu op rd rs rt =>
    { (Effect.goto pc).writing rd (op.eval (m.reg rs) (m.reg rt)) with warning := m.lapse i }
  | .not rd rs => (Effect.goto pc).writing rd (~~~m.reg rs)
  | .cmp reading rs rt =>
    { Effect.goto pc with cond := some (.compare reading (m.reg rs) (m.reg rt)) }
  | .cmpImm .signed rs v =>
    { Effect.goto pc with cond := some (.compare .signed (m.reg rs) (v.signExtend 16)) }
  | .cmpImm .unsigned rs v =>
    { Effect.goto pc with cond := some (.compare .unsigned (m.reg rs) (v.setWidth 16)) }
  | .jsr _ => m.callEffect (m.pc + 1) pc .subroutine
  | .trap _ => { m.callEffect (m.pc + 1) pc .trap with privilege := some true }
  | .jmp (.reg rs) => { Effect.goto pc with calls := if rs = Reg.link then .pop else .none }
  | .ret => { Effect.goto pc with calls := .pop }
  | .rti => { Effect.goto pc with calls := .pop, privilege := some false }
  | .ldr rd base offset =>
    { (Effect.goto pc).writing rd (m.mem.get (m.reg base + offset.signExtend 16)) with
      memory := m.memoryUse i }
  | .str _ _ _ => { Effect.goto pc with memory := m.memoryUse i, warning := m.lapse i }
  | .const rd v => (Effect.goto pc).writing rd (v.signExtend 16)
  | .hiconst rd v => (Effect.goto pc).writing rd (v ++ (m.reg rd).extractLsb' 0 8)
  | .shift op rd rs n => (Effect.goto pc).writing rd (op.eval (m.reg rs) n)
  | .lea rd v | .lc rd v => (Effect.goto pc).writing rd v
  | .unknown _ => { Effect.goto pc with warning := m.lapse i }

section Effects
variable {m n : Machine} {i : Instr} {e : Effect}

/-- Apart from where it goes, an effect is known before the instruction runs. -/
theorem effect_eq_work (h : m.effect i = .ok e) : e = m.work i e.pc := by
  cases i
  case jsr v =>
    cases v <;> simp only [effect, bind_eq_ok_iff, pure_eq_ok_iff, fallThrough_eq_ok_iff] at h
    all_goals
      obtain ⟨_, ⟨_, rfl⟩, rfl⟩ := h
      rfl
  case jmp v =>
    cases v with
    | imm v =>
      simp only [effect, bind_eq_ok_iff, pure_eq_ok_iff] at h
      obtain ⟨_, _, _, _, rfl⟩ := h
      rfl
    | reg r =>
      obtain rfl := pure_eq_ok_iff.mp h
      by_cases link : r = Reg.link
      · simp only [work, if_pos link]
        rfl
      · simp only [work, if_neg link]
        rfl
  all_goals simp only [effect, bind_eq_ok_iff, pure_eq_ok_iff, fallThrough_eq_ok_iff] at h
  case rti | ret =>
    subst h
    rfl
  case br =>
    obtain ⟨next, _, h⟩ := h
    split at h
    · obtain ⟨_, _, h⟩ := bind_eq_ok_iff.mp h
      obtain rfl := pure_eq_ok_iff.mp h
      rfl
    · obtain rfl := pure_eq_ok_iff.mp h
      rfl
  case alu =>
    obtain ⟨next, _, h⟩ := h
    unfold aluEffect at h
    repeat' split at h
    all_goals cases h
    all_goals simp_all [work, lapse, Effect.goto, Effect.writing]
  case str =>
    obtain ⟨next, _, h⟩ := h
    unfold storeEffect at h
    repeat' split at h
    all_goals cases h
    all_goals simp_all [work, memoryUse, lapse, Effect.goto]
  case unknown =>
    split at h
    · cases h
    · obtain ⟨_, _, h⟩ := bind_eq_ok_iff.mp h
      obtain rfl := pure_eq_ok_iff.mp h
      rfl
  case cmpImm reading _ _ =>
    cases reading
    all_goals
      obtain ⟨_, _, rfl⟩ := h
      rfl
  all_goals
    obtain ⟨_, ⟨_, rfl⟩, rfl⟩ := h
    rfl

/-- The form of an instruction and the registers tell how it uses memory, whether it changes the
privilege and what it passes over. -/
theorem effect_touches (h : m.effect i = .ok e) :
    e.memory = m.memoryUse i ∧ e.privilege = i.privilege ∧ e.warning = m.lapse i := by
  rw [effect_eq_work h]
  cases i with
  | jmp target => cases target <;> exact ⟨rfl, rfl, rfl⟩
  | cmpImm reading => cases reading <;> exact ⟨rfl, rfl, rfl⟩
  | _ => exact ⟨rfl, rfl, rfl⟩

theorem effect_trap {v : BitVec 8} (h : m.effect (.trap v) = .ok e) :
    m.pc ≠ 0xFFFF ∧ e.pc = 0x8000 ||| v.setWidth 16 ∧ e.reg = some (.link, m.pc + 1) := by
  simp only [effect, bind_eq_ok_iff, pure_eq_ok_iff, fallThrough_eq_ok_iff] at h
  obtain ⟨next, ⟨inside, rfl⟩, rfl⟩ := h
  exact ⟨inside, rfl, rfl⟩

theorem effect_rti (h : m.effect .rti = .ok e) : e.pc = m.reg .link ∧ e.reg = none := by
  simp only [effect, pure_eq_ok_iff] at h
  subst h
  exact ⟨rfl, rfl⟩

/-- The ledger and the observer decide nothing. -/
theorem effect_congr (same : n.core = m.core) (i : Instr) : n.effect i = m.effect i := by
  rcases m with ⟨mem, regs, pc, psr, calls, _, _, _, _, _, _, flags⟩
  rcases n with ⟨mem', regs', pc', psr', calls', _, _, _, _, _, _, flags'⟩
  obtain ⟨rfl, rfl, rfl, rfl, rfl, rfl⟩ := Core.mk.inj same
  cases i <;> rfl

theorem checkPc_congr (same : n.core = m.core) : n.checkPc = m.checkPc := by
  rcases m with ⟨mem, regs, pc, psr, calls, _, _, _, _, _, _, flags⟩
  rcases n with ⟨mem', regs', pc', psr', calls', _, _, _, _, _, _, flags'⟩
  obtain ⟨rfl, rfl, rfl, rfl, rfl, rfl⟩ := Core.mk.inj same
  rfl

theorem core_apply_congr (same : n.core = m.core) (e : Effect) :
    (n.apply e).core = (m.apply e).core := by
  rw [core_apply, core_apply]
  obtain ⟨mem, regs, pc, psr, calls, flags⟩ := Core.mk.inj same
  rw [mem, regs, psr, calls, flags]

end Effects

end Machine

end Lc4
