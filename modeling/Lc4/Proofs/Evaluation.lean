import Lc4.Proofs.Encoding
import Lc4.Proofs.Trace

/-!
# Evaluation at the program counter

An instruction and the one that its word decodes to have the same effect on every machine, also
where decoding takes another spelling. So to evaluate the instruction that stands at the program
counter is to take a step, but for the count and the status that a step keeps.
-/
namespace Lc4

theorem Psr.takes_zero (p : Psr) : p.takes 0 = false := by
  simp [takes]

namespace Instr

/-- A word that `encode` wrote decodes to the same instruction in its decoded spelling. -/
theorem decode_of_encode {i : Instr} {w : Word} (written : encode i = some w)
    (noInstr : ∀ v, i = unknown v → decode v = unknown v) : decode w = canon i := by
  by_cases plain : i.Plain
  · obtain ⟨v, written', decoded⟩ := decode_encode plain
    obtain rfl : v = w := Option.some.inj (written'.symm.trans written)
    exact decoded
  · cases i with
    | unknown v =>
      obtain rfl : v = w := Option.some.inj written
      exact noInstr v rfl
    | lea | lc => cases written
    | _ => exact absurd trivial plain

end Instr

namespace Machine

/-- What comes of an attempt to run `i` at the program counter: of an evaluation, or of a step of a
machine that has not halted and finds `i` in memory. -/
inductive Attempt (m : Machine) (i : Instr) : Outcome → Prop
  | evaluated : Attempt m i (m.eval i)
  | stepped (awake : m.pc ≠ haltAddr) (found : m.fetch = i) : Attempt m i m.stepIn

section Attempts
variable {m s : Machine} {i : Instr} {o : Outcome} {f : Fault}

/-- What was tried and runs leaves the core that the instruction leaves, stepped or evaluated. -/
theorem Attempt.of_execute (tried : m.Attempt i o) (runs : m.execute i = .ok s) :
    o.fault = none ∧ o.machine.core = s.core := by
  obtain ⟨t, ran, core⟩ := execute_congr (m := m) (n := m.begin) rfl runs
  cases tried with
  | evaluated =>
    simp only [eval_eq, ran, true_and]
    exact core
  | stepped awake found =>
    have next : m.begin.step = .next { t with count := m.count + 1, status := .running } :=
      step_eq_next_iff.mpr ⟨awake, t, (congrArg m.begin.execute found).trans ran, rfl⟩
    simp only [stepIn, next]
    exact ⟨rfl, core⟩

theorem Attempt.of_execute_error (tried : m.Attempt i o) (refused : m.execute i = .error f) :
    o.fault = some f := by
  have refused : m.begin.execute i = .error f := execute_error_congr (m := m) rfl refused
  cases tried with
  | evaluated => simp only [eval_eq, refused]
  | stepped awake found =>
    have fault : m.begin.step = .fault f m.begin :=
      step_eq_fault_iff.mpr ⟨awake, (congrArg m.begin.execute found).trans refused⟩
    simp only [stepIn, fault]
    rfl

theorem Attempt.fault_eq_some_iff (tried : m.Attempt i o) :
    o.fault = some f ↔ m.execute i = .error f := by
  cases ran : m.execute i with
  | ok s => simp [(tried.of_execute ran).1]
  | error g => simp [tried.of_execute_error ran]

/-- What was attempted and met no fault is one of the instructions that ran. -/
theorem Attempt.valid (tried : m.Attempt i o) (ran : o.fault = none) :
    Executed.Valid ⟨m, i, o.machine, false⟩ := by
  cases runs : m.execute i with
  | ok s => exact valid_of_execute runs (tried.of_execute runs).2 nofun
  | error f => cases ran.symm.trans (tried.of_execute_error runs)

end Attempts

/-- The spelling of an instruction decides nothing. -/
theorem effect_canon (m : Machine) (i : Instr) : m.effect i.canon = m.effect i := by
  cases i with
  | br c o =>
    by_cases never : Instr.condFlags c = 0
    · have canon : (Instr.br c o).canon = .nop := if_pos never
      have stays : m.psr.takes (Instr.condFlags c) = false := by rw [never, Psr.takes_zero]
      simp [canon, effect, stays]
    · have canon : (Instr.br c o).canon = .br ((Instr.condFlags c).setWidth 8) o := if_neg never
      rw [canon]
      simp only [effect, Instr.condFlags_setWidth]
  | jmp target =>
    cases target with
    | imm => rfl
    | reg r =>
      by_cases link : r = Reg.link
      · subst link
        rfl
      · have canon : (Instr.jmp (.reg r)).canon = .jmp (.reg r) := if_neg link
        rw [canon]
  | _ => rfl

theorem execute_canon (m : Machine) (i : Instr) : m.execute i.canon = m.execute i := by
  rw [execute_eq, execute_eq, effect_canon]

/-- The instruction in memory runs as the one that its word was written from. -/
theorem execute_fetch {m : Machine} {i : Instr} (stored : i.encode = some (m.mem.get m.pc))
    (noInstr : ∀ w, i = .unknown w → Instr.decode w = .unknown w) :
    m.execute m.fetch = m.execute i := by
  have fetched : m.fetch = i.canon := Instr.decode_of_encode stored noInstr
  rw [fetched, execute_canon]

/-- To evaluate the instruction whose word is at the program counter has the outcome of a step,
but for the count, which only a step raises, and the status, which only a failed step sets to
halted. -/
theorem eval_eq_stepIn {m : Machine} {i : Instr} (awake : m.pc ≠ haltAddr)
    (stored : i.encode = some (m.mem.get m.pc))
    (noInstr : ∀ w, i = .unknown w → Instr.decode w = .unknown w) :
    (m.eval i).fault = m.stepIn.fault ∧
      (m.eval i).machine = { m.stepIn.machine with
        count := m.count
        status := if m.stepIn.fault.isNone then .running else m.status } := by
  have same : m.begin.execute m.begin.fetch = m.begin.execute i := execute_fetch stored noInstr
  cases ran : m.begin.execute i with
  | error f =>
    have stepped : m.begin.step = .fault f m.begin :=
      step_eq_fault_iff.mpr ⟨awake, same.trans ran⟩
    simp only [eval_eq, stepIn, ran, stepped]
    exact ⟨rfl, rfl⟩
  | ok s =>
    have stepped : m.begin.step = .next { s with count := m.count + 1, status := .running } :=
      step_eq_next_iff.mpr ⟨awake, s, same.trans ran, rfl⟩
    obtain ⟨-, e, -, rfl⟩ := execute_eq_ok_iff.mp ran
    have counted : (m.begin.apply e).count = m.count := count_apply m.begin e
    have fresh : (m.begin.apply e).pause = .none :=
      congrArg Ledger.pause (ledger_apply m.begin e)
    simp only [eval_eq, stepIn, ran, stepped, paused, true_and]
    rw [← counted, ← fresh]
    rfl

/-- The word of a jump to the link register is read from memory as a return; here there is a frame
for both to pop. -/
theorem eval_eq_stepIn_return :
    let jump : Instr := .jmp (.reg Reg.link)
    let m := { new ⟨false, true, false⟩ with
      mem := Memory.zero.set 0x8200 0xC1C0
      calls := (CallStack.empty true).push ⟨0x8300, 0x8200, .subroutine⟩ }
    m.fetch = .ret ∧ (m.eval jump).fault = m.stepIn.fault ∧
      (m.eval jump).machine = { m.stepIn.machine with count := 0, status := .running } := by
  intro jump m
  have read : m.fetch = .ret := by decide +kernel
  have stored : jump.encode = some (m.mem.get m.pc) := by decide +kernel
  have ran : m.stepIn.fault.isNone = true := by decide +kernel
  have noInstr : ∀ w, jump ≠ .unknown w := by simp [jump]
  obtain ⟨fault, machine⟩ :=
    eval_eq_stepIn (m := m) (by decide) stored fun w unknown => absurd unknown (noInstr w)
  rw [ran] at machine
  exact ⟨read, fault, machine⟩

end Machine

end Lc4
