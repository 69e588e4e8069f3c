import Lc4.Instr.Encoding
import Lc4.Machine.Work

/-!
# Steps

An instruction runs if the program counter may be executed and nothing that the instruction asks
for is refused. A step runs the instruction in memory; an evaluation runs one that is given. Steps
are counted, evaluations are not. A fault leaves the machine as the work on it was left.
-/
namespace Lc4

/-- How an operation left the machine: how many instructions ran, and the fault that ended it. -/
structure Outcome where
  machine : Machine
  steps : Nat
  fault : Option Fault

namespace Machine

/-- Whether the instruction at the program counter may run. -/
def checkPc (m : Machine) : Except Fault Unit :=
  if !executable m.privileged m.pc then .error (.privilegeViolation m.pc)
  else if m.flags.strict && !(Region.of m.pc).isCode then .error (.dataExecution m.pc)
  else .ok ()

end Machine

/-- Runs an instruction as if it stood at the program counter. -/
def Instr.attempt (i : Instr) : Work Unit := do
  Work.ask (·.checkPc)
  i.carryOut

namespace Machine

/-- The machine after an instruction, or the fault that the instruction meets. -/
def execute (m : Machine) (i : Instr) : Except Fault Machine :=
  match i.attempt.run m with
  | .ok _ m' => .ok m'
  | .error f _ => .error f

def fetch (m : Machine) : Instr :=
  Instr.decode (m.mem.get m.pc)

inductive StepResult
  | next (m : Machine)
  | halt
  /-- A fault, with the machine as the instruction left it. -/
  | fault (f : Fault) (left : Machine)

/-- Runs the instruction at the program counter, unless the machine has halted. -/
def step (m : Machine) : StepResult :=
  if m.pc = haltAddr then .halt
  else match m.fetch.attempt.run m with
    | .ok _ m' => .next { m' with count := m'.count + 1, status := .running }
    | .error f left => .fault f left

/-- The outcome of an operation that ran `steps` instructions and then paused. -/
def paused (m : Machine) (steps : Nat) (p : Pause) : Outcome :=
  ⟨{ m with pause := p, status := if p = .halt then .halted else m.status }, steps, none⟩

/-- The outcome of an operation that ran `steps` instructions and then met a fault. -/
def faulted (m : Machine) (steps : Nat) (f : Fault) : Outcome :=
  ⟨{ m with pause := .none, status := .halted }, steps, some f⟩

def stepIn (m : Machine) : Outcome :=
  let m := m.begin
  match m.step with
  | .next m => m.paused 1 .none
  | .halt => m.paused 0 .halt
  | .fault f left => left.faulted 0 f

/-- Runs an instruction as if it stood at the program counter. -/
def eval (m : Machine) (i : Instr) : Outcome :=
  match i.attempt.run m.begin with
  | .ok _ m => ⟨{ m with status := .running }, 1, none⟩
  | .error f left => ⟨left, 0, some f⟩

/-- An instruction comes to its effect if it may run, and to a fault with nothing written if it
may not or has no effect. -/
theorem run_attempt (m : Machine) (i : Instr) :
    i.attempt.run m = m.settle (m.checkPc >>= fun _ => m.effect i) :=
  Work.run_ask_bind fun _ => i.run_carryOut m

/-- Seen from outside, an instruction that may run has its effect all at once. -/
theorem execute_eq (m : Machine) (i : Instr) :
    m.execute i = (m.checkPc >>= fun _ => m.effect i).map m.apply := by
  rw [execute, run_attempt]
  cases m.checkPc >>= fun _ => m.effect i <;> rfl

theorem execute_eq_ok_iff {m m' : Machine} {i : Instr} :
    m.execute i = .ok m' ↔ m.checkPc = .ok () ∧ ∃ e, m.effect i = .ok e ∧ m' = m.apply e := by
  rw [execute_eq]
  cases m.checkPc <;> cases m.effect i <;>
    simp [bind, Except.bind, Except.map, eq_comm]

/-- So the machine in place tells no more than the view from outside: it is the machine that the
instruction leaves, or the one that it was given. -/
theorem run_attempt_eq (m : Machine) (i : Instr) : i.attempt.run m = match m.execute i with
    | .ok m' => .ok () m'
    | .error f => .error f m := by
  rw [execute_eq, run_attempt]
  cases m.checkPc >>= fun _ => m.effect i <;> rfl

theorem count_apply (m : Machine) (e : Effect) : (m.apply e).count = m.count := by
  rcases e with ⟨pc, reg, cond, memory, privilege, calls, warning⟩
  cases memory <;> cases calls <;> cases reg <;> rfl

/-- A step in terms of the view from outside. -/
theorem step_eq (m : Machine) : m.step = if m.pc = haltAddr then .halt
    else match m.execute m.fetch with
      | .ok m' => .next { m' with count := m.count + 1, status := .running }
      | .error f => .fault f m := by
  rw [step, run_attempt_eq]
  cases ran : m.execute m.fetch with
  | ok m' =>
    obtain ⟨-, e, -, rfl⟩ := execute_eq_ok_iff.mp ran
    simp only [count_apply]
  | error f => rfl

/-- An evaluation in terms of the view from outside. -/
theorem eval_eq (m : Machine) (i : Instr) : m.eval i = match m.begin.execute i with
    | .ok m' => ⟨{ m' with status := .running }, 1, none⟩
    | .error f => ⟨m.begin, 0, some f⟩ := by
  rw [eval, run_attempt_eq]
  cases m.begin.execute i <;> rfl

end Machine

end Lc4
