import Lc4.Proofs.History

/-!
# Faults change nothing

An instruction works on the machine in place, and a fault takes nothing back that has been written.
Yet an operation that ends with a fault leaves the machine as the last instruction that ran left it:
the faulty instruction is refused before its first write. So the fault can be met again: a further
step reports the same fault and moves nothing either.
-/
namespace Lc4.Machine

section Faults
variable {m s : Machine} {o : Outcome} {f : Fault} {i : Instr}

/-- An instruction that is refused has written nothing by then. -/
theorem attempt_of_error (h : m.execute i = .error f) : i.attempt.run m = .error f m := by
  rw [run_attempt_eq, h]

/-- An evaluation that ends with a fault leaves the machine that it began with. -/
theorem eval_of_fault (h : (m.eval i).fault = some f) :
    i.attempt.run m.begin = .error f m.begin ∧ m.eval i = ⟨m.begin, 0, some f⟩ := by
  cases hx : m.begin.execute i with
  | ok s => simp [eval_eq, hx] at h
  | error g =>
    simp only [eval_eq, hx, Option.some.injEq] at h
    obtain rfl := h
    exact ⟨attempt_of_error hx, by simp [eval_eq, hx]⟩

theorem steps_stepIn_of_fault (h : m.stepIn.fault = some f) : m.stepIn.steps = 0 := by
  cases hs : m.begin.step with
  | next s => simp [stepIn, hs, paused] at h
  | halt => simp [stepIn, hs, paused]
  | fault g left => simp [stepIn, hs, faulted]

/-- The machine that a fault leaves meets the same fault again. -/
theorem stepIn_faulted (h : s.step = .fault f s) (k : Nat) :
    (s.faulted k f).machine.stepIn =
      ⟨{ (s.faulted k f).machine with observer := .empty }, 0, some f⟩ := by
  have same : (s.faulted k f).machine.begin.core = s.core := rfl
  have again := step_fault_congr same h
  simp only [stepIn, again]
  rfl

end Faults

/-- An operation that ends with a fault leaves the machine that the last of its instructions left,
or that it began with if none ran. Only status and pause are set: registers, memory, status
register, program counter, call stack, labels, notes, count and the accesses observed so far are
kept, though the faulty instruction worked on the machine in place. Unless that instruction was
evaluated, a step meets the fault again and changes nothing but the observer, which it empties. -/
theorem perform_fault_atomic (op : Operation) (fuel : Nat) (m : Machine) (o : Outcome) (f : Fault)
    (ends : op.perform fuel m = some o) (fault : o.fault = some f) :
    ∃ s, m.begin.after o.steps = some s ∧
      o.machine = { s with status := o.machine.status, pause := .none } ∧
      (op = .stepIn ∨ op.isEval = true → o.steps = 0 ∧ s = m.begin) ∧
      (∀ i, op = .eval i → i.attempt.run s = .error f s) ∧
      (op.isEval = false → s.step = .fault f s ∧ o.machine.stepIn.fault = some f ∧
        o.machine.stepIn.machine = { o.machine with observer := .empty }) := by
  cases steps : op.isEval with
  | true =>
    obtain ⟨i, rfl⟩ := Operation.eq_eval_of_isEval steps
    obtain rfl := Option.some.inj ends
    obtain ⟨refused, kept⟩ := eval_of_fault fault
    rw [kept]
    refine ⟨m.begin, rfl, rfl, fun _ => ⟨rfl, rfl⟩, ?_, nofun⟩
    rintro j ⟨rfl⟩
    exact refused
  | false =>
    obtain ⟨s, arrives⟩ := arrives_of_perform steps ends
    obtain ⟨refused, left⟩ := arrives.fault f fault
    have again := stepIn_faulted refused o.steps
    rw [← left] at again
    refine ⟨s, arrives.steps, ?_, ?_, ?_, ?_⟩
    · rw [left]
      rfl
    · rintro (rfl | eval)
      · obtain rfl := Option.some.inj ends
        have none : m.stepIn.steps = 0 := steps_stepIn_of_fault fault
        have start := arrives.steps
        rw [none] at start
        exact ⟨none, (Option.some.inj start).symm⟩
      · cases eval
    · rintro i rfl
      cases steps
    · intro _
      rw [again]
      exact ⟨refused, rfl, rfl⟩

/-- A run that sets a register and then meets a word that is no instruction. -/
theorem perform_fault_atomic_unknown_word :
    let m := { new ⟨true, false, false⟩ with
      mem := (Memory.zero.set 0x8200 0x9205).set 0x8201 0x3000 }
    ∃ o s, Operation.run.perform 3 m = some o ∧ o.fault = some (.illegalOpcode 0x8201 0x3000) ∧
      o.steps = 1 ∧ m.begin.after 1 = some s ∧ o.machine.reg 1 = 5 ∧
      o.machine = { s with status := o.machine.status, pause := .none } ∧
      o.machine.stepIn.fault = o.fault := by
  intro m
  have found : ((Operation.run.perform 3 m).bind Outcome.fault) =
      some (.illegalOpcode 0x8201 0x3000) := by decide +kernel
  have counted : (Operation.run.perform 3 m).map Outcome.steps = some 1 := by decide +kernel
  have loaded : (Operation.run.perform 3 m).map (·.machine.reg 1) = some 5 := by decide +kernel
  obtain ⟨o, ends⟩ : ∃ o, Operation.run.perform 3 m = some o :=
    Option.isSome_iff_exists.mp (by decide +kernel)
  rw [ends] at found counted loaded
  have one : o.steps = 1 := Option.some.inj counted
  obtain ⟨s, arrived, kept, _, _, again⟩ := perform_fault_atomic .run 3 m o _ ends found
  exact ⟨o, s, ends, found, one, one ▸ arrived, Option.some.inj loaded, kept,
    (again rfl).2.1.trans found.symm⟩

end Lc4.Machine
