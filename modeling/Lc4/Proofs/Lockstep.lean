import Mathlib.Data.List.Forall2
import Lc4.Proofs.History

/-!
# Machines in lockstep

Some relations between machines survive whatever instruction the two run. Machines that are so
related stay so through every operation, which takes as many instructions on both, ends with the
same fault, or ends on neither.
-/
namespace Lc4

namespace Machine

def withLedger (m : Machine) (l : Ledger) : Machine :=
  { m with
    count := l.count
    status := l.status
    pause := l.pause
    labels := l.labels
    notes := l.notes }

/-- Related machines agree on all that a run looks at, and stay related when the same thing is done
to both. -/
structure Lockstep (R : Machine → Machine → Prop) : Prop where
  mem : ∀ {m n}, R m n → n.mem = m.mem
  pc : ∀ {m n}, R m n → n.pc = m.pc
  depth : ∀ {m n}, R m n → n.calls.depth = m.calls.depth
  ledger : ∀ {m n}, R m n → n.ledger = m.ledger
  checkPc : ∀ {m n}, R m n → n.checkPc = m.checkPc
  effect : ∀ {m n}, R m n → ∀ i, n.effect i = m.effect i
  apply : ∀ {m n}, R m n → ∀ e, R (m.apply e) (n.apply e)
  withLedger : ∀ {m n}, R m n → ∀ l, R (m.withLedger l) (n.withLedger l)
  unobserved : ∀ {m n}, R m n → R { m with observer := .empty } { n with observer := .empty }

inductive StepResult.Related (R : Machine → Machine → Prop) : StepResult → StepResult → Prop
  | next {m n : Machine} (related : R m n) : Related R (.next m) (.next n)
  | halt : Related R .halt .halt
  | fault {m n : Machine} (f : Fault) (related : R m n) : Related R (.fault f m) (.fault f n)

end Machine

structure Outcome.Related (R : Machine → Machine → Prop) (o p : Outcome) : Prop where
  machine : R o.machine p.machine
  steps : p.steps = o.steps
  fault : p.fault = o.fault

structure Executed.Related (R : Machine → Machine → Prop) (x y : Executed) : Prop where
  before : R x.before y.before
  instr : y.instr = x.instr
  after : R x.after y.after
  fetched : y.fetched = x.fetched

/-- The condition of a run, which is free to look at all of a machine, does not tell related
machines apart. -/
def Operation.Blind (R : Machine → Machine → Prop) : Operation → Prop
  | runWhile go => ∀ k m n, R m n → go k n = go k m
  | _ => True

namespace Machine.Lockstep

section Runs
variable {R : Machine → Machine → Prop} {m n : Machine} {go other : Condition} {fuel k : Nat}

theorem begin (lock : Lockstep R) (related : R m n) : R m.begin n.begin := by
  have cleared := lock.withLedger (lock.unobserved related) { m.ledger with pause := .none }
  have begun (s : Machine) : s.begin =
      { s with observer := .empty }.withLedger { s.ledger with pause := .none } := rfl
  rwa [begun m, begun n, lock.ledger related]

theorem paused (lock : Lockstep R) (related : R m n) (k : Nat) (p : Pause) :
    Outcome.Related R (m.paused k p) (n.paused k p) := by
  have paused (s : Machine) : (s.paused k p).machine = s.withLedger
      { s.ledger with pause := p, status := if p = .halt then .halted else s.ledger.status } := rfl
  refine ⟨?_, rfl, rfl⟩
  rw [paused m, paused n, lock.ledger related]
  exact lock.withLedger related _

theorem faulted (lock : Lockstep R) (related : R m n) (k : Nat) (f : Fault) :
    Outcome.Related R (m.faulted k f) (n.faulted k f) := by
  have faulted (s : Machine) : (s.faulted k f).machine = s.withLedger
      { s.ledger with pause := .none, status := .halted } := rfl
  refine ⟨?_, rfl, rfl⟩
  rw [faulted m, faulted n, lock.ledger related]
  exact lock.withLedger related _

/-- One instruction: both machines refuse it for the same fault, or both run it and are related
again. -/
theorem execute (lock : Lockstep R) (related : R m n) (i : Instr) :
    (∃ f, m.execute i = .error f ∧ n.execute i = .error f) ∨
      ∃ s t, m.execute i = .ok s ∧ n.execute i = .ok t ∧ R s t := by
  rw [execute_eq, execute_eq, lock.checkPc related, lock.effect related]
  cases m.checkPc with
  | error f => exact .inl ⟨f, rfl, rfl⟩
  | ok =>
    cases m.effect i with
    | error f => exact .inl ⟨f, rfl, rfl⟩
    | ok e => exact .inr ⟨_, _, rfl, rfl, lock.apply related e⟩

theorem fetch (lock : Lockstep R) (related : R m n) : n.fetch = m.fetch := by
  rw [Machine.fetch, Machine.fetch, lock.mem related, lock.pc related]

/-- What a step comes to on one machine it comes to on the other. -/
theorem step (lock : Lockstep R) (related : R m n) : StepResult.Related R m.step n.step := by
  rw [step_eq, step_eq, lock.pc related, lock.fetch related]
  split
  · exact .halt
  · rcases lock.execute related m.fetch with ⟨f, hm, hn⟩ | ⟨s, t, hm, hn, after⟩
    · rw [hm, hn]
      exact .fault f related
    · have counted (s : Machine) : { s with count := m.count + 1, status := .running } =
          s.withLedger { s.ledger with count := m.count + 1, status := .running } := rfl
      have count : n.count = m.count := congrArg Ledger.count (lock.ledger related)
      rw [hm, hn, count]
      refine .next ?_
      rw [counted s, counted t, lock.ledger after]
      exact lock.withLedger after _

/-- Runs, by induction on the fuel. Conditions may look at the machines, but at nothing in which
related ones differ. -/
theorem runFrom (lock : Lockstep R) (blind : ∀ k m n, R m n → other k n = go k m)
    (related : R m n) :
    Option.Rel (Outcome.Related R) (Machine.runFrom go fuel k m)
      (Machine.runFrom other fuel k n) := by
  induction fuel generalizing k m n with
  | zero => exact .none
  | succ fuel ih =>
    rw [Machine.runFrom, Machine.runFrom, blind k m n related]
    cases go k m with
    | false => exact .some (lock.paused related k .none)
    | true =>
      have stepped := lock.step related
      generalize m.step = a, n.step = b at stepped
      cases stepped with
      | halt => exact .some (lock.paused related k .halt)
      | fault f left => exact .some (lock.faulted left k f)
      | @next s t after =>
        have notes : t.notes = s.notes := congrArg Ledger.notes (lock.ledger after)
        simp only [notes, lock.pc after, if_true]
        split
        · exact .some (lock.paused after (k + 1) .breakpoint)
        · exact ih after

theorem runWhile (lock : Lockstep R) (blind : ∀ k m n, R m n → other k n = go k m)
    (related : R m n) :
    Option.Rel (Outcome.Related R) (m.runWhile go fuel) (n.runWhile other fuel) :=
  lock.runFrom blind (lock.begin related)

/-- Related machines run the same instructions step by step. -/
theorem trace (lock : Lockstep R) (related : R m n) (k : Nat) :
    List.Forall₂ (Executed.Related R) (m.trace k) (n.trace k) := by
  induction k generalizing m n with
  | zero => exact .nil
  | succ k ih =>
    have stepped := lock.step related
    rw [Machine.trace, Machine.trace]
    generalize m.step = a, n.step = b at stepped
    cases stepped with
    | halt | fault => exact .nil
    | next after => exact .cons ⟨related, lock.fetch related, after, rfl⟩ (ih after)

end Runs

section Operations
variable {R : Machine → Machine → Prop} {m n : Machine} {op : Operation}

theorem stepIn (lock : Lockstep R) (related : R m n) :
    Outcome.Related R m.stepIn n.stepIn := by
  have begun := lock.begin related
  have stepped := lock.step begun
  simp only [Machine.stepIn]
  generalize m.begin.step = a, n.begin.step = b at stepped
  cases stepped with
  | halt => exact lock.paused begun 0 .halt
  | fault f left => exact lock.faulted left 0 f
  | next after => exact lock.paused after 1 .none

theorem eval (lock : Lockstep R) (related : R m n) (i : Instr) :
    Outcome.Related R (m.eval i) (n.eval i) := by
  have begun := lock.begin related
  rcases lock.execute begun i with ⟨f, hm, hn⟩ | ⟨s, t, hm, hn, after⟩
  · simp only [eval_eq, hm, hn]
    exact ⟨begun, rfl, rfl⟩
  · have running (s : Machine) : { s with status := .running } =
        s.withLedger { s.ledger with status := .running } := rfl
    simp only [eval_eq, hm, hn, running]
    refine ⟨?_, rfl, rfl⟩
    rw [lock.ledger after]
    exact lock.withLedger after _

/-- An operation ends on both machines in the same way, or on neither. -/
theorem perform (lock : Lockstep R) (blind : op.Blind R) (related : R m n) (fuel : Nat) :
    Option.Rel (Outcome.Related R) (op.perform fuel m) (op.perform fuel n) := by
  have depth := lock.depth related
  cases op with
  | stepIn => exact .some (lock.stepIn related)
  | eval i => exact .some (lock.eval related i)
  | runWhile go => exact lock.runWhile blind related
  | run | runLimit =>
    simp only [Operation.perform, run, runLimit]
    refine lock.runWhile ?_ related
    intro k s t later
    rfl
  | stepNext =>
    refine lock.runWhile ?_ related
    intro k s t later
    rw [lock.pc later, lock.pc related]
  | stepOver =>
    refine lock.runWhile ?_ related
    intro k s t later
    rw [lock.depth later, depth]
  | stepOut =>
    have empty : n.calls.isEmpty = m.calls.isEmpty := by
      rw [CallStack.isEmpty, CallStack.isEmpty, depth]
    simp only [Operation.perform, stepOut, empty]
    split
    · exact .some ⟨lock.begin related, rfl, rfl⟩
    · refine lock.runWhile ?_ related
      intro k s t later
      rw [lock.depth later, depth]

/-- A run that its fuel does not finish has run what as many steps run. -/
theorem executed_of_unfinished {fuel : Nat} (h : op.perform fuel m = none) :
    op.executed fuel m = m.begin.trace fuel := by
  unfold Operation.executed
  split <;> simp_all

/-- Both machines run the same instructions and are related before and after each. -/
theorem executed (lock : Lockstep R) (blind : op.Blind R) (related : R m n) (fuel : Nat) :
    List.Forall₂ (Executed.Related R) (op.executed fuel m) (op.executed fuel n) := by
  have begun := lock.begin related
  have performed := lock.perform blind related fuel
  cases steps : op.isEval with
  | true =>
    obtain ⟨i, rfl⟩ := Operation.eq_eval_of_isEval steps
    have evaluated := lock.eval related i
    simp only [Operation.executed, Operation.perform, evaluated.fault]
    split
    · exact .cons ⟨begun, rfl, evaluated.machine, rfl⟩ .nil
    · exact .nil
  | false =>
    have traced (k : Nat) := lock.trace begun k
    generalize hm : op.perform fuel m = a, hn : op.perform fuel n = b at performed
    cases performed with
    | none =>
      rw [executed_of_unfinished hm, executed_of_unfinished hn]
      exact traced fuel
    | @some o p ended =>
      rw [executed_eq_trace steps hm, executed_eq_trace steps hn, ended.steps]
      exact traced o.steps

end Operations

end Machine.Lockstep

end Lc4
