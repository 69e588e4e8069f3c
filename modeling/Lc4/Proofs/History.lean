import Lc4.Proofs.Run

/-!
# Histories

`Operation` collects all that lets a machine run. A history is a list of operations, carried out
one after the other, with the instructions that they run. Its last operation may be a run that
goes on for ever, of which it has as many instructions as there is fuel. So what holds of the
instructions of all histories holds at every moment of every operation.
-/
namespace Lc4

inductive Operation
  | stepIn
  | eval (i : Instr)
  | runWhile (go : Machine.Condition)
  | run
  | runLimit (n : Nat)
  | stepNext
  | stepOver
  | stepOut

namespace Operation

def perform (fuel : Nat) (m : Machine) : Operation → Option Outcome
  | stepIn => some m.stepIn
  | eval i => some (m.eval i)
  | runWhile go => m.runWhile go fuel
  | run => m.run fuel
  | runLimit n => m.runLimit n
  | stepNext => m.stepNext fuel
  | stepOver => m.stepOver fuel
  | stepOut => m.stepOut fuel

def isEval : Operation → Bool
  | eval _ => true
  | _ => false

theorem eq_eval_of_isEval {op : Operation} (h : op.isEval = true) : ∃ i, op = eval i := by
  cases op
  case eval i => exact ⟨i, rfl⟩
  all_goals cases h

/-- The condition under which an operation goes on, if it is a run. -/
def condition (m : Machine) : Operation → Option Machine.Condition
  | stepIn | eval _ => none
  | runWhile go => some go
  | run => some fun _ _ => true
  | runLimit n => some fun k _ => k < n
  | stepNext => some fun k s => k == 0 || s.pc != m.pc + 1
  | stepOver => some fun k s => k == 0 || m.calls.depth < s.calls.depth
  | stepOut => some fun k s => !m.calls.isEmpty && (k == 0 || m.calls.depth ≤ s.calls.depth)

/-- The instructions that an operation runs; of a run that its fuel does not finish, those that
ran within the fuel. -/
def executed (fuel : Nat) (m : Machine) (op : Operation) : List Executed :=
  match op, op.perform fuel m with
  | eval i, some o => if o.fault.isNone then [⟨m.begin, i, o.machine, false⟩] else []
  | _, some o => m.begin.trace o.steps
  | _, none => m.begin.trace fuel

end Operation

namespace Machine

section Perform
variable {op : Operation} {fuel : Nat} {m : Machine} {o : Outcome}

/-- Each operation that runs a loop ends by the rules for its condition, counted from nothing. -/
theorem ends_of_perform {go : Condition} (loop : op.condition m = some go)
    (h : op.perform fuel m = some o) : Ends go 0 m.begin o := by
  cases op
  case stepIn | eval => cases loop
  case stepOut =>
    obtain rfl := Option.some.inj loop
    simp only [Operation.perform, stepOut] at h
    cases empty : m.calls.isEmpty with
    | true =>
      simp only [empty, if_true, Option.some.injEq] at h
      exact h ▸ .condition rfl
    | false =>
      simp only [Bool.not_false, Bool.true_and]
      exact ends_of_runFrom (by simpa [empty, runWhile] using h)
  all_goals
    obtain rfl := Option.some.inj loop
    exact ends_of_runFrom h

/-- All operations take steps, except an evaluation. -/
theorem arrives_of_perform (steps : op.isEval = false) (h : op.perform fuel m = some o) :
    ∃ s, Arrives 0 m.begin o s := by
  cases loop : op.condition m with
  | some go => exact (ends_of_perform loop h).arrives
  | none =>
    cases op <;> simp [Operation.condition, Operation.isEval] at loop steps
    case stepIn =>
      obtain rfl := Option.some.inj h
      exact stepIn_arrives m

/-- But for an evaluation, an operation runs the instructions that are found in memory step by step.
-/
theorem executed_eq_trace (steps : op.isEval = false) (h : op.perform fuel m = some o) :
    op.executed fuel m = m.begin.trace o.steps := by
  unfold Operation.executed
  split <;> simp_all [Operation.isEval]

theorem length_executed (h : op.perform fuel m = some o) :
    (op.executed fuel m).length = o.steps := by
  cases steps : op.isEval with
  | true =>
    obtain ⟨i, rfl⟩ := Operation.eq_eval_of_isEval steps
    obtain rfl := Option.some.inj h
    simp only [Operation.executed, Operation.perform, eval_eq]
    cases m.begin.execute i <;> rfl
  | false =>
    obtain ⟨s, arrives⟩ := arrives_of_perform steps h
    rw [executed_eq_trace steps h]
    exact length_trace arrives.steps

/-- An evaluation is a list of one instruction, or of none if it meets a fault. -/
theorem eval_linked (m : Machine) (i : Instr) :
    Linked m ((Operation.eval i).executed fuel m) (m.eval i).machine := by
  simp only [Operation.executed, Operation.perform]
  cases hx : m.begin.execute i with
  | error f =>
    simp only [eval_eq, hx]
    exact .nil rfl
  | ok s =>
    simp only [eval_eq, hx]
    exact .cons rfl (valid_of_execute hx rfl nofun) (.nil rfl)

/-- The instructions of an operation that ends lead from its start to what it leaves. -/
theorem linked_of_perform (h : op.perform fuel m = some o) :
    Linked m (op.executed fuel m) o.machine := by
  cases steps : op.isEval with
  | true =>
    obtain ⟨i, rfl⟩ := Operation.eq_eval_of_isEval steps
    obtain rfl := Option.some.inj h
    exact eval_linked m i
  | false =>
    obtain ⟨s, arrives⟩ := arrives_of_perform steps h
    have listed : op.executed fuel m = m.begin.trace o.steps ++ [] := by
      rw [executed_eq_trace steps h, List.append_nil]
    rw [listed]
    exact ((linked_trace arrives.steps).append (.nil arrives.core)).weaken rfl

/-- The instructions of a run that goes on are linked as far as its fuel reaches. -/
theorem linked_of_perform_eq_none (h : op.perform fuel m = none) :
    ∃ s, Linked m (op.executed fuel m) s := by
  have unfinished : ∃ s, m.begin.after fuel = some s := by
    cases op
    case stepIn | eval => cases h
    case runLimit n => exact False.elim (runLimit_ne_none n m h)
    case stepOut =>
      simp only [Operation.perform, stepOut] at h
      split at h
      · cases h
      · exact (after_of_runFrom_eq_none h).1
    all_goals exact (after_of_runFrom_eq_none h).1
  obtain ⟨s, hs⟩ := unfinished
  have listed : op.executed fuel m = m.begin.trace fuel := by
    unfold Operation.executed
    split <;> simp_all
  exact ⟨s, listed ▸ (linked_trace hs).weaken rfl⟩

theorem linked_executed (op : Operation) (fuel : Nat) (m : Machine) :
    ∃ s, Linked m (op.executed fuel m) s ∧ ∀ o, op.perform fuel m = some o → o.machine = s := by
  cases h : op.perform fuel m with
  | none =>
    obtain ⟨s, linked⟩ := linked_of_perform_eq_none h
    refine ⟨s, linked, ?_⟩
    intro o ended
    cases ended
  | some o =>
    refine ⟨o.machine, linked_of_perform h, ?_⟩
    intro p ended
    rw [Option.some.inj ended]

end Perform

/-- What a list of operations runs, and the machine it leaves if all of them end. -/
structure History where
  executed : List Executed
  machine : Option Machine

/-- The machines before and after each instruction, and the last one. -/
def History.machines (h : History) : List Machine :=
  h.executed.flatMap (fun x => [x.before, x.after]) ++ h.machine.toList

theorem History.before_mem {h : History} {x : Executed} (hx : x ∈ h.executed) :
    x.before ∈ h.machines :=
  List.mem_append_left _ (List.mem_flatMap.mpr ⟨x, hx, by simp⟩)

def history (fuel : Nat) : List Operation → Machine → History
  | [], m => ⟨[], some m⟩
  | op :: ops, m =>
    match op.perform fuel m with
    | none => ⟨op.executed fuel m, none⟩
    | some o =>
      let rest := history fuel ops o.machine
      ⟨op.executed fuel m ++ rest.executed, rest.machine⟩

/-- Operations one after the other run one linked list of instructions, whatever is evaluated
between the steps. The induction is on the operations: nothing between two of them touches the core.
-/
theorem linked_history (fuel : Nat) (ops : List Operation) (m : Machine) :
    ∃ s, Linked m (m.history fuel ops).executed s ∧
      ∀ t, (m.history fuel ops).machine = some t → t = s := by
  induction ops generalizing m with
  | nil => exact ⟨m, .nil rfl, fun t ht => (Option.some.inj ht).symm⟩
  | cons op ops ih =>
    cases h : op.perform fuel m with
    | none =>
      obtain ⟨s, linked⟩ := linked_of_perform_eq_none h
      exact ⟨s, by simpa [history, h] using linked, by simp [history, h]⟩
    | some o =>
      obtain ⟨s, rest, final⟩ := ih o.machine
      have linked := (linked_of_perform h).append rest
      exact ⟨s, by simpa [history, h] using linked, by simpa [history, h] using final⟩

/-- What holds of a core and is kept by every instruction of a history holds of all its machines. -/
theorem history_invariant {I : Core → Prop} {fuel : Nat} {ops : List Operation} {m : Machine}
    (start : I m.core)
    (kept : ∀ x ∈ (m.history fuel ops).executed, x.Valid → I x.before.core → I x.after.core) :
    ∀ t ∈ (m.history fuel ops).machines, I t.core := by
  obtain ⟨s, linked, final⟩ := linked_history fuel ops m
  obtain ⟨last, all⟩ := linked.invariant start kept
  intro t ht
  simp only [History.machines, List.mem_append, List.mem_flatMap, Option.mem_toList] at ht
  rcases ht with ⟨x, hx, ht⟩ | ht
  · obtain ⟨_, before, after⟩ := all x hx
    simp only [List.mem_cons, List.not_mem_nil, or_false] at ht
    rcases ht with rfl | rfl
    · exact before
    · exact after
  · exact final t ht ▸ last

theorem history_flags {fuel : Nat} {ops : List Operation} {m : Machine} :
    ∀ t ∈ (m.history fuel ops).machines, t.flags = m.flags := by
  refine history_invariant (I := fun c => c.flags = m.flags) rfl ?_
  intro x _ valid before
  exact valid.flags.trans before

/-- All that a history runs is checked and has its effect. -/
theorem history_valid (fuel : Nat) (ops : List Operation) (m : Machine) :
    ∀ x ∈ (m.history fuel ops).executed, x.Valid := by
  obtain ⟨_, linked, _⟩ := linked_history fuel ops m
  exact linked.valid

end Machine

end Lc4
