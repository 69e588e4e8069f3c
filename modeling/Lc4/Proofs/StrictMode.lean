import Lc4.Machine.Log
import Lc4.Proofs.Flags

/-!
# Strict mode

Strict mode refuses what the machine passes over with a warning otherwise, and code in data
regions; it adds nothing. So what ends well in strict mode ends in the same way without it.
-/
namespace Lc4

/-- Nothing was passed over with a warning. -/
def Quiet (events : List Event) : Prop :=
  ∀ e ∈ events, e.level ≠ .warn

namespace Machine

/-- The machine in strict mode. -/
def strictly (m : Machine) : Machine :=
  m.withFlags { m.flags with strict := true }

/-- The machine out of strict mode. -/
def leniently (m : Machine) : Machine :=
  m.withFlags { m.flags with strict := false }

section Strict
variable {m : Machine} {i : Instr}

/-- Strict mode runs an instruction if it runs without it, passes nothing over and is code. -/
theorem execute_strictly_iff : (∃ s, m.strictly.execute i = .ok s) ↔
    (∃ s, m.leniently.execute i = .ok s) ∧ m.leniently.lapse i = none ∧
      (Region.of m.pc).isCode = true := by
  have laxer : m.strictly.Laxer m.leniently.flags := id
  constructor
  · rintro ⟨s, h⟩
    obtain ⟨checked, e, he, _⟩ := execute_eq_ok_iff.mp h
    have none := lapse_of_strict rfl he
    have runs := execute_of_strict rfl laxer h
    exact ⟨⟨_, runs⟩, laxer.lapse none, (checkPc_eq_ok_iff.mp checked).2 rfl⟩
  · rintro ⟨⟨s, h⟩, none, code⟩
    obtain ⟨checked, e, he, _⟩ := execute_eq_ok_iff.mp h
    have runs := (checkPc_eq_ok_iff.mp checked).1
    have same : m.strictly.effect i = m.leniently.effect i :=
      effect_withFlags none (Laxer.lapse id none)
    exact ⟨_, execute_eq_ok_iff.mpr
      ⟨checkPc_eq_ok_iff.mpr ⟨runs, fun _ => code⟩, e, same.trans he, rfl⟩⟩

end Strict

section Warnings
variable {m s : Machine} {i : Instr}

theorem fault_eval_eq_none_iff : (m.eval i).fault = none ↔ ∃ s, m.begin.execute i = .ok s := by
  cases hx : m.begin.execute i <;> simp [eval_eq, hx]

theorem fault_stepIn_eq_none_iff (awake : m.pc ≠ haltAddr) :
    m.stepIn.fault = none ↔ ∃ s, m.begin.execute m.fetch = .ok s := by
  have awake : m.begin.pc ≠ haltAddr := awake
  have same : m.begin.fetch = m.fetch := rfl
  cases hx : m.begin.execute m.fetch <;> simp [stepIn, step_eq, awake, same, hx, paused, faulted]

/-- An instruction that runs warns of what it passes over and of nothing else. -/
theorem warnings_of_execute (h : m.execute i = .ok s) :
    m.warnings i = (m.lapse i).toList.map (.warned m.pc) := by
  obtain ⟨_, e, he, _⟩ := execute_eq_ok_iff.mp h
  rw [warnings, he, ← (effect_touches he).2.2]

theorem quiet_warnings_iff (h : m.execute i = .ok s) : Quiet (m.warnings i) ↔ m.lapse i = none := by
  rw [warnings_of_execute h]
  cases m.lapse i with
  | none => simp [Quiet]
  | some w => simp [Quiet, Event.level]

/-- The log of an evaluation shows a warning exactly if the instruction passes something over. -/
theorem quiet_evalEvents_iff (h : (m.eval i).fault = none) :
    Quiet (m.evalEvents i (m.eval i)) ↔ m.lapse i = none := by
  cases hx : m.begin.execute i with
  | error f => simp [eval_eq, hx] at h
  | ok s =>
    have same : m.warnings i = m.begin.warnings i := rfl
    have lapse : m.lapse i = m.begin.lapse i := rfl
    rw [lapse, ← quiet_warnings_iff hx, ← same]
    simp [evalEvents, h, Quiet, Event.level, or_imp, forall_and]

/-- The log of a step that runs an instruction: the instruction, and what it warns of. -/
theorem runEvents_stepIn (h : m.begin.step = .next s) :
    m.runEvents .trace m.stepIn = .executing m.pc m.fetch :: m.warnings m.fetch := by
  obtain ⟨awake, t, ht, _⟩ := step_eq_next_iff.mp h
  have awake : m.pc ≠ haltAddr := awake
  have checked : m.checkPc = .ok () := (execute_eq_ok_iff.mp ht).1
  have all : ∀ events : List Event, events.filter (·.reaches .trace) = events :=
    fun events => List.filter_eq_self.mpr fun e _ => by simp [Event.reaches, Level.rank]
  have events : m.stepEvents = .executing m.pc m.fetch :: m.warnings m.fetch := by
    simp only [stepEvents, awake, checked, if_false]
  have replayed : replayOnto .trace [] 1 m = m.stepEvents.reverse := by
    simp only [replayOnto, all, List.append_nil]
    split <;> rfl
  have stepped : m.stepIn = s.paused 1 .none := by
    simp only [stepIn, h]
  rw [runEvents, stepped]
  change (replayOnto .trace [] 1 m).reverse ++ _ = _
  rw [replayed, List.reverse_reverse, events]
  simp [endEvents, paused]

/-- The log of a step shows a warning exactly if the instruction passes something over. -/
theorem quiet_stepEvents_iff (ok : m.stepIn.fault = none) (awake : m.pc ≠ haltAddr) :
    Quiet (m.runEvents .trace m.stepIn) ↔ m.lapse m.fetch = none := by
  cases hs : m.begin.step with
  | halt =>
    have halted : m.begin.pc = haltAddr := step_eq_halt_iff.mp hs
    exact False.elim (awake halted)
  | fault f left => simp [stepIn, hs, faulted] at ok
  | next s =>
    obtain ⟨_, t, ht, _⟩ := step_eq_next_iff.mp hs
    have lapse : m.lapse m.fetch = m.begin.lapse m.begin.fetch := rfl
    have same : m.warnings m.fetch = m.begin.warnings m.begin.fetch := rfl
    rw [runEvents_stepIn hs, lapse, ← quiet_warnings_iff ht, ← same]
    simp [Quiet, Event.level]

end Warnings

/-- The outcomes of running one instruction at `pc` in strict mode and out of it. Strict mode lets
it run exactly if it runs without, warns of nothing in these events and is in a code region; then
both leave the same machine, flags aside. The only thing to warn of is the lapse. -/
structure Restricts (pc : Word) (lapse : Option Warning) (events : List Event)
    (strict lenient : Outcome) : Prop where
  ok : strict.fault = none ↔
    lenient.fault = none ∧ Quiet events ∧ (Region.of pc).isCode = true
  quiet : lenient.fault = none → (Quiet events ↔ lapse = none)
  same : strict.fault = none → lenient = strict.withFlags lenient.machine.flags

/-- Evaluations and steps are restricted for one reason: strict mode restricts the instruction. -/
theorem Restricts.of_execute {m : Machine} {i : Instr} {events : List Event}
    {strict lenient : Outcome}
    (strictOk : strict.fault = none ↔ ∃ s, m.strictly.execute i = .ok s)
    (lenientOk : lenient.fault = none ↔ ∃ s, m.leniently.execute i = .ok s)
    (quiet : lenient.fault = none → (Quiet events ↔ m.leniently.lapse i = none))
    (same : strict.fault = none → lenient = strict.withFlags m.leniently.flags) :
    Restricts m.pc (m.leniently.lapse i) events strict lenient where
  ok := by
    rw [strictOk, execute_strictly_iff, ← lenientOk]
    exact and_congr_right fun ok => and_congr_left' (quiet ok).symm
  quiet := quiet
  same := by
    intro ok
    rw [same ok]
    rfl

/-- In strict mode an evaluation, and a step that does not start at the halt address, does what it
does out of strict mode or is refused: for a warning or for code in a data region. An operation
that ends without a fault in strict mode ends after as many instructions, with the same machine
but for the flags, out of strict mode, and under all flags that do not restore the checks of the
privilege. -/
theorem strict_only_refuses (m : Machine) :
    let strict := m.strictly
    let lenient := m.leniently
    (∀ i, Restricts m.pc (lenient.lapse i) (lenient.evalEvents i (lenient.eval i))
      (strict.eval i) (lenient.eval i)) ∧
    (m.pc ≠ haltAddr → Restricts m.pc (lenient.lapse m.fetch)
      (lenient.runEvents .trace lenient.stepIn) strict.stepIn lenient.stepIn) ∧
    (∀ (fuel : Nat) (op : Operation) (o : Outcome) (f : Flags),
      op.perform fuel strict = some o → o.fault = none → m.Laxer f →
      (op.seeing strict.flags).perform fuel (m.withFlags f) = some (o.withFlags f)) := by
  intro strict lenient
  have same : ∀ (fuel : Nat) (op : Operation) (o : Outcome) (f : Flags),
      op.perform fuel strict = some o → o.fault = none → m.Laxer f →
      (op.seeing strict.flags).perform fuel (m.withFlags f) = some (o.withFlags f) :=
    fun fuel op o f ends ok laxer => perform_of_strict (m := strict) rfl laxer ends ok
  refine ⟨?_, ?_, same⟩
  · intro i
    refine Restricts.of_execute (m := m.begin) (fault_eval_eq_none_iff (m := strict))
      (fault_eval_eq_none_iff (m := lenient)) quiet_evalEvents_iff ?_
    intro ok
    exact Option.some.inj (same 0 (.eval i) _ lenient.flags rfl ok id)
  · intro awake
    refine Restricts.of_execute (m := m.begin) (fault_stepIn_eq_none_iff (m := strict) awake)
      (fault_stepIn_eq_none_iff (m := lenient) awake) ?_ ?_
    · intro ok
      exact quiet_stepEvents_iff ok awake
    · intro ok
      exact Option.some.inj (same 0 .stepIn _ lenient.flags rfl ok id)

/-- A run that divides, stores and halts in strict mode, and a division that it refuses. -/
theorem strict_only_refuses_division :
    let m := { new .none with
      mem := Memory.zero.copyBlock 0x8200 [0x9206, 0x9403, 0x165A, 0xD9A0, 0x7700, 0xF0FF] }
    m.pc ≠ haltAddr ∧
    ∃ o, Operation.run.perform 7 m.strictly = some o ∧ o.fault = none ∧ o.steps = 6 ∧
      o.machine.mem.get 0xA000 = 2 ∧
      Operation.run.perform 7 m.leniently = some (o.withFlags m.leniently.flags) ∧
      Operation.run.perform 7 (m.withFlags ⟨true, false, true⟩) =
        some (o.withFlags ⟨true, false, true⟩) ∧
      m.leniently.stepIn = m.strictly.stepIn.withFlags m.leniently.stepIn.machine.flags ∧
      (m.leniently.eval (.alu .div 3 1 2)).fault = none ∧
      (m.strictly.eval (.alu .div 3 1 2)).fault ≠ none := by
  intro m
  obtain ⟨evals, steps, runs⟩ := strict_only_refuses m
  have ended : ((Operation.run.perform 7 m.strictly).map fun o =>
      (o.fault, o.steps, o.machine.mem.get 0xA000)) = some (none, 6, 2) := by decide +kernel
  obtain ⟨o, ends, seen⟩ := Option.map_eq_some_iff.mp ended
  obtain ⟨ok, six, stored⟩ : o.fault = none ∧ o.steps = 6 ∧ o.machine.mem.get 0xA000 = 2 := by
    simpa using seen
  have awake : m.pc ≠ haltAddr := by decide
  have first : m.strictly.stepIn.fault = none := by decide +kernel
  have divides : (m.leniently.eval (.alu .div 3 1 2)).fault = none := by decide +kernel
  refine ⟨awake, o, ends, ok, six, stored, runs 7 .run o _ ends ok id,
    runs 7 .run o _ ends ok fun _ => rfl, (steps awake).same first, divides, ?_⟩
  intro accepted
  have quiet := ((evals _).ok.mp accepted).2.1
  have lapse := ((evals _).quiet divides).mp quiet
  exact absurd lapse (by decide +kernel)

end Machine

end Lc4
