import Lc4.Proofs.History

/-!
# Machines that differ in their flags

Flags decide whether something is a fault and nothing else, as far as strict mode goes. So what a
machine in strict mode does without a fault it does in the same way out of strict mode, and with
fewer checks of the privilege, since each of these only refuses. This holds of single instructions
and of whole runs.
-/
namespace Lc4

theorem executable_mono {p q : Bool} {a : Word} (le : p = true → q = true)
    (h : executable p a = true) : executable q a = true := by
  cases p with
  | true => simp [executable, le rfl]
  | false =>
    simp only [executable, Bool.false_or] at h
    simp [executable, h]

theorem writable_mono {p q : Bool} {a : Word} (le : p = true → q = true)
    (h : writable p a = true) : writable q a = true := by
  cases p with
  | true => rwa [le rfl]
  | false =>
    simp only [writable, Bool.false_or, Bool.and_eq_true] at h
    simp [writable, h]

namespace Machine

def withFlags (m : Machine) (f : Flags) : Machine :=
  { m with flags := f }

/-- Every check of the privilege that passes with the flags of `m` passes with these. -/
def Laxer (m : Machine) (f : Flags) : Prop :=
  m.flags.ignorePrivilege = true → f.ignorePrivilege = true

end Machine

def Outcome.withFlags (o : Outcome) (f : Flags) : Outcome :=
  { o with machine := o.machine.withFlags f }

namespace Machine

section Flags
variable {m s : Machine} {f : Flags} {i : Instr} {e : Effect}

theorem Laxer.privileged (laxer : m.Laxer f) (h : m.privileged = true) :
    (m.withFlags f).privileged = true := by
  simp only [Machine.privileged, withFlags, Bool.or_eq_true] at h ⊢
  exact h.imp id laxer

/-- Under laxer flags there is nothing new to warn of. -/
theorem Laxer.lapse (laxer : m.Laxer f) (h : m.lapse i = none) :
    (m.withFlags f).lapse i = none := by
  cases i
  case str rs base offset =>
    simp only [Machine.lapse, ite_eq_left_iff, reduceCtorEq, imp_false, Bool.not_eq_true,
      Bool.not_eq_false] at h ⊢
    exact writable_mono laxer.privileged h
  all_goals exact h

/-- Flags decide nothing where nothing is passed over. -/
theorem effect_withFlags (here : m.lapse i = none) (there : (m.withFlags f).lapse i = none) :
    (m.withFlags f).effect i = m.effect i := by
  have same : (m.withFlags f).reg = m.reg := rfl
  cases i
  case alu op rd rs rt =>
    have whole : (op.divides && m.reg rt == 0) = false := by
      simpa [lapse] using here
    simp only [effect, aluEffect, same, whole]
    rfl
  case str rs base offset =>
    have allowed : writable m.privileged (m.reg base + offset.signExtend 16) = true := by
      simpa [lapse] using here
    have allowed' : writable (m.withFlags f).privileged
        (m.reg base + offset.signExtend 16) = true := by
      simpa [lapse, same] using there
    simp only [effect, storeEffect, same, allowed, allowed']
    rfl
  case unknown word => cases here
  case jsr target | jmp target => cases target <;> rfl
  all_goals rfl

/-- In strict mode an instruction that has an effect passes nothing over: what a warning would be
about is a fault there. -/
theorem lapse_of_strict (strict : m.flags.strict = true) (h : m.effect i = .ok e) :
    m.lapse i = none := by
  cases i
  case alu op rd rs rt =>
    obtain ⟨next, _, h⟩ := bind_eq_ok_iff.mp h
    cases zero : op.divides && m.reg rt == 0 with
    | true =>
      simp only [aluEffect, zero, strict, if_true] at h
      cases h
    | false => simp only [lapse, zero, Bool.false_eq_true, if_false]
  case str rs base offset =>
    obtain ⟨next, _, h⟩ := bind_eq_ok_iff.mp h
    cases allowed : writable m.privileged (m.reg base + offset.signExtend 16) with
    | true => simp [lapse, allowed]
    | false => simp [storeEffect, allowed, strict] at h
  case unknown word => simp [effect, strict] at h
  all_goals rfl

/-- An instruction that strict mode accepts has the same effect under laxer flags. -/
theorem effect_of_strict (strict : m.flags.strict = true) (laxer : m.Laxer f)
    (h : m.effect i = .ok e) : (m.withFlags f).effect i = .ok e := by
  have here := lapse_of_strict strict h
  rw [effect_withFlags here (laxer.lapse here)]
  exact h

theorem checkPc_of_strict (strict : m.flags.strict = true) (laxer : m.Laxer f)
    (h : m.checkPc = .ok ()) : (m.withFlags f).checkPc = .ok () := by
  obtain ⟨runs, code⟩ := checkPc_eq_ok_iff.mp h
  exact checkPc_eq_ok_iff.mpr ⟨executable_mono laxer.privileged runs, fun _ => code strict⟩

theorem apply_withFlags (m : Machine) (e : Effect) (f : Flags) :
    (m.withFlags f).apply e = (m.apply e).withFlags f := by
  rcases e with ⟨pc, _ | ⟨r, v⟩, cond, memory, privilege, calls, warning⟩ <;>
    cases memory <;> cases calls <;> rfl

/-- One instruction: what runs in strict mode runs under laxer flags, and leaves the same machine
but for them. -/
theorem execute_of_strict (strict : m.flags.strict = true) (laxer : m.Laxer f)
    (h : m.execute i = .ok s) : (m.withFlags f).execute i = .ok (s.withFlags f) := by
  obtain ⟨checked, e, he, rfl⟩ := execute_eq_ok_iff.mp h
  refine execute_eq_ok_iff.mpr ⟨checkPc_of_strict strict laxer checked, e, ?_, ?_⟩
  · exact effect_of_strict strict laxer he
  · exact (apply_withFlags m e f).symm

end Flags

end Machine

/-- The operation with a condition that sees these flags in place of those of the machine. Only the
condition of `runWhile` may tell the difference. -/
def Operation.seeing (f : Flags) : Operation → Operation
  | runWhile go => runWhile fun k s => go k (s.withFlags f)
  | op => op

namespace Machine

section Runs
variable {go : Condition} {fuel k : Nat} {m s : Machine} {o : Outcome} {f : Flags}

/-- A step keeps the flags, so a run is strict throughout or nowhere. -/
theorem flags_step (h : m.step = .next s) : s.flags = m.flags := by
  obtain ⟨_, t, ht, rfl⟩ := step_eq_next_iff.mp h
  obtain ⟨_, e, _, rfl⟩ := execute_eq_ok_iff.mp ht
  exact congrArg Core.flags (core_apply m e)

/-- One step: what runs in strict mode runs under laxer flags. Runs follow by induction. -/
theorem step_of_strict (strict : m.flags.strict = true) (laxer : m.Laxer f)
    (h : m.step = .next s) : (m.withFlags f).step = .next (s.withFlags f) := by
  obtain ⟨awake, t, ht, rfl⟩ := step_eq_next_iff.mp h
  exact step_eq_next_iff.mpr ⟨awake, _, execute_of_strict strict laxer ht, rfl⟩

theorem step_halt_withFlags (h : m.step = .halt) (f : Flags) : (m.withFlags f).step = .halt := by
  have halted : m.pc = haltAddr := step_eq_halt_iff.mp h
  exact step_eq_halt_iff.mpr halted

/-- A run that strict mode does not end with a fault ends in the same way under laxer flags. -/
theorem runFrom_of_strict (strict : m.flags.strict = true) (laxer : m.Laxer f)
    (h : runFrom go fuel k m = some o) (ok : o.fault = none) :
    runFrom (fun k s => go k (s.withFlags m.flags)) fuel k (m.withFlags f) =
      some (o.withFlags f) := by
  induction fuel generalizing k m with
  | zero => cases h
  | succ fuel ih =>
    have asked : go k ((m.withFlags f).withFlags m.flags) = go k m := rfl
    rw [runFrom] at h ⊢
    simp only [asked]
    split at h
    · rename_i on
      rw [if_pos on]
      cases hs : m.step with
      | fault g left =>
        simp only [hs, Option.some.injEq] at h
        simp [← h, faulted] at ok
      | halt =>
        simp only [hs, Option.some.injEq] at h
        simp only [step_halt_withFlags hs f, ← h]
        rfl
      | next s =>
        have flags := flags_step hs
        have next := step_of_strict strict laxer hs
        have noted : (s.withFlags f).notes.isBreakpoint (s.withFlags f).pc =
            s.notes.isBreakpoint s.pc := rfl
        simp only [hs] at h
        simp only [next, noted]
        split at h
        · rename_i hit
          rw [if_pos hit, ← Option.some.inj h]
          rfl
        · rename_i miss
          rw [if_neg miss, ← flags]
          exact ih (flags ▸ strict) (by rwa [Laxer, flags]) h
    · rename_i off
      rw [if_neg off, ← Option.some.inj h]
      rfl

theorem runWhile_of_strict (strict : m.flags.strict = true) (laxer : m.Laxer f)
    (h : m.runWhile go fuel = some o) (ok : o.fault = none) :
    (m.withFlags f).runWhile (fun k s => go k (s.withFlags m.flags)) fuel =
      some (o.withFlags f) :=
  runFrom_of_strict (m := m.begin) strict laxer h ok

/-- An operation that strict mode does not end with a fault ends in the same way under laxer
flags: after as many instructions and with the same machine, flags aside. -/
theorem perform_of_strict {op : Operation} (strict : m.flags.strict = true) (laxer : m.Laxer f)
    (h : op.perform fuel m = some o) (ok : o.fault = none) :
    (op.seeing m.flags).perform fuel (m.withFlags f) = some (o.withFlags f) := by
  cases op
  case stepIn =>
    obtain rfl := Option.some.inj h
    cases hs : m.begin.step with
    | halt =>
      have halts : (m.withFlags f).begin.step = .halt := step_halt_withFlags hs f
      simp only [Operation.seeing, Operation.perform, stepIn, hs, halts]
      rfl
    | next s =>
      have next : (m.withFlags f).begin.step = .next (s.withFlags f) :=
        step_of_strict (m := m.begin) strict laxer hs
      simp only [Operation.seeing, Operation.perform, stepIn, hs, next]
      rfl
    | fault g left => simp [stepIn, hs, faulted] at ok
  case eval i =>
    obtain rfl := Option.some.inj h
    cases hx : m.begin.execute i with
    | ok s =>
      have runs : (m.withFlags f).begin.execute i = .ok (s.withFlags f) :=
        execute_of_strict (m := m.begin) strict laxer hx
      simp only [Operation.seeing, Operation.perform, eval_eq, hx, runs]
      rfl
    | error g => simp [eval_eq, hx] at ok
  case stepOut =>
    simp only [Operation.perform, stepOut] at h
    split at h
    · rename_i outside
      obtain rfl := Option.some.inj h
      have outside' : (m.withFlags f).calls.isEmpty = true := outside
      simp only [Operation.seeing, Operation.perform, stepOut, outside', if_true]
      rfl
    · rename_i inside
      have inside' : ¬ (m.withFlags f).calls.isEmpty = true := inside
      simp only [Operation.seeing, Operation.perform, stepOut, if_neg inside']
      exact runWhile_of_strict strict laxer h ok
  all_goals exact runWhile_of_strict strict laxer h ok

end Runs

end Machine

end Lc4
