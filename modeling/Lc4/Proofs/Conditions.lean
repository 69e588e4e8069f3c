import Lc4.Proofs.Arithmetic
import Lc4.Proofs.ProgramCounter

/-!
# Condition codes

An instruction sets the condition code or leaves it alone. It sets it to the order of two integers:
of the two that it compares, or of its result, as a signed number, and zero. No difference is taken,
so none overflows. A branch asks whether the code is among the flags of its condition.
-/
namespace Lc4

/-- How an integer lies to another. -/
def Cond.ofOrder (a b : Int) : Cond :=
  if a < b then negative else if a = b then zero else positive

theorem Cond.compare_eq_ofOrder (s : Signedness) (a b : Word) :
    compare s a b = ofOrder (s.value a) (s.value b) := by
  simp only [compare, ofOrder, Ord.compare, compareOfLessAndEq]
  split
  · rfl
  · split <;> rfl

theorem Cond.ofWord_eq_ofOrder (w : Word) : ofWord w = ofOrder w.toInt 0 :=
  compare_eq_ofOrder .signed w 0

/-- An immediate value is extended to a word with its own value. -/
theorem Signedness.value_extend (v : BitVec 7) :
    signed.value (v.signExtend 16) = signed.value v ∧
      unsigned.value (v.setWidth 16) = unsigned.value v := by
  constructor
  · exact BitVec.toInt_signExtend_of_le (by decide)
  · exact congrArg Nat.cast (BitVec.toNat_setWidth_of_le (by decide))

namespace Machine

/-- The numbers whose order is the condition code after an instruction that sets it, which has taken
`m` to `s`. -/
def ordered? (m s : Machine) : Instr → Option (Int × Int)
  | .cmp reading rs rt => some (reading.value (m.reg rs), reading.value (m.reg rt))
  | .cmpImm reading rs v => some (reading.value (m.reg rs), reading.value v)
  | i => i.destination?.map fun rd => ((s.reg rd).toInt, 0)

section Codes
variable {m s : Machine} {i : Instr} {e : Effect}

theorem cond_of_silent (he : m.effect i = .ok e) (silent : i.setsCond = false) : e.cond = none := by
  rw [effect_eq_work he]
  cases i
  case jmp target => cases target <;> rfl
  case nop | br | str | rti | ret | unknown => rfl
  all_goals cases silent

/-- What writes a register sets the condition to the sign of what it writes. -/
theorem cond_of_destination {rd : Reg} (he : m.effect i = .ok e)
    (writes : i.destination? = some rd) :
    ∃ w, e.reg = some (rd, w) ∧ e.cond = some (.ofOrder w.toInt 0) := by
  rw [effect_eq_work he]
  simp only [← Cond.ofWord_eq_ofOrder]
  cases i
  case nop | br | cmp | cmpImm | jmp | ret | rti | str | unknown => cases writes
  all_goals
    obtain rfl := Option.some.inj writes
    exact ⟨_, rfl, rfl⟩

theorem cond_of_cmp {reading : Signedness} {rs rt : Reg}
    (he : m.effect (.cmp reading rs rt) = .ok e) :
    e.cond = some (.ofOrder (reading.value (m.reg rs)) (reading.value (m.reg rt))) := by
  rw [effect_eq_work he, ← Cond.compare_eq_ofOrder]
  rfl

theorem cond_of_cmpImm {reading : Signedness} {rs : Reg} {v : BitVec 7}
    (he : m.effect (.cmpImm reading rs v) = .ok e) :
    e.cond = some (.ofOrder (reading.value (m.reg rs)) (reading.value v)) := by
  rw [effect_eq_work he]
  obtain ⟨signed, unsigned⟩ := Signedness.value_extend v
  cases reading with
  | signed => rw [← signed, ← Cond.compare_eq_ofOrder]; rfl
  | unsigned => rw [← unsigned, ← Cond.compare_eq_ofOrder]; rfl

theorem ordered?_of_destination {rd : Reg} (writes : i.destination? = some rd) :
    m.ordered? s i = some ((s.reg rd).toInt, 0) := by
  cases i
  case cmp | cmpImm => cases writes
  all_goals exact congrArg (Option.map fun rd => ((s.reg rd).toInt, (0 : Int))) writes

/-- What sets the code without a result is a compare. -/
theorem compares_of_destination?_eq_none (sets : i.setsCond = true)
    (keeps : i.destination? = none) :
    (∃ reading rs rt, i = .cmp reading rs rt) ∨ ∃ reading rs v, i = .cmpImm reading rs v := by
  cases i
  case cmp reading rs rt => exact .inl ⟨reading, rs, rt, rfl⟩
  case cmpImm reading rs v => exact .inr ⟨reading, rs, v, rfl⟩
  case nop | br | str | rti | jmp | ret | unknown => cases sets
  all_goals cases keeps

end Codes
end Machine

namespace Executed
variable {x : Executed}

/-- A silent instruction keeps the code. -/
theorem Valid.cond_of_silent (valid : x.Valid) (silent : x.instr.setsCond = false) :
    x.after.psr.cond = x.before.psr.cond := by
  obtain ⟨e, he, core⟩ := valid.core
  have psr : x.after.psr = e.psrAfter x.before.psr := congrArg Core.psr core
  rw [psr, Effect.psrAfter, Machine.cond_of_silent he silent]
  rfl

/-- Any other instruction sets the code to the order of the two integers that it is about. -/
theorem Valid.cond_of_sets (valid : x.Valid) (sets : x.instr.setsCond = true) :
    ∃ a b, x.before.ordered? x.after x.instr = some (a, b) ∧ x.after.psr.cond = .ofOrder a b := by
  obtain ⟨e, he, core⟩ := valid.core
  have psr : x.after.psr = e.psrAfter x.before.psr := congrArg Core.psr core
  rw [psr, Effect.psrAfter]
  cases writes : x.instr.destination? with
  | some rd =>
    obtain ⟨w, written, cond⟩ := Machine.cond_of_destination he writes
    have regs : x.after.regs = e.regsAfter x.before.regs := congrArg Core.regs core
    refine ⟨w.toInt, 0, ?_, by rw [cond]; rfl⟩
    rw [Machine.ordered?_of_destination writes, Machine.reg, regs, Effect.read_regsAfter written]
  | none =>
    rcases Machine.compares_of_destination?_eq_none sets writes with
      ⟨reading, rs, rt, shape⟩ | ⟨reading, rs, v, shape⟩
    · rw [shape] at he ⊢
      exact ⟨_, _, rfl, by rw [Machine.cond_of_cmp he]; rfl⟩
    · rw [shape] at he ⊢
      exact ⟨_, _, rfl, by rw [Machine.cond_of_cmpImm he]; rfl⟩

end Executed

namespace Machine

section Branches
variable {s : Machine} {c : BitVec 8} {offset : BitVec 9} {o : Outcome}

/-- A branch that may run is refused exactly if its goal is no address. -/
theorem fault_br_eq_none_iff (tried : s.Attempt (.br c offset) o) (checked : s.checkPc = .ok ())
    (inside : s.pc ≠ 0xFFFF) :
    o.fault = none ↔ 0 ≤ s.branchGoal c offset ∧ s.branchGoal c offset ≤ 65535 := by
  constructor
  · intro ran
    have there : (o.machine.pc.toNat : Int) = s.branchGoal c offset := tried.toNat_pc ran rfl
    have below := o.machine.pc.isLt
    omega
  · rintro ⟨low, high⟩
    have there : ((BitVec.ofInt 16 (s.branchGoal c offset)).toNat : Int) =
        s.branchGoal c offset := by
      rw [BitVec.toNat_ofInt]
      omega
    have he : s.effect (.br c offset) = .ok (.goto (.ofInt 16 (s.branchGoal c offset))) :=
      effect_br_eq_ok_iff.mpr ⟨inside, there, rfl⟩
    exact (tried.of_execute (execute_eq_ok_iff.mpr ⟨checked, _, he, rfl⟩)).1

end Branches

/-- An instruction that has run leaves the condition code alone unless it is one of those that set
it. These leave the order of two numbers, and a branch that follows goes by its offset exactly if
its condition has the flag of that order. -/
theorem attempt_cond {m : Machine} {i : Instr} {o : Outcome} (tried : m.Attempt i o)
    (ran : o.fault = none) :
    (i.setsCond = false → o.machine.psr.cond = m.psr.cond) ∧
      (i.setsCond = true → ∃ a b, m.ordered? o.machine i = some (a, b) ∧
        o.machine.psr.cond = .ofOrder a b) ∧
      ∀ c offset o', o.machine.Attempt (.br c offset) o' →
        (o'.fault = none → (o'.machine.pc.toNat : Int) = o.machine.branchGoal c offset) ∧
        (o.machine.checkPc = .ok () → o.machine.pc ≠ 0xFFFF → (o'.fault = none ↔
          0 ≤ o.machine.branchGoal c offset ∧ o.machine.branchGoal c offset ≤ 65535)) := by
  have valid := tried.valid ran
  refine ⟨valid.cond_of_silent, valid.cond_of_sets, fun c offset o' branch => ⟨?_, ?_⟩⟩
  · exact fun ran' => branch.toNat_pc ran' rfl
  · exact fault_br_eq_none_iff branch

/-- The difference of these numbers is no signed word: their order is negative nevertheless. -/
theorem attempt_cond_far_apart :
    let m := { new .none with regs := (RegFile.zero.write 1 0x8000).write 2 0x7FFF }
    let o := m.eval (.cmp .signed 1 2)
    let branch := o.machine.eval (.br 4 0x1FE)
    o.fault = none ∧ o.machine.psr.cond = .negative ∧ branch.fault = none ∧
      (branch.machine.pc.toNat : Int) = 0x8200 := by
  intro m o branch
  have ran : o.fault = none := by decide +kernel
  obtain ⟨-, sets, follows⟩ := attempt_cond (m := m) (i := .cmp .signed 1 2) .evaluated ran
  obtain ⟨a, b, ordered, cond⟩ := sets rfl
  have numbers : m.ordered? o.machine (.cmp .signed 1 2) = some (-32768, 32767) := by
    decide +kernel
  obtain ⟨rfl, rfl⟩ := Prod.mk.inj (Option.some.inj (numbers.symm.trans ordered))
  have taken : branch.fault = none := by decide +kernel
  have goal : o.machine.branchGoal 4 0x1FE = 0x8200 := by decide +kernel
  exact ⟨ran, cond, taken, ((follows 4 0x1FE branch .evaluated).1 taken).trans goal⟩

end Machine

end Lc4
