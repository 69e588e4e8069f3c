import Lc4.Proofs.Trace

/-!
# Where instructions go

An instruction that neither branches, jumps, calls nor returns goes on to the next address. A call
by an immediate value goes to one of the 2048 addresses in a half of the address space that are
multiples of 16. A value that is not negative names an address in the half of the caller; with a
negative one the call goes to the upper half from everywhere.
-/
namespace Lc4

namespace Instr

/-- Whether an instruction may go elsewhere than to the next address. -/
def transfers : Instr → Bool
  | br _ _ | jsr _ | jmp _ | ret | rti | trap _ => true
  | _ => false

theorem field_of_decode_jsr {w : Word} {v : BitVec 11} (h : decode w = jsr (.imm v)) :
    v = w.setWidth 11 := by
  simp only [decode] at h
  repeat' split at h
  all_goals cases h
  rfl

end Instr

/-- Where a call by an immediate value goes. -/
def callTarget (pc : Word) (v : BitVec 11) : Word :=
  (pc &&& (0x8000 : Word)) ||| (v.signExtend 16 <<< 4)

section CallTarget
variable (pc : Word) (v : BitVec 11)

theorem callTarget_eq : callTarget pc v =
    (pc &&& BitVec.twoPow 16 15) ||| (v.signExtend 16 <<< 4) := by
  have half : (0x8000 : Word) = BitVec.twoPow 16 15 := by decide
  rw [callTarget, half]

/-- Targets of calls are multiples of 16. -/
theorem low_callTarget : (callTarget pc v).extractLsb' 0 4 = 0 := by
  rw [callTarget_eq]
  ext i hi
  have below : i ≠ 15 := by omega
  simp [hi, Ne.symm below]

theorem middle_callTarget : (callTarget pc v).extractLsb' 4 11 = v := by
  rw [callTarget_eq]
  ext i hi
  have inside : 4 + i < 16 := by omega
  have below : 4 + i ≠ 15 := by omega
  have shifted : ¬ 4 + i < 4 := by omega
  simp [inside, below, shifted, BitVec.getElem_signExtend, hi]

/-- The sign of the field reaches the highest bit, which selects the half. -/
theorem msb_callTarget : (callTarget pc v).msb = (pc.msb || v.msb) := by
  rw [callTarget_eq]
  simp [BitVec.msb_eq_getLsbD_last, BitVec.getElem_signExtend]

end CallTarget

namespace Machine
variable {m s : Machine} {i : Instr} {e : Effect}

/-- What does not transfer control has an effect only if there is a next address, and goes there. -/
theorem effect_proceeds (stays : i.transfers = false) (h : m.effect i = .ok e) :
    m.pc ≠ 0xFFFF ∧ e.pc = m.pc + 1 := by
  cases i
  case br | jsr | jmp | ret | rti | trap => cases stays
  all_goals simp only [effect, bind_eq_ok_iff, pure_eq_ok_iff, fallThrough_eq_ok_iff] at h
  case alu =>
    obtain ⟨next, ⟨inside, rfl⟩, h⟩ := h
    unfold aluEffect at h
    repeat' split at h
    all_goals cases h
    all_goals exact ⟨inside, rfl⟩
  case str =>
    obtain ⟨next, ⟨inside, rfl⟩, h⟩ := h
    unfold storeEffect at h
    repeat' split at h
    all_goals cases h
    all_goals exact ⟨inside, rfl⟩
  case unknown =>
    split at h
    · cases h
    · simp only [bind_eq_ok_iff, pure_eq_ok_iff, fallThrough_eq_ok_iff] at h
      obtain ⟨next, ⟨inside, rfl⟩, rfl⟩ := h
      exact ⟨inside, rfl⟩
  all_goals
    obtain ⟨next, ⟨inside, rfl⟩, rfl⟩ := h
    exact ⟨inside, rfl⟩

theorem effect_jsr_imm {v : BitVec 11} (h : m.effect (.jsr (.imm v)) = .ok e) :
    e.pc = callTarget m.pc v ∧ e.reg = some (.link, m.pc + 1) := by
  simp only [effect, bind_eq_ok_iff, pure_eq_ok_iff, fallThrough_eq_ok_iff] at h
  obtain ⟨next, ⟨_, rfl⟩, rfl⟩ := h
  exact ⟨rfl, rfl⟩

/-- A call by an immediate value goes to a multiple of 16 that holds the value in bits 14 to 4, and
leaves its return address in the link register. It stays in the half of the address space that it
was made from exactly if the value is not negative or that half is the upper one. -/
theorem execute_jsr {v : BitVec 11} (runs : m.execute (.jsr (.imm v)) = .ok s) :
    s.pc.extractLsb' 0 4 = 0 ∧ s.pc.extractLsb' 4 11 = v ∧ s.reg .link = m.pc + 1 ∧
    s.pc.msb = (m.pc.msb || v.msb) ∧
    (s.pc.msb = m.pc.msb ↔ 0 ≤ v.toInt ∨ m.pc.msb = true) ∧
    (m.fetch = .jsr (.imm v) → v = (m.mem.get m.pc).setWidth 11) := by
  obtain ⟨_, e, he, rfl⟩ := execute_eq_ok_iff.mp runs
  obtain ⟨target, link⟩ := effect_jsr_imm he
  have core := core_apply m e
  have pc : (m.apply e).pc = callTarget m.pc v := (congrArg Core.pc core).trans target
  have regs : (m.apply e).regs = e.regsAfter m.regs := congrArg Core.regs core
  have half : (m.apply e).pc.msb = (m.pc.msb || v.msb) := by
    rw [pc]
    exact msb_callTarget m.pc v
  refine ⟨?_, ?_, ?_, half, ?_, Instr.field_of_decode_jsr⟩
  · rw [pc]
    exact low_callTarget m.pc v
  · rw [pc]
    exact middle_callTarget m.pc v
  · rw [reg, regs, Effect.regsAfter, link]
    exact RegFile.read_write_self _ _ _
  · have sign : 0 ≤ v.toInt ↔ v.msb = false := by
      rw [BitVec.msb_eq_toInt, decide_eq_false_iff_not, Int.not_lt]
    rw [half, sign]
    cases m.pc.msb <;> simp

/-- With the value -1, whose call from the last address of the lower half leaves it. -/
theorem execute_jsr_last_field :
    let m := { new .none with pc := 0x7FFF, mem := Memory.zero.set 0x7FFF 0x4FFF }
    m.fetch = .jsr (.imm 0x7FF) ∧ ∃ s, m.execute (.jsr (.imm 0x7FF)) = .ok s ∧
      s.pc.extractLsb' 0 4 = 0 ∧ s.pc.extractLsb' 4 11 = (0x7FF : BitVec 11) ∧
      s.reg .link = 0x8000 ∧ s.pc.msb = true ∧ s.pc.msb ≠ m.pc.msb := by
  intro m
  have read : m.fetch = .jsr (.imm 0x7FF) := by decide +kernel
  obtain ⟨s, runs⟩ : ∃ s, m.execute (.jsr (.imm 0x7FF)) = .ok s := ⟨_, rfl⟩
  obtain ⟨low, middle, link, half, stays, _⟩ := execute_jsr runs
  refine ⟨read, s, runs, low, middle, link, half.trans (by decide), ?_⟩
  rw [ne_eq, stays]
  decide

/-- A call with a negative value from the first address of the lower half ends in the upper one. -/
theorem execute_jsr_leaves_half :
    let m := { new .none with pc := 0, mem := Memory.zero.set 0 0x4FFF }
    m.fetch = .jsr (.imm 0x7FF) ∧ ∃ s, m.execute m.fetch = .ok s ∧
      s.pc = 0xFFF0 ∧ s.pc.msb ≠ m.pc.msb := by
  intro m
  have read : m.fetch = .jsr (.imm 0x7FF) := by decide +kernel
  rw [read]
  exact ⟨rfl, _, rfl, by decide +kernel, by decide +kernel⟩

end Machine

end Lc4
