import Mathlib.Algebra.Group.Int.Defs
import Lc4.Proofs.Accesses
import Lc4.Proofs.Evaluation

/-!
# Results of data instructions

Registers hold words, and data instructions work on the integers that these stand for. A result is
given by a number, of which the word keeps the remainder modulo 2 ^ 16, or bit by bit. Nothing here
depends on whether the destination is one of the sources: all operands are those of the machine
before the instruction.
-/
namespace Lc4

/-- Bit `k` of an integer in two's complement. -/
def bitOf (x : Int) (k : Nat) : Bool :=
  x / 2 ^ k % 2 = 1

/-- How a result is given. -/
inductive Rule
  | number (x : Int)
  | bits (bit : Nat → Bool)

/-- The word that is the result of the rule. -/
def Rule.Gives : Rule → Word → Prop
  | number x, w => (w.toNat : Int) = x % 65536
  | bits bit, w => ∀ k < 16, w.getLsbD k = bit k

/-- Quotients and remainders are those of numbers that are not negative. -/
def AluOp.rule (a b : Int) : AluOp → Rule
  | mul => .number (a * b)
  | sub => .number (a - b)
  | div => .number (if b = 0 then 0 else a / b)
  | mod => .number (if b = 0 then 0 else a % b)
  | or => .bits fun k => bitOf a k || bitOf b k
  | xor => .bits fun k => bitOf a k ^^ bitOf b k

def ShiftOp.rule (a : Word) (n : Nat) : ShiftOp → Rule
  | sll => .number (a.toNat * 2 ^ n)
  | sra => .number (a.toInt / 2 ^ n)
  | srl => .number (a.toNat / 2 ^ n)

namespace Machine

/-- The number that an operand stands for. -/
def number (m : Machine) {n : Nat} : Operand n → Int
  | .imm v => v.toInt
  | .reg r => (m.reg r).toNat

/-- What a data instruction computes. -/
def rule? (m : Machine) : Instr → Option Rule
  | .add _ rs v => some (.number ((m.reg rs).toNat + m.number v))
  | .and _ rs v => some (.bits fun k => bitOf (m.reg rs).toNat k && bitOf (m.number v) k)
  | .alu op _ rs rt => some (op.rule (m.reg rs).toNat (m.reg rt).toNat)
  | .not _ rs => some (.bits fun k => !bitOf (m.reg rs).toNat k)
  | .shift op _ rs n => some (op.rule (m.reg rs) n.toNat)
  | .const _ v => some (.number v.toInt)
  | .hiconst rd v => some (.number (256 * v.toNat + (m.reg rd).toNat % 256))
  | .ldr _ base offset =>
    some (.number (m.mem.get (.ofInt 16 ((m.reg base).toNat + offset.toInt))).toNat)
  | .lea _ v | .lc _ v => some (.number v.toNat)
  | _ => none

end Machine

theorem emod_ediv_two_pow (x : Int) {k : Nat} (hk : k < 16) :
    x % 65536 / 2 ^ k % 2 = x / 2 ^ k % 2 := by
  have split : (65536 : Int) = 2 ^ k * (2 * 2 ^ (15 - k)) := by
    rw [← Int.pow_succ', ← Int.pow_add, show k + (15 - k + 1) = 16 by omega]
    rfl
  have positive : (2 : Int) ^ k ≠ 0 := Int.pow_ne_zero (by decide)
  calc x % 65536 / 2 ^ k % 2
      = (x % 65536 / 2 ^ k + 2 * (2 ^ (15 - k) * (x / 65536))) % 2 := by
        rw [Int.add_mul_emod_self_left]
    _ = (x % 65536 + 2 ^ k * (2 * (2 ^ (15 - k) * (x / 65536)))) / 2 ^ k % 2 := by
        rw [Int.add_mul_ediv_left _ _ positive]
    _ = x / 2 ^ k % 2 := by
        rw [← Int.mul_assoc 2, ← Int.mul_assoc (2 ^ k), ← split, Int.emod_add_mul_ediv]

section Words
variable {w : Word} {x : Int} {k : Nat}

/-- The bits of a word are those of any integer that it is the remainder of. -/
theorem getLsbD_eq_bitOf (h : (w.toNat : Int) = x % 65536) (hk : k < 16) :
    w.getLsbD k = bitOf x k := by
  have value : ((w.toNat / 2 ^ k % 2 : Nat) : Int) = x / 2 ^ k % 2 := by
    rw [← emod_ediv_two_pow x hk, ← h]
    simp
  rw [← BitVec.testBit_toNat, Nat.testBit_eq_decide_div_mod_eq, bitOf, ← value]
  exact decide_eq_decide.mpr (Int.natCast_inj (n := 1)).symm

/-- A word keeps a number that is not too large. -/
theorem toNat_eq_emod (h : (w.toNat : Int) = x) : (w.toNat : Int) = x % 65536 := by
  have below := w.isLt
  omega

theorem getLsbD_eq_bitOf_toNat (w : Word) (hk : k < 16) : w.getLsbD k = bitOf w.toNat k :=
  getLsbD_eq_bitOf (toNat_eq_emod rfl) hk

theorem toNat_signExtend {n : Nat} (v : BitVec n) :
    ((v.signExtend 16).toNat : Int) = v.toInt % 65536 := by
  rw [BitVec.signExtend, BitVec.toNat_ofInt]
  omega

theorem toNat_eq_toInt_emod (w : Word) : (w.toNat : Int) = w.toInt % 65536 := by
  have whole := toNat_signExtend w
  rwa [BitVec.signExtend_eq] at whole

end Words

/-- Each operation gives the number or the bits that its rule says. -/
theorem AluOp.gives_eval (op : AluOp) (a b : Word) :
    (op.rule a.toNat b.toNat).Gives (op.eval a b) := by
  cases op with
  | mul =>
    simp only [rule, eval, Rule.Gives, BitVec.toNat_mul, Int.natCast_emod, Int.natCast_mul]
    rfl
  | sub =>
    simp only [rule, eval, Rule.Gives, BitVec.toNat_sub]
    have := b.isLt
    omega
  | div =>
    refine toNat_eq_emod ?_
    by_cases zero : (b.toNat : Int) = 0
    · rw [if_pos zero]
      have none : b.toNat = 0 := by omega
      simp [eval, none]
    · rw [if_neg zero, eval, BitVec.toNat_udiv, Int.natCast_ediv]
  | mod =>
    refine toNat_eq_emod ?_
    by_cases zero : (b.toNat : Int) = 0
    · have none : b = 0 := BitVec.eq_of_toNat_eq (Int.natCast_inj.mp zero)
      rw [if_pos zero, eval, if_pos none]
      rfl
    · have some : b ≠ 0 := fun none => zero (congrArg (fun b : Word => (b.toNat : Int)) none)
      rw [if_neg zero, eval, if_neg some, BitVec.toNat_umod, Int.natCast_emod]
  | or =>
    intro k hk
    rw [eval, BitVec.getLsbD_or, getLsbD_eq_bitOf_toNat a hk, getLsbD_eq_bitOf_toNat b hk]
  | xor =>
    intro k hk
    rw [eval, BitVec.getLsbD_xor, getLsbD_eq_bitOf_toNat a hk, getLsbD_eq_bitOf_toNat b hk]

theorem ShiftOp.gives_eval (op : ShiftOp) (a : Word) (n : BitVec 4) :
    (op.rule a n.toNat).Gives (op.eval a n) := by
  cases op with
  | sll =>
    simp only [rule, eval, Rule.Gives, BitVec.toNat_shiftLeft, Nat.shiftLeft_eq]
    simp
  | sra =>
    have value : (a.sshiftRight n.toNat).toInt = a.toInt / 2 ^ n.toNat := by
      rw [BitVec.toInt_sshiftRight, Int.shiftRight_eq_div_pow]
      simp
    rw [rule, eval, Rule.Gives, toNat_eq_toInt_emod, value]
  | srl =>
    refine toNat_eq_emod ?_
    rw [eval, BitVec.toNat_ushiftRight, Nat.shiftRight_eq_div_pow]
    simp

namespace Machine
variable {m : Machine} {i : Instr} {e : Effect} {r : Rule}

theorem toNat_operand (m : Machine) {n : Nat} (v : Operand n) :
    ((m.operand v).toNat : Int) = m.number v % 65536 := by
  cases v with
  | imm v => exact toNat_signExtend v
  | reg r => exact toNat_eq_emod rfl

/-- The high byte is put over a low byte that stays. -/
theorem toNat_hiconst (v : BitVec 8) (w : Word) :
    ((v ++ w.extractLsb' 0 8 : Word).toNat : Int) = 256 * v.toNat + w.toNat % 256 := by
  have low : w.toNat % 256 < 2 ^ 8 := Nat.mod_lt _ (by decide)
  rw [BitVec.toNat_append, BitVec.extractLsb'_toNat, Nat.shiftRight_zero,
    ← Nat.shiftLeft_add_eq_or_of_lt low, Nat.shiftLeft_eq]
  omega

theorem ofInt_add_toInt (a : Word) {n : Nat} (offset : BitVec n) :
    BitVec.ofInt 16 (a.toNat + offset.toInt) = a + offset.signExtend 16 := by
  rw [BitVec.ofInt_add, BitVec.ofInt_natCast, BitVec.ofNat_toNat, BitVec.setWidth_eq,
    BitVec.signExtend]

/-- A data instruction writes what its rule gives, read off the effect of each form. -/
theorem gives_of_effect (he : m.effect i = .ok e) (data : m.rule? i = some r) :
    ∃ rd w, e.reg = some (rd, w) ∧ r.Gives w := by
  rw [effect_eq_work he]
  cases i
  case add rd rs v =>
    obtain rfl := Option.some.inj data
    refine ⟨rd, _, rfl, ?_⟩
    rw [Rule.Gives, BitVec.toNat_add]
    have := toNat_operand m v
    omega
  case and rd rs v =>
    obtain rfl := Option.some.inj data
    refine ⟨rd, _, rfl, fun k hk => ?_⟩
    rw [BitVec.getLsbD_and, getLsbD_eq_bitOf_toNat _ hk, getLsbD_eq_bitOf (toNat_operand m v) hk]
  case alu op rd rs rt =>
    obtain rfl := Option.some.inj data
    exact ⟨rd, _, rfl, op.gives_eval _ _⟩
  case not rd rs =>
    obtain rfl := Option.some.inj data
    refine ⟨rd, _, rfl, fun k hk => ?_⟩
    rw [BitVec.getLsbD_not, getLsbD_eq_bitOf_toNat _ hk]
    simp [hk]
  case shift op rd rs n =>
    obtain rfl := Option.some.inj data
    exact ⟨rd, _, rfl, op.gives_eval _ n⟩
  case const rd v =>
    obtain rfl := Option.some.inj data
    exact ⟨rd, _, rfl, toNat_signExtend v⟩
  case hiconst rd v =>
    obtain rfl := Option.some.inj data
    exact ⟨rd, _, rfl, toNat_eq_emod (toNat_hiconst v _)⟩
  case ldr rd base offset =>
    obtain rfl := Option.some.inj data
    refine ⟨rd, _, rfl, toNat_eq_emod ?_⟩
    rw [ofInt_add_toInt]
  case lea rd v | lc rd v =>
    obtain rfl := Option.some.inj data
    exact ⟨rd, v, rfl, toNat_eq_emod rfl⟩
  all_goals cases data

/-- An instruction that has run leaves the result of its rule in its destination, also where that is
one of its sources, and all other registers as they were. -/
theorem attempt_registers {o : Outcome} (tried : m.Attempt i o) (ran : o.fault = none) :
    (∀ r, m.rule? i = some r → ∃ rd, i.destination? = some rd ∧ r.Gives (o.machine.reg rd)) ∧
      (∀ q, i.destination? ≠ some q → o.machine.reg q = m.reg q) ∧
      ∀ op rd rs n, i = .shift op rd rs n → n.toNat ≤ 15 := by
  have valid := tried.valid ran
  refine ⟨fun r data => ?_, fun q other => ?_, fun _ _ _ n _ => Nat.le_of_lt_succ n.isLt⟩
  · obtain ⟨e, he, core⟩ := valid.core
    obtain ⟨rd, w, written, gives⟩ := gives_of_effect he data
    have regs : o.machine.regs = e.regsAfter m.regs := congrArg Core.regs core
    refine ⟨rd, by rw [destination?_of_effect he, written]; rfl, ?_⟩
    rw [reg, regs, Effect.read_regsAfter written]
    exact gives
  · exact Classical.byContradiction fun differs => other (valid.writesReg_of_ne differs)

/-- A shift of a negative word by its whole length, onto itself. -/
theorem attempt_registers_onto_source :
    let m := { new .none with regs := RegFile.zero.write 0 0x8001 }
    let o := m.eval (.shift .sra 0 0 15)
    o.fault = none ∧ ((o.machine.reg 0).toNat : Int) = -32767 / 2 ^ 15 % 65536 ∧
      o.machine.reg 1 = m.reg 1 := by
  intro m o
  have tried : m.Attempt (.shift .sra 0 0 15) o := .evaluated
  have ran : o.fault = none := by decide +kernel
  obtain ⟨result, others, -⟩ := attempt_registers tried ran
  obtain ⟨rd, destination, gives⟩ := result _ rfl
  obtain rfl := Option.some.inj destination
  exact ⟨ran, gives, others 1 (by decide)⟩

end Machine

end Lc4
