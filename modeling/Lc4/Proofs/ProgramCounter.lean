import Lc4.Proofs.Evaluation
import Lc4.Proofs.PrivilegeEntry
import Lc4.Proofs.Targets

/-!
# Arithmetic of the program counter

Addresses are added up as integers, and what is no address is a fault and not a wrapped address.
Two things can leave the address space: an instruction at the last address, unless it goes to the
address in a register, and the distance of a jump or of a branch that is taken. The fault names the
program counter and the number that was no address.
-/
namespace Lc4

/-- The bit of a branch condition that stands for a condition code. -/
def Cond.flag : Cond → Nat
  | negative => 2
  | zero => 1
  | positive => 0

/-- A branch is taken if its condition has the flag that is set. -/
theorem Psr.takes_condFlags (p : Psr) (c : BitVec 8) :
    p.takes (Instr.condFlags c) = c.getLsbD p.cond.flag := by
  have masked : ∀ (m : BitVec 3) (cond : Cond), (m &&& cond.mask != 0) = m.getLsbD cond.flag := by
    intro m cond
    revert m
    cases cond <;> decide
  rw [takes, masked, Instr.condFlags, BitVec.getLsbD_setWidth]
  cases p.cond <;> rfl

/-- Whether an instruction needs an address after its own. Returns and jumps to the address in a
register do without. -/
def Instr.needsNext : Instr → Bool
  | jmp (.reg _) | ret | rti => false
  | _ => true

namespace Machine

/-- The distance from the next address that a jump goes, or a branch that is taken. -/
def distance? (m : Machine) : Instr → Option Int
  | .br c offset => if c.getLsbD m.psr.cond.flag then some offset.toInt else none
  | .jmp (.imm v) => some v.toInt
  | _ => none

/-- Where a branch goes: by its offset if the condition code is among the flags of its condition. -/
def branchGoal (m : Machine) (c : BitVec 8) (offset : BitVec 9) : Int :=
  m.pc.toNat + 1 + if c.getLsbD m.psr.cond.flag then offset.toInt else 0

/-- The instruction would go to `t`, which is no address. -/
def Overruns (m : Machine) (i : Instr) (t : Int) : Prop :=
  (i.needsNext = true ∧ m.pc.toNat = 65535 ∧ t = 65536) ∨
    (m.pc.toNat < 65535 ∧ ∃ d, m.distance? i = some d ∧ t = m.pc.toNat + 1 + d ∧
      ¬ (0 ≤ t ∧ t ≤ 65535))

/-- Where an instruction goes, if it meets no fault. Calls by an immediate value are left out. -/
def goal? (m : Machine) : Instr → Option Int
  | .br c offset => some (m.branchGoal c offset)
  | .jmp (.imm v) => some (m.pc.toNat + 1 + v.toInt)
  | .jsr (.reg r) | .jmp (.reg r) => some (m.reg r).toNat
  | .ret | .rti => some (m.reg .link).toNat
  | .trap v => some (32768 + v.toNat)
  | .jsr (.imm _) => none
  | _ => some (m.pc.toNat + 1)

section Counter
variable {m : Machine} {i : Instr} {e : Effect} {p : Word} {t : Int}

theorem pc_eq_last_iff : m.pc = 0xFFFF ↔ m.pc.toNat = 65535 :=
  (BitVec.toNat_inj (y := 0xFFFF)).symm

theorem toNat_next (inside : m.pc ≠ 0xFFFF) :
    ((m.pc + 1).toNat : Int) = m.pc.toNat + 1 ∧ m.pc.toNat < 65535 := by
  have below := m.pc.isLt
  rw [ne_eq, pc_eq_last_iff] at inside
  rw [BitVec.toNat_add]
  simp
  omega

section Relative
variable {base a : Word} {n : Nat} {offset : BitVec n}

/-- A distance leads to the address that is the sum as an integer. -/
theorem relative_eq_ok_iff :
    m.relative base offset = .ok a ↔ (a.toNat : Int) = base.toNat + offset.toInt := by
  simp only [relative]
  split
  case isTrue inside =>
    have value : ((BitVec.ofInt 16 (base.toNat + offset.toInt)).toNat : Int) =
        base.toNat + offset.toInt := by
      rw [BitVec.toNat_ofInt]
      omega
    constructor
    · intro there
      obtain rfl := Except.ok.inj there
      exact value
    · intro there
      exact congrArg Except.ok (BitVec.eq_of_toNat_eq (Int.natCast_inj.mp (value.trans there.symm)))
  case isFalse outside =>
    constructor
    · exact nofun
    · intro there
      have below := a.isLt
      exact absurd ⟨by omega, by omega⟩ outside

/-- A distance is refused exactly if the sum is no address, and the fault names the sum. -/
theorem relative_eq_error_iff {f : Fault} : m.relative base offset = .error f ↔
    ¬ (0 ≤ base.toNat + offset.toInt ∧ base.toNat + offset.toInt ≤ 65535) ∧
      f = .pcOutOfBounds m.pc (base.toNat + offset.toInt) := by
  simp only [relative]
  split <;> simp_all [eq_comm]

end Relative

/-- What needs no next address meets no fault. -/
theorem exists_effect (absolute : i.needsNext = false) : ∃ e, m.effect i = .ok e := by
  cases i
  case jmp target =>
    cases target with
    | imm => cases absolute
    | reg r => exact ⟨_, rfl⟩
  case ret | rti => exact ⟨_, rfl⟩
  all_goals cases absolute

theorem not_takes_of_near {c : BitVec 8} {offset : BitVec 9}
    (near : m.distance? (.br c offset) = none) : ¬ m.psr.takes (Instr.condFlags c) = true := by
  rw [Psr.takes_condFlags]
  intro taken
  simp [distance?, taken] at near

/-- What goes no distance asks for the next address first, and then meets only other faults. -/
theorem effect_eq_bind (next : i.needsNext = true) (near : m.distance? i = none)
    (known : m.flags.strict = true → ∀ w, i ≠ .unknown w) :
    ∃ rest : Word → Except Fault Effect, m.effect i = m.fallThrough >>= rest ∧
      ∀ a p t, rest a ≠ .error (.pcOutOfBounds p t) := by
  cases i
  case ret | rti => cases next
  case jmp target =>
    cases target with
    | imm => cases near
    | reg r => cases next
  case br c offset =>
    refine ⟨_, rfl, fun a p t h => ?_⟩
    rw [if_neg (not_takes_of_near near)] at h
    cases h
  case alu =>
    refine ⟨_, rfl, fun a p t h => ?_⟩
    unfold aluEffect at h
    repeat' split at h
    all_goals cases h
  case str =>
    refine ⟨_, rfl, fun a p t h => ?_⟩
    unfold storeEffect at h
    repeat' split at h
    all_goals cases h
  case unknown w =>
    have lenient : ¬ m.flags.strict = true := fun strict => known strict w rfl
    simp only [effect, if_neg lenient]
    exact ⟨_, rfl, fun _ _ _ => pure_ne_error⟩
  case jsr target => cases target <;> exact ⟨_, rfl, fun _ _ _ => pure_ne_error⟩
  all_goals exact ⟨_, rfl, fun _ _ _ => pure_ne_error⟩

/-- What goes a distance goes on from the next address. -/
theorem effect_of_distance {d : Int} (far : m.distance? i = some d) :
    ∃ (n : Nat) (offset : BitVec n), d = offset.toInt ∧ m.effect i = m.fallThrough >>= fun next =>
      m.relative next offset >>= fun a => pure (.goto a) := by
  cases i
  case br c offset =>
    by_cases taken : c.getLsbD m.psr.cond.flag = true
    · simp only [distance?, if_pos taken, Option.some.injEq] at far
      simp only [effect, Psr.takes_condFlags, if_pos taken]
      exact ⟨9, offset, far.symm, rfl⟩
    · simp only [distance?, if_neg taken] at far
      cases far
  case jmp target =>
    cases target with
    | imm v => exact ⟨11, v, (Option.some.inj far).symm, rfl⟩
    | reg r => cases far
  all_goals cases far

theorem needsNext_of_distance {d : Int} (far : m.distance? i = some d) : i.needsNext = true := by
  cases i
  case ret | rti => cases far
  case jmp target =>
    cases target with
    | imm => rfl
    | reg r => cases far
  all_goals rfl

/-- What goes a distance overruns from the last address or where the distance leads out. -/
theorem effect_overruns_iff {d : Int} (far : m.distance? i = some d) :
    m.effect i = .error (.pcOutOfBounds p t) ↔ p = m.pc ∧ m.Overruns i t := by
  obtain ⟨n, offset, rfl, he⟩ := effect_of_distance far
  rw [he, bind_eq_error_iff]
  constructor
  · rintro (stuck | ⟨next, falls, h⟩)
    · obtain ⟨last, fault⟩ := fallThrough_eq_error_iff.mp stuck
      obtain ⟨rfl, rfl⟩ := Fault.pcOutOfBounds.inj fault
      exact ⟨rfl, .inl ⟨needsNext_of_distance far, pc_eq_last_iff.mp last, rfl⟩⟩
    · obtain ⟨inside, rfl⟩ := fallThrough_eq_ok_iff.mp falls
      obtain ⟨value, below⟩ := toNat_next inside
      rcases bind_eq_error_iff.mp h with refused | ⟨a, _, h⟩
      · obtain ⟨outside, fault⟩ := relative_eq_error_iff.mp refused
        obtain ⟨rfl, rfl⟩ := Fault.pcOutOfBounds.inj fault
        rw [value] at outside ⊢
        exact ⟨rfl, .inr ⟨below, _, far, rfl, outside⟩⟩
      · cases h
  · rintro ⟨rfl, ⟨_, last, rfl⟩ | ⟨below, d, far', rfl, outside⟩⟩
    · exact .inl (fallThrough_eq_error_iff.mpr ⟨pc_eq_last_iff.mpr last, rfl⟩)
    · obtain rfl := Option.some.inj (far.symm.trans far')
      have inside : m.pc ≠ 0xFFFF := fun last => by
        have := pc_eq_last_iff.mp last
        omega
      refine .inr ⟨m.pc + 1, fallThrough_eq_ok_iff.mpr ⟨inside, rfl⟩, ?_⟩
      refine bind_eq_error_iff.mpr (.inl (relative_eq_error_iff.mpr ?_))
      rw [(toNat_next inside).1]
      exact ⟨outside, rfl⟩

/-- An instruction that is known where strictness asks for that leaves the address space exactly if
it overruns. Those that go a distance and those that go on are treated apart. -/
theorem effect_eq_pcOutOfBounds_iff (known : m.flags.strict = true → ∀ w, i ≠ .unknown w) :
    m.effect i = .error (.pcOutOfBounds p t) ↔ p = m.pc ∧ m.Overruns i t := by
  cases far : m.distance? i with
  | some d => exact effect_overruns_iff far
  | none =>
    cases next : i.needsNext with
    | false =>
      obtain ⟨e, he⟩ := exists_effect (m := m) next
      simp [he, Overruns, next, far]
    | true =>
      obtain ⟨rest, he, harmless⟩ := effect_eq_bind next far known
      rw [he, bind_eq_error_iff, fallThrough_eq_error_iff, pc_eq_last_iff]
      simp [harmless, Overruns, next, far, and_left_comm]

/-- What goes a distance goes it from the next address. -/
theorem toNat_pc_of_distance {d : Int} (far : m.distance? i = some d) (he : m.effect i = .ok e) :
    (e.pc.toNat : Int) = m.pc.toNat + 1 + d := by
  obtain ⟨n, offset, rfl, bound⟩ := effect_of_distance far
  simp only [bound, bind_eq_ok_iff, pure_eq_ok_iff, fallThrough_eq_ok_iff] at he
  obtain ⟨_, ⟨inside, rfl⟩, a, there, rfl⟩ := he
  rw [← (toNat_next inside).1]
  exact relative_eq_ok_iff.mp there

/-- A branch has an effect exactly if its goal is an address, and that effect is to go there. -/
theorem effect_br_eq_ok_iff {c : BitVec 8} {offset : BitVec 9} :
    m.effect (.br c offset) = .ok e ↔
      m.pc ≠ 0xFFFF ∧ (e.pc.toNat : Int) = m.branchGoal c offset ∧ e = .goto e.pc := by
  simp only [effect, branchGoal, bind_eq_ok_iff, fallThrough_eq_ok_iff, Psr.takes_condFlags]
  by_cases taken : c.getLsbD m.psr.cond.flag = true
  · simp only [if_pos taken, bind_eq_ok_iff, pure_eq_ok_iff, relative_eq_ok_iff]
    constructor
    · rintro ⟨_, ⟨inside, rfl⟩, a, there, rfl⟩
      rw [(toNat_next inside).1] at there
      exact ⟨inside, there, rfl⟩
    · rintro ⟨inside, there, form⟩
      rw [← (toNat_next inside).1] at there
      exact ⟨m.pc + 1, ⟨inside, rfl⟩, e.pc, there, form.symm⟩
  · simp only [if_neg taken, pure_eq_ok_iff, Int.add_zero]
    constructor
    · rintro ⟨_, ⟨inside, rfl⟩, rfl⟩
      exact ⟨inside, (toNat_next inside).1, rfl⟩
    · rintro ⟨inside, there, form⟩
      rw [← (toNat_next inside).1, Int.natCast_inj] at there
      rw [form, BitVec.eq_of_toNat_eq there]
      exact ⟨m.pc + 1, ⟨inside, rfl⟩, rfl⟩

/-- An instruction that meets no fault comes to its goal. -/
theorem toNat_pc_of_effect {a : Int} (he : m.effect i = .ok e) (goal : m.goal? i = some a) :
    (e.pc.toNat : Int) = a := by
  cases i
  case ret | rti =>
    obtain rfl := pure_eq_ok_iff.mp he
    exact Option.some.inj goal
  case trap v =>
    rw [(effect_trap he).2.1, toNat_vector]
    exact Option.some.inj goal
  case jsr target =>
    cases target with
    | imm => cases goal
    | reg r =>
      simp only [effect, bind_eq_ok_iff, pure_eq_ok_iff] at he
      obtain ⟨_, _, rfl⟩ := he
      exact Option.some.inj goal
  case jmp target =>
    cases target with
    | imm v =>
      rw [toNat_pc_of_distance rfl he]
      exact Option.some.inj goal
    | reg r =>
      obtain rfl := pure_eq_ok_iff.mp he
      rw [← Option.some.inj goal]
      by_cases link : r = Reg.link
      · rw [if_pos link, link]
        rfl
      · rw [if_neg link]
        rfl
  case br c offset =>
    rw [← Option.some.inj goal]
    exact (effect_br_eq_ok_iff.mp he).2.1
  all_goals
    obtain ⟨inside, pc⟩ := effect_proceeds rfl he
    rw [pc, (toNat_next inside).1]
    exact Option.some.inj goal

/-- Past the check of the program counter, only the effect can be refused. -/
theorem execute_eq_error_iff {f : Fault} (checked : m.checkPc = .ok ()) :
    m.execute i = .error f ↔ m.effect i = .error f := by
  rw [execute_eq, checked]
  cases m.effect i <;> simp [bind, Except.bind, Except.map]

theorem Attempt.toNat_pc {o : Outcome} {a : Int} (tried : m.Attempt i o) (ran : o.fault = none)
    (goal : m.goal? i = some a) : (o.machine.pc.toNat : Int) = a := by
  obtain ⟨e, he, core⟩ := (tried.valid ran).core
  have pc : o.machine.pc = e.pc := congrArg Core.pc core
  rw [pc]
  exact toNat_pc_of_effect he goal

/-- An instruction that may run, and is known where strictness asks for that, overruns exactly if
the address that it would go to is none, whatever other faults it may meet. If it meets no fault it
comes to its goal, as an integer. -/
theorem attempt_pc {o : Outcome} (tried : m.Attempt i o) (checked : m.checkPc = .ok ())
    (known : m.flags.strict = true → ∀ w, i ≠ .unknown w) :
    (∀ p t, o.fault = some (.pcOutOfBounds p t) ↔ p = m.pc ∧ m.Overruns i t) ∧
      (o.fault = none → ∀ a, m.goal? i = some a → (o.machine.pc.toNat : Int) = a) := by
  refine ⟨fun p t => ?_, fun ran a goal => tried.toNat_pc ran goal⟩
  rw [tried.fault_eq_some_iff, execute_eq_error_iff checked]
  exact effect_eq_pcOutOfBounds_iff known

end Counter

/-- A branch back from the first address: by two words it would go to -1, by one word it stays. -/
theorem attempt_pc_first_address :
    let m := { new .none with pc := 0, mem := Memory.zero.set 0 0x05FE }
    m.fetch = .br 2 0x1FE ∧ m.stepIn.fault = some (.pcOutOfBounds 0 (-1)) ∧
      (m.eval (.br 2 0x1FF)).fault = none ∧
      ((m.eval (.br 2 0x1FF)).machine.pc.toNat : Int) = 0 := by
  intro m
  have awake : m.pc ≠ haltAddr := by decide
  have found : m.fetch = .br 2 0x1FE := by decide +kernel
  have step : m.Attempt (.br 2 0x1FE) m.stepIn := .stepped awake found
  have overruns : m.Overruns (.br 2 0x1FE) (-1) :=
    .inr ⟨by decide, -2, by decide, by decide, by decide⟩
  have evaluation : m.Attempt (.br 2 0x1FF) (m.eval (.br 2 0x1FF)) := .evaluated
  have runs : (m.eval (.br 2 0x1FF)).fault = none := by decide +kernel
  have goal : m.goal? (.br 2 0x1FF) = some 0 := by decide
  refine ⟨found, ?_, runs, ?_⟩
  · exact ((attempt_pc step rfl fun _ _ => nofun).1 0 (-1)).mpr ⟨rfl, overruns⟩
  · exact (attempt_pc evaluation rfl fun _ _ => nofun).2 runs 0 goal

end Machine

end Lc4
