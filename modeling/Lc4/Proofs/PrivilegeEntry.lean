import Lc4.Proofs.History

/-!
# Entry into the operating system

While privilege is checked, operating system code runs with privilege only, and a trap is the only
way to privilege. So a program in user mode enters that code at a trap vector, whatever branches,
jumps, calls and returns it uses.
-/
namespace Lc4

def InOsCode (a : Word) : Prop :=
  0x8000 ≤ a ∧ a ≤ 0x9FFF

/-- The addresses where traps lead. -/
def IsVector (a : Word) : Prop :=
  0x8000 ≤ a ∧ a ≤ 0x80FF

theorem IsVector.inOsCode {a : Word} (h : IsVector a) : InOsCode a := by
  refine ⟨h.1, BitVec.le_trans h.2 ?_⟩
  decide

theorem toNat_vector (v : BitVec 8) :
    ((0x8000 : Word) ||| v.setWidth 16).toNat = 0x8000 + v.toNat := by
  have low : v.toNat < 2 ^ 15 := Nat.lt_trans v.isLt (by decide)
  have apart := Nat.two_pow_add_eq_or_of_lt low 1
  rw [BitVec.toNat_or, BitVec.toNat_setWidth_of_le (by decide)]
  exact apart.symm

theorem isVector_trap (v : BitVec 8) : IsVector (0x8000 ||| v.setWidth 16) := by
  have below := v.isLt
  simp only [IsVector, BitVec.le_def, toNat_vector]
  exact ⟨Nat.le_add_right _ _, by simp; omega⟩

theorem executable_of_user {a : Word} (h : executable false a = true) : ¬ InOsCode a := by
  intro inside
  have region : Region.of a = .osCode := (Region.of_eq_iff a .osCode).mpr inside
  simp [executable, region] at h

namespace Executed

/-- What runs in operating system code has the privilege. -/
theorem Valid.privileged_of_inOsCode {x : Executed} (valid : x.Valid)
    (guarded : x.before.flags.ignorePrivilege = false) (inside : InOsCode x.before.pc) :
    x.before.psr.privileged = true := by
  have runs := (Machine.checkPc_eq_ok_iff.mp valid.checked).1
  cases user : x.before.psr.privileged with
  | true => rfl
  | false =>
    simp only [Machine.privileged, user, guarded, Bool.or_self] at runs
    exact False.elim (executable_of_user runs inside)

theorem Valid.privileged_after {x : Executed} (valid : x.Valid) :
    x.after.psr.privileged = x.instr.privilege.getD x.before.psr.privileged := by
  obtain ⟨e, he, core⟩ := valid.core
  rw [← (Machine.effect_touches he).2.1]
  exact congrArg (·.psr.privileged) core

/-- A trap goes to one of the vectors and leaves the return address in the link register. -/
theorem Valid.vector_of_trap {x : Executed} (valid : x.Valid) {v : BitVec 8}
    (trap : x.instr = .trap v) :
    IsVector x.after.pc ∧ (x.after.reg .link).toNat = x.before.pc.toNat + 1 := by
  obtain ⟨e, he, core⟩ := valid.core
  rw [trap] at he
  obtain ⟨inside, target, link⟩ := Machine.effect_trap he
  have pc : x.after.pc = e.pc := congrArg Core.pc core
  have regs : x.after.regs = e.regsAfter x.before.regs := congrArg Core.regs core
  constructor
  · rw [pc, target]
    exact isVector_trap v
  · rw [Machine.reg, regs, Effect.regsAfter, link, RegFile.read_write_self]
    have : x.before.pc.toNat ≠ 0xFFFF := fun last => inside (BitVec.eq_of_toNat_eq last)
    have := x.before.pc.isLt
    rw [BitVec.toNat_add]
    change (x.before.pc.toNat + 1) % 2 ^ 16 = _
    omega

theorem Valid.link_of_rti {x : Executed} (valid : x.Valid) (rti : x.instr = .rti) :
    x.after.pc = x.after.reg .link := by
  refine valid.link_of_effect fun e he => ?_
  rw [rti] at he
  exact Machine.effect_rti he

/-- Only a trap gives the privilege. -/
theorem Valid.trap_of_enters {x : Executed} (valid : x.Valid)
    (user : x.before.psr.privileged = false) (os : x.after.psr.privileged = true) :
    ∃ v, x.instr = .trap v ∧ IsVector x.after.pc ∧
      (x.after.reg .link).toNat = x.before.pc.toNat + 1 := by
  have bit := valid.privileged_after
  rw [os, user] at bit
  cases shape : x.instr
  case trap v => exact ⟨v, rfl, valid.vector_of_trap shape⟩
  all_goals simp [shape, Instr.privilege] at bit

/-- Only a return from a trap takes the privilege away. -/
theorem Valid.rti_of_leaves {x : Executed} (valid : x.Valid)
    (os : x.before.psr.privileged = true) (user : x.after.psr.privileged = false) :
    x.instr = .rti ∧ x.after.pc = x.after.reg .link := by
  have bit := valid.privileged_after
  rw [os, user] at bit
  cases shape : x.instr
  case rti => exact ⟨rfl, valid.link_of_rti shape⟩
  all_goals simp [shape, Instr.privilege] at bit

end Executed

/-- Without privilege, or just after the trap that gave it, the next operating system code that
runs is at a trap vector. -/
theorem Linked.first_inOsCode {m s : Machine} {xs : List Executed} (h : Linked m xs s)
    (guarded : m.flags.ignorePrivilege = false)
    (start : m.psr.privileged = false ∨ IsVector m.pc) :
    ∀ pre x post, xs = pre ++ x :: post → (∀ y ∈ pre, ¬ InOsCode y.before.pc) →
      InOsCode x.before.pc → IsVector x.before.pc := by
  induction h with
  | nil => simp
  | @cons m s y ys same valid _ ih =>
    have psr : y.before.psr = m.psr := congrArg Core.psr same
    have pc : y.before.pc = m.pc := congrArg Core.pc same
    have flags : y.before.flags = m.flags := congrArg Core.flags same
    rw [← flags] at guarded
    rw [← psr, ← pc] at start
    rintro (_ | ⟨z, pre⟩) x post listed outside inside
    · obtain ⟨rfl, _⟩ := List.cons.inj listed
      rcases start with user | vector
      · have os := valid.privileged_of_inOsCode guarded inside
        rw [user] at os
        cases os
      · exact vector
    · obtain ⟨rfl, tail⟩ := List.cons.inj listed
      -- Until the code is entered there is no privilege, but for a trap that has just gone there.
      have still : y.after.psr.privileged = false ∨ IsVector y.after.pc := by
        rcases start with user | vector
        · cases os : y.after.psr.privileged with
          | false => exact .inl rfl
          | true =>
            obtain ⟨_, _, vector, _⟩ := valid.trap_of_enters user os
            exact .inr vector
        · exact False.elim (outside y List.mem_cons_self vector.inOsCode)
      refine ih ?_ still pre x post tail ?_ inside
      · rw [valid.flags]
        exact guarded
      · intro z hz
        exact outside z (List.mem_cons_of_mem y hz)

namespace Machine

/-- In every history without `ignorePrivilege`: between instructions nothing touches the core; an
instruction in operating system code runs with privilege; only a trap gives privilege, and leads
to a vector with the return address in the link register; only `rti` takes privilege away, and
leads to where the link register points; and from user mode the first instruction to run in
operating system code is at a vector. -/
theorem history_privilege_entry (fuel : Nat) (ops : List Operation) (m : Machine)
    (guarded : m.flags.ignorePrivilege = false) :
    let h := m.history fuel ops
    (∃ s, Linked m h.executed s ∧ ∀ t, h.machine = some t → t = s) ∧
    (∀ x ∈ h.executed, InOsCode x.before.pc → x.before.psr.privileged = true) ∧
    (∀ x ∈ h.executed, x.before.psr.privileged = false → x.after.psr.privileged = true →
      ∃ v, x.instr = .trap v ∧ IsVector x.after.pc ∧
        (x.after.reg .link).toNat = x.before.pc.toNat + 1) ∧
    (∀ x ∈ h.executed, x.before.psr.privileged = true → x.after.psr.privileged = false →
      x.instr = .rti ∧ x.after.pc = x.after.reg .link) ∧
    (m.psr.privileged = false → ∀ pre x post, h.executed = pre ++ x :: post →
      (∀ y ∈ pre, ¬ InOsCode y.before.pc) → InOsCode x.before.pc → IsVector x.before.pc) := by
  intro h
  have valid := history_valid fuel ops m
  obtain ⟨s, linked, final⟩ := linked_history fuel ops m
  refine ⟨⟨s, linked, final⟩, ?_, ?_, ?_, ?_⟩
  · intro x hx inside
    have flags : x.before.flags = m.flags := history_flags _ (History.before_mem hx)
    rw [← flags] at guarded
    exact (valid x hx).privileged_of_inOsCode guarded inside
  · intro x hx
    exact (valid x hx).trap_of_enters
  · intro x hx
    exact (valid x hx).rti_of_leaves
  · intro user
    exact linked.first_inOsCode guarded (.inl user)

/-- A trap from user mode at address 0 and the way back from its vector. -/
theorem history_privilege_entry_round_trip :
    let m := { new .none with
      pc := 0
      psr := ⟨false, .zero⟩
      mem := (Memory.zero.set 0 0xF020).set 0x8020 0x8000 }
    let h := m.history 2 [.stepIn, .run]
    m.flags.ignorePrivilege = false ∧ m.psr.privileged = false ∧
    ∃ x y rest, h.executed = x :: y :: rest ∧
      x.before.psr.privileged = false ∧ (∃ v, x.instr = .trap v) ∧ y.instr = .rti ∧
      InOsCode y.before.pc ∧ IsVector y.before.pc ∧ y.before.psr.privileged = true ∧
      y.after.psr.privileged = false ∧ y.after.pc = y.after.reg .link := by
  intro m h
  obtain ⟨_, guarded, enters, leaves, first⟩ :=
    history_privilege_entry 2 [.stepIn, .run] m rfl
  have seen : h.executed.map (fun x => (x.before.psr.privileged, x.after.psr.privileged,
      x.before.pc)) = [(false, true, 0), (true, false, 0x8020), (false, false, 1)] := by
    decide +kernel
  obtain ⟨x, xs, listed, hx, seen⟩ := List.map_eq_cons_iff.mp seen
  obtain ⟨y, rest, rfl, hy, _⟩ := List.map_eq_cons_iff.mp seen
  simp only [Prod.mk.injEq] at hx hy
  obtain ⟨user, os, start⟩ := hx
  obtain ⟨os', user', vector⟩ := hy
  have hx : x ∈ h.executed := by simp [listed]
  have hy : y ∈ h.executed := by simp [listed]
  have inside : InOsCode y.before.pc := by
    rw [vector]
    exact ⟨by decide, by decide⟩
  have outside : ∀ z ∈ [x], ¬ InOsCode z.before.pc := by
    simp [start, InOsCode]
  obtain ⟨v, trap, _⟩ := enters x hx user os
  obtain ⟨rti, back⟩ := leaves y hy os' user'
  exact ⟨rfl, rfl, x, y, rest, listed, user, ⟨v, trap⟩, rti, inside,
    first rfl [x] y rest listed outside inside, guarded y hy inside, user', back⟩

end Machine

end Lc4
