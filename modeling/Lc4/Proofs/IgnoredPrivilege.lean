import Lc4.Proofs.Lockstep
import Lc4.Proofs.PrivilegeEntry

/-!
# Ignored privilege

A machine that ignores the privilege never asks for the privilege bit, although traps and returns
from them still write it. So two such machines that differ in this bit alone do the same, and the
first trap or return from one makes them equal.
-/
namespace Lc4

/-- Traps and returns from them, which write the privilege bit. -/
def Instr.WritesPrivilege (i : Instr) : Prop :=
  i = rti ∨ ∃ v, i = trap v

namespace Machine

def withPrivilege (m : Machine) (b : Bool) : Machine :=
  { m with psr := m.psr.setPrivileged b }

/-- Both machines ignore the privilege and differ in nothing but, maybe, the privilege bit. -/
structure SameButPrivilege (m n : Machine) : Prop where
  ignored : m.flags.ignorePrivilege = true
  same : ∃ b, n = m.withPrivilege b

theorem SameButPrivilege.eq {m n : Machine} (h : SameButPrivilege m n)
    (bit : n.psr.privileged = m.psr.privileged) : n = m := by
  obtain ⟨_, b, rfl⟩ := h
  obtain rfl : b = m.psr.privileged := bit
  rfl

section Bit
variable {m : Machine} (ignored : m.flags.ignorePrivilege = true) (b : Bool)
include ignored

theorem privileged_withPrivilege : (m.withPrivilege b).privileged = m.privileged := by
  have kept : (m.withPrivilege b).flags.ignorePrivilege = true := ignored
  rw [privileged, privileged, kept, ignored, Bool.or_true, Bool.or_true]

theorem checkPc_withPrivilege : (m.withPrivilege b).checkPc = m.checkPc := by
  rw [checkPc, checkPc, privileged_withPrivilege ignored]
  rfl

/-- No effect depends on the bit where it is ignored. -/
theorem effect_withPrivilege (i : Instr) : (m.withPrivilege b).effect i = m.effect i := by
  cases i with
  | str rs base offset =>
    simp only [effect, storeEffect, privileged_withPrivilege ignored]
    rfl
  | jsr target | jmp target => cases target <;> rfl
  | _ => rfl

end Bit

theorem apply_withPrivilege (m : Machine) (b : Bool) (e : Effect) :
    (m.withPrivilege b).apply e = (m.apply e).withPrivilege (e.privilege.getD b) := by
  rcases e with ⟨pc, _ | ⟨r, v⟩, cond, memory, _ | privilege, calls, warning⟩ <;>
    cases memory <;> cases calls <;> rfl

theorem flags_apply (m : Machine) (e : Effect) : (m.apply e).flags = m.flags :=
  congrArg Core.flags (core_apply m e)

/-- Machines that differ in the ignored bit run in lockstep. -/
theorem lockstep_sameButPrivilege : Lockstep SameButPrivilege where
  mem := by
    rintro m _ ⟨_, b, rfl⟩
    rfl
  pc := by
    rintro m _ ⟨_, b, rfl⟩
    rfl
  depth := by
    rintro m _ ⟨_, b, rfl⟩
    rfl
  ledger := by
    rintro m _ ⟨_, b, rfl⟩
    rfl
  checkPc := by
    rintro m _ ⟨ignored, b, rfl⟩
    exact checkPc_withPrivilege ignored b
  effect := by
    rintro m _ ⟨ignored, b, rfl⟩ i
    exact effect_withPrivilege ignored b i
  apply := by
    rintro m _ ⟨ignored, b, rfl⟩ e
    exact ⟨(flags_apply m e).symm ▸ ignored, _, apply_withPrivilege m b e⟩
  withLedger := by
    rintro m _ ⟨ignored, b, rfl⟩ l
    exact ⟨ignored, b, rfl⟩
  unobserved := by
    rintro m _ ⟨ignored, b, rfl⟩
    exact ⟨ignored, b, rfl⟩

end Machine

namespace Executed

variable {x y : Executed}

theorem Related.eq (same : x.Related Machine.SameButPrivilege y)
    (before : y.before.psr.privileged = x.before.psr.privileged)
    (after : y.after.psr.privileged = x.after.psr.privileged) : y = x := by
  have before := same.before.eq before
  have after := same.after.eq after
  obtain ⟨_, instr, _, fetched⟩ := same
  cases x
  cases y
  subst before instr after fetched
  rfl

/-- Where the bits were equal they stay so: the same instruction keeps or sets both. -/
theorem Valid.privileged_eq (hx : x.Valid) (hy : y.Valid) (instr : y.instr = x.instr)
    (before : y.before.psr.privileged = x.before.psr.privileged) :
    y.after.psr.privileged = x.after.psr.privileged := by
  rw [hx.privileged_after, hy.privileged_after, instr, before]

/-- An instruction that writes the bit makes the bits equal. -/
theorem Valid.privileged_eq_of_writes (hx : x.Valid) (hy : y.Valid) (instr : y.instr = x.instr)
    (writes : x.instr.WritesPrivilege) : y.after.psr.privileged = x.after.psr.privileged := by
  rw [hx.privileged_after, hy.privileged_after, instr]
  rcases writes with rti | ⟨v, trap⟩
  · rw [rti]
    rfl
  · rw [trap]
    rfl

end Executed

theorem Outcome.Related.eq {R : Machine → Machine → Prop} {o p : Outcome}
    (related : Outcome.Related R o p) (machine : p.machine = o.machine) : p = o := by
  obtain ⟨_, steps, fault⟩ := related
  cases o
  cases p
  subst machine steps fault
  rfl

namespace Linked

variable {m n s t : Machine} {xs ys : List Executed}

/-- Once the privilege bits are equal, everything is. -/
theorem eq_of_privileged_eq (hm : Linked m xs s) (hn : Linked n ys t)
    (same : List.Forall₂ (Executed.Related Machine.SameButPrivilege) xs ys)
    (bit : n.psr.privileged = m.psr.privileged) :
    ys = xs ∧ t.psr.privileged = s.psr.privileged := by
  induction same generalizing m n with
  | nil =>
    cases hm with
    | nil first =>
      cases hn with
      | nil second =>
        have first := congrArg (·.psr.privileged) first
        have second := congrArg (·.psr.privileged) second
        exact ⟨rfl, second.trans (bit.trans first.symm)⟩
  | @cons x y xs ys related same ih =>
    cases hm with
    | cons first hx hm =>
      cases hn with
      | cons second hy hn =>
        have first := congrArg (·.psr.privileged) first
        have second := congrArg (·.psr.privileged) second
        have before := second.trans (bit.trans first.symm)
        have after := hx.privileged_eq hy related.instr before
        obtain ⟨rest, last⟩ := ih hm hn after
        exact ⟨congrArg₂ List.cons (related.eq before after) rest, last⟩

/-- From the first write of the privilege bit on, the two lists are one. -/
theorem eq_after_write {pre post : List Executed} {x : Executed}
    (hm : Linked m (pre ++ x :: post) s) (hn : Linked n ys t)
    (same : List.Forall₂ (Executed.Related Machine.SameButPrivilege) (pre ++ x :: post) ys)
    (writes : x.instr.WritesPrivilege) :
    (∃ pre' y, ys = pre' ++ y :: post ∧ pre'.length = pre.length ∧ y.after = x.after) ∧
      t.psr.privileged = s.psr.privileged := by
  induction pre generalizing m n ys with
  | nil =>
    obtain ⟨y, zs, related, rest, rfl⟩ := List.forall₂_cons_left_iff.mp same
    cases hm with
    | cons _ hx hm =>
      cases hn with
      | cons _ hy hn =>
        -- Behind the write the bits are equal, so the rest of both lists is the same.
        have bit := hx.privileged_eq_of_writes hy related.instr writes
        obtain ⟨rfl, last⟩ := hm.eq_of_privileged_eq hn rest bit
        exact ⟨⟨[], y, rfl, rfl, related.after.eq bit⟩, last⟩
  | cons z pre ih =>
    obtain ⟨w, ws, _, rest, rfl⟩ := List.forall₂_cons_left_iff.mp same
    cases hm with
    | cons _ _ hm =>
      cases hn with
      | cons _ _ hn =>
        obtain ⟨⟨pre', y, rfl, length, after⟩, last⟩ := ih hm hn rest
        exact ⟨⟨w :: pre', y, rfl, congrArg (· + 1) length, after⟩, last⟩

end Linked

namespace Machine

/-- Two machines that ignore the privilege and differ in the privilege bit alone run the same
instructions in every operation, which ends on both or on neither: with the same fault, pause,
status and count, and with machines that differ in this bit alone, as they do before and after
each of the instructions. From the first instruction that writes the bit on, they do not differ. -/
theorem perform_privilege_invisible (op : Operation) (fuel : Nat) (m n : Machine)
    (alike : SameButPrivilege m n) (blind : op.Blind SameButPrivilege) :
    Option.Rel (Outcome.Related SameButPrivilege) (op.perform fuel m) (op.perform fuel n) ∧
    List.Forall₂ (Executed.Related SameButPrivilege) (op.executed fuel m)
      (op.executed fuel n) ∧
    ∀ pre x post, op.executed fuel m = pre ++ x :: post → x.instr.WritesPrivilege →
      (∃ pre' y, op.executed fuel n = pre' ++ y :: post ∧ pre'.length = pre.length ∧
        y.after = x.after) ∧
      op.perform fuel n = op.perform fuel m := by
  have ends := lockstep_sameButPrivilege.perform blind alike fuel
  have same := lockstep_sameButPrivilege.executed blind alike fuel
  refine ⟨ends, same, ?_⟩
  intro pre x post listed writes
  obtain ⟨s, hm, left⟩ := linked_executed op fuel m
  obtain ⟨t, hn, left'⟩ := linked_executed op fuel n
  rw [listed] at hm same
  obtain ⟨onward, bit⟩ := hm.eq_after_write hn same writes
  refine ⟨onward, ?_⟩
  generalize ho : op.perform fuel m = o, hp : op.perform fuel n = p at ends left left'
  cases ends with
  | none => rfl
  | @some o p related =>
    obtain rfl := left o rfl
    obtain rfl := left' p rfl
    exact congrArg some (related.eq (related.machine.eq bit))

/-- A store that user mode would not allow, and a trap. -/
theorem perform_privilege_invisible_trap :
    let m := { new ⟨true, false, true⟩ with
      mem := (Memory.zero.set 0x8200 0x7040).set 0x8201 0xF025
      regs := (RegFile.zero.write 0 5).write 1 0xA000 }
    let n := m.withPrivilege false
    let op := Operation.runLimit 2
    SameButPrivilege m n ∧ n.psr ≠ m.psr ∧
      ∃ o x y, op.perform 0 m = some o ∧ op.perform 0 n = some o ∧ o.steps = 2 ∧
        o.fault = none ∧ o.machine.mem.get 0xA000 = 5 ∧ o.machine.psr.privileged = true ∧
        op.executed 0 m = [x, y] ∧ y.instr = .trap 0x25 ∧
        ∃ x' y', op.executed 0 n = [x', y'] ∧ y'.after = y.after := by
  intro m n op
  have alike : SameButPrivilege m n := ⟨rfl, false, rfl⟩
  have seen : (op.perform 0 m).map (fun o => (o.steps, o.fault, o.machine.mem.get 0xA000,
      o.machine.psr.privileged)) = some (2, none, 5, true) := by decide +kernel
  have instrs : (op.executed 0 m).map Executed.instr = [.str 0 1 0, .trap 0x25] := by
    decide +kernel
  obtain ⟨o, ends, seen⟩ := Option.map_eq_some_iff.mp seen
  simp only [Prod.mk.injEq] at seen
  obtain ⟨steps, fault, stored, bit⟩ := seen
  obtain ⟨x, xs, listed, -, instrs⟩ := List.map_eq_cons_iff.mp instrs
  obtain ⟨y, ys, rfl, trap, instrs⟩ := List.map_eq_cons_iff.mp instrs
  obtain rfl := List.map_eq_nil_iff.mp instrs
  obtain ⟨_, _, settled⟩ := perform_privilege_invisible op 0 m n alike trivial
  obtain ⟨⟨pre, y', listed', length, after⟩, equal⟩ := settled [x] y [] listed (.inr ⟨_, trap⟩)
  obtain ⟨x', rfl⟩ := List.length_eq_one_iff.mp length
  refine ⟨alike, by decide, o, x, y, ends, equal.trans ends, steps, fault, stored, bit, listed,
    trap, x', y', listed', after⟩

end Machine

end Lc4
