import Lc4.Proofs.MemoryProtection
import Lc4.Shell.Listing

/-!
# What the observer shows

An instruction writes at most one register, its destination, and reads or writes at most one memory
word. The observer of an operation is the union of what its instructions do, and of nothing else.
So it shows every register and every word that an operation has changed.
-/
namespace Lc4

/-- The register that an instruction writes. -/
def Instr.destination? : Instr → Option Reg
  | add rd _ _ | and rd _ _ | alu _ rd _ _ | not rd _ | ldr rd _ _ | const rd _ | hiconst rd _
  | shift _ rd _ _ | lea rd _ | lc rd _ => some rd
  | jsr _ | trap _ => some .link
  | nop | br _ _ | cmp _ _ _ | cmpImm _ _ _ | jmp _ | ret | rti | str _ _ _ | unknown _ => none

namespace Access

/-- All of a list of accesses together. -/
def join (xs : List Access) : Access :=
  xs.foldr union none

theorem join_append (xs ys : List Access) : join (xs ++ ys) = (join xs).union (join ys) := by
  induction xs with
  | nil => exact (none_union _).symm
  | cons x xs ih => exact (congrArg x.union ih).trans (union_assoc x _ _).symm

/-- A mark that no access has and that a union takes over shows if one of a list has it. -/
theorem mark_join {mark : Access → Bool} (clear : mark none = false)
    (kept : ∀ x y, mark (x.union y) = (mark x || mark y)) (xs : List Access) :
    mark (join xs) = xs.any mark := by
  induction xs with
  | nil => exact clear
  | cons x xs ih => exact (kept x (join xs)).trans (congrArg (mark x || ·) ih)

theorem read_join (xs : List Access) : (join xs).read = xs.any (·.read) :=
  mark_join rfl (fun _ _ => rfl) xs

theorem written_join (xs : List Access) : (join xs).written = xs.any (·.written) :=
  mark_join rfl (fun _ _ => rfl) xs

theorem modified_join (xs : List Access) : (join xs).modified = xs.any (·.modified) :=
  mark_join rfl (fun _ _ => rfl) xs

end Access

theorem Observer.reg_noteReg (o : Observer) (r q : Reg) (x : Access) :
    (o.noteReg r x).reg q = if q = r then (o.reg r).union x else o.reg q := by
  by_cases h : q = r
  · rw [if_pos h, h, reg_noteReg_self]
  · have apart : r.toNat ≠ q.toNat := fun e => h (BitVec.eq_of_toNat_eq e.symm)
    simp [noteReg, reg, apart, h]

/-- How a use of memory accesses a word. -/
def MemoryUse.access (mem : Memory) (a : Word) : MemoryUse → Access
  | none => .none
  | load b => if a = b then .ofRead else .none
  | store b v => if a = b then .ofWrite (mem.get a) v else .none

namespace MemoryUse
variable {mem : Memory} {a : Word}

theorem read_access {use : MemoryUse} : (use.access mem a).read = true ↔ use = .load a := by
  cases use with
  | none => simp [access, Access.none]
  | load b =>
    by_cases h : a = b
    · simp [access, h, Access.ofRead]
    · simp [access, h, Access.none, Ne.symm h]
  | store b v => by_cases h : a = b <;> simp [access, h, Access.ofWrite, Access.none]

theorem written_access {use : MemoryUse} :
    (use.access mem a).written = true ↔ ∃ v, use = .store a v := by
  cases use with
  | none => simp [access, Access.none]
  | load b => by_cases h : a = b <;> simp [access, h, Access.ofRead, Access.none]
  | store b v =>
    by_cases h : a = b
    · simp [access, h, Access.ofWrite]
    · simp [access, h, Access.none, Ne.symm h]

theorem modified_access {use : MemoryUse} :
    (use.access mem a).modified = true ↔ ∃ v, use = .store a v ∧ mem.get a ≠ v := by
  cases use with
  | none => simp [access, Access.none]
  | load b => by_cases h : a = b <;> simp [access, h, Access.ofRead, Access.none]
  | store b v =>
    by_cases h : a = b
    · simp [access, h, Access.ofWrite]
    · simp [access, h, Access.none, Ne.symm h]

end MemoryUse

/-- How an effect accesses a register. -/
def Effect.access (e : Effect) (regs : RegFile) (r : Reg) : Access :=
  match e.reg with
  | some (q, v) => if r = q then .ofWrite (regs.read r) v else .none
  | none => .none

namespace Machine

section Observed
variable {m : Machine} {i : Instr} {e : Effect}

/-- The form of an instruction tells which register it writes. -/
theorem destination?_of_effect (h : m.effect i = .ok e) :
    i.destination? = e.reg.map Prod.fst := by
  rw [effect_eq_work h]
  cases i with
  | jmp target => cases target <;> rfl
  | cmpImm reading => cases reading <;> rfl
  | _ => rfl

/-- An instruction adds its access to what the observer shows of a register. -/
theorem reg_observer_apply (m : Machine) (e : Effect) (r : Reg) :
    (m.apply e).observer.reg r = (m.observer.reg r).union (e.access m.regs r) := by
  have kept : ∀ s : Machine, s = (m.useMemory e.memory).changeCalls e.calls →
      s.observer.reg r = m.observer.reg r ∧ s.regs = m.regs := by
    rintro s rfl
    cases e.memory <;> cases e.calls <;> exact ⟨rfl, rfl⟩
  obtain ⟨before, regs⟩ := kept _ rfl
  rcases written : e.reg with _ | ⟨q, v⟩
  · simp only [apply, written, before, Effect.access, Access.union_none]
  · simp only [apply, written, writeReg, Observer.reg_noteReg, Effect.access, Machine.reg, regs]
    by_cases h : r = q
    · rw [if_pos h, if_pos h, ← h, before]
    · rw [if_neg h, if_neg h, before, Access.union_none]

theorem word_observer_apply (m : Machine) (e : Effect) (a : Word) :
    (m.apply e).observer.word a = (m.observer.word a).union (e.memory.access m.mem a) := by
  have used : (m.apply e).observer.word a = (m.useMemory e.memory).observer.word a := by
    rcases e with ⟨pc, _ | ⟨r, v⟩, cond, memory, privilege, calls, warning⟩ <;>
      cases memory <;> cases calls <;> rfl
  rw [used]
  cases e.memory with
  | none => exact (Access.union_none _).symm
  | load b | store b v =>
    simp only [useMemory, Observer.word_noteWord, MemoryUse.access]
    by_cases h : a = b
    · rw [if_pos h, if_pos h, h]
    · rw [if_neg h, if_neg h, Access.union_none]

end Observed

end Machine

namespace Executed

/-- The instruction writes this register. -/
def WritesReg (x : Executed) (r : Reg) : Prop :=
  x.instr.destination? = some r

/-- The instruction is a load from this address. -/
def Loads (x : Executed) (a : Word) : Prop :=
  ∃ rd base offset, x.instr = .ldr rd base offset ∧
    (a.toNat : Int) = ((x.before.reg base).toNat + offset.toInt) % 65536

instance (x : Executed) (r : Reg) : Decidable (x.WritesReg r) :=
  inferInstanceAs (Decidable (_ = _))

/-- How an instruction accesses a register. -/
def regAccess (x : Executed) (r : Reg) : Access :=
  if x.WritesReg r then .ofWrite (x.before.reg r) (x.after.reg r) else .none

/-- How an instruction accesses a memory word. -/
def wordAccess (x : Executed) (a : Word) : Access :=
  (x.before.memoryUse x.instr).access x.before.mem a

section Accesses
variable {x : Executed}

theorem written_regAccess {r : Reg} : (x.regAccess r).written = true ↔ x.WritesReg r := by
  by_cases h : x.WritesReg r <;> simp [regAccess, h, Access.ofWrite, Access.none]

theorem modified_regAccess {r : Reg} :
    (x.regAccess r).modified = true ↔ x.WritesReg r ∧ x.after.reg r ≠ x.before.reg r := by
  by_cases h : x.WritesReg r
  · rw [regAccess, if_pos h, Access.ofWrite, bne_iff_ne, and_iff_right h]
    exact ne_comm
  · simp [regAccess, h, Access.none]

theorem read_regAccess (r : Reg) : (x.regAccess r).read = false := by
  by_cases h : x.WritesReg r <;> simp [regAccess, h, Access.ofWrite, Access.none]

theorem loads_iff {a : Word} : x.Loads a ↔ x.before.memoryUse x.instr = .load a := by
  constructor
  · rintro ⟨rd, base, offset, load, address⟩
    rw [← toNat_add_signExtend, Int.natCast_inj] at address
    rw [load, BitVec.eq_of_toNat_eq address]
    rfl
  · intro use
    cases shape : x.instr
    case ldr rd base offset =>
      rw [shape] at use
      obtain rfl := MemoryUse.load.inj use
      exact ⟨rd, base, offset, shape, toNat_add_signExtend _ _⟩
    case str =>
      simp only [shape, Machine.memoryUse] at use
      split at use <;> cases use
    all_goals simp [shape, Machine.memoryUse] at use

/-- An instruction stores to a word if its effect does; a skipped store is none. -/
theorem Valid.stores_iff (valid : x.Valid) {a : Word} :
    x.Stores a ↔ ∃ v, x.before.memoryUse x.instr = .store a v := by
  constructor
  · rintro ⟨rs, base, offset, store, address, -, allowed⟩
    rw [← toNat_add_signExtend, Int.natCast_inj] at address
    obtain rfl := BitVec.eq_of_toNat_eq address
    refine ⟨x.before.reg rs, ?_⟩
    rw [store]
    exact if_pos (writable_of_mayStore allowed)
  · rintro ⟨v, use⟩
    exact valid.stores_of_use use

theorem read_wordAccess {a : Word} : (x.wordAccess a).read = true ↔ x.Loads a :=
  MemoryUse.read_access.trans loads_iff.symm

theorem Valid.written_wordAccess (valid : x.Valid) {a : Word} :
    (x.wordAccess a).written = true ↔ x.Stores a :=
  MemoryUse.written_access.trans valid.stores_iff.symm

theorem Valid.modified_wordAccess (valid : x.Valid) {a : Word} :
    (x.wordAccess a).modified = true ↔
      x.Stores a ∧ x.after.mem.get a ≠ x.before.mem.get a := by
  have stored : ∀ v, x.before.memoryUse x.instr = .store a v → x.after.mem.get a = v := by
    intro v use
    obtain ⟨e, he, core⟩ := valid.core
    have mem : x.after.mem = e.memory.after x.before.mem := congrArg Core.mem core
    rw [mem, (Machine.effect_touches he).1, use]
    exact AddressMap.get_set_self _ _ _
  rw [valid.stores_iff, wordAccess, MemoryUse.modified_access]
  constructor
  · rintro ⟨v, use, differs⟩
    exact ⟨⟨v, use⟩, (stored v use).symm ▸ differs.symm⟩
  · rintro ⟨⟨v, use⟩, differs⟩
    exact ⟨v, use, (stored v use ▸ differs).symm⟩

/-- No register changes but by being written. -/
theorem Valid.writesReg_of_ne (valid : x.Valid) {r : Reg}
    (differs : x.after.reg r ≠ x.before.reg r) : x.WritesReg r := by
  obtain ⟨e, he, core⟩ := valid.core
  have regs : x.after.regs = e.regsAfter x.before.regs := congrArg Core.regs core
  rw [WritesReg, Machine.destination?_of_effect he]
  rw [Machine.reg, regs, Effect.regsAfter] at differs
  rcases wrote : e.reg with _ | ⟨q, v⟩
  · rw [wrote] at differs
    exact absurd rfl differs
  · by_cases h : r = q
    · rw [h]
      rfl
    · simp only [wrote, RegFile.read_write_of_ne _ _ h] at differs
      exact absurd rfl differs

theorem Valid.stores_of_ne (valid : x.Valid) {a : Word}
    (differs : x.after.mem.get a ≠ x.before.mem.get a) : x.Stores a := by
  rcases valid.mem with same | ⟨b, stores⟩
  · exact absurd (congrArg (·.get a) same) differs
  · by_cases h : a = b
    · rwa [h]
    · obtain ⟨_, _, _, _, _, mem, _⟩ := stores
      rw [mem, AddressMap.get_set_of_ne _ _ h] at differs
      exact absurd rfl differs

end Accesses

end Executed

/-- The observer shows what was noted before and what the instructions of a list access. -/
structure Observer.Adds (past : Observer) (xs : List Executed) (o : Observer) : Prop where
  reg : ∀ r, o.reg r = (past.reg r).union (.join (xs.map (·.regAccess r)))
  word : ∀ a, o.word a = (past.word a).union (.join (xs.map (·.wordAccess a)))

namespace Observer

theorem reg_empty (r : Reg) : empty.reg r = .none := by
  simp [empty, reg]

theorem word_empty (a : Word) : empty.word a = .none := by
  simp [empty, word]

namespace Adds
variable {past mid o : Observer} {xs ys : List Executed}

theorem refl (o : Observer) : o.Adds [] o :=
  ⟨fun _ => (Access.union_none _).symm, fun _ => (Access.union_none _).symm⟩

/-- What is observed in a row adds up. -/
theorem trans (first : past.Adds xs mid) (last : mid.Adds ys o) : past.Adds (xs ++ ys) o := by
  constructor
  · intro r
    rw [last.reg, first.reg, Access.union_assoc, List.map_append, Access.join_append]
  · intro a
    rw [last.word, first.word, Access.union_assoc, List.map_append, Access.join_append]

/-- One instruction adds its own accesses and no others. -/
theorem of_execute {x : Executed} {s : Machine} (ran : x.before.execute x.instr = .ok s)
    (core : x.after.core = s.core) (observer : x.after.observer = s.observer) :
    x.before.observer.Adds [x] x.after.observer := by
  obtain ⟨_, e, he, rfl⟩ := Machine.execute_eq_ok_iff.mp ran
  have written := Machine.destination?_of_effect he
  obtain ⟨used, _, _⟩ := Machine.effect_touches he
  rw [Machine.core_apply] at core
  have regs : x.after.regs = e.regsAfter x.before.regs := congrArg Core.regs core
  have reg : ∀ r, e.access x.before.regs r = x.regAccess r := by
    intro r
    rw [Executed.regAccess, Machine.reg, Machine.reg, regs]
    rcases wrote : e.reg with _ | ⟨q, v⟩
    · have none : ¬ x.WritesReg r := by simp [Executed.WritesReg, written, wrote]
      simp only [Effect.access, wrote, if_neg none]
    · by_cases h : r = q
      · have writes : x.WritesReg r := by simp [Executed.WritesReg, written, wrote, h]
        simp only [Effect.access, Effect.regsAfter, wrote, if_pos writes, if_pos h]
        rw [h, RegFile.read_write_self]
      · have none : ¬ x.WritesReg r := by simp [Executed.WritesReg, written, wrote, Ne.symm h]
        simp only [Effect.access, wrote, if_neg none, if_neg h]
  constructor
  · intro r
    rw [observer, Machine.reg_observer_apply, reg]
    exact congrArg _ (Access.union_none _).symm
  · intro a
    rw [observer, Machine.word_observer_apply, used]
    exact congrArg _ (Access.union_none _).symm

end Adds

end Observer

section Linked
variable {m s : Machine} {xs : List Executed}

/-- If a register has changed in the end, some instruction has changed it. -/
theorem Linked.reg_ne (linked : Linked m xs s) {r : Reg} (differs : s.reg r ≠ m.reg r) :
    ∃ x ∈ xs, x.WritesReg r ∧ x.after.reg r ≠ x.before.reg r := by
  obtain ⟨x, hx, valid, differs⟩ := linked.exists_ne (fun c => c.regs.read r) differs
  exact ⟨x, hx, valid.writesReg_of_ne differs, differs⟩

theorem Linked.word_ne (linked : Linked m xs s) {a : Word} (differs : s.mem.get a ≠ m.mem.get a) :
    ∃ x ∈ xs, x.Stores a ∧ x.after.mem.get a ≠ x.before.mem.get a := by
  obtain ⟨x, hx, valid, differs⟩ := linked.exists_ne (fun c => c.mem.get a) differs
  exact ⟨x, hx, valid.stores_of_ne differs, differs⟩

end Linked

/-- What an observer says of the instructions of a list. -/
structure Observer.Faithful (o : Observer) (xs : List Executed) : Prop where
  reg_read : ∀ r, (o.reg r).read = false
  reg_written : ∀ r, (o.reg r).written = true ↔ ∃ x ∈ xs, x.WritesReg r
  reg_modified : ∀ r, (o.reg r).modified = true ↔
    ∃ x ∈ xs, x.WritesReg r ∧ x.after.reg r ≠ x.before.reg r
  word_read : ∀ a, (o.word a).read = true ↔ ∃ x ∈ xs, x.Loads a
  word_written : ∀ a, (o.word a).written = true ↔ ∃ x ∈ xs, x.Stores a
  word_modified : ∀ a, (o.word a).modified = true ↔
    ∃ x ∈ xs, x.Stores a ∧ x.after.mem.get a ≠ x.before.mem.get a

/-- An observer that began empty shows what the instructions did and nothing else. -/
theorem Observer.Adds.faithful {o : Observer} {xs : List Executed} (adds : empty.Adds xs o)
    (valid : ∀ x ∈ xs, x.Valid) : o.Faithful xs := by
  have reg : ∀ r, o.reg r = .join (xs.map (·.regAccess r)) := by
    intro r
    rw [adds.reg, reg_empty, Access.none_union]
  have word : ∀ a, o.word a = .join (xs.map (·.wordAccess a)) := by
    intro a
    rw [adds.word, word_empty, Access.none_union]
  have lift : ∀ {p : Executed → Bool} {P : Executed → Prop}, (∀ x ∈ xs, (p x = true ↔ P x)) →
      (xs.any p = true ↔ ∃ x ∈ xs, P x) := by
    intro p P h
    rw [List.any_eq_true]
    exact exists_congr fun x => and_congr_right (h x)
  constructor
  · intro r
    rw [reg, Access.read_join, List.any_map, List.any_eq_false]
    intro x _
    simp [Executed.read_regAccess]
  · intro r
    rw [reg, Access.written_join, List.any_map]
    exact lift fun x _ => Executed.written_regAccess
  · intro r
    rw [reg, Access.modified_join, List.any_map]
    exact lift fun x _ => Executed.modified_regAccess
  · intro a
    rw [word, Access.read_join, List.any_map]
    exact lift fun x _ => Executed.read_wordAccess
  · intro a
    rw [word, Access.written_join, List.any_map]
    exact lift fun x hx => (valid x hx).written_wordAccess
  · intro a
    rw [word, Access.modified_join, List.any_map]
    exact lift fun x hx => (valid x hx).modified_wordAccess

namespace Machine

/-- Steps in a row add the accesses of their instructions. -/
theorem adds_of_after {k : Nat} {m s : Machine} (h : m.after k = some s) :
    m.observer.Adds (m.trace k) s.observer := by
  induction k generalizing m with
  | zero =>
    obtain rfl := Option.some.inj h
    exact .refl _
  | succ k ih =>
    obtain ⟨m', next, rest⟩ := exists_next_of_after h
    have first : m.observer.Adds [⟨m, m.fetch, m', true⟩] m'.observer := by
      obtain ⟨_, t, ran, rfl⟩ := step_eq_next_iff.mp next
      exact .of_execute (x := ⟨m, m.fetch, _, true⟩) ran rfl rfl
    simp only [trace, next]
    exact first.trans (ih rest)

section Perform
variable {op : Operation} {fuel : Nat} {m : Machine} {o : Outcome}

/-- An evaluation begins with an empty observer and adds the accesses of its instruction. -/
theorem adds_of_eval (m : Machine) (i : Instr) :
    Observer.empty.Adds ((Operation.eval i).executed fuel m) (m.eval i).machine.observer := by
  simp only [Operation.executed, Operation.perform, eval_eq]
  cases ran : m.begin.execute i with
  | error f => exact .refl _
  | ok s => exact .of_execute (x := ⟨m.begin, i, _, false⟩) ran rfl rfl

/-- Each operation begins with an empty observer and adds the accesses of its instructions. -/
theorem adds_of_perform (h : op.perform fuel m = some o) :
    Observer.empty.Adds (op.executed fuel m) o.machine.observer := by
  cases steps : op.isEval with
  | true =>
    obtain ⟨i, rfl⟩ := Operation.eq_eval_of_isEval steps
    obtain rfl := Option.some.inj h
    exact adds_of_eval m i
  | false =>
    obtain ⟨s, arrives⟩ := arrives_of_perform steps h
    rw [executed_eq_trace steps h, arrives.machine]
    exact adds_of_after arrives.steps

/-- Operations begin with an empty observer. -/
theorem perform_setObserver (op : Operation) (fuel : Nat) (m : Machine) (past : Observer) :
    op.perform fuel { m with observer := past } = op.perform fuel m := by
  cases op <;> rfl

/-- After an operation the observer shows what its instructions have accessed, whatever it showed
before. So each register and each word that the operation changed counts as modified. -/
theorem perform_observed (op : Operation) (fuel : Nat) (m : Machine) (o : Outcome)
    (ends : op.perform fuel m = some o) :
    let xs := op.executed fuel m
    let seen := o.machine.observer
    Linked m xs o.machine ∧ seen.Faithful xs ∧
    (∀ r, o.machine.reg r ≠ m.reg r → (seen.reg r).modified = true ∧
      ∃ text, Shell.Listing.reg false o.machine r = Shell.Listing.line text ∧
        Shell.Listing.reg true o.machine r =
          Shell.Listing.line (Text.Colour.yellow.paint true text)) ∧
    (∀ a, o.machine.mem.get a ≠ m.mem.get a → (seen.word a).modified = true) ∧
    (∀ r, (seen.reg r).modified = true → (seen.reg r).written = true) ∧
    (∀ a, (seen.word a).modified = true → (seen.word a).written = true) ∧
    (∀ past, op.perform fuel { m with observer := past } = some o) ∧
    (xs.length ≤ 1 →
      (∀ r, (seen.reg r).modified = true ↔ o.machine.reg r ≠ m.reg r) ∧
      ∀ a, (seen.word a).modified = true ↔ o.machine.mem.get a ≠ m.mem.get a) := by
  intro xs seen
  have linked : Linked m xs o.machine := linked_of_perform ends
  have faithful : seen.Faithful xs := (adds_of_perform ends).faithful linked.valid
  have regs : ∀ r, o.machine.reg r ≠ m.reg r → (seen.reg r).modified = true :=
    fun r differs => (faithful.reg_modified r).mpr (linked.reg_ne differs)
  have words : ∀ a, o.machine.mem.get a ≠ m.mem.get a → (seen.word a).modified = true :=
    fun a differs => (faithful.word_modified a).mpr (linked.word_ne differs)
  refine ⟨linked, faithful, ?_, words, ?_, ?_, ?_, ?_⟩
  · intro r differs
    have modified := regs r differs
    refine ⟨modified, _, rfl, ?_⟩
    rw [Shell.Listing.reg, modified]
    rfl
  · intro r modified
    obtain ⟨x, hx, writes, _⟩ := (faithful.reg_modified r).mp modified
    exact (faithful.reg_written r).mpr ⟨x, hx, writes⟩
  · intro a modified
    obtain ⟨x, hx, stores, _⟩ := (faithful.word_modified a).mp modified
    exact (faithful.word_written a).mpr ⟨x, hx, stores⟩
  · intro past
    rw [perform_setObserver, ends]
  · intro single
    constructor
    · intro r
      refine ⟨fun modified => ?_, regs r⟩
      obtain ⟨x, hx, _, differs⟩ := (faithful.reg_modified r).mp modified
      exact linked.ne_of_length_le_one single (fun c => c.regs.read r) hx differs
    · intro a
      refine ⟨fun modified => ?_, words a⟩
      obtain ⟨x, hx, _, differs⟩ := (faithful.word_modified a).mp modified
      exact linked.ne_of_length_le_one single (fun c => c.mem.get a) hx differs

/-- A run that loads a word, adds to it, stores it and takes the sum back again: the register
is modified though it ends as it began. -/
theorem perform_observed_restored :
    let m := { new .none with mem := ((((Memory.zero.set 0x8200 0x623F).set 0x8201 0x1261).set
      0x8202 0x723F).set 0x8203 0x127F) }
    let xs := (Operation.runLimit 4).executed 0 m
    ∃ o, (Operation.runLimit 4).perform 0 m = some o ∧ o.machine.reg 1 = m.reg 1 ∧
      (∃ x ∈ xs, x.WritesReg 1 ∧ x.after.reg 1 ≠ x.before.reg 1) ∧
      (∃ x ∈ xs, x.Loads 0xFFFF) ∧ (∃ x ∈ xs, x.Stores 0xFFFF) ∧
      o.machine.mem.get 0xFFFF = 1 ∧ (o.machine.observer.word 0xFFFF).modified = true := by
  intro m xs
  have seen : ((Operation.runLimit 4).perform 0 m).map (fun o => (o.machine.reg 1,
      o.machine.mem.get 0xFFFF, o.machine.observer.reg 1, o.machine.observer.word 0xFFFF)) =
      some (0, 1, ⟨false, true, true⟩, ⟨true, true, true⟩) := by
    decide +kernel
  obtain ⟨o, ends, seen⟩ := Option.map_eq_some_iff.mp seen
  simp only [Prod.mk.injEq] at seen
  obtain ⟨restored, stored, reg, word⟩ := seen
  obtain ⟨_, faithful, _, words, _⟩ := perform_observed (.runLimit 4) 0 m o ends
  have changed : o.machine.mem.get 0xFFFF ≠ m.mem.get 0xFFFF := by
    rw [stored]
    decide +kernel
  refine ⟨o, ends, restored, (faithful.reg_modified 1).mp ?_, (faithful.word_read _).mp ?_,
    (faithful.word_written _).mp ?_, stored, words _ changed⟩
  · rw [reg]
  · rw [word]
  · rw [word]

end Perform

end Machine

end Lc4
