import Lc4.Proofs.History

/-!
# Memory protection

Only a store changes memory, one word each, and only where `MayStore` allows it. So no history
changes a code region, and in strict mode, where code regions alone are executed, every
instruction that is read from memory was there from the start.
-/
namespace Lc4

/-- The addresses of user code and of operating system code. -/
def InCode (a : Word) : Prop :=
  a ≤ 0x1FFF ∨ 0x8000 ≤ a ∧ a ≤ 0x9FFF

/-- The addresses of user data, and with privilege those of operating system data. -/
def MayStore (privileged : Bool) (a : Word) : Prop :=
  0x2000 ≤ a ∧ a ≤ 0x7FFF ∨ 0xA000 ≤ a ∧ privileged = true

theorem InCode.not_mayStore {a : Word} {privileged : Bool} (code : InCode a) :
    ¬ MayStore privileged a := by
  simp only [InCode, MayStore, BitVec.le_def] at code ⊢
  rintro (user | ⟨os, _⟩)
  · simp at code user
    omega
  · simp at code os
    omega

theorem inCode_of_isCode {a : Word} (code : (Region.of a).isCode = true) : InCode a := by
  cases region : Region.of a with
  | userCode => exact .inl ((Region.of_eq_iff a _).mp region).2
  | osCode => exact .inr ((Region.of_eq_iff a _).mp region)
  | userData | osData => simp [region, Region.isCode] at code

/-- The check of a store refuses all that the rule forbids. -/
theorem mayStore_of_writable {a : Word} {privileged : Bool}
    (allowed : writable privileged a = true) : MayStore privileged a := by
  cases region : Region.of a with
  | userData => exact .inl ((Region.of_eq_iff a _).mp region)
  | osData =>
    refine .inr ⟨((Region.of_eq_iff a _).mp region).1, ?_⟩
    simpa [writable, region, Region.isCode, Region.isOs] using allowed
  | userCode | osCode => simp [writable, region, Region.isCode] at allowed

/-- The check of a store lets all through that the rule allows. -/
theorem writable_of_mayStore {a : Word} {privileged : Bool} (allowed : MayStore privileged a) :
    writable privileged a = true := by
  rcases allowed with user | ⟨first, os⟩
  · have region : Region.of a = .userData := (Region.of_eq_iff a _).mpr user
    simp [writable, region, Region.isCode, Region.isOs]
  · have last : a.toNat ≤ Region.osData.last.toNat := Nat.le_of_lt_succ a.isLt
    have region : Region.of a = .osData := (Region.of_eq_iff a _).mpr ⟨first, last⟩
    simp [writable, region, Region.isCode, os]

theorem toNat_add_signExtend (a : Word) {n : Nat} (offset : BitVec n) :
    ((a + offset.signExtend 16).toNat : Int) = (a.toNat + offset.toInt) % 65536 := by
  rw [BitVec.toNat_add, BitVec.signExtend, BitVec.toNat_ofInt]
  omega

/-- The instruction is a store that is allowed, to this address and to no other. -/
def Executed.Stores (x : Executed) (a : Word) : Prop :=
  ∃ rs base offset, x.instr = .str rs base offset ∧
    (a.toNat : Int) = ((x.before.reg base).toNat + offset.toInt) % 65536 ∧
    x.after.mem = x.before.mem.set a (x.before.reg rs) ∧ MayStore x.before.privileged a

namespace Executed

/-- An effect that stores is that of a store which was allowed. -/
theorem Valid.stores_of_use {x : Executed} (valid : x.Valid) {a v : Word}
    (use : x.before.memoryUse x.instr = .store a v) : x.Stores a := by
  obtain ⟨e, he, core⟩ := valid.core
  have mem : x.after.mem = e.memory.after x.before.mem := congrArg Core.mem core
  rw [(Machine.effect_touches he).1, use] at mem
  cases shape : x.instr
  case str rs base offset =>
    by_cases allowed :
        writable x.before.privileged (x.before.reg base + offset.signExtend 16) = true
    · simp only [shape, Machine.memoryUse, if_pos allowed, MemoryUse.store.injEq] at use
      obtain ⟨rfl, rfl⟩ := use
      exact ⟨rs, base, offset, shape, toNat_add_signExtend _ _, mem, mayStore_of_writable allowed⟩
    · simp [shape, Machine.memoryUse, allowed] at use
  all_goals simp [shape, Machine.memoryUse] at use

/-- Memory stays as it was, or an allowed store has written one word. -/
theorem Valid.mem {x : Executed} (valid : x.Valid) :
    x.after.mem = x.before.mem ∨ ∃ a, x.Stores a := by
  obtain ⟨e, he, core⟩ := valid.core
  have mem : x.after.mem = e.memory.after x.before.mem := congrArg Core.mem core
  rw [(Machine.effect_touches he).1] at mem
  cases use : x.before.memoryUse x.instr with
  | store a v => exact .inr ⟨a, valid.stores_of_use use⟩
  | none | load a =>
    rw [use] at mem
    exact .inl mem

/-- So no instruction changes a word of a code region. -/
theorem Valid.mem_eq_of_inCode {x : Executed} (valid : x.Valid) {a : Word} (code : InCode a) :
    x.after.mem.get a = x.before.mem.get a := by
  rcases valid.mem with same | ⟨b, _, _, _, _, _, stored, allowed⟩
  · rw [same]
  · rw [stored]
    refine AddressMap.get_set_of_ne _ _ ?_
    rintro rfl
    exact code.not_mayStore allowed

/-- In strict mode a program counter outside of the code regions is a fault. -/
theorem Valid.inCode {x : Executed} (valid : x.Valid) (strict : x.before.flags.strict = true) :
    InCode x.before.pc :=
  inCode_of_isCode ((Machine.checkPc_eq_ok_iff.mp valid.checked).2 strict)

end Executed

namespace Machine

section Histories
variable (fuel : Nat) (ops : List Operation) (m : Machine)

/-- At every moment the words of code regions are those of the start. -/
theorem history_mem_eq_of_inCode {a : Word} (code : InCode a) :
    ∀ t ∈ (m.history fuel ops).machines, t.mem.get a = m.mem.get a := by
  refine history_invariant (I := fun c => c.mem.get a = m.mem.get a) rfl ?_
  intro x _ valid before
  exact (valid.mem_eq_of_inCode code).trans before

/-- At every moment a word that differs from the start has been stored to. -/
theorem history_mem_eq_or_stores (a : Word) : ∀ t ∈ (m.history fuel ops).machines,
    t.mem.get a = m.mem.get a ∨ ∃ x ∈ (m.history fuel ops).executed, x.Stores a := by
  refine history_invariant (I := fun c => c.mem.get a = m.mem.get a ∨ _) (.inl rfl) ?_
  rintro x hx valid (before | stored)
  · rcases valid.mem with same | ⟨b, stores⟩
    · exact .inl ((congrArg (·.get a) same).trans before)
    · by_cases h : a = b
      · exact .inr ⟨x, hx, h ▸ stores⟩
      · obtain ⟨_, _, _, _, _, set, _⟩ := stores
        refine .inl (Eq.trans ?_ before)
        change x.after.mem.get a = x.before.mem.get a
        rw [set, AddressMap.get_set_of_ne _ _ h]
  · exact .inr stored

end Histories

/-- In every history: an instruction leaves memory alone or is a store that is allowed to its one
address; no word in a code region changes; a word that has changed was stored to by one of the
instructions; and in strict mode the instructions that are read from memory are the ones that were
there at first. -/
theorem history_memory_protected (fuel : Nat) (ops : List Operation) (m : Machine) :
    let h := m.history fuel ops
    (∀ x ∈ h.executed, x.after.mem = x.before.mem ∨ ∃ a, x.Stores a) ∧
    (∀ t ∈ h.machines, ∀ a, InCode a → t.mem.get a = m.mem.get a) ∧
    (∀ t ∈ h.machines, ∀ a, t.mem.get a ≠ m.mem.get a → ∃ x ∈ h.executed, x.Stores a) ∧
    (m.flags.strict = true → ∀ x ∈ h.executed, x.fetched = true →
      x.instr = Instr.decode (m.mem.get x.before.pc)) := by
  intro h
  have valid := history_valid fuel ops m
  refine ⟨fun x hx => (valid x hx).mem, ?_, ?_, ?_⟩
  · intro t ht a code
    exact history_mem_eq_of_inCode fuel ops m code t ht
  · intro t ht a changed
    exact (history_mem_eq_or_stores fuel ops m a t ht).resolve_left changed
  · intro strict x hx fetched
    have inside := History.before_mem hx
    have flags : x.before.flags = m.flags := history_flags _ inside
    have code : InCode x.before.pc := (valid x hx).inCode (by rw [flags]; exact strict)
    rw [(valid x hx).origin fetched, fetch, history_mem_eq_of_inCode fuel ops m code _ inside]

/-- A store to the last address, one below the address 0 that its base register holds. -/
theorem history_memory_protected_last_address :
    let m := { new ⟨true, false, false⟩ with mem := Memory.zero.set 0x8201 0x723F }
    let h := m.history 2 [.eval (.const 1 5), .runLimit 1]
    (∃ t ∈ h.machines, t.mem.get 0xFFFF = 5 ∧ t.mem.get 0x8201 = m.mem.get 0x8201) ∧
    (∃ x ∈ h.executed, x.Stores 0xFFFF) ∧
    (∃ x ∈ h.executed, x.fetched = true ∧ x.instr = Instr.decode (m.mem.get x.before.pc)) := by
  intro m h
  obtain ⟨_, code, changes, origin⟩ :=
    history_memory_protected 2 [.eval (.const 1 5), .runLimit 1] m
  have five : 5 ∈ h.machines.map (·.mem.get 0xFFFF) := by decide +kernel
  have stepped : true ∈ h.executed.map Executed.fetched := by decide +kernel
  obtain ⟨t, ht, stored⟩ := List.mem_map.mp five
  obtain ⟨x, hx, fetched⟩ := List.mem_map.mp stepped
  have changed : t.mem.get 0xFFFF ≠ m.mem.get 0xFFFF := by
    rw [stored]
    decide +kernel
  exact ⟨⟨t, ht, stored, code t ht _ (.inr (by decide))⟩, changes t ht _ changed,
    ⟨x, hx, fetched, origin rfl x hx fetched⟩⟩

end Machine

end Lc4
