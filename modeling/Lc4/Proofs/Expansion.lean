import Lc4.Proofs.BlockCopy
import Lc4.Proofs.Conditions

/-!
# Loading a whole word

No machine word is long enough for an instruction that loads a word. Its expansion loads the low
byte, which clears the high one, and then puts the high byte over it. After both, all that an
instruction works on is as after the load, but for the program counter, which has one word more to
pass.
-/
namespace Lc4

theorem RegFile.write_write (regs : RegFile) (r : Reg) (v w : Word) :
    (regs.write r v).write r w = regs.write r w := by
  simp [write]

/-- A byte passes through a signed field of nine bits without a sign. -/
theorem low_extend (x : BitVec 8) : ((x.setWidth 9).signExtend 16).extractLsb' 0 8 = x := by
  have positive : (x.setWidth 9).msb = false := by
    rw [BitVec.msb_setWidth, BitVec.getLsbD_of_ge x 8 (by decide)]
    rfl
  have low (w : Word) : w.extractLsb' 0 8 = w.setWidth 8 :=
    (BitVec.setWidth_eq_extractLsb' (by decide)).symm
  calc ((x.setWidth 9).signExtend 16).extractLsb' 0 8
      = ((x.setWidth 9).setWidth 16).setWidth 8 := by
        rw [low, BitVec.signExtend_eq_setWidth_of_msb_false positive]
    _ = x.setWidth 8 := by
        rw [BitVec.setWidth_setWidth_of_le _ (by decide),
          BitVec.setWidth_setWidth_of_le _ (by decide)]
    _ = x := BitVec.setWidth_eq x

/-- The instruction that loads the low byte of a word. -/
def Instr.loadLow (r : Reg) (v : Word) : Instr :=
  const r ((v.extractLsb' 0 8).setWidth 9)

/-- The instruction that puts the high byte of a word over a low one. -/
def Instr.loadHigh (r : Reg) (v : Word) : Instr :=
  hiconst r (v.extractLsb' 8 8)

namespace Instr
variable {i : Instr} {r : Reg} {v : Word}

theorem expand_eq (pseudo : i = lea r v ∨ i = lc r v) :
    i.expand = [loadLow r v, loadHigh r v] := by
  rcases pseudo with rfl | rfl <;> rfl

theorem exists_toWords (pseudo : i = lea r v ∨ i = lc r v) : ∃ low high,
    i.toWords = [low, high] ∧ decode low = loadLow r v ∧ decode high = loadHigh r v := by
  obtain ⟨low, encoded, decoded⟩ := decode_encode (i := loadLow r v) trivial
  obtain ⟨high, encoded', decoded'⟩ := decode_encode (i := loadHigh r v) trivial
  refine ⟨low, high, ?_, decoded, decoded'⟩
  simp only [toWords, expand_eq pseudo, List.filterMap_cons, encoded, encoded', List.filterMap_nil]

end Instr

/-- After an instruction that has written a register and gone on to the next address. -/
def Core.loading (c : Core) (r : Reg) (w : Word) : Core :=
  { c with regs := c.regs.write r w, pc := c.pc + 1, psr := { c.psr with cond := .ofWord w } }

theorem Core.loading_loading (c : Core) (r : Reg) (v w : Word) :
    (c.loading r v).loading r w = { c.loading r w with pc := c.pc + 1 + 1 } := by
  simp only [loading, RegFile.write_write]

namespace Machine
variable {m n : Machine} {i : Instr} {o : Outcome} {r : Reg} {v w : Word}

theorem checkPc_eq (pc : n.pc = m.pc) (privilege : n.psr.privileged = m.psr.privileged)
    (flags : n.flags = m.flags) : n.checkPc = m.checkPc := by
  unfold checkPc privileged
  rw [pc, privilege, flags]

/-- What has the effect of a load loads the core, stepped or evaluated. -/
theorem Attempt.loading (tried : m.Attempt i o) (checked : m.checkPc = .ok ())
    (he : m.effect i = .ok ((Effect.goto (m.pc + 1)).writing r w)) :
    o.fault = none ∧ o.machine.core = m.core.loading r w := by
  obtain ⟨ran, core⟩ := tried.of_execute (execute_eq_ok_iff.mpr ⟨checked, _, he, rfl⟩)
  refine ⟨ran, core.trans ?_⟩
  rw [core_apply]
  rfl

theorem effect_load (pseudo : i = .lea r v ∨ i = .lc r v) (inside : m.pc ≠ 0xFFFF) :
    m.effect i = .ok ((Effect.goto (m.pc + 1)).writing r v) := by
  have next : m.fallThrough = .ok (m.pc + 1) := fallThrough_eq_ok_iff.mpr ⟨inside, rfl⟩
  rcases pseudo with rfl | rfl <;> simp only [effect, next] <;> rfl

/-- The low half loads its byte with the sign extended from a bit that is zero. -/
theorem effect_loadLow (r : Reg) (v : Word) (inside : m.pc ≠ 0xFFFF) :
    m.effect (.loadLow r v) = .ok ((Effect.goto (m.pc + 1)).writing r
      (((v.extractLsb' 0 8).setWidth 9).signExtend 16)) := by
  have next : m.fallThrough = .ok (m.pc + 1) := fallThrough_eq_ok_iff.mpr ⟨inside, rfl⟩
  simp only [Instr.loadLow, effect, next]
  rfl

/-- The high half completes the word if the low byte is there. -/
theorem effect_loadHigh (r : Reg) (v : Word) (inside : m.pc ≠ 0xFFFF)
    (low : (m.reg r).extractLsb' 0 8 = v.extractLsb' 0 8) :
    m.effect (.loadHigh r v) = .ok ((Effect.goto (m.pc + 1)).writing r v) := by
  have next : m.fallThrough = .ok (m.pc + 1) := fallThrough_eq_ok_iff.mpr ⟨inside, rfl⟩
  simp only [Instr.loadHigh, effect, next, low, BitVec.extractLsb'_append_extractLsb']
  rfl

/-- Two instructions may run from the program counter on, if the first goes on to the second. -/
structure HasRoom (m : Machine) : Prop where
  inside : m.pc.toNat ≤ 65533
  here : m.checkPc = .ok ()
  next : { m with pc := m.pc + 1 }.checkPc = .ok ()

theorem HasRoom.pc_ne_last (room : m.HasRoom) : m.pc ≠ 0xFFFF := by
  have := room.inside
  rw [ne_eq, pc_eq_last_iff]
  omega

theorem HasRoom.next_ne_last (room : m.HasRoom) : m.pc + 1 ≠ 0xFFFF := by
  have inside := room.inside
  have value := (toNat_next room.pc_ne_last).1
  rw [ne_eq, ← BitVec.toNat_inj]
  change ¬ (m.pc + 1).toNat = 65535
  omega

theorem HasRoom.next_ne_pc (room : m.HasRoom) : m.pc + 1 ≠ m.pc := by
  have value := (toNat_next room.pc_ne_last).1
  intro same
  rw [same] at value
  omega

/-- However the two halves of an expansion are run, one after the other loads the whole word. -/
theorem load_of_halves {o₁ o₂ : Outcome} (room : m.HasRoom)
    (first : m.Attempt (.loadLow r v) o₁) (second : o₁.machine.Attempt (.loadHigh r v) o₂) :
    o₁.fault = none ∧ o₂.fault = none ∧
      o₂.machine.core = { m.core.loading r v with pc := m.pc + 2 } := by
  obtain ⟨ran₁, core₁⟩ := first.loading room.here (effect_loadLow r v room.pc_ne_last)
  have pc : o₁.machine.pc = m.pc + 1 := congrArg Core.pc core₁
  have psr : o₁.machine.psr.privileged = m.psr.privileged :=
    congrArg (fun c => c.psr.privileged) core₁
  have flags : o₁.machine.flags = m.flags := congrArg Core.flags core₁
  have regs : o₁.machine.regs = m.regs.write r _ := congrArg Core.regs core₁
  have low : (o₁.machine.reg r).extractLsb' 0 8 = v.extractLsb' 0 8 := by
    rw [reg, regs, RegFile.read_write_self, low_extend]
  have there : o₁.machine.checkPc = .ok () :=
    (checkPc_eq (m := { m with pc := m.pc + 1 }) pc psr flags).trans room.next
  obtain ⟨ran₂, core₂⟩ := second.loading there (effect_loadHigh r v (pc ▸ room.next_ne_last) low)
  refine ⟨ran₁, ran₂, ?_⟩
  rw [core₂, core₁, Core.loading_loading, BitVec.add_assoc]
  rfl

/-- Steps find the two halves of an expansion where they were stored. -/
theorem load_of_stored {words : List Word} {low high : Word} (room : m.HasRoom)
    (pair : words = [low, high]) (decoded : Instr.decode low = .loadLow r v)
    (decoded' : Instr.decode high = .loadHigh r v) (awake : m.pc ≠ haltAddr)
    (awake' : m.pc + 1 ≠ haltAddr) :
    let stored := { m with mem := m.mem.copyBlock m.pc words }
    (stored.stepIn.fault = none ∧ stored.stepIn.machine.stepIn.fault = none ∧
      stored.stepIn.machine.stepIn.machine.core =
        { m.core.loading r v with mem := stored.mem, pc := m.pc + 2 }) ∧
      ∀ a, a ≠ m.pc → a ≠ m.pc + 1 → stored.mem.get a = m.mem.get a := by
  subst pair
  intro stored
  have room : stored.HasRoom := ⟨room.inside, room.here, room.next⟩
  have written : stored.mem = (m.mem.set m.pc low).set (m.pc + 1) high := by
    change m.mem.copyBlock m.pc [low, high] = _
    rw [Memory.copyBlock_eq_foldl, Memory.placed_cons, Memory.placed_cons]
    rfl
  have here : stored.mem.get m.pc = low := by
    rw [written, AddressMap.get_set_of_ne _ _ room.next_ne_pc.symm]
    exact AddressMap.get_set_self _ _ _
  have next : stored.mem.get (m.pc + 1) = high := by
    rw [written, AddressMap.get_set_self]
  have found : stored.fetch = .loadLow r v := (congrArg Instr.decode here).trans decoded
  have first : stored.Attempt (.loadLow r v) stored.stepIn := .stepped awake found
  have core := (first.loading room.here (effect_loadLow r v room.pc_ne_last)).2
  have mem : stored.stepIn.machine.mem = stored.mem := congrArg Core.mem core
  have pc : stored.stepIn.machine.pc = m.pc + 1 := congrArg Core.pc core
  have found' : stored.stepIn.machine.fetch = .loadHigh r v := by
    rw [fetch, mem, pc, next, decoded']
  refine ⟨load_of_halves room first (.stepped (pc ▸ awake') found'), fun a first second => ?_⟩
  rw [written]
  exact (AddressMap.get_set_of_ne _ _ second).trans (AddressMap.get_set_of_ne _ _ first)

/-- The expansion of a load has two words. Evaluated one after the other, its instructions do what
the load does, but for the program counter, which has passed one word more. So do two steps that
find the words in memory. -/
theorem eval_expand {i : Instr} {r : Reg} {v : Word} (pseudo : i = .lea r v ∨ i = .lc r v) :
    i.toWords.length = 2 ∧ i.toWords.map Instr.decode = i.expand ∧
    ∃ low high, i.expand = [low, high] ∧ ∀ m : Machine, m.HasRoom →
      let load := m.eval i
      (load.fault = none ∧ load.machine.pc = m.pc + 1 ∧ load.machine.reg r = v ∧
        load.machine.psr.cond = .ofOrder v.toInt 0) ∧
      (let first := m.eval low
        let last := first.machine.eval high
        first.fault = none ∧ last.fault = none ∧
        last.machine.core = { load.machine.core with pc := m.pc + 2 }) ∧
      (m.pc ≠ haltAddr → m.pc + 1 ≠ haltAddr →
        let stored := { m with mem := m.mem.copyBlock m.pc i.toWords }
        let first := stored.stepIn
        let last := first.machine.stepIn
        first.fault = none ∧ last.fault = none ∧
        last.machine.core = { load.machine.core with mem := stored.mem, pc := m.pc + 2 } ∧
        ∀ a, a ≠ m.pc → a ≠ m.pc + 1 → last.machine.mem.get a = load.machine.mem.get a) := by
  obtain ⟨low, high, words, decoded, decoded'⟩ := Instr.exists_toWords pseudo
  have expansion := Instr.expand_eq pseudo
  refine ⟨by rw [words]; rfl, ?_, .loadLow r v, .loadHigh r v, expansion, ?_⟩
  · rw [words, expansion, List.map_cons, List.map_cons, decoded, decoded', List.map_nil]
  intro m room load
  obtain ⟨ran, core⟩ := Attempt.evaluated.loading room.here (effect_load pseudo room.pc_ne_last)
  have regs : load.machine.regs = m.regs.write r v := congrArg Core.regs core
  have cond : load.machine.psr.cond = .ofWord v := congrArg (fun c => c.psr.cond) core
  refine ⟨⟨ran, congrArg Core.pc core, ?_, cond.trans (Cond.ofWord_eq_ofOrder v)⟩, ?_, ?_⟩
  · rw [reg, regs, RegFile.read_write_self]
  · rw [core]
    exact load_of_halves room .evaluated .evaluated
  · intro awake awake' stored first last
    obtain ⟨⟨ran, ran', core'⟩, others⟩ :=
      load_of_stored room words decoded decoded' awake awake'
    have mem : load.machine.mem = m.mem := congrArg Core.mem core
    have mem' : last.machine.mem = stored.mem := congrArg Core.mem core'
    rw [mem, mem', core]
    exact ⟨ran, ran', core', others⟩

/-- The low byte of this word is more than a signed byte holds, and it is read back from memory. -/
theorem eval_expand_large_bytes :
    let m := new .none
    let load := Instr.lc 3 0xFF80
    let stored := { m with mem := m.mem.copyBlock 0x8200 load.toWords }
    let last := stored.stepIn.machine.stepIn
    load.toWords = [0x9680, 0xD7FF] ∧ (m.eval load).fault = none ∧ last.fault = none ∧
      last.machine.reg 3 = 0xFF80 ∧ last.machine.psr.cond = .negative ∧
      last.machine.pc = 0x8202 := by
  intro m load stored last
  have room : m.HasRoom := ⟨by decide, rfl, rfl⟩
  obtain ⟨-, -, low, high, -, runs⟩ := eval_expand (i := load) (.inr rfl)
  obtain ⟨⟨ran, -, loaded, cond⟩, -, steps⟩ := runs m room
  obtain ⟨-, ran', core, -⟩ := steps (by decide) (by decide)
  have regs : last.machine.regs = (m.eval load).machine.regs := congrArg Core.regs core
  have psr : last.machine.psr = (m.eval load).machine.psr := congrArg Core.psr core
  refine ⟨by decide +kernel, ran, ran', ?_, ?_, congrArg Core.pc core⟩
  · rw [reg, regs]
    exact loaded
  · rw [psr]
    exact cond

end Machine

end Lc4
