import Lc4.Instr.Encoding

/-!
# Decoding and encoding

`encode` puts the fields of an instruction into places that do not overlap, and `decode` reads
the same places. So a word that `encode` wrote decodes to the instruction it was written from, up
to the few spellings that share a word, and encoding what was decoded can only lose bits that
`decode` does not look at.
-/
namespace Lc4

namespace Word

section Place
variable {n lo start len : Nat}

theorem getLsbD_place (x : BitVec n) (lo i : Nat) :
    (place x lo).getLsbD i = (decide (lo ≤ i ∧ i < 16) && x.getLsbD (i - lo)) := by
  by_cases hi : i < 16
  · rw [BitVec.getLsbD_eq_getElem hi, getElem_place x lo i hi]
    simp [hi]
  · rw [BitVec.getLsbD_of_ge _ _ (by omega)]
    simp [hi]

/-- A field at or above the place of another is read from the other alone. -/
@[simp] theorem extractLsb'_place (x : BitVec n) (h : lo ≤ start) (fits : start + len ≤ 16) :
    (place x lo).extractLsb' start len = x.extractLsb' (start - lo) len := by
  apply BitVec.eq_of_getLsbD_eq
  intro i hi
  have inside : lo ≤ start + i ∧ start + i < 16 := by omega
  have moved : start + i - lo = start - lo + i := by omega
  simp only [BitVec.getLsbD_extractLsb', getLsbD_place, inside, moved]
  simp

@[simp] theorem extractLsb'_place_of_le (x : BitVec n) (h : start + len ≤ lo) :
    (place x lo).extractLsb' start len = 0 := by
  apply BitVec.eq_of_getLsbD_eq
  intro i hi
  have below : ¬ (lo ≤ start + i ∧ start + i < 16) := by omega
  simp only [BitVec.getLsbD_extractLsb', getLsbD_place, below]
  simp

@[simp] theorem extractLsb'_of_le (x : BitVec n) (h : n ≤ start) :
    x.extractLsb' start len = 0 := by
  apply BitVec.eq_of_getLsbD_eq
  intro i hi
  have beyond : n ≤ start + i := by omega
  simp only [BitVec.getLsbD_extractLsb', BitVec.getLsbD_of_ge x _ beyond]
  simp

end Place

/-- Clearing bits of the second word gives the first. -/
def Within (v w : Word) : Prop :=
  v &&& w = v

theorem within_iff {v w : Word} : Within v w ↔ ∀ i, v.getLsbD i = true → w.getLsbD i = true := by
  constructor
  · intro h i hi
    have both : (v &&& w).getLsbD i = true := by rw [h, hi]
    rw [BitVec.getLsbD_and, Bool.and_eq_true] at both
    exact both.2
  · intro h
    apply BitVec.eq_of_getLsbD_eq
    intro i _
    rw [BitVec.getLsbD_and]
    cases hv : v.getLsbD i with
    | false => rfl
    | true => rw [h i hv, Bool.and_self]

theorem within_self (w : Word) : Within w w :=
  BitVec.and_self

theorem within_or {u v w : Word} : Within (u ||| v) w ↔ Within u w ∧ Within v w := by
  simp only [within_iff, BitVec.getLsbD_or, Bool.or_eq_true]
  exact ⟨fun h => ⟨fun i hi => h i (.inl hi), fun i hi => h i (.inr hi)⟩,
    fun h i hi => hi.elim (h.1 i) (h.2 i)⟩

section Within
variable {n lo i : Nat} {w : Word}

/-- A word holds a field in the place that it is read from. -/
theorem within_place {x : BitVec n} (h : w.extractLsb' lo n = x) : Within (place x lo) w := by
  rw [within_iff]
  intro i hi
  rw [getLsbD_place, ← h, BitVec.getLsbD_extractLsb'] at hi
  simp only [Bool.and_eq_true, decide_eq_true_eq] at hi
  obtain ⟨⟨hlo, -⟩, -, hw⟩ := hi
  rwa [Nat.add_sub_cancel' hlo] at hw

theorem within_place_extractLsb' (w : Word) (lo n : Nat) :
    Within (place (w.extractLsb' lo n) lo) w :=
  within_place rfl

theorem within_place_setWidth (w : Word) (h : n ≤ 16) : Within (place (w.setWidth n) 0) w :=
  within_place (BitVec.setWidth_eq_extractLsb' h).symm

theorem within_place_one (h : w.getLsbD i = true) : Within (place 1#1 i) w := by
  apply within_place
  apply BitVec.eq_of_getLsbD_eq
  intro j hj
  obtain rfl : j = 0 := by omega
  simp [h]

end Within

end Word

/-- The selector of an operation in the two bits that tell it from the others of its group. -/
theorem AluOp.place_code (op : AluOp) :
    Word.place op.code.2 3 =
      if op = mod then Word.place 3#2 4 else Word.place (op.code.2.setWidth 2) 3 := by
  cases op <;> rfl

namespace Instr

open Word

/-- The spelling of an instruction that is decoded from its word. Only the flags of a branch
condition are in the word, a branch on no flag is no branch, and a jump to the link register is a
return. -/
def canon : Instr → Instr
  | br c o => if condFlags c = 0 then nop else br ((condFlags c).setWidth 8) o
  | jmp (.reg r) => if r = Reg.link then ret else jmp (.reg r)
  | i => i

/-- The instructions of the machine: all but the two that stand for two words and the one that
stands for a word of no instruction. -/
def Plain : Instr → Prop
  | lea _ _ | lc _ _ | unknown _ => False
  | _ => True

theorem condFlags_setWidth (f : BitVec 3) : condFlags (f.setWidth 8) = f := by
  revert f
  decide

/-- Each form is read from the places that it was written to. -/
theorem decode_encode {i : Instr} (h : i.Plain) :
    ∃ w, encode i = some w ∧ decode w = canon i := by
  cases i with
  | lea | lc | unknown => exact h.elim
  | add _ _ o | and _ _ o | jsr o | jmp o =>
    cases o <;> refine ⟨_, rfl, ?_⟩ <;>
      simp [decode, group, canon, BitVec.setWidth_eq_extractLsb', BitVec.extractLsb'_or,
        getElem_place]
  | alu op | shift op =>
    cases op <;> refine ⟨_, rfl, ?_⟩ <;>
      simp [decode, group, canon, BitVec.setWidth_eq_extractLsb', BitVec.extractLsb'_or,
        getElem_place, AluOp.code, ShiftOp.code]
  | cmp reading | cmpImm reading =>
    cases reading <;> refine ⟨_, rfl, ?_⟩ <;>
      simp [decode, group, canon, BitVec.setWidth_eq_extractLsb', BitVec.extractLsb'_or]
  | _ =>
    refine ⟨_, rfl, ?_⟩
    simp [decode, group, canon, BitVec.setWidth_eq_extractLsb', BitVec.extractLsb'_or,
      getElem_place]

/-- Decoding gives a plain instruction or keeps the word. -/
theorem plain_decode_or (w : Word) : (decode w).Plain ∨ decode w = unknown w := by
  unfold decode
  dsimp only
  split <;> repeat' split
  all_goals simp [Plain]

/-- Words are not decoded to an instruction that shares its word with another. -/
theorem canon_decode (w : Word) : (decode w).canon = decode w := by
  unfold decode
  dsimp only
  split <;> repeat' split
  case h_1.isFalse flags => simpa [canon, condFlags_setWidth] using flags
  case h_11.isFalse.isFalse link => simp [canon, link]
  all_goals rfl

theorem eq_three_of_ne : ∀ {s : BitVec 2}, s ≠ 0 → s ≠ 1 → s ≠ 2 → s = 3 := by
  decide

/-- Encoding again can only lose bits. -/
theorem within_encode_decode (w : Word) : ∃ v, encode (decode w) = some v ∧ v.Within w := by
  unfold decode
  dsimp only
  split <;> repeat' split
  all_goals refine ⟨_, rfl, ?_⟩
  all_goals
    try simp only [group, AluOp.place_code, ShiftOp.code, condFlags_setWidth, within_or,
      within_place_extractLsb', and_true]
  all_goals
    simp [*, AluOp.code, within_self, within_place, within_place_one, within_place_setWidth]
  -- The selectors that are left are those of the last operation of a group, which `decode`
  -- takes by default, and the one of `not`.
  · exact within_place (eq_three_of_ne ‹_› ‹_› ‹_›)
  · exact within_place (eq_three_of_ne ‹_› ‹_› ‹_›)
  · exact within_place (x := 1#2) ‹_›
  · exact within_place (eq_three_of_ne ‹_› ‹_› ‹_›)
  · exact within_place (eq_three_of_ne ‹_› ‹_› ‹_›)

/-- The bits that are lost are none that decoding looks at. -/
theorem decode_encode_decode {v w : Word} (h : encode (decode w) = some v) :
    decode v = decode w := by
  rcases plain_decode_or w with plain | unknown
  · obtain ⟨u, hu, decoded⟩ := decode_encode plain
    obtain rfl : u = v := Option.some.inj (hu.symm.trans h)
    rw [decoded, canon_decode]
  · obtain rfl : w = v := by simpa [unknown, encode] using h
    rfl

theorem encode_decode_inj {v w : Word} :
    encode (decode v) = encode (decode w) ↔ decode v = decode w := by
  constructor
  · intro same
    obtain ⟨u, hu, -⟩ := within_encode_decode w
    rw [← decode_encode_decode hu, ← decode_encode_decode (same.trans hu)]
  · exact fun same => congrArg encode same

/-- The words of no instruction. -/
def NoInstr (w : Word) : Prop :=
  w.extractLsb' 12 4 = 0x3#4 ∨ w.extractLsb' 12 4 = 0xB#4 ∨ w.extractLsb' 12 4 = 0xE#4 ∨
    w.extractLsb' 12 4 = 0xD#4 ∧ w.getLsbD 8 = false

theorem opcode_mem_or (g : BitVec 4) :
    g ∈ [0x0, 0x1, 0x2, 0x4, 0x5, 0x6, 0x7, 0x8, 0x9, 0xA, 0xC, 0xD, 0xF] ∨
      g = 0x3 ∨ g = 0xB ∨ g = 0xE := by
  revert g
  decide

/-- The words that are no instruction, opcode by opcode. -/
theorem decode_eq_unknown_iff {w : Word} : decode w = unknown w ↔ NoInstr w := by
  unfold decode NoInstr
  dsimp only
  split <;> repeat' split
  case h_14 =>
    have opcodes := opcode_mem_or (w.extractLsb' 12 4)
    simp_all
  all_goals simp_all

/-- Encoding and decoding undo each other, as far as two spellings of one word and the bits that
no field of an instruction takes allow. -/
theorem encode_decode_inverse :
    (∀ i : Instr, i.Plain → ∃ w, encode i = some w ∧ decode w = canon i) ∧
    (∀ w, ∃ v, encode (decode w) = some v ∧ decode v = decode w ∧ v.Within w) ∧
    (∀ v w, decode v = decode w ↔ encode (decode v) = encode (decode w)) ∧
    ∀ w, decode w = unknown w ↔ NoInstr w := by
  refine ⟨fun _ plain => decode_encode plain, fun w => ?_, fun _ _ => encode_decode_inj.symm,
    fun _ => decode_eq_unknown_iff⟩
  obtain ⟨v, encoded, within⟩ := within_encode_decode w
  exact ⟨v, encoded, decode_encode_decode encoded, within⟩

/-- The condition of this branch has the flag `z` and a bit that does not count. -/
theorem encode_decode_inverse_branch :
    (br 0x0A 0x1FF).Plain ∧
      ∃ w, encode (br 0x0A 0x1FF) = some w ∧ decode w = br 0x02 0x1FF :=
  ⟨trivial, encode_decode_inverse.1 (br 0x0A 0x1FF) trivial⟩

end Instr

end Lc4
