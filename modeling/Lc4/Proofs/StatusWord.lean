import Lc4.Proofs.Loading
import Lc4.Proofs.Sessions

/-!
# The status register as a word

A status register may also be kept as a bare word, on which every write works through masks. Such a
word follows the register of a machine through every session. So the masks let no unused bit in and
leave one flag set, whatever is written, and a write to one part of the word spares the other.
-/
namespace Lc4

/-- One flag of the mask is set and no other. -/
def Cond.Single (m : BitVec 3) : Prop :=
  ∃ i : Fin 3, ∀ j : Fin 3, m.getLsbD j = true ↔ j = i

instance (m : BitVec 3) : Decidable (Cond.Single m) :=
  inferInstanceAs (Decidable (∃ i : Fin 3, ∀ j : Fin 3, m.getLsbD j = true ↔ j = i))

namespace Cond

theorem single_mask (c : Cond) : Single c.mask := by
  cases c <;> decide

/-- A mask with one bit names a condition; any other is taken for zero. -/
theorem mask_ofMask (m : BitVec 3) : (ofMask m).mask = if Single m then m else 0b010 := by
  revert m
  decide

end Cond

namespace StatusWord

def initial : Word := 0x8002

/-- The flags of a byte, or `z` alone unless just one of them is set. -/
def flags (byte : BitVec 8) : BitVec 8 :=
  let low := byte &&& 0b111
  if low.cpop = 1 then low else 0b010

/-- Writes the flags over the old ones. -/
def setCond (w : Word) (byte : BitVec 8) : Word :=
  (w &&& 0xFFF8) ||| (flags byte).setWidth 16

def setPrivileged (w : Word) (b : Bool) : Word :=
  (w &&& 0x7FFF) ||| Word.place (BitVec.ofBool b) 15

/-- The whole word is masked first and its flags are then written once more, so that they are one. -/
def set (data : Word) : Word :=
  setCond (data &&& 0x8007) ((data &&& 0b111).setWidth 8)

/-- Only the privilege and one flag are set. -/
structure WellFormed (w : Word) : Prop where
  unused : ∀ i < 15, 3 ≤ i → w.getLsbD i = false
  single : Cond.Single (w.setWidth 3)

theorem low_eq_setWidth (byte : BitVec 8) : byte &&& 0b111 = (byte.setWidth 3).setWidth 8 := by
  have mask : ∀ i < 8, (0b111 : BitVec 8).getLsbD i = decide (i < 3) := by decide
  refine BitVec.eq_of_getLsbD_eq fun i hi => ?_
  rw [BitVec.getLsbD_and, mask i hi, BitVec.getLsbD_setWidth, BitVec.getLsbD_setWidth]
  simp only [hi, decide_true, Bool.true_and, Bool.and_comm]

/-- The masks of the word pick the condition that the register picks. -/
theorem flags_eq_mask (byte : BitVec 8) :
    flags byte = (Cond.ofMask (byte.setWidth 3)).mask.setWidth 8 := by
  simp only [flags, low_eq_setWidth]
  generalize byte.setWidth 3 = m
  revert m
  decide

theorem privilege_setCond (w : Word) (byte : BitVec 8) :
    (setCond w byte).getLsbD 15 = w.getLsbD 15 := by
  have mask : (0xFFF8 : Word).getLsbD 15 = true := by decide
  have outside : ((flags byte).setWidth 16).getLsbD 15 = false := by
    rw [BitVec.getLsbD_setWidth, BitVec.getLsbD_of_ge _ _ (by decide), Bool.and_false]
  rw [setCond, BitVec.getLsbD_or, BitVec.getLsbD_and, mask, outside, Bool.and_true, Bool.or_false]

theorem flags_setPrivileged (w : Word) (b : Bool) :
    (setPrivileged w b).setWidth 3 = w.setWidth 3 := by
  have mask : (0x7FFF : Word).setWidth 3 = BitVec.allOnes 3 := by decide
  have outside : (Word.place (BitVec.ofBool b) 15).setWidth 3 = 0#3 := by cases b <;> rfl
  rw [setPrivileged, BitVec.setWidth_or, BitVec.setWidth_and, mask, outside, BitVec.and_allOnes,
    BitVec.or_zero]

end StatusWord

namespace Psr

variable (p : Psr)

theorem privileged_toWord : p.toWord.getLsbD 15 = p.privileged := by
  rcases p with ⟨b, c⟩
  cases b <;> cases c <;> rfl

theorem flags_toWord : p.toWord.setWidth 3 = p.cond.mask := by
  rcases p with ⟨b, c⟩
  cases b <;> cases c <;> rfl

/-- The word of a register has no unused bit and one flag. -/
theorem wellFormed_toWord : StatusWord.WellFormed p.toWord := by
  constructor
  · rcases p with ⟨b, c⟩
    cases b <;> cases c <;> decide
  · rw [flags_toWord]
    exact p.cond.single_mask

theorem toWord_setCond (byte : BitVec 8) :
    (p.setCond byte).toWord = StatusWord.setCond p.toWord byte := by
  rw [setCond, StatusWord.setCond, StatusWord.flags_eq_mask]
  generalize Cond.ofMask (byte.setWidth 3) = d
  rcases p with ⟨b, c⟩
  cases b <;> cases c <;> cases d <;> rfl

theorem toWord_setPrivileged (b : Bool) :
    (p.setPrivileged b).toWord = StatusWord.setPrivileged p.toWord b := by
  rcases p with ⟨old, c⟩
  cases old <;> cases c <;> cases b <;> rfl

theorem toWord_ofWord (w : Word) : (ofWord w).toWord = StatusWord.set w := by
  have low : ((w &&& 0b111).setWidth 8).setWidth 3 = w.setWidth 3 := by
    rw [BitVec.setWidth_setWidth (by decide), BitVec.setWidth_and]
    exact BitVec.and_allOnes
  -- What the first mask lets through of the flags, the second takes away.
  have masks : (0x8007 : Word) &&& 0xFFF8 = .twoPow 16 15 := by decide
  rw [StatusWord.set, StatusWord.setCond, StatusWord.flags_eq_mask, low, BitVec.and_assoc, masks,
    BitVec.and_twoPow, ofWord]
  generalize Cond.ofMask (w.setWidth 3) = c
  cases w.getLsbD 15 <;> cases c <;> rfl

end Psr

/-- The status word that an effect leaves of `w`. The flags are written before the privilege. -/
def Effect.status (e : Effect) (w : Word) : Word :=
  let flagged := match e.cond with
    | some c => StatusWord.setCond w (c.mask.setWidth 8)
    | none => w
  match e.privilege with
  | some b => StatusWord.setPrivileged flagged b
  | none => flagged

theorem Effect.toWord_psrAfter (e : Effect) (p : Psr) :
    (e.psrAfter p).toWord = e.status p.toWord := by
  have flagged (c : Cond) :
      StatusWord.setCond p.toWord (c.mask.setWidth 8) = Psr.toWord ⟨p.privileged, c⟩ := by
    have mask : (c.mask.setWidth 8).setWidth 3 = c.mask := by cases c <;> rfl
    rw [← Psr.toWord_setCond, Psr.setCond, mask, Cond.ofMask_mask]
  unfold status psrAfter
  cases e.cond with
  | none =>
    cases e.privilege with
    | none => rfl
    | some b => exact p.toWord_setPrivileged b
  | some c =>
    simp only [flagged]
    cases e.privilege with
    | none => rfl
    | some b => exact Psr.toWord_setPrivileged ⟨p.privileged, c⟩ b

/-- The status word after an instruction that starts with `w`. -/
def Executed.status (w : Word) (x : Executed) : Word :=
  match x.before.effect x.instr with
  | .ok e => e.status w
  | .error _ => w

/-- The word follows an instruction. -/
theorem Executed.Valid.status {x : Executed} (valid : x.Valid) :
    x.status x.before.psr.toWord = x.after.psr.toWord := by
  obtain ⟨e, he, core⟩ := valid.core
  have psr : x.after.psr = e.psrAfter x.before.psr := congrArg Core.psr core
  simp only [Executed.status, he]
  rw [psr, Effect.toWord_psrAfter]

/-- The machines before and after each instruction, with the status word that starts as `w`. -/
def Executed.statuses (w : Word) : List Executed → List (Machine × Word)
  | [] => []
  | x :: xs => (x.before, w) :: (x.after, x.status w) :: statuses (x.status w) xs

/-- The word follows instructions in a row, at every moment between them. -/
theorem Linked.status_words {m s : Machine} {xs : List Executed} (linked : Linked m xs s) :
    (∀ q ∈ Executed.statuses m.psr.toWord xs, q.1.psr.toWord = q.2) ∧
      xs.foldl Executed.status m.psr.toWord = s.psr.toWord := by
  induction linked with
  | nil same =>
    have psr := congrArg Core.psr same
    exact ⟨fun _ none => absurd none List.not_mem_nil, congrArg Psr.toWord psr.symm⟩
  | @cons m s x xs same valid rest ih =>
    have psr : x.before.psr = m.psr := congrArg Core.psr same
    obtain ⟨between, last⟩ := ih
    simp only [Executed.statuses, List.foldl_cons, ← psr, valid.status]
    refine ⟨?_, last⟩
    rintro q (_ | ⟨_, _ | ⟨_, hq⟩⟩)
    · rfl
    · rfl
    · exact between q hq

def StatusWrite.status (w : Word) : StatusWrite → Word
  | word data => StatusWord.set data
  | cond byte => StatusWord.setCond w byte
  | privilege b => StatusWord.setPrivileged w b

theorem StatusWrite.toWord_perform (p : Psr) (write : StatusWrite) :
    (write.perform p).toWord = write.status p.toWord := by
  cases write with
  | word data => exact Psr.toWord_ofWord data
  | cond byte => exact p.toWord_setCond byte
  | privilege b => exact p.toWord_setPrivileged b

namespace Action

/-- The status word after an action that starts with `w`. -/
def status (fuel : Nat) (m : Machine) (w : Word) : Action → Word
  | operate op => (op.executed fuel m).foldl Executed.status w
  | reset | clear => StatusWord.initial
  | loadBytes _ | loadFile _ | setFlags _ => w
  | writeStatus write => write.status w

section Status
variable {fuel : Nat} {m s : Machine} {a : Action}

theorem status_words_executed (fuel : Nat) (m : Machine) (a : Action) :
    ∀ q ∈ Executed.statuses m.psr.toWord (a.executed fuel m), q.1.psr.toWord = q.2 := by
  cases a with
  | operate op =>
    cases h : op.perform fuel m with
    | none =>
      obtain ⟨s, linked⟩ := Machine.linked_of_perform_eq_none h
      exact linked.status_words.1
    | some o => exact (Machine.linked_of_perform h).status_words.1
  | _ => exact (Linked.nil (s := m) rfl).status_words.1

theorem status_of_perform (h : a.perform fuel m = some s) :
    a.status fuel m m.psr.toWord = s.psr.toWord := by
  cases a with
  | operate op =>
    obtain ⟨o, ho, rfl⟩ := Option.map_eq_some_iff.mp h
    exact (Machine.linked_of_perform ho).status_words.2
  | reset | clear =>
    obtain rfl := Option.some.inj h
    exact Psr.toWord_initial.symm
  | loadBytes bytes =>
    obtain rfl := Option.some.inj h
    rw [Machine.loadBytes_eq_loadFile, Machine.loadFile_eq_adding]
    rfl
  | loadFile f =>
    obtain rfl := Option.some.inj h
    rw [Machine.loadFile_eq_adding]
    rfl
  | setFlags f =>
    obtain rfl := Option.some.inj h
    rfl
  | writeStatus write =>
    obtain rfl := Option.some.inj h
    exact (write.toWord_perform m.psr).symm

end Status

end Action

namespace Machine

/-- All machines of a session, those between instructions too, each with the status word that
starts as `w`. A run that its fuel does not finish is the end of the session. -/
def moments (fuel : Nat) : List Action → Machine → Word → List (Machine × Word)
  | [], m, w => [(m, w)]
  | a :: rest, m, w =>
    (m, w) :: Executed.statuses w (a.executed fuel m) ++
      match a.perform fuel m with
      | none => []
      | some s => moments fuel rest s (a.status fuel m w)

/-- A status word that starts as that of the machine stays so. -/
theorem toWord_of_mem_moments {fuel : Nat} {actions : List Action} {m : Machine} :
    ∀ q ∈ moments fuel actions m m.psr.toWord, q.1.psr.toWord = q.2 := by
  induction actions generalizing m with
  | nil =>
    intro q hq
    obtain rfl := List.mem_singleton.mp hq
    rfl
  | cons a rest ih =>
    intro q hq
    rcases List.mem_append.mp hq with hq | hq
    · rcases List.mem_cons.mp hq with rfl | hq
      · rfl
      · exact a.status_words_executed fuel m q hq
    · cases h : a.perform fuel m with
      | none => simp [h] at hq
      | some s =>
        simp only [h, Action.status_of_perform h] at hq
        exact ih q hq

/-- In every session of a new machine the status register is the word that the masks keep, in which
no unused bit is set and one flag alone is. Of any word, writing the condition leaves the privilege
and writing the privilege leaves the flags. Writing a whole word takes over its privilege, and its
flags if just one is set; otherwise the condition becomes `z`. -/
theorem moments_status (flags : Flags) (fuel : Nat) (actions : List Action) :
    (∀ q ∈ moments fuel actions (new flags) StatusWord.initial,
      q.1.psr.toWord = q.2 ∧ StatusWord.WellFormed q.2) ∧
    (∀ byte : BitVec 8,
      (∀ p : Psr, (p.setCond byte).toWord = StatusWord.setCond p.toWord byte) ∧
      ∀ w : Word, (StatusWord.setCond w byte).getLsbD 15 = w.getLsbD 15) ∧
    (∀ b : Bool,
      (∀ p : Psr, (p.setPrivileged b).toWord = StatusWord.setPrivileged p.toWord b) ∧
      ∀ w : Word, (StatusWord.setPrivileged w b).setWidth 3 = w.setWidth 3) ∧
    ∀ w : Word, (Psr.ofWord w).toWord = StatusWord.set w ∧
      (StatusWord.set w).getLsbD 15 = w.getLsbD 15 ∧
      (StatusWord.set w).setWidth 3 =
        if Cond.Single (w.setWidth 3) then w.setWidth 3 else 0b010 := by
  refine ⟨?_, ?_, ?_, ?_⟩
  · intro q hq
    have start : StatusWord.initial = (new flags).psr.toWord := Psr.toWord_initial.symm
    rw [start] at hq
    have kept : q.1.psr.toWord = q.2 := toWord_of_mem_moments q hq
    exact ⟨kept, kept ▸ q.1.psr.wellFormed_toWord⟩
  · intro byte
    exact ⟨fun p => p.toWord_setCond byte, fun w => StatusWord.privilege_setCond w byte⟩
  · intro b
    exact ⟨fun p => p.toWord_setPrivileged b, fun w => StatusWord.flags_setPrivileged w b⟩
  · intro w
    have same : (Psr.ofWord w).toWord = StatusWord.set w := Psr.toWord_ofWord w
    refine ⟨same, ?_, ?_⟩
    · rw [← same]
      exact (Psr.ofWord w).privileged_toWord
    · rw [← same, Psr.flags_toWord]
      exact Cond.mask_ofMask (w.setWidth 3)

/-- A word with unused bits and a byte with all flags are written, and between the two a trap sets
the privilege and a return takes it away. -/
theorem moments_status_round :
    let visited := moments 0
      [.writeStatus (.word 0xFFF9), .operate (.eval (.trap 0x25)), .operate (.eval .rti),
        .writeStatus (.cond 0xFF)]
      (new .none) StatusWord.initial
    visited.map (·.2) =
        [0x8002, 0x8001, 0x8001, 0x8004, 0x8004, 0x8004, 0x0004, 0x0004, 0x0002] ∧
      ∀ q ∈ visited, StatusWord.WellFormed q.1.psr.toWord := by
  intro visited
  refine ⟨by decide +kernel, ?_⟩
  intro q hq
  obtain ⟨kept, wellFormed⟩ := (moments_status .none 0 _).1 q hq
  exact kept ▸ wellFormed

end Machine

end Lc4
