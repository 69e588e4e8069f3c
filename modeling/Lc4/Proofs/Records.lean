import Lc4.Object.File
import Lc4.Proofs.Utf8

/-!
# Blocks as they stand in a file

A record is a block with its name kept as the bytes that stand for it, valid or not. Every field of
a record has a length that the bytes before it tell. So a byte string starts with at most one
record, and a record can be told from what follows it.
-/
namespace Lc4

namespace Word

@[simp] theorem length_toBytes (w : Word) : w.toBytes.length = 2 :=
  rfl

theorem toBytes_ofBytes (high low : UInt8) : (ofBytes high low).toBytes = [high, low] := by
  have upper := BitVec.extractLsb'_append_eq_left (a := high.toBitVec) (b := low.toBitVec)
  have lower := BitVec.extractLsb'_append_eq_right (a := high.toBitVec) (b := low.toBitVec)
  rw [toBytes, ofBytes, upper, lower]

theorem toBytes_append_inj {v w : Word} {xs ys : List UInt8} :
    v.toBytes ++ xs = w.toBytes ++ ys ↔ v = w ∧ xs = ys := by
  constructor
  · intro same
    obtain ⟨words, rest⟩ := List.append_inj same rfl
    refine ⟨?_, rest⟩
    simp only [toBytes, List.cons.injEq, UInt8.ofBitVec.injEq, and_true] at words
    rw [← ofBytes_toBytes v, ← ofBytes_toBytes w, words.1, words.2]
  · rintro ⟨rfl, rfl⟩
    rfl

theorem length_flatMap_toBytes (ws : List Word) : (ws.flatMap toBytes).length = 2 * ws.length := by
  induction ws with
  | nil => rfl
  | cons w ws ih =>
    rw [List.flatMap_cons, List.length_append, ih, length_toBytes, List.length_cons]
    omega

theorem flatMap_toBytes_inj {vs ws : List Word} (h : vs.flatMap toBytes = ws.flatMap toBytes) :
    vs = ws := by
  induction vs generalizing ws with
  | nil =>
    cases ws with
    | nil => rfl
    | cons w ws => simp [toBytes] at h
  | cons v vs ih =>
    cases ws with
    | nil => simp [toBytes] at h
    | cons w ws =>
      rw [List.flatMap_cons, List.flatMap_cons, toBytes_append_inj] at h
      rw [h.1, ih h.2]

theorem exists_flatMap_toBytes {n : Nat} {bytes : List UInt8} (h : bytes.length = 2 * n) :
    ∃ ws : List Word, ws.length = n ∧ ws.flatMap toBytes = bytes := by
  induction n generalizing bytes with
  | zero => exact ⟨[], rfl, (List.length_eq_zero_iff.mp h).symm⟩
  | succ n ih =>
    match bytes, h with
    | high :: low :: rest, h =>
      have shorter : rest.length = 2 * n := by
        rw [List.length_cons, List.length_cons] at h
        omega
      obtain ⟨ws, length, rfl⟩ := ih shorter
      exact ⟨ofBytes high low :: ws, by simp [length], by simp [toBytes_ofBytes]⟩

end Word

namespace Object

/-- A list of words or bytes after its length. -/
def counted (n : Nat) (body : List UInt8) : List UInt8 :=
  Word.toBytes (BitVec.ofNat 16 n) ++ body

theorem toNat_count {n : Nat} (h : n ≤ maxLength) : (BitVec.ofNat 16 n).toNat = n := by
  rw [BitVec.toNat_ofNat]
  exact Nat.mod_eq_of_lt (Nat.lt_succ_of_le h)

theorem toNat_le_maxLength (w : Word) : w.toNat ≤ maxLength :=
  Nat.le_of_lt_succ w.isLt

theorem count_inj {m n : Nat} (hm : m ≤ maxLength) (hn : n ≤ maxLength)
    (h : BitVec.ofNat 16 m = BitVec.ofNat 16 n) : m = n := by
  rw [← toNat_count hm, ← toNat_count hn, h]

inductive Record
  | memory (part : Section) (addr : Word) (words : List Word)
  | symbol (addr : Word) (name : List UInt8)
  | fileName (name : List UInt8)
  | line (addr number fileIndex : Word)

namespace Record

def kind : Record → BlockKind
  | memory part _ _ => .memory part
  | symbol _ _ => .symbol
  | fileName _ => .fileName
  | line _ _ _ => .line

def payload : Record → List UInt8
  | memory _ addr words => addr.toBytes ++ counted words.length (words.flatMap Word.toBytes)
  | symbol addr name => addr.toBytes ++ counted name.length name
  | fileName name => counted name.length name
  | line addr number fileIndex => addr.toBytes ++ number.toBytes ++ fileIndex.toBytes

def bytes (r : Record) : List UInt8 :=
  r.kind.tag.toBytes ++ r.payload

/-- The block that is read from a record. -/
def block : Record → Block
  | memory part addr words => .memory part addr words
  | symbol addr name => .symbol addr (Text.Utf8.decode name)
  | fileName name => .fileName (Text.Utf8.decode name)
  | line addr number fileIndex => .line addr number fileIndex

/-- The length of a list of words or of a name is a word. -/
def Fits : Record → Prop
  | memory _ _ words => words.length ≤ maxLength
  | symbol _ name | fileName name => name.length ≤ maxLength
  | line _ _ _ => True

def NameValid : Record → Prop
  | symbol _ name | fileName name => Text.Utf8.Valid name
  | memory _ _ _ | line _ _ _ => True

theorem four_le_length_bytes (r : Record) : 4 ≤ r.bytes.length := by
  cases r <;> simp [bytes, payload, counted] <;> omega

theorem not_prefix_nil (r : Record) : ¬ r.bytes <+: [] := by
  intro starts
  have bound := r.four_le_length_bytes
  rw [List.prefix_nil.mp starts] at bound
  contradiction

section Prefix
variable {r s : Record} {xs ys : List UInt8}

/-- A length in front of a body tells where the body ends. -/
theorem counted_append_inj {m n : Nat} {a b : List UInt8} (hm : m ≤ maxLength)
    (hn : n ≤ maxLength) (lengths : m = n → a.length = b.length)
    (h : counted m a ++ xs = counted n b ++ ys) : a = b ∧ xs = ys := by
  rw [counted, counted, List.append_assoc, List.append_assoc, Word.toBytes_append_inj] at h
  exact List.append_inj h.2 (lengths (count_inj hm hn h.1))

/-- A payload tells where it ends, for each kind by its own lengths. -/
theorem payload_append_inj (same : r.kind = s.kind) (hr : r.Fits) (hs : s.Fits)
    (h : r.payload ++ xs = s.payload ++ ys) : r = s ∧ xs = ys := by
  cases r with
  | memory part addr words =>
    cases s with
    | memory part' addr' words' =>
      obtain rfl : part = part' := by simpa [kind] using same
      rw [payload, payload, List.append_assoc, List.append_assoc, Word.toBytes_append_inj] at h
      have lengths : words.length = words'.length →
          (words.flatMap Word.toBytes).length = (words'.flatMap Word.toBytes).length := by
        intro e
        rw [Word.length_flatMap_toBytes, Word.length_flatMap_toBytes, e]
      obtain ⟨body, rest⟩ := counted_append_inj hr hs lengths h.2
      exact ⟨by rw [h.1, Word.flatMap_toBytes_inj body], rest⟩
    | _ => cases same
  | symbol addr name =>
    cases s with
    | symbol addr' name' =>
      rw [payload, payload, List.append_assoc, List.append_assoc, Word.toBytes_append_inj] at h
      obtain ⟨name, rest⟩ := counted_append_inj hr hs id h.2
      exact ⟨by rw [h.1, name], rest⟩
    | _ => cases same
  | fileName name =>
    cases s with
    | fileName name' =>
      obtain ⟨name, rest⟩ := counted_append_inj hr hs id h
      exact ⟨by rw [name], rest⟩
    | _ => cases same
  | line addr number fileIndex =>
    cases s with
    | line addr' number' fileIndex' =>
      simp only [payload, List.append_assoc, Word.toBytes_append_inj] at h
      obtain ⟨rfl, rfl, rfl, rest⟩ := h
      exact ⟨rfl, rest⟩
    | _ => cases same

end Prefix

end Record

namespace BlockKind

theorem tag_inj {k l : BlockKind} (h : k.tag = l.tag) : k = l := by
  have same := congrArg ofTag? h
  simpa using same

end BlockKind

namespace Record

/-- Bytes start with at most one record. -/
theorem bytes_append_inj {r s : Record} {xs ys : List UInt8} (hr : r.Fits) (hs : s.Fits)
    (h : r.bytes ++ xs = s.bytes ++ ys) : r = s ∧ xs = ys := by
  rw [bytes, bytes, List.append_assoc, List.append_assoc, Word.toBytes_append_inj] at h
  exact payload_append_inj (BlockKind.tag_inj h.1) hr hs h.2

end Record

namespace Block

/-- The record that is written for a block. -/
def record : Block → Record
  | memory part addr words => .memory part addr (words.take maxLength)
  | symbol addr name => .symbol addr ((Text.Utf8.encode name).take maxLength)
  | fileName name => .fileName ((Text.Utf8.encode name).take maxLength)
  | line addr number fileIndex => .line addr number fileIndex

/-- What is left of a block when the lengths that a block can hold cut it. The name that is cut
may end within a character. -/
def cut : Block → Block
  | memory part addr words => .memory part addr (words.take maxLength)
  | symbol addr name => .symbol addr (Text.Utf8.decode ((Text.Utf8.encode name).take maxLength))
  | fileName name => .fileName (Text.Utf8.decode ((Text.Utf8.encode name).take maxLength))
  | line addr number fileIndex => .line addr number fileIndex

def Fits : Block → Prop
  | memory _ _ words => words.length ≤ maxLength
  | symbol _ name | fileName name => (Text.Utf8.encode name).length ≤ maxLength
  | line _ _ _ => True

instance : DecidablePred Fits
  | memory _ _ words => inferInstanceAs (Decidable (words.length ≤ maxLength))
  | symbol _ name | fileName name =>
    inferInstanceAs (Decidable ((Text.Utf8.encode name).length ≤ maxLength))
  | line _ _ _ => .isTrue trivial

/-- What is written for a block is its record. -/
theorem toBytes_eq_record_bytes (b : Block) : b.toBytes = b.record.bytes := by
  cases b <;> rfl

/-- The record that is written has no length beyond what two bytes count. -/
theorem fits_record (b : Block) : b.record.Fits := by
  cases b with
  | memory | symbol | fileName => exact List.length_take_le _ _
  | line => trivial

/-- Read back, a block that was written is the block with its overlong parts cut. -/
theorem block_record (b : Block) : b.record.block = b.cut := by
  cases b <;> rfl

theorem cut_of_fits {b : Block} (h : b.Fits) : b.cut = b := by
  cases b with
  | memory _ _ words => rw [cut, List.take_of_length_le h]
  | symbol _ name | fileName name => rw [cut, List.take_of_length_le h, Text.Utf8.decode_encode]
  | line => rfl

end Block

namespace Record

/-- What is written for a block with a valid name is the record that it was read from. -/
theorem record_block {r : Record} (fits : r.Fits) (valid : r.NameValid) : r.block.record = r := by
  cases r with
  | memory _ _ words => rw [block, Block.record, List.take_of_length_le fits]
  | symbol _ name | fileName name =>
    rw [block, Block.record, Text.Utf8.encode_decode_iff.mpr valid, List.take_of_length_le fits]
  | line => rfl

end Record

end Object

end Lc4
